import Blamejs.Lib.LatestWrite
import Blamejs.Lib.Run
import Blamejs.Ref.CookieJar

/-!
# Which cookies a request is sent with

The store follows the log of what was set for each name, domain and path, as long as no
cookie is set whose joined key another cookie lies under. And a cookie stays with the host
it came from or the domain it named, unless that domain is a tail of an address or the
empty one.
-/

namespace Blamejs.CookieJar

open Blamejs.Js StructuredFields LatestWrite

/-! ## What was set -/

/-- A cookie as a response of a host has set it, with its value. -/
structure Made where
  host : JsString
  cookie : Cookie
  plain : JsString
  deriving DecidableEq, Repr

/-- The URL of a line, its parts, and its cookie. -/
def lineCookie (P : Platform) (reqUrl line : JsString) (now : Int) :
    Option (Url × Parsed × Cookie) := do
  let parsed ← parseSetCookie P.cases line
  let u ← P.parse reqUrl
  let c ← cookieOf P u parsed now
  some (u, parsed, c)

/-- A line of a response, or a `clear`. -/
inductive Part where
  | line (reqUrl line : JsString) (now : Int)
  | clear (filter : Option Filter)

/-- The parts of an operation. -/
def parts : Op → List Part
  | .response reqUrl lines => lines.map fun x => .line reqUrl x.1 x.2
  | .clear filter => [.clear filter]

def stepPart (P : Platform) (s : Store) : Part → Store
  | .line reqUrl line now => setLine P s reqUrl line now
  | .clear filter => clear s filter

/-- What a part says is to be written. -/
def eventOf (P : Platform) : Part → Option (Event Triple Made)
  | .line reqUrl line now => (lineCookie P reqUrl line now).map fun (u, parsed, c) =>
      .put c.toTriple (if c.expired now then none
        else some ⟨toLowerCase P.cases u.hostname, c, parsed.value⟩)
  | .clear none => some (.drop fun _ => true)
  | .clear (some f) => some (.drop f.takes)

structure State where
  store : Store
  log : List (Event Triple Made)

def logOf (P : Platform) (log : List (Event Triple Made)) (ops : List Part) :
    List (Event Triple Made) := ops.foldl (fun log op => (eventOf P op).toList ++ log) log

/-- The store after an operation, and the log after all that its lines say. -/
def answer (P : Platform) (s : State) (op : Op) : Option State :=
  some ⟨step P s.store op, logOf P s.log (parts op)⟩

def move (P : Platform) (s : State) (op : Part) : Option State :=
  some ⟨stepPart P s.store op, (eventOf P op).toList ++ s.log⟩

def start : State := ⟨[], []⟩

/-! ## Hosts -/

/-- An address in brackets, or four numbers with points. -/
def isIpLiteral (host : JsString) : Bool :=
  host.head? = some (unit '[') ||
    ((host.splitOn (unit '.')).length = 4 &&
      (host.splitOn (unit '.')).all fun part => part ≠ [] && part.all isDigitUnit)

/-- The host, or one with further labels before the domain. -/
def Under (domain host : JsString) : Prop :=
  host = domain ∨ ∃ labels, host = labels ++ unit '.' :: domain

/-- The URL parser has no names below an address: what ends in a number is an address of
four numbers, and brackets begin a host. -/
def NoNamesBelow (P : Platform) : Prop :=
  ∀ text text' u u', P.parse text = some u → P.parse text' = some u' →
    isIpLiteral (toLowerCase P.cases u'.hostname) = true →
    ∀ labels, toLowerCase P.cases u.hostname ≠
      labels ++ unit '.' :: toLowerCase P.cases u'.hostname

/-- What the vault has sealed it gives back. -/
def Unseals (P : Platform) : Prop := ∀ v, P.unsealValue (P.sealValue v) = v

theorem under_of_domainMatch {host d : JsString} (h : domainMatch host d = true) :
    Under d host := by
  rw [domainMatch, Bool.or_eq_true] at h
  rcases h with h | h
  · exact Or.inl (of_decide_eq_true h)
  · obtain ⟨labels, hlabels⟩ := List.isSuffixOf_iff_suffix.mp h
    exact Or.inr ⟨labels, hlabels.symm⟩

/-! ## When nothing goes wrong -/

/-- A line sets a cookie whose joined key no other cookie lies under, and names no domain
but one that has labels and, if the host is an address, is that address. -/
def Apart (P : Platform) (s : State) : Part → Prop
  | .line reqUrl line now => ∀ u parsed c, lineCookie P reqUrl line now = some (u, parsed, c) →
      (∀ r ∈ s.store, r.1 = c.key → r.2.cookie.toTriple = c.toTriple) ∧
      (c.hostOnly = false → c.domain ≠ [] ∧
        (isIpLiteral (toLowerCase P.cases u.hostname) = true →
          c.domain = toLowerCase P.cases u.hostname))
  | .clear _ => True

/-- Every line in its turn is so and none makes the code throw. -/
def ApartAll (P : Platform) (s : State) : List Part → Prop
  | [] => True
  | op :: ops =>
      (match op with
        | .line reqUrl line now => lineThrows P reqUrl line now = false
        | .clear _ => True) ∧
      Apart P s op ∧
      ApartAll P ⟨stepPart P s.store op, (eventOf P op).toList ++ s.log⟩ ops

def Clean (P : Platform) (s : State) (op : Op) : Prop := ApartAll P s (parts op)

theorem reach_lines {P : Platform} {s₀ s : State} {reqUrl : JsString}
    {lines : List (JsString × Int)} (h : Run.Reach (move P) (Apart P) s₀ s)
    (hok : ApartAll P s (parts (.response reqUrl lines))) :
    Run.Reach (move P) (Apart P) s₀ ⟨setFromResponse P reqUrl s.store lines,
      logOf P s.log (parts (.response reqUrl lines))⟩ := by
  induction lines generalizing s with
  | nil => exact h
  | cons x lines ih =>
      obtain ⟨hquiet, hapart, hrest⟩ := hok
      have hquiet : lineThrows P reqUrl x.1 x.2 = false := hquiet
      rw [setFromResponse, hquiet, if_neg Bool.false_ne_true]
      exact ih (h.next hapart rfl) hrest

/-- A run of responses is one of their lines. -/
theorem reach_parts {P : Platform} {s : State} (h : Run.Reach (answer P) (Clean P) start s) :
    Run.Reach (move P) (Apart P) start s := by
  induction h with
  | start => exact .start
  | @next s s' op _ hok hs ih =>
      cases hs
      cases op with
      | response reqUrl lines => exact reach_lines ih hok
      | clear filter => exact ih.next (a := .clear filter) trivial rfl

/-! ## The store -/

section rows

variable {s : Store} {k : JsString} {e : Entry}

theorem mem_mapSet (hnodup : (s.map Prod.fst).Nodup) (r : JsString × Entry) :
    r ∈ mapSet s k e ↔ r = (k, e) ∨ (r ∈ s ∧ r.1 ≠ k) := by
  induction s with
  | nil => simp [mapSet]
  | cons q s ih =>
      obtain ⟨k', e'⟩ := q
      rw [List.map_cons, List.nodup_cons] at hnodup
      rw [mapSet]
      split
      · next hk =>
          subst hk
          have hs : ∀ r ∈ s, r.1 ≠ k' := fun r hr heq =>
            hnodup.1 (List.mem_map.mpr ⟨r, hr, heq⟩)
          simp only [List.mem_cons]
          constructor
          · rintro (rfl | hr)
            · exact Or.inl rfl
            · exact Or.inr ⟨Or.inr hr, hs r hr⟩
          · rintro (rfl | ⟨rfl | hr, hne⟩)
            · exact Or.inl rfl
            · exact absurd rfl hne
            · exact Or.inr hr
      · next hk =>
          rw [List.mem_cons, List.mem_cons, ih hnodup.2]
          constructor
          · rintro (rfl | rfl | ⟨hr, hne⟩)
            · exact Or.inr ⟨Or.inl rfl, hk⟩
            · exact Or.inl rfl
            · exact Or.inr ⟨Or.inr hr, hne⟩
          · rintro (rfl | ⟨rfl | hr, hne⟩)
            · exact Or.inr (Or.inl rfl)
            · exact Or.inl rfl
            · exact Or.inr (Or.inr ⟨hr, hne⟩)

theorem nodup_mapSet (hnodup : (s.map Prod.fst).Nodup) :
    ((mapSet s k e).map Prod.fst).Nodup := by
  induction s with
  | nil => simp [mapSet]
  | cons q s ih =>
      obtain ⟨k', e'⟩ := q
      rw [List.map_cons, List.nodup_cons] at hnodup
      rw [mapSet]
      split
      · next hk =>
          rw [List.map_cons, List.nodup_cons]
          exact ⟨hk ▸ hnodup.1, hnodup.2⟩
      · next hk =>
          rw [List.map_cons, List.nodup_cons]
          refine ⟨fun hmem => ?_, ih hnodup.2⟩
          obtain ⟨r, hr, hfst⟩ := List.mem_map.mp hmem
          rcases (mem_mapSet hnodup.2 r).mp hr with rfl | ⟨hr, -⟩
          · exact hk hfst.symm
          · exact hnodup.1 (List.mem_map.mpr ⟨r, hr, hfst⟩)

theorem nodup_filter (hnodup : (s.map Prod.fst).Nodup) (p : JsString × Entry → Bool) :
    ((s.filter p).map Prod.fst).Nodup :=
  hnodup.sublist (List.filter_sublist.map _)

end rows

/-- An entry holds the cookie that was made, and its value comes back. -/
def Holds (P : Platform) (e : Entry) (m : Made) : Prop :=
  e.cookie = m.cookie ∧ P.unsealValue e.cookie.value = m.plain

/-- The store follows the log. -/
abbrev StoreFollows (P : Platform) (s : Store) (log : List (Event Triple Made)) : Prop :=
  Follows Triple.key (fun e : Entry => e.cookie.toTriple) (Holds P) s log

section step

variable {P : Platform} {s s' : State} {op : Part}

theorem setLine_eq {P : Platform} {s : Store} {reqUrl line : JsString} {now : Int} :
    setLine P s reqUrl line now = match lineCookie P reqUrl line now with
      | none => s
      | some (_, _, c) => store s c now := by
  rw [setLine, lineCookie]
  cases hparse : parseSetCookie P.cases line with
  | none => rfl
  | some parsed =>
      cases hurl : P.parse reqUrl with
      | none => simp only [setOne, hurl, Option.bind_eq_bind, Option.bind_some, Option.bind_none]
      | some u =>
          cases hcookie : cookieOf P u parsed now with
          | none =>
              simp only [setOne, hurl, hcookie, Option.bind_eq_bind, Option.bind_some,
                Option.bind_none]
          | some c => simp only [setOne, hurl, hcookie, Option.bind_eq_bind, Option.bind_some]

theorem lineCookie_eq {reqUrl line : JsString} {now : Int} {u : Url} {parsed : Parsed} {c : Cookie}
    (h : lineCookie P reqUrl line now = some (u, parsed, c)) :
    P.parse reqUrl = some u ∧ cookieOf P u parsed now = some c := by
  obtain ⟨parsed', -, h⟩ := Option.bind_eq_some_iff.mp h
  obtain ⟨u', hurl, h⟩ := Option.bind_eq_some_iff.mp h
  obtain ⟨c', hcookie, h⟩ := Option.bind_eq_some_iff.mp h
  cases h
  exact ⟨hurl, hcookie⟩

/-- What a response may say of the domain and the value of its cookie. -/
theorem cookieOf_eq {u : Url} {parsed : Parsed} {now : Int} {c : Cookie}
    (h : cookieOf P u parsed now = some c) : c.value = P.sealValue parsed.value ∧
      (c.hostOnly = true → c.domain = toLowerCase P.cases u.hostname) ∧
      (c.hostOnly = false → domainMatch (toLowerCase P.cases u.hostname) c.domain = true) := by
  unfold cookieOf at h
  dsimp only at h
  split at h
  · split at h
    · next hmatch =>
        split at h
        · cases h
        · cases h
          exact ⟨rfl, Bool.noConfusion, fun _ => hmatch⟩
    · cases h
  · split at h
    · cases h
    · cases h
      exact ⟨rfl, fun _ => rfl, Bool.noConfusion⟩

/-- A line keeps the store and the log together. -/
theorem follows_line (hunseal : Unseals P) (h : StoreFollows P s.store s.log)
    {reqUrl line : JsString} {now : Int} (hok : Apart P s (.line reqUrl line now)) :
    StoreFollows P (setLine P s.store reqUrl line now)
      ((eventOf P (.line reqUrl line now)).toList ++ s.log) := by
  rw [setLine_eq, eventOf]
  cases hline : lineCookie P reqUrl line now with
  | none => exact h
  | some found =>
      obtain ⟨u, parsed, c⟩ := found
      obtain ⟨hapart, -⟩ := hok u parsed c hline
      obtain ⟨hvalue, -⟩ := cookieOf_eq (lineCookie_eq hline).2
      simp only [Option.map_some, Option.toList_some, List.singleton_append, store]
      split
      · next hexpired =>
          refine Follows.erase h hapart (nodup_filter h.nodup _) fun r => ?_
          rw [List.mem_filter]
          simp
      · next hexpired =>
          refine Follows.put h rfl ⟨rfl, ?_⟩ hapart (nodup_mapSet h.nodup) (mem_mapSet h.nodup)
          rw [hvalue, hunseal]

theorem follows_step (hunseal : Unseals P) (h : StoreFollows P s.store s.log) (hok : Apart P s op)
    (hmove : move P s op = some s') : StoreFollows P s'.store s'.log := by
  cases hmove
  cases op with
  | line reqUrl line now => exact follows_line hunseal h hok
  | clear filter =>
      cases filter with
      | none =>
          exact Follows.drop h List.nodup_nil fun r => by simp [stepPart, clear]
      | some f =>
          refine Follows.drop h (nodup_filter h.nodup _) fun r => ?_
          change r ∈ s.store.filter _ ↔ _
          rw [List.mem_filter, Bool.not_eq_true']

theorem reach_follows (hunseal : Unseals P) (h : Run.Reach (move P) (Apart P) start s) :
    StoreFollows P s.store s.log :=
  h.invariant (I := fun s => StoreFollows P s.store s.log) follows_nil
    fun _ _ _ hs hok hmove => follows_step hunseal hs hok hmove

/-! ## Where a cookie goes -/

/-- A cookie in the log: of a host that was parsed, and of this host alone or of a domain
above it. -/
structure Scoped (P : Platform) (m : Made) : Prop where
  host : ∃ text u, P.parse text = some u ∧ m.host = toLowerCase P.cases u.hostname
  only : m.cookie.hostOnly = true → m.cookie.domain = m.host
  below : m.cookie.hostOnly = false → m.cookie.domain ≠ [] ∧ Under m.cookie.domain m.host ∧
    (isIpLiteral m.host = true → m.cookie.domain = m.host)

theorem scoped_step (h : ∀ k m, .put k (some m) ∈ s.log → Scoped P m) (hok : Apart P s op)
    (hmove : move P s op = some s') : ∀ k m, .put k (some m) ∈ s'.log → Scoped P m := by
  cases hmove
  intro k m hmem
  rcases List.mem_append.mp hmem with hnew | hold
  · cases op with
    | line reqUrl line now =>
        rw [Option.mem_toList, eventOf, Option.map_eq_some_iff] at hnew
        obtain ⟨⟨u, parsed, c⟩, hline, hevent⟩ := hnew
        obtain ⟨hurl, hcookie⟩ := lineCookie_eq hline
        obtain ⟨-, honly, hdomain⟩ := cookieOf_eq hcookie
        obtain ⟨-, hscope⟩ := hok u parsed c hline
        simp only [Event.put.injEq] at hevent
        obtain ⟨-, hmade⟩ := hevent
        split at hmade
        · cases hmade
        · cases hmade
          exact ⟨⟨reqUrl, u, hurl, rfl⟩, honly, fun hf =>
            ⟨(hscope hf).1, under_of_domainMatch (hdomain hf), (hscope hf).2⟩⟩
    | clear filter => cases filter <;> simp [eventOf] at hnew
  · exact h k m hold

theorem reach_scoped (h : Run.Reach (move P) (Apart P) start s) :
    ∀ k m, .put k (some m) ∈ s.log → Scoped P m :=
  h.invariant (I := fun s => ∀ k m, .put k (some m) ∈ s.log → Scoped P m)
    (fun _ _ hmem => absurd hmem List.not_mem_nil)
    fun _ _ _ hs hok hmove => scoped_step hs hok hmove

/-- When a cookie is to go with a request: not expired, the host its own or below its
domain, the path its own or below it, and over TLS if it asks for that. -/
structure Goes (P : Platform) (c : Cookie) (u : Url) (now : Int) : Prop where
  live : ∀ t, c.expiresAt = some t → now < t
  host : c.hostOnly = true → toLowerCase P.cases u.hostname = c.domain
  below : c.hostOnly = false → Under c.domain (toLowerCase P.cases u.hostname)
  path : ∃ rest, (if u.pathname = [] then [unit '/'] else u.pathname) = c.path ++ rest ∧
    (rest = [] ∨ c.path.getLast? = some (unit '/') ∨ rest.head? = some (unit '/'))
  secure : c.secure = true → u.https = true

theorem domainMatch_iff {host d : JsString} : domainMatch host d = true ↔ Under d host := by
  refine ⟨under_of_domainMatch, fun h => ?_⟩
  rw [domainMatch, Bool.or_eq_true, decide_eq_true_iff, List.isSuffixOf_iff_suffix]
  exact h.imp_right fun ⟨labels, hlabels⟩ => ⟨labels, hlabels.symm⟩

theorem pathMatch_iff {reqPath cookiePath : JsString} : pathMatch reqPath cookiePath = true ↔
    ∃ rest, reqPath = cookiePath ++ rest ∧ (rest = [] ∨ cookiePath.getLast? = some (unit '/') ∨
      rest.head? = some (unit '/')) := by
  rw [pathMatch, Bool.or_eq_true, Bool.and_eq_true, Bool.or_eq_true, decide_eq_true_iff,
    decide_eq_true_iff, decide_eq_true_iff, List.isPrefixOf_iff_prefix]
  constructor
  · rintro (rfl | ⟨⟨rest, rfl⟩, hslash⟩)
    · exact ⟨[], (List.append_nil _).symm, .inl rfl⟩
    · rw [List.getElem?_append_right (Nat.le_refl _), Nat.sub_self,
        ← List.head?_eq_getElem?] at hslash
      exact ⟨rest, rfl, .inr hslash⟩
  · rintro ⟨rest, rfl, rfl | hslash⟩
    · exact .inl (List.append_nil _).symm
    · refine .inr ⟨⟨rest, rfl⟩, ?_⟩
      rwa [List.getElem?_append_right (Nat.le_refl _), Nat.sub_self, ← List.head?_eq_getElem?]

/-- The code's test for a cookie. -/
theorem goesWith_iff {c : Cookie} {u : Url} {now : Int} :
    c.goesWith P u now = true ↔ Goes P c u now := by
  have hlive : (!c.expired now) = true ↔ ∀ t, c.expiresAt = some t → now < t := by
    rw [Bool.not_eq_true', Cookie.expired]
    cases c.expiresAt with
    | none => simp
    | some t => simp
  simp only [Cookie.goesWith, Bool.and_eq_true, hlive, pathMatch_iff]
  constructor
  · rintro ⟨⟨⟨hexp, hdomain⟩, hpath⟩, hsecure⟩
    refine ⟨hexp, fun honly => ?_, fun honly => ?_, hpath, fun hs => ?_⟩
    · rw [honly, if_pos rfl] at hdomain
      exact (of_decide_eq_true hdomain).symm
    · rw [honly, if_neg Bool.false_ne_true] at hdomain
      exact domainMatch_iff.mp hdomain
    · rw [hs] at hsecure
      exact hsecure
  · rintro ⟨hexp, honly, hbelow, hpath, hsecure⟩
    refine ⟨⟨⟨hexp, ?_⟩, hpath⟩, ?_⟩
    · cases hh : c.hostOnly with
      | true =>
          rw [if_pos rfl]
          exact decide_eq_true (honly hh).symm
      | false =>
          rw [if_neg Bool.false_ne_true]
          exact domainMatch_iff.mpr (hbelow hh)
    · cases hs : c.secure with
      | true => exact hsecure hs
      | false => rfl

/-- A request that a cookie goes with is one to its host, or to a host below the domain
that its host, a name, is below itself. -/
theorem Scoped.goes {m : Made} (h : Scoped P m) (hnames : NoNamesBelow P) {reqUrl : JsString}
    {u : Url} {now : Int} (hurl : P.parse reqUrl = some u)
    (hgoes : Goes P m.cookie u now) :
    toLowerCase P.cases u.hostname = m.host ∨
      (isIpLiteral m.host = false ∧ m.cookie.domain ≠ [] ∧ Under m.cookie.domain m.host ∧
        Under m.cookie.domain (toLowerCase P.cases u.hostname)) := by
  cases honly : m.cookie.hostOnly with
  | true => exact Or.inl ((hgoes.host honly).trans (h.only honly))
  | false =>
      obtain ⟨hne, hunder, hip⟩ := h.below honly
      have hreq := hgoes.below honly
      cases hliteral : isIpLiteral m.host with
      | false => exact Or.inr ⟨rfl, hne, hunder, hreq⟩
      | true =>
          obtain ⟨text, u', hurl', hhost⟩ := h.host
          rw [hip hliteral] at hreq
          rcases hreq with heq | ⟨labels, heq⟩
          · exact Or.inl heq
          · rw [hhost] at heq hliteral
            exact absurd heq (hnames _ _ _ _ hurl hurl' hliteral labels)

/-! ## Requests -/

/-- The latest set of an entry's name, domain and path. -/
def latestOf (log : List (Event Triple Made)) (e : Entry) : Made :=
  (latest e.cookie.toTriple log).getD ⟨[], e.cookie, []⟩

/-- `name=value`. -/
def Made.text (m : Made) : JsString := m.cookie.name ++ unit '=' :: m.plain

theorem holds_latestOf (h : StoreFollows P s.store s.log) {r : JsString × Entry}
    (hr : r ∈ s.store) : latest r.2.cookie.toTriple s.log = some (latestOf s.log r.2) ∧
      Holds P r.2 (latestOf s.log r.2) := by
  obtain ⟨m, hlatest, hholds⟩ := h.sound r hr
  have hm : latestOf s.log r.2 = m := by rw [latestOf, hlatest, Option.getD_some]
  exact ⟨by rw [hlatest, hm], hm ▸ hholds⟩

theorem mem_matching {u : Url} {now : Int} {e : Entry} : e ∈ matching P s.store u now ↔
    (∃ k, (k, e) ∈ s.store) ∧ e.cookie.goesWith P u now = true := by
  rw [matching, List.mem_insertionSort, List.mem_filter, List.mem_map]
  refine and_congr_left fun _ => ⟨?_, ?_⟩
  · rintro ⟨⟨k, e'⟩, hmem, rfl⟩
    exact ⟨k, hmem⟩
  · rintro ⟨k, hmem⟩
    exact ⟨(k, e), hmem, rfl⟩

/-- No two entries that go with a request are of one name, domain and path. -/
theorem nodup_matching (h : StoreFollows P s.store s.log) (u : Url) (now : Int) :
    ((matching P s.store u now).map fun e => e.cookie.toTriple).Nodup := by
  have hstore : ((s.store.map Prod.snd).map fun e => e.cookie.toTriple).Nodup := by
    refine List.Nodup.of_map Triple.key ?_
    rw [List.map_map, List.map_map]
    have hkeys : s.store.map ((Triple.key ∘ fun e : Entry => e.cookie.toTriple) ∘ Prod.snd) =
        s.store.map Prod.fst := List.map_congr_left fun r hr => (h.joined r hr).symm
    rw [hkeys]
    exact h.nodup
  have hperm := List.perm_insertionSort sortsBefore
    ((s.store.map Prod.snd).filter fun e => e.cookie.goesWith P u now)
  exact (hperm.map _).nodup_iff.mpr (hstore.sublist (List.filter_sublist.map _))

theorem holds_of_matching (h : StoreFollows P s.store s.log) {u : Url} {now : Int} {e : Entry}
    (he : e ∈ matching P s.store u now) :
    latest e.cookie.toTriple s.log = some (latestOf s.log e) ∧ Holds P e (latestOf s.log e) := by
  obtain ⟨⟨k, hmem⟩, -⟩ := mem_matching.mp he
  exact holds_latestOf h hmem

/-- The cookies that go with a request are the latest ones put that do. -/
theorem mem_latestOf_matching (h : StoreFollows P s.store s.log) {u : Url} {now : Int} {m : Made} :
    m ∈ (matching P s.store u now).map (latestOf s.log) ↔
      latest m.cookie.toTriple s.log = some m ∧ m.cookie.goesWith P u now = true := by
  constructor
  · intro hm
    obtain ⟨e, he, rfl⟩ := List.mem_map.mp hm
    obtain ⟨hlatest, hcookie, -⟩ := holds_of_matching h he
    rw [← hcookie]
    exact ⟨hlatest, (mem_matching.mp he).2⟩
  · intro ⟨hlatest, hgoes⟩
    obtain ⟨e, he, -, hcookie, hplain⟩ := h.complete _ _ hlatest
    have hfound : e ∈ matching P s.store u now :=
      mem_matching.mpr ⟨⟨_, he⟩, by rw [hcookie]; exact hgoes⟩
    refine List.mem_map.mpr ⟨e, hfound, ?_⟩
    rw [latestOf, hcookie, hlatest, Option.getD_some]

theorem texts_latestOf_matching (h : StoreFollows P s.store s.log) {u : Url} {now : Int} :
    (matching P s.store u now).map
        (fun e => e.cookie.name ++ unit '=' :: P.unsealValue e.cookie.value) =
      ((matching P s.store u now).map (latestOf s.log)).map Made.text := by
  rw [List.map_map]
  refine List.map_congr_left fun e he => ?_
  obtain ⟨-, hcookie, hplain⟩ := holds_of_matching h he
  rw [Function.comp_apply, Made.text, ← hcookie, ← hplain]

theorem triples_latestOf_matching (h : StoreFollows P s.store s.log) {u : Url} {now : Int} :
    (matching P s.store u now).map ((fun m : Made => m.cookie.toTriple) ∘ latestOf s.log) =
      (matching P s.store u now).map fun e => e.cookie.toTriple := by
  refine List.map_congr_left fun e he => ?_
  rw [Function.comp_apply, ← (holds_of_matching h he).2.1]

end step

/-! ## Three sites -/

/-- A name with a bar in its path, and two addresses. -/
def hosts : List (JsString × Url) :=
  [(units "http://h.example/a|c", ⟨units "h.example", units "/a|c", false⟩),
    (units "http://127.0.0.1/", ⟨units "127.0.0.1", units "/", false⟩),
    (units "http://10.0.0.1/", ⟨units "10.0.0.1", units "/", false⟩)]

def sites : Platform := ⟨fun text => hosts.lookup text, asciiCases, fun _ => none, id, id⟩

theorem sites_noNamesBelow : NoNamesBelow sites := by
  have hmem : ∀ {text : JsString} {u : Url}, sites.parse text = some u →
      u ∈ hosts.map Prod.snd := by
    intro text u h
    obtain ⟨l₁, l₂, hsplit, -⟩ := List.lookup_eq_some_iff.mp h
    rw [hsplit, List.map_append]
    exact List.mem_append_right _ List.mem_cons_self
  have hall : ((hosts.map Prod.snd).all fun u => (hosts.map Prod.snd).all fun u' =>
      !isIpLiteral (toLowerCase asciiCases u'.hostname) ||
        !(unit '.' :: toLowerCase asciiCases u'.hostname).isSuffixOf
          (toLowerCase asciiCases u.hostname)) = true := by decide +kernel
  intro text text' u u' hu hu' hip labels heq
  have hpair := List.all_eq_true.mp (List.all_eq_true.mp hall u (hmem hu)) u' (hmem hu')
  have hsuffix : (unit '.' :: toLowerCase asciiCases u'.hostname).isSuffixOf
      (toLowerCase asciiCases u.hostname) = true :=
    List.isSuffixOf_iff_suffix.mpr ⟨labels, heq.symm⟩
  have hip : isIpLiteral (toLowerCase asciiCases u'.hostname) = true := hip
  rw [hip, hsuffix] at hpair
  cases hpair

def hostUrl : Url := ⟨units "h.example", units "/a|c", false⟩

/-- Two cookies of a host, the second set twice, and one for addresses only. -/
def hostOps : List Op :=
  [.response (units "http://h.example/a|c") [(units "b=1", 0), (units "d=2; Path=/a|c", 0)],
    .response (units "http://127.0.0.1/") [(units "e=3", 0)],
    .response (units "http://h.example/a|c") [(units "d=4; Path=/a|c; Max-Age=60", 1)]]

/-- The cookie a line sets stays apart from those there, for the host alone. -/
def apartOne (s : State) (reqUrl line : JsString) (now : Int) : Bool :=
  !lineThrows sites reqUrl line now &&
    (lineCookie sites reqUrl line now).all fun found => found.2.2.hostOnly &&
      s.store.all fun r => r.1 ≠ found.2.2.key || r.2.cookie.toTriple = found.2.2.toTriple

def apartAll (s : State) : List Part → Bool
  | [] => true
  | .line reqUrl line now :: ops => apartOne s reqUrl line now &&
      apartAll ⟨setLine sites s.store reqUrl line now,
        (eventOf sites (.line reqUrl line now)).toList ++ s.log⟩ ops
  | .clear filter :: ops =>
      apartAll ⟨clear s.store filter, (eventOf sites (.clear filter)).toList ++ s.log⟩ ops

theorem clean_of_apartAll {s : State} {ops : List Part} (h : apartAll s ops = true) :
    ApartAll sites s ops := by
  induction ops generalizing s with
  | nil => trivial
  | cons op ops ih =>
      cases op with
      | clear filter => exact ⟨trivial, trivial, ih h⟩
      | line reqUrl line now =>
          rw [apartAll, apartOne, Bool.and_eq_true, Bool.and_eq_true, Bool.not_eq_true'] at h
          refine ⟨h.1.1, fun u parsed c hline => ?_, ih h.2⟩
          have hone := h.1.2
          rw [hline, Option.all_some, Bool.and_eq_true] at hone
          refine ⟨fun r hr hkey => ?_, fun hf => ?_⟩
          · have hrow := List.all_eq_true.mp hone.2 r hr
            rw [decide_eq_false (not_not.mpr hkey), Bool.false_or] at hrow
            exact of_decide_eq_true hrow
          · have honly : c.hostOnly = true := hone.1
            rw [honly] at hf
            cases hf

def barCookie : Cookie where
  domain := units "h.example"
  path := units "/a|c"
  name := units "b"
  value := units "1"
  hostOnly := true
  expiresAt := none
  secure := false

/-- Three hundred and nine nines. -/
def longAge : JsString := units "a=1; Max-Age=" ++ List.replicate 309 (unit '9')

end Blamejs.CookieJar
