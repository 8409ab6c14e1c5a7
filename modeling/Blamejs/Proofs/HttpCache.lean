import Blamejs.Lib.Run
import Blamejs.Proofs.CanonicalText
import Blamejs.Ref.HttpCache

/-!
# What a lookup may answer with

A lookup goes through a normalized URL, a marker that any later response may have
left, and a second key. None of it needs to be remembered as a history: a key says
which method, which target and which header texts it was built from, and an entry
carries the same data, so whatever the store kept or lost, an entry found under a
key is one whose request had them. `Kept` is that fact of every cell, and each
operation keeps it.
-/

namespace Blamejs.HttpCache

open Blamejs.Js CanonicalJson Delimiting LossyStore Run Spec

variable {p : Platform}

/-! ## Keys -/

theorem emit_pairValue {i : Nat} {seen : List Nat} (hfresh : i + 2 ∉ seen)
    (pair : JsString × Option JsString) :
    ∃ text, emit .hex 2 (pairValue i pair) seen = .ok (text, (i + 2) :: seen) := by
  unfold pairValue
  cases pair.2 <;>
    exact ⟨_, by rw [emit, walk_bind (enter_fresh hfresh (by decide))]; simp only [emitItems,
      Option.elim, emit]; rfl⟩

theorem emit_pairs (vary : VaryValues) {i : Nat} {seen : List Nat} (hseen : ∀ r ∈ seen, r < i + 2) :
    ∃ texts seen', emitItems .hex 2 ((vary.zipIdx i).map fun e => pairValue e.2 e.1) seen =
      .ok (texts, seen') := by
  induction vary generalizing i seen with
  | nil => exact ⟨[], seen, rfl⟩
  | cons pair vary ih =>
      obtain ⟨text, htext⟩ := emit_pairValue (fun h => Nat.lt_irrefl _ (hseen _ h)) pair
      obtain ⟨texts, seen', htexts⟩ := @ih (i + 1) ((i + 2) :: seen) fun r hr => by
        rcases List.mem_cons.mp hr with rfl | hr
        · omega
        · have := hseen r hr
          omega
      refine ⟨text :: texts, seen', ?_⟩
      rw [List.zipIdx_cons, List.map_cons, emitItems, walk_bind htext, walk_bind htexts]
      rfl

theorem sortKeys_shape {α : Type} (a b c : α) :
    sortKeys [(units "m", a), (units "u", b), (units "v", c)] =
      [(units "m", a), (units "u", b), (units "v", c)] := by
  have hmu : keyLE (units "m", a) (units "u", b) := show unitLE (units "m") (units "u") by decide
  have huv : keyLE (units "u", b) (units "v", c) := show unitLE (units "u") (units "v") by decide
  simp [sortKeys, List.insertionSort, hmu, huv]

theorem stringify_default (v : Value) : stringify v none = emitTop .hex v := rfl

theorem stringify_keyShape (m u : JsString) (vary : VaryValues) :
    ∃ text, stringify (keyShape m u vary) none = .ok text := by
  obtain ⟨texts, seen', htexts⟩ := @emit_pairs vary 0 [1, 0] (by simp)
  let text := unit '[' :: (joinComma texts ++ [unit ']'])
  have hvary : emit .hex 1 (varyValue vary) [0] = .ok (text, seen') := by
    rw [varyValue, emit, walk_bind (enter_fresh (by simp) (by decide))]
    exact (walk_bind htexts).trans rfl
  have hshape : emit .hex 0 (keyShape m u vary) [] = .ok (unit '\x7b' :: (joinComma
      [quote (units "m") ++ unit ':' :: quote m, quote (units "u") ++ unit ':' :: quote u,
        quote (units "v") ++ unit ':' :: text] ++ [unit '\x7d']), seen') := by
    rw [keyShape, emit, walk_bind (enter_fresh (by simp) (by decide))]
    simp only [emitEntries, sortKeys_shape, List.mapM_cons, List.mapM_nil, emit, pure_bind,
      bind_assoc]
    exact (walk_bind hvary).trans rfl
  exact ⟨_, by rw [stringify_default, emitTop, StateT.run', hshape]; rfl⟩

/-- A pair as it is read back. -/
def pairJson (pair : JsString × Option JsString) : Json :=
  .arr [.str pair.1, pair.2.elim .null .str]

theorem pairJson_injective : Function.Injective pairJson := by
  rintro ⟨name, none | s⟩ ⟨name', none | s'⟩ h <;> simp_all [pairJson]

theorem reading_varyValue (vary : VaryValues) :
    reading (varyValue vary) = .arr (vary.map pairJson) := by
  have hpair : ∀ i pair, reading (pairValue i pair) = pairJson pair := by
    rintro i ⟨name, none | s⟩ <;> simp [pairValue, pairJson, reading, readingItems]
  have hitems : ∀ i, readingItems ((vary.zipIdx i).map fun e => pairValue e.2 e.1) =
      vary.map pairJson := by
    induction vary with
    | nil => exact fun i => rfl
    | cons pair vary ih =>
        intro i
        rw [List.zipIdx_cons, List.map_cons, readingItems, ih (i + 1), hpair, List.map_cons]
  rw [varyValue, reading, hitems 0]

/-- Two keys are the same when they are built from the same method, normalized URL and
header texts. -/
theorem buildCacheKey_inj {method url method' url' : JsString} {vary vary' : VaryValues}
    (h : buildCacheKey p method url vary = buildCacheKey p method' url' vary') :
    methodText p method = methodText p method' ∧ normalizeUrl p url = normalizeUrl p url' ∧
      vary = vary' := by
  obtain ⟨t, ht⟩ := stringify_keyShape (methodText p method) (normalizeUrl p url) vary
  obtain ⟨t', ht'⟩ := stringify_keyShape (methodText p method') (normalizeUrl p url') vary'
  simp only [buildCacheKey, ht, ht'] at h
  rw [stringify_default] at ht ht'
  have hread := (emitTop_eq_iff ht ht').mp h
  simp only [keyShape, reading, readingEntries, sortKeys_shape, reading_varyValue, Json.obj.injEq,
    List.cons.injEq, Prod.mk.injEq, Json.str.injEq, Json.arr.injEq, true_and, and_true] at hread
  exact ⟨hread.1, hread.2.1, (List.map_injective_iff.mpr pairJson_injective) hread.2.2⟩

/-! ## Targets -/

/-- The parts of two URLs agree, with the parameters in some order. -/
structure SameParts (u v : Url) : Prop where
  protocol : u.protocol = v.protocol
  host : u.host = v.host
  pathname : u.pathname = v.pathname
  searchParams : u.searchParams.Perm v.searchParams

/-- Two texts name the same target. One that `safeUrl` refuses has no parts, and is
compared as it stands. -/
def SameTarget (p : Platform) (a b : JsString) : Prop :=
  match safeUrlParse p a, safeUrlParse p b with
  | some u, some v => SameParts u v
  | _, _ => normalizeUrl p a = normalizeUrl p b

theorem paramText_injective : Function.Injective paramText := by
  rintro ⟨k, v⟩ ⟨k', v'⟩ h
  have heq : ∀ cs : List Char, unit '=' ∉ encodeURIComponent cs :=
    not_mem_encodeURIComponent (by decide) (by decide) (by decide)
  have hspan := span_append (p := (· ≠ unit '=')) (fun u hu => by
      simpa using ne_of_mem_of_not_mem hu (heq k))
    (fun u hu => by simpa using ne_of_mem_of_not_mem hu (heq k')) (by simp [Leaves])
    (by simp [Leaves]) h
  obtain ⟨hk, hv⟩ := hspan
  rw [List.cons.injEq] at hv
  exact Prod.ext (encodeURIComponent_injective hk) (encodeURIComponent_injective hv.2)

theorem amp_not_mem_paramText (e : List Char × List Char) : unit '&' ∉ paramText e := by
  have hamp : ∀ cs : List Char, unit '&' ∉ encodeURIComponent cs :=
    not_mem_encodeURIComponent (by decide) (by decide) (by decide)
  simp only [paramText, List.mem_append, List.mem_cons, hamp, false_or, or_false]
  decide

theorem perm_of_sorted {l l' : List (List Char × List Char)}
    (h : l.insertionSort paramLE = l'.insertionSort paramLE) : l.Perm l' :=
  (List.perm_insertionSort paramLE l).symm.trans (h ▸ List.perm_insertionSort paramLE l')

theorem normalizedSearch_perm {u v : Url} (h : normalizedSearch u = normalizedSearch v) :
    u.searchParams.Perm v.searchParams := by
  have hempty : ∀ w : Url, w.search = [] ∨ w.searchParams = [] → w.searchParams = [] :=
    fun w hw => hw.elim w.params id
  have hne : ∀ {w : Url}, ¬ (w.search = [] ∨ w.searchParams = []) →
      (w.searchParams.insertionSort paramLE).map paramText ≠ [] := by
    intro w hw hnil
    have hlen := congrArg List.length hnil
    rw [List.length_map, List.length_insertionSort] at hlen
    exact hw (Or.inr (List.length_eq_zero_iff.mp hlen))
  have hamp : ∀ l : List (List Char × List Char), ∀ t ∈ l.map paramText, unit '&' ∉ t := by
    intro l t ht
    obtain ⟨e, -, rfl⟩ := List.mem_map.mp ht
    exact amp_not_mem_paramText e
  unfold normalizedSearch at h
  split at h <;> split at h
  · next hu hv => rw [hempty u hu, hempty v hv]
  · cases h
  · cases h
  · next hu hv =>
      have htexts := intercalate_injective (hamp _) (hamp _) (hne hu) (hne hv) (List.cons.inj h).2
      exact perm_of_sorted (List.map_injective_iff.mpr paramText_injective htexts)

theorem safeUrlParse_protocol {url : JsString} {u : Url} (h : safeUrlParse p url = some u) :
    u.protocol = units "http:" ∨ u.protocol = units "https:" := by
  unfold safeUrlParse at h
  split at h; · cases h
  split at h; · cases h
  split at h
  · cases h
  · split at h; · cases h
    split at h; · cases h
    next hprotocol =>
      split at h; · cases h
      split at h; · cases h
      obtain rfl := Option.some.inj h
      simpa only [allowHttpAll, List.mem_cons, List.not_mem_nil, or_false] using
        not_not.mp hprotocol

theorem protocols_inj {p q s t : JsString} (hp : p = units "http:" ∨ p = units "https:")
    (hq : q = units "http:" ∨ q = units "https:")
    (h : p ++ (units "//" ++ s) = q ++ (units "//" ++ t)) : p = q ∧ s = t := by
  -- the fifth character tells the two protocols apart
  have hfifth : p[4]? = q[4]? := by
    have hlong : ∀ {r : JsString}, r = units "http:" ∨ r = units "https:" → 4 < r.length := by
      rintro r (rfl | rfl) <;> decide
    rw [← List.getElem?_append_left (hlong hp), h, List.getElem?_append_left (hlong hq)]
  have hsame : p = q := by
    rcases hp with rfl | rfl <;> rcases hq with rfl | rfl
    · rfl
    · exact absurd hfifth (by decide)
    · exact absurd hfifth (by decide)
    · rfl
  subst hsame
  exact ⟨rfl, List.append_cancel_left (List.append_cancel_left h)⟩

/-- Where the authority and the path of a web URL end is decided by their signs. -/
theorem parts_inj {u v : Url} (hu : u.protocol = units "http:" ∨ u.protocol = units "https:")
    (hv : v.protocol = units "http:" ∨ v.protocol = units "https:")
    (h : u.protocol ++ units "//" ++ u.host ++ u.pathname ++ normalizedSearch u =
      v.protocol ++ units "//" ++ v.host ++ v.pathname ++ normalizedSearch v) : SameParts u v := by
  obtain ⟨hhost, hpath, hquery⟩ := u.parts hu
  obtain ⟨hhost', hpath', hquery'⟩ := v.parts hv
  have hprotocol : u.protocol = v.protocol ∧ u.host ++ (u.pathname ++ normalizedSearch u) =
      v.host ++ (v.pathname ++ normalizedSearch v) :=
    protocols_inj hu hv (by simpa only [List.append_assoc] using h)
  have hslash : ∀ {w : Url}, w.pathname.head? = some (unit '/') →
      Leaves (· ≠ unit '/') (w.pathname ++ normalizedSearch w) := by
    intro w hw s hs
    rw [List.head?_append, hw] at hs
    simp [← Option.some.inj hs]
  obtain ⟨hsame, hrest⟩ := span_append (p := (· ≠ unit '/'))
    (fun s hs => by simpa using ne_of_mem_of_not_mem hs hhost)
    (fun s hs => by simpa using ne_of_mem_of_not_mem hs hhost') (hslash hpath) (hslash hpath')
    hprotocol.2
  have hmark : ∀ w : Url, Leaves (· ≠ unit '?') (normalizedSearch w) := by
    intro w s hs
    unfold normalizedSearch at hs
    split at hs
    · cases hs
    · simp [← Option.some.inj hs]
  obtain ⟨hsame', hsearch⟩ := span_append (p := (· ≠ unit '?'))
    (fun s hs => by simpa using ne_of_mem_of_not_mem hs hquery)
    (fun s hs => by simpa using ne_of_mem_of_not_mem hs hquery') (hmark u) (hmark v) hrest
  exact ⟨hprotocol.1, hsame, hsame', normalizedSearch_perm hsearch⟩

/-- No two targets share a normalized URL. -/
theorem sameTarget_of_normalizeUrl {a b : JsString} (h : normalizeUrl p a = normalizeUrl p b) :
    SameTarget p a b := by
  have hpath : ∀ {a : JsString} {u : Url}, safeUrlParse p a = some u → u.pathname ≠ [] := by
    intro a u ha hnil
    have := (u.parts (safeUrlParse_protocol ha)).2.1
    rw [hnil] at this
    cases this
  unfold SameTarget
  split
  · next u v ha hb =>
      simp only [normalizeUrl, ha, hb, if_neg (hpath ha), if_neg (hpath hb)] at h
      exact parts_inj (safeUrlParse_protocol ha) (safeUrlParse_protocol hb) h
  · exact h

/-! ## What is stored -/

variable {sharedCache : Bool} {now : Int} {f : Fates} {cells : Cells} {x : Exchange} {e : Entry}
  {method url : JsString} {requestHeaders : Headers}

def directivesOf (p : Platform) (headers : Headers) : Directives :=
  parseCacheControl p (headerOne (lcHeaders p headers) (units "cache-control"))

def varyOf (p : Platform) (headers : Headers) : Option JsString :=
  headerOne (lcHeaders p headers) (units "vary")

/-- A shared cache may answer others with the response. -/
def Allowed (p : Platform) (sharedCache : Bool) (headers : Headers) (authorized : Bool) : Prop :=
  sharedCache = true → ccPresent (directivesOf p headers) "private" = false ∧
    (authorized = true → authShareable (directivesOf p headers) = true)

theorem evaluateStorage_cacheable {statusCode : Nat} {responseHeaders : Headers}
    (h : (evaluateStorage p now method statusCode responseHeaders sharedCache
      requestHeaders).cacheable = true) :
    (methodText p method = units "GET" ∨ methodText p method = units "HEAD") ∧
      Allowed p sharedCache responseHeaders (hasAuthorization p requestHeaders) := by
  unfold evaluateStorage at h
  dsimp only at h
  have hnext : ∀ {c : Prop} [Decidable c] {x y : Evaluation}, x.cacheable = false →
      (if c then x else y).cacheable = true → ¬ c ∧ y.cacheable = true := by
    intro c _ x y hx hif
    split at hif
    · rw [hx] at hif
      cases hif
    · next hc => exact ⟨hc, hif⟩
  obtain ⟨hmethod, h⟩ := hnext rfl h
  obtain ⟨-, h⟩ := hnext rfl h
  obtain ⟨-, h⟩ := hnext rfl h
  obtain ⟨hprivate, h⟩ := hnext rfl h
  obtain ⟨hauth, -⟩ := hnext rfl h
  refine ⟨by tauto, fun hshared => ⟨?_, fun hauthorized => ?_⟩⟩
  · exact Bool.not_eq_true _ ▸ fun hp => hprivate ⟨hshared, hp⟩
  · by_contra hnot
    exact hauth ⟨hshared, hauthorized, hnot⟩

theorem evaluateStorage_fields {statusCode : Nat} {responseHeaders : Headers} :
    (evaluateStorage p now method statusCode responseHeaders sharedCache
        requestHeaders).directives = directivesOf p responseHeaders ∧
      (evaluateStorage p now method statusCode responseHeaders sharedCache
        requestHeaders).varyHeader = varyOf p responseHeaders := by
  have hite : ∀ {c : Prop} [Decidable c] {x y : Evaluation},
      (x.directives = directivesOf p responseHeaders ∧ x.varyHeader = varyOf p responseHeaders) →
      (y.directives = directivesOf p responseHeaders ∧ y.varyHeader = varyOf p responseHeaders) →
      ((if c then x else y).directives = directivesOf p responseHeaders ∧
        (if c then x else y).varyHeader = varyOf p responseHeaders) := by
    intro c _ x y hx hy
    split
    · exact hx
    · exact hy
  unfold evaluateStorage
  dsimp only
  refine hite ⟨rfl, rfl⟩ (hite ⟨rfl, rfl⟩ (hite ⟨rfl, rfl⟩ (hite ⟨rfl, rfl⟩ (hite ⟨rfl, rfl⟩
    (hite ⟨rfl, rfl⟩ (hite ⟨rfl, rfl⟩ (hite ⟨rfl, rfl⟩ ?_)))))))
  split
  · exact hite ⟨rfl, rfl⟩ ⟨rfl, rfl⟩
  · exact hite ⟨rfl, rfl⟩ ⟨rfl, rfl⟩

/-- The entry is the response of the exchange, as it was stored or with headers that
were freshened since. -/
structure StoredFor (p : Platform) (x : Exchange) (e : Entry) : Prop where
  method : e.method = methodText p x.method
  known : methodText p e.method = e.method
  url : e.url = x.url
  varyHeader : e.varyHeader = nonEmpty (varyOf p x.responseHeaders)
  varyValues : extractVaryValues p (varyOf p x.responseHeaders) x.requestHeaders =
    some e.varyValues
  statusCode : e.statusCode = x.statusCode
  body : e.body = x.body
  hadAuthorization : e.hadAuthorization = some (hasAuthorization p x.requestHeaders)

/-- An entry that was stored for something offered, and may be shared. -/
def Sound (p : Platform) (sharedCache : Bool) (offered : List Exchange) (e : Entry) : Prop :=
  ∃ x ∈ offered, StoredFor p x e ∧
    Allowed p sharedCache x.responseHeaders (hasAuthorization p x.requestHeaders) ∧
    Allowed p sharedCache e.headers (hasAuthorization p x.requestHeaders)

/-- What stands under a key. -/
def Kept (p : Platform) (sharedCache : Bool) (offered : List Exchange) (key : JsString) :
    Cell → Prop
  | .entry e => Sound p sharedCache offered e ∧ key = e.key p e.method
  | .marker m => m.varyNames ≠ [] ∧ ∃ method url, key = buildCacheKey p method url []

theorem methodText_known
    (h : methodText p method = units "GET" ∨ methodText p method = units "HEAD") :
    methodText p (methodText p method) = methodText p method := by
  rcases h with h | h <;> rw [h] <;>
    exact p.toUpperCase_upper _ (List.all_iff_forall_prop.mp (by decide))

theorem key_congr {method' : JsString} (h : methodText p method = methodText p method') :
    e.key p method = e.key p method' := by
  simp only [Entry.key, buildCacheKey, h]

theorem buildEntry_stored {evaluation : Evaluation}
    (hvary : evaluation.varyHeader = varyOf p x.responseHeaders)
    (hmethod : methodText p (methodText p x.method) = methodText p x.method)
    (h : buildEntry p now x evaluation = some e) :
    StoredFor p x e ∧ e.headers = x.responseHeaders := by
  unfold buildEntry at h
  split at h
  · cases h
  · next varyValues hvalues =>
      obtain rfl := Option.some.inj h
      exact ⟨⟨rfl, hmethod, rfl, by rw [hvary], by rw [← hvary, hvalues], rfl, rfl, rfl⟩, rfl⟩

theorem Sound.mono {offered offered' : List Exchange} (h : Sound p sharedCache offered e)
    (hsub : offered ⊆ offered') : Sound p sharedCache offered' e := by
  obtain ⟨x, hx, hsound⟩ := h
  exact ⟨x, hsub hx, hsound⟩

theorem Kept.mono {offered offered' : List Exchange} {key : JsString} {cell : Cell}
    (h : Kept p sharedCache offered key cell) (hsub : offered ⊆ offered') :
    Kept p sharedCache offered' key cell := by
  cases cell with
  | entry e => exact ⟨h.1.mono hsub, h.2⟩
  | marker m => exact h

theorem maybeStore_kept {offered : List Exchange} (h : Holds (Kept p sharedCache offered) cells) :
    Holds (Kept p sharedCache (offered ++ [x])) (maybeStore p sharedCache now f cells x).2 := by
  have hmono : Holds (Kept p sharedCache (offered ++ [x])) cells :=
    h.mono fun _ _ hk => hk.mono (List.subset_append_left offered [x])
  unfold maybeStore
  dsimp only
  split
  · next hcacheable =>
      obtain ⟨hmethod, hallowed⟩ := evaluateStorage_cacheable hcacheable
      unfold store
      split
      · exact hmono
      · next e hentry =>
          obtain ⟨hstored, hheaders⟩ :=
            buildEntry_stored evaluateStorage_fields.2 (methodText_known hmethod) hentry
          have hsound : Sound p sharedCache (offered ++ [x]) e :=
            ⟨x, by simp, hstored, hallowed, hheaders ▸ hallowed⟩
          have hkey : e.key p x.method = e.key p e.method :=
            key_congr (by rw [hstored.method, methodText_known hmethod])
          have hset : Holds (Kept p sharedCache (offered ++ [x]))
              (set (f 0) cells (e.key p x.method) (.entry e)) := hmono.set ⟨hsound, hkey⟩
          dsimp only
          split
          · exact hset
          · split
            · next hvary =>
                refine hset.set ⟨?_, x.method, x.url, rfl⟩
                simp only [Entry.hasVary, Bool.and_eq_true, decide_eq_true_eq] at hvary
                simpa using hvary.2
            · exact hset
  · exact hmono

/-- The gate asks for an authorization when the stored response had one. -/
theorem hasAuthorization_gate (h : StoredFor p x e) :
    hasAuthorization p (reqHeadersForGate e) = hasAuthorization p x.requestHeaders := by
  have hlower := p.toLowerCase_lower (units "authorization")
    (List.all_iff_forall_prop.mp (by decide))
  rw [reqHeadersForGate, h.hadAuthorization]
  cases hasAuthorization p x.requestHeaders
  · rfl
  · rw [if_neg (by decide), hasAuthorization, List.find?_cons, hlower]
    rfl

theorem refreshFrom304_kept {offered : List Exchange} {fresh304Headers : Headers}
    (h : Holds (Kept p sharedCache offered) cells) (he : Sound p sharedCache offered e) :
    Holds (Kept p sharedCache offered)
      (refreshFrom304 p sharedCache now f cells e fresh304Headers).2 := by
  obtain ⟨x, hx, hstored, hallowed, -⟩ := he
  unfold refreshFrom304
  dsimp only
  split
  · next hcacheable =>
      have hfresh := (evaluateStorage_cacheable hcacheable).2
      rw [hasAuthorization_gate hstored] at hfresh
      refine h.set ⟨⟨x, hx, ?_, hallowed, hfresh⟩, rfl⟩
      exact ⟨hstored.method, hstored.known, hstored.url, hstored.varyHeader, hstored.varyValues,
        hstored.statusCode, hstored.body, hstored.hadAuthorization⟩
  · exact h.delete

/-! ## What is found -/

/-- An entry is found under the texts that the request has of some headers. -/
def Found (p : Platform) (sharedCache : Bool) (offered : List Exchange) (method url : JsString)
    (requestHeaders : Headers) (e : Entry) : Prop :=
  Sound p sharedCache offered e ∧ methodText p method = methodText p e.method ∧
    SameTarget p url e.url ∧ ∃ names, e.varyValues = varyPairs p names requestHeaders

theorem varyValues_of_not_hasVary (h : StoredFor p x e) (hvary : e.hasVary = false) :
    e.varyValues = [] := by
  have hvalues := h.varyValues
  have hheader := h.varyHeader
  simp only [Entry.hasVary, Bool.and_eq_false_iff, Option.isSome_eq_false_iff,
    Option.isNone_iff_eq_none, decide_eq_false_iff_not, not_not] at hvary
  rcases hvary with hnone | hnil
  · rw [hnone, eq_comm, nonEmpty, Option.filter_eq_none_iff] at hheader
    unfold extractVaryValues at hvalues
    split at hvalues
    · exact (Option.some.inj hvalues).symm
    · exact (Option.some.inj hvalues).symm
    · next header hne hheader' =>
        have := hheader header hheader'
        simp only [decide_eq_true_eq, not_not] at this
        exact absurd (this ▸ rfl) hne
  · exact hnil

/-- Whatever stands under the key of a request and some of its header texts was found
by them. -/
theorem found_of_kept {offered : List Exchange} {names : List JsString}
    (h : Kept p sharedCache offered
      (buildCacheKey p method url (varyPairs p names requestHeaders)) (.entry e)) :
    Found p sharedCache offered method url requestHeaders e := by
  obtain ⟨hsound, hkey⟩ := h
  obtain ⟨hmethod, hurl, hvary⟩ := buildCacheKey_inj hkey
  refine ⟨hsound, hmethod, sameTarget_of_normalizeUrl hurl, names, ?_⟩
  obtain ⟨x, -, hstored, -⟩ := hsound
  split at hvary
  · exact hvary.symm
  · next hnot =>
      rw [varyValues_of_not_hasVary hstored (by simpa using hnot), ← hvary]

theorem varyPairs_eq_nil {names : List JsString} :
    varyPairs p names requestHeaders = [] ↔ names = [] := by
  rw [varyPairs, List.map_eq_nil_iff, ← List.length_eq_zero_iff, List.length_insertionSort,
    List.length_eq_zero_iff]

theorem lookup_kept {offered : List Exchange} (h : Holds (Kept p sharedCache offered) cells) :
    Holds (Kept p sharedCache offered) (lookup p f cells method url).2 ∧
      ∀ key cell, (lookup p f cells method url).1 = some (key, cell) →
        key = buildCacheKey p method url [] ∧ Kept p sharedCache offered key cell := by
  unfold lookup
  dsimp only
  split
  · next got cells' hget =>
      obtain ⟨hcells, hgot⟩ := h.get hget
      refine ⟨hcells, fun key cell heq => ?_⟩
      obtain ⟨rfl, rfl⟩ := Prod.mk.inj (Option.some.inj heq)
      exact ⟨rfl, hgot got rfl⟩
  · next cells' hget => exact ⟨(h.get hget).1, fun _ _ heq => nomatch heq⟩

theorem resolveEntryWithVary_kept {offered : List Exchange}
    (h : Holds (Kept p sharedCache offered) cells) :
    Holds (Kept p sharedCache offered)
        (resolveEntryWithVary p f cells method url requestHeaders).2 ∧
      ∀ key cell, (resolveEntryWithVary p f cells method url requestHeaders).1 = some (key, cell) →
        ∃ e, cell = .entry e ∧ Found p sharedCache offered method url requestHeaders e := by
  obtain ⟨hlookup, hgot⟩ := @lookup_kept _ _ f _ method url _ h
  unfold resolveEntryWithVary
  split
  · next key m cells' heq =>
      rw [heq] at hlookup hgot
      have hnames := (hgot key (.marker m) rfl).2.1
      dsimp only
      split
      · next cell cells'' hget =>
          obtain ⟨hcells, hgot⟩ := hlookup.get hget
          have hkept := hgot cell rfl
          refine ⟨hcells, fun key cell' heq => ?_⟩
          obtain ⟨rfl, rfl⟩ := Prod.mk.inj (Option.some.inj heq)
          cases cell with
          | entry e => exact ⟨e, rfl, found_of_kept hkept⟩
          | marker m' =>
              -- a marker stands under a key without header texts
              obtain ⟨-, method', url', hkey⟩ := hkept
              exact absurd (varyPairs_eq_nil.mp (buildCacheKey_inj hkey).2.2) hnames
      · next cells'' hget => exact ⟨(hlookup.get hget).1, fun _ _ heq => nomatch heq⟩
  · next hnot =>
      refine ⟨hlookup, fun key cell heq => ?_⟩
      obtain ⟨rfl, hkept⟩ := hgot key cell heq
      cases cell with
      | entry e => exact ⟨e, rfl, @found_of_kept _ _ _ _ _ _ _ [] hkept⟩
      | marker m => exact (hnot _ m _ (Prod.ext heq rfl)).elim

theorem lookupWithVary_kept {offered : List Exchange}
    (h : Holds (Kept p sharedCache offered) cells) :
    Holds (Kept p sharedCache offered)
        (lookupWithVary p sharedCache f cells method url requestHeaders).2 ∧
      ∀ key cell,
        (lookupWithVary p sharedCache f cells method url requestHeaders).1 = some (key, cell) →
          ∃ e, cell = .entry e ∧ Found p sharedCache offered method url requestHeaders e := by
  obtain ⟨hresolve, hgot⟩ := @resolveEntryWithVary_kept _ _ f _ method url requestHeaders _ h
  unfold lookupWithVary
  split
  · next key e cells' heq =>
      rw [heq] at hresolve hgot
      split
      · exact ⟨hresolve.delete, fun _ _ hnone => nomatch hnone⟩
      · exact ⟨hresolve, hgot⟩
  · exact ⟨hresolve, hgot⟩

theorem invalidate_kept {offered : List Exchange} (h : Holds (Kept p sharedCache offered) cells) :
    Holds (Kept p sharedCache offered)
      (invalidate p sharedCache f cells method url requestHeaders).2 := by
  obtain ⟨hlookup, -⟩ := @lookupWithVary_kept _ _ f _ method url requestHeaders _ h
  unfold invalidate
  split
  · next heq =>
      rw [heq] at hlookup
      exact hlookup
  · next heq =>
      rw [heq] at hlookup
      dsimp only
      split
      · exact hlookup.delete
      · exact hlookup.delete.delete

/-! ## Runs -/

/-- What a state of the cache may hold. -/
structure Inv (p : Platform) (sharedCache : Bool) (s : St) : Prop where
  cells : Holds (Kept p sharedCache s.offered) s.cells
  returned : ∀ e ∈ s.returned, Sound p sharedCache s.offered e

variable {s s' : St} {a : Action}

theorem returnedEntry_eq {result : Option (JsString × Cell)} (h : returnedEntry result = some e) :
    ∃ key, result = some (key, .entry e) := by
  unfold returnedEntry at h
  split at h
  · next key _ => exact ⟨key, by rw [Option.some.inj h]⟩
  · cases h

theorem init_inv : Inv p sharedCache St.init := ⟨holds_empty, fun _ h => nomatch h⟩

theorem step_inv (h : Inv p sharedCache s) (hs : step p sharedCache s a = some s') :
    Inv p sharedCache s' := by
  cases a with
  | store now f x =>
      obtain rfl := Option.some.inj hs
      exact ⟨maybeStore_kept h.cells,
        fun e he => (h.returned e he).mono (List.subset_append_left s.offered [x])⟩
  | lookup f method url requestHeaders =>
      obtain rfl := Option.some.inj hs
      obtain ⟨hcells, hfound⟩ := @lookupWithVary_kept _ _ f _ method url requestHeaders _ h.cells
      refine ⟨hcells, fun e he => ?_⟩
      rcases List.mem_append.mp he with he | he
      · exact h.returned e he
      · obtain ⟨key, hkey⟩ := returnedEntry_eq (Option.mem_toList.mp he)
        obtain ⟨e', he', hsound, -⟩ := hfound key _ hkey
        exact Cell.entry.inj he' ▸ hsound
  | refresh now f e fresh304Headers =>
      simp only [step] at hs
      split at hs
      · next he =>
          obtain rfl := Option.some.inj hs
          exact ⟨refreshFrom304_kept h.cells (h.returned e he), h.returned⟩
      · cases hs
  | invalidate f method url requestHeaders =>
      obtain rfl := Option.some.inj hs
      exact ⟨invalidate_kept h.cells, h.returned⟩
  | clear f =>
      obtain rfl := Option.some.inj hs
      exact ⟨h.cells.clear, h.returned⟩
  | evict f =>
      obtain rfl := Option.some.inj hs
      exact ⟨h.cells.kept, h.returned⟩

/-- The header names that the response of an exchange varies by. -/
def variesBy (p : Platform) (x : Exchange) : List JsString :=
  varyNames p ((varyOf p x.responseHeaders).getD [])

/-- The stored response may answer the request. -/
structure Reusable (p : Platform) (sharedCache : Bool) (method url : JsString)
    (requestHeaders : Headers) (x : Exchange) (e : Entry) : Prop where
  response : e.statusCode = x.statusCode ∧ e.body = x.body
  method : methodText p method = methodText p x.method
  target : SameTarget p url x.url
  vary : ∀ name ∈ variesBy p x, headerText (lcHeaders p requestHeaders) name =
    headerText (lcHeaders p x.requestHeaders) name
  stored : Allowed p sharedCache x.responseHeaders (hasAuthorization p x.requestHeaders)
  freshened : Allowed p sharedCache e.headers (hasAuthorization p x.requestHeaders)

theorem mem_varyPairs {names : List JsString} {name : JsString} {text : Option JsString} :
    (name, text) ∈ varyPairs p names requestHeaders ↔
      name ∈ names ∧ text = headerText (lcHeaders p requestHeaders) name := by
  simp only [varyPairs, List.mem_map, Prod.mk.injEq]
  constructor
  · rintro ⟨n, hn, rfl, rfl⟩
    exact ⟨(List.mem_insertionSort unitLE).mp hn, rfl⟩
  · rintro ⟨hn, rfl⟩
    exact ⟨name, (List.mem_insertionSort unitLE).mpr hn, rfl, rfl⟩

theorem varyNames_nil : varyNames p [] = [] := by
  have hlower := p.toLowerCase_lower [] (fun _ h => nomatch h)
  simp [varyNames, List.splitOn_nil, trim, hlower]

/-- The texts that an entry was stored under are those of every header it varies by. -/
theorem headerText_of_varyValues {names : List JsString} (hstored : StoredFor p x e)
    (hvalues : e.varyValues = varyPairs p names requestHeaders) {name : JsString}
    (hname : name ∈ variesBy p x) : headerText (lcHeaders p requestHeaders) name =
      headerText (lcHeaders p x.requestHeaders) name := by
  have hextract := hstored.varyValues
  unfold variesBy at hname
  unfold extractVaryValues at hextract
  split at hextract
  · next hnone => simp [hnone, varyNames_nil] at hname
  · next hnil => simp [hnil, varyNames_nil] at hname
  · next header _ hheader =>
      rw [hheader, Option.getD_some] at hname
      dsimp only at hextract
      split at hextract
      · cases hextract
      · rw [hvalues] at hextract
        have hmem : (name, headerText (lcHeaders p x.requestHeaders) name) ∈
            varyPairs p (varyNames p header) x.requestHeaders := mem_varyPairs.mpr ⟨hname, rfl⟩
        rw [Option.some.inj hextract] at hmem
        exact (mem_varyPairs.mp hmem).2.symm

/-- In every run over any store: what a lookup answers with is an entry, stored for a
request that it may answer. -/
theorem lookup_reusable {key : JsString} {cell : Cell}
    (h : Reach (step p sharedCache) Always St.init s)
    (hlookup : (lookupWithVary p sharedCache f s.cells method url requestHeaders).1 =
      some (key, cell)) :
    ∃ e, cell = .entry e ∧
      ∃ x ∈ s.offered, Reusable p sharedCache method url requestHeaders x e := by
  have hinv : Inv p sharedCache s := h.invariant init_inv fun _ _ _ hI _ hs => step_inv hI hs
  obtain ⟨e, rfl, hsound, hmethod, htarget, names, hvalues⟩ :=
    (lookupWithVary_kept hinv.cells).2 key cell hlookup
  obtain ⟨x, hx, hstored, hallowed, hfresh⟩ := hsound
  refine ⟨e, rfl, x, hx, ⟨hstored.statusCode, hstored.body⟩, ?_, hstored.url ▸ htarget,
    fun name hname => headerText_of_varyValues hstored hvalues hname, hallowed, hfresh⟩
  rw [hmethod, hstored.known, hstored.method]

/-! ## Two orders of one query -/

/-- The URL `http://h/` with a query of two parameters. -/
def twoParams (search : String) (first second : List Char × List Char) : Url where
  protocol := units "http:"
  username := []
  password := []
  host := units "h"
  hostname := units "h"
  pathname := units "/"
  search := units search
  searchParams := if units search = [] then [] else [first, second]
  parts _ := by decide
  params h := if_pos h

def forwards : JsString := units "http://h/?a=1&b=2"

def backwards : JsString := units "http://h/?b=2&a=1"

/-- A platform that knows these two URLs. -/
def ascii : Platform where
  toLowerCase s := s.map fun u => if 65 ≤ u.toNat ∧ u.toNat ≤ 90 then u + 32 else u
  toUpperCase s := s.map fun u => if 97 ≤ u.toNat ∧ u.toNat ≤ 122 then u - 32 else u
  dateParse _ := none
  newUrl s :=
    if s = forwards then some (twoParams "?a=1&b=2" (['a'], ['1']) (['b'], ['2']))
    else if s = backwards then some (twoParams "?b=2&a=1" (['b'], ['2']) (['a'], ['1']))
    else none
  aceLabelsCarryPayload _ := true
  mixesScripts _ := false
  toLowerCase_lower s h := by
    refine (List.map_congr_left fun u hu => ?_).trans (List.map_id s)
    rw [if_neg (h u hu).2, id]
  toUpperCase_upper s h := by
    refine (List.map_congr_left fun u hu => ?_).trans (List.map_id s)
    rw [if_neg (h u hu).2, id]

/-- A response to be kept for a minute. -/
def page : Exchange where
  method := units "GET"
  url := forwards
  requestHeaders := []
  statusCode := 200
  responseHeaders := [(units "Cache-Control", .text (units "max-age=60"))]
  body := [104, 105]

def plainFates : Fates := fun _ => .plain

/-- The cache with that response in it. -/
def oneStored : St := ⟨(maybeStore ascii true 0 plainFates LossyStore.empty page).2, [page], []⟩

theorem oneStored_run :
    exec (step ascii true) St.init [.store 0 plainFates page] = some oneStored := rfl

theorem lookup_reusable_page :
    ∃ x ∈ oneStored.offered, ∃ e, Reusable ascii true (units "GET") backwards [] x e := by
  have hsome : (lookupWithVary ascii true plainFates oneStored.cells (units "GET") backwards
      []).1.isSome = true := by decide +kernel
  obtain ⟨⟨key, cell⟩, hfound⟩ := Option.isSome_iff_exists.mp hsome
  obtain ⟨e, -, x, hx, hreusable⟩ :=
    lookup_reusable (reach_of_exec [.store 0 plainFates page] oneStored_run) hfound
  exact ⟨x, hx, e, hreusable⟩

/-- The response for one order of the parameters is found under the other. -/
theorem found_reordered : ∃ u u',
    exec (step ascii true) St.init [.store 0 plainFates page] = some oneStored ∧
    (returnedEntry (lookupWithVary ascii true plainFates oneStored.cells (units "GET") backwards
      []).1).map Entry.url = some page.url ∧
    safeUrlParse ascii page.url = some u ∧ safeUrlParse ascii backwards = some u' ∧
    u.search ≠ u'.search :=
  ⟨_, _, rfl, by decide +kernel, by rfl, by rfl, by decide⟩

end Blamejs.HttpCache
