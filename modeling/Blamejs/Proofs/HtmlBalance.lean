import Blamejs.Ref.HtmlBalance

/-!
# A balanced text is a nested sequence of tags

`reading` lists the tags of a text and `Nested` says when their names match. The scan is a
stack machine over that list (`matches_iff`), with one exception: the end of a raw-text
element is looked for in the small letters of the whole string, and U+0130 is one unit that
becomes two. Without it the copy lines up with the string (`aligned_toLowerCase`).
-/

namespace Blamejs.HtmlBalance

open Blamejs.Js

/-! ## The reading of a text -/

inductive Tag where
  | opens (name : JsString)
  | closes (name : JsString)
  | raw (name : JsString)
  deriving DecidableEq, Repr

/-- How the reading ends: at the end of the text, inside a comment, a tag or a raw-text
element, or inside the close tag of a raw-text element. -/
inductive Outcome where
  | complete
  | broken
  | cutOff
  deriving DecidableEq, Repr

/-- A raw-text element that is not closed, whose close tag has no `>`, or that is closed. -/
inductive RawText where
  | unclosed
  | cutOff
  | closed (rest : JsString)
  deriving DecidableEq, Repr

/-- A close tag of `name` starts here. -/
def closesRaw (name t : JsString) : Bool :=
  (units "</" ++ name).isPrefixOf (t.map smallUnit) &&
    (t.drop (name.length + 2)).head?.all fun ac => ac == unit '>' || ac.toNat ≤ 0x20

/-- A raw-text element ends at its first close tag. -/
def rawText (name : JsString) : JsString → RawText
  | [] => .unclosed
  | c :: t =>
      if closesRaw name (c :: t) then
        match search (units ">") (c :: t) with
        | none => .cutOff
        | some gt => .closed ((c :: t).drop (gt + 1))
      else rawText name t

def consTag (tag : Tag) (r : List Tag × Outcome) : List Tag × Outcome := (tag :: r.1, r.2)

/-- The tags of a text. Comments, declarations, void and self-closing elements are none. -/
def tags : Nat → JsString → List Tag × Outcome
  | 0, _ => ([], .complete)
  | _ + 1, [] => ([], .complete)
  | fuel + 1, c :: t =>
      if (units "<!--").isPrefixOf (c :: t) then
        match htmlCommentEnd ((c :: t).drop 4) with
        | none => ([], .broken)
        | some rest => tags fuel rest
      else if (units "<!").isPrefixOf (c :: t) then
        match search (units ">") (c :: t) with
        | none => ([], .complete)
        | some gt => tags fuel ((c :: t).drop (gt + 1))
      else if c = unit '<' then
        let isClose := t.head? == some (unit '/')
        let named := if isClose then t.tail else t
        let name := (named.takeWhile isNameUnit).map smallUnit
        if name = [] then tags fuel t
        else
          match tagRest none (named.dropWhile isNameUnit) with
          | none => ([], .broken)
          | some (attrs, rest) =>
              if isClose then consTag (.closes name) (tags fuel rest)
              else if attrs.getLast? = some (unit '/') ∨ name ∈ voidTags then tags fuel rest
              else if name ∈ rawTextTags then
                match rawText name rest with
                | .unclosed => ([.raw name], .broken)
                | .cutOff => ([.raw name], .cutOff)
                | .closed rest => consTag (.raw name) (tags fuel rest)
              else consTag (.opens name) (tags fuel rest)
      else tags fuel t

def reading (html : JsString) : List Tag × Outcome := tags (html.length + 1) html

/-- Open and close tags that are properly nested, with nothing left open. -/
inductive Nested : List Tag → Prop where
  | nil : Nested []
  | raw {name : JsString} {ts : List Tag} (h : Nested ts) : Nested (.raw name :: ts)
  | pair {name : JsString} {ts us : List Tag} (hin : Nested ts) (hafter : Nested us) :
      Nested (.opens name :: (ts ++ .closes name :: us))

def Balanced (html : JsString) : Prop := (reading html).2 = .complete ∧ Nested (reading html).1

/-- The small letters of the string are looked at only when they line up with it. -/
def Aligned (html : JsString) : Prop := 0x130 ∈ html → ∀ name, .raw name ∉ (reading html).1

/-- The text ends inside the close tag of a raw-text element and is nested otherwise. -/
def EndsInRawClose (html : JsString) : Prop :=
  (reading html).2 = .cutOff ∧ Nested (reading html).1

/-! ## The stack machine -/

/-- The tags close what is open, the innermost first, and what they open. -/
def closesAll : List JsString → List Tag → Bool
  | stack, [] => stack.isEmpty
  | stack, .opens name :: ts => closesAll (name :: stack) ts
  | stack, .raw _ :: ts => closesAll stack ts
  | [], .closes _ :: _ => false
  | top :: stack, .closes name :: ts => top == name && closesAll stack ts

theorem Nested.closesAll {ts : List Tag} (h : Nested ts) (stack : List JsString) (us : List Tag) :
    closesAll stack (ts ++ us) = closesAll stack us := by
  induction h generalizing stack us with
  | nil => rfl
  | raw _ ih => exact ih stack us
  | @pair name ts us' _ _ ihin ihafter =>
      rw [List.cons_append, List.append_assoc, HtmlBalance.closesAll, ihin, List.cons_append,
        HtmlBalance.closesAll, beq_self_eq_true, Bool.true_and]
      exact ihafter stack us

/-- The first tag that closes the top of the stack, with what is nested before it. -/
theorem closesAll_split (n : Nat) : ∀ {ts : List Tag}, ts.length ≤ n →
    (closesAll [] ts = true → Nested ts) ∧
    ∀ {top : JsString} {stack : List JsString}, closesAll (top :: stack) ts = true →
      ∃ us vs, ts = us ++ .closes top :: vs ∧ Nested us ∧ closesAll stack vs = true := by
  induction n with
  | zero =>
      intro ts hlen
      obtain rfl := List.length_eq_zero_iff.mp (Nat.le_zero.mp hlen)
      exact ⟨fun _ => .nil, fun h => (by cases h)⟩
  | succ n ih =>
      intro ts hlen
      cases ts with
      | nil => exact ⟨fun _ => .nil, fun h => (by cases h)⟩
      | cons tag ts =>
          have hlen' : ts.length ≤ n := Nat.le_of_succ_le_succ hlen
          cases tag with
          | raw name =>
              refine ⟨fun h => .raw ((ih hlen').1 h), fun h => ?_⟩
              obtain ⟨us, vs, rfl, hus, hvs⟩ := (ih hlen').2 h
              exact ⟨.raw name :: us, vs, rfl, .raw hus, hvs⟩
          | opens name =>
              -- what the tag opens is closed first, and the rest is shorter
              have hrest : ∀ {us vs : List Tag}, ts = us ++ .closes name :: vs → vs.length ≤ n := by
                rintro us vs rfl
                rw [List.length_append, List.length_cons] at hlen'
                omega
              refine ⟨fun h => ?_, fun h => ?_⟩
              · obtain ⟨us, vs, hts, hus, hvs⟩ := (ih hlen').2 h
                rw [hts]
                exact .pair hus ((ih (hrest hts)).1 hvs)
              · obtain ⟨us, vs, hts, hus, hvs⟩ := (ih hlen').2 h
                obtain ⟨us', vs', hvs', hus', hstack⟩ := (ih (hrest hts)).2 hvs
                refine ⟨.opens name :: (us ++ .closes name :: us'), vs', ?_, .pair hus hus', hstack⟩
                rw [hts, hvs']
                simp
          | closes name =>
              refine ⟨fun h => (by cases h), fun h => ?_⟩
              rw [closesAll, Bool.and_eq_true, beq_iff_eq] at h
              obtain ⟨rfl, h⟩ := h
              exact ⟨[], ts, rfl, .nil, h⟩

theorem closesAll_iff {ts : List Tag} : closesAll [] ts = true ↔ Nested ts := by
  refine ⟨(closesAll_split ts.length (le_refl _)).1, fun h => ?_⟩
  have := h.closesAll [] []
  rw [List.append_nil] at this
  rw [this]
  rfl

/-! ## Shorter and shorter texts -/

theorem htmlCommentEnd_suffix {t rest : JsString} (h : htmlCommentEnd t = some rest) :
    rest <:+ t := by
  rw [htmlCommentEnd] at h
  split at h
  · exact Option.some_inj.mp h ▸ List.drop_suffix _ _
  split at h
  · exact Option.some_inj.mp h ▸ List.drop_suffix _ _
  split at h
  · cases h
  · exact Option.some_inj.mp h ▸ List.drop_suffix _ _
  · exact Option.some_inj.mp h ▸ List.drop_suffix _ _
  · refine Option.some_inj.mp h ▸ ?_
    split
    · exact List.drop_suffix _ _
    · exact List.drop_suffix _ _

theorem tagRest_suffix {t attrs rest : JsString} {q : Option UInt16}
    (h : tagRest q t = some (attrs, rest)) : rest <:+ t ∧ rest.length < t.length := by
  induction t generalizing q attrs with
  | nil => cases h
  | cons ch t ih =>
      have hmap : ∀ {q' : Option UInt16},
          (tagRest q' t).map (fun r => (ch :: r.1, r.2)) = some (attrs, rest) →
            rest <:+ ch :: t ∧ rest.length < (ch :: t).length := by
        intro q' hq
        obtain ⟨r, hr, heq⟩ := Option.map_eq_some_iff.mp hq
        obtain ⟨a, b⟩ := r
        obtain ⟨-, rfl⟩ := Prod.mk.injEq .. ▸ heq
        obtain ⟨hsuffix, hlen⟩ := ih hr
        exact ⟨hsuffix.trans (List.suffix_cons _ _), Nat.lt_succ_of_lt hlen⟩
      cases q with
      | some q => exact hmap h
      | none =>
          rw [tagRest] at h
          split at h
          · exact hmap h
          split at h
          · obtain ⟨-, rfl⟩ := Prod.mk.injEq .. ▸ Option.some_inj.mp h
            exact ⟨List.suffix_cons _ _, Nat.lt_succ_self _⟩
          · exact hmap h

theorem rawText_suffix {name t rest : JsString} (h : rawText name t = .closed rest) :
    rest <:+ t ∧ rest.length < t.length := by
  induction t with
  | nil => cases h
  | cons c t ih =>
      rw [rawText] at h
      split at h
      · split at h
        · cases h
        · next gt _ =>
            obtain rfl := RawText.closed.inj h
            refine ⟨List.drop_suffix _ _, ?_⟩
            rw [List.length_drop, List.length_cons]
            omega
      · obtain ⟨hsuffix, hlen⟩ := ih h
        exact ⟨hsuffix.trans (List.suffix_cons _ _), Nat.lt_succ_of_lt hlen⟩

/-! ## The small letters of a string -/

/-- What Unicode says of small letters: ASCII has its own, U+0130 apart every code point has
one small letter, of as many units, and it is one of ASCII for U+212A KELVIN SIGN only. -/
structure OneToOne (T : CaseTable) : Prop where
  ascii : T.Ascii
  single : ∀ n < 0x110000, n ≠ 0x130 → ∃ m < 0x110000, T.lower n = [m] ∧
    (m < 0x10000 ↔ n < 0x10000) ∧ (0x80 ≤ n → 0x80 ≤ m ∨ m = 0x6B)

/-- Of a unit and the one that stands for it in small letters: the letter `k` apart, they are
the same letters of ASCII. -/
def Agree (u v : UInt16) : Prop :=
  ∀ c : UInt16, c.toNat < 0x80 → c ≠ unit 'k' → (v = c ↔ smallUnit u = c)

theorem agree_high {u v : UInt16} (hu : 0x80 ≤ u.toNat) (hv : 0x80 ≤ v.toNat ∨ v = unit 'k') :
    Agree u v := by
  intro c hc hk
  have hsmall : smallUnit u = u := if_neg (by omega)
  refine iff_of_false ?_ ?_
  · rintro rfl
    rcases hv with hv | rfl
    · omega
    · exact hk rfl
  · rw [hsmall]
    rintro rfl
    omega

variable {T : CaseTable}

theorem lowerAt_unit (hT : OneToOne T) {u : UInt16} (hu : u ≠ 0x130) (before after : List Nat) :
    ∃ v, (T.lowerAt before after u.toNat).flatMap ofCodePoint = [v] ∧ Agree u v := by
  have hlt := u.toNat_lt
  rw [CaseTable.lowerAt]
  by_cases hsigma : u.toNat = 0x3A3
  · rw [if_pos hsigma]
    split
    · exact ⟨0x3C2, rfl, agree_high (by omega) (.inl (by decide))⟩
    · exact ⟨0x3C3, rfl, agree_high (by omega) (.inl (by decide))⟩
  rw [if_neg hsigma]
  by_cases hascii : u.toNat < 0x80
  · refine ⟨smallUnit u, ?_, fun c _ _ => Iff.rfl⟩
    rw [hT.ascii _ hascii]
    change (if 0x41 ≤ u.toNat ∧ u.toNat ≤ 0x5A then [u.toNat + 0x20] else [u.toNat]).flatMap
      ofCodePoint = [smallUnit u]
    rw [smallUnit]
    split
    · rw [List.flatMap_singleton, ofCodePoint, if_pos (by omega)]
    · rw [List.flatMap_singleton, ofCodePoint_unit]
  · have hne : u.toNat ≠ 0x130 := fun h => hu (UInt16.toNat_inj.mp h)
    obtain ⟨m, -, hm, hplane, hhigh⟩ := hT.single u.toNat (by omega) hne
    have hbelow : m < 0x10000 := hplane.mpr (by omega)
    have hback : (UInt16.ofNat m).toNat = m := by
      rw [UInt16.toNat_ofNat']
      omega
    refine ⟨UInt16.ofNat m, ?_, agree_high (by omega) ?_⟩
    · rw [hm, List.flatMap_singleton, ofCodePoint, if_pos hbelow]
    · rw [hback]
      exact (hhigh (by omega)).imp_right fun hk => by rw [hk]; rfl

theorem lowerAt_pair (hT : OneToOne T) {u w : UInt16} (hpair : (isHigh u && isLow w) = true)
    (before after : List Nat) :
    ∃ v v', (T.lowerAt before after (pairValue u w)).flatMap ofCodePoint = [v, v'] ∧
      Agree u v ∧ Agree w v' := by
  simp only [isHigh, isLow, Bool.and_eq_true, decide_eq_true_eq] at hpair
  obtain ⟨⟨hu₁, hu₂⟩, hw₁, hw₂⟩ := hpair
  have hvalue : 0x10000 ≤ pairValue u w ∧ pairValue u w < 0x110000 := by
    unfold pairValue
    omega
  obtain ⟨m, hm₁, hm, hplane, -⟩ := hT.single (pairValue u w) hvalue.2 (by omega)
  have habove : ¬ m < 0x10000 := fun h => by have := hplane.mp h; omega
  rw [CaseTable.lowerAt, if_neg (by omega), hm, List.flatMap_singleton, ofCodePoint,
    if_neg habove]
  refine ⟨_, _, rfl, agree_high (by omega) (.inl ?_), agree_high (by omega) (.inl ?_)⟩
  · rw [UInt16.toNat_ofNat']
    omega
  · rw [UInt16.toNat_ofNat']
    omega

/-- Without U+0130 the small letters of a string line up with it, unit for unit. -/
theorem aligned_toLowerCase (hT : OneToOne T) {s : JsString} (hs : 0x130 ∉ s) :
    List.Forall₂ Agree s (toLowerCase T s) := by
  rw [toLowerCase]
  generalize hbefore : ([] : List Nat) = before
  clear hbefore
  induction s using codePoints.induct generalizing before with
  | case1 => exact .nil
  | case2 u =>
      obtain ⟨v, hv, hagree⟩ := lowerAt_unit hT (Ne.symm (List.ne_of_not_mem_cons hs)) before []
      rw [codePoints, CaseTable.lowerFrom, List.flatMap_append, hv]
      exact .cons hagree .nil
  | case3 u w rest hpair ih =>
      have hrest : (0x130 : UInt16) ∉ rest := fun h =>
        hs (List.mem_cons_of_mem _ (List.mem_cons_of_mem _ h))
      obtain ⟨v, v', hv, hagree, hagree'⟩ := lowerAt_pair hT hpair before (codePoints rest)
      rw [codePoints, if_pos hpair, CaseTable.lowerFrom, List.flatMap_append, hv]
      exact .cons hagree (.cons hagree' (ih hrest _))
  | case4 u w rest hpair ih =>
      obtain ⟨v, hv, hagree⟩ := lowerAt_unit hT (Ne.symm (List.ne_of_not_mem_cons hs)) before
        (codePoints (w :: rest))
      rw [codePoints, if_neg hpair, CaseTable.lowerFrom, List.flatMap_append, hv]
      exact .cons hagree (ih (List.not_mem_of_not_mem_cons hs) _)

/-! ## The end of a raw-text element -/

/-- A text of small letters that `Agree` is about. -/
def Plain (p : JsString) : Prop := ∀ c ∈ p, c.toNat < 0x80 ∧ c ≠ unit 'k'

theorem isPrefixOf_agree {p s l : JsString} (hp : Plain p) (h : List.Forall₂ Agree s l) :
    p.isPrefixOf l = p.isPrefixOf (s.map smallUnit) := by
  induction p generalizing s l with
  | nil => simp
  | cons c p ih =>
      obtain ⟨⟨hc, hk⟩, hp⟩ := List.forall_mem_cons.mp hp
      cases h with
      | nil => rfl
      | @cons u v s l hagree hrest =>
          rw [List.map_cons, List.isPrefixOf, List.isPrefixOf, ih hp hrest]
          congr 1
          rw [Bool.eq_iff_iff, beq_iff_eq, beq_iff_eq, eq_comm, hagree c hc hk, eq_comm]

theorem search_agree {p s l : JsString} (hp : Plain p) (h : List.Forall₂ Agree s l) :
    search p l = search p (s.map smallUnit) := by
  induction h with
  | nil => rfl
  | @cons u v s l hagree hrest ih =>
      rw [List.map_cons, search, search, ih, isPrefixOf_agree hp (.cons hagree hrest)]
      rfl

theorem rawText_skip {name a u : JsString}
    (h : ∀ j < a.length, ¬ (units "</" ++ name) <+: ((a ++ u).map smallUnit).drop j) :
    rawText name (a ++ u) = rawText name u := by
  induction a with
  | nil => rfl
  | cons c a ih =>
      have hno : closesRaw name (c :: (a ++ u)) = false := by
        rw [closesRaw, Bool.and_eq_false_iff]
        refine .inl (Bool.eq_false_iff.mpr fun hp => ?_)
        exact h 0 (Nat.succ_pos _) (List.isPrefixOf_iff_prefix.mp hp)
      rw [List.cons_append, rawText, hno]
      exact ih fun j hj => h (j + 1) (Nat.succ_lt_succ hj)

/-- Looking for the end by index finds the first close tag, whether or not it has a `>`. -/
theorem rawEnd_spec {html lower name : JsString} (hagree : List.Forall₂ Agree html lower)
    (hplain : Plain (units "</" ++ name)) {fuel : Nat} {a rest : JsString}
    (hhtml : html = a ++ rest) (hfuel : rest.length < fuel) :
    (rawText name rest = .unclosed ∧
      rawEnd html lower (units "</" ++ name) fuel a.length = none) ∨
    ∃ b u, rest = b ++ u ∧
      rawEnd html lower (units "</" ++ name) fuel a.length = some (a.length + b.length) ∧
      (search (units ">") u = none → rawText name rest = .cutOff) ∧
      ∀ gt, search (units ">") u = some gt → rawText name rest = .closed (u.drop (gt + 1)) := by
  induction fuel generalizing a rest with
  | zero => exact absurd hfuel (Nat.not_lt_zero _)
  | succ fuel ih =>
      have hsearch : search (units "</" ++ name) (lower.drop a.length) =
          search (units "</" ++ name) (rest.map smallUnit) := by
        have hdrop := List.forall₂_drop a.length hagree
        rw [hhtml, List.drop_left] at hdrop
        exact search_agree hplain hdrop
      rw [rawEnd, hsearch]
      by_cases hend : html.length ≤ a.length
      · have hnil : rest = [] := by
          rw [hhtml, List.length_append] at hend
          exact List.length_eq_zero_iff.mp (by omega)
        subst hnil
        exact .inl ⟨rfl, if_pos hend⟩
      rw [if_neg hend]
      cases hfound : search (units "</" ++ name) (rest.map smallUnit) with
      | none =>
          refine .inl ⟨?_, rfl⟩
          have hskip := @rawText_skip name rest [] fun j _ => by
            rw [List.append_nil]
            exact search_none (by simp [units]) hfound j
          rwa [List.append_nil] at hskip
      | some n =>
          obtain ⟨before, tail, hsplit, rfl, hfirst⟩ := search_some hfound
          have hlen : before.length ≤ rest.length := by
            have hmap : (rest.map smallUnit).length = rest.length := List.length_map _
            rw [← hmap, hsplit, List.length_append]
            omega
          have hrest : rest = rest.take before.length ++ rest.drop before.length :=
            (List.take_append_drop _ _).symm
          have hblen : (rest.take before.length).length = before.length := by
            rw [List.length_take]
            omega
          have hu : (rest.drop before.length).map smallUnit = (units "</" ++ name) ++ tail := by
            rw [List.map_drop, hsplit, List.drop_left]
          generalize hb : rest.take before.length = b at hrest hblen
          generalize hu' : rest.drop before.length = u at hrest hu
          have hskip : rawText name rest = rawText name u := by
            rw [hrest]
            refine rawText_skip fun j hj => ?_
            rw [← hrest]
            exact hfirst j (by omega)
          have hnext : html[a.length + before.length + (units "</" ++ name).length]? =
              (u.drop (name.length + 2)).head? := by
            rw [hhtml, hrest, ← List.append_assoc, List.head?_drop,
              List.getElem?_append_right (by rw [List.length_append]; omega), List.length_append,
              List.length_append, hblen]
            congr 1
            have : (units "</").length = 2 := rfl
            omega
          have hcloses : closesRaw name u =
              html[a.length + before.length + (units "</" ++ name).length]?.all
                (fun ac => ac == unit '>' || ac.toNat ≤ 0x20) := by
            rw [closesRaw, hu, List.isPrefixOf_iff_prefix.mpr (List.prefix_append _ _),
              Bool.true_and, hnext]
          cases u with
          | nil => simp [units] at hu
          | cons c u =>
              dsimp only [Option.map_some]
              rw [← hcloses]
              by_cases hhit : closesRaw name (c :: u) = true
              · rw [if_pos hhit]
                refine .inr ⟨b, c :: u, hrest, by rw [hblen], fun hgt => ?_, fun gt hgt => ?_⟩
                · rw [hskip, rawText, if_pos hhit, hgt]
                · rw [hskip, rawText, if_pos hhit, hgt]
              · rw [if_neg hhit]
                have hstart : a.length + before.length + 1 = (a ++ b ++ [c]).length := by
                  rw [List.length_append, List.length_append, hblen]
                  rfl
                have hlonger : rest.length = b.length + (u.length + 1) := by
                  rw [hrest, List.length_append, List.length_cons]
                have hstep : rawText name rest = rawText name u := by
                  rw [hskip, rawText, if_neg hhit]
                rw [hstart, hstep]
                rcases @ih (a ++ b ++ [c]) u (by rw [hhtml, hrest]; simp) (by omega) with
                  hopen | ⟨b', u', hsplit', hat, hcut, hclosed⟩
                · exact .inl hopen
                · refine .inr ⟨b ++ [c] ++ b', u', ?_, ?_, hcut, hclosed⟩
                  · rw [hrest, hsplit']
                    simp
                  · rw [hat, List.length_append, List.length_append, List.length_append,
                      List.length_append]
                    exact congrArg some (by omega)

/-! ## The scan -/

theorem isNameUnit_ascii {c : UInt16} (h : isNameUnit c = true) : c.toNat < 0x80 := by
  simp only [isNameUnit, Bool.or_eq_true, Bool.and_eq_true, decide_eq_true_eq, beq_iff_eq] at h
  rcases h with ((h | h) | h) | rfl
  · omega
  · omega
  · omega
  · decide

/-- The small letters of a name are those of ASCII. -/
theorem toLowerCase_name (hT : OneToOne T) (t : JsString) :
    toLowerCase T (t.takeWhile isNameUnit) = (t.takeWhile isNameUnit).map smallUnit := by
  refine toLowerCase_ascii hT.ascii fun u hu => isNameUnit_ascii ?_
  exact List.all_eq_true.mp List.all_takeWhile u hu

theorem leftover_eq_none {html : JsString} {stack : List (JsString × Nat)} :
    leftover html stack = none ↔ closesAll (stack.map Prod.fst) [] = true := by
  cases stack with
  | nil => exact iff_of_true rfl rfl
  | cons top stack => exact iff_of_false (fun h => by cases h) (fun h => by cases h)

theorem closesAll_raw (stack : List JsString) (name : JsString) (ts : List Tag) :
    closesAll stack (.raw name :: ts) = closesAll stack ts := by
  cases stack <;> rfl

theorem closesAll_opens (stack : List JsString) (name : JsString) (ts : List Tag) :
    closesAll stack (.opens name :: ts) = closesAll (name :: stack) ts := by
  cases stack <;> rfl

theorem plain_rawClose : ∀ name ∈ rawTextTags, Plain (units "</" ++ name) := by
  have hall : (rawTextTags.all fun name =>
      (units "</" ++ name).all fun c => c.toNat < 0x80 && c != unit 'k') = true := rfl
  intro name hname c hc
  have hone := List.all_eq_true.mp (List.all_eq_true.mp hall name hname) c hc
  simpa using hone

/-- What a close tag leaves open: its own element was open, and void elements never are. -/
theorem closeTag_spec {html name : JsString} {i : Nat} {stack : List (JsString × Nat)}
    (hvoid : ∀ x ∈ stack, x.1 ∉ voidTags) (ts : List Tag) :
    (∃ issue, closeTag html name i stack = .error issue ∧
      closesAll (stack.map Prod.fst) (.closes name :: ts) = false) ∨
    ∃ top below, stack = top :: below ∧ closeTag html name i stack = .ok below ∧
      closesAll (stack.map Prod.fst) (.closes name :: ts) =
        closesAll (below.map Prod.fst) ts := by
  unfold closeTag
  cases stack with
  | nil =>
      split
      · exact .inl ⟨_, rfl, rfl⟩
      · exact .inl ⟨_, rfl, rfl⟩
  | cons top below =>
      have htop := hvoid top List.mem_cons_self
      rw [List.map_cons, closesAll]
      by_cases hname : top.1 = name
      · rw [if_neg (hname ▸ htop)]
        refine .inr ⟨top, below, rfl, if_neg (not_not_intro hname), ?_⟩
        rw [beq_iff_eq.mpr hname, Bool.true_and]
      · rw [beq_eq_false_iff_ne.mpr hname, Bool.false_and]
        split
        · exact .inl ⟨_, rfl, rfl⟩
        · exact .inl ⟨_, if_pos hname, rfl⟩

/-- The scan finds nothing when the reading does not break off and closes what is open. -/
theorem scan_iff (hT : OneToOne T) {html : JsString} {fuel : Nat} {t : JsString}
    {stack : List (JsString × Nat)} (hsuffix : t <:+ html) (hfuel : t.length < fuel)
    (hvoid : ∀ x ∈ stack, x.1 ∉ voidTags)
    (haligned : 0x130 ∈ html → ∀ name, .raw name ∉ (tags fuel t).1) :
    scan T html fuel t stack = none ↔
      (tags fuel t).2 ≠ .broken ∧ closesAll (stack.map Prod.fst) (tags fuel t).1 = true := by
  induction fuel generalizing t stack with
  | zero => exact absurd hfuel (Nat.not_lt_zero _)
  | succ fuel ih =>
      cases t with
      | nil =>
          rw [scan, tags, leftover_eq_none]
          exact (and_iff_right (by simp)).symm
      | cons c t =>
          have htail : t <:+ html := (List.suffix_cons c t).trans hsuffix
          have htlen : t.length < fuel := Nat.lt_of_succ_lt_succ hfuel
          rw [scan, tags]
          rw [tags] at haligned
          by_cases hcomment : (units "<!--").isPrefixOf (c :: t) = true
          · rw [if_pos hcomment] at haligned ⊢
            rw [if_pos hcomment]
            cases hrest : htmlCommentEnd ((c :: t).drop 4) with
            | none => exact iff_of_false (by simp) (by simp)
            | some rest =>
                rw [hrest] at haligned
                have hs := htmlCommentEnd_suffix hrest
                refine ih (hs.trans ((List.drop_suffix _ _).trans hsuffix)) ?_ hvoid haligned
                have hle := hs.length_le
                rw [List.length_drop] at hle
                rw [List.length_cons] at hle hfuel
                omega
          rw [if_neg hcomment] at haligned ⊢
          rw [if_neg hcomment]
          by_cases hdecl : (units "<!").isPrefixOf (c :: t) = true
          · rw [if_pos hdecl] at haligned ⊢
            rw [if_pos hdecl]
            cases hgt : search (units ">") (c :: t) with
            | none =>
                dsimp only
                rw [leftover_eq_none]
                exact (and_iff_right (by simp)).symm
            | some gt =>
                rw [hgt] at haligned
                refine ih ((List.drop_suffix _ _).trans hsuffix) ?_ hvoid haligned
                rw [List.length_drop, List.length_cons]
                omega
          rw [if_neg hdecl] at haligned ⊢
          rw [if_neg hdecl]
          by_cases hlt : c = unit '<'
          · rw [if_pos hlt] at haligned ⊢
            rw [if_pos hlt]
            dsimp only at haligned ⊢
            generalize (t.head? == some (unit '/')) = isClose at haligned ⊢
            have hnamed : (if isClose = true then t.tail else t) <:+ t := by
              split
              · exact List.tail_suffix t
              · exact List.suffix_rfl
            generalize (if isClose = true then t.tail else t) = named at haligned hnamed ⊢
            simp only [toLowerCase_name hT, ← @List.map_eq_nil_iff _ _ smallUnit
              (named.takeWhile isNameUnit)] at haligned ⊢
            generalize (named.takeWhile isNameUnit).map smallUnit = name at haligned ⊢
            by_cases hname : name = []
            · rw [if_pos hname] at haligned ⊢
              rw [if_pos hname]
              exact ih htail htlen hvoid haligned
            rw [if_neg hname] at haligned ⊢
            rw [if_neg hname]
            cases hrest : tagRest none (named.dropWhile isNameUnit) with
            | none => exact iff_of_false (by simp) (by simp)
            | some r =>
                obtain ⟨attrs, rest⟩ := r
                rw [hrest] at haligned
                obtain ⟨hrest₁, hrest₂⟩ := tagRest_suffix hrest
                have hrestt : rest <:+ t := hrest₁.trans ((List.dropWhile_suffix _).trans hnamed)
                have hrests : rest <:+ html := hrestt.trans htail
                have hrestlen : rest.length < fuel := Nat.lt_of_le_of_lt hrestt.length_le htlen
                dsimp only at haligned ⊢
                by_cases hclose : isClose = true
                · rw [if_pos hclose] at haligned ⊢
                  rw [if_pos hclose]
                  have haligned' : 0x130 ∈ html → ∀ name, .raw name ∉ (tags fuel rest).1 :=
                    fun hin n hn => haligned hin n (List.mem_cons_of_mem _ hn)
                  rcases @closeTag_spec html name (html.length - (c :: t).length) stack hvoid
                    (tags fuel rest).1 with ⟨issue, herr, hfalse⟩ | ⟨top, below, rfl, hok, hsame⟩
                  · rw [herr, consTag, hfalse]
                    exact iff_of_false (by simp) (by simp)
                  · rw [hok, consTag, hsame]
                    exact ih hrests hrestlen
                      (fun x hx => hvoid x (List.mem_cons_of_mem _ hx)) haligned'
                rw [if_neg hclose] at haligned ⊢
                rw [if_neg hclose]
                by_cases hempty : attrs.getLast? = some (unit '/') ∨ name ∈ voidTags
                · rw [if_pos hempty] at haligned ⊢
                  rw [if_pos hempty]
                  exact ih hrests hrestlen hvoid haligned
                rw [if_neg hempty] at haligned ⊢
                rw [if_neg hempty]
                by_cases hraw : name ∈ rawTextTags
                · rw [if_pos hraw] at haligned ⊢
                  rw [if_pos hraw]
                  have hno : 0x130 ∉ html := by
                    intro hin
                    refine haligned hin name ?_
                    cases rawText name rest <;> exact List.mem_cons_self
                  obtain ⟨a, ha⟩ := hrests
                  have hstart : html.length - rest.length = a.length := by
                    rw [← ha, List.length_append, Nat.add_sub_cancel]
                  rw [hstart]
                  rcases @rawEnd_spec html (toLowerCase T html) name (aligned_toLowerCase hT hno)
                    (plain_rawClose name hraw) (html.length + 1) a rest ha.symm
                    (by rw [← ha, List.length_append]; omega) with
                    ⟨hopen, hnone⟩ | ⟨b, u, rfl, hfound, hcut, hclosed⟩
                  · rw [hopen, hnone]
                    exact iff_of_false (by simp) (by simp)
                  · have hdrop : ∀ n, html.drop (a.length + b.length + n) = u.drop n := fun n => by
                      rw [← ha, ← List.append_assoc, ← List.length_append,
                        List.drop_length_add_append]
                    have hhere := hdrop 0
                    rw [Nat.add_zero, List.drop_zero] at hhere
                    rw [hfound]
                    dsimp only
                    rw [hhere]
                    cases hgt : search (units ">") u with
                    | none =>
                        rw [hcut hgt]
                        dsimp only
                        rw [leftover_eq_none, closesAll_raw]
                        exact (and_iff_right (by simp)).symm
                    | some gt =>
                        rw [hclosed gt hgt] at haligned ⊢
                        have hafter := rawText_suffix (hclosed gt hgt)
                        dsimp only at haligned ⊢
                        rw [Nat.add_assoc (a.length + b.length), hdrop, consTag, closesAll_raw]
                        refine ih (hafter.1.trans ⟨a, ha⟩)
                          (Nat.lt_trans hafter.2 hrestlen) hvoid ?_
                        exact fun hin => absurd hin hno
                · rw [if_neg hraw] at haligned ⊢
                  rw [if_neg hraw, consTag, closesAll_opens]
                  refine ih hrests hrestlen (List.forall_mem_cons.mpr ⟨?_, hvoid⟩) ?_
                  · exact fun h => hempty (.inr h)
                  · exact fun hin n hn => haligned hin n (List.mem_cons_of_mem _ hn)
          · rw [if_neg hlt] at haligned ⊢
            rw [if_neg hlt]
            exact ih htail htlen hvoid haligned

theorem check_iff (hT : OneToOne T) {html : JsString} (haligned : Aligned html) :
    check T html = none ↔ (reading html).2 ≠ .broken ∧ Nested (reading html).1 := by
  have hscan := @scan_iff T hT html (html.length + 1) html [] (List.suffix_refl html)
    (Nat.lt_succ_self _) (fun x hx => by cases hx) haligned
  rw [List.map_nil, closesAll_iff] at hscan
  rw [check]
  split
  · next hnil =>
      subst hnil
      exact iff_of_true rfl ⟨by decide, .nil⟩
  · exact hscan

/-! ## Text -/

/-- Text before a text is read as nothing. -/
theorem reading_text {w : JsString} (hw : unit '<' ∉ w) (t : JsString) :
    reading (w ++ t) = reading t := by
  induction w with
  | nil => rfl
  | cons c w ih =>
      have hc : c ≠ unit '<' := fun h => hw (h ▸ List.mem_cons_self)
      have hno : ∀ p, (unit '<' :: p).isPrefixOf (c :: (w ++ t)) = false := fun p => by
        rw [List.isPrefixOf, beq_eq_false_iff_ne.mpr hc.symm, Bool.false_and]
      rw [← ih fun h => hw (List.mem_cons_of_mem _ h), reading, List.cons_append, tags]
      rw [if_neg (by rw [show units "<!--" = unit '<' :: units "!--" from rfl, hno]; decide),
        if_neg (by rw [show units "<!" = unit '<' :: units "!" from rfl, hno]; decide), if_neg hc]
      rfl

/-- A text that ends between tags: what follows is read as if it stood alone. -/
def Boundary (a : JsString) : Prop :=
  ∃ ts, ∀ t, reading (a ++ t) = (ts ++ (reading t).1, (reading t).2)

theorem reading_change {a w w' b : JsString} (ha : Boundary a) (hw : unit '<' ∉ w)
    (hw' : unit '<' ∉ w') : reading (a ++ (w ++ b)) = reading (a ++ (w' ++ b)) := by
  obtain ⟨ts, hts⟩ := ha
  rw [hts, hts, reading_text hw, reading_text hw']

/-- `check` returns `null` for the balanced texts, unless the end cuts off the close tag of
a raw-text element, and other text between the tags does not change that: for every text
whose raw-text elements, if it has any, stand in a string without U+0130. -/
theorem check_iff_balanced (hT : OneToOne T) :
    (∀ html, Aligned html →
      ((check T html = none ↔ Balanced html) ↔ ¬ EndsInRawClose html)) ∧
    ∀ a w w' b, Boundary a → unit '<' ∉ w → unit '<' ∉ w' → Aligned (a ++ (w ++ b)) →
      Aligned (a ++ (w' ++ b)) →
        (check T (a ++ (w ++ b)) = none ↔ check T (a ++ (w' ++ b)) = none) := by
  refine ⟨fun html haligned => ?_, fun a w w' b ha hw hw' haligned haligned' => ?_⟩
  · rw [check_iff hT haligned, Balanced, EndsInRawClose]
    cases (reading html).2 with
    | complete => exact iff_of_true (and_congr_left fun _ => by simp) (fun h => by cases h.1)
    | broken => exact iff_of_true (by simp) (fun h => by cases h.1)
    | cutOff => simp
  · rw [check_iff hT haligned, check_iff hT haligned', reading_change ha hw hw']

/-! ## At work -/

/-- The letters of ASCII, and U+0130 whose small letter is of two code points. -/
def dottedCases : CaseTable :=
  { asciiCases with lower := fun n => if n = 0x130 then [0x69, 0x307] else asciiCases.lower n }

theorem dottedCases_oneToOne : OneToOne dottedCases where
  ascii := fun n hn => if_neg (by omega)
  single := by
    intro n hn hdotted
    have hlower : dottedCases.lower n = if 0x41 ≤ n ∧ n ≤ 0x5A then [n + 0x20] else [n] :=
      if_neg hdotted
    rw [hlower]
    split
    · exact ⟨n + 0x20, by omega, rfl, by omega, by omega⟩
    · exact ⟨n, hn, rfl, Iff.rfl, fun h => .inl h⟩

theorem check_title : check dottedCases (units "<title>a</title>b") = none ∧
    Balanced (units "<title>a</title>b") := by
  have haligned : Aligned (units "<title>a</title>b") := fun h => absurd h (by decide)
  have hend : ¬ EndsInRawClose (units "<title>a</title>b") := fun h => absurd h.1 (by decide)
  have hcheck : check dottedCases (units "<title>a</title>b") = none := by decide
  exact ⟨hcheck, (((check_iff_balanced dottedCases_oneToOne).1 _ haligned).mpr hend).mp hcheck⟩

/-- One capital I with a dot before the element, and its end is not found. -/
theorem dotted_refused : ¬ (check dottedCases (0x130 :: units "<title>a</title>b") = none ↔
    Balanced (0x130 :: units "<title>a</title>b")) := by
  intro h
  have hreading : reading (0x130 :: units "<title>a</title>b") =
      ([.raw (units "title")], .complete) := by decide
  have hbalanced : Balanced (0x130 :: units "<title>a</title>b") := by
    rw [Balanced, hreading]
    exact ⟨rfl, .raw .nil⟩
  exact absurd (h.mpr hbalanced) (by decide)

end Blamejs.HtmlBalance
