import Blamejs.Lib.Glob
import Mathlib.Data.List.TakeWhile
import Blamejs.Ref.SieveGlob

/-!
# What `_wildcardMatches` answers

The loop asks for a literal before it asks for a star, so a star of the pattern that is met
at a star of the subject takes that one character and is not remembered. The loop decides
the relation in which stars are held there, and it is the meaning of a glob where no match
is lost by that.
-/

namespace Blamejs.SieveGlob

open Blamejs.Js Glob

variable {pat sub : JsString} {ci : Bool} {x x' : Scan}

/-- A character of a pattern as RFC 5228 reads it. -/
def elem (a : UInt16) : Elem UInt16 :=
  if a = unit '*' then .star else if a = unit '?' then .any else .lit a

def elems (pattern : JsString) : List (Elem UInt16) := pattern.map elem

/-- Two characters are the same one. -/
def Same (ci : Bool) (a c : UInt16) : Prop := same ci a c = true

/-- A star of the subject. -/
def IsStar (c : UInt16) : Prop := c = unit '*'

/-- The pattern matches the whole subject. -/
def GlobMatches (pattern subject : JsString) (ci : Bool) : Prop :=
  Glob.Matches (Same ci) (elems pattern) subject

/-- The pattern matches with each star held that is met at a star of the subject. -/
def HeldMatches (pattern subject : JsString) (ci : Bool) : Prop :=
  Glob.Held (Same ci) IsStar (elems pattern) subject

/-! ## One turn -/

theorem asciiLower_eq_star {c : UInt16} : asciiLower c = unit '*' ↔ c = unit '*' := by
  rw [asciiLower]
  split
  next h =>
    have hne : c ≠ unit '*' := by
      rintro rfl
      exact absurd h (by decide)
    refine iff_of_false (fun heq => ?_) hne
    have := congrArg UInt16.toNat heq
    rw [UInt16.toNat_ofNat', Nat.mod_eq_of_lt (by omega), show (unit '*').toNat = 0x2A from rfl]
      at this
    omega
  · rfl

/-- A star is the same character as itself only, folded or not. -/
theorem same_star {c : UInt16} : same ci (unit '*') c = true ↔ c = unit '*' := by
  have hstar : asciiLower (unit '*') = unit '*' := by decide
  rw [same]
  split
  · rw [beq_iff_eq, hstar, eq_comm, asciiLower_eq_star]
  · rw [beq_iff_eq, eq_comm]

/-- The test the loop makes first. -/
theorem takes_iff {a c : UInt16} :
    (a == unit '?' || same ci a c) = true ↔ Takes (Same ci) IsStar (elem a) c := by
  rw [Bool.or_eq_true, beq_iff_eq, elem]
  by_cases hstar : a = unit '*'
  · subst hstar
    rw [if_pos rfl, same_star]
    constructor
    · rintro (h | h)
      · exact absurd h (by decide)
      · exact .held h
    · intro h
      cases h with
      | held h => exact .inr h
  · rw [if_neg hstar]
    split
    next hany => exact iff_of_true (.inl hany) .any
    next hany =>
      constructor
      · rintro (h | h)
        · exact absurd h hany
        · exact .lit h
      · intro h
        cases h with
        | lit h => exact .inr h

/-- What a turn does: it lays one character, remembers a star, or goes back to the last one. -/
inductive Turn (pat sub : JsString) (ci : Bool) (x : Scan) : Option Scan → Prop
  | lay {a c : UInt16} : pat[x.p]? = some a → sub[x.s]? = some c →
      Takes (Same ci) IsStar (elem a) c →
      Turn pat sub ci x (some { x with p := x.p + 1, s := x.s + 1 })
  | star {c : UInt16} : pat[x.p]? = some (unit '*') → sub[x.s]? = some c → ¬ IsStar c →
      Turn pat sub ci x (some { p := x.p + 1, s := x.s, starP := some x.p, starS := x.s })
  | stuck {c : UInt16} : sub[x.s]? = some c →
      (∀ a, pat[x.p]? = some a → elem a ≠ .star ∧ ¬ Takes (Same ci) IsStar (elem a) c) →
      x.starP = none → Turn pat sub ci x none
  | back {c : UInt16} {q : Nat} : sub[x.s]? = some c →
      (∀ a, pat[x.p]? = some a → elem a ≠ .star ∧ ¬ Takes (Same ci) IsStar (elem a) c) →
      x.starP = some q → Turn pat sub ci x
        (some { p := q + 1, s := x.starS + 1, starP := some q, starS := x.starS + 1 })

theorem elem_eq_star {a : UInt16} : elem a = .star ↔ a = unit '*' := by
  rw [elem]
  split
  next h => simp [h]
  next h => split <;> simp [h]

theorem turn_spec (h : x.s < sub.length) : Turn pat sub ci x (turn pat sub ci x) := by
  obtain ⟨c, hc⟩ : ∃ c, sub[x.s]? = some c := ⟨_, List.getElem?_eq_getElem h⟩
  -- no star and nothing laid: the turn looks at the last star
  have hlast : (∀ a, pat[x.p]? = some a → elem a ≠ .star ∧ ¬ Takes (Same ci) IsStar (elem a) c) →
      ∀ r, (x.starP = none → r = none) → (∀ q, x.starP = some q →
        r = some { p := q + 1, s := x.starS + 1, starP := some q, starS := x.starS + 1 }) →
      Turn pat sub ci x r := by
    intro hno r hnone hsome
    cases hq : x.starP with
    | none =>
        rw [hnone hq]
        exact .stuck hc hno hq
    | some q =>
        rw [hsome q hq]
        exact .back hc hno hq
  rw [turn, hc]
  cases hp : pat[x.p]? with
  | none =>
      dsimp only
      rw [if_neg (by simp), if_neg (by simp)]
      exact hlast (by simp [hp]) _ (fun h => by rw [h]) fun q h => by rw [h]
  | some a =>
      dsimp only
      by_cases htakes : Takes (Same ci) IsStar (elem a) c
      · rw [if_pos (takes_iff.mpr htakes)]
        exact .lay hp hc htakes
      rw [if_neg (mt takes_iff.mp htakes)]
      by_cases hstar : a = unit '*'
      · subst hstar
        rw [if_pos rfl]
        refine .star hp hc fun hheld => htakes ?_
        rw [elem_eq_star.mpr rfl]
        exact .held hheld
      · rw [if_neg (by simpa using hstar)]
        refine hlast (fun a' ha' => ?_) _ (fun h => by rw [h]) fun q h => by rw [h]
        obtain rfl : a = a' := by simpa [hp] using ha'
        exact ⟨mt elem_eq_star.mp hstar, htakes⟩

/-! ## The invariant of the loop -/

/-- What the pattern has behind the last star, up to `p`, is laid against what the subject has
behind the place where that star was tried, up to `s`. -/
structure Inv (pat sub : JsString) (ci : Bool) (x : Scan) : Prop where
  p_le : x.p ≤ pat.length
  s_le : x.s ≤ sub.length
  starS_le : x.starS ≤ x.s
  star_lt : ∀ q, x.starP = some q → q < pat.length
  laid : ∀ q, x.starP = some q → ∃ front taken, Aligned (Same ci) IsStar front taken ∧
    (elems pat).drop (q + 1) = front ++ (elems pat).drop x.p ∧
    sub.drop x.starS = taken ++ sub.drop x.s

/-- What is left can be matched from here, or from a later place of the last star. -/
def Answer (pat sub : JsString) (ci : Bool) (x : Scan) : Prop :=
  Held (Same ci) IsStar ((elems pat).drop x.p) (sub.drop x.s) ∨
    ∃ q, x.starP = some q ∧
      ∃ k, Held (Same ci) IsStar ((elems pat).drop (q + 1)) (sub.drop (x.starS + 1 + k))

/-- The turns that are left: each place of the last star costs a walk along the pattern. -/
def turnsLeft (pat sub : JsString) (x : Scan) : Nat :=
  (sub.length - x.starS) * (pat.length + 1) + (pat.length - x.p)

theorem drop_elems {p : Nat} {a : UInt16} (h : pat[p]? = some a) :
    (elems pat).drop p = elem a :: (elems pat).drop (p + 1) := by
  obtain ⟨hlt, rfl⟩ := List.getElem?_eq_some_iff.mp h
  rw [elems, List.drop_eq_getElem_cons (by simpa using hlt), List.getElem_map]

theorem drop_sub {s : Nat} {c : UInt16} (h : sub[s]? = some c) :
    sub.drop s = c :: sub.drop (s + 1) := by
  obtain ⟨hlt, rfl⟩ := List.getElem?_eq_some_iff.mp h
  exact List.drop_eq_getElem_cons hlt

theorem Inv.start : Inv pat sub ci ⟨0, 0, none, 0⟩ where
  p_le := Nat.zero_le _
  s_le := Nat.zero_le _
  starS_le := Nat.le_refl _
  star_lt _ h := by cases h
  laid _ h := by cases h

theorem answer_start : Answer pat sub ci ⟨0, 0, none, 0⟩ ↔ HeldMatches pat sub ci := by
  simp [Answer, HeldMatches]

/-- A later place of the last star reaches what is left of the pattern no earlier. -/
theorem Inv.later (h : Inv pat sub ci x) {q k : Nat} (hq : x.starP = some q)
    (hheld : Held (Same ci) IsStar ((elems pat).drop (q + 1)) (sub.drop (x.starS + 1 + k))) :
    ∃ j, Held (Same ci) IsStar ((elems pat).drop x.p) (sub.drop (x.s + j)) := by
  obtain ⟨front, taken, haligned, hpat, hsub⟩ := h.laid q hq
  rw [hpat, Nat.add_assoc, ← List.drop_drop, hsub] at hheld
  obtain ⟨j, hj⟩ := Held.of_aligned haligned hheld
  rw [List.drop_drop] at hj
  exact ⟨j, hj⟩

theorem turn_lay {a c : UInt16} (h : Inv pat sub ci x) (hp : pat[x.p]? = some a)
    (hs : sub[x.s]? = some c) (htakes : Takes (Same ci) IsStar (elem a) c) :
    Inv pat sub ci { x with p := x.p + 1, s := x.s + 1 } ∧
      (Answer pat sub ci { x with p := x.p + 1, s := x.s + 1 } ↔ Answer pat sub ci x) := by
  have hplt := (List.getElem?_eq_some_iff.mp hp).1
  have hslt := (List.getElem?_eq_some_iff.mp hs).1
  refine ⟨⟨hplt, hslt, Nat.le_succ_of_le h.starS_le, h.star_lt, fun q hq => ?_⟩, ?_⟩
  · obtain ⟨front, taken, haligned, hpat, hsub⟩ := h.laid q hq
    refine ⟨front ++ [elem a], taken ++ [c], ?_, ?_, ?_⟩
    · exact List.rel_append haligned (.cons htakes .nil)
    · rw [hpat, drop_elems hp, List.append_assoc, List.singleton_append]
    · rw [hsub, drop_sub hs, List.append_assoc, List.singleton_append]
  · rw [Answer, Answer, drop_elems hp, drop_sub hs, Held.cons_iff htakes]

theorem turn_star {c : UInt16} (h : Inv pat sub ci x) (hp : pat[x.p]? = some (unit '*'))
    (hs : sub[x.s]? = some c) (hc : ¬ IsStar c) :
    Inv pat sub ci ⟨x.p + 1, x.s, some x.p, x.s⟩ ∧
      (Answer pat sub ci ⟨x.p + 1, x.s, some x.p, x.s⟩ ↔ Answer pat sub ci x) := by
  have hplt := (List.getElem?_eq_some_iff.mp hp).1
  refine ⟨⟨hplt, h.s_le, Nat.le_refl _, fun q hq => ?_, fun q hq => ?_⟩, ?_⟩
  · obtain rfl : x.p = q := by simpa using hq
    exact hplt
  · obtain rfl : x.p = q := by simpa using hq
    exact ⟨[], [], .nil, rfl, rfl⟩
  have hpat : (elems pat).drop x.p = .star :: (elems pat).drop (x.p + 1) := by
    rw [drop_elems hp, elem_eq_star.mpr rfl]
  have hfree : ∀ c' ∈ (sub.drop x.s).head?, ¬ IsStar c' := by
    rw [drop_sub hs]
    simpa using hc
  constructor
  · rintro (hhere | ⟨q, hq, k, hk⟩)
    · refine .inl ?_
      rw [hpat, Held.star_free hfree]
      exact ⟨0, hhere⟩
    · obtain rfl : x.p = q := by simpa using hq
      refine .inl ?_
      rw [hpat, Held.star_free hfree]
      refine ⟨1 + k, ?_⟩
      rw [List.drop_drop, ← Nat.add_assoc]
      exact hk
  · intro hanswer
    -- the new star takes over from the last one: it leaves every end that one can leave
    have hstar : ∃ k, Held (Same ci) IsStar ((elems pat).drop (x.p + 1)) (sub.drop (x.s + k)) := by
      obtain hhere | ⟨q, hq, k, hk⟩ := hanswer
      · rw [hpat] at hhere
        obtain ⟨k, hk⟩ := hhere.of_star
        exact ⟨k, by rwa [List.drop_drop] at hk⟩
      · obtain ⟨j, hj⟩ := h.later hq hk
        rw [hpat] at hj
        obtain ⟨k, hk⟩ := hj.of_star
        exact ⟨j + k, by rwa [List.drop_drop, Nat.add_assoc] at hk⟩
    obtain ⟨k, hk⟩ := hstar
    cases k with
    | zero => exact .inl hk
    | succ k => exact .inr ⟨x.p, rfl, k, by rwa [Nat.add_assoc, Nat.add_comm 1 k]⟩

theorem not_held {c : UInt16} (hs : sub[x.s]? = some c)
    (hno : ∀ a, pat[x.p]? = some a → elem a ≠ .star ∧ ¬ Takes (Same ci) IsStar (elem a) c) :
    ¬ Held (Same ci) IsStar ((elems pat).drop x.p) (sub.drop x.s) := by
  rw [drop_sub hs]
  cases hp : pat[x.p]? with
  | none =>
      have hge : pat.length ≤ x.p := List.getElem?_eq_none_iff.mp hp
      rw [List.drop_eq_nil_of_le (by simpa [elems] using hge), Held.nil_left]
      exact List.cons_ne_nil _ _
  | some a =>
      obtain ⟨hstar, htakes⟩ := hno a hp
      rw [drop_elems hp]
      intro hheld
      cases he : elem a with
      | star => exact hstar he
      | any => exact htakes (he ▸ .any)
      | lit b =>
          rw [he, Held.lit_cons] at hheld
          exact htakes (he ▸ .lit hheld.1)

theorem turn_back {c : UInt16} {q : Nat} (h : Inv pat sub ci x) (hs : sub[x.s]? = some c)
    (hno : ∀ a, pat[x.p]? = some a → elem a ≠ .star ∧ ¬ Takes (Same ci) IsStar (elem a) c)
    (hq : x.starP = some q) :
    Inv pat sub ci ⟨q + 1, x.starS + 1, some q, x.starS + 1⟩ ∧
      (Answer pat sub ci ⟨q + 1, x.starS + 1, some q, x.starS + 1⟩ ↔ Answer pat sub ci x) := by
  have hslt := (List.getElem?_eq_some_iff.mp hs).1
  have hstarS := h.starS_le
  refine ⟨⟨h.star_lt q hq, by dsimp only; omega, Nat.le_refl _, fun q' hq' => ?_,
    fun q' hq' => ?_⟩, ?_⟩
  · obtain rfl : q = q' := by simpa using hq'
    exact h.star_lt q hq
  · obtain rfl : q = q' := by simpa using hq'
    exact ⟨[], [], .nil, rfl, rfl⟩
  constructor
  · rintro (hhere | ⟨q', hq', k, hk⟩)
    · exact .inr ⟨q, hq, 0, hhere⟩
    · obtain rfl : q = q' := by simpa using hq'
      exact .inr ⟨q, hq, 1 + k, by rwa [← Nat.add_assoc]⟩
  · rintro (hhere | ⟨q', hq', k, hk⟩)
    · exact absurd hhere (not_held hs hno)
    · obtain rfl : q = q' := by simpa [hq] using hq'
      cases k with
      | zero => exact .inl hk
      | succ k => exact .inr ⟨q, rfl, k, by rwa [Nat.add_comm k 1, ← Nat.add_assoc] at hk⟩

/-- One turn keeps the invariant and the answer, and is one of those that were left. -/
theorem turn_some (h : Inv pat sub ci x) (hs : x.s < sub.length)
    (hturn : turn pat sub ci x = some x') :
    Inv pat sub ci x' ∧ (Answer pat sub ci x' ↔ Answer pat sub ci x) ∧
      turnsLeft pat sub x' < turnsLeft pat sub x := by
  have hspec : Turn pat sub ci x (some x') := hturn ▸ turn_spec hs
  have hstarS := h.starS_le
  have hp := h.p_le
  cases hspec with
  | lay hpat hsub htakes =>
      have hplt := (List.getElem?_eq_some_iff.mp hpat).1
      obtain ⟨hinv, hanswer⟩ := turn_lay h hpat hsub htakes
      refine ⟨hinv, hanswer, ?_⟩
      simp only [turnsLeft]
      omega
  | star hpat hsub hc =>
      have hplt := (List.getElem?_eq_some_iff.mp hpat).1
      obtain ⟨hinv, hanswer⟩ := turn_star h hpat hsub hc
      refine ⟨hinv, hanswer, ?_⟩
      have hle : (sub.length - x.s) * (pat.length + 1) ≤
          (sub.length - x.starS) * (pat.length + 1) := Nat.mul_le_mul_right _ (by omega)
      simp only [turnsLeft]
      omega
  | @back c q hsub hno hq =>
      obtain ⟨hinv, hanswer⟩ := turn_back h hsub hno hq
      refine ⟨hinv, hanswer, ?_⟩
      have hplaces : sub.length - x.starS = (sub.length - (x.starS + 1)) + 1 := by omega
      simp only [turnsLeft]
      rw [hplaces, Nat.add_mul, Nat.one_mul]
      omega

theorem turn_none (hs : x.s < sub.length) (hturn : turn pat sub ci x = none) :
    ¬ Answer pat sub ci x := by
  have hspec : Turn pat sub ci x none := hturn ▸ turn_spec hs
  cases hspec with
  | stuck hsub hno hq =>
      rintro (hhere | ⟨q, hq', -⟩)
      · exact not_held hsub hno hhere
      · rw [hq] at hq'
        cases hq'

/-- At the end of the subject only what stands there counts. -/
theorem answer_end (h : Inv pat sub ci x) (hs : ¬ x.s < sub.length) :
    Answer pat sub ci x ↔ ∀ a ∈ pat.drop x.p, a = unit '*' := by
  have hnil : ∀ k, sub.drop (x.s + k) = [] := fun k => List.drop_eq_nil_of_le (by omega)
  have hstars : Held (Same ci) IsStar ((elems pat).drop x.p) [] ↔
      ∀ a ∈ pat.drop x.p, a = unit '*' := by
    rw [Held.nil_right, elems, ← List.map_drop]
    simp only [List.mem_map, forall_exists_index, and_imp, forall_apply_eq_imp_iff₂, elem_eq_star]
  rw [← hstars, Answer, show sub.drop x.s = [] from hnil 0]
  constructor
  · rintro (hhere | ⟨q, hq, k, hk⟩)
    · exact hhere
    · obtain ⟨j, hj⟩ := h.later hq hk
      rwa [hnil] at hj
  · exact .inl

theorem all_stars_iff {l : JsString} :
    (l.takeWhile (· == unit '*')).length = l.length ↔ ∀ a ∈ l, a = unit '*' := by
  have hself : l.takeWhile (· == unit '*') = l ↔ ∀ a ∈ l, a = unit '*' := by
    simp [List.takeWhile_eq_self_iff]
  rw [← hself]
  exact ⟨(List.takeWhile_prefix _).eq_of_length, congrArg List.length⟩

/-- The loop ends, within the turns that are left, and gives the answer. -/
theorem loop_spec {fuel : Nat} (h : Inv pat sub ci x) (hfuel : turnsLeft pat sub x < fuel) :
    ∃ result turns, loop pat sub ci fuel x = some (result, turns) ∧
      turns ≤ turnsLeft pat sub x + 1 + pat.length ∧
      (result = true ↔ Answer pat sub ci x) := by
  induction fuel generalizing x with
  | zero => exact absurd hfuel (Nat.not_lt_zero _)
  | succ fuel ih =>
      rw [loop]
      by_cases hs : x.s < sub.length
      · rw [if_pos hs]
        cases hturn : turn pat sub ci x with
        | none =>
            refine ⟨false, 1, rfl, by omega, ?_⟩
            simpa using turn_none hs hturn
        | some x' =>
            obtain ⟨hinv, hanswer, hless⟩ := turn_some h hs hturn
            obtain ⟨result, turns, hloop, hturns, hresult⟩ := ih hinv (by omega)
            refine ⟨result, turns + 1, ?_, by omega, hresult.trans hanswer⟩
            dsimp only
            rw [hloop]
            rfl
      · rw [if_neg hs]
        refine ⟨_, _, rfl, ?_, ?_⟩
        · have hle := (List.takeWhile_sublist (· == unit '*') (l := pat.drop x.p)).length_le
          rw [List.length_drop] at hle
          omega
        · rw [answer_end h hs, beq_iff_eq, ← all_stars_iff]
          have hp := h.p_le
          rw [List.length_drop]
          omega

/-! ## The matcher -/

theorem wildcardMatches_spec (pattern subject : JsString) (ci : Bool) :
    ∃ result turns, wildcardMatches pattern subject ci = some (result, turns) ∧
      turns ≤ 2 * ((subject.length + 1) * (pattern.length + 1)) ∧
      (result = true ↔ HeldMatches pattern subject ci) := by
  have hleft : turnsLeft pattern subject ⟨0, 0, none, 0⟩ + 1 =
      (subject.length + 1) * (pattern.length + 1) := by
    simp only [turnsLeft, Nat.sub_zero]
    rw [Nat.add_mul]
    omega
  obtain ⟨result, turns, hloop, hturns, hresult⟩ :=
    @loop_spec pattern subject ci _ _ Inv.start (Nat.lt_of_lt_of_eq (Nat.lt_succ_self _) hleft)
  have hpat : pattern.length ≤ (subject.length + 1) * (pattern.length + 1) :=
    Nat.le_trans (Nat.le_succ _) (Nat.le_mul_of_pos_left _ (Nat.succ_pos _))
  exact ⟨result, turns, hloop, by omega, hresult.trans answer_start⟩

/-- The loop ends within the bound and gives what the glob means. -/
def AnswersGlob (pattern subject : JsString) (ci : Bool) : Prop :=
  ∃ result turns, wildcardMatches pattern subject ci = some (result, turns) ∧
    turns ≤ 2 * ((subject.length + 1) * (pattern.length + 1)) ∧
    (result = true ↔ GlobMatches pattern subject ci)

/-- The matcher is right exactly where a match is not lost by holding the stars. -/
theorem answersGlob_iff (pattern subject : JsString) (ci : Bool) :
    AnswersGlob pattern subject ci ↔
      (GlobMatches pattern subject ci → HeldMatches pattern subject ci) := by
  obtain ⟨result, turns, hrun, hturns, hresult⟩ := wildcardMatches_spec pattern subject ci
  constructor
  · rintro ⟨result', turns', hrun', -, hresult'⟩ hglob
    rw [hrun, Option.some.injEq, Prod.mk.injEq] at hrun'
    rw [← hresult, hrun'.1]
    exact hresult'.mpr hglob
  · intro h
    exact ⟨result, turns, hrun, hturns, hresult.trans ⟨Held.matches, h⟩⟩

/-- A subject without a star is matched as the glob says. -/
theorem answersGlob_of_no_star {pattern subject : JsString} {ci : Bool}
    (h : unit '*' ∉ subject) : AnswersGlob pattern subject ci :=
  (answersGlob_iff pattern subject ci).mpr fun hglob =>
    hglob.held fun _ hc hstar => h (hstar ▸ hc)

/-- The star of `*a` is spent on the star of `*ba`, and the rest does not match. -/
theorem star_spent : ¬ AnswersGlob (units "*a") (units "*ba") false := by
  rintro ⟨result, turns, hrun, -, hresult⟩
  have hfalse : wildcardMatches (units "*a") (units "*ba") false = some (false, 2) := by decide
  rw [hfalse, Option.some.injEq, Prod.mk.injEq] at hrun
  have hglob : GlobMatches (units "*a") (units "*ba") false :=
    .take (.take (.skip (.lit rfl .nil)))
  rw [← hresult, ← hrun.1] at hglob
  exact absurd hglob (by decide)

end Blamejs.SieveGlob
