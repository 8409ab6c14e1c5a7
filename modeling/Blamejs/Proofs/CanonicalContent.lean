import Blamejs.Proofs.CanonicalText
import Mathlib.Data.List.Perm.Basic

/-!
# When two canonical texts coincide

For values that are JSON to begin with, the content of a value is the value up
to the order of its properties and the sign of zero. Equal content always gives
equal text. The converse has one exception, and it comes from a single line of
the walk: a number is handed to `JSON.stringify` without looking at it, which
writes NaN and the infinities as `null`. The text therefore commits to the
content of `nullNonFinite v`, no more and no less.
-/

namespace Blamejs.CanonicalJson

open Blamejs.Js Blamejs.Spec

mutual

/-- Null, booleans, numbers, strings, arrays and plain objects, all the way
down; a plain object lists each of its keys once. -/
def JsonMade : Value → Prop
  | .null | .bool _ | .num _ | .str _ => True
  | .arr _ items => ItemsMade items
  | .obj _ entries => (entries.map Prod.fst).Nodup ∧ EntriesMade entries
  | _ => False

def ItemsMade : List Value → Prop
  | [] => True
  | v :: vs => JsonMade v ∧ ItemsMade vs

def EntriesMade : List (JsString × Value) → Prop
  | [] => True
  | (_, v) :: es => JsonMade v ∧ EntriesMade es

end

mutual

/-- Equal up to the order of object keys, with `-0` and `0` identified. -/
def SameContent : Value → Value → Prop
  | .null, .null => True
  | .bool a, .bool b => a = b
  | .num x, .num y => x.sameValueZero y = true
  | .str s, .str t => s = t
  | .arr _ vs, .arr _ ws => SameItems vs ws
  | .obj _ es, .obj _ fs => ∃ gs, gs.Perm fs ∧ SameEntries es gs
  | _, _ => False

def SameItems : List Value → List Value → Prop
  | [], [] => True
  | v :: vs, w :: ws => SameContent v w ∧ SameItems vs ws
  | _, _ => False

def SameEntries : List (JsString × Value) → List (JsString × Value) → Prop
  | [], [] => True
  | (k, v) :: es, (l, w) :: fs => k = l ∧ SameContent v w ∧ SameEntries es fs
  | _, _ => False

end

mutual

/-- The value with `null` for every number that has no JSON form. -/
def nullNonFinite : Value → Value
  | .num x => if x.isFinite then .num x else .null
  | .arr ref items => .arr ref (nullItems items)
  | .obj ref entries => .obj ref (nullEntries entries)
  | v => v

def nullItems : List Value → List Value
  | [] => []
  | v :: vs => nullNonFinite v :: nullItems vs

def nullEntries : List (JsString × Value) → List (JsString × Value)
  | [] => []
  | (k, v) :: es => (k, nullNonFinite v) :: nullEntries es

end

theorem nullEntries_eq (es : List (JsString × Value)) :
    nullEntries es = es.map fun p => (p.1, nullNonFinite p.2) := by
  induction es with
  | nil => rfl
  | cons p es ih => rw [nullEntries, ih, List.map_cons]

theorem nullEntries_perm {es fs : List (JsString × Value)} (h : es.Perm fs) :
    (nullEntries es).Perm (nullEntries fs) := by
  rw [nullEntries_eq, nullEntries_eq]
  exact h.map _

/-- A rearrangement of an image is the image of a rearrangement. -/
theorem exists_perm_of_map {α β : Type} (f : α → β) {l : List α} {m : List β}
    (h : m.Perm (l.map f)) : ∃ l' : List α, l'.Perm l ∧ m = l'.map f := by
  have hcomp : Relation.Comp (· = List.map f ·) List.Perm m l := by
    rw [List.eq_map_comp_perm]
    exact h
  obtain ⟨l', hm, hl'⟩ := hcomp
  exact ⟨l', hl', hm⟩

/-! ## Dropping the non-finite numbers keeps equal content equal -/

theorem sameValueZero_finite {x y : Double} (h : x.sameValueZero y = true)
    (hx : x.isFinite = true) : y.isFinite = true := by
  have hn := Double.isNaN_of_isFinite hx
  simp only [Double.sameValueZero, hn, Bool.false_and, Bool.false_or, Bool.not_false,
    Bool.true_and, Bool.or_eq_true, Bool.and_eq_true, beq_iff_eq] at h
  rcases h with ⟨-, hy⟩ | rfl
  · simp only [Double.isZero, Double.isFinite, decide_eq_true_eq] at hy ⊢
    rw [hy]
    decide
  · exact hx

theorem sameValueZero_comm (x y : Double) : x.sameValueZero y = y.sameValueZero x := by
  rw [Double.sameValueZero, Double.sameValueZero, Bool.and_comm, Bool.and_comm x.isZero]
  congr 1
  rw [Bool.eq_iff_iff]
  constructor <;>
  · simp only [Bool.and_eq_true, Bool.not_eq_true', beq_iff_eq]
    rintro ⟨h, rfl⟩
    exact ⟨h, rfl⟩

mutual

theorem nullNonFinite_same : ∀ v w : Value, SameContent v w →
    SameContent (nullNonFinite v) (nullNonFinite w)
  | .num x, w => by
      intro h
      cases w <;> simp only [SameContent] at h
      next y =>
        have hfin : x.isFinite = y.isFinite := by
          rw [Bool.eq_iff_iff]
          exact ⟨sameValueZero_finite h, sameValueZero_finite (sameValueZero_comm x y ▸ h)⟩
        rw [nullNonFinite, nullNonFinite, ← hfin]
        split
        · exact h
        · trivial
  | .arr _ vs, w => by
      intro h
      cases w <;> simp only [SameContent] at h
      next ws => exact nullItems_same vs ws h
  | .obj _ es, w => by
      intro h
      cases w <;> simp only [SameContent] at h
      next fs =>
        obtain ⟨gs, hgs, h⟩ := h
        exact ⟨nullEntries gs, nullEntries_perm hgs, nullEntries_same es gs h⟩
  | .null, w | .bool _, w | .str _, w => by
      intro h
      cases w <;> first | exact h | exact h.elim
  | .undefined, _ | .bigint _, _ | .symbol, _ | .function, _ | .boxed _, _ | .buffer _, _
  | .uint8Array _, _ | .date _, _ | .noForm _, _ => fun h => (h : False).elim

theorem nullItems_same : ∀ vs ws : List Value, SameItems vs ws →
    SameItems (nullItems vs) (nullItems ws)
  | [], [], _ => trivial
  | v :: vs, w :: ws, h => ⟨nullNonFinite_same v w h.1, nullItems_same vs ws h.2⟩

theorem nullEntries_same : ∀ es fs : List (JsString × Value), SameEntries es fs →
    SameEntries (nullEntries es) (nullEntries fs)
  | [], [], _ => trivial
  | (_, v) :: es, (_, w) :: fs, h =>
      ⟨h.1, nullNonFinite_same v w h.2.1, nullEntries_same es fs h.2.2⟩

end

/-! ## Readings agree when the contents do -/

theorem readingNumber_eq_iff {x y : Double} (hx : x.isFinite = true) (hy : y.isFinite = true) :
    readingNumber x hx = readingNumber y hy ↔ x.sameValueZero y = true := by
  have hstrict : x.sameValueZero y = x.strictEq y := by
    rw [Double.sameValueZero, Double.strictEq, Double.isNaN_of_isFinite hx]
    rfl
  have htext : ∀ (z : Double) (hz : z.isFinite = true),
      numberText (readingNumber z hz).x = numberText z := by
    intro z hz
    have := jsonNumber_eq_text z
    rw [jsonNumber, if_pos hz, reading, dif_pos hz] at this
    exact this.symm
  rw [hstrict, ← numberText_eq_iff hx hy, ← htext x hx, ← htext y hy]
  exact ⟨fun h => by rw [h], Json.jsonNumber_ext⟩

theorem readingEntries_perm {es fs : List (JsString × Value)} (h : es.Perm fs) :
    (readingEntries es).Perm (readingEntries fs) := by
  rw [readingEntries_eq, readingEntries_eq]
  exact h.map _

theorem readingEntries_keys (es : List (JsString × Value)) :
    (readingEntries es).map Prod.fst = es.map Prod.fst := by
  rw [readingEntries_eq, List.map_map]
  rfl

theorem entriesMade_iff (es : List (JsString × Value)) :
    EntriesMade es ↔ ∀ p ∈ es, JsonMade p.2 := by
  induction es with
  | nil => simp [EntriesMade]
  | cons p es ih => rw [EntriesMade, ih, List.forall_mem_cons]

theorem entriesMade_perm {es fs : List (JsString × Value)} (h : es.Perm fs)
    (hfs : EntriesMade fs) : EntriesMade es := by
  rw [entriesMade_iff] at hfs ⊢
  exact fun p hp => hfs p (h.mem_iff.mp hp)

mutual

theorem reading_eq_iff : ∀ v w : Value, JsonMade v → JsonMade w →
    (reading v = reading w ↔ SameContent (nullNonFinite v) (nullNonFinite w))
  | .null, w, _, hw => by
      cases w <;> first | exact hw.elim | skip
      case num y => cases hy : y.isFinite <;> simp [reading, nullNonFinite, SameContent, hy]
      all_goals simp only [reading, nullNonFinite, SameContent, reduceCtorEq]
  | .bool a, w, _, hw => by
      cases w <;> first | exact hw.elim | skip
      case num y => cases hy : y.isFinite <;> simp [reading, nullNonFinite, SameContent, hy]
      all_goals simp only [reading, nullNonFinite, SameContent, reduceCtorEq, Json.bool.injEq]
  | .str s, w, _, hw => by
      cases w <;> first | exact hw.elim | skip
      case num y => cases hy : y.isFinite <;> simp [reading, nullNonFinite, SameContent, hy]
      all_goals simp only [reading, nullNonFinite, SameContent, reduceCtorEq, Json.str.injEq]
  | .num x, w, _, hw => by
      cases w <;> first | exact hw.elim | skip
      case num y =>
        cases hx : x.isFinite <;> cases hy : y.isFinite
        case true.true =>
          simp [reading, nullNonFinite, SameContent, hx, hy, readingNumber_eq_iff hx hy]
        all_goals simp [reading, nullNonFinite, SameContent, hx, hy]
      all_goals cases hx : x.isFinite <;> simp [reading, nullNonFinite, SameContent, hx]
  | .arr _ vs, w, hv, hw => by
      cases w <;> first | exact hw.elim | skip
      case arr ref ws =>
        simp only [reading, nullNonFinite, SameContent, Json.arr.injEq]
        exact readingItems_eq_iff vs ws hv hw
      case num y => cases hy : y.isFinite <;> simp [reading, nullNonFinite, SameContent, hy]
      all_goals simp only [reading, nullNonFinite, SameContent, reduceCtorEq]
  | .obj _ es, w, hv, hw => by
      cases w <;> first | exact hw.elim | skip
      case obj ref fs =>
        simp only [reading, nullNonFinite, SameContent, Json.obj.injEq]
        constructor
        · intro h
          have hperm : (readingEntries es).Perm (readingEntries fs) :=
            (perm_sortKeys _).symm.trans (h ▸ perm_sortKeys _)
          rw [readingEntries_eq fs] at hperm
          obtain ⟨gs, hgs, hread⟩ := exists_perm_of_map _ hperm
          rw [← readingEntries_eq] at hread
          exact ⟨nullEntries gs, nullEntries_perm hgs,
            (readingEntries_eq_iff es gs hv.2 (entriesMade_perm hgs hw.2)).mp hread⟩
        · rintro ⟨gs', hgs', hsame⟩
          rw [nullEntries_eq fs] at hgs'
          obtain ⟨gs, hgs, rfl⟩ := exists_perm_of_map _ hgs'
          rw [← nullEntries_eq] at hsame
          have hread := (readingEntries_eq_iff es gs hv.2 (entriesMade_perm hgs hw.2)).mpr hsame
          rw [hread]
          refine sortKeys_eq_of_perm ?_ (readingEntries_perm hgs)
          rw [← hread, readingEntries_keys]
          exact hv.1
      case num y => cases hy : y.isFinite <;> simp [reading, nullNonFinite, SameContent, hy]
      all_goals simp only [reading, nullNonFinite, SameContent, reduceCtorEq]

theorem readingItems_eq_iff : ∀ vs ws : List Value, ItemsMade vs → ItemsMade ws →
    (readingItems vs = readingItems ws ↔ SameItems (nullItems vs) (nullItems ws))
  | [], [], _, _ => by simp [readingItems, nullItems, SameItems]
  | [], _ :: _, _, _ | _ :: _, [], _, _ => by simp [readingItems, nullItems, SameItems]
  | v :: vs, w :: ws, hv, hw => by
      simp only [readingItems, nullItems, SameItems, List.cons.injEq,
        reading_eq_iff v w hv.1 hw.1, readingItems_eq_iff vs ws hv.2 hw.2]

theorem readingEntries_eq_iff : ∀ es fs : List (JsString × Value), EntriesMade es →
    EntriesMade fs →
    (readingEntries es = readingEntries fs ↔ SameEntries (nullEntries es) (nullEntries fs))
  | [], [], _, _ => by simp [readingEntries, nullEntries, SameEntries]
  | [], _ :: _, _, _ | _ :: _, [], _, _ => by simp [readingEntries, nullEntries, SameEntries]
  | (k, v) :: es, (l, w) :: fs, hv, hw => by
      simp only [readingEntries, nullEntries, SameEntries, List.cons.injEq, Prod.mk.injEq,
        reading_eq_iff v w hv.1 hw.1, readingEntries_eq_iff es fs hv.2 hw.2, and_assoc]

end

/-- Two accepted values have one output exactly when their contents agree once
`null` is read for each non-finite number. -/
theorem stringifyJcs_eq_iff {v w : Value} {s t : JsString} (hv : JsonMade v) (hw : JsonMade w)
    (hs : stringifyJcs v = .ok s) (ht : stringifyJcs w = .ok t) :
    s = t ↔ SameContent (nullNonFinite v) (nullNonFinite w) :=
  (emitTop_eq_iff hs ht).trans (reading_eq_iff v w hv hw)

/-- The output tells two values apart exactly as their contents do, except when
the contents differ only in what stands where a number is not finite. -/
theorem stringifyJcs_separates_iff {v w : Value} {s t : JsString} (hv : JsonMade v)
    (hw : JsonMade w) (hs : stringifyJcs v = .ok s) (ht : stringifyJcs w = .ok t) :
    (s = t ↔ SameContent v w) ↔
      (SameContent (nullNonFinite v) (nullNonFinite w) → SameContent v w) := by
  rw [stringifyJcs_eq_iff hv hw hs ht]
  exact ⟨Iff.mp, fun h => ⟨h, nullNonFinite_same v w⟩⟩

theorem stringifyJcs_separates_reordered :
    (units "\x7b\"a\":null,\"b\":1\x7d" = units "\x7b\"a\":null,\"b\":1\x7d" ↔
      SameContent (.obj 0 [(units "b", .num (Double.ofInt 1)), (units "a", .null)])
        (.obj 0 [(units "a", .null), (units "b", .num (Double.ofInt 1))])) ↔
      (SameContent
          (nullNonFinite (.obj 0 [(units "b", .num (Double.ofInt 1)), (units "a", .null)]))
          (nullNonFinite (.obj 0 [(units "a", .null), (units "b", .num (Double.ofInt 1))])) →
        SameContent (.obj 0 [(units "b", .num (Double.ofInt 1)), (units "a", .null)])
          (.obj 0 [(units "a", .null), (units "b", .num (Double.ofInt 1))])) :=
  stringifyJcs_separates_iff ⟨by decide, trivial, trivial, trivial⟩
    ⟨by decide, trivial, trivial, trivial⟩ (by decide +kernel) (by decide +kernel)

/-- NaN and `null` are different contents and one output. -/
theorem stringifyJcs_nan_null :
    JsonMade (.num Double.nan) ∧ JsonMade .null ∧
      stringifyJcs (.num Double.nan) = .ok (units "null") ∧
      stringifyJcs .null = .ok (units "null") ∧
      ¬ SameContent (.num Double.nan) .null :=
  ⟨trivial, trivial, by decide +kernel, rfl, id⟩

end Blamejs.CanonicalJson
