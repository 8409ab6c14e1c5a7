import Mathlib.Data.UInt
import Mathlib.Order.Defs.Unbundled
import Mathlib.Tactic.Common

/-!
# Names in a tree of labels

A name is the list of its labels, the nearest first, and lies below another when
more labels stand before the other's. On the wire a name is its labels, each
behind its length, and a zero; that form ends where the name does, so what stands
behind it can be told from it.
-/

namespace LabelName

variable {α : Type*}

/-- `name` is a proper descendant of `parent`. -/
def Below (name parent : List α) : Prop := ∃ labels, labels ≠ [] ∧ name = labels ++ parent

theorem Below.trans {a b c : List α} (h : Below a b) (h' : Below b c) : Below a c := by
  obtain ⟨labels, hne, rfl⟩ := h
  obtain ⟨labels', -, rfl⟩ := h'
  exact ⟨labels ++ labels', by simp [hne], (List.append_assoc _ _ _).symm⟩

instance : IsTrans (List α) Below := ⟨fun _ _ _ => Below.trans⟩

theorem Below.ne {a b : List α} (h : Below a b) : a ≠ b := by
  obtain ⟨labels, hne, rfl⟩ := h
  simpa using hne

instance [DecidableEq α] (name parent : List α) : Decidable (Below name parent) :=
  decidable_of_iff (parent.length < name.length ∧ parent <:+ name) <| by
    constructor
    · rintro ⟨hlt, labels, rfl⟩
      refine ⟨labels, ?_, rfl⟩
      rintro rfl
      simp at hlt
    · rintro ⟨labels, hne, rfl⟩
      have := List.length_pos_iff.mpr hne
      exact ⟨by simp; omega, List.suffix_append labels parent⟩

/-- A name on the wire. -/
def wire (labels : List (List UInt8)) : List UInt8 :=
  labels.flatMap (fun label => UInt8.ofNat label.length :: label) ++ [0]

/-- What a label on the wire may be: not empty, and with a length of one byte. -/
def Fits (label : List UInt8) : Prop := label ≠ [] ∧ label.length < 256

theorem Fits.length_ne {label : List UInt8} (h : Fits label) : UInt8.ofNat label.length ≠ 0 := by
  intro hzero
  have hlen := congrArg UInt8.toNat hzero
  rw [UInt8.toNat_ofNat', Nat.mod_eq_of_lt h.2] at hlen
  exact h.1 (List.length_eq_zero_iff.mp hlen)

theorem Fits.length_eq {label label' : List UInt8} (h : Fits label) (h' : Fits label')
    (heq : UInt8.ofNat label.length = UInt8.ofNat label'.length) :
    label.length = label'.length := by
  have hlen := congrArg UInt8.toNat heq
  rwa [UInt8.toNat_ofNat', UInt8.toNat_ofNat', Nat.mod_eq_of_lt h.2, Nat.mod_eq_of_lt h'.2] at hlen

/-- A name on the wire and what follows it can be told apart. -/
theorem wire_append_inj {labels labels' : List (List UInt8)} (h : ∀ l ∈ labels, Fits l)
    (h' : ∀ l ∈ labels', Fits l) {rest rest' : List UInt8}
    (heq : wire labels ++ rest = wire labels' ++ rest') : labels = labels' ∧ rest = rest' := by
  induction labels generalizing labels' with
  | nil =>
      cases labels' with
      | nil => exact ⟨rfl, by simpa [wire] using heq⟩
      | cons l ls =>
          simp only [wire, List.flatMap_nil, List.flatMap_cons, List.cons_append,
            List.nil_append, List.cons.injEq] at heq
          exact absurd heq.1.symm (h' l List.mem_cons_self).length_ne
  | cons l ls ih =>
      cases labels' with
      | nil =>
          simp only [wire, List.flatMap_nil, List.flatMap_cons, List.cons_append,
            List.nil_append, List.cons.injEq] at heq
          exact absurd heq.1 (h l List.mem_cons_self).length_ne
      | cons l' ls' =>
          simp only [wire, List.flatMap_cons, List.cons_append, List.cons.injEq,
            List.append_assoc] at heq
          obtain ⟨hlen, htail⟩ := heq
          have hsame := (h l List.mem_cons_self).length_eq (h' l' List.mem_cons_self) hlen
          obtain ⟨rfl, htail⟩ := List.append_inj htail hsame
          have hrest : wire ls ++ rest = wire ls' ++ rest' := by simpa [wire] using htail
          obtain ⟨rfl, hr⟩ := ih (fun x hx => h x (List.mem_cons_of_mem _ hx))
            (fun x hx => h' x (List.mem_cons_of_mem _ hx)) hrest
          exact ⟨rfl, hr⟩

end LabelName
