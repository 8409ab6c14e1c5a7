import Mathlib.Tactic.Common

/-!
# Checks that throw

A validating function is a chain of checks in `Except`; these lemmas take a
successful one apart.
-/

namespace Checked

variable {ε α β : Type*}

/-- `if (!cond) throw e`. -/
def ensure (cond : Prop) [Decidable cond] (e : ε) : Except ε Unit :=
  if cond then .ok () else .error e

theorem ensure_eq_ok {cond : Prop} [Decidable cond] {e : ε} {u : Unit} :
    ensure cond e = .ok u ↔ cond := by
  rw [ensure]
  split
  · next h => exact ⟨fun _ => h, fun _ => rfl⟩
  · next h =>
      refine ⟨fun hok => ?_, fun hc => (h hc).elim⟩
      cases hok

theorem bind_eq_ok {α β : Type} {x : Except ε α} {f : α → Except ε β} {b : β} :
    x >>= f = .ok b ↔ ∃ a, x = .ok a ∧ f a = .ok b := by
  cases x with
  | error e =>
      constructor
      · intro h
        cases h
      · rintro ⟨_, h, -⟩
        cases h
  | ok a =>
      constructor
      · intro h
        exact ⟨a, rfl, h⟩
      · rintro ⟨_, h, hf⟩
        cases h
        exact hf

theorem map_eq_ok {α β : Type} {x : Except ε α} {f : α → β} {b : β} :
    x.map f = .ok b ↔ ∃ a, x = .ok a ∧ f a = b := by
  cases x with
  | error e =>
      constructor
      · intro h
        cases h
      · rintro ⟨_, h, -⟩
        cases h
  | ok a =>
      constructor
      · intro h
        injection h with h
        exact ⟨a, rfl, h⟩
      · rintro ⟨_, h, rfl⟩
        cases h
        rfl

theorem ok_of_toOption {e : Except ε α} {x : α} (h : e.toOption = some x) :
    e = .ok x := by
  cases e with
  | error _ => cases h
  | ok y => exact congrArg Except.ok (Option.some.inj h)

end Checked
