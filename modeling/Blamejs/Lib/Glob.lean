import Mathlib.Data.List.Forall2
import Mathlib.Tactic.Common

/-!
# Glob patterns and stars that are held

A star of a glob takes any sequence. A matcher that compares a character before it looks at
the star gives another relation: a star met at a character it is equal to takes that one
character. Both are relations of a pattern and a subject here, the second with the set of
characters that hold a star, and the second is the narrower one. A matcher that keeps only
the last star it met is complete for the second relation because of `Held.of_aligned`:
whatever part of a pattern was laid against a subject one by one, a match that begins later
has not passed the end of that subject before the end of that part.
-/

namespace Glob

variable {α : Type*}

/-- One character of a pattern. -/
inductive Elem (α : Type*) where
  | star
  | any
  | lit (a : α)
  deriving DecidableEq

/-- The pattern matches the whole subject. -/
inductive Matches (same : α → α → Prop) : List (Elem α) → List α → Prop
  | nil : Matches same [] []
  | any {p : List (Elem α)} {c : α} {s : List α} :
      Matches same p s → Matches same (.any :: p) (c :: s)
  | lit {a c : α} {p : List (Elem α)} {s : List α} :
      same a c → Matches same p s → Matches same (.lit a :: p) (c :: s)
  | skip {p : List (Elem α)} {s : List α} : Matches same p s → Matches same (.star :: p) s
  | take {p : List (Elem α)} {c : α} {s : List α} :
      Matches same (.star :: p) s → Matches same (.star :: p) (c :: s)

/-- The same with a star held at the characters of `hold`: one that is met there takes that
one character, any other takes any sequence. -/
inductive Held (same : α → α → Prop) (hold : α → Prop) : List (Elem α) → List α → Prop
  | nil : Held same hold [] []
  | any {p : List (Elem α)} {c : α} {s : List α} :
      Held same hold p s → Held same hold (.any :: p) (c :: s)
  | lit {a c : α} {p : List (Elem α)} {s : List α} :
      same a c → Held same hold p s → Held same hold (.lit a :: p) (c :: s)
  | held {p : List (Elem α)} {c : α} {s : List α} :
      hold c → Held same hold p s → Held same hold (.star :: p) (c :: s)
  | free {p : List (Elem α)} {s : List α} (k : Nat) :
      (∀ c ∈ s.head?, ¬ hold c) → Held same hold p (s.drop k) → Held same hold (.star :: p) s

variable {same : α → α → Prop} {hold : α → Prop} {p q : List (Elem α)} {s t : List α}

theorem Matches.star_drop {k : Nat} (h : Matches same p (s.drop k)) :
    Matches same (.star :: p) s := by
  induction k generalizing s with
  | zero => exact .skip h
  | succ k ih =>
      cases s with
      | nil => exact .skip h
      | cons c s => exact .take (ih h)

/-- Holding a star only loses matches. -/
theorem Held.matches (h : Held same hold p s) : Matches same p s := by
  induction h with
  | nil => exact .nil
  | any _ ih => exact .any ih
  | lit hsame _ ih => exact .lit hsame ih
  | held _ _ ih => exact .take (.skip ih)
  | free k _ _ ih => exact ih.star_drop

/-- Without a character that holds a star nothing is lost. -/
theorem Matches.held (h : Matches same p s) (hnone : ∀ c ∈ s, ¬ hold c) :
    Held same hold p s := by
  induction h with
  | nil => exact .nil
  | any _ ih => exact .any (ih fun c hc => hnone c (List.mem_cons_of_mem _ hc))
  | lit hsame _ ih => exact .lit hsame (ih fun c hc => hnone c (List.mem_cons_of_mem _ hc))
  | skip _ ih => exact .free 0 (fun c hc => hnone c (List.mem_of_mem_head? hc)) (ih hnone)
  | take _ ih =>
      cases ih fun c hc => hnone c (List.mem_cons_of_mem _ hc) with
      | held hhold _ => exact absurd hhold (hnone _ (by simp))
      | free k _ hrest =>
          exact .free (k + 1) (fun c hc => hnone c (List.mem_of_mem_head? hc)) hrest

theorem Held.nil_left : Held same hold [] s ↔ s = [] :=
  ⟨fun h => by cases h; rfl, fun h => h ▸ .nil⟩

theorem Held.any_cons {c : α} : Held same hold (.any :: p) (c :: s) ↔ Held same hold p s :=
  ⟨fun h => by cases h; assumption, .any⟩

theorem Held.lit_cons {a c : α} :
    Held same hold (.lit a :: p) (c :: s) ↔ same a c ∧ Held same hold p s :=
  ⟨fun h => by cases h; exact ⟨by assumption, by assumption⟩, fun h => .lit h.1 h.2⟩

theorem Held.star_held {c : α} (hc : hold c) :
    Held same hold (.star :: p) (c :: s) ↔ Held same hold p s := by
  refine ⟨fun h => ?_, .held hc⟩
  cases h with
  | held _ h => exact h
  | free k hfree _ => exact absurd hc (hfree c rfl)

theorem Held.star_free (hs : ∀ c ∈ s.head?, ¬ hold c) :
    Held same hold (.star :: p) s ↔ ∃ k, Held same hold p (s.drop k) := by
  refine ⟨fun h => ?_, fun ⟨k, h⟩ => .free k hs h⟩
  cases h with
  | held hc _ => exact absurd hc (hs _ rfl)
  | free k _ h => exact ⟨k, h⟩

/-- Held or free, a star leaves an end of the subject. -/
theorem Held.of_star (h : Held same hold (.star :: p) s) : ∃ k, Held same hold p (s.drop k) := by
  cases h with
  | held _ h => exact ⟨1, h⟩
  | free k _ h => exact ⟨k, h⟩

/-- At the end of the subject only stars may be left. -/
theorem Held.nil_right : Held same hold p [] ↔ ∀ e ∈ p, e = .star := by
  induction p with
  | nil => simpa using Held.nil
  | cons e p ih =>
      cases e with
      | star =>
          rw [Held.star_free (by simp)]
          simp [ih]
      | any =>
          constructor
          · intro h
            cases h
          · intro h
            exact absurd (h .any (by simp)) (by simp)
      | lit a =>
          constructor
          · intro h
            cases h
          · intro h
            exact absurd (h (.lit a) (by simp)) (by simp)

/-- A character of the pattern takes exactly the one of the subject. -/
inductive Takes (same : α → α → Prop) (hold : α → Prop) : Elem α → α → Prop
  | any {c : α} : Takes same hold .any c
  | lit {a c : α} : same a c → Takes same hold (.lit a) c
  | held {c : α} : hold c → Takes same hold .star c

theorem Held.cons_iff {e : Elem α} {c : α} (h : Takes same hold e c) :
    Held same hold (e :: p) (c :: s) ↔ Held same hold p s := by
  cases h with
  | any => exact Held.any_cons
  | lit hsame => rw [Held.lit_cons, and_iff_right hsame]
  | held hhold => exact Held.star_held hhold

/-- `p` laid against `s` one by one. -/
def Aligned (same : α → α → Prop) (hold : α → Prop) (p : List (Elem α)) (s : List α) : Prop :=
  List.Forall₂ (Takes same hold) p s

/-- Where `p` is laid against `s`, a match of `p` and `q` that begins inside or behind `s` is
at `q` no earlier than at the end of `s`. -/
theorem Held.of_aligned (ha : Aligned same hold p s) {d : Nat}
    (h : Held same hold (p ++ q) ((s ++ t).drop d)) : ∃ j, Held same hold q (t.drop j) := by
  induction ha generalizing d with
  | nil => exact ⟨d, h⟩
  | @cons e c p s htakes _ ih =>
      cases d with
      | zero => exact ih (d := 0) ((Held.cons_iff htakes).mp h)
      | succ d =>
          rw [List.cons_append, List.cons_append, List.drop_succ_cons] at h
          -- behind its start the match is one further on, whatever it begins with
          have hlater : ∃ k, Held same hold (p ++ q) ((s ++ t).drop k) := by
            cases e with
            | star =>
                obtain ⟨k, hk⟩ := h.of_star
                rw [List.drop_drop] at hk
                exact ⟨_, hk⟩
            | any =>
                cases hdrop : (s ++ t).drop d with
                | nil => rw [hdrop] at h; cases h
                | cons c' rest =>
                    rw [hdrop, Held.any_cons] at h
                    refine ⟨d + 1, ?_⟩
                    rw [← List.drop_drop, hdrop]
                    exact h
            | lit a =>
                cases hdrop : (s ++ t).drop d with
                | nil => rw [hdrop] at h; cases h
                | cons c' rest =>
                    rw [hdrop, Held.lit_cons] at h
                    refine ⟨d + 1, ?_⟩
                    rw [← List.drop_drop, hdrop]
                    exact h.2
          obtain ⟨k, hk⟩ := hlater
          exact ih hk

end Glob
