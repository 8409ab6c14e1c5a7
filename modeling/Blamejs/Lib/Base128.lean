import Mathlib.Tactic.Common

/-!
# Base-128 numbers

A number as groups of seven bits, the most significant first, every group but
the last with its top bit set. `code` writes the shortest such run and `read`
takes one off the front of a text, refusing a run whose first group is empty
and a value over a limit.

`read_marked` and `code_of_read` are the two halves of one statement: what
stands between the start of a run and any place inside it is `marked` of the
value read up to there. From them a run is read back as what was written
(`read_code`), and what was read is what is written for it (`eq_of_read`).
-/

namespace Base128

/-- The groups of a number in front of its last one. -/
def marked (n : Nat) : List UInt8 :=
  if n = 0 then [] else marked (n / 128) ++ [UInt8.ofNat (n % 128 + 128)]
termination_by n
decreasing_by omega

/-- The shortest run for a number. -/
def code (n : Nat) : List UInt8 := marked (n / 128) ++ [UInt8.ofNat (n % 128)]

/-- What a run can be refused for. -/
inductive Fault
  | truncated
  | redundant
  | large
deriving DecidableEq

/-- Reads on behind the value `acc`; `first` when no group was read. -/
def read (limit : Nat) (acc : Nat) (first : Bool) :
    List UInt8 → Except Fault (Nat × List UInt8)
  | [] => .error .truncated
  | b :: rest =>
      if first ∧ b = 0x80 then .error .redundant
      else if limit < acc * 128 + b.toNat % 128 then .error .large
      else if b.toNat < 128 then .ok (acc * 128 + b.toNat % 128, rest)
      else read limit (acc * 128 + b.toNat % 128) false rest

variable {limit limit' n m acc : Nat} {s rest : List UInt8}

@[simp] theorem marked_zero : marked 0 = [] := by
  rw [marked, if_pos rfl]

theorem marked_pos (h : 0 < n) :
    marked n = marked (n / 128) ++ [UInt8.ofNat (n % 128 + 128)] := by
  rw [marked, if_neg (by omega)]

theorem code_ne_nil (n : Nat) : code n ≠ [] := by
  rw [code]
  exact List.append_ne_nil_of_right_ne_nil _ (List.cons_ne_nil _ _)

theorem eq_of_toNat {b : UInt8} (h : b.toNat = n) : UInt8.ofNat n = b := by
  rw [← h, UInt8.ofNat_toNat]

/-- The groups in front of a place are read as their value. -/
theorem read_marked (h : n ≤ limit) :
    read limit 0 true (marked n ++ s) = read limit n (decide (n = 0)) s := by
  induction n using Nat.strongRecOn generalizing s with
  | ind n ih =>
      rcases Nat.eq_zero_or_pos n with rfl | hpos
      · rw [marked_zero, List.nil_append, decide_eq_true rfl]
      · have hbyte : (UInt8.ofNat (n % 128 + 128)).toNat = n % 128 + 128 := by
          rw [UInt8.toNat_ofNat']
          omega
        have hnext : n / 128 * 128 + (UInt8.ofNat (n % 128 + 128)).toNat % 128 = n := by omega
        have hfull : ¬ (decide (n / 128 = 0) = true ∧ UInt8.ofNat (n % 128 + 128) = 0x80) := by
          rintro ⟨hfirst, hempty⟩
          have hval := congrArg UInt8.toNat hempty
          rw [hbyte] at hval
          have := of_decide_eq_true hfirst
          have : (0x80 : UInt8).toNat = 128 := rfl
          omega
        rw [marked_pos hpos, List.append_assoc, ih (n / 128) (by omega) (by omega),
          List.singleton_append, read, if_neg hfull, hnext, if_neg (by omega), if_neg (by omega),
          decide_eq_false (by omega)]

/-- A run that is read is the shortest one for its value. -/
theorem code_of_read (h : read limit acc (decide (acc = 0)) s = .ok (n, rest)) :
    marked acc ++ s = code n ++ rest ∧ n ≤ limit := by
  induction s generalizing acc with
  | nil => cases h
  | cons b s ih =>
      have hlt := b.toNat_lt
      rw [read] at h
      split at h
      · cases h
      next hfull =>
      split at h
      · cases h
      next hlimit =>
      split at h
      · next hlast =>
          cases h
          refine ⟨?_, by omega⟩
          have hdiv : (acc * 128 + b.toNat % 128) / 128 = acc := by omega
          rw [code, hdiv, eq_of_toNat (b := b) (by omega), List.append_assoc,
            List.singleton_append]
      · next hmore =>
          have hpos : 0 < acc * 128 + b.toNat % 128 := by
            by_contra hzero
            refine hfull ⟨decide_eq_true (by omega), UInt8.toNat_inj.mp ?_⟩
            have : (0x80 : UInt8).toNat = 128 := rfl
            omega
          rw [show false = decide (acc * 128 + b.toNat % 128 = 0) from
            (decide_eq_false (by omega)).symm] at h
          have hdiv : (acc * 128 + b.toNat % 128) / 128 = acc := by omega
          obtain ⟨hcode, hle⟩ := ih h
          rw [marked_pos hpos, hdiv, eq_of_toNat (b := b) (by omega), List.append_assoc,
            List.singleton_append] at hcode
          exact ⟨hcode, hle⟩

/-- What was written is read back. -/
theorem read_code (h : n ≤ limit) : read limit 0 true (code n ++ rest) = .ok (n, rest) := by
  have hbyte : (UInt8.ofNat (n % 128)).toNat = n % 128 := by
    rw [UInt8.toNat_ofNat']
    omega
  have hfull : ¬ (decide (n / 128 = 0) = true ∧ UInt8.ofNat (n % 128) = 0x80) := by
    rintro ⟨-, hempty⟩
    have hval := congrArg UInt8.toNat hempty
    rw [hbyte] at hval
    have : (0x80 : UInt8).toNat = 128 := rfl
    omega
  have hvalue : n / 128 * 128 + (UInt8.ofNat (n % 128)).toNat % 128 = n := by omega
  rw [code, List.append_assoc, read_marked (by omega), List.singleton_append, read, if_neg hfull,
    hvalue, if_neg (by omega), if_pos (by omega)]

/-- What is read is what is written for it. -/
theorem eq_of_read (h : read limit 0 true s = .ok (n, rest)) : s = code n ++ rest ∧ n ≤ limit := by
  rw [show true = decide (0 = 0) from rfl] at h
  simpa using code_of_read h

end Base128
