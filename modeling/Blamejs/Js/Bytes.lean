import Blamejs.Js.Number
import Mathlib.Data.List.Lex
import Mathlib.Data.List.Sort
import Mathlib.Tactic.Common

/-!
# Bytes of a `Buffer`

Big-endian integers, `Buffer.compare`, and the two widths `writeFloatBE` and
`writeDoubleBE` store a number in. A single-precision pattern is read and
written through the same `BinaryFormat` as a double, at 23 fraction bits and
`2 ^ 925` units to its smallest step.
-/

namespace Blamejs.Js

open BinaryFormat

/-- The `k` low bytes of `n`, most significant first. -/
def beBytes : Nat → Nat → List UInt8
  | 0, _ => []
  | k + 1, n => beBytes k (n / 256) ++ [UInt8.ofNat (n % 256)]

/-- The integer big-endian bytes stand for. -/
def beValue (bytes : List UInt8) : Nat := bytes.foldl (fun acc b => acc * 256 + b.toNat) 0

@[simp] theorem length_beBytes (k n : Nat) : (beBytes k n).length = k := by
  induction k generalizing n with
  | zero => rfl
  | succ k ih => rw [beBytes, List.length_append, ih, List.length_singleton]

theorem beValue_beBytes {k n : Nat} (h : n < 256 ^ k) : beValue (beBytes k n) = n := by
  induction k generalizing n with
  | zero =>
      rw [Nat.pow_zero] at h
      obtain rfl : n = 0 := by omega
      rfl
  | succ k ih =>
      have hq : n / 256 < 256 ^ k := by
        rw [Nat.div_lt_iff_lt_mul (by decide), ← Nat.pow_succ]
        exact h
      have hbyte : (UInt8.ofNat (n % 256)).toNat = n % 256 := by
        rw [UInt8.toNat_ofNat']
        omega
      have hq' := ih hq
      rw [beValue] at hq' ⊢
      rw [beBytes, List.foldl_append, hq', List.foldl_cons, List.foldl_nil, hbyte]
      omega

/-- `Buffer.compare(a, b) <= 0`. -/
def bytesLE (a b : List UInt8) : Prop := a.map UInt8.toNat ≤ b.map UInt8.toNat

instance : DecidableRel bytesLE := fun a b =>
  inferInstanceAs (Decidable (a.map UInt8.toNat ≤ b.map UInt8.toNat))

instance : Std.Total bytesLE := ⟨fun a b => le_total (a.map _) (b.map _)⟩

instance : IsTrans (List UInt8) bytesLE := ⟨fun _ _ _ h₁ h₂ => le_trans (α := List ℕ) h₁ h₂⟩

/-! ## Numbers as bytes -/

/-- `buf.readDoubleBE`, on the eight bytes as an integer. -/
def readDouble (n : Nat) : Double := ⟨decide (2 ^ 63 ≤ n), Fin.ofNat (2 ^ 63) n⟩

/-- `buf.writeDoubleBE`. -/
def writeDouble (x : Double) : Nat := (if x.neg then 2 ^ 63 else 0) + x.bits.val

/-- The step of single precision is `2 ^ singleShift` units. -/
@[irreducible] def singleShift : Nat := 925

/-- `buf.readFloatBE`, on the four bytes as an integer. -/
def readSingle (n : Nat) : Double :=
  let bits := n % 2 ^ 31
  if bits < 255 * 2 ^ 23 then
    Double.ofScaled (2 ^ 31 ≤ n) (magnitude 23 bits * 2 ^ singleShift)
  else if bits = 255 * 2 ^ 23 then Double.infinity (2 ^ 31 ≤ n)
  else Double.nan

/-- `buf.writeFloatBE`. -/
def writeSingle (x : Double) : Nat :=
  (if x.neg then 2 ^ 31 else 0) +
    if x.isNaN then 0x7fc00000
    else if x.isInfinite then 255 * 2 ^ 23
    else min (round 23 x.mag (2 ^ singleShift)) (255 * 2 ^ 23)

theorem readDouble_writeDouble (x : Double) : readDouble (writeDouble x) = x := by
  obtain ⟨neg, bits⟩ := x
  have hb := bits.isLt
  rw [readDouble, writeDouble, Double.mk.injEq]
  cases neg with
  | false =>
      refine ⟨by simp, Fin.ext ?_⟩
      simp [Fin.ofNat]
  | true =>
      refine ⟨by simp, Fin.ext ?_⟩
      simp [Fin.ofNat]

theorem writeDouble_lt (x : Double) : writeDouble x < 256 ^ 8 := by
  have hb := x.bits.isLt
  unfold writeDouble
  split <;> omega

theorem writeSingle_lt (x : Double) : writeSingle x < 256 ^ 4 := by
  unfold writeSingle
  split <;> split_ifs <;> omega

end Blamejs.Js
