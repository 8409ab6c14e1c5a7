import Blamejs.Js.Text

/-!
# `buffer.toString("utf8")`

Decoding that never refuses: a byte that cannot go on a sequence ends it with a
U+FFFD and is then looked at by itself.
-/

namespace Blamejs.Js

/-- A sequence under way: the bytes that are missing, the range of the next one, and the
value so far. -/
structure Pending where
  missing : Nat
  low : Nat
  high : Nat
  value : Nat
  deriving DecidableEq, Repr

/-- A byte at the start of a sequence. -/
def leadByte (b : UInt8) : JsString × Option Pending :=
  let n := b.toNat
  if n < 0x80 then ([UInt16.ofNat n], none)
  else if 0xC2 ≤ n ∧ n ≤ 0xDF then ([], some ⟨1, 0x80, 0xBF, n - 0xC0⟩)
  else if 0xE0 ≤ n ∧ n ≤ 0xEF then
    ([], some ⟨2, if n = 0xE0 then 0xA0 else 0x80, if n = 0xED then 0x9F else 0xBF, n - 0xE0⟩)
  else if 0xF0 ≤ n ∧ n ≤ 0xF4 then
    ([], some ⟨3, if n = 0xF0 then 0x90 else 0x80, if n = 0xF4 then 0x8F else 0xBF, n - 0xF0⟩)
  else ([0xFFFD], none)

def utf8TextFrom : Option Pending → List UInt8 → JsString
  | none, [] => []
  | some _, [] => [0xFFFD]
  | none, b :: bs =>
      let (out, next) := leadByte b
      out ++ utf8TextFrom next bs
  | some p, b :: bs =>
      if p.low ≤ b.toNat ∧ b.toNat ≤ p.high then
        let value := p.value * 64 + (b.toNat - 0x80)
        if p.missing = 1 then ofChar (Char.ofNat value) ++ utf8TextFrom none bs
        else utf8TextFrom (some ⟨p.missing - 1, 0x80, 0xBF, value⟩) bs
      else
        let (out, next) := leadByte b
        0xFFFD :: (out ++ utf8TextFrom next bs)

def utf8Text (bytes : List UInt8) : JsString := utf8TextFrom none bytes

theorem utf8Text_ascii {bytes : List UInt8} (h : ∀ b ∈ bytes, b.toNat < 0x80) :
    utf8Text bytes = bytes.map fun b => UInt16.ofNat b.toNat := by
  rw [utf8Text]
  induction bytes with
  | nil => rfl
  | cons b bytes ih =>
      obtain ⟨hb, hbytes⟩ := List.forall_mem_cons.mp h
      show (leadByte b).1 ++ utf8TextFrom (leadByte b).2 bytes = _
      rw [leadByte, if_pos hb, List.map_cons, ← ih hbytes]
      rfl

theorem toNat_byte {n : Nat} (h : n < 256) : (UInt8.ofNat n).toNat = n := by
  rw [UInt8.toNat_ofNat', Nat.mod_eq_of_lt h]

/-- A byte that goes on a sequence, before its last. -/
theorem utf8TextFrom_more {p : Pending} {n : Nat} {bytes : List UInt8} (hn : n < 256)
    (hlow : p.low ≤ n) (hhigh : n ≤ p.high) (hmissing : p.missing ≠ 1) :
    utf8TextFrom (some p) (UInt8.ofNat n :: bytes) =
      utf8TextFrom (some ⟨p.missing - 1, 0x80, 0xBF, p.value * 64 + (n - 0x80)⟩) bytes := by
  show ite _ _ _ = _
  rw [toNat_byte hn, if_pos ⟨hlow, hhigh⟩]
  exact if_neg hmissing

/-- The last byte of a sequence. -/
theorem utf8TextFrom_last {p : Pending} {n : Nat} {bytes : List UInt8} (hn : n < 256)
    (hlow : p.low ≤ n) (hhigh : n ≤ p.high) (hmissing : p.missing = 1) :
    utf8TextFrom (some p) (UInt8.ofNat n :: bytes) =
      ofChar (Char.ofNat (p.value * 64 + (n - 0x80))) ++ utf8TextFrom none bytes := by
  show ite _ _ _ = _
  rw [toNat_byte hn, if_pos ⟨hlow, hhigh⟩]
  exact if_pos hmissing

theorem utf8TextFrom_lead {n : Nat} {p : Pending} {bytes : List UInt8}
    (h : leadByte (UInt8.ofNat n) = ([], some p)) :
    utf8TextFrom none (UInt8.ofNat n :: bytes) = utf8TextFrom (some p) bytes := by
  show (leadByte _).1 ++ utf8TextFrom (leadByte _).2 bytes = _
  rw [h]
  rfl

/-- The bytes of a character are read as that character. -/
theorem utf8TextFrom_char (c : Char) (bytes : List UInt8) :
    utf8TextFrom none (String.utf8EncodeChar c ++ bytes) = ofChar c ++ utf8TextFrom none bytes := by
  have hv : c.val.toNat = c.toNat := rfl
  have hself : Char.ofNat c.toNat = c := Char.ofNat_toNat c
  have hrange := char_range c
  rw [String.utf8EncodeChar, hv]
  by_cases h₁ : c.toNat ≤ 0x7F
  · rw [if_pos h₁, List.singleton_append, utf8TextFrom, leadByte, toNat_byte (by omega),
      if_pos (by omega), ofChar, if_pos (by omega)]
  rw [if_neg h₁]
  by_cases h₂ : c.toNat ≤ 0x7FF
  · rw [if_pos h₂, List.cons_append, List.singleton_append]
    have hlead : leadByte (UInt8.ofNat (c.toNat / 64 % 0x20 + 0xC0)) =
        ([], some ⟨1, 0x80, 0xBF, c.toNat / 64⟩) := by
      rw [leadByte, toNat_byte (by omega), if_neg (by omega), if_pos (by omega)]
      have hval : c.toNat / 64 % 0x20 + 0xC0 - 0xC0 = c.toNat / 64 := by omega
      rw [hval]
    rw [utf8TextFrom_lead hlead, utf8TextFrom_last (by omega) (by dsimp only; omega)
      (by dsimp only; omega) rfl]
    have hval : c.toNat / 64 * 64 + (c.toNat % 0x40 + 0x80 - 0x80) = c.toNat := by omega
    rw [hval, hself]
  rw [if_neg h₂]
  by_cases h₃ : c.toNat ≤ 0xFFFF
  · rw [if_pos h₃, List.cons_append, List.cons_append, List.singleton_append]
    have hlead : leadByte (UInt8.ofNat (c.toNat / 4096 % 0x10 + 0xE0)) =
        ([], some ⟨2, if c.toNat / 4096 = 0 then 0xA0 else 0x80,
          if c.toNat / 4096 = 13 then 0x9F else 0xBF, c.toNat / 4096⟩) := by
      rw [leadByte, toNat_byte (by omega), if_neg (by omega), if_neg (by omega),
        if_pos (by omega)]
      have hval : c.toNat / 4096 % 0x10 + 0xE0 - 0xE0 = c.toNat / 4096 := by omega
      have hzero : (c.toNat / 4096 % 0x10 + 0xE0 = 0xE0) = (c.toNat / 4096 = 0) := by
        apply propext
        omega
      have hthirteen : (c.toNat / 4096 % 0x10 + 0xE0 = 0xED) = (c.toNat / 4096 = 13) := by
        apply propext
        omega
      simp only [hval, hzero, hthirteen]
    rw [utf8TextFrom_lead hlead, utf8TextFrom_more (by omega)
      (by dsimp only; split <;> omega) (by dsimp only; split <;> omega) (by dsimp only; omega),
      utf8TextFrom_last (by omega) (by dsimp only; omega) (by dsimp only; omega) rfl]
    have hval : (c.toNat / 4096 * 64 + (c.toNat / 64 % 0x40 + 0x80 - 0x80)) * 64 +
        (c.toNat % 0x40 + 0x80 - 0x80) = c.toNat := by omega
    rw [hval, hself]
  · rw [if_neg h₃, List.cons_append, List.cons_append, List.cons_append, List.singleton_append]
    have hlead : leadByte (UInt8.ofNat (c.toNat / 262144 % 0x08 + 0xF0)) =
        ([], some ⟨3, if c.toNat / 262144 = 0 then 0x90 else 0x80,
          if c.toNat / 262144 = 4 then 0x8F else 0xBF, c.toNat / 262144⟩) := by
      rw [leadByte, toNat_byte (by omega), if_neg (by omega), if_neg (by omega),
        if_neg (by omega), if_pos (by omega)]
      have hval : c.toNat / 262144 % 0x08 + 0xF0 - 0xF0 = c.toNat / 262144 := by omega
      have hzero : (c.toNat / 262144 % 0x08 + 0xF0 = 0xF0) = (c.toNat / 262144 = 0) := by
        apply propext
        omega
      have hfour : (c.toNat / 262144 % 0x08 + 0xF0 = 0xF4) = (c.toNat / 262144 = 4) := by
        apply propext
        omega
      simp only [hval, hzero, hfour]
    rw [utf8TextFrom_lead hlead, utf8TextFrom_more (by omega)
      (by dsimp only; split <;> omega) (by dsimp only; split <;> omega) (by dsimp only; omega),
      utf8TextFrom_more (by omega) (by dsimp only; omega) (by dsimp only; omega)
        (by dsimp only; omega),
      utf8TextFrom_last (by omega) (by dsimp only; omega) (by dsimp only; omega) rfl]
    have hval : ((c.toNat / 262144 * 64 + (c.toNat / 4096 % 0x40 + 0x80 - 0x80)) * 64 +
        (c.toNat / 64 % 0x40 + 0x80 - 0x80)) * 64 + (c.toNat % 0x40 + 0x80 - 0x80) =
        c.toNat := by omega
    rw [hval, hself]

/-- The bytes of a string are read as that string. -/
theorem utf8Text_utf8 (s : JsString) : utf8Text (utf8 s) = toWellFormed s := by
  rw [utf8Text, utf8, toWellFormed]
  induction scalars s with
  | nil => rfl
  | cons c cs ih => rw [List.flatMap_cons, utf8TextFrom_char, ih, ofScalars_cons]

theorem utf8Text_of_wellFormed {s : JsString} (h : WellFormed s) : utf8Text (utf8 s) = s := by
  rw [utf8Text_utf8, h.toWellFormed]

end Blamejs.Js
