import Mathlib
import Blamejs.Js.Text

/-!
# `encodeURIComponent`

A text is taken as its scalar values, which is what a `URLSearchParams` holds.
Every character is written as itself or as the percent-encoded bytes of its UTF-8
form, and from where one starts it can be told which it is.
-/

namespace Blamejs.Js

open Delimiting

/-- The characters that stand for themselves. -/
def isUnreserved (c : Char) : Bool :=
  c.isAlphanum || c ∈ ['-', '_', '.', '!', '~', '*', '\'', '(', ')']

/-- A digit of a percent-encoded byte. -/
def upperHexUnit (n : Nat) : UInt16 := UInt16.ofNat (if n < 10 then 48 + n else 55 + n)

def percentByte (b : UInt8) : JsString :=
  [unit '%', upperHexUnit (b.toNat / 16), upperHexUnit (b.toNat % 16)]

def encodeChar (c : Char) : JsString :=
  if isUnreserved c then [unit c] else (String.utf8EncodeChar c).flatMap percentByte

def encodeURIComponent (cs : List Char) : JsString := cs.flatMap encodeChar

theorem upperHexUnit_inj {m n : Nat} (hm : m < 16) (hn : n < 16)
    (h : upperHexUnit m = upperHexUnit n) : m = n := by
  have hnat := congrArg UInt16.toNat h
  unfold upperHexUnit at hnat
  rw [UInt16.toNat_ofNat', UInt16.toNat_ofNat'] at hnat
  split at hnat <;> split at hnat <;> omega

theorem percentByte_delimited (b : UInt8) : Delimited percentByte Anything b := by
  intro b' r r' _ _ h
  simp only [percentByte, List.cons_append, List.nil_append, List.cons.injEq] at h
  obtain ⟨-, hhigh, hlow, hr⟩ := h
  have hb := b.toNat_lt
  have hb' := b'.toNat_lt
  have h1 := upperHexUnit_inj (by omega) (by omega) hhigh
  have h2 := upperHexUnit_inj (by omega) (by omega) hlow
  exact ⟨UInt8.toNat.inj (by omega), hr⟩

theorem isUnreserved_lt {c : Char} (h : isUnreserved c = true) : c.toNat < 0x80 := by
  rw [isUnreserved, Bool.or_eq_true] at h
  rcases h with h | h
  · simp only [Char.isAlphanum, Char.isAlpha, Char.isUpper, Char.isLower, Char.isDigit,
      Bool.or_eq_true, Bool.and_eq_true, decide_eq_true_eq, UInt32.le_iff_toNat_le] at h
    simp only [Char.toNat]
    rcases h with (h | h) | h <;> exact Nat.lt_of_le_of_lt h.2 (by decide)
  · have hsigns : ∀ d ∈ ['-', '_', '.', '!', '~', '*', '\'', '(', ')'], d.toNat < 0x80 :=
      List.all_iff_forall_prop.mp (by decide)
    exact hsigns c (of_decide_eq_true h)

theorem unit_inj {c d : Char} (hc : c.toNat < 0x80) (hd : d.toNat < 0x80) (h : unit c = unit d) :
    c = d := by
  have hnat := congrArg UInt16.toNat h
  simp only [unit, UInt16.toNat_ofNat'] at hnat
  exact Char.toNat_inj.mp (by omega)

theorem utf8EncodeChar_ne_nil (c : Char) : String.utf8EncodeChar c ≠ [] :=
  List.ne_nil_of_length_pos (by rw [String.length_utf8EncodeChar]; exact Char.utf8Size_pos c)

/-- What is percent-encoded begins with the sign. -/
theorem head_percent (c : Char) :
    ((String.utf8EncodeChar c).flatMap percentByte).head? = some (unit '%') := by
  cases h : String.utf8EncodeChar c with
  | nil => exact absurd h (utf8EncodeChar_ne_nil c)
  | cons b bs => rfl

theorem unit_ne_percent {c : Char} (h : isUnreserved c = true) : unit c ≠ unit '%' := by
  intro heq
  rw [unit_inj (isUnreserved_lt h) (by decide) heq] at h
  exact absurd h (by decide)

theorem encodeChar_delimited (c : Char) : Delimited encodeChar Anything c := by
  have hmixed : ∀ {c d : Char} {r r' : JsString}, isUnreserved c = true →
      [unit c] ++ r ≠ (String.utf8EncodeChar d).flatMap percentByte ++ r' := by
    intro c d r r' hc h
    have hhead := congrArg List.head? h
    rw [List.head?_append, List.head?_append, head_percent] at hhead
    exact unit_ne_percent hc (Option.some.inj hhead)
  intro d r r' _ _ h
  unfold encodeChar at h
  split at h <;> split at h
  · next hc hd =>
      simp only [List.cons_append, List.nil_append, List.cons.injEq] at h
      exact ⟨unit_inj (isUnreserved_lt hc) (isUnreserved_lt hd) h.1, h.2⟩
  · next hc _ => exact absurd h (hmixed hc)
  · next _ hd => exact absurd h.symm (hmixed hd)
  · -- the bytes of one character extend those of the other
    rcases code_append percentByte_delimited h with ⟨es, hes, hr⟩ | ⟨es, hes, hr⟩
    · have hcd : String.utf8EncodeChar c ++ [] = String.utf8EncodeChar d ++ es := by
        rw [List.append_nil, hes]
      obtain ⟨rfl, hnil⟩ := utf8EncodeChar_delimited c trivial trivial hcd
      exact ⟨rfl, by simpa [← hnil] using hr⟩
    · have hdc : String.utf8EncodeChar d ++ [] = String.utf8EncodeChar c ++ es := by
        rw [List.append_nil, hes]
      obtain ⟨rfl, hnil⟩ := utf8EncodeChar_delimited d trivial trivial hdc
      exact ⟨rfl, by simpa [← hnil] using hr⟩

theorem encodeChar_ne_nil (c : Char) : encodeChar c ≠ [] := by
  unfold encodeChar
  split
  · simp
  · intro h
    have := head_percent c
    rw [h] at this
    cases this

theorem encodeURIComponent_injective : Function.Injective encodeURIComponent := by
  have hnil : ∀ es : List Char, es.flatMap encodeChar = [] → es = [] := by
    intro es h
    cases es with
    | nil => rfl
    | cons e es => simp [encodeChar_ne_nil] at h
  intro cs ds h
  have h' : cs.flatMap encodeChar ++ [] = ds.flatMap encodeChar ++ [] := congrArg (· ++ []) h
  rcases code_append encodeChar_delimited h' with ⟨es, rfl, hr⟩ | ⟨es, rfl, hr⟩
  · rw [hnil es (by simpa using hr), List.append_nil]
  · rw [hnil es (by simpa using hr.symm), List.append_nil]

/-- A reserved sign other than `%` does not occur. -/
theorem not_mem_encodeURIComponent {c : Char} (hlt : c.toNat < 0x80) (hc : isUnreserved c = false)
    (hsign : c ≠ '%') (cs : List Char) : unit c ∉ encodeURIComponent cs := by
  have hhex : ∀ n < 16, isUnreserved (Char.ofNat (upperHexUnit n).toNat) = true ∧
      (upperHexUnit n).toNat < 0x80 := by decide
  have hdigit : ∀ n < 16, unit c ≠ upperHexUnit n := by
    intro n hn heq
    obtain ⟨hplain, -⟩ := hhex n hn
    rw [← heq, unit, UInt16.toNat_ofNat', Nat.mod_eq_of_lt (by omega), Char.ofNat_toNat] at hplain
    rw [hc] at hplain
    cases hplain
  intro hmem
  obtain ⟨d, -, hd⟩ := List.mem_flatMap.mp hmem
  unfold encodeChar at hd
  split at hd
  · next hplain =>
      rw [unit_inj hlt (isUnreserved_lt hplain) (List.mem_singleton.mp hd), hplain] at hc
      cases hc
  · obtain ⟨b, -, hb⟩ := List.mem_flatMap.mp hd
    have hb' := b.toNat_lt
    simp only [percentByte, List.mem_cons, List.not_mem_nil, or_false] at hb
    rcases hb with hb | hb | hb
    · exact hsign (unit_inj hlt (by decide) hb)
    · exact hdigit _ (by omega) hb
    · exact hdigit _ (by omega) hb

end Blamejs.Js
