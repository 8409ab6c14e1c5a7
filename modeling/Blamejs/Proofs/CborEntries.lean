import Blamejs.Proofs.CborRead

/-!
# Two notions of a key

The decoder tells keys apart twice: by their encoding, to refuse duplicates, and
by the `Map`'s own equality, when it stores them. The two agree on everything
but some numbers. `0` and `-0` have different encodings and are one key of a
`Map`; a NaN or an infinity has no encoding the decoder would make, is remembered
by the bytes it was read from, and those come in several widths.
-/

namespace Blamejs.Cbor

open Blamejs.Js

/-- Two number keys a `Map` cannot tell apart though they may be spelled
differently: two NaNs, two zeros, or twice the same infinity. -/
def merge : Value → Value → Bool
  | .num x, .num y =>
      (x.isNaN && y.isNaN) || (x.isZero && y.isZero) ||
        (x.isInfinite && y.isInfinite && x.neg == y.neg)
  | _, _ => false

theorem head_ok (major : Nat) {n : Nat} (h : n < 2 ^ 64) : ∃ bs, head major n = .ok bs := by
  unfold head
  split_ifs
  · exact ⟨_, rfl⟩
  · exact ⟨_, rfl⟩
  · exact ⟨_, rfl⟩
  · exact ⟨_, rfl⟩
  · exact ⟨_, rfl⟩
  · omega

theorem encodeInt_ok {z : Int} (h : -2 ^ 64 ≤ z ∧ z < 2 ^ 64) : ∃ bs, encodeInt z = .ok bs := by
  unfold encodeInt
  split
  · exact head_ok _ (by omega)
  · exact head_ok _ (by omega)

theorem encodeNumber_ok {x : Double} (h : x.isFinite = true) :
    ∃ bs, encodeNumber false x = .ok bs := by
  unfold encodeNumber
  split_ifs with hint hfin
  · simp only [Bool.and_eq_true, decide_eq_true_eq] at hint
    have := Double.natAbs_toInt_lt hint.2
    exact encodeInt_ok (by omega)
  · rw [h] at hfin
    exact absurd hfin (by decide)
  · exact ⟨_, rfl⟩

theorem encodeText_ok {s : JsString} (h : (utf8 s).length < 2 ^ 64) :
    ∃ bs, encodeText s = .ok bs := by
  obtain ⟨bs, hbs⟩ := head_ok 3 h
  exact ⟨bs ++ utf8 s, by rw [encodeText, headed, hbs]; rfl⟩

theorem keyId_of_ok {v : Value} (h : ∃ bs, encode v = .ok bs) (raw raw' : List UInt8) :
    keyId v raw = keyId v raw' := by
  obtain ⟨bs, hbs⟩ := h
  rw [keyId, keyId, hbs]

/-- Keys a `Map` takes for one merge, or were refused as duplicates. -/
theorem merge_or_keyId_eq {v w : Value} (hsame : sameKey v w = true) (hv : Short v) :
    merge v w = true ∨ ∀ raw raw', keyId v raw = keyId w raw' := by
  have hzero : ¬ absoluteMaxDepth < 0 := Nat.not_lt_zero _
  unfold sameKey at hsame
  split at hsame
  · exact Or.inr (keyId_of_ok ⟨_, by rw [encode, encodeValue, if_neg hzero]⟩)
  · exact Or.inr (keyId_of_ok ⟨_, by rw [encode, encodeValue, if_neg hzero]⟩)
  · obtain rfl := eq_of_beq hsame
    exact Or.inr (keyId_of_ok ⟨_, by rw [encode, encodeValue, if_neg hzero]⟩)
  · next x y =>
      rw [Double.sameValueZero, Bool.or_eq_true, Bool.or_eq_true] at hsame
      rcases hsame with (hnan | hz) | heq
      · exact Or.inl (by rw [merge, hnan, Bool.true_or, Bool.true_or])
      · exact Or.inl (by rw [merge, hz, Bool.or_true, Bool.true_or])
      · rw [Bool.and_eq_true, Bool.not_eq_true'] at heq
        obtain ⟨hnan, heq⟩ := heq
        obtain rfl := eq_of_beq heq
        by_cases hinf : x.isInfinite = true
        · exact Or.inl (by simp [merge, hinf])
        · have hfin : x.isFinite = true := by
            simp only [Double.isNaN, Double.isInfinite, Double.isFinite,
              decide_eq_true_eq, decide_eq_false_iff_not] at hnan hinf ⊢
            omega
          obtain ⟨bs, hbs⟩ := encodeNumber_ok hfin
          exact Or.inr (keyId_of_ok ⟨bs, by rw [encode, encodeValue, if_neg hzero, hbs]⟩)
  · obtain rfl := eq_of_beq hsame
    obtain ⟨bs, hbs⟩ := encodeInt_ok hv
    exact Or.inr (keyId_of_ok ⟨bs, by rw [encode, encodeValue, if_neg hzero, hbs]⟩)
  · obtain rfl := eq_of_beq hsame
    obtain ⟨bs, hbs⟩ := encodeText_ok hv
    exact Or.inr (keyId_of_ok ⟨bs, by rw [encode, encodeValue, if_neg hzero, hbs]⟩)
  · exact absurd hsame (by decide)

theorem mapSet_of_absent {m : List (Value × Value)} {k v : Value}
    (h : ∀ p ∈ m, sameKey p.1 k = false) : mapSet m k v = m ++ [(k, v)] := by
  induction m with
  | nil => rfl
  | cons p m ih =>
      obtain ⟨hp, hm⟩ := List.forall_mem_cons.mp h
      rw [mapSet, if_neg (by rw [hp]; decide), ih hm, List.cons_append]

end Blamejs.Cbor
