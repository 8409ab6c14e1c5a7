import Mathlib

/-!
# Bit streams

Numbers of a fixed width, most significant bit first, and readers of a stream of bits
that may refuse. There are two judgments on a reader. `Reads` says what it makes of
bits that were written for it, whatever follows them; `Ensures` says what holds of
anything it reads, and how many bits that took. Both go through sequences and loops,
so a format is verified by following the shape of its reader.
-/

namespace BitStream

/-! ## Numbers -/

def valueOf (bits : List Bool) : Nat := bits.foldl (fun v b => v * 2 + b.toNat) 0

/-- The `k` low bits of a number. -/
def bitsOf : Nat → Nat → List Bool
  | 0, _ => []
  | k + 1, n => bitsOf k (n / 2) ++ [decide (n % 2 = 1)]

@[simp] theorem length_bitsOf (k n : Nat) : (bitsOf k n).length = k := by
  induction k generalizing n with
  | zero => rfl
  | succ k ih => rw [bitsOf, List.length_append, ih, List.length_singleton]

theorem valueOf_snoc (bits : List Bool) (b : Bool) :
    valueOf (bits ++ [b]) = valueOf bits * 2 + b.toNat := by
  rw [valueOf, List.foldl_append]
  rfl

theorem valueOf_append (xs ys : List Bool) :
    valueOf (xs ++ ys) = valueOf xs * 2 ^ ys.length + valueOf ys := by
  induction ys using List.reverseRecOn with
  | nil => simp [valueOf]
  | append_singleton ys b ih =>
      rw [← List.append_assoc, valueOf_snoc, ih, valueOf_snoc, List.length_append,
        List.length_singleton, Nat.pow_succ, ← Nat.mul_assoc]
      omega

theorem valueOf_lt (bits : List Bool) : valueOf bits < 2 ^ bits.length := by
  induction bits using List.reverseRecOn with
  | nil => decide
  | append_singleton bits b ih =>
      rw [valueOf_snoc, List.length_append, List.length_singleton, Nat.pow_succ]
      have := b.toNat_lt
      omega

theorem valueOf_bitsOf {k n : Nat} (h : n < 2 ^ k) : valueOf (bitsOf k n) = n := by
  induction k generalizing n with
  | zero =>
      obtain rfl : n = 0 := by simpa using h
      rfl
  | succ k ih =>
      rw [Nat.pow_succ] at h
      rw [bitsOf, valueOf_snoc, ih (by omega)]
      by_cases hodd : n % 2 = 1
      · simp only [hodd, decide_true, Bool.toNat_true]
        omega
      · simp only [hodd, decide_false, Bool.toNat_false]
        omega

theorem bitsOf_valueOf (bits : List Bool) : bitsOf bits.length (valueOf bits) = bits := by
  induction bits using List.reverseRecOn with
  | nil => rfl
  | append_singleton bits b ih =>
      have hhalf : (valueOf bits * 2 + b.toNat) / 2 = valueOf bits := by
        have := b.toNat_lt
        omega
      have hlast : decide ((valueOf bits * 2 + b.toNat) % 2 = 1) = b := by
        cases b <;> simp
      rw [List.length_append, List.length_singleton, bitsOf, valueOf_snoc, hhalf, hlast, ih]

/-! ## Readers -/

/-- What is left of a stream, and how many bits were read before. -/
structure Reader where
  rest : List Bool
  offset : Nat

abbrev Read (ε α : Type) := StateT Reader (Except ε) α

section judgments

variable {ε α β : Type}

/-- The reader makes `a` of `bits`, whatever follows. -/
def Reads (p : Read ε α) (bits : List Bool) (a : α) : Prop :=
  ∀ rest offset, p ⟨bits ++ rest, offset⟩ = .ok (a, ⟨rest, offset + bits.length⟩)

/-- Of whatever the reader makes of `n` bits, `Q n` holds. -/
def Ensures (p : Read ε α) (Q : Nat → α → Prop) : Prop :=
  ∀ r a r', p r = .ok (a, r') → ∃ n, r.rest.length = n + r'.rest.length ∧ Q n a

variable {p : Read ε α} {f : α → Read ε β} {Q Q' : Nat → α → Prop}

theorem Reads.pure (a : α) : Reads (pure a : Read ε α) [] a := fun _ _ => rfl

theorem Reads.bind {xs ys : List Bool} {a : α} {b : β} (hp : Reads p xs a) (hf : Reads (f a) ys b) :
    Reads (p >>= f) (xs ++ ys) b := by
  intro rest offset
  change (p ⟨xs ++ ys ++ rest, offset⟩ >>= fun r => f r.1 r.2) = _
  rw [List.append_assoc, hp]
  change f a _ = _
  rw [hf, List.length_append, Nat.add_assoc]

/-- The end of a sequence. -/
theorem Reads.last {xs : List Bool} {a : α} {g : α → β} (hp : Reads p xs a) :
    Reads (p >>= fun a => Pure.pure (g a)) xs (g a) := by
  have := hp.bind (f := fun a => Pure.pure (g a)) (Reads.pure (g a))
  rwa [List.append_nil] at this

theorem Reads.map {xs : List Bool} {a : α} (g : α → β) (hp : Reads p xs a) :
    Reads (g <$> p) xs (g a) := by
  intro rest offset
  change ((p ⟨xs ++ rest, offset⟩) >>= fun r => Except.ok (g r.1, r.2)) = _
  rw [hp]
  rfl

theorem Ensures.mono (h : Ensures p Q) (himp : ∀ n a, Q n a → Q' n a) : Ensures p Q' := by
  intro r a r' hr
  obtain ⟨n, hn, hq⟩ := h r a r' hr
  exact ⟨n, hn, himp n a hq⟩

theorem Ensures.pure {a : α} (h : Q 0 a) : Ensures (pure a : Read ε α) Q := by
  rintro r _ _ ⟨⟩
  exact ⟨0, (Nat.zero_add _).symm, h⟩

theorem Ensures.bind {R : Nat → β → Prop} (hp : Ensures p Q)
    (hf : ∀ n a, Q n a → Ensures (f a) fun m b => R (n + m) b) : Ensures (p >>= f) R := by
  intro r b r' hr
  change (p r >>= fun s => f s.1 s.2) = _ at hr
  cases hs : p r with
  | error e =>
      rw [hs] at hr
      cases hr
  | ok s =>
      obtain ⟨a, r₁⟩ := s
      rw [hs] at hr
      obtain ⟨n, hn, hq⟩ := hp r a r₁ hs
      obtain ⟨m, hm, hres⟩ := hf n a hq r₁ b r' hr
      exact ⟨n + m, by omega, hres⟩

theorem Ensures.map {R : Nat → β → Prop} {g : α → β} (hp : Ensures p Q)
    (hg : ∀ n a, Q n a → R n (g a)) : Ensures (g <$> p) R := by
  intro r b r' hr
  change (p r >>= fun s => Except.ok (g s.1, s.2)) = _ at hr
  cases hs : p r with
  | error e =>
      rw [hs] at hr
      cases hr
  | ok s =>
      obtain ⟨a, r₁⟩ := s
      rw [hs] at hr
      obtain ⟨n, hn, hq⟩ := hp r a r₁ hs
      cases hr
      exact ⟨n, hn, hg n a hq⟩

/-! ## Numbers and loops -/

/-- The next `k` bits as a number; `past` is the error where there are fewer. -/
def readBits (past : Reader → ε) (k : Nat) : Read ε Nat := fun r =>
  if r.rest.length < k then .error (past r)
  else .ok (valueOf (r.rest.take k), ⟨r.rest.drop k, r.offset + k⟩)

def readMany (p : Read ε α) : Nat → Read ε (List α)
  | 0 => pure []
  | n + 1 => do
      let a ← p
      let as ← readMany p n
      pure (a :: as)

theorem reads_readBits {past : Reader → ε} {k n : Nat} (h : n < 2 ^ k) :
    Reads (readBits past k) (bitsOf k n) n := by
  intro rest offset
  have hlen := length_bitsOf k n
  rw [readBits, if_neg (by simp), List.take_left' hlen, List.drop_left' hlen,
    valueOf_bitsOf h, hlen]

theorem ensures_readBits {past : Reader → ε} {k : Nat} :
    Ensures (readBits past k) fun n v => n = k ∧ v < 2 ^ k := by
  intro r a r' hr
  rw [readBits] at hr
  split at hr
  · cases hr
  · next hlen =>
      cases hr
      refine ⟨k, ?_, rfl, ?_⟩
      · rw [List.length_drop]
        omega
      · have := valueOf_lt (r.rest.take k)
        rwa [List.length_take, Nat.min_eq_left (Nat.not_lt.mp hlen)] at this

theorem reads_readMany {enc : α → List Bool} {as : List α} (h : ∀ a ∈ as, Reads p (enc a) a) :
    Reads (readMany p as.length) (as.flatMap enc) as := by
  induction as with
  | nil => exact .pure []
  | cons a as ih =>
      have hrest := ih fun a ha => h a (List.mem_cons_of_mem _ ha)
      exact (h a List.mem_cons_self).bind (f := fun a => do
        let as ← readMany p as.length
        Pure.pure (a :: as)) hrest.last

theorem ensures_readMany {P : α → Prop} {size : α → Nat}
    (h : Ensures p fun n a => P a ∧ size a ≤ n) (k : Nat) :
    Ensures (readMany p k) fun n as =>
      as.length = k ∧ (∀ a ∈ as, P a) ∧ (as.map size).sum ≤ n := by
  induction k with
  | zero => exact .pure ⟨rfl, fun _ ha => (nomatch ha), Nat.le_refl _⟩
  | succ k ih =>
      refine h.bind fun n a ⟨ha, hn⟩ => ih.bind fun m as ⟨hk, has, hm⟩ => .pure ⟨?_, ?_, ?_⟩
      · rw [List.length_cons, hk]
      · exact List.forall_mem_cons.mpr ⟨ha, has⟩
      · rw [List.map_cons, List.sum_cons]
        omega

end judgments

end BitStream
