import Mathlib.Tactic.Common

/-!
# Self-delimiting text

A writer puts values next to each other with nothing but the text itself to
say where one ends. `Delimited` is the property that makes this sound: what
was written can be told apart from whatever follows it, as long as what
follows meets a side condition `stop`. A quoted string needs no condition, a
number has to be followed by something that is not a digit.

The property is stated at one value, so that an induction over a tree can
supply it for the children and ask for it at the parent. The combinators below
are the ways of composing texts: a run of units of one class, a sequence of
code words, a bracketed list with separators, lines.
-/

namespace Delimiting

variable {α β γ : Type*}

/-- What is written for `a` is the text of no other value, and ends where the
text of `a` ends. -/
def Delimited (write : α → List β) (stop : List β → Prop) (a : α) : Prop :=
  ∀ ⦃b r r'⦄, stop r → stop r' → write a ++ r = write b ++ r' → a = b ∧ r = r'

/-- The condition of a text that needs none. -/
def Anything : List β → Prop := fun _ => True

/-- What follows begins with `u`, for one of the units `p` allows. -/
def Begins (p : β → Prop) : List β → Prop
  | [] => False
  | u :: _ => p u

/-- What follows is over, or does not go on with a unit of the class `p`. -/
def Leaves (p : β → Bool) (r : List β) : Prop := ∀ u ∈ r.head?, p u = false

theorem Delimited.mono {write : α → List β} {stop stop' : List β → Prop} {a : α}
    (h : Delimited write stop a) (hs : ∀ r, stop' r → stop r) : Delimited write stop' a :=
  fun _ _ _ hr hr' he => h (hs _ hr) (hs _ hr') he

/-- Two delimited values with the same text are the same. -/
theorem Delimited.eq {write : α → List β} {stop : List β → Prop} {a b : α}
    (h : Delimited write stop a) (hnil : stop []) (he : write a = write b) : a = b :=
  (h hnil hnil (congrArg (· ++ []) he)).1

/-- Where a run of one class ends is decided by the class. -/
theorem span_append {p : β → Bool} {l l' r r' : List β} (hl : ∀ u ∈ l, p u = true)
    (hl' : ∀ u ∈ l', p u = true) (hr : Leaves p r) (hr' : Leaves p r')
    (h : l ++ r = l' ++ r') : l = l' ∧ r = r' := by
  induction l generalizing l' with
  | nil =>
      cases l' with
      | nil => exact ⟨rfl, h⟩
      | cons u l' =>
          rw [List.nil_append, List.cons_append] at h
          have := hr u (by rw [h]; rfl)
          rw [hl' u List.mem_cons_self] at this
          exact absurd this (by decide)
  | cons u l ih =>
      cases l' with
      | nil =>
          rw [List.nil_append, List.cons_append] at h
          have := hr' u (by rw [← h]; rfl)
          rw [hl u List.mem_cons_self] at this
          exact absurd this (by decide)
      | cons v l' =>
          rw [List.cons_append, List.cons_append, List.cons.injEq] at h
          obtain ⟨rfl, h⟩ := h
          obtain ⟨rfl, hrest⟩ := ih (fun w hw => hl w (List.mem_cons_of_mem _ hw))
            (fun w hw => hl' w (List.mem_cons_of_mem _ hw)) h
          exact ⟨rfl, hrest⟩

/-- Of two sequences of code words with a common continuation, one extends the
other. -/
theorem code_append {code : γ → List β} (hcode : ∀ c, Delimited code Anything c)
    {cs ds : List γ} {r r' : List β}
    (h : cs.flatMap code ++ r = ds.flatMap code ++ r') :
    (∃ es, cs = ds ++ es ∧ es.flatMap code ++ r = r') ∨
      (∃ es, ds = cs ++ es ∧ r = es.flatMap code ++ r') := by
  induction cs generalizing ds with
  | nil => exact Or.inr ⟨ds, rfl, h⟩
  | cons c cs ih =>
      cases ds with
      | nil => exact Or.inl ⟨c :: cs, rfl, h⟩
      | cons d ds =>
          rw [List.flatMap_cons, List.flatMap_cons, List.append_assoc, List.append_assoc] at h
          obtain ⟨rfl, htail⟩ := hcode c trivial trivial h
          rcases ih htail with ⟨es, hes, hr⟩ | ⟨es, hes, hr⟩
          · exact Or.inl ⟨es, by rw [hes, List.cons_append], hr⟩
          · exact Or.inr ⟨es, by rw [hes, List.cons_append], hr⟩

/-! ## Separated lists -/

/-- The parts with `sep` between them and `close` after the last. -/
def closed (sep close : β) (parts : List (List β)) : List β :=
  [sep].intercalate parts ++ [close]

/-- What follows the first part. -/
def afterFirst (sep close : β) : List (List β) → List β
  | [] => [close]
  | p :: ps => sep :: closed sep close (p :: ps)

theorem closed_cons (sep close : β) (p : List β) (ps : List (List β)) :
    closed sep close (p :: ps) = p ++ afterFirst sep close ps := by
  cases ps with
  | nil => simp [closed, afterFirst]
  | cons q qs => simp [closed, afterFirst]

theorem begins_afterFirst {sep close : β} (ps : List (List β)) (r : List β) :
    Begins (fun u => u = sep ∨ u = close) (afterFirst sep close ps ++ r) := by
  cases ps with
  | nil => exact Or.inr rfl
  | cons p ps => exact Or.inl rfl

/-- A separated list is self-delimiting when its members are, before the
separator and before the closing mark, and none of them begins with the
closing mark. -/
theorem closed_delimited {write : α → List β} {sep close : β} {xs : List α}
    (hsep : sep ≠ close)
    (hmem : ∀ x ∈ xs, Delimited write (Begins fun u => u = sep ∨ u = close) x)
    (hhead : ∀ x, ∃ u t, write x = u :: t ∧ u ≠ close) :
    Delimited (fun l : List α => closed sep close (l.map write)) Anything xs := by
  induction xs with
  | nil =>
      intro ys r r' _ _ h
      cases ys with
      | nil =>
          exact ⟨rfl, List.append_cancel_left h⟩
      | cons y ys =>
          obtain ⟨u, t, hy, hu⟩ := hhead y
          simp only [List.map_cons, closed_cons, hy] at h
          exact absurd (List.cons.inj h).1.symm hu
  | cons x xs ih =>
      intro ys r r' _ _ h
      cases ys with
      | nil =>
          obtain ⟨u, t, hx, hu⟩ := hhead x
          simp only [List.map_cons, closed_cons, hx] at h
          exact absurd (List.cons.inj h).1 hu
      | cons y ys =>
          simp only [List.map_cons, closed_cons, List.append_assoc] at h
          obtain ⟨rfl, htail⟩ := hmem x List.mem_cons_self (begins_afterFirst _ _)
            (begins_afterFirst _ _) h
          cases xs with
          | nil =>
              cases ys with
              | nil => exact ⟨rfl, (List.cons.inj htail).2⟩
              | cons y ys => exact absurd (List.cons.inj htail).1.symm hsep
          | cons x' xs =>
              cases ys with
              | nil => exact absurd (List.cons.inj htail).1 hsep
              | cons y ys =>
                  have hrest : x' :: xs = y :: ys ∧ r = r' :=
                    ih (fun z hz => hmem z (List.mem_cons_of_mem _ hz)) trivial trivial
                      (List.cons.inj htail).2
                  exact ⟨by rw [hrest.1], hrest.2⟩

/-- Lines joined by a separator none of them contains. -/
theorem intercalate_injective {sep : β} [DecidableEq β] {xs ys : List (List β)}
    (hx : ∀ l ∈ xs, sep ∉ l) (hy : ∀ l ∈ ys, sep ∉ l) (hxs : xs ≠ []) (hys : ys ≠ [])
    (h : [sep].intercalate xs = [sep].intercalate ys) : xs = ys := by
  rw [← List.splitOn_intercalate sep hx hxs, h, List.splitOn_intercalate sep hy hys]

end Delimiting
