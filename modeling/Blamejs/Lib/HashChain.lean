import Mathlib.Tactic.Common

/-!
# Linked rows

A chain is a list of rows, each of which names the head it was written against
and yields the head the next one is written against. `link` is that check for
one row; `follow` carries it along a list. Nothing here knows what a head is:
the one property a hash supplies is that a row's new head determines the row
and the head before it, and `follow_agree` turns it into the same statement
about whole chains.
-/

namespace HashChain

variable {H R : Type*}

/-- The head after a list of rows, when every row links. -/
def follow (link : H → R → Option H) : H → List R → Option H
  | h, [] => some h
  | h, r :: rs => (link h r).bind fun h' => follow link h' rs

/-- The checks `follow` makes: each row with the head it is checked against. -/
def visits (link : H → R → Option H) : H → List R → List (H × R)
  | _, [] => []
  | h, r :: rs => (h, r) :: (link h r).elim [] fun h' => visits link h' rs

variable {link : H → R → Option H}

@[simp] theorem follow_nil {h : H} : follow link h [] = some h := rfl

theorem follow_cons {h : H} {r : R} {rs : List R} :
    follow link h (r :: rs) = (link h r).bind fun h' => follow link h' rs := rfl

theorem follow_append {h : H} {rs ss : List R} :
    follow link h (rs ++ ss) = (follow link h rs).bind fun k => follow link k ss := by
  induction rs generalizing h with
  | nil => rfl
  | cons r rs ih =>
      rw [List.cons_append, follow_cons, follow_cons]
      cases link h r with
      | none => rfl
      | some h' => exact ih

theorem follow_append_eq_some {h e : H} {rs ss : List R} :
    follow link h (rs ++ ss) = some e ↔
      ∃ k, follow link h rs = some k ∧ follow link k ss = some e := by
  rw [follow_append, Option.bind_eq_some_iff]

theorem mem_of_visits {h : H} {rs : List R} {p : H × R} (hp : p ∈ visits link h rs) :
    p.2 ∈ rs := by
  induction rs generalizing h with
  | nil => exact absurd hp List.not_mem_nil
  | cons r rs ih =>
      rcases List.mem_cons.mp hp with rfl | hp
      · exact List.mem_cons_self
      · cases hr : link h r with
        | none => rw [hr] at hp; exact absurd hp List.not_mem_nil
        | some h' => rw [hr] at hp; exact List.mem_cons_of_mem _ (ih hp)

/-- Two chains of one length that end in one head are the same chain, row by
row, provided equal heads come from equal rows. Heads need only be compared
when they are the two starting heads or were both yielded by rows, which is
what `D` records. -/
theorem follow_agree {D : H → Prop} {same : R → R → Prop}
    (hlink : ∀ h r h', link h r = some h' → D h') {h k e : H} {rs ss : List R}
    (hback : ∀ p ∈ visits link h rs, ∀ q ∈ visits link k ss, ∀ e', (p.1 = q.1 ∨ (D p.1 ∧ D q.1)) →
      link p.1 p.2 = some e' → link q.1 q.2 = some e' → p.1 = q.1 ∧ same p.2 q.2)
    (hstart : h = k ∨ (D h ∧ D k)) (hrs : follow link h rs = some e)
    (hss : follow link k ss = some e) (hlen : rs.length = ss.length) :
    h = k ∧ List.Forall₂ same rs ss := by
  induction rs generalizing h k ss with
  | nil =>
      obtain rfl := List.eq_nil_of_length_eq_zero hlen.symm
      exact ⟨Option.some.inj (hrs.trans hss.symm), .nil⟩
  | cons r rs ih =>
      obtain ⟨s, ss, rfl⟩ := List.exists_cons_of_length_pos
        (by rw [← hlen]; exact Nat.zero_lt_succ _ : 0 < ss.length)
      rw [follow_cons, Option.bind_eq_some_iff] at hrs hss
      obtain ⟨h', hr, hrs⟩ := hrs
      obtain ⟨k', hs, hss⟩ := hss
      simp only [visits, hr, hs, Option.elim_some] at hback
      -- The tails agree first; their common starting head ties the two heads here together.
      obtain ⟨rfl, htail⟩ := ih
        (fun p hp q hq => hback p (List.mem_cons_of_mem _ hp) q (List.mem_cons_of_mem _ hq))
        (Or.inr ⟨hlink _ _ _ hr, hlink _ _ _ hs⟩) hrs hss (Nat.succ.inj hlen)
      obtain ⟨rfl, hsame⟩ := hback _ List.mem_cons_self _ List.mem_cons_self _ hstart hr hs
      exact ⟨rfl, .cons hsame htail⟩

end HashChain
