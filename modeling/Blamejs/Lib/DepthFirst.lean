import Mathlib.Data.List.Dedup
import Mathlib.Logic.Relation
import Mathlib.Tactic.Common

/-!
# Depth-first search with one set of what was seen

`visit` walks a graph from a node and leaves out what was seen before, whoever saw it. A node
is marked before its successors are walked, so on the way down a marked node need not have its
successors marked yet; what `visit` itself has marked does, when it returns (`visit_closed`).
A search from several nodes with one set finds exactly what is reachable from them
(`mem_visitAll`), in a finite graph with fuel for its nodes (`visitAll_total`).
-/

namespace DepthFirst

variable {α : Type} [DecidableEq α] (next : α → List α)

/-- The walk from a node, given what was seen. -/
def visit : Nat → α → List α → Option (List α)
  | 0, _, _ => none
  | fuel + 1, a, seen =>
      if a ∈ seen then some seen
      else (next a).foldlM (fun seen b => visit fuel b seen) (a :: seen)

/-- The walks from several nodes. -/
def visitAll (fuel : Nat) (starts : List α) : Option (List α) :=
  starts.foldlM (fun seen a => visit next fuel a seen) []

/-- An edge of the graph. -/
def Edge (a b : α) : Prop := b ∈ next a

def Reaches : α → α → Prop := Relation.ReflTransGen (Edge next)

variable {next} {fuel : Nat} {a : α} {as seen seen' : List α}

/-- Graphs that agree on a closed set of nodes reach the same from it, inside it. -/
theorem Reaches.congr {next' : α → List α} {inside : α → Prop} {b : α}
    (hclosed : ∀ a, inside a → ∀ b ∈ next a, inside b)
    (hsame : ∀ a, inside a → next a = next' a) (ha : inside a) (h : Reaches next a b) :
    Reaches next' a b ∧ inside b := by
  induction h with
  | refl => exact ⟨.refl, ha⟩
  | tail _ hedge ih =>
      have hnext := hclosed _ ih.2 _ hedge
      rw [Edge, hsame _ ih.2] at hedge
      exact ⟨ih.1.tail hedge, hnext⟩

/-- What a walk from some nodes does to what was seen. -/
structure Walked (next : α → List α) (as seen seen' : List α) : Prop where
  grows : seen ⊆ seen'
  starts : ∀ a ∈ as, a ∈ seen'
  sound : ∀ b ∈ seen', b ∈ seen ∨ ∃ a ∈ as, Reaches next a b
  closed : ∀ b ∈ seen', b ∉ seen → ∀ c ∈ next b, c ∈ seen'

theorem Walked.refl (seen : List α) : Walked next [] seen seen :=
  ⟨fun _ h => h, fun _ h => absurd h List.not_mem_nil, fun _ h => Or.inl h,
    fun _ h h' => absurd h h'⟩

theorem Walked.append {bs seen'' : List α} (h : Walked next as seen seen')
    (h' : Walked next bs seen' seen'') : Walked next (as ++ bs) seen seen'' := by
  refine ⟨fun _ hx => h'.grows (h.grows hx), fun x hx => ?_, fun x hx => ?_, fun x hx hnot => ?_⟩
  · rcases List.mem_append.mp hx with hx | hx
    · exact h'.grows (h.starts x hx)
    · exact h'.starts x hx
  · rcases h'.sound x hx with hx | ⟨b, hb, hreach⟩
    · refine (h.sound x hx).imp_right fun ⟨c, hc, hreach⟩ => ?_
      exact ⟨c, List.mem_append_left _ hc, hreach⟩
    · exact Or.inr ⟨b, List.mem_append_right _ hb, hreach⟩
  · by_cases hmid : x ∈ seen'
    · exact fun c hc => h'.grows (h.closed x hmid hnot c hc)
    · exact h'.closed x hx hmid

/-- What each walk does, all of them together do. -/
theorem walked_foldlM {walk : List α → α → Option (List α)}
    (hwalk : ∀ a seen seen', walk seen a = some seen' → Walked next [a] seen seen')
    (h : as.foldlM walk seen = some seen') : Walked next as seen seen' := by
  induction as generalizing seen with
  | nil =>
      cases h
      exact .refl _
  | cons a as ih =>
      obtain ⟨mid, hmid, h⟩ := Option.bind_eq_some_iff.mp h
      exact (hwalk a seen mid hmid).append (ih h)

/-- The walk from a node. -/
theorem walked_visit (h : visit next fuel a seen = some seen') : Walked next [a] seen seen' := by
  induction fuel generalizing a seen seen' with
  | zero => cases h
  | succ fuel ih =>
      rw [visit] at h
      split at h
      · next hmem =>
          cases h
          exact ⟨fun _ hx => hx, List.forall_mem_singleton.mpr hmem, fun _ hx => Or.inl hx,
            fun _ hx hnot => absurd hx hnot⟩
      · next hnot =>
          have hrest : Walked next (next a) (a :: seen) seen' :=
            walked_foldlM (fun _ _ _ => ih) h
          refine ⟨fun x hx => hrest.grows (List.mem_cons_of_mem a hx),
            List.forall_mem_singleton.mpr (hrest.grows List.mem_cons_self), fun x hx => ?_,
            fun x hx hfresh c hc => ?_⟩
          · rcases hrest.sound x hx with hx | ⟨b, hb, hreach⟩
            · rcases List.mem_cons.mp hx with rfl | hx
              · exact Or.inr ⟨x, List.mem_singleton_self x, .refl⟩
              · exact Or.inl hx
            · exact Or.inr ⟨a, List.mem_singleton_self a, .head hb hreach⟩
          · rcases eq_or_ne x a with rfl | hne
            · exact hrest.starts c hc
            · have hnew : x ∉ a :: seen := by
                rw [List.mem_cons, not_or]
                exact ⟨hne, hfresh⟩
              exact hrest.closed x hx hnew c hc

theorem walked_visitAll (h : visitAll next fuel as = some seen') : Walked next as [] seen' :=
  walked_foldlM (fun _ _ _ => walked_visit) h

/-- A search from several nodes finds what is reachable from one of them. -/
theorem mem_visitAll (h : visitAll next fuel as = some seen') {b : α} :
    b ∈ seen' ↔ ∃ a ∈ as, Reaches next a b := by
  have hwalked := walked_visitAll h
  constructor
  · intro hb
    exact (hwalked.sound b hb).resolve_left List.not_mem_nil
  · intro ⟨a, ha, hreach⟩
    induction hreach with
    | refl => exact hwalked.starts a ha
    | tail _ hedge ih => exact hwalked.closed _ ih List.not_mem_nil _ hedge

/-! ## Fuel -/

/-- How many nodes were not seen. -/
def unseen (nodes seen : List α) : Nat := (nodes.filter fun a => a ∉ seen).length

theorem unseen_mono {nodes : List α} (h : seen ⊆ seen') :
    unseen nodes seen' ≤ unseen nodes seen := by
  refine List.Sublist.length_le ?_
  refine List.monotone_filter_right nodes fun a ha => ?_
  simp only [decide_eq_true_eq] at ha ⊢
  exact fun hmem => ha (h hmem)

theorem unseen_cons {nodes : List α} (hnode : a ∈ nodes) (hnot : a ∉ seen) :
    unseen nodes (a :: seen) < unseen nodes seen := by
  have hsub : (nodes.filter fun b => b ∉ a :: seen).Sublist (nodes.filter fun b => b ∉ seen) := by
    refine List.monotone_filter_right nodes fun b hb => ?_
    simp only [decide_eq_true_eq, List.mem_cons, not_or] at hb ⊢
    exact hb.2
  refine Nat.lt_of_le_of_ne hsub.length_le fun heq => ?_
  have hmem : a ∈ nodes.filter fun b => b ∉ a :: seen := by
    rw [hsub.eq_of_length heq, List.mem_filter]
    exact ⟨hnode, by simpa using hnot⟩
  simp at hmem

/-- Walks that end from every node end in turn. -/
theorem foldlM_total {nodes bs : List α}
    (hvisit : ∀ a ∈ nodes, ∀ seen, unseen nodes seen < fuel →
      ∃ seen', visit next fuel a seen = some seen')
    (hbs : ∀ b ∈ bs, b ∈ nodes) (hfuel : unseen nodes seen < fuel) :
    ∃ seen', bs.foldlM (fun seen b => visit next fuel b seen) seen = some seen' := by
  induction bs generalizing seen with
  | nil => exact ⟨seen, rfl⟩
  | cons b bs ih =>
      obtain ⟨hb, hbs⟩ := List.forall_mem_cons.mp hbs
      obtain ⟨mid, hmid⟩ := hvisit b hb seen hfuel
      have hgrows := (walked_visit hmid).grows
      obtain ⟨seen', hrest⟩ := ih hbs (Nat.lt_of_le_of_lt (unseen_mono hgrows) hfuel)
      exact ⟨seen', Option.bind_eq_some_iff.mpr ⟨mid, hmid, hrest⟩⟩

/-- A walk ends when there is fuel for each node that was not seen. -/
theorem visit_total {nodes : List α} (hnodes : ∀ a ∈ nodes, ∀ b ∈ next a, b ∈ nodes)
    (ha : a ∈ nodes) (hfuel : unseen nodes seen < fuel) :
    ∃ seen', visit next fuel a seen = some seen' := by
  induction fuel generalizing a seen with
  | zero => omega
  | succ fuel ih =>
      rw [visit]
      split
      · exact ⟨seen, rfl⟩
      · next hnot =>
          have hless := unseen_cons ha hnot
          exact foldlM_total (fun b hb _ => ih hb) (hnodes a ha) (by omega)

theorem visitAll_total {nodes : List α} (hnodes : ∀ a ∈ nodes, ∀ b ∈ next a, b ∈ nodes)
    (has : ∀ a ∈ as, a ∈ nodes) (hfuel : nodes.length < fuel) :
    ∃ seen, visitAll next fuel as = some seen :=
  foldlM_total (fun _ ha _ => visit_total hnodes ha) has
    (Nat.lt_of_le_of_lt (List.length_filter_le _ nodes) hfuel)

end DepthFirst
