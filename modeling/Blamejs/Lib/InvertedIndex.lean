import Mathlib.Data.List.Basic
import Mathlib.Logic.Function.Basic

/-!
# An inverted index

From each label to the keys that carry it, as a partial map of key lists. Keys
are added and dropped label by label, a label whose last key goes away goes
away with it, and a label may come twice in a list of labels. `Exact` is what
the index is for: it lists, under each label, the keys a relation says carry
it, and holds no empty list.
-/

namespace InvertedIndex

variable {K L : Type*} [DecidableEq K] [DecidableEq L]

abbrev Index (L K : Type*) := L → Option (List K)

/-- A key list with a key added; a label not yet indexed gets a list of one. -/
def withKey (key : K) : Option (List K) → Option (List K)
  | none => some [key]
  | some keys => some (if key ∈ keys then keys else keys ++ [key])

/-- A key list with a key taken out, absent once it is empty. -/
def withoutKey (key : K) : Option (List K) → Option (List K)
  | none => none
  | some keys => if keys.filter (· ≠ key) = [] then none else some (keys.filter (· ≠ key))

def add (key : K) (index : Index L K) (label : L) : Index L K :=
  Function.update index label (withKey key (index label))

def drop (key : K) (index : Index L K) (label : L) : Index L K :=
  Function.update index label (withoutKey key (index label))

theorem withKey_twice (key : K) (keys : Option (List K)) :
    withKey key (withKey key keys) = withKey key keys := by
  cases keys with
  | none => simp [withKey]
  | some keys =>
      by_cases h : key ∈ keys
      · simp [withKey, h]
      · simp [withKey, h]

theorem withoutKey_twice (key : K) (keys : Option (List K)) :
    withoutKey key (withoutKey key keys) = withoutKey key keys := by
  cases keys with
  | none => rfl
  | some keys =>
      by_cases h : keys.filter (· ≠ key) = []
      · simp only [withoutKey, if_pos h]
      · simp only [withoutKey, if_neg h, List.filter_filter, Bool.and_self]

omit [DecidableEq K] in
/-- Folding an idempotent change over a list of labels makes it once at each. -/
theorem foldl_update_apply {f : Option (List K) → Option (List K)} (hf : ∀ x, f (f x) = f x)
    (labels : List L) (index : Index L K) (label : L) :
    labels.foldl (fun index label => Function.update index label (f (index label))) index label =
      if label ∈ labels then f (index label) else index label := by
  induction labels generalizing index with
  | nil => rfl
  | cons l labels ih =>
      rw [List.foldl_cons, ih]
      by_cases hl : label = l
      · subst hl
        rw [Function.update_self, hf, ite_self, if_pos List.mem_cons_self]
      · rw [Function.update_of_ne hl]
        by_cases hmem : label ∈ labels
        · rw [if_pos hmem, if_pos (List.mem_cons_of_mem _ hmem)]
        · rw [if_neg hmem, if_neg fun h => (List.mem_cons.mp h).elim hl hmem]

/-- The index lists exactly the keys that carry each label, and no empty list. -/
def Exact (carries : K → L → Prop) (index : Index L K) : Prop :=
  ∀ label, (index label = none → ∀ key, ¬ carries key label) ∧
    ∀ keys, index label = some keys → keys ≠ [] ∧ ∀ key, key ∈ keys ↔ carries key label

variable {carries carries' : K → L → Prop} {index : Index L K}

omit [DecidableEq K] [DecidableEq L] in
theorem Exact.congr (h : Exact carries index) (heq : ∀ k l, carries' k l ↔ carries k l) :
    Exact carries' index := by
  refine fun label => ⟨fun hn key hc => (h label).1 hn key ((heq key label).mp hc), ?_⟩
  intro keys hk
  obtain ⟨hne, hmem⟩ := (h label).2 keys hk
  exact ⟨hne, fun key => (hmem key).trans (heq key label).symm⟩

omit [DecidableEq K] [DecidableEq L] in
theorem exact_empty : Exact (fun (_ : K) (_ : L) => False) fun _ => none := by
  refine fun label => ⟨fun _ _ h => h, fun keys hk => ?_⟩
  cases hk

theorem Exact.add (h : Exact carries index) (key : K) (labels : List L) :
    Exact (fun k l => carries k l ∨ (k = key ∧ l ∈ labels))
      (labels.foldl (InvertedIndex.add key) index) := by
  have happly := foldl_update_apply (withKey_twice key) labels index
  intro label
  by_cases hl : label ∈ labels
  · have hat : labels.foldl (InvertedIndex.add key) index label = withKey key (index label) :=
      (happly label).trans (if_pos hl)
    rw [hat]
    cases hi : index label with
    | none =>
        refine ⟨fun hn => ?_, fun keys hk => ?_⟩
        · cases hn
        · cases hk
          refine ⟨List.cons_ne_nil _ _, fun k => ?_⟩
          simp [(h label).1 hi k, hl]
    | some keys =>
        refine ⟨fun hn => ?_, fun keys' hk => ?_⟩
        · cases hn
        · obtain ⟨hne, hmem⟩ := (h label).2 keys hi
          cases hk
          by_cases hkey : key ∈ keys
          · rw [if_pos hkey]
            refine ⟨hne, fun k => ⟨fun hk => .inl ((hmem k).mp hk), ?_⟩⟩
            rintro (hc | ⟨rfl, -⟩)
            · exact (hmem k).mpr hc
            · exact hkey
          · rw [if_neg hkey]
            refine ⟨by simp, fun k => ?_⟩
            rw [List.mem_append, List.mem_singleton, hmem]
            simp [hl]
  · have hat : labels.foldl (InvertedIndex.add key) index label = index label :=
      (happly label).trans (if_neg hl)
    rw [hat]
    refine ⟨fun hn k hc => ?_, fun keys hk => ?_⟩
    · rcases hc with hc | ⟨-, hmem⟩
      · exact (h label).1 hn k hc
      · exact hl hmem
    · obtain ⟨hne, hmem⟩ := (h label).2 keys hk
      exact ⟨hne, fun k => (hmem k).trans ⟨.inl, fun hc => hc.elim id fun h' => (hl h'.2).elim⟩⟩

theorem Exact.drop (h : Exact carries index) (key : K) (labels : List L)
    (hall : ∀ l, carries key l → l ∈ labels) :
    Exact (fun k l => carries k l ∧ k ≠ key)
      (labels.foldl (InvertedIndex.drop key) index) := by
  have happly := foldl_update_apply (withoutKey_twice key) labels index
  intro label
  by_cases hl : label ∈ labels
  · have hat : labels.foldl (InvertedIndex.drop key) index label = withoutKey key (index label) :=
      (happly label).trans (if_pos hl)
    rw [hat]
    cases hi : index label with
    | none =>
        refine ⟨fun _ k hc => (h label).1 hi k hc.1, fun keys hk => ?_⟩
        cases hk
    | some keys =>
        obtain ⟨-, hmem⟩ := (h label).2 keys hi
        have hrest : ∀ k, k ∈ keys.filter (· ≠ key) ↔ carries k label ∧ k ≠ key := by
          intro k
          rw [List.mem_filter, hmem, decide_eq_true_iff]
        rw [withoutKey]
        split
        · next hempty =>
            refine ⟨fun _ k hc => ?_, fun keys' hk => ?_⟩
            · have := (hrest k).mpr hc
              rw [hempty] at this
              exact (List.not_mem_nil this).elim
            · cases hk
        · next hne =>
            refine ⟨fun hn => ?_, fun keys' hk => ?_⟩
            · cases hn
            · cases hk
              exact ⟨hne, hrest⟩
  · have hat : labels.foldl (InvertedIndex.drop key) index label = index label :=
      (happly label).trans (if_neg hl)
    rw [hat]
    refine ⟨fun hn k hc => (h label).1 hn k hc.1, fun keys hk => ?_⟩
    obtain ⟨hne, hmem⟩ := (h label).2 keys hk
    refine ⟨hne, fun k => (hmem k).trans ⟨fun hc => ⟨hc, ?_⟩, And.left⟩⟩
    rintro rfl
    exact hl (hall label hc)

end InvertedIndex
