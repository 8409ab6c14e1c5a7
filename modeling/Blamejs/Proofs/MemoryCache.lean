import Blamejs.Ref.MemoryCache
import Mathlib.Algebra.BigOperators.Group.List.Basic
import Mathlib.Algebra.GroupWithZero.Nat
import Mathlib.Data.List.Dedup

/-!
# The memory cache keeps its books

Three structures move together: the entries in recency order, the byte counter
and the tag index. `Consistent` is what ties them, and every operation is built
from two moves that keep it, taking one entry out (`remove_consistent`) and
adding one for a key that is not there (`store_consistent`). The eviction loops
only take out, from the old end, so what they leave is a suffix; that suffix
and the order of uses give the recency statement.
-/

namespace Blamejs.MemoryCache

open InvertedIndex Js Run

variable {K T V D : Type}

def Cache.keys (c : Cache K T V) : List K := c.entries.map Prod.fst

/-- The entry of `key` carries `tag`. -/
def Carries (entries : List (K × Entry T V)) (key : K) (tag : T) : Prop :=
  ∃ e, (key, e) ∈ entries ∧ tag ∈ e.tagList

/-- The whole number a size stands for. -/
def size (bytes : Double) : Nat := bytes.toInt.toNat

/-- The sum of the sizes. -/
def tally (entries : List (K × Entry T V)) : Nat := (entries.map fun x => size x.2.bytes).sum

/-- Every size is a whole number, and the counter is their sum, which a Number holds. -/
structure Tallied (c : Cache K T V) : Prop where
  whole : ∀ x ∈ c.entries, x.2.bytes = .ofInt (size x.2.bytes)
  total : c.totalBytes = .ofInt (tally c.entries)
  small : tally c.entries < 2 ^ 53

/-- One entry a key, the counter is the sum, the index is exact. -/
structure Consistent (c : Cache K T V) : Prop where
  nodup : c.keys.Nodup
  bytes : Tallied c
  index : Exact (Carries c.entries) c.tagIndex

/-- The limits of the configuration hold. -/
def Bounded (cfg : Config V) (c : Cache K T V) : Prop :=
  (∀ max, cfg.maxEntries = some max → c.entries.length ≤ max) ∧
  ∀ max, cfg.maxBytes = some max → max.val.lt c.totalBytes = false

/-! ## One entry in or out -/

theorem entry_unique {c : Cache K T V} (h : c.keys.Nodup) {key : K} {e e' : Entry T V}
    (he : (key, e) ∈ c.entries) (he' : (key, e') ∈ c.entries) : e = e' := by
  have := List.inj_on_of_nodup_map h he he' rfl
  exact (Prod.mk.inj this).2

theorem carries_append {entries : List (K × Entry T V)} {key k : K} {e : Entry T V} {tag : T} :
    Carries (entries ++ [(key, e)]) k tag ↔
      Carries entries k tag ∨ (k = key ∧ tag ∈ e.tagList) := by
  constructor
  · rintro ⟨e', he', ht⟩
    rcases List.mem_append.mp he' with hold | hnew
    · exact .inl ⟨e', hold, ht⟩
    · obtain ⟨rfl, rfl⟩ := Prod.mk.inj (List.mem_singleton.mp hnew)
      exact .inr ⟨rfl, ht⟩
  · rintro (⟨e', he', ht⟩ | ⟨rfl, ht⟩)
    · exact ⟨e', List.mem_append_left _ he', ht⟩
    · exact ⟨e, List.mem_append_right _ List.mem_cons_self, ht⟩

variable [DecidableEq K]

theorem mem_of_find {c : Cache K T V} {key : K} {e : Entry T V} (h : c.find key = some e) :
    (key, e) ∈ c.entries := by
  rw [Cache.find, Option.map_eq_some_iff] at h
  obtain ⟨⟨k, e'⟩, hfind, rfl⟩ := h
  have hkey := List.find?_some hfind
  rw [decide_eq_true_iff] at hkey
  exact hkey ▸ List.mem_of_find?_eq_some hfind

theorem not_mem_of_find {c : Cache K T V} {key : K} (h : c.find key = none) : key ∉ c.keys := by
  rw [Cache.find, Option.map_eq_none_iff, List.find?_eq_none] at h
  intro hmem
  obtain ⟨x, hx, rfl⟩ := List.mem_map.mp hmem
  exact h x hx (decide_eq_true rfl)

theorem keys_delete (c : Cache K T V) (key : K) :
    (c.delete key).keys = c.keys.filter (· ≠ key) := by
  rw [Cache.keys, Cache.delete, Cache.keys, List.filter_map]
  rfl

/-- Taking the one entry of a key out of a sum. -/
theorem sum_filter_key {entries : List (K × Entry T V)} (h : (entries.map Prod.fst).Nodup)
    {key : K} {e : Entry T V} (he : (key, e) ∈ entries) :
    tally entries = size e.bytes + tally (entries.filter fun x => x.1 ≠ key) := by
  induction entries with
  | nil => cases he
  | cons x entries ih =>
      rw [List.map_cons, List.nodup_cons] at h
      rcases List.mem_cons.mp he with rfl | hrest
      · have hself : entries.filter (fun x => decide (x.1 ≠ key)) = entries :=
          List.filter_eq_self.mpr fun y hy =>
            decide_eq_true fun heq => h.1 (List.mem_map.mpr ⟨y, hy, heq⟩)
        rw [List.filter_cons_of_neg (by simp), hself, tally, List.map_cons, List.sum_cons]
        rfl
      · have hne : x.1 ≠ key := fun heq => h.1 (List.mem_map.mpr ⟨(key, e), hrest, heq.symm⟩)
        have hrec := ih h.2 hrest
        rw [List.filter_cons_of_pos (by simpa using hne)]
        simp only [tally, List.map_cons, List.sum_cons] at hrec ⊢
        omega

omit [DecidableEq K] in
theorem tally_append (entries : List (K × Entry T V)) (key : K) (e : Entry T V) :
    tally (entries ++ [(key, e)]) = tally entries + size e.bytes := by
  rw [tally, List.map_append, List.sum_append]
  rfl

theorem carries_delete (c : Cache K T V) (key k : K) (tag : T) :
    Carries (c.delete key).entries k tag ↔ Carries c.entries k tag ∧ k ≠ key := by
  constructor
  · rintro ⟨e, he, ht⟩
    obtain ⟨hmem, hne⟩ := List.mem_filter.mp he
    exact ⟨⟨e, hmem, ht⟩, of_decide_eq_true hne⟩
  · rintro ⟨⟨e, he, ht⟩, hne⟩
    exact ⟨e, List.mem_filter.mpr ⟨he, decide_eq_true hne⟩, ht⟩

/-- Moving an entry to the young end, with its bytes and tags as they were. -/
theorem touch_consistent {c : Cache K T V} (hc : Consistent c) {key : K} {e e' : Entry T V}
    (he : (key, e) ∈ c.entries) (hbytes : e'.bytes = e.bytes) (htags : e'.tagList = e.tagList) :
    Consistent ((c.delete key).append key e') where
  nodup := by
    show (List.map Prod.fst ((c.delete key).entries ++ [(key, e')])).Nodup
    rw [List.map_append]
    refine List.nodup_append.mpr ⟨?_, List.nodup_singleton _, fun a ha b hb heq => ?_⟩
    · show (c.delete key).keys.Nodup
      rw [keys_delete]
      exact hc.nodup.filter _
    · have ha : a ∈ (c.delete key).keys := ha
      rw [keys_delete] at ha
      exact of_decide_eq_true (List.mem_filter.mp ha).2 (heq.trans (List.mem_singleton.mp hb))
  bytes := by
    have htally : tally ((c.delete key).append key e').entries = tally c.entries := by
      rw [sum_filter_key hc.nodup he, Nat.add_comm, ← hbytes]
      exact tally_append _ key e'
    refine ⟨fun x hx => ?_, htally ▸ hc.bytes.total, htally ▸ hc.bytes.small⟩
    rcases List.mem_append.mp hx with hold | hnew
    · exact hc.bytes.whole x (List.mem_filter.mp hold).1
    · rw [List.mem_singleton.mp hnew, hbytes]
      exact hc.bytes.whole (key, e) he
  index := by
    refine hc.index.congr fun k tag => ?_
    show Carries ((c.delete key).entries ++ [(key, e')]) k tag ↔ _
    rw [carries_append, carries_delete, htags]
    constructor
    · rintro (⟨hc', -⟩ | ⟨rfl, ht⟩)
      · exact hc'
      · exact ⟨e, he, ht⟩
    · rintro ⟨e'', he'', ht⟩
      by_cases hk : k = key
      · subst hk
        exact .inr ⟨rfl, entry_unique hc.nodup he he'' ▸ ht⟩
      · exact .inl ⟨⟨e'', he'', ht⟩, hk⟩

variable [DecidableEq T]

/-- Taking an entry out takes its size off the counter. -/
theorem remove_tallied {c : Cache K T V} (hc : Consistent c) {key : K} {e : Entry T V}
    (he : (key, e) ∈ c.entries) : Tallied (c.remove key e) := by
  have hsum := sum_filter_key hc.nodup he
  have hle : size e.bytes ≤ tally c.entries := by omega
  have htally : tally (c.remove key e).entries = tally c.entries - size e.bytes := by
    rw [hsum, Nat.add_sub_cancel_left]
    rfl
  refine ⟨fun x hx => hc.bytes.whole x (List.mem_filter.mp hx).1, ?_, ?_⟩
  · show bytesLess c.totalBytes e.bytes = _
    rw [bytesLess, hc.bytes.total, hc.bytes.whole _ he, Double.orZero_ofInt,
      Double.sub_ofInt hc.bytes.small hle, htally, if_neg]
    rw [Double.not_lt_zero]
    exact Bool.false_ne_true
  · rw [htally]
    exact Nat.lt_of_le_of_lt (Nat.sub_le _ _) hc.bytes.small

theorem remove_consistent {c : Cache K T V} (hc : Consistent c) {key : K} {e : Entry T V}
    (he : (key, e) ∈ c.entries) : Consistent (c.remove key e) where
  nodup := by
    show (c.delete key).keys.Nodup
    rw [keys_delete]
    exact hc.nodup.filter _
  bytes := remove_tallied hc he
  index := by
    refine (hc.index.drop key e.tagList ?_).congr (carries_delete c key)
    rintro tag ⟨e', he', ht⟩
    exact entry_unique hc.nodup he he' ▸ ht

theorem keys_remove (c : Cache K T V) (key : K) (e : Entry T V) :
    (c.remove key e).keys = c.keys.filter (· ≠ key) := keys_delete _ _

theorem remove_bounded {cfg : Config V} {c : Cache K T V} (hc : Consistent c)
    (hb : Bounded cfg c) {key : K} {e : Entry T V} (he : (key, e) ∈ c.entries) :
    Bounded cfg (c.remove key e) := by
  refine ⟨fun max hmax => Nat.le_trans (List.length_filter_le _ c.entries) (hb.1 max hmax),
    fun max hmax => ?_⟩
  have hle : tally (c.remove key e).entries ≤ tally c.entries := by
    rw [sum_filter_key hc.nodup he]
    exact Nat.le_add_left _ _
  have hbound := hb.2 max hmax
  rw [hc.bytes.total] at hbound
  rw [(remove_tallied hc he).total]
  exact Double.lt_ofInt_mono hle hbound

/-- A new entry with its bytes counted and its tags indexed. -/
def Cache.store (c : Cache K T V) (key : K) (e : Entry T V) : Cache K T V :=
  { c.append key e with
    totalBytes := c.totalBytes.add e.bytes
    tagIndex := e.tagList.foldl (add key) c.tagIndex }

/-- A size that is a whole number and that the counter still holds beside the others. -/
def fits (c : Cache K T V) (bytes : Double) : Bool :=
  bytes = .ofInt (size bytes) ∧ tally c.entries + size bytes < 2 ^ 53

theorem store_consistent {c : Cache K T V} (hc : Consistent c) {key : K} (hkey : key ∉ c.keys)
    {e : Entry T V} (hfits : fits c e.bytes = true) : Consistent (c.store key e) where
  nodup := by
    show (List.map Prod.fst (c.entries ++ [(key, e)])).Nodup
    rw [List.map_append]
    refine List.nodup_append.mpr ⟨hc.nodup, List.nodup_singleton _, fun a ha b hb heq => ?_⟩
    rw [heq, List.mem_singleton.mp hb] at ha
    exact hkey ha
  bytes := by
    obtain ⟨hwhole, hsmall⟩ := of_decide_eq_true hfits
    have htally : tally (c.store key e).entries = tally c.entries + size e.bytes :=
      tally_append _ key e
    refine ⟨fun x hx => ?_, ?_, htally ▸ hsmall⟩
    · rcases List.mem_append.mp hx with hold | hnew
      · exact hc.bytes.whole x hold
      · rw [List.mem_singleton.mp hnew]
        exact hwhole
    · show c.totalBytes.add e.bytes = _
      rw [htally, ← Double.add_ofInt hsmall, ← hc.bytes.total, ← hwhole]
  index := (hc.index.add key e.tagList).congr fun _ _ => carries_append

/-! ## The eviction loops -/

theorem evictOldest_cons {c : Cache K T V} (hc : Consistent c) {x : K × Entry T V}
    {rest : List (K × Entry T V)} (h : c.entries = x :: rest) :
    c.evictOldest.entries = rest ∧ Consistent c.evictOldest := by
  obtain ⟨oldest, e⟩ := x
  have hev : c.evictOldest = c.remove oldest e := by
    unfold Cache.evictOldest
    rw [h]
  have hnodup := hc.nodup
  rw [Cache.keys, h, List.map_cons, List.nodup_cons] at hnodup
  rw [hev]
  refine ⟨?_, remove_consistent hc (h ▸ List.mem_cons_self)⟩
  show c.entries.filter (fun x => decide (x.1 ≠ oldest)) = rest
  rw [h, List.filter_cons_of_neg (by simp)]
  exact List.filter_eq_self.mpr fun y hy =>
    decide_eq_true fun heq => hnodup.1 (List.mem_map.mpr ⟨y, hy, heq⟩)

/-- An eviction loop leaves a suffix in which its condition no longer holds. -/
theorem evictWhile_spec {full : Cache K T V → Bool} (hfull : ∀ c, c.entries = [] → full c = false)
    (n : Nat) {c : Cache K T V} (hc : Consistent c) (hn : c.entries.length ≤ n) :
    Consistent (evictWhile full n c) ∧ full (evictWhile full n c) = false ∧
      ∃ gone, c.entries = gone ++ (evictWhile full n c).entries := by
  induction n generalizing c with
  | zero =>
      exact ⟨hc, hfull c (List.eq_nil_of_length_eq_zero (Nat.le_zero.mp hn)), [], rfl⟩
  | succ n ih =>
      rw [evictWhile]
      by_cases h : full c = true
      · rw [if_pos h]
        cases hes : c.entries with
        | nil =>
            rw [hfull c hes] at h
            cases h
        | cons x rest =>
            obtain ⟨hrest, hcons⟩ := evictOldest_cons hc hes
            rw [hes, List.length_cons] at hn
            obtain ⟨h1, h2, gone, h3⟩ := ih hcons (by rw [hrest]; omega)
            exact ⟨h1, h2, x :: gone, by rw [List.cons_append, ← h3, hrest]⟩
      · rw [if_neg h]
        exact ⟨hc, Bool.eq_false_iff.mpr h, [], rfl⟩

theorem evictByCounts_spec (cfg : Config V) {c : Cache K T V} (hc : Consistent c) :
    Consistent (c.evictByCounts cfg) ∧ Bounded cfg (c.evictByCounts cfg) ∧
      ∃ gone, c.entries = gone ++ (c.evictByCounts cfg).entries := by
  have hempty₁ : ∀ c : Cache K T V, c.entries = [] → overEntries cfg c = false := by
    intro c h
    rw [overEntries, h]
    cases cfg.maxEntries with
    | none => rfl
    | some max => simp
  have hempty₂ : ∀ c : Cache K T V, c.entries = [] → overBytes cfg c = false := by
    intro c h
    rw [overBytes, h]
    cases cfg.maxBytes with
    | none => rfl
    | some max => simp
  obtain ⟨h1, h2, gone, h3⟩ := evictWhile_spec hempty₁ c.entries.length hc (Nat.le_refl _)
  obtain ⟨h4, h5, gone', h6⟩ := evictWhile_spec hempty₂ _ h1 (Nat.le_refl _)
  have hresult : c.evictByCounts cfg = evictWhile (overBytes cfg)
      (evictWhile (overEntries cfg) c.entries.length c).entries.length
      (evictWhile (overEntries cfg) c.entries.length c) := rfl
  rw [hresult]
  refine ⟨h4, ⟨fun max hmax => ?_, fun max hmax => ?_⟩, gone ++ gone', ?_⟩
  · have hlen := congrArg List.length h6
    rw [List.length_append] at hlen
    rw [overEntries, hmax, Option.any_some, decide_eq_false_iff_not] at h2
    omega
  · rw [overBytes, hmax, Option.any_some, decide_eq_false_iff_not, not_and_or] at h5
    rcases h5 with hle | hnil
    · exact Bool.eq_false_iff.mpr hle
    · have hnone := List.eq_nil_of_length_eq_zero (Nat.eq_zero_of_not_pos hnil)
      rw [h4.bytes.total, hnone]
      exact Double.lt_ofInt_mono (Nat.zero_le 1) max.property.2
  · rw [List.append_assoc, ← h6, ← h3]

/-! ## The order of uses -/

/-- A use moves its key to the young end. -/
theorem dedup_snoc (uses : List K) (key : K) :
    (uses ++ [key]).dedup = uses.dedup.filter (· ≠ key) ++ [key] := by
  induction uses with
  | nil => simp
  | cons k uses ih =>
      rw [List.cons_append]
      by_cases hmem : k ∈ uses
      · rw [List.dedup_cons_of_mem (List.mem_append_left _ hmem), ih, List.dedup_cons_of_mem hmem]
      · by_cases hk : k = key
        · subst hk
          rw [List.dedup_cons_of_mem (List.mem_append_right _ List.mem_cons_self), ih,
            List.dedup_cons_of_notMem hmem, List.filter_cons_of_neg (by simp)]
        · have hnot : k ∉ uses ++ [key] := by simp [hmem, hk]
          rw [List.dedup_cons_of_notMem hnot, ih, List.dedup_cons_of_notMem hmem,
            List.filter_cons_of_pos (by simpa using hk), List.cons_append]

/-- The cache's keys stand in the order of their last use. -/
def Recent (c : Cache K T V) (uses : List K) : Prop := c.keys.Sublist uses.dedup

omit [DecidableEq T] in
theorem Recent.of_sublist {c c' : Cache K T V} {uses : List K} (h : Recent c uses)
    (hsub : c'.keys.Sublist c.keys) : Recent c' uses := hsub.trans h

omit [DecidableEq T] in
theorem Recent.use {c c' : Cache K T V} {uses : List K} {key : K} (h : Recent c uses)
    (hsub : c'.keys.Sublist (c.keys.filter (· ≠ key) ++ [key])) : Recent c' (uses ++ [key]) := by
  rw [Recent, dedup_snoc]
  exact hsub.trans ((List.Sublist.filter _ h).append_right _)

/-- Entry `x` was last used before entry `y`. -/
def UsedBefore (uses : List K) (x y : K) : Prop := [x, y].Sublist uses.dedup

theorem pair_sublist_append {α : Type} {l₁ l₂ : List α} {x y : α} (hx : x ∈ l₁) (hy : y ∈ l₂) :
    [x, y].Sublist (l₁ ++ l₂) :=
  (List.singleton_sublist.mpr hx).append (List.singleton_sublist.mpr hy)

/-- A write under `key`: what it does not keep of the old entries and its own is
what was used least recently. -/
def EvictsOldest (c c' : Cache K T V) (uses : List K) (key : K) : Prop :=
  ∃ e gone, (c.delete key).entries ++ [(key, e)] = gone ++ c'.entries ∧
    ∀ x ∈ gone, ∀ y ∈ c'.entries, UsedBefore uses x.1 y.1

/-! ## The operations -/

theorem removeKey_consistent {c : Cache K T V} (hc : Consistent c) (key : K) :
    Consistent (c.removeKey key) := by
  unfold Cache.removeKey
  split
  · next e hfind => exact remove_consistent hc (mem_of_find hfind)
  · exact hc

omit [DecidableEq T] in
theorem delete_absent {c : Cache K T V} {key : K} (h : c.find key = none) :
    c.delete key = c := by
  have hself : c.entries.filter (fun x => decide (x.1 ≠ key)) = c.entries :=
    List.filter_eq_self.mpr fun x hx => decide_eq_true fun heq =>
      not_mem_of_find h (List.mem_map.mpr ⟨x, hx, heq⟩)
  rw [Cache.delete, hself]

theorem entries_removeKey (c : Cache K T V) (key : K) :
    (c.removeKey key).entries = (c.delete key).entries := by
  unfold Cache.removeKey
  split
  · rfl
  · next hfind => rw [delete_absent hfind]

theorem keys_removeKey (c : Cache K T V) (key : K) :
    (c.removeKey key).keys = c.keys.filter (· ≠ key) := by
  rw [Cache.keys, entries_removeKey]
  exact keys_delete c key

theorem removeKey_bounded {cfg : Config V} {c : Cache K T V} (hc : Consistent c)
    (hb : Bounded cfg c) (key : K) : Bounded cfg (c.removeKey key) := by
  unfold Cache.removeKey
  split
  · next e hfind => exact remove_bounded hc hb (mem_of_find hfind)
  · exact hb

/-- What an operation that only takes entries out preserves. -/
structure Shrinks (cfg : Config V) (c c' : Cache K T V) : Prop where
  consistent : Consistent c → Consistent c'
  bounded : Consistent c → Bounded cfg c → Bounded cfg c'
  keys : c'.keys.Sublist c.keys

omit [DecidableEq K] [DecidableEq T] in
theorem Shrinks.rfl {cfg : Config V} {c : Cache K T V} : Shrinks cfg c c :=
  ⟨id, fun _ => id, .refl _⟩

omit [DecidableEq K] [DecidableEq T] in
theorem Shrinks.trans {cfg : Config V} {c c' c'' : Cache K T V} (h : Shrinks cfg c c')
    (h' : Shrinks cfg c' c'') : Shrinks cfg c c'' :=
  ⟨h'.consistent ∘ h.consistent, fun hc hb => h'.bounded (h.consistent hc) (h.bounded hc hb),
    h'.keys.trans h.keys⟩

theorem remove_shrinks {cfg : Config V} {c : Cache K T V} {key : K} {e : Entry T V}
    (h : c.find key = some e) : Shrinks cfg c (c.remove key e) where
  consistent := fun hc => remove_consistent hc (mem_of_find h)
  bounded := fun hc hb => remove_bounded hc hb (mem_of_find h)
  keys := by
    rw [keys_remove]
    exact List.filter_sublist

theorem removeKey_shrinks (cfg : Config V) (c : Cache K T V) (key : K) :
    Shrinks cfg c (c.removeKey key) where
  consistent := fun hc => removeKey_consistent hc key
  bounded := fun hc hb => removeKey_bounded hc hb key
  keys := by
    rw [keys_removeKey]
    exact List.filter_sublist

omit [DecidableEq K] [DecidableEq T] in
theorem foldl_shrinks {cfg : Config V} {f : Cache K T V → K → Cache K T V}
    (hf : ∀ c k, Shrinks cfg c (f c k)) (ks : List K) (c : Cache K T V) :
    Shrinks cfg c (ks.foldl f c) := by
  induction ks generalizing c with
  | nil => exact .rfl
  | cons k ks ih => exact (hf c k).trans (ih _)

theorem sweepKey_shrinks (cfg : Config V) (now : Int) (c : Cache K T V) (key : K) :
    Shrinks cfg c (c.sweepKey now key) := by
  unfold Cache.sweepKey
  split
  · next e hfind =>
      split
      · exact remove_shrinks hfind
      · exact .rfl
  · exact .rfl

theorem del_shrinks (cfg : Config V) (c : Cache K T V) (key : K) :
    Shrinks cfg c (del c key).1 := by
  unfold del
  split
  · exact .rfl
  · next hfind => exact remove_shrinks hfind

/-- `has` answers for an entry that has not expired, or not at all. -/
theorem has_spec (cfg : Config V) (c : Cache K T V) (key : K) (now : Int) :
    Shrinks cfg c (has c key now).1 ∧ ((has c key now).2 = true →
      ∃ e, (key, e) ∈ c.entries ∧ e.isExpired now = false) := by
  unfold has
  split
  · exact ⟨.rfl, fun h => Bool.noConfusion h⟩
  · next e hfind =>
      split
      · exact ⟨remove_shrinks hfind, fun h => Bool.noConfusion h⟩
      · next hlive => exact ⟨.rfl, fun _ => ⟨e, mem_of_find hfind, Bool.eq_false_iff.mpr hlive⟩⟩

omit [DecidableEq K] [DecidableEq T] in
theorem clear_consistent (c : Cache K T V) : Consistent (clear c) where
  nodup := List.nodup_nil
  bytes := ⟨fun _ hx => (List.not_mem_nil hx).elim, Double.ofInt_zero.symm, Nat.two_pow_pos 53⟩
  index := exact_empty.congr fun _ _ =>
    ⟨fun h => h.elim fun _ h' => (List.not_mem_nil h'.1).elim, False.elim⟩

omit [DecidableEq K] [DecidableEq T] in
theorem clear_bounded (cfg : Config V) (c : Cache K T V) : Bounded cfg (clear c) := by
  refine ⟨fun _ _ => Nat.zero_le _, fun max _ => ?_⟩
  rw [(clear_consistent c).bytes.total]
  exact Double.lt_ofInt_mono (Nat.zero_le 1) max.property.2

omit [DecidableEq K] [DecidableEq T] in
theorem clear_shrinks (cfg : Config V) (c : Cache K T V) : Shrinks cfg c (clear c) where
  consistent := fun _ => clear_consistent c
  bounded := fun _ _ => clear_bounded cfg c
  keys := List.nil_sublist _

omit [DecidableEq T] in
/-- `slide` changes the expiry alone. -/
theorem slide_spec (cfg : Config V) (now : Int) (e : Entry T V) :
    (get.slide cfg now e).bytes = e.bytes ∧ (get.slide cfg now e).tagList = e.tagList := by
  unfold get.slide
  split
  · exact ⟨rfl, rfl⟩
  · exact ⟨rfl, rfl⟩

omit [DecidableEq K] [DecidableEq T] in
theorem keys_append (c : Cache K T V) (key : K) (e : Entry T V) :
    (c.append key e).keys = c.keys ++ [key] := by
  rw [Cache.keys, Cache.append, List.map_append]
  rfl

/-- `get` answers the value of an entry that has not expired, which it moves to
the young end, or only shrinks the cache. -/
theorem get_spec (cfg : Config V) (c : Cache K T V) (key : K) (now : Int) :
    ((get cfg c key now).2 = none ∧ Shrinks cfg c (get cfg c key now).1) ∨
    ∃ e, (key, e) ∈ c.entries ∧ e.isExpired now = false ∧
      (get cfg c key now).2 = some e.value ∧
      (Consistent c → Consistent (get cfg c key now).1) ∧
      (Consistent c → Bounded cfg c → Bounded cfg (get cfg c key now).1) ∧
      (get cfg c key now).1.keys = c.keys.filter (· ≠ key) ++ [key] := by
  unfold get
  split
  · exact .inl ⟨rfl, .rfl⟩
  · next e hfind =>
      split
      · exact .inl ⟨rfl, remove_shrinks hfind⟩
      · next hlive =>
          have hmem := mem_of_find hfind
          obtain ⟨hbytes, htags⟩ := slide_spec cfg now e
          refine .inr ⟨e, hmem, Bool.eq_false_iff.mpr hlive, rfl,
            fun hc => touch_consistent hc hmem hbytes htags, fun _ hb => ⟨fun max hmax => ?_, hb.2⟩,
            by rw [keys_append, keys_delete]⟩
          have hlen : (c.entries.filter fun x : K × Entry T V => decide (x.1 ≠ key)).length <
              c.entries.length :=
            List.length_filter_lt_length_iff_exists.mpr ⟨(key, e), hmem, by simp⟩
          have hmax' := hb.1 max hmax
          show (c.entries.filter (fun x : K × Entry T V => decide (x.1 ≠ key)) ++ [_]).length ≤ max
          rw [List.length_append, List.length_singleton]
          omega

/-- What a `set` asks of `sizeOf`: a whole number the counter holds. -/
def setFits (cfg : Config V) (c : Cache K T V) (key : K) (value : V) : Bool :=
  (cfg.sizeOf value).all fun bytes => fits (c.removeKey key) bytes.orZero

/-- `set` removes the old entry and throws, or stores the new one and evicts from
the old end until the limits hold. -/
theorem set_spec (cfg : Config V) {c : Cache K T V} (hc : Consistent c) (key : K) (value : V)
    (expiresAt : Millis) (info : Meta T) (hfits : setFits cfg c key value = true) :
    ((set cfg c key value expiresAt info).2 = false ∧
      Shrinks cfg c (set cfg c key value expiresAt info).1) ∨
    ((set cfg c key value expiresAt info).2 = true ∧
      Consistent (set cfg c key value expiresAt info).1 ∧
      Bounded cfg (set cfg c key value expiresAt info).1 ∧
      ∃ e gone, (c.delete key).entries ++ [(key, e)] =
        gone ++ (set cfg c key value expiresAt info).1.entries) := by
  have hkey : key ∉ (c.removeKey key).keys := by
    rw [keys_removeKey]
    simp
  cases hbytes : cfg.sizeOf value with
  | none =>
      have hset : set cfg c key value expiresAt info = (c.removeKey key, false) := by
        simp only [set, hbytes]
        rfl
      rw [hset]
      exact .inl ⟨rfl, removeKey_shrinks cfg c key⟩
  | some bytes =>
      have hset : set cfg c key value expiresAt info = (((c.removeKey key).store key
          (newEntry value expiresAt info bytes.orZero)).evictByCounts cfg, true) := by
        simp only [set, hbytes]
        rfl
      rw [hset]
      rw [setFits, hbytes, Option.all_some] at hfits
      obtain ⟨h1, h2, gone, h3⟩ := evictByCounts_spec cfg
        (store_consistent (e := newEntry value expiresAt info bytes.orZero)
          (removeKey_consistent hc key) hkey hfits)
      exact .inr ⟨rfl, h1, h2, newEntry value expiresAt info bytes.orZero, gone,
        entries_removeKey c key ▸ h3⟩

/-! ## Whole runs -/

structure Sound (cfg : Config V) (s : St K T V) : Prop where
  consistent : Consistent s.cache
  bounded : Bounded cfg s.cache
  recent : Recent s.cache s.uses

omit [DecidableEq T] in
theorem Sound.shrink {cfg : Config V} {s : St K T V} {c : Cache K T V} (hs : Sound cfg s)
    (h : Shrinks cfg s.cache c) : Sound cfg ⟨c, s.uses⟩ :=
  ⟨h.consistent hs.consistent, h.bounded hs.consistent hs.bounded, hs.recent.of_sublist h.keys⟩

/-- `set` in a sound state: sound again, and what a stored value pushed out was
used before everything that stayed. -/
theorem set_sound {cfg : Config V} {s : St K T V} (hs : Sound cfg s) (key : K) (value : V)
    (expiresAt : Millis) (info : Meta T) (hfits : setFits cfg s.cache key value = true) :
    Sound cfg (s.used (set cfg s.cache key value expiresAt info).1 key
      (set cfg s.cache key value expiresAt info).2) ∧
    ((set cfg s.cache key value expiresAt info).2 = true →
      EvictsOldest s.cache (set cfg s.cache key value expiresAt info).1 (s.uses ++ [key]) key) := by
  rcases set_spec cfg hs.consistent key value expiresAt info hfits with
    ⟨hthrew, hshrinks⟩ | ⟨hstored, hcons, hbounded, e, gone, hentries⟩
  · rw [hthrew]
    exact ⟨hs.shrink hshrinks, fun h => Bool.noConfusion h⟩
  · have hkeys : s.cache.keys.filter (· ≠ key) ++ [key] =
        gone.map Prod.fst ++ (set cfg s.cache key value expiresAt info).1.keys := by
      rw [← keys_delete]
      have hmap := congrArg (List.map Prod.fst) hentries
      rw [List.map_append, List.map_append] at hmap
      exact hmap
    have hall : (gone.map Prod.fst ++ (set cfg s.cache key value expiresAt info).1.keys).Sublist
        (s.uses ++ [key]).dedup := by
      rw [← hkeys, dedup_snoc]
      exact (List.Sublist.filter _ hs.recent).append_right _
    rw [hstored]
    refine ⟨⟨hcons, hbounded, (List.sublist_append_right _ _).trans hall⟩, fun _ => ?_⟩
    refine ⟨e, gone, hentries, fun x hx y hy => ?_⟩
    exact (pair_sublist_append (List.mem_map_of_mem hx) (List.mem_map_of_mem hy)).trans hall

/-- A write that was carried out pushed out the least recently used. -/
def WriteEvicts (cfg : Config V) (s : St K T V) (s' : St K T V) : Action K T V D → Prop
  | .set key value expiresAt info =>
      (set cfg s.cache key value expiresAt info).2 = true →
        EvictsOldest s.cache s'.cache s'.uses key
  | .update key mutatorFn now expiresAt info =>
      (update cfg s.cache key mutatorFn now expiresAt info).2.stored = true →
        EvictsOldest s.cache s'.cache s'.uses key
  | _ => True

/-- A write's size is a whole number, and the sum of the sizes stays below `2 ^ 53`. -/
def tallies (cfg : Config V) (s : St K T V) : Action K T V D → Bool
  | .set key value _ _ => setFits cfg s.cache key value
  | .update key mutatorFn now _ _ =>
      match mutatorFn (s.cache.current key now) with
      | some (.commit value _ _) => setFits cfg s.cache key value
      | _ => true
  | _ => true

theorem update_sound {cfg : Config V} {s : St K T V} (hs : Sound cfg s) (key : K)
    (mutatorFn : Option V → Option (Decision V D)) (now : Int) (expiresAt : Millis)
    (info : Meta T) (hfits : tallies cfg s (.update key mutatorFn now expiresAt info) = true) :
    Sound cfg (s.used (update cfg s.cache key mutatorFn now expiresAt info).1 key
      (update cfg s.cache key mutatorFn now expiresAt info).2.stored) ∧
    ((update cfg s.cache key mutatorFn now expiresAt info).2.stored = true →
      EvictsOldest s.cache (update cfg s.cache key mutatorFn now expiresAt info).1
        (s.uses ++ [key]) key) := by
  unfold update
  rw [tallies] at hfits
  cases hdec : mutatorFn (s.cache.current key now) with
  | none => exact ⟨hs.shrink .rfl, fun h => Bool.noConfusion h⟩
  | some decision =>
      cases decision with
      | abort data => exact ⟨hs.shrink .rfl, fun h => Bool.noConfusion h⟩
      | delete =>
          cases hfind : s.cache.find key with
          | none => exact ⟨hs.shrink .rfl, fun h => Bool.noConfusion h⟩
          | some entry => exact ⟨hs.shrink (remove_shrinks hfind), fun h => Bool.noConfusion h⟩
      | commit value ttl exp =>
          obtain ⟨hsound, hevicts⟩ :=
            set_sound hs key value (effExpires now ttl exp expiresAt) info (by rwa [hdec] at hfits)
          cases hret : (set cfg s.cache key value (effExpires now ttl exp expiresAt) info).2 with
          | false =>
              rw [hret] at hsound
              simp only [hret]
              exact ⟨hsound, fun h => Bool.noConfusion h⟩
          | true =>
              rw [hret] at hsound
              simp only [hret]
              exact ⟨hsound, fun _ => hevicts hret⟩

theorem step_sound {cfg : Config V} {s s' : St K T V} {a : Action K T V D} (hs : Sound cfg s)
    (hfits : tallies cfg s a = true) (h : step cfg s a = some s') :
    Sound cfg s' ∧ WriteEvicts cfg s s' a := by
  cases a with
  | set key value expiresAt info =>
      injection h with h
      obtain ⟨hsound, hevicts⟩ := set_sound hs key value expiresAt info hfits
      refine ⟨h ▸ hsound, fun hret => ?_⟩
      have huses : s'.uses = s.uses ++ [key] := by
        rw [← h, St.used, if_pos hret]
      rw [huses, ← h]
      exact hevicts hret
  | update key mutatorFn now expiresAt info =>
      injection h with h
      obtain ⟨hsound, hevicts⟩ := update_sound hs key mutatorFn now expiresAt info hfits
      refine ⟨h ▸ hsound, fun hret => ?_⟩
      have huses : s'.uses = s.uses ++ [key] := by
        rw [← h, St.used, if_pos hret]
      rw [huses, ← h]
      exact hevicts hret
  | get key now =>
      injection h with h
      refine ⟨h ▸ ?_, trivial⟩
      rcases get_spec cfg s.cache key now with
        ⟨hnone, hshrinks⟩ | ⟨e, -, -, hsome, hcons, hbounded, hkeys⟩
      · rw [hnone]
        exact hs.shrink hshrinks
      · rw [hsome]
        exact ⟨hcons hs.consistent, hbounded hs.consistent hs.bounded,
          hs.recent.use (hkeys ▸ .refl _)⟩
  | del key =>
      injection h with h
      exact ⟨h ▸ hs.shrink (del_shrinks cfg s.cache key), trivial⟩
  | has key now =>
      injection h with h
      exact ⟨h ▸ hs.shrink (has_spec cfg s.cache key now).1, trivial⟩
  | invalidateTag tag =>
      injection h with h
      exact ⟨h ▸ hs.shrink (foldl_shrinks (removeKey_shrinks cfg) _ _), trivial⟩
  | clear =>
      injection h with h
      exact ⟨h ▸ hs.shrink (clear_shrinks cfg s.cache), trivial⟩
  | sweep now =>
      injection h with h
      exact ⟨h ▸ hs.shrink (foldl_shrinks (sweepKey_shrinks cfg now) _ _), trivial⟩

omit [DecidableEq T] in
theorem init_sound (cfg : Config V) : Sound cfg (St.init : St K T V) where
  consistent := clear_consistent .empty
  bounded := clear_bounded cfg .empty
  recent := List.nil_sublist _

omit [DecidableEq K] [DecidableEq T] in
/-- The counter's value is the exact sum of the values of the sizes. -/
theorem Tallied.sum {c : Cache K T V} (h : Tallied c) :
    c.totalBytes.value = (c.entries.map fun x => x.2.bytes.value).sum := by
  have hall : ∀ entries : List (K × Entry T V),
      (∀ x ∈ entries, x.2.bytes = .ofInt (size x.2.bytes)) → tally entries < 2 ^ 53 →
      (entries.map fun x => x.2.bytes.value).sum = (tally entries : Rat) := by
    intro entries
    induction entries with
    | nil => exact fun _ _ => rfl
    | cons x entries ih =>
        intro hwhole hsmall
        have htally : tally (x :: entries) = size x.2.bytes + tally entries := rfl
        rw [htally] at hsmall ⊢
        have hhead : x.2.bytes.value = size x.2.bytes :=
          (congrArg Double.value (hwhole x List.mem_cons_self)).trans
            (Double.value_ofInt (Nat.lt_of_le_of_lt (Nat.le_add_right _ _) hsmall))
        rw [List.map_cons, List.sum_cons, hhead,
          ih (fun y hy => hwhole y (List.mem_cons_of_mem _ hy)) (by omega), Nat.cast_add]
  rw [hall c.entries h.whole h.small, h.total, Double.value_ofInt h.small]

/-- Two entries at most, ten bytes at most. -/
def smallCache : Config Nat :=
  ⟨some 2, some ⟨.ofInt (10 : Nat), by decide +kernel⟩, fun n => some (.ofInt n), true⟩

/-- The third write pushes out the key read least recently; the last is too big
for the cache and takes everything with it. -/
def smallRun : List (Action Nat Nat Nat Unit) :=
  [.set 1 3 none ⟨none, some [7, 7]⟩, .set 2 4 (some 50) ⟨some (some 50), some [7]⟩, .get 1 5,
    .set 3 2 none ⟨none, none⟩, .has 2 6, .update 1 (fun _ => some (.commit 11 none none)) 7 none
      ⟨none, none⟩]

/-- No limits, and a size that is the value itself. -/
def ownSize : Config Double := ⟨none, none, some, false⟩

/-- `0.1`, `0.2` and `0.3` are stored, and the first is deleted. -/
def tenthsRun : List (Action Nat Nat Double Unit) :=
  [.set 1 (.ofRatio false 1 10) none ⟨none, none⟩, .set 2 (.ofRatio false 2 10) none ⟨none, none⟩,
    .set 3 (.ofRatio false 3 10) none ⟨none, none⟩, .del 1]

end Blamejs.MemoryCache
