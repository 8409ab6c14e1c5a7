import Blamejs.Proofs.OrSet

/-!
# Keys and values of a map

`vals` never owns a name of `Object.prototype`: `set` under such a name throws before it writes,
and the other methods write under the names a map owns already (`Made.sound`). So `_reg` works
for a key exactly when it is no such name, and one live key with such a name is enough to make
`value` throw. `setWorks_iff` draws the line: `set` and `remove` do what they are for exactly
when neither the key nor a live key of the map is a name of `Object.prototype`.
-/

namespace Blamejs.OrMap

open Js

variable {V : Type} {null : V} {m : Replica V} {k key : JsString}

/-! ## The objects -/

theorem lookup_put {α : Type} (x : α) (l : List (JsString × α)) :
    (put key x l).lookup k = if k = key then some x else l.lookup k := by
  induction l with
  | nil =>
      rw [put, List.lookup_cons]
      by_cases h : k = key
      · rw [if_pos h, beq_iff_eq.mpr h]
      · rw [if_neg h, beq_eq_false_iff_ne.mpr h]
  | cons p rest ih =>
      obtain ⟨k₁, y⟩ := p
      rw [put]
      split
      · next heq =>
          subst heq
          rw [List.lookup_cons, List.lookup_cons]
          by_cases h : k = k₁
          · rw [if_pos h, beq_iff_eq.mpr h]
          · rw [if_neg h, beq_eq_false_iff_ne.mpr h]
      · next hne =>
          rw [List.lookup_cons, List.lookup_cons]
          by_cases h : k = k₁
          · rw [if_neg (h ▸ hne), beq_iff_eq.mpr h]
          · rw [beq_eq_false_iff_ne.mpr h]
            exact ih

theorem lookup_of_lookup_filter {α : Type} {l : List (JsString × α)} {x : α}
    (h : (l.filter (·.1 ≠ key)).lookup k = some x) : (∃ y, l.lookup k = some y) ∧ k ≠ key := by
  obtain ⟨before, after, heq, -⟩ := List.lookup_eq_some_iff.mp h
  have hmem : (k, x) ∈ l.filter (·.1 ≠ key) :=
    heq ▸ List.mem_append_right _ List.mem_cons_self
  obtain ⟨hmem, hne⟩ := List.mem_filter.mp hmem
  refine ⟨?_, of_decide_eq_true hne⟩
  cases hlookup : l.lookup k with
  | some y => exact ⟨y, rfl⟩
  | none =>
      exact absurd rfl (bne_iff_ne.mp (List.lookup_eq_none_iff.mp hlookup (k, x) hmem))

/-! ## What every map keeps -/

/-- The keys are those of strings, and `vals` owns no name of `Object.prototype`. -/
structure Sound (m : Replica V) : Prop where
  retention : m.keys.tombstoneRetention = none
  strings : ∀ k ∈ m.keys.elems.map Prod.fst, ∃ text, k = elemKey text
  plain : ∀ k r, m.vals.lookup k = some r → k ∉ inheritedNames

theorem mem_keys_alter {f : List JsString → List JsString} {elems : OrSet.Elems}
    (h : k ∈ (OrSet.alter key f elems).map Prod.fst) : k = key ∨ k ∈ elems.map Prod.fst := by
  induction elems with
  | nil => exact .inl (List.mem_singleton.mp h)
  | cons p rest ih =>
      obtain ⟨k₁, tags⟩ := p
      rw [OrSet.alter] at h
      split at h
      · exact .inr h
      · rcases List.mem_cons.mp h with h | h
        · exact .inr (List.mem_cons.mpr (.inl h))
        · exact (ih h).imp_right (List.mem_cons_of_mem _)

theorem mem_keys_merge {s : OrSet.Replica} {o : OrSet.State}
    (h : k ∈ (OrSet.merge s o).elems.map Prod.fst) :
    k ∈ s.elems.map Prod.fst ∨ k ∈ o.elems.map Prod.fst := by
  have hfold : ∀ (keys : List JsString) (elems : OrSet.Elems),
      k ∈ (keys.foldl (fun e key => OrSet.alter key
        (fun tags => (tags ++ OrSet.tagsOf o.elems key).eraseDups) e) elems).map Prod.fst →
      k ∈ elems.map Prod.fst ∨ k ∈ keys := by
    intro keys
    induction keys with
    | nil => exact fun elems h => .inl h
    | cons key keys ih =>
        intro elems h
        rcases ih _ h with h | h
        · rcases mem_keys_alter h with rfl | h
          · exact .inr List.mem_cons_self
          · exact .inl h
        · exact .inr (List.mem_cons_of_mem _ h)
  exact hfold _ _ h

theorem Sound.mergeVals {vals other vals' : List (JsString × Reg V)}
    (hplain : ∀ k r, vals.lookup k = some r → k ∉ inheritedNames)
    (h : mergeVals vals other = .ok vals') :
    ∀ k r, vals'.lookup k = some r → k ∉ inheritedNames := by
  induction other generalizing vals with
  | nil =>
      cases h
      exact hplain
  | cons p other ih =>
      have hput : ∀ x, p.1 ∉ inheritedNames →
          ∀ k r, (put p.1 x vals).lookup k = some r → k ∉ inheritedNames := by
        intro x hp k r hr
        rw [lookup_put] at hr
        split at hr
        · next heq => exact heq ▸ hp
        · exact hplain k r hr
      rw [OrMap.mergeVals, List.foldlM_cons] at h
      cases hlookup : vals.lookup p.1 with
      | some current =>
          rw [hlookup] at h
          exact ih (hput _ (hplain _ _ hlookup)) h
      | none =>
          rw [hlookup] at h
          dsimp only at h
          split at h
          · cases h
          · next hp => exact ih (hput _ hp) h

theorem reg_of_plain (h : k ∉ inheritedNames) :
    reg null m k = .ok ((m.vals.lookup k).getD ⟨null, -1, []⟩) := by
  rw [reg]
  cases m.vals.lookup k with
  | some r => rfl
  | none => exact if_neg h

theorem reg_of_inherited (hnone : m.vals.lookup k = none) (hk : k ∈ inheritedNames) :
    reg null m k = .error (inheritedError k) := by
  rw [reg, hnone]
  exact if_pos hk

theorem Sound.reg_ok_iff (h : Sound m) :
    (∃ r, reg null m k = .ok r) ↔ k ∉ inheritedNames := by
  refine ⟨fun ⟨r, hr⟩ hk => ?_, fun hk => ⟨_, reg_of_plain hk⟩⟩
  have hnone : m.vals.lookup k = none := by
    by_contra hsome
    obtain ⟨r', hr'⟩ := Option.ne_none_iff_exists'.mp hsome
    exact h.plain k r' hr' hk
  rw [reg_of_inherited hnone hk] at hr
  cases hr

theorem Sound.add {token : JsString} (h : Sound m) :
    Sound { m with keys := OrSet.add Empty.elim m.keys (keyOf key) token } where
  retention := h.retention
  strings k hk := by
    rcases mem_keys_alter hk with rfl | hk
    · exact ⟨key, rfl⟩
    · exact h.strings k hk
  plain := h.plain

theorem map_ok {α β ε : Type} {f : α → β} {e : Except ε α} {b : β} (h : e.map f = .ok b) :
    ∃ a, e = .ok a ∧ f a = b := by
  cases e with
  | error e => cases h
  | ok a => exact ⟨a, rfl, Except.ok.inj h⟩

theorem Made.sound (h : Made null m) : Sound m := by
  induction h with
  | empty replicaId => exact ⟨rfl, fun k hk => (nomatch hk), fun k r hr => (nomatch hr)⟩
  | @set m key v ts token _ ih =>
      have hadd : Sound { m with
          keys := OrSet.add Empty.elim m.keys (keyOf key.text) token } := ih.add
      rw [OrMap.set]
      dsimp only
      split
      · exact hadd
      · next r hr =>
          refine { hadd with plain := fun k r' hr' => ?_ }
          dsimp only at hr'
          rw [lookup_put] at hr'
          split at hr'
          · next heq => exact heq ▸ hadd.reg_ok_iff.mp ⟨r, hr⟩
          · exact hadd.plain k r' hr'
  | remove key _ ih =>
      have hkept : ∀ s : OrSet.Replica, (OrSet.gcTombstones s).elems = s.elems := by
        intro s
        rw [OrSet.gcTombstones]
        split
        · rfl
        · split <;> rfl
      refine ⟨OrSet.retention_remove ih.retention, fun k hk => ?_, fun k r hr => ?_⟩
      · rw [OrMap.remove, OrSet.remove, hkept] at hk
        exact ih.strings k hk
      · obtain ⟨⟨r', hr'⟩, -⟩ := lookup_of_lookup_filter hr
        exact ih.plain k r' hr'
  | merge _ _ hmerge ihm iho =>
      obtain ⟨vals, hvals, heq⟩ := map_ok hmerge
      subst heq
      refine ⟨rfl, fun k hk => ?_, Sound.mergeVals ihm.plain hvals⟩
      exact (mem_keys_merge hk).elim (ihm.strings k) (iho.strings k)
  | restore replicaId _ ih => exact ⟨rfl, ih.strings, ih.plain⟩

/-! ## Live keys -/

theorem elemKey_injective : Function.Injective elemKey := by
  intro a b h
  have hkeys : unit 's' :: unit ':' :: a = unit 's' :: unit ':' :: b := h
  exact (List.cons.inj (List.cons.inj hkeys).2).2

/-- A key with a live tag. -/
def Live (m : Replica V) (k : JsString) : Prop := ∃ t, t ∈ OrSet.liveTags m.keys (elemKey k)

theorem has_iff {key : Key} : has m key = true ↔ Live m key.text := OrSet.isLive_iff

theorem Sound.mem_liveKeys (h : Sound m) : k ∈ liveKeys m ↔ Live m k := by
  have hjson : OrSet.RoundTrips (Empty.elim : Empty → JsString) (fun _ => none) :=
    fun x => x.elim
  obtain ⟨xs, hxs, hmem⟩ := OrSet.mem_value fun k' t ht => by
    obtain ⟨text, heq⟩ := h.strings k' (OrSet.mem_keys_of_tag (OrSet.mem_liveTags.mp ht).1)
    exact ⟨keyOf text, heq, hjson.readsBack _⟩
  have hlive : liveKeys m = xs.map textOf := by rw [liveKeys, hxs, Option.getD_some]
  rw [hlive, List.mem_map]
  constructor
  · rintro ⟨x, hx, rfl⟩
    cases x with
    | str s => exact ((hmem _).mp hx).2
    | json x => exact x.elim
  · exact fun hk => ⟨keyOf k, (hmem _).mpr ⟨hjson.readsBack _, hk⟩, rfl⟩

/-- What `value()` shows under a key. -/
theorem lookup_foldlM {keys : List JsString} (hkeys : ∀ k ∈ keys, ∃ r, reg null m k = .ok r)
    (out : List (JsString × V)) :
    ∃ out', keys.foldlM (fun out key => (reg null m key).map fun r => put key r.value out) out =
        .ok out' ∧
      ∀ k, out'.lookup k =
        if k ∈ keys then (reg null m k).toOption.map Reg.value else out.lookup k := by
  induction keys generalizing out with
  | nil => exact ⟨out, rfl, fun k => (if_neg List.not_mem_nil).symm⟩
  | cons key keys ih =>
      obtain ⟨r, hr⟩ := hkeys key List.mem_cons_self
      obtain ⟨out', hout', hlookup⟩ :=
        ih (fun k hk => hkeys k (List.mem_cons_of_mem _ hk)) (put key r.value out)
      refine ⟨out', ?_, fun k => ?_⟩
      · rw [List.foldlM_cons, hr]
        exact hout'
      · rw [hlookup, lookup_put]
        by_cases hk : k ∈ keys
        · rw [if_pos hk, if_pos (List.mem_cons_of_mem _ hk)]
        · rw [if_neg hk]
          by_cases heq : k = key
          · subst heq
            rw [if_pos rfl, if_pos List.mem_cons_self, hr]
            rfl
          · rw [if_neg heq, if_neg fun hmem => (List.mem_cons.mp hmem).elim heq hk]

theorem reg_ok_of_foldlM {keys : List JsString} {out out' : List (JsString × V)}
    (h : keys.foldlM (fun out key => (reg null m key).map fun r => put key r.value out) out =
      .ok out') :
    ∀ k ∈ keys, ∃ r, reg null m k = .ok r := by
  induction keys generalizing out with
  | nil => exact fun k hk => (nomatch hk)
  | cons key keys ih =>
      rw [List.foldlM_cons] at h
      intro k hk
      cases hr : reg null m key with
      | error e =>
          rw [hr] at h
          cases h
      | ok r =>
          rw [hr] at h
          rcases List.mem_cons.mp hk with rfl | hk
          · exact ⟨r, hr⟩
          · exact ih h k hk

/-- No live key is a name of `Object.prototype`. -/
def Clear (m : Replica V) : Prop := ∀ k ∈ liveKeys m, k ∉ inheritedNames

theorem Sound.value_ok (null : V) (h : Sound m) (hclear : Clear m) :
    ∃ out, value null m = .ok out ∧ ∀ k, out.lookup k =
      if k ∈ liveKeys m then some ((m.vals.lookup k).getD ⟨null, -1, []⟩).value else none := by
  obtain ⟨out, hout, hlookup⟩ :=
    lookup_foldlM (fun k hk => h.reg_ok_iff.mpr (hclear k hk)) ([] : List (JsString × V))
  refine ⟨out, hout, fun k => (hlookup k).trans ?_⟩
  by_cases hk : k ∈ liveKeys m
  · rw [if_pos hk, if_pos hk, reg_of_plain (hclear k hk)]
    rfl
  · rw [if_neg hk, if_neg hk]
    rfl

theorem Sound.clear_of_value {out : List (JsString × V)} (h : Sound m)
    (hout : value null m = .ok out) : Clear m := fun k hk =>
  h.reg_ok_iff.mp (reg_ok_of_foldlM hout k hk)

/-! ## One `set` and one `remove` -/

theorem live_add_self {token : JsString} (hfresh : OrSet.tag m.keys token ∉ m.keys.tombstones) :
    ∃ t, t ∈ OrSet.liveTags (OrSet.add Empty.elim m.keys (keyOf key) token) (elemKey key) := by
  refine ⟨OrSet.tag m.keys token, OrSet.mem_liveTags.mpr ⟨?_, hfresh⟩⟩
  rw [OrSet.add, OrSet.tagsOf_alter]
  exact (if_pos rfl : ite (elemKey key = elemKey key) _ _ = _) ▸
    List.mem_append_right _ (List.mem_singleton_self _)

theorem liveTags_add {token : JsString} (hne : k ≠ key) :
    OrSet.liveTags (OrSet.add Empty.elim m.keys (keyOf key) token) (elemKey k) =
      OrSet.liveTags m.keys (elemKey k) := by
  have hkeys : elemKey k ≠ OrSet.key Empty.elim (keyOf key) := fun heq =>
    hne (elemKey_injective heq)
  rw [OrSet.liveTags, OrSet.liveTags, OrSet.add, OrSet.tagsOf_alter, if_neg hkeys]

theorem mem_liveTags_remove {s : OrSet.Replica} {t : JsString}
    (h : s.tombstoneRetention = none) :
    t ∈ OrSet.liveTags (OrSet.remove Empty.elim s (keyOf key)) k ↔
      t ∈ OrSet.liveTags s k ∧ t ∉ OrSet.liveTags s (elemKey key) := by
  have hremove : OrSet.remove Empty.elim s (keyOf key) =
      { s with tombstones := OrSet.addAll s.tombstones (OrSet.liveTags s (elemKey key)) } := by
    rw [OrSet.remove, OrSet.gcTombstones]
    dsimp only
    rw [h]
    rfl
  rw [hremove, OrSet.mem_liveTags, OrSet.mem_liveTags]
  dsimp only
  rw [OrSet.mem_addAll, not_or, and_assoc]

theorem not_live_remove {key : Key} (h : Sound m) : ¬ Live (remove m key) key.text :=
  fun ⟨_, ht⟩ => ((mem_liveTags_remove h.retention).mp ht).2
    ((mem_liveTags_remove h.retention).mp ht).1

theorem Live.of_remove {key : Key} (h : Sound m) (hlive : Live (remove m key) k) : Live m k :=
  hlive.imp fun _ ht => ((mem_liveTags_remove h.retention).mp ht).1

theorem set_of_plain {key : Key} {v : V} {ts : Nat} {token : JsString}
    (hkey : key.text ∉ inheritedNames) (hts : ∀ r, m.vals.lookup key.text = some r → r.ts < ts) :
    set null m key v ts token =
      (⟨OrSet.add Empty.elim m.keys (keyOf key.text) token,
        put key.text ⟨v, ts, m.keys.replicaId⟩ m.vals⟩, none) := by
  have hbeats : ((m.vals.lookup key.text).getD ⟨null, -1, []⟩).set m.keys.replicaId v ts =
      ⟨v, ts, m.keys.replicaId⟩ := by
    refine if_pos (.inl ?_)
    cases hlookup : m.vals.lookup key.text with
    | none => exact (by omega : (-1 : Int) < ts)
    | some r => exact hts r hlookup
  rw [set]
  dsimp only
  rw [reg_of_plain hkey]
  dsimp only
  rw [← hbeats]
  rfl

/-- What `set` is for, in the map it leaves, and `remove` after it. -/
structure SetWorks (null : V) (m m' : Replica V) (key : Key) (v : V) : Prop where
  has : has m' key = true
  get : get null m' key = .ok (some v)
  shown : ∃ out, value null m' = .ok out ∧ out.lookup key.text = some v
  others : ∀ k : Key, k.text ≠ key.text →
    OrMap.has m' k = OrMap.has m k ∧ OrMap.get null m' k = OrMap.get null m k
  othersShown : ∀ k, k ≠ key.text →
    (value null m').map (fun out => out.lookup k) = (value null m).map fun out => out.lookup k
  gone : OrMap.has (remove m' key) key = false ∧
    OrMap.get null (remove m' key) key = .ok none ∧
      ∃ out, value null (remove m' key) = .ok out ∧ out.lookup key.text = none

theorem Sound.gone {key : Key} (h : Sound (remove m key)) (hm : Sound m) (hclear : Clear m) :
    OrMap.has (remove m key) key = false ∧ OrMap.get null (remove m key) key = .ok none ∧
      ∃ out, value null (remove m key) = .ok out ∧ out.lookup key.text = none := by
  have hhas : OrMap.has (remove m key) key = false := by
    rw [← Bool.not_eq_true, has_iff]
    exact not_live_remove hm
  have hclear' : Clear (remove m key) := fun k hk =>
    hclear k (hm.mem_liveKeys.mpr ((h.mem_liveKeys.mp hk).of_remove hm))
  obtain ⟨out, hout, hlookup⟩ := h.value_ok null hclear'
  refine ⟨hhas, ?_, out, hout, ?_⟩
  · rw [OrMap.get, hhas]
    rfl
  · rw [hlookup, if_neg fun hk => not_live_remove hm (h.mem_liveKeys.mp hk)]

theorem setWorks_of_plain {key : Key} {v : V} {ts : Nat} {token : JsString} (hm : Made null m)
    (hts : ∀ r, m.vals.lookup key.text = some r → r.ts < ts)
    (hfresh : OrSet.tag m.keys token ∉ m.keys.tombstones)
    (hkey : key.text ∉ inheritedNames) (hclear : Clear m) :
    SetWorks null m (set null m key v ts token).1 key v := by
  have hmade := hm.set key v ts token
  have hsound := hm.sound
  have hsound' := hmade.sound
  have hgone := (hmade.remove key).sound
  rw [set_of_plain hkey hts] at hsound' hgone ⊢
  dsimp only at hsound' hgone ⊢
  generalize hm' : (⟨OrSet.add Empty.elim m.keys (keyOf key.text) token,
    put key.text ⟨v, ts, m.keys.replicaId⟩ m.vals⟩ : Replica V) = m' at hsound' hgone ⊢
  have hlive : Live m' key.text := hm' ▸ live_add_self hfresh
  have hothers : ∀ k, k ≠ key.text → (Live m' k ↔ Live m k) := by
    intro k hne
    rw [Live, ← hm', liveTags_add hne]
    exact Iff.rfl
  have hreg : ∀ k, k ≠ key.text → m'.vals.lookup k = m.vals.lookup k := by
    intro k hne
    rw [← hm', lookup_put, if_neg hne]
  have hself : m'.vals.lookup key.text = some ⟨v, ts, m.keys.replicaId⟩ := by
    rw [← hm', lookup_put, if_pos rfl]
  have hclear' : Clear m' := fun k hk => by
    by_cases heq : k = key.text
    · exact heq ▸ hkey
    · exact hclear k (hsound.mem_liveKeys.mpr ((hothers k heq).mp (hsound'.mem_liveKeys.mp hk)))
  obtain ⟨out', hout', hlookup'⟩ := hsound'.value_ok null hclear'
  obtain ⟨out, hout, hlookup⟩ := hsound.value_ok null hclear
  have hhas : OrMap.has m' key = true := has_iff.mpr hlive
  refine ⟨hhas, ?_, ⟨out', hout', ?_⟩, fun k hne => ?_, fun k hne => ?_,
    hgone.gone hsound' hclear'⟩
  · rw [OrMap.get, if_pos hhas, reg_of_plain hkey, hself]
    rfl
  · rw [hlookup', if_pos (hsound'.mem_liveKeys.mpr hlive), hself]
    rfl
  · have hsame : OrMap.has m' k = OrMap.has m k := by
      rw [Bool.eq_iff_iff, has_iff, has_iff]
      exact hothers k.text hne
    refine ⟨hsame, ?_⟩
    rw [OrMap.get, OrMap.get, hsame, reg, reg, hreg k.text hne]
  · rw [hout', hout]
    refine congrArg Except.ok ?_
    dsimp only
    rw [hlookup', hlookup, hreg k hne]
    have hmem : k ∈ liveKeys m' ↔ k ∈ liveKeys m :=
      hsound'.mem_liveKeys.trans ((hothers k hne).trans hsound.mem_liveKeys.symm)
    by_cases hk : k ∈ liveKeys m
    · rw [if_pos hk, if_pos (hmem.mpr hk)]
    · rw [if_neg hk, if_neg fun hk' => hk (hmem.mp hk')]

/-- `set` and the `remove` after it do what they are for exactly when neither the key nor a live
key of the map is a name of `Object.prototype`. -/
theorem setWorks_iff {key : Key} {v : V} {ts : Nat} {token : JsString} (hm : Made null m)
    (hts : ∀ r, m.vals.lookup key.text = some r → r.ts < ts)
    (hfresh : OrSet.tag m.keys token ∉ m.keys.tombstones) :
    (set null m key v ts token).2 = none ∧ SetWorks null m (set null m key v ts token).1 key v ↔
      key.text ∉ inheritedNames ∧ ∀ k ∈ liveKeys m, k ∉ inheritedNames := by
  constructor
  · rintro ⟨hnone, hworks⟩
    have hsound := hm.sound
    have hadd : Sound { m with
        keys := OrSet.add Empty.elim m.keys (keyOf key.text) token } := hsound.add
    have hkey : key.text ∉ inheritedNames := by
      rw [set] at hnone
      dsimp only at hnone
      split at hnone
      · cases hnone
      · next r hr => exact hadd.reg_ok_iff.mp ⟨r, hr⟩
    refine ⟨hkey, fun k hk => ?_⟩
    by_cases heq : k = key.text
    · exact heq ▸ hkey
    · obtain ⟨out, hout, -⟩ := hworks.shown
      have hsound' := (hm.set key v ts token).sound
      refine hsound'.clear_of_value hout k (hsound'.mem_liveKeys.mpr ?_)
      rw [set_of_plain hkey hts, Live]
      dsimp only
      rw [liveTags_add heq]
      exact hsound.mem_liveKeys.mp hk
  · rintro ⟨hkey, hclear⟩
    refine ⟨?_, setWorks_of_plain hm hts hfresh hkey hclear⟩
    rw [set_of_plain hkey hts]

def keyK : Key := ⟨units "k", by decide⟩

/-- A map with one key that was removed, another that is live, and `k` set at 1. -/
def mapK : Replica Nat :=
  let set (m : Replica Nat) (key : Key) (v ts : Nat) : Replica Nat := (OrMap.set 0 m key v ts []).1
  set (remove (set (set (Replica.empty Nat (units "a")) ⟨units "gone", by decide⟩ 3 1)
    ⟨units "other", by decide⟩ 4 2) ⟨units "gone", by decide⟩) keyK 5 1

/-- A later `set` of `k`. -/
theorem setWorks_iff_again :
    SetWorks 0 mapK (set 0 mapK keyK 6 2 []).1 keyK 6 ∧
      value 0 (set 0 mapK keyK 6 2 []).1 = .ok [(units "k", 6), (units "other", 4)] := by
  have hmade : Made 0 mapK := ((((Made.empty _).set _ _ _ _).set _ _ _ _).remove _).set _ _ _ _
  refine ⟨((setWorks_iff hmade (fun r hr => ?_) (by decide)).mpr ⟨by decide, by decide⟩).2, rfl⟩
  have hold : mapK.vals.lookup keyK.text = some ⟨5, 1, units "a"⟩ := rfl
  cases hold.symm.trans hr
  decide

def keyConstructor : Key := ⟨units "constructor", by decide⟩

/-- `set` throws for the key `constructor` of a new map, and the key is there all the same. -/
theorem set_constructor_throws :
    ∃ e, (set false (Replica.empty Bool []) keyConstructor true 1 []).2 = some e ∧
      has (set false (Replica.empty Bool []) keyConstructor true 1 []).1 keyConstructor = true ∧
      ¬ ((set false (Replica.empty Bool []) keyConstructor true 1 []).2 = none ∧
        SetWorks false (Replica.empty Bool [])
          (set false (Replica.empty Bool []) keyConstructor true 1 []).1 keyConstructor true) := by
  have hmem : keyConstructor.text ∈ inheritedNames := List.mem_cons_self
  have hreg : ∀ keys, reg false (⟨keys, []⟩ : Replica Bool) keyConstructor.text =
      .error (inheritedError keyConstructor.text) := fun _ => reg_of_inherited rfl hmem
  have hset : set false (Replica.empty Bool []) keyConstructor true 1 [] =
      (⟨OrSet.add Empty.elim (Replica.empty Bool []).keys (keyOf keyConstructor.text) [], []⟩,
        some (inheritedError keyConstructor.text)) := by
    rw [set, Replica.empty]
    dsimp only
    rw [hreg]
  rw [hset]
  exact ⟨_, rfl, has_iff.mpr (live_add_self List.not_mem_nil), fun h => (nomatch h.1)⟩

end Blamejs.OrMap

/-!
## The register

A register holds the greatest of the writes it has received, if each has a stamp of its own.
-/

namespace Blamejs.LwwRegister

open Js OrMap Run Replicas

variable {V : Type} {null : V} {events received received' : List (Reg V)} {a b c s s' : Reg V}

theorem beats_trans (h : beats a b) (h' : beats b c) : beats a c := by
  rcases h with hlt | ⟨heq, hid⟩
  · rcases h' with hlt' | ⟨heq', -⟩
    · exact .inl (Int.lt_trans hlt' hlt)
    · exact .inl (heq' ▸ hlt)
  · rcases h' with hlt' | ⟨heq', hid'⟩
    · exact .inl (heq ▸ hlt')
    · refine .inr ⟨heq.trans heq', fun hle => hid ?_⟩
      exact IsTrans.trans _ _ _ hle ((total_of unitLE b.replicaId c.replicaId).resolve_left hid')

theorem not_beats_of_beats (h : beats a b) : ¬ beats b a := by
  intro h'
  rcases beats_trans h h' with hlt | ⟨-, hid⟩
  · exact Int.lt_irrefl _ hlt
  · exact hid (refl_of unitLE a.replicaId)

def stamp (c : Reg V) : Int × JsString := (c.ts, c.replicaId)

/-- Two writes are ordered but for those with one stamp. -/
theorem beats_or_of_not_beats (h : ¬ beats a b) : beats b a ∨ stamp a = stamp b := by
  obtain ⟨hts, hid⟩ := not_or.mp h
  rcases Int.lt_or_eq_of_le (Int.not_lt.mp hts) with hlt | heq
  · exact .inl (.inl hlt)
  · have hle : unitLE a.replicaId b.replicaId := not_not.mp fun hno => hid ⟨heq, hno⟩
    by_cases hle' : unitLE b.replicaId a.replicaId
    · exact .inr (Prod.ext heq (unitLE_antisymm hle hle'))
    · exact .inl (.inr ⟨heq.symm, hle'⟩)

/-- The writes a register chooses from: those received, and what it holds when it is empty. -/
def writes (null : V) (received : List (Reg V)) : List (Reg V) := ⟨null, -1, []⟩ :: received

def Stamped (null : V) (events : List (Reg V)) : Prop := ((writes null events).map stamp).Nodup

/-- The register holds the write that beats the others. -/
def Tracks (null : V) (received : List (Reg V)) (s : Reg V) : Prop :=
  s ∈ writes null received ∧ ∀ c ∈ writes null received, c = s ∨ beats s c

/-- The stamp of a write is not that of an earlier one. -/
def Fresh (events : List (Reg V)) (p : Replica JsString (Reg V) (Reg V)) (u : V × Nat) : Prop :=
  ∀ c ∈ events, stamp c ≠ ((u.2 : Int), p.id)

theorem mem_writes_append : c ∈ writes null (received ++ received') ↔
    c ∈ writes null received ∨ c ∈ writes null received' := by
  simp only [writes, List.mem_cons, List.mem_append]
  exact or_or_distrib_left

theorem Stamped.concat {p : Replica JsString (Reg V) (Reg V)} {u : V × Nat}
    (h : Stamped null events) (hfresh : Fresh events p u) :
    Stamped null (events ++ [⟨u.1, u.2, p.id⟩]) := by
  have hnew : ((u.2 : Int), p.id) ∉ (writes null events).map stamp := by
    intro hmem
    obtain ⟨c, hc, heq⟩ := List.mem_map.mp hmem
    rcases List.mem_cons.mp hc with rfl | hc
    · have hts : -1 = (u.2 : Int) := (Prod.mk.inj heq).1
      omega
    · exact hfresh c hc heq
  rw [Stamped, writes, ← List.cons_append, List.map_append, List.map_singleton,
    ← List.concat_eq_append]
  exact List.Nodup.concat hnew h

/-- The greater of what is held and what was received elsewhere. -/
theorem Tracks.merge (hstamped : Stamped null events) (hsub : received ⊆ events)
    (hsub' : received' ⊆ events) (h : Tracks null received s) (h' : Tracks null received' s') :
    Tracks null (received ++ received') (s.merge s') := by
  obtain ⟨hs, hbest⟩ := h
  obtain ⟨hs', hbest'⟩ := h'
  unfold Reg.merge
  split
  · next hbeats =>
      refine ⟨mem_writes_append.mpr (.inr hs'), fun c hc => ?_⟩
      rcases mem_writes_append.mp hc with hc | hc
      · rcases hbest c hc with rfl | hlt
        · exact .inr hbeats
        · exact .inr (beats_trans hbeats hlt)
      · exact hbest' c hc
  · next hnot =>
      refine ⟨mem_writes_append.mpr (.inl hs), fun c hc => ?_⟩
      rcases mem_writes_append.mp hc with hc | hc
      · exact hbest c hc
      · rcases beats_or_of_not_beats hnot with hlt | heq
        · rcases hbest' c hc with rfl | hlt'
          · exact .inr hlt
          · exact .inr (beats_trans hlt hlt')
        · rw [← List.inj_on_of_nodup_map hstamped (List.cons_subset_cons _ hsub' hs')
            (List.cons_subset_cons _ hsub hs) heq]
          exact hbest' c hc

/-- A write at a replica is a merge with a register that holds nothing but the write. -/
theorem rules : Rules (object null) (Stamped null) (Tracks null) Fresh where
  start := List.nodup_singleton _
  log _ _ _ h hok := h.concat hok
  empty := ⟨List.mem_cons_self, fun c hc => .inl (List.mem_singleton.mp hc)⟩
  apply events p u hstamped hsub h := by
    have hown : Tracks null [⟨u.1, u.2, p.id⟩] ⟨u.1, u.2, p.id⟩ := by
      refine ⟨List.mem_cons_of_mem _ List.mem_cons_self, fun c hc => ?_⟩
      rcases List.mem_cons.mp hc with rfl | hc
      · refine .inr (.inl ?_)
        dsimp only
        omega
      · exact .inl (List.mem_singleton.mp hc)
    exact Tracks.merge hstamped (List.subset_append_of_subset_left _ hsub)
      (List.subset_append_right _ _) h hown
  merge _ _ _ _ _ hstamped hsub hsub' h h' := Tracks.merge hstamped hsub hsub' h h'

/-- In every run whose writes have stamps of their own a register holds the greatest of the
writes it has received, `null` standing below them all; so registers that have received the same
writes hold the same. -/
theorem holds_of_reach {w : World JsString (Reg V) (Reg V)}
    {p q : Replica JsString (Reg V) (Reg V)}
    (h : Reach (step (object null)) (Updates Fresh) (World.init _ _ _) w)
    (hp : p ∈ w.replicas) (hq : q ∈ w.replicas) :
    (p.state ∈ writes null p.received ∧
      ∀ c ∈ writes null p.received, c = p.state ∨ beats p.state c) ∧
    ((∀ c, c ∈ p.received ↔ c ∈ q.received) → p.state = q.state) := by
  have hinv := tracks_of_reach rules h
  obtain ⟨hstate, hbest⟩ := (hinv.replicas p hp).2
  obtain ⟨hstate', hbest'⟩ := (hinv.replicas q hq).2
  refine ⟨⟨hstate, hbest⟩, fun hsame => ?_⟩
  have hwrites : ∀ c, c ∈ writes null p.received ↔ c ∈ writes null q.received := fun c => by
    rw [writes, writes, List.mem_cons, List.mem_cons, hsame]
  rcases hbest _ ((hwrites _).mpr hstate') with heq | hlt
  · exact heq.symm
  · rcases hbest' _ ((hwrites _).mp hstate) with heq | hlt'
    · exact heq
    · exact absurd hlt' (not_beats_of_beats hlt)

/-- `a` and `b` write at one time: merged in either order, the registers hold what `b` wrote. -/
theorem holds_of_reach_tie :
    let s := (⟨0, -1, []⟩ : Reg Nat).set (units "a") 10 1
    let t := (⟨0, -1, []⟩ : Reg Nat).set (units "b") 20 1
    (s.merge t).value = 20 ∧ (∀ c ∈ [s, t], c = s.merge t ∨ beats (s.merge t) c) ∧
      s.merge t = t.merge s := by
  intro s t
  have hreach : Reach (step (object 0)) (Updates Fresh) (World.init _ _ _)
      ⟨[⟨units "a", s, [s]⟩, ⟨units "b", t, [t]⟩, ⟨units "a", s.merge t, [s, t]⟩,
        ⟨units "b", t.merge s, [t, s]⟩], [(s, [s]), (t, [t])], [s, t]⟩ := by
    refine reach_of_meets [.create (units "a"), .update 0 (10, 1), .create (units "b"),
      .update 1 (20, 1), .snapshot 0, .snapshot 1, .merge 0 1, .merge 1 0]
      (.intro trivial (.intro (fun _ _ _ hmem => nomatch hmem) (.intro trivial (.intro ?_
        (.intro trivial (.intro trivial (.intro trivial (.intro trivial trivial)))))))) rfl
    intro p hp c hc
    cases hp
    rw [List.mem_singleton.mp hc]
    decide
  obtain ⟨⟨-, hbest⟩, hsame⟩ := holds_of_reach hreach (.tail _ (.tail _ (.head _)))
    (.tail _ (.tail _ (.tail _ (.head _))))
  refine ⟨rfl, fun c hc => hbest c (List.mem_cons_of_mem _ hc), hsame fun c => ?_⟩
  simp only [List.mem_cons, List.not_mem_nil, or_false]
  exact or_comm

end Blamejs.LwwRegister
