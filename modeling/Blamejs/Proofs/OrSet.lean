import Blamejs.Ref.Crdt

/-!
# Add wins

`Present` is the specification, in the events a set has received: an add that no remove
received with it had observed. A set holds the tag of each add it has received under the key of
the element, and its tombstones are the tags of the adds that the removes it has received had
observed; `Tracks` says so, and each operation keeps it. As no two adds share a tag, the live
tags of a key are then the adds that `Present` asks for.
-/

namespace Blamejs.OrSet

open Js Run

variable {J : Type} {stringify : J → JsString} {parse : JsString → Option J}
  {events : List (Event J)} {seen : List Nat} {elems : Elems} {tombstones : List JsString}
  {k : JsString} {t : JsString}

/-- An add of the element that the set has received, and that no remove it has received had
observed. -/
def Present (events : List (Event J)) (seen : List Nat) (x : Elem J) : Prop :=
  ∃ a ∈ seen, (∃ t, events[a]? = some (.add x t)) ∧
    ∀ r ∈ seen, ∀ observed, events[r]? = some (.remove x observed) → a ∉ observed

/-! ## The object and the set -/

theorem tagsOf_cons (k k' : JsString) (tags : List JsString) (rest : Elems) :
    tagsOf ((k', tags) :: rest) k = if k = k' then tags else tagsOf rest k := by
  rw [tagsOf, List.lookup_cons]
  by_cases h : k = k'
  · rw [if_pos h, beq_iff_eq.mpr h]
    rfl
  · rw [if_neg h, beq_eq_false_iff_ne.mpr h]
    rfl

theorem tagsOf_alter (f : List JsString → List JsString) (k' : JsString) (elems : Elems) :
    tagsOf (alter k f elems) k' = if k' = k then f (tagsOf elems k) else tagsOf elems k' := by
  induction elems with
  | nil =>
      rw [alter, tagsOf_cons]
      rfl
  | cons p rest ih =>
      obtain ⟨k₁, tags⟩ := p
      rw [alter]
      split
      · next heq =>
          subst heq
          rw [tagsOf_cons, tagsOf_cons, tagsOf_cons, if_pos rfl]
          by_cases h : k' = k₁
          · rw [if_pos h, if_pos h]
          · rw [if_neg h, if_neg h, if_neg h]
      · next hne =>
          rw [tagsOf_cons, tagsOf_cons, tagsOf_cons, if_neg (Ne.symm hne)]
          by_cases h : k' = k₁
          · rw [if_pos h, if_neg (h ▸ hne), if_pos h]
          · rw [if_neg h, if_neg h]
            exact ih

theorem mem_keys_of_tag (h : t ∈ tagsOf elems k) : k ∈ elems.map Prod.fst := by
  rw [tagsOf] at h
  cases hlookup : elems.lookup k with
  | none =>
      rw [hlookup] at h
      cases h
  | some tags =>
      obtain ⟨before, after, heq, -⟩ := List.lookup_eq_some_iff.mp hlookup
      rw [heq, List.map_append]
      exact List.mem_append_right _ List.mem_cons_self

theorem mem_addAll (set more : List JsString) :
    t ∈ addAll set more ↔ t ∈ set ∨ t ∈ more := by
  induction more generalizing set with
  | nil => exact ⟨.inl, fun h => h.resolve_right List.not_mem_nil⟩
  | cons t' more ih =>
      rw [addAll, List.foldl_cons]
      refine (ih _).trans ?_
      rw [List.mem_cons, ← or_assoc]
      refine or_congr_left ?_
      split
      · next hmem => exact ⟨.inl, fun h => h.elim id fun heq => heq ▸ hmem⟩
      · rw [List.mem_append, List.mem_singleton]

/-- What the loop of `merge` over the keys of the other state collects. -/
theorem mem_tagsOf_foldl (o : Elems) (keys : List JsString) (elems : Elems) :
    t ∈ tagsOf (keys.foldl
      (fun e key => alter key (fun tags => (tags ++ tagsOf o key).eraseDups) e) elems) k ↔
      t ∈ tagsOf elems k ∨ k ∈ keys ∧ t ∈ tagsOf o k := by
  induction keys generalizing elems with
  | nil => exact ⟨.inl, fun h => h.resolve_right fun h => List.not_mem_nil h.1⟩
  | cons key keys ih =>
      rw [List.foldl_cons]
      refine (ih _).trans ?_
      rw [tagsOf_alter, List.mem_cons, or_and_right, ← or_assoc]
      refine or_congr_left ?_
      split
      · next heq =>
          subst heq
          rw [List.mem_eraseDups, List.mem_append]
          exact or_congr_right (and_iff_right rfl).symm
      · next hne => exact ⟨.inl, fun h => h.resolve_right fun h => hne h.1⟩

theorem mem_tagsOf_merge (s : Replica) (o : State) :
    t ∈ tagsOf (merge s o).elems k ↔ t ∈ tagsOf s.elems k ∨ t ∈ tagsOf o.elems k :=
  (mem_tagsOf_foldl o.elems _ s.elems).trans
    (or_congr_right (and_iff_right_of_imp mem_keys_of_tag))

/-! ## The keys -/

/-- `safeJson.parse` gives back what `JSON.stringify` wrote. -/
def RoundTrips (stringify : J → JsString) (parse : JsString → Option J) : Prop :=
  ∀ x, parse (stringify x) = some x

/-- The same of one element. -/
def ReadsBack (stringify : J → JsString) (parse : JsString → Option J) : Elem J → Prop
  | .str _ => True
  | .json x => parse (stringify x) = some x

theorem RoundTrips.readsBack (hjson : RoundTrips stringify parse) (x : Elem J) :
    ReadsBack stringify parse x := by
  cases x with
  | str s => trivial
  | json x => exact hjson x

theorem decodeKey_key {x : Elem J} (hx : ReadsBack stringify parse x) :
    decodeKey parse (key stringify x) = some x := by
  cases x with
  | str s => rfl
  | json x =>
      have hs : unit 'j' ≠ unit 's' := by decide
      rw [key, decodeKey, List.head?_cons, if_neg (fun h => hs (Option.some.inj h))]
      exact congrArg (Option.map Elem.json) hx

theorem eq_of_key {x y : Elem J} (hx : ReadsBack stringify parse x)
    (hy : ReadsBack stringify parse y) (h : key stringify x = key stringify y) : x = y :=
  Option.some.inj ((decodeKey_key hx).symm.trans
    ((congrArg (decodeKey parse) h).trans (decodeKey_key hy)))

theorem key_injective (hjson : RoundTrips stringify parse) :
    Function.Injective (key stringify) := fun x y =>
  eq_of_key (hjson.readsBack x) (hjson.readsBack y)

theorem mem_mapM_decodeKey {keys : List JsString}
    (hkeys : ∀ k ∈ keys, ∃ x, k = key stringify x ∧ ReadsBack stringify parse x) :
    ∃ xs, keys.mapM (decodeKey parse) = some xs ∧
      ∀ x, x ∈ xs ↔ ReadsBack stringify parse x ∧ key stringify x ∈ keys := by
  induction keys with
  | nil => exact ⟨[], rfl, fun x => ⟨fun h => (nomatch h), fun h => (nomatch h.2)⟩⟩
  | cons k keys ih =>
      obtain ⟨x, rfl, hx⟩ := hkeys k List.mem_cons_self
      obtain ⟨xs, hxs, hmem⟩ := ih fun k hk => hkeys k (List.mem_cons_of_mem _ hk)
      refine ⟨x :: xs, ?_, fun y => ?_⟩
      · rw [List.mapM_cons, decodeKey_key hx, hxs]
        rfl
      · rw [List.mem_cons, List.mem_cons, hmem y]
        constructor
        · rintro (rfl | ⟨hy, hin⟩)
          · exact ⟨hx, .inl rfl⟩
          · exact ⟨hy, .inr hin⟩
        · rintro ⟨hy, heq | hin⟩
          · exact .inl (eq_of_key hy hx heq)
          · exact .inr ⟨hy, hin⟩

theorem mem_decodeKeys {keys : List JsString}
    (hkeys : ∀ k ∈ keys, ∃ x, k = key stringify x ∧ ReadsBack stringify parse x) :
    ∃ xs, decodeKeys parse keys = some xs ∧
      ∀ x, x ∈ xs ↔ ReadsBack stringify parse x ∧ key stringify x ∈ keys := by
  have hsorted := List.perm_insertionSort unitLE keys
  obtain ⟨xs, hxs, hmem⟩ := mem_mapM_decodeKey fun k hk => hkeys k (hsorted.mem_iff.mp hk)
  exact ⟨xs, hxs, fun x => (hmem x).trans (and_congr_right fun _ => hsorted.mem_iff)⟩

/-! ## What a set knows -/

/-- No two adds share a tag, and a remove has observed what came before it. -/
structure Ordered (events : List (Event J)) : Prop where
  tags : ∀ (a b : Nat) x y t,
    events[a]? = some (.add x t) → events[b]? = some (.add y t) → a = b
  observed : ∀ (r : Nat) x obs, events[r]? = some (.remove x obs) → ∀ a ∈ obs, a < r

/-- What was added reads back. -/
def Readable (stringify : J → JsString) (parse : JsString → Option J)
    (events : List (Event J)) : Prop :=
  ∀ x t, .add x t ∈ events → ReadsBack stringify parse x

/-- The tags and the tombstones stand for the events that were received. -/
structure Tracks (stringify : J → JsString) (events : List (Event J)) (seen : List Nat)
    (elems : Elems) (tombstones : List JsString) : Prop where
  bound : ∀ a ∈ seen, a < events.length
  tags : ∀ k t, t ∈ tagsOf elems k ↔
    ∃ a ∈ seen, ∃ x, events[a]? = some (.add x t) ∧ k = key stringify x
  dead : ∀ t, t ∈ tombstones ↔
    ∃ r ∈ seen, ∃ x obs, events[r]? = some (.remove x obs) ∧
      ∃ a ∈ obs, events[a]? = some (.add x t)

theorem getElem?_concat_old {a : Nat} {e : Event J} (ha : a < events.length) :
    (events ++ [e])[a]? = events[a]? := List.getElem?_append_left ha

/-- What is seen of an event that has a place among the old ones. -/
theorem lt_of_getElem?_concat {a : Nat} {e e' : Event J} (h : (events ++ [e])[a]? = some e')
    (hne : e' ≠ e) : a < events.length := by
  obtain ⟨hlt, hget⟩ := List.getElem?_eq_some_iff.mp h
  rw [List.length_append, List.length_singleton] at hlt
  rcases Nat.lt_succ_iff_lt_or_eq.mp hlt with hlt | rfl
  · exact hlt
  · rw [List.getElem?_concat_length] at h
    exact absurd (Option.some.inj h).symm hne

theorem Ordered.add (h : Ordered events) {x : Elem J}
    (hfresh : ∀ y, Event.add y t ∉ events) : Ordered (events ++ [.add x t]) := by
  have hnew : ∀ (a : Nat) y,
      (events ++ [.add x t])[a]? = some (.add y t) → a = events.length := by
    intro a y ha
    by_contra hne
    obtain ⟨hlt, -⟩ := List.getElem?_eq_some_iff.mp ha
    rw [List.length_append, List.length_singleton] at hlt
    rw [getElem?_concat_old (by omega)] at ha
    exact hfresh y (List.mem_of_getElem? ha)
  refine ⟨fun a b y z t' ha hb => ?_, fun r y obs hr => ?_⟩
  · by_cases heq : t' = t
    · subst heq
      rw [hnew a y ha, hnew b z hb]
    · have hne : ∀ y, Event.add y t' ≠ .add x t := fun y hsame => heq (Event.add.inj hsame).2
      rw [getElem?_concat_old (lt_of_getElem?_concat ha (hne y))] at ha
      rw [getElem?_concat_old (lt_of_getElem?_concat hb (hne z))] at hb
      exact h.tags a b y z t' ha hb
  · rw [getElem?_concat_old (lt_of_getElem?_concat hr fun heq => (nomatch heq))] at hr
    exact h.observed r y obs hr

theorem Ordered.remove (h : Ordered events) {x : Elem J}
    (hseen : ∀ a ∈ seen, a < events.length) :
    Ordered (events ++ [.remove x seen]) := by
  refine ⟨fun a b y z t' ha hb => ?_, fun r y obs hr a ha => ?_⟩
  · rw [getElem?_concat_old (lt_of_getElem?_concat ha fun heq => (nomatch heq))] at ha
    rw [getElem?_concat_old (lt_of_getElem?_concat hb fun heq => (nomatch heq))] at hb
    exact h.tags a b y z t' ha hb
  · obtain ⟨hlt, -⟩ := List.getElem?_eq_some_iff.mp hr
    rw [List.length_append, List.length_singleton] at hlt
    rcases Nat.lt_succ_iff_lt_or_eq.mp hlt with hlt | rfl
    · rw [getElem?_concat_old hlt] at hr
      exact h.observed r y obs hr a ha
    · rw [List.getElem?_concat_length] at hr
      cases hr
      exact hseen a ha

/-- An event elsewhere changes nothing. -/
theorem Tracks.concat (h : Tracks stringify events seen elems tombstones)
    (hordered : Ordered events) (e : Event J) :
    Tracks stringify (events ++ [e]) seen elems tombstones where
  bound a ha := by
    rw [List.length_append]
    exact Nat.lt_add_right _ (h.bound a ha)
  tags k t := (h.tags k t).trans (exists_congr fun a => and_congr_right fun ha => by
    rw [getElem?_concat_old (h.bound a ha)])
  dead t := (h.dead t).trans (exists_congr fun r => and_congr_right fun hr => by
    rw [getElem?_concat_old (h.bound r hr)]
    refine exists_congr fun x => exists_congr fun obs => and_congr_right fun hremove => ?_
    refine exists_congr fun a => and_congr_right fun ha => ?_
    rw [getElem?_concat_old (Nat.lt_trans (hordered.observed r x obs hremove a ha)
      (h.bound r hr))])

theorem Tracks.receive_bound {e : Event J} (h : ∀ a ∈ seen, a < events.length) :
    ∀ a ∈ seen ++ [events.length], a < (events ++ [e]).length := by
  intro a ha
  rw [List.length_append, List.length_singleton]
  rcases List.mem_append.mp ha with ha | ha
  · exact Nat.lt_succ_of_lt (h a ha)
  · rw [List.mem_singleton.mp ha]
    exact Nat.lt_succ_self _

theorem exists_mem_concat {p : Nat → Prop} {n : Nat} :
    (∃ a ∈ seen ++ [n], p a) ↔ (∃ a ∈ seen, p a) ∨ p n := by
  constructor
  · rintro ⟨a, ha, hp⟩
    rcases List.mem_append.mp ha with ha | ha
    · exact .inl ⟨a, ha, hp⟩
    · exact .inr (List.mem_singleton.mp ha ▸ hp)
  · rintro (⟨a, ha, hp⟩ | hp)
    · exact ⟨a, List.mem_append_left _ ha, hp⟩
    · exact ⟨n, List.mem_append_right _ (List.mem_singleton_self n), hp⟩

theorem Tracks.add {s : Replica} {x : Elem J} {token : JsString}
    (h : Tracks stringify events seen s.elems s.tombstones) (hordered : Ordered events) :
    Tracks stringify (events ++ [.add x (tag s token)]) (seen ++ [events.length])
      (add stringify s x token).elems (add stringify s x token).tombstones := by
  have hold := h.concat hordered (.add x (tag s token))
  refine ⟨Tracks.receive_bound h.bound, fun k t => ?_, fun t => ?_⟩
  · rw [exists_mem_concat, ← hold.tags, List.getElem?_concat_length, OrSet.add, tagsOf_alter]
    split
    · next hk =>
        rw [List.mem_append, List.mem_singleton, hk]
        refine or_congr_right ⟨?_, ?_⟩
        · rintro rfl
          exact ⟨x, rfl, rfl⟩
        · rintro ⟨y, hy, -⟩
          cases hy
          rfl
    · next hk =>
        refine ⟨.inl, fun hmem => hmem.resolve_right ?_⟩
        rintro ⟨y, hy, heq⟩
        cases hy
        exact hk heq
  · rw [exists_mem_concat, List.getElem?_concat_length]
    refine (hold.dead t).trans ⟨.inl, fun hmem => hmem.resolve_right ?_⟩
    rintro ⟨y, obs, hy, -⟩
    cases hy

theorem mem_liveTags {s : Replica} :
    t ∈ liveTags s k ↔ t ∈ tagsOf s.elems k ∧ t ∉ s.tombstones := by
  rw [liveTags, List.mem_filter, decide_eq_true_eq]

theorem Tracks.remove {s : Replica} {x : Elem J} (hread : Readable stringify parse events)
    (hx : ReadsBack stringify parse x)
    (h : Tracks stringify events seen s.elems s.tombstones) (hordered : Ordered events)
    (hretention : s.tombstoneRetention = none) :
    Tracks stringify (events ++ [.remove x seen]) (seen ++ [events.length])
      (remove stringify s x).elems (remove stringify s x).tombstones := by
  have hold := h.concat hordered (.remove x seen)
  rw [OrSet.remove, gcTombstones]
  dsimp only
  rw [hretention]
  refine ⟨Tracks.receive_bound h.bound, fun k t => ?_, fun t => ?_⟩
  · rw [exists_mem_concat, List.getElem?_concat_length]
    refine (hold.tags k t).trans ⟨.inl, fun hmem => hmem.resolve_right ?_⟩
    rintro ⟨y, hy, -⟩
    cases hy
  · dsimp only
    rw [exists_mem_concat, ← hold.dead, List.getElem?_concat_length, mem_addAll, mem_liveTags]
    -- a tag with a tombstone already is not added again
    have hlive : t ∈ s.tombstones ∨ t ∈ tagsOf s.elems (key stringify x) ∧ t ∉ s.tombstones ↔
        t ∈ s.tombstones ∨ t ∈ tagsOf s.elems (key stringify x) := by
      by_cases hdead : t ∈ s.tombstones
      · exact ⟨fun _ => .inl hdead, fun _ => .inl hdead⟩
      · exact or_congr_right (and_iff_left hdead)
    refine hlive.trans (or_congr_right ?_)
    rw [hold.tags]
    constructor
    · rintro ⟨a, ha, y, hy, heq⟩
      have hadd := hy
      rw [getElem?_concat_old (h.bound a ha)] at hadd
      obtain rfl := eq_of_key hx (hread y t (List.mem_of_getElem? hadd)) heq
      exact ⟨x, seen, rfl, a, ha, hy⟩
    · rintro ⟨y, obs, hy, a, ha, hadd⟩
      cases hy
      exact ⟨a, ha, x, hadd, rfl⟩

theorem exists_mem_append {p : Nat → Prop} {seen' : List Nat} :
    (∃ a ∈ seen ++ seen', p a) ↔ (∃ a ∈ seen, p a) ∨ ∃ a ∈ seen', p a := by
  constructor
  · rintro ⟨a, ha, hp⟩
    exact (List.mem_append.mp ha).imp (fun ha => ⟨a, ha, hp⟩) fun ha => ⟨a, ha, hp⟩
  · rintro (⟨a, ha, hp⟩ | ⟨a, ha, hp⟩)
    · exact ⟨a, List.mem_append_left _ ha, hp⟩
    · exact ⟨a, List.mem_append_right _ ha, hp⟩

theorem Tracks.merge {s : Replica} {o : State} {seen' : List Nat}
    (h : Tracks stringify events seen s.elems s.tombstones)
    (h' : Tracks stringify events seen' o.elems o.tombstones) :
    Tracks stringify events (seen ++ seen') (merge s o).elems (merge s o).tombstones where
  bound a ha := (List.mem_append.mp ha).elim (h.bound a) (h'.bound a)
  tags k t := by rw [mem_tagsOf_merge, exists_mem_append, h.tags, h'.tags]
  dead t := by
    rw [OrSet.merge]
    dsimp only
    rw [mem_addAll, exists_mem_append, h.dead, h'.dead]

theorem Tracks.fromState {o : State} {replicaId : JsString} {retention : Option Nat}
    (h : Tracks stringify events seen o.elems o.tombstones) :
    Tracks stringify events seen (fromState o replicaId retention).elems
      (fromState o replicaId retention).tombstones := by
  refine ⟨h.bound, h.tags, fun t => ?_⟩
  refine ((mem_addAll [] o.tombstones).trans ⟨?_, .inr⟩).trans (h.dead t)
  exact fun hmem => hmem.resolve_left List.not_mem_nil

theorem Tracks.empty : Tracks stringify events [] [] [] where
  bound _ ha := (nomatch ha)
  tags _ _ := ⟨fun h => (nomatch h), fun ⟨_, ha, _⟩ => (nomatch ha)⟩
  dead _ := ⟨fun h => (nomatch h), fun ⟨_, hr, _⟩ => (nomatch hr)⟩

/-- The live tags of an element are the adds that make it present. -/
theorem Tracks.live_iff {s : Replica} {x : Elem J} (hread : Readable stringify parse events)
    (hx : ReadsBack stringify parse x)
    (h : Tracks stringify events seen s.elems s.tombstones) (hordered : Ordered events) :
    (∃ t, t ∈ liveTags s (key stringify x)) ↔ Present events seen x := by
  constructor
  · rintro ⟨t, ht⟩
    obtain ⟨htag, hlive⟩ := mem_liveTags.mp ht
    obtain ⟨a, ha, y, hadd, heq⟩ := (h.tags _ t).mp htag
    obtain rfl := eq_of_key hx (hread y t (List.mem_of_getElem? hadd)) heq
    exact ⟨a, ha, ⟨t, hadd⟩, fun r hr obs hremove hobs =>
      hlive ((h.dead t).mpr ⟨r, hr, x, obs, hremove, a, hobs, hadd⟩)⟩
  · rintro ⟨a, ha, ⟨t, hadd⟩, hnone⟩
    refine ⟨t, mem_liveTags.mpr ⟨(h.tags _ t).mpr ⟨a, ha, x, hadd, rfl⟩, fun hdead => ?_⟩⟩
    obtain ⟨r, hr, y, obs, hremove, b, hb, hadd'⟩ := (h.dead t).mp hdead
    obtain rfl := hordered.tags a b x y t hadd hadd'
    obtain rfl : x = y := by
      rw [hadd] at hadd'
      cases hadd'
      rfl
    exact hnone r hr obs hremove hb

/-! ## What a replica shows -/

theorem isLive_iff {s : Replica} : (!(liveTags s k).isEmpty) = true ↔ ∃ t, t ∈ liveTags s k := by
  rw [Bool.not_eq_true', List.isEmpty_eq_false_iff_exists_mem]

theorem mem_value {s : Replica}
    (hkeys : ∀ k t, t ∈ liveTags s k → ∃ x, k = key stringify x ∧ ReadsBack stringify parse x) :
    ∃ xs, value parse s = some xs ∧
      ∀ x, x ∈ xs ↔ ReadsBack stringify parse x ∧ ∃ t, t ∈ liveTags s (key stringify x) := by
  have hmem : ∀ k, k ∈ ((s.elems.map Prod.fst).filter
      fun k => !(liveTags s k).isEmpty).eraseDups ↔ ∃ t, t ∈ liveTags s k := by
    intro k
    rw [List.mem_eraseDups, List.mem_filter, isLive_iff]
    exact and_iff_right_of_imp fun ⟨_, ht⟩ => mem_keys_of_tag (mem_liveTags.mp ht).1
  obtain ⟨xs, hxs, hiff⟩ := mem_decodeKeys fun k hk => by
    obtain ⟨t, ht⟩ := (hmem k).mp hk
    exact hkeys k t ht
  exact ⟨xs, hxs, fun x => (hiff x).trans (and_congr_right fun _ => hmem _)⟩

theorem Tracks.value_iff {s : Replica} (hread : Readable stringify parse events)
    (h : Tracks stringify events seen s.elems s.tombstones) (hordered : Ordered events) :
    ∃ xs, value parse s = some xs ∧ ∀ x, x ∈ xs ↔ Present events seen x := by
  obtain ⟨xs, hxs, hiff⟩ := mem_value fun k t ht => by
    obtain ⟨a, -, x, hadd, heq⟩ := (h.tags k t).mp (mem_liveTags.mp ht).1
    exact ⟨x, heq, hread x t (List.mem_of_getElem? hadd)⟩
  refine ⟨xs, hxs, fun x => (hiff x).trans ⟨fun ⟨hx, hlive⟩ => ?_, fun hpresent => ?_⟩⟩
  · exact (h.live_iff hread hx hordered).mp hlive
  · obtain ⟨a, -, ⟨t, hadd⟩, -⟩ := id hpresent
    have hx := hread x t (List.mem_of_getElem? hadd)
    exact ⟨hx, (h.live_iff hread hx hordered).mpr hpresent⟩

/-! ## The runs -/

structure Inv (stringify : J → JsString) (parse : JsString → Option J) (w : World J) : Prop where
  ordered : Ordered w.events
  reads : Readable stringify parse w.events
  sets : ∀ p ∈ w.sets, p.1.tombstoneRetention = none ∧
    Tracks stringify w.events p.2 p.1.elems p.1.tombstones
  snapshots : ∀ o ∈ w.snapshots, Tracks stringify w.events o.2 o.1.elems o.1.tombstones

theorem Inv.init : Inv stringify parse (World.init J) where
  ordered := ⟨fun _ _ _ _ _ h => (nomatch h), fun _ _ _ h => (nomatch h)⟩
  reads _ _ h := (nomatch h)
  sets _ hp := (nomatch hp)
  snapshots _ ho := (nomatch ho)

/-- A new event at one replica. -/
theorem Inv.receive {w : World J} {i : Nat} {e : Event J} {p : Replica × List Nat}
    (h : Inv stringify parse w) (hordered : Ordered (w.events ++ [e]))
    (hread : ∀ x t, e = .add x t → ReadsBack stringify parse x)
    (hretention : p.1.tombstoneRetention = none)
    (hp : Tracks stringify (w.events ++ [e]) p.2 p.1.elems p.1.tombstones) :
    Inv stringify parse { w with sets := w.sets.set i p, events := w.events ++ [e] } where
  ordered := hordered
  reads x t hmem := (List.mem_append.mp hmem).elim (h.reads x t) fun hmem =>
    hread x t (List.mem_singleton.mp hmem).symm
  sets q hq := by
    rcases List.mem_or_eq_of_mem_set hq with hq | rfl
    · exact ⟨(h.sets q hq).1, (h.sets q hq).2.concat h.ordered e⟩
    · exact ⟨hretention, hp⟩
  snapshots o ho := (h.snapshots o ho).concat h.ordered e

/-- A new replica. -/
theorem Inv.create {w : World J} {p : Replica × List Nat} (h : Inv stringify parse w)
    (hretention : p.1.tombstoneRetention = none)
    (hp : Tracks stringify w.events p.2 p.1.elems p.1.tombstones) :
    Inv stringify parse { w with sets := w.sets ++ [p] } where
  ordered := h.ordered
  reads := h.reads
  sets q hq := by
    rcases List.mem_append.mp hq with hq | hq
    · exact h.sets q hq
    · rw [List.mem_singleton.mp hq]
      exact ⟨hretention, hp⟩
  snapshots := h.snapshots

theorem retention_remove {s : Replica} {x : Elem J} (h : s.tombstoneRetention = none) :
    (remove stringify s x).tombstoneRetention = none := by
  rw [remove, gcTombstones]
  dsimp only
  rw [h]

/-- The elements that the run adds and removes read back. -/
def Reads (stringify : J → JsString) (parse : JsString → Option J) : Act J → Prop
  | .add _ x _ | .remove _ x => ReadsBack stringify parse x
  | _ => True

theorem Inv.step {w w' : World J} {a : Act J} (h : Inv stringify parse w) (hfresh : Fresh w a)
    (hread : Reads stringify parse a) (hs : step stringify w a = some w') :
    Inv stringify parse w' := by
  cases a with
  | create replicaId =>
      cases hs
      exact h.create rfl Tracks.empty
  | add i x token =>
      obtain ⟨p, hp, hs⟩ := Option.bind_eq_some_iff.mp hs
      cases hs
      obtain ⟨hretention, htracks⟩ := h.sets p (List.mem_of_getElem? hp)
      exact h.receive (h.ordered.add (hfresh p hp))
        (fun y t heq => (Event.add.inj heq).1 ▸ hread) hretention (htracks.add h.ordered)
  | remove i x =>
      obtain ⟨p, hp, hs⟩ := Option.bind_eq_some_iff.mp hs
      cases hs
      obtain ⟨hretention, htracks⟩ := h.sets p (List.mem_of_getElem? hp)
      exact h.receive (h.ordered.remove htracks.bound) (fun _ _ heq => nomatch heq)
        (retention_remove hretention) (htracks.remove h.reads hread h.ordered hretention)
  | snapshot i =>
      obtain ⟨p, hp, hs⟩ := Option.bind_eq_some_iff.mp hs
      cases hs
      refine { h with snapshots := fun o ho => ?_ }
      rcases List.mem_append.mp ho with ho | ho
      · exact h.snapshots o ho
      · rw [List.mem_singleton.mp ho]
        exact (h.sets p (List.mem_of_getElem? hp)).2
  | merge i k =>
      obtain ⟨p, hp, hs⟩ := Option.bind_eq_some_iff.mp hs
      obtain ⟨o, ho, hs⟩ := Option.bind_eq_some_iff.mp hs
      cases hs
      obtain ⟨hretention, htracks⟩ := h.sets p (List.mem_of_getElem? hp)
      exact h.create hretention (htracks.merge (h.snapshots o (List.mem_of_getElem? ho)))
  | restore k replicaId =>
      obtain ⟨o, ho, hs⟩ := Option.bind_eq_some_iff.mp hs
      cases hs
      exact h.create rfl (h.snapshots o (List.mem_of_getElem? ho)).fromState

/-- In every run with unique tags whose elements read back, a replica shows the elements with an
add it has received that no remove it has received had observed, and no others. -/
theorem value_of_reach {w : World J} {s : Replica} {received : List Nat}
    (h : Reach (step stringify) (fun w a => Fresh w a ∧ Reads stringify parse a) (World.init J) w)
    (hs : (s, received) ∈ w.sets) :
    ∃ xs, value parse s = some xs ∧ ∀ x, (x ∈ xs ↔ Present w.events received x) ∧
      (ReadsBack stringify parse x → (has stringify s x = true ↔ Present w.events received x)) := by
  have hinv := h.invariant (I := Inv stringify parse) Inv.init fun _ _ _ hinv hok hstep =>
    hinv.step hok.1 hok.2 hstep
  have htracks := (hinv.sets _ hs).2
  obtain ⟨xs, hxs, hiff⟩ := htracks.value_iff hinv.reads hinv.ordered
  exact ⟨xs, hxs, fun x => ⟨hiff x, fun hx =>
    isLive_iff.trans (htracks.live_iff hinv.reads hx hinv.ordered)⟩⟩

/-- `null` and nothing else. -/
def nullText (_ : Unit) : JsString := units "null"

def parseNull (text : JsString) : Option Unit := if text = units "null" then some () else none

/-- `null` is added at `a` and removed at `b`, a copy of it, while `a` adds it once more: the
merge of the two shows it, and `b` does not. -/
theorem value_of_reach_null :
    let x : Elem Unit := .json ()
    let a : Replica := add nullText ⟨units "a", none, [], [], 0⟩ x []
    let b : Replica := remove nullText (fromState (state a) (units "b") none) x
    let merged : Replica := merge (add nullText a x []) (state b)
    (∃ xs, value parseNull merged = some xs ∧ x ∈ xs ∧ has nullText merged x = true) ∧
      ∃ xs, value parseNull b = some xs ∧ x ∉ xs := by
  intro x a b merged
  let events : List (Event Unit) :=
    [.add x (tag ⟨units "a", none, [], [], 0⟩ []), .remove x [0], .add x (tag a [])]
  have hreach : Reach (step nullText) (fun w a => Fresh w a ∧ Reads nullText parseNull a)
      (World.init Unit)
      ⟨[(add nullText a x [], [0, 2]), (b, [0, 1]), (merged, [0, 2] ++ [0, 1])],
        [(state a, [0]), (state b, [0, 1])], events⟩ := by
    have hread : parseNull (nullText ()) = some () := if_pos rfl
    refine reach_of_meets [.create (units "a"), .add 0 x [], .snapshot 0, .restore 0 (units "b"),
      .remove 1 x, .add 0 x [], .snapshot 1, .merge 0 1] (.intro ⟨trivial, trivial⟩ (.intro
        ⟨fun _ _ _ hmem => (nomatch hmem), hread⟩ (.intro ⟨trivial, trivial⟩ (.intro
          ⟨trivial, trivial⟩ (.intro ⟨trivial, hread⟩ (.intro ⟨?_, hread⟩ (.intro
            ⟨trivial, trivial⟩ (.intro ⟨trivial, trivial⟩ trivial)))))))) rfl
    intro p hp y hmem
    cases hp
    rcases List.mem_cons.mp hmem with heq | hmem
    · exact absurd (Event.add.inj heq).2 (by decide)
    · exact nomatch List.mem_singleton.mp hmem
  obtain ⟨xs, hxs, hiff⟩ := value_of_reach hreach
    (List.mem_cons_of_mem _ (List.mem_cons_of_mem _ List.mem_cons_self))
  obtain ⟨ys, hys, hiff'⟩ := value_of_reach hreach (List.mem_cons_of_mem _ List.mem_cons_self)
  have hpresent : Present events ([0, 2] ++ [0, 1]) x := by
    refine ⟨2, by decide, ⟨_, rfl⟩, fun r hr observed hremove hobs => ?_⟩
    have hcases : r = 0 ∨ r = 2 ∨ r = 0 ∨ r = 1 := by simpa using hr
    rcases hcases with rfl | rfl | rfl | rfl
    · cases hremove
    · cases hremove
    · cases hremove
    · cases hremove
      exact absurd hobs (by decide)
  refine ⟨⟨xs, hxs, (hiff x).1.mpr hpresent, ((hiff x).2 (if_pos rfl)).mpr hpresent⟩,
    ys, hys, fun hmem => ?_⟩
  obtain ⟨a', ha', ⟨t, hadd⟩, hnone⟩ := (hiff' x).1.mp hmem
  have hcases : a' = 0 ∨ a' = 1 := by simpa using ha'
  rcases hcases with rfl | rfl
  · exact hnone 1 (by decide) [0] rfl (by decide)
  · cases hadd

/-- An object with a key `constructor`, and what `safeJson.parse` reads of its text. -/
inductive Party where
  | full
  | stripped

def Party.text : Party → JsString
  | .full => units "\x7b\"constructor\":\"ACME\",\"id\":7\x7d"
  | .stripped => units "\x7b\"id\":7\x7d"

/-- The parser drops the keys `__proto__`, `constructor` and `prototype`. -/
def Party.ofText (text : JsString) : Option Party :=
  if text = Party.full.text ∨ text = Party.stripped.text then some .stripped else none

/-- The set shows an element that nobody has added, in place of the one that was. -/
theorem stripped_shown :
    let s := add Party.text ⟨units "a", none, [], [], 0⟩ (.json .full) []
    ∃ w : World Party, Reach (step Party.text) Fresh (World.init Party) w ∧
      (s, [0]) ∈ w.sets ∧ value Party.ofText s = some [.json .stripped] ∧
      Present w.events [0] (.json .full) ∧ ¬ Present w.events [0] (.json .stripped) := by
  intro s
  refine ⟨⟨[(s, [0])], [], [.add (.json .full) (units "a:1:")]⟩,
    Reach.next (a := .add 0 (.json .full) []) (.next (a := .create (units "a")) .start trivial rfl)
      (fun _ _ _ hmem => (nomatch hmem)) rfl, List.mem_cons_self, rfl, ?_, ?_⟩
  · refine ⟨0, List.mem_cons_self, ⟨_, rfl⟩, fun r hr observed hremove => ?_⟩
    obtain rfl := List.mem_singleton.mp hr
    cases hremove
  · rintro ⟨a, ha, ⟨t, hadd⟩, -⟩
    obtain rfl := List.mem_singleton.mp ha
    cases hadd

end Blamejs.OrSet

/-!
## The two-phase set

What a set shows is told from the updates it has received. An element that was removed where it
was found is never shown again.
-/

namespace Blamejs.TwoPSet

open Js OrSet Run Replicas

variable {J : Type} {stringify : J → JsString} {parse : JsString → Option J}
  {received received' : List (Event J)} {s s' : State} {x : Elem J} {k : JsString}

theorem nodup_addAll {set : List JsString} (more : List JsString) (h : set.Nodup) :
    (addAll set more).Nodup := by
  induction more generalizing set with
  | nil => exact h
  | cons t more ih =>
      rw [addAll, List.foldl_cons]
      refine ih ?_
      split
      · exact h
      · next hmem => exact List.concat_eq_append .. ▸ List.Nodup.concat hmem h

/-- The elements are listed in the order of their keys, whatever the order of the set. -/
theorem decodeKeys_congr {keys keys' : List JsString} (h : keys.Nodup) (h' : keys'.Nodup)
    (hmem : ∀ k, k ∈ keys ↔ k ∈ keys') : decodeKeys parse keys = decodeKeys parse keys' := by
  have hperm : (keys.insertionSort unitLE).Perm (keys'.insertionSort unitLE) :=
    (List.perm_insertionSort unitLE keys).trans
      (((List.perm_ext_iff_of_nodup h h').mpr hmem).trans
        (List.perm_insertionSort unitLE keys').symm)
  rw [decodeKeys, decodeKeys, hperm.eq_of_pairwise (fun _ _ _ _ => unitLE_antisymm)
    (List.pairwise_insertionSort unitLE keys) (List.pairwise_insertionSort unitLE keys')]

/-- An element that was added, and that no remove received found added. -/
def Present (received : List (Event J)) (x : Elem J) : Prop :=
  .add x ∈ received ∧ ∀ observed, .remove x observed ∈ received → x ∉ observed

def Removed (received : List (Event J)) (x : Elem J) : Prop :=
  ∃ observed, .remove x observed ∈ received ∧ x ∈ observed

structure Tracks (stringify : J → JsString) (received : List (Event J)) (s : State) : Prop where
  nodup : s.adds.Nodup
  adds : ∀ k, k ∈ s.adds ↔ ∃ x, .add x ∈ received ∧ k = key stringify x
  removes : ∀ k, k ∈ s.removes ↔ ∃ x, Removed received x ∧ k = key stringify x

theorem mem_added : x ∈ added received ↔ .add x ∈ received := by
  rw [added, List.mem_filterMap]
  refine ⟨?_, fun hmem => ⟨_, hmem, rfl⟩⟩
  rintro ⟨_ | _, hmem, ⟨⟩⟩
  exact hmem

theorem removed_append : Removed (received ++ received') x ↔
    Removed received x ∨ Removed received' x := by
  unfold Removed
  simp only [List.mem_append, or_and_right, exists_or]

theorem Tracks.empty : Tracks stringify [] ⟨[], []⟩ where
  nodup := List.nodup_nil
  adds _ := ⟨fun h => (nomatch h), fun ⟨_, h, _⟩ => (nomatch h)⟩
  removes _ := ⟨fun h => (nomatch h), fun ⟨_, ⟨_, h, _⟩, _⟩ => (nomatch h)⟩

theorem Tracks.merge (h : Tracks stringify received s) (h' : Tracks stringify received' s') :
    Tracks stringify (received ++ received') (merge s s') where
  nodup := nodup_addAll _ h.nodup
  adds k := by
    rw [TwoPSet.merge, mem_addAll, h.adds, h'.adds]
    simp only [List.mem_append, or_and_right, exists_or]
  removes k := by
    rw [TwoPSet.merge, mem_addAll, h.removes, h'.removes]
    simp only [removed_append, or_and_right, exists_or]

/-- An `add` is a merge with the set of its element alone. -/
theorem Tracks.add (h : Tracks stringify received s) (x : Elem J) :
    Tracks stringify (received ++ [.add x]) (add stringify s x) := by
  have hown : Tracks stringify [.add x] ⟨[key stringify x], []⟩ := by
    refine ⟨List.nodup_singleton _, fun k => ?_, fun k => ?_⟩
    · simp
    · simp [Removed]
  exact h.merge hown

/-- A `remove` is a merge with a set without elements, that has removed what was found. -/
theorem Tracks.remove (hkey : Function.Injective (key stringify))
    (h : Tracks stringify received s) (x : Elem J) :
    Tracks stringify (received ++ [.remove x (added received)]) (remove stringify s x) := by
  have hfound : key stringify x ∈ s.adds ↔ x ∈ added received := by
    rw [h.adds, mem_added]
    exact ⟨fun ⟨y, hmem, heq⟩ => hkey heq ▸ hmem, fun hmem => ⟨x, hmem, rfl⟩⟩
  have hown : ∀ removes, (∀ k, k ∈ removes ↔ x ∈ added received ∧ k = key stringify x) →
      Tracks stringify [.remove x (added received)] ⟨[], removes⟩ := by
    refine fun removes hremoves => ⟨List.nodup_nil, fun k => ?_, fun k => ?_⟩
    · simp
    · rw [hremoves]
      simp [Removed]
  unfold TwoPSet.remove
  dsimp only
  split
  · next hmem => exact h.merge (hown [key stringify x] fun k => by simp [hfound.mp hmem])
  · next hmem => exact h.merge (hown [] fun k => by simp [mt hfound.mpr hmem])

theorem rules (hkey : Function.Injective (key stringify)) :
    Rules (object stringify) (fun _ => True) (Tracks stringify) fun _ _ _ => True where
  start := trivial
  log _ _ _ _ _ := trivial
  empty := Tracks.empty
  apply events p u _ _ h := by
    cases u with
    | add x => exact h.add x
    | remove x => exact h.remove hkey x
  merge _ _ _ _ _ _ _ _ h h' := h.merge h'

theorem Tracks.live_iff (hkey : Function.Injective (key stringify))
    (h : Tracks stringify received s) :
    key stringify x ∈ s.adds ∧ key stringify x ∉ s.removes ↔ Present received x := by
  rw [h.adds, h.removes]
  refine and_congr ⟨fun ⟨y, hmem, heq⟩ => hkey heq ▸ hmem, fun hmem => ⟨x, hmem, rfl⟩⟩ ?_
  constructor
  · intro hnone observed hmem hx
    exact hnone ⟨x, ⟨observed, hmem, hx⟩, rfl⟩
  · rintro hnone ⟨y, ⟨observed, hmem, hy⟩, heq⟩
    obtain rfl := hkey heq
    exact hnone observed hmem hy

theorem Tracks.mem_live (hkey : Function.Injective (key stringify))
    (h : Tracks stringify received s) :
    k ∈ s.adds.filter (· ∉ s.removes) ↔ ∃ x, k = key stringify x ∧ Present received x := by
  rw [List.mem_filter, decide_eq_true_eq]
  constructor
  · rintro ⟨hadd, hlive⟩
    obtain ⟨x, -, rfl⟩ := (h.adds k).mp hadd
    exact ⟨x, rfl, (h.live_iff hkey).mp ⟨hadd, hlive⟩⟩
  · rintro ⟨x, rfl, hpresent⟩
    exact (h.live_iff hkey).mpr hpresent

/-- In every run a replica shows the elements it knows to have been added and of which it knows
no remove that found them, and replicas that have received the same updates list the same
elements in the same order. -/
theorem shows_of_reach {w : World JsString State (Event J)}
    {p q : Replica JsString State (Event J)} (hjson : RoundTrips stringify parse)
    (h : Reach (step (object stringify)) (Updates fun _ _ _ => True) (World.init _ _ _) w)
    (hp : p ∈ w.replicas) (hq : q ∈ w.replicas) :
    (∃ xs, value parse p.state = some xs ∧ ∀ x, (x ∈ xs ↔ Present p.received x) ∧
      (has stringify p.state x = true ↔ Present p.received x)) ∧
    ((∀ e, e ∈ p.received ↔ e ∈ q.received) → value parse p.state = value parse q.state) := by
  have hkey := key_injective hjson
  have hinv := tracks_of_reach (rules hkey) h
  have hptracks := (hinv.replicas p hp).2
  have hqtracks := (hinv.replicas q hq).2
  refine ⟨?_, fun hsame => ?_⟩
  · obtain ⟨xs, hxs, hmem⟩ := mem_decodeKeys fun k hk =>
      ((hptracks.mem_live hkey).mp hk).imp fun x hx => ⟨hx.1, hjson.readsBack x⟩
    refine ⟨xs, hxs, fun x => ⟨(hmem x).trans ?_, ?_⟩⟩
    · rw [and_iff_right (hjson.readsBack x), List.mem_filter, decide_eq_true_eq]
      exact hptracks.live_iff hkey
    · rw [has, Bool.and_eq_true, decide_eq_true_eq, Bool.not_eq_true', decide_eq_false_iff_not]
      exact hptracks.live_iff hkey
  · refine decodeKeys_congr (hptracks.nodup.filter _) (hqtracks.nodup.filter _) fun k => ?_
    rw [hptracks.mem_live hkey, hqtracks.mem_live hkey]
    simp only [Present, hsame]

/-- `null` is added at `a` and removed at `b`, a copy of it, while `a` adds it once more: the
merge of the two does not show it, and lists the same in either order. -/
theorem shows_of_reach_null :
    let x : Elem Unit := .json ()
    let a := add nullText ⟨[], []⟩ x
    let b := remove nullText a x
    let a' := add nullText a x
    (∃ xs, value parseNull (merge a' b) = some xs ∧ x ∉ xs ∧ has nullText (merge a' b) x = false) ∧
      value parseNull (merge a' b) = value parseNull (merge b a') := by
  intro x a b a'
  let old : List (Event Unit) := [.add x]
  let left : Replica JsString State (Event Unit) :=
    ⟨units "a", merge a' b, old ++ [.add x] ++ (old ++ [.remove x [x]])⟩
  let right : Replica JsString State (Event Unit) :=
    ⟨units "b", merge b a', old ++ [.remove x [x]] ++ (old ++ [.add x])⟩
  have hreach : Reach (step (object nullText)) (Updates fun _ _ _ => True) (World.init _ _ _)
      ⟨[⟨units "a", a', old ++ [.add x]⟩, ⟨units "b", b, old ++ [.remove x [x]]⟩, left, right],
        [(a, old), (b, old ++ [.remove x [x]]), (a', old ++ [.add x])],
        [.add x, .remove x [x], .add x]⟩ := by
    have hany : ∀ (w : World JsString State (Event Unit)) (act : Act JsString (Update Unit)),
        Always w act → Updates (fun _ _ _ => True) w act := by
      rintro _ (_ | _ | _ | _ | _) _ <;> first | trivial | exact fun _ _ => trivial
    exact (reach_of_exec [.create (units "a"), .update 0 (.add x), .snapshot 0,
      .restore 0 (units "b"), .update 1 (.remove x), .update 0 (.add x), .snapshot 1, .snapshot 0,
      .merge 0 1, .merge 1 2] rfl).mono hany
  have hjson : RoundTrips nullText parseNull := fun _ => if_pos rfl
  obtain ⟨⟨xs, hxs, hiff⟩, hsame⟩ := shows_of_reach (p := left) (q := right) hjson hreach
    (.tail _ (.tail _ (.head _))) (.tail _ (.tail _ (.tail _ (.head _))))
  have hgone : ¬ Present left.received x := fun hpresent =>
    hpresent.2 [x] (.tail _ (.tail _ (.tail _ (.head _)))) (.head _)
  refine ⟨⟨xs, hxs, mt (hiff x).1.mp hgone, Bool.eq_false_iff.mpr (mt (hiff x).2.mp hgone)⟩,
    hsame fun e => ?_⟩
  simp only [left, right, old, List.mem_append, List.mem_singleton]
  tauto

end Blamejs.TwoPSet
