import Blamejs.Lib.Run

/-!
# Replicas that merge

An object that any number of replicas update on their own. Each holds a whole state and merges
snapshots of others, in any order and any number of times; a merge makes a new replica beside the
old one, and a snapshot can start one under any name.

Every update is an event, and a replica has received its own and those of the snapshots it was
made from. No step reads these: an object is right when its states follow from what was received,
and `tracks_of_reach` is the rule for that.
-/

namespace Replicas

open Run

universe u

variable {R S U E : Type u}

structure Object (R S U E : Type u) where
  empty : S
  apply : R → U → S → S
  merge : S → S → S
  /-- What is written down of an update where the given events have been received. -/
  event : R → U → List E → E

structure Replica (R S E : Type u) where
  id : R
  state : S
  received : List E

structure World (R S E : Type u) where
  replicas : List (Replica R S E)
  snapshots : List (S × List E)
  events : List E

def World.init (R S E : Type u) : World R S E := ⟨[], [], []⟩

inductive Act (R U : Type u) where
  | create (id : R)
  | update (i : Nat) (u : U)
  | snapshot (i : Nat)
  | merge (i k : Nat)
  | restore (k : Nat) (id : R)

def step (o : Object R S U E) (w : World R S E) : Act R U → Option (World R S E)
  | .create id => some { w with replicas := w.replicas ++ [⟨id, o.empty, []⟩] }
  | .update i u => do
      let p ← w.replicas[i]?
      let e := o.event p.id u p.received
      some { w with
        replicas := w.replicas.set i ⟨p.id, o.apply p.id u p.state, p.received ++ [e]⟩
        events := w.events ++ [e] }
  | .snapshot i => do
      let p ← w.replicas[i]?
      some { w with snapshots := w.snapshots ++ [(p.state, p.received)] }
  | .merge i k => do
      let p ← w.replicas[i]?
      let s ← w.snapshots[k]?
      some { w with
        replicas := w.replicas ++ [⟨p.id, o.merge p.state s.1, p.received ++ s.2⟩] }
  | .restore k id => do
      let s ← w.snapshots[k]?
      some { w with replicas := w.replicas ++ [⟨id, s.1, s.2⟩] }

/-- Every update of the run meets `ok`. -/
def Updates (ok : List E → Replica R S E → U → Prop) (w : World R S E) : Act R U → Prop
  | .update i u => ∀ p, w.replicas[i]? = some p → ok w.events p u
  | _ => True

/-- What makes `Tracks received state` hold in every run whose updates meet `ok`, with `Log` for
what is so of the events of the run. -/
structure Rules (o : Object R S U E) (Log : List E → Prop) (Tracks : List E → S → Prop)
    (ok : List E → Replica R S E → U → Prop) : Prop where
  start : Log []
  log : ∀ events (p : Replica R S E) u, Log events → ok events p u →
    Log (events ++ [o.event p.id u p.received])
  empty : Tracks [] o.empty
  apply : ∀ events (p : Replica R S E) u, Log (events ++ [o.event p.id u p.received]) →
    p.received ⊆ events → Tracks p.received p.state →
    Tracks (p.received ++ [o.event p.id u p.received]) (o.apply p.id u p.state)
  merge : ∀ events received received' s s', Log events → received ⊆ events →
    received' ⊆ events → Tracks received s → Tracks received' s' →
    Tracks (received ++ received') (o.merge s s')

/-- The replicas and the snapshots follow from what they have received. -/
structure Inv (Log : List E → Prop) (Tracks : List E → S → Prop) (w : World R S E) : Prop where
  log : Log w.events
  replicas : ∀ p ∈ w.replicas, p.received ⊆ w.events ∧ Tracks p.received p.state
  snapshots : ∀ s ∈ w.snapshots, s.2 ⊆ w.events ∧ Tracks s.2 s.1

variable {o : Object R S U E} {Log : List E → Prop} {Tracks : List E → S → Prop}
  {ok : List E → Replica R S E → U → Prop} {w w' : World R S E}

theorem Inv.add {p : Replica R S E} (h : Inv Log Tracks w) (hsub : p.received ⊆ w.events)
    (hp : Tracks p.received p.state) :
    Inv Log Tracks { w with replicas := w.replicas ++ [p] } where
  log := h.log
  replicas q hq := by
    rcases List.mem_append.mp hq with hq | hq
    · exact h.replicas q hq
    · rw [List.mem_singleton.mp hq]
      exact ⟨hsub, hp⟩
  snapshots := h.snapshots

theorem Inv.step {a : Act R U} (hrules : Rules o Log Tracks ok) (h : Inv Log Tracks w)
    (hok : Updates ok w a) (hs : step o w a = some w') : Inv Log Tracks w' := by
  cases a with
  | create id =>
      cases hs
      exact h.add (List.nil_subset _) hrules.empty
  | update i u =>
      obtain ⟨p, hp, hs⟩ := Option.bind_eq_some_iff.mp hs
      cases hs
      obtain ⟨hsub, htracks⟩ := h.replicas p (List.mem_of_getElem? hp)
      have hlog := hrules.log _ p u h.log (hok p hp)
      refine ⟨hlog, fun q hq => ?_, fun s hs => ?_⟩
      · rcases List.mem_or_eq_of_mem_set hq with hq | rfl
        · obtain ⟨hqsub, hq⟩ := h.replicas q hq
          exact ⟨List.subset_append_of_subset_left _ hqsub, hq⟩
        · exact ⟨List.append_subset.mpr
            ⟨List.subset_append_of_subset_left _ hsub, List.subset_append_right _ _⟩,
            hrules.apply _ p u hlog hsub htracks⟩
      · obtain ⟨hssub, hs⟩ := h.snapshots s hs
        exact ⟨List.subset_append_of_subset_left _ hssub, hs⟩
  | snapshot i =>
      obtain ⟨p, hp, hs⟩ := Option.bind_eq_some_iff.mp hs
      cases hs
      refine { h with snapshots := fun s hs => ?_ }
      rcases List.mem_append.mp hs with hs | hs
      · exact h.snapshots s hs
      · rw [List.mem_singleton.mp hs]
        exact h.replicas p (List.mem_of_getElem? hp)
  | merge i k =>
      obtain ⟨p, hp, hs⟩ := Option.bind_eq_some_iff.mp hs
      obtain ⟨s, hs', hs⟩ := Option.bind_eq_some_iff.mp hs
      cases hs
      obtain ⟨hsub, htracks⟩ := h.replicas p (List.mem_of_getElem? hp)
      obtain ⟨hssub, hstracks⟩ := h.snapshots s (List.mem_of_getElem? hs')
      exact h.add (List.append_subset.mpr ⟨hsub, hssub⟩)
        (hrules.merge _ _ _ _ _ h.log hsub hssub htracks hstracks)
  | restore k id =>
      obtain ⟨s, hs', hs⟩ := Option.bind_eq_some_iff.mp hs
      cases hs
      obtain ⟨hssub, hstracks⟩ := h.snapshots s (List.mem_of_getElem? hs')
      exact h.add hssub hstracks

/-- The rule for objects that merge. -/
theorem tracks_of_reach (hrules : Rules o Log Tracks ok)
    (h : Reach (step o) (Updates ok) (World.init R S E) w) : Inv Log Tracks w := by
  refine h.invariant ⟨hrules.start, ?_, ?_⟩ fun _ _ _ hinv hok hstep => hinv.step hrules hok hstep
  · exact fun p hp => absurd hp List.not_mem_nil
  · exact fun s hs => absurd hs List.not_mem_nil

end Replicas
