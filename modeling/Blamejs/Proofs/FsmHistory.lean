import Blamejs.Ref.Fsm

/-!
# The history of an instance is a path

Whatever the guards and hooks do, and however the calls are interleaved, the
entries an instance gains are a path of declared transitions from the state it
was built in to the state it is in. The lock is what makes this an easy
induction: at most one call is between its start and its settling, so a stretch
of `_runTransition` between two awaits either leaves state and history alone or
appends the one edge out of the current state. `Stretch` says exactly that, the
three stretches are shown to be one, and the invariant follows from it alone.

The bookkeeping of who contributed what is `St.contributions`: the entries of
the settled calls in the order they settled, then the one of the call that
waits for `onEnter`.
-/

namespace Blamejs.Fsm

open Blamejs.Js Checked Run

variable {C V : Type}

/-- The entry takes a transition of the definition. -/
def Declared (d : Definition) (e : HistoryEntry V) : Prop :=
  ∃ ts t, d.transitions = some ts ∧ some t ∈ ts ∧ t.fromState = .str e.fromState ∧
    t.toState = .str e.toState ∧ t.on = .str e.on

/-- The entries lead from one state to another, each by a declared transition. -/
def Path (d : Definition) : JsString → List (HistoryEntry V) → JsString → Prop
  | a, [], b => a = b
  | a, e :: es, b => e.fromState = a ∧ Declared d e ∧ Path d e.toState es b

/-- What a call that settled this way put into the history. -/
def Outcome.entries : Outcome V → List (HistoryEntry V)
  | .fulfilled e => [e]
  | .enterThrew e _ => [e]
  | _ => []

/-- What a call that waits here has put into the history. -/
def Waiting.entries : Waiting V → List (HistoryEntry V)
  | .exiting _ => []
  | .entering e => [e]

def St.contributions (s : St C V) : List (HistoryEntry V) :=
  s.settled.flatMap (fun x => x.2.entries) ++ s.running.elim [] (fun x => x.2.entries)

/-- The entry is the one this call asked for. -/
def OwnEntry (c : Call V) (e : HistoryEntry V) : Prop :=
  c.name = .str e.on ∧ e.actor = c.opts.actor ∧ e.metadata = c.opts.metadata

theorem Path.append {d : Definition} {a b c : JsString} {es fs : List (HistoryEntry V)}
    (h : Path d a es b) (h' : Path d b fs c) : Path d a (es ++ fs) c := by
  induction es generalizing a with
  | nil =>
      have hab : a = b := h
      exact hab ▸ h'
  | cons e es ih => exact ⟨h.1, h.2.1, ih h.2.2⟩

theorem Path.snoc {d : Definition} {a : JsString} {es : List (HistoryEntry V)}
    {e : HistoryEntry V} (h : Path d a es e.fromState) (he : Declared d e) :
    Path d a (es ++ [e]) e.toState :=
  h.append ⟨rfl, he, rfl⟩

/-! ## What `define` lets through -/

theorem assertIdent_ok {value : Named} {label s : JsString} (h : assertIdent value label = .ok s) :
    value = .str s := by
  cases value with
  | str s' =>
      rw [assertIdent] at h
      split at h
      · injection h with h
        rw [h]
      · cases h
  | other json => cases h

theorem checkTransition_ok {states : List (JsString × StateBody)} {seen : List Edge} {index : Nat}
    {entry : Option TransitionDef} {e : Edge}
    (h : checkTransition states seen index entry = .ok e) :
    ∃ t, entry = some t ∧ t.fromState = .str e.fromState ∧ t.toState = .str e.toState ∧
      t.on = .str e.on := by
  cases entry with
  | none => cases h
  | some t =>
      obtain ⟨fromState, hfrom, h⟩ := bind_eq_ok.mp h
      obtain ⟨toState, hto, h⟩ := bind_eq_ok.mp h
      obtain ⟨on, hon, h⟩ := bind_eq_ok.mp h
      obtain ⟨-, -, h⟩ := bind_eq_ok.mp h
      obtain ⟨-, -, h⟩ := bind_eq_ok.mp h
      obtain ⟨-, -, h⟩ := bind_eq_ok.mp h
      obtain ⟨-, -, h⟩ := bind_eq_ok.mp h
      injection h with h
      subst h
      exact ⟨t, rfl, assertIdent_ok hfrom, assertIdent_ok hto, assertIdent_ok hon⟩

theorem checkTransitions_ok {states : List (JsString × StateBody)}
    {ts : List (Option TransitionDef)} {seen edges : List Edge} {index : Nat}
    (h : checkTransitions states seen index ts = .ok edges) {e : Edge} (he : e ∈ edges) :
    e ∈ seen ∨ ∃ t, some t ∈ ts ∧ t.fromState = .str e.fromState ∧ t.toState = .str e.toState ∧
      t.on = .str e.on := by
  induction ts generalizing seen index with
  | nil =>
      rw [checkTransitions] at h
      injection h with h
      exact .inl (h ▸ he)
  | cons entry ts ih =>
      obtain ⟨e', he', h⟩ := bind_eq_ok.mp h
      rcases ih h with hseen | ⟨t, ht, hfields⟩
      · rcases List.mem_append.mp hseen with hseen | hnew
        · exact .inl hseen
        · obtain ⟨t, rfl, hfields⟩ := checkTransition_ok he'
          rw [List.mem_singleton.mp hnew]
          exact .inr ⟨t, List.mem_cons_self, hfields⟩
      · exact .inr ⟨t, List.mem_cons_of_mem _ ht, hfields⟩

/-- Every edge of a compiled machine is one the definition declares. -/
theorem declared_of_define {d : Definition} {m : Machine} (h : define d = .ok m) {edge : Edge}
    (hedge : edge ∈ m.transitions) {e : HistoryEntry V} (hfrom : e.fromState = edge.fromState)
    (hto : e.toState = edge.toState) (hon : e.on = edge.on) : Declared d e := by
  obtain ⟨_, -, h⟩ := bind_eq_ok.mp h
  obtain ⟨_, -, h⟩ := bind_eq_ok.mp h
  obtain ⟨_, -, h⟩ := bind_eq_ok.mp h
  obtain ⟨ts, hts, h⟩ := bind_eq_ok.mp h
  obtain ⟨-, -, h⟩ := bind_eq_ok.mp h
  obtain ⟨-, -, h⟩ := bind_eq_ok.mp h
  obtain ⟨-, -, h⟩ := bind_eq_ok.mp h
  obtain ⟨-, -, h⟩ := bind_eq_ok.mp h
  obtain ⟨edges, hedges, h⟩ := bind_eq_ok.mp h
  injection h with h
  subst h
  have hdef : d.transitions = some ts := by
    cases htr : d.transitions with
    | none =>
        rw [htr] at hts
        cases hts
    | some ts' =>
        rw [htr] at hts
        injection hts with hts
        rw [hts]
  rcases checkTransitions_ok hedges hedge with hnil | ⟨t, ht, h1, h2, h3⟩
  · cases hnil
  · exact ⟨ts, t, hdef, ht, hfrom ▸ h1, hto ▸ h2, hon ▸ h3⟩

theorem matchEdge_ok {m : Machine} {state : JsString} {name : Named} {edge : Edge}
    (h : matchEdge m state name = .ok edge) :
    edge ∈ m.transitions ∧ edge.fromState = state ∧ name = .str edge.on := by
  cases name with
  | other json => cases h
  | str name =>
      rw [matchEdge] at h
      split at h
      · cases h
      · split at h
        · next found hfind =>
            injection h with h
            subst h
            have hmem := List.mem_filter.mp (List.mem_of_find?_eq_some hfind)
            have hstate := List.find?_some hfind
            simp only [beq_iff_eq] at hmem hstate
            exact ⟨hmem.1, hstate, by rw [hmem.2]⟩
        · cases h

/-! ## The stretches between two awaits -/

/-- What a stretch of the call `c` does to the instance. -/
inductive Stretch (m : Machine) (c : Call V) (s s' : St C V) : Prop
  /-- nothing: the call was refused, or waits for `onExit` -/
  | stays (hstate : s'.inst.state = s.inst.state) (hhistory : s'.inst.history = s.inst.history)
      (hend : (∃ o, o.entries = [] ∧ s'.settled = s.settled ++ [(c, o)] ∧ s'.running = none) ∨
        ∃ edge ∈ m.transitions, edge.fromState = s.inst.state ∧ c.name = .str edge.on ∧
          s'.settled = s.settled ∧ s'.running = some (c, .exiting edge))
  /-- the commit of one edge out of the current state -/
  | commits (edge : Edge) (e : HistoryEntry V) (hedge : edge ∈ m.transitions)
      (hfrom : edge.fromState = s.inst.state) (he : e.fromState = edge.fromState ∧
        e.toState = edge.toState ∧ e.on = edge.on) (hown : OwnEntry c e)
      (hstate : s'.inst.state = e.toState) (hhistory : s'.inst.history = s.inst.history ++ [e])
      (hend : (∃ o, o.entries = [e] ∧ s'.settled = s.settled ++ [(c, o)] ∧ s'.running = none) ∨
        s'.settled = s.settled ∧ s'.running = some (c, .entering e))

theorem emit_spec (s : St C V) (c : Call V) (e : HistoryEntry V) (enterErr : Option Thrown) :
    (s.emit c e enterErr).inst = s.inst ∧ (s.emit c e enterErr).settled = s.settled := by
  unfold St.emit
  split
  · exact ⟨rfl, rfl⟩
  · exact ⟨rfl, rfl⟩

theorem finish_spec (s : St C V) (c : Call V) (e : HistoryEntry V) (enterErr : Option Thrown) :
    (s.finish c e enterErr).inst = s.inst ∧
    ∃ o, o.entries = [e] ∧ (s.finish c e enterErr).settled = s.settled ++ [(c, o)] ∧
      (s.finish c e enterErr).running = none := by
  unfold St.finish
  split
  · next thrown _ =>
      obtain ⟨hinst, hsettled⟩ := emit_spec s c e (some thrown)
      exact ⟨hinst, .enterThrew e thrown, rfl, by rw [← hsettled]; rfl, rfl⟩
  · obtain ⟨hinst, hsettled⟩ := emit_spec s c e none
    exact ⟨hinst, .fulfilled e, rfl, by rw [← hsettled]; rfl, rfl⟩

theorem commit_stretch {m : Machine} {s s₀ : St C V} {c : Call V} {edge : Edge}
    (nowMs : Int) (enter : HookResult C) (hedge : edge ∈ m.transitions)
    (hfrom : edge.fromState = s.inst.state) (hname : c.name = .str edge.on)
    (hstate : s.inst.state = s₀.inst.state) (hhistory : s.inst.history = s₀.inst.history)
    (hsettled : s.settled = s₀.settled) : Stretch m c s₀ (s.commit m c edge nowMs enter) := by
  have hown : OwnEntry c (⟨edge.fromState, edge.toState, edge.on, nowMs, c.opts.actor,
      c.opts.metadata⟩ : HistoryEntry V) := ⟨hname, rfl, rfl⟩
  have hfin : ∀ (s' : St C V) (err : Option Thrown), s'.inst.state = edge.toState →
      s'.inst.history = s₀.inst.history ++ [⟨edge.fromState, edge.toState, edge.on, nowMs,
        c.opts.actor, c.opts.metadata⟩] → s'.settled = s₀.settled →
      Stretch m c s₀ (s'.finish c ⟨edge.fromState, edge.toState, edge.on, nowMs, c.opts.actor,
        c.opts.metadata⟩ err) := by
    intro s' err hst hhist hset
    obtain ⟨hinst, o, ho, hs, hr⟩ := finish_spec s' c ⟨edge.fromState, edge.toState, edge.on,
      nowMs, c.opts.actor, c.opts.metadata⟩ err
    exact .commits edge _ hedge (hfrom.trans hstate) ⟨rfl, rfl, rfl⟩ hown (by rw [hinst, hst])
      (by rw [hinst, hhist]) (.inl ⟨o, ho, by rw [hs, hset], hr⟩)
  unfold St.commit
  by_cases hhook : (hooksOf m edge.toState).onEnter = true
  · simp only [if_pos hhook]
    cases enter with
    | returned context => exact hfin _ _ rfl (by rw [← hhistory]) hsettled
    | threw thrown context => exact hfin _ _ rfl (by rw [← hhistory]) hsettled
    | promised context =>
        exact .commits edge _ hedge (hfrom.trans hstate) ⟨rfl, rfl, rfl⟩ hown rfl
          (by rw [← hhistory]) (.inr ⟨hsettled, rfl⟩)
  · simp only [if_neg hhook]
    exact hfin _ _ rfl (by rw [← hhistory]) hsettled

theorem leave_stretch {m : Machine} {s s₀ : St C V} {c : Call V} {edge : Edge}
    (nowMs : Int) (exit enter : HookResult C) (hedge : edge ∈ m.transitions)
    (hfrom : edge.fromState = s.inst.state) (hname : c.name = .str edge.on)
    (hstate : s.inst.state = s₀.inst.state) (hhistory : s.inst.history = s₀.inst.history)
    (hsettled : s.settled = s₀.settled) :
    Stretch m c s₀ (s.leave m c edge nowMs exit enter) := by
  unfold St.leave
  by_cases hhook : (hooksOf m s.inst.state).onExit = true
  · rw [if_pos hhook]
    cases exit with
    | returned context => exact commit_stretch _ _ hedge hfrom hname hstate hhistory hsettled
    | threw thrown context =>
        exact .stays hstate hhistory (.inl ⟨_, rfl, by rw [← hsettled]; rfl, rfl⟩)
    | promised context =>
        exact .stays hstate hhistory
          (.inr ⟨edge, hedge, hfrom.trans hstate, hname, hsettled, rfl⟩)
  · rw [if_neg hhook]
    exact commit_stretch _ _ hedge hfrom hname hstate hhistory hsettled

theorem run_stretch {m : Machine} {s s₀ : St C V} (c : Call V) (nowMs : Int)
    (guard : GuardResult C) (exit enter : HookResult C) (hinst : s.inst = s₀.inst)
    (hsettled : s.settled = s₀.settled) :
    Stretch m c s₀ (s.run m c nowMs guard exit enter) := by
  have hstate : s.inst.state = s₀.inst.state := by rw [hinst]
  have hhistory : s.inst.history = s₀.inst.history := by rw [hinst]
  unfold St.run
  split
  · exact .stays hstate hhistory (.inl ⟨_, rfl, by rw [← hsettled]; rfl, rfl⟩)
  · next edge hmatch =>
      obtain ⟨hedge, hfrom, hname⟩ := matchEdge_ok hmatch
      by_cases hguard : edge.guarded = true
      · rw [if_pos hguard]
        cases guard with
        | threw thrown context =>
            exact .stays hstate hhistory (.inl ⟨_, rfl, by rw [← hsettled]; rfl, rfl⟩)
        | verdict isTrue context =>
            cases isTrue with
            | true => exact leave_stretch _ _ _ hedge hfrom hname hstate hhistory hsettled
            | false => exact .stays hstate hhistory (.inl ⟨_, rfl, by rw [← hsettled]; rfl, rfl⟩)
      · rw [if_neg hguard]
        exact leave_stretch _ _ _ hedge hfrom hname hstate hhistory hsettled

/-! ## Whole runs -/

/-- What holds at every moment of an instance built as `i`. -/
structure Accounts (d : Definition) (m : Machine) (i : Instance C V) (s : St C V) : Prop where
  history : s.inst.history = i.history ++ s.contributions
  path : Path d i.state s.contributions s.inst.state
  settledOwn : ∀ c o, (c, o) ∈ s.settled → ∀ e ∈ o.entries, OwnEntry c e
  exiting : ∀ c edge, s.running = some (c, .exiting edge) →
    edge ∈ m.transitions ∧ edge.fromState = s.inst.state ∧ c.name = .str edge.on
  entering : ∀ c e, s.running = some (c, .entering e) → OwnEntry c e

/-- A step either leaves state, history and contributions alone or adds one entry
to all of them. -/
def Moves (d : Definition) (s s' : St C V) : Prop :=
  (s'.inst.state = s.inst.state ∧ s'.inst.history = s.inst.history ∧
    s'.contributions = s.contributions) ∨
  ∃ e, Declared d e ∧ e.fromState = s.inst.state ∧ s'.inst.state = e.toState ∧
    s'.inst.history = s.inst.history ++ [e] ∧ s'.contributions = s.contributions ++ [e]

theorem idle_absurd {s : St C V} (hrun : s.running = none) {c : Call V} {w : Waiting V}
    (h : s.running = some (c, w)) {p : Prop} : p := by
  rw [hrun] at h
  cases h

theorem contributions_settle {s s' : St C V} {c : Call V} {o : Outcome V}
    (hsettled : s'.settled = s.settled ++ [(c, o)]) (hrunning : s'.running = none) :
    s'.contributions = s.settled.flatMap (fun x => x.2.entries) ++ o.entries := by
  rw [St.contributions, hsettled, hrunning, List.flatMap_append, List.flatMap_singleton]
  exact List.append_nil _

theorem contributions_idle {s : St C V}
    (hrunning : ∀ c w, s.running = some (c, w) → w.entries = []) :
    s.contributions = s.settled.flatMap fun x => x.2.entries := by
  unfold St.contributions
  cases hr : s.running with
  | none => exact List.append_nil _
  | some x =>
      obtain ⟨c, w⟩ := x
      show _ ++ w.entries = _
      rw [hrunning c w hr, List.append_nil]

/-- What a stretch does to the ledger, when the call has contributed nothing yet. -/
theorem Stretch.moves {d : Definition} {m : Machine} (hd : define d = .ok m) {c : Call V}
    {s s' : St C V} (hrunning : ∀ c w, s.running = some (c, w) → w.entries = [])
    (h : Stretch m c s s') : Moves d s s' := by
  cases h with
  | stays hstate hhistory hend =>
      refine .inl ⟨hstate, hhistory, ?_⟩
      rcases hend with ⟨o, ho, hsettled, hrun⟩ | ⟨edge, -, -, -, hsettled, hrun⟩
      · rw [contributions_settle hsettled hrun, ho, List.append_nil, contributions_idle hrunning]
      · rw [contributions_idle hrunning, St.contributions, hsettled, hrun]
        exact List.append_nil _
  | commits edge e hedge hfrom he hown hstate hhistory hend =>
      refine .inr ⟨e, declared_of_define hd hedge he.1 he.2.1 he.2.2, he.1.trans hfrom, hstate,
        hhistory, ?_⟩
      rcases hend with ⟨o, ho, hsettled, hrun⟩ | ⟨hsettled, hrun⟩
      · rw [contributions_settle hsettled hrun, ho, contributions_idle hrunning]
      · rw [contributions_idle hrunning, St.contributions, hsettled, hrun]
        rfl

theorem Moves.history {d : Definition} {i : Instance C V} {s s' : St C V} (h : Moves d s s')
    (hhistory : s.inst.history = i.history ++ s.contributions)
    (hpath : Path d i.state s.contributions s.inst.state) :
    s'.inst.history = i.history ++ s'.contributions ∧
      Path d i.state s'.contributions s'.inst.state := by
  rcases h with ⟨h1, h2, h3⟩ | ⟨e, he, h1, h2, h3, h4⟩
  · rw [h1, h2, h3]
    exact ⟨hhistory, hpath⟩
  · rw [h2, h3, h4, hhistory, List.append_assoc]
    exact ⟨rfl, Path.snoc (h1 ▸ hpath) he⟩

theorem Stretch.accounts {d : Definition} {m : Machine} (hd : define d = .ok m) {c : Call V}
    {i : Instance C V} {s s' : St C V}
    (hrunning : ∀ c w, s.running = some (c, w) → w.entries = []) (h : Stretch m c s s')
    (hs : Accounts d m i s) : Accounts d m i s' := by
  obtain ⟨hhistory, hpath⟩ := (h.moves hd hrunning).history hs.history hs.path
  have hsettle : ∀ o, (∀ e ∈ o.entries, OwnEntry c e) → s'.settled = s.settled ++ [(c, o)] →
      ∀ c' o', (c', o') ∈ s'.settled → ∀ e ∈ o'.entries, OwnEntry c' e := by
    intro o ho hsettled c' o' hmem
    rw [hsettled] at hmem
    rcases List.mem_append.mp hmem with hold | hnew
    · exact hs.settledOwn c' o' hold
    · obtain ⟨rfl, rfl⟩ := Prod.mk.inj (List.mem_singleton.mp hnew)
      exact ho
  cases h with
  | stays hstate hhist hend =>
      rcases hend with ⟨o, ho, hsettled, hrun⟩ | ⟨edge, hedge, hfrom, hname, hsettled, hrun⟩
      · refine ⟨hhistory, hpath, hsettle o ?_ hsettled, ?_, ?_⟩
        · rw [ho]
          exact fun e he => (List.not_mem_nil he).elim
        · exact fun _ _ h => idle_absurd hrun h
        · exact fun _ _ h => idle_absurd hrun h
      · refine ⟨hhistory, hpath, hsettled ▸ hs.settledOwn, ?_, ?_⟩
        · intro c' edge' h
          rw [hrun] at h
          cases h
          exact ⟨hedge, hfrom.trans hstate.symm, hname⟩
        · intro c' e h
          rw [hrun] at h
          cases h
  | commits edge e hedge hfrom he hown hstate hhist hend =>
      rcases hend with ⟨o, ho, hsettled, hrun⟩ | ⟨hsettled, hrun⟩
      · refine ⟨hhistory, hpath, hsettle o ?_ hsettled, ?_, ?_⟩
        · rw [ho]
          exact fun e' he' => List.mem_singleton.mp he' ▸ hown
        · exact fun _ _ h => idle_absurd hrun h
        · exact fun _ _ h => idle_absurd hrun h
      · refine ⟨hhistory, hpath, hsettled ▸ hs.settledOwn, ?_, ?_⟩
        · intro c' edge' h
          rw [hrun] at h
          cases h
        · intro c' e' h
          rw [hrun] at h
          cases h
          exact hown

/-- The end of `onEnter`: state, history and ledger stay, the call settles. -/
theorem finish_accounts {d : Definition} {m : Machine} {i : Instance C V} {s : St C V}
    {c : Call V} {e : HistoryEntry V} (context : C) (enterErr : Option Thrown)
    (hrun : s.running = some (c, .entering e)) (hs : Accounts d m i s) :
    Accounts d m i ({ s with inst.context := context }.finish c e enterErr) ∧
      Moves d s ({ s with inst.context := context }.finish c e enterErr) := by
  obtain ⟨hinst, o, ho, hsettled, hrun'⟩ :=
    finish_spec { s with inst.context := context } c e enterErr
  have hstate : ({ s with inst.context := context }.finish c e enterErr).inst.state =
      s.inst.state := by rw [hinst]
  have hhist : ({ s with inst.context := context }.finish c e enterErr).inst.history =
      s.inst.history := by rw [hinst]
  have hsame : ({ s with inst.context := context }.finish c e enterErr).contributions =
      s.contributions := by
    rw [contributions_settle hsettled hrun', ho, St.contributions, hrun]
    rfl
  have hmoves : Moves d s ({ s with inst.context := context }.finish c e enterErr) :=
    .inl ⟨hstate, hhist, hsame⟩
  obtain ⟨h1, h2⟩ := hmoves.history hs.history hs.path
  refine ⟨⟨h1, h2, ?_, ?_, ?_⟩, hmoves⟩
  · intro c' o' hmem
    rw [hsettled] at hmem
    rcases List.mem_append.mp hmem with hold | hnew
    · exact hs.settledOwn c' o' hold
    · obtain ⟨rfl, rfl⟩ := Prod.mk.inj (List.mem_singleton.mp hnew)
      rw [ho]
      exact fun e' he' => List.mem_singleton.mp he' ▸ hs.entering _ e hrun
  · exact fun _ _ h => idle_absurd hrun' h
  · exact fun _ _ h => idle_absurd hrun' h

/-- Steps that touch neither the ledger nor the instance's state and history. -/
theorem Accounts.of_same {d : Definition} {m : Machine} {i : Instance C V} {s s' : St C V}
    (hs : Accounts d m i s) (hstate : s'.inst.state = s.inst.state)
    (hhistory : s'.inst.history = s.inst.history) (hsettled : s'.settled = s.settled)
    (hrunning : s'.running = s.running) : Accounts d m i s' ∧ Moves d s s' := by
  have hsame : s'.contributions = s.contributions := by
    rw [St.contributions, hsettled, hrunning, St.contributions]
  refine ⟨⟨?_, ?_, hsettled ▸ hs.settledOwn, ?_, hrunning ▸ hs.entering⟩,
    .inl ⟨hstate, hhistory, hsame⟩⟩
  · rw [hhistory, hsame]
    exact hs.history
  · rw [hsame, hstate]
    exact hs.path
  · rw [hrunning, hstate]
    exact hs.exiting

theorem step_accounts {d : Definition} {m : Machine} (hd : define d = .ok m) {i : Instance C V}
    {s s' : St C V} {a : Action C V} (hs : Accounts d m i s) (h : step m s a = some s') :
    Accounts d m i s' ∧ Moves d s s' := by
  cases a with
  | call c =>
      injection h with h
      subst h
      exact hs.of_same rfl rfl rfl rfl
  | touch context =>
      injection h with h
      subst h
      exact hs.of_same rfl rfl rfl rfl
  | start nowMs guard exit enter =>
      rw [step] at h
      split at h
      · next c rest hrun hqueue =>
          injection h with h
          subst h
          have hidle : ∀ c w, s.running = some (c, w) → w.entries = [] :=
            fun _ _ h => idle_absurd hrun h
          have hstretch : Stretch m c s ({ s with queue := rest }.run m c nowMs guard exit enter) :=
            run_stretch c nowMs guard exit enter rfl rfl
          exact ⟨hstretch.accounts hd hidle hs, hstretch.moves hd hidle⟩
      · cases h
  | exited r context nowMs enter =>
      rw [step] at h
      split at h
      · next c edge hrun =>
          obtain ⟨hedge, hfrom, hname⟩ := hs.exiting c edge hrun
          have hidle : ∀ c w, s.running = some (c, w) → w.entries = [] := by
            intro c' w hw
            rw [hrun] at hw
            cases hw
            rfl
          cases r with
          | resolved =>
              injection h with h
              subst h
              have hstretch : Stretch m c s
                  (({ s with inst.context := context } : St C V).commit m c edge nowMs enter) :=
                commit_stretch nowMs enter hedge hfrom hname rfl rfl rfl
              exact ⟨hstretch.accounts hd hidle hs, hstretch.moves hd hidle⟩
          | rejected thrown =>
              injection h with h
              subst h
              have hstretch : Stretch m c s
                  ({ s with inst.context := context }.settle c (.exitThrew thrown)) :=
                .stays rfl rfl (.inl ⟨_, rfl, rfl, rfl⟩)
              exact ⟨hstretch.accounts hd hidle hs, hstretch.moves hd hidle⟩
      · cases h
  | entered r context =>
      rw [step] at h
      split at h
      · next c e hrun =>
          cases r with
          | resolved =>
              injection h with h
              subst h
              exact finish_accounts context none hrun hs
          | rejected thrown =>
              injection h with h
              subst h
              exact finish_accounts context (some thrown) hrun hs
      · cases h

theorem init_accounts (d : Definition) (m : Machine) (i : Instance C V) :
    Accounts d m i (St.init i) where
  history := (List.append_nil _).symm
  path := rfl
  settledOwn := fun _ _ h => (List.not_mem_nil h).elim
  exiting := fun _ _ h => idle_absurd rfl h
  entering := fun _ _ h => idle_absurd rfl h

/-- In every reachable state of an instance of a compiled machine, `i` being what
`create` or `restore` answered: the history is the one the instance was built
with followed by a path of declared transitions from its first state to the one
it is in, and that path is made of the settled calls' entries, in order, and
the entry of the call that waits for `onEnter`. A fulfilled call and one
rejected by `onEnter` have one entry, their own; any other rejected call has
none, and no step it was party to changed state or history. -/
theorem history_isPath {d : Definition} {m : Machine} (hd : define d = .ok m)
    (i : Instance C V) {s : St C V} (h : Reach (step m) Always (St.init i) s) :
    s.inst.history = i.history ++ s.contributions ∧
    Path d i.state s.contributions s.inst.state ∧
    (∀ q, Path d q i.history i.state → Path d q s.inst.history s.inst.state) ∧
    (∀ c o, (c, o) ∈ s.settled → ∀ e ∈ o.entries, OwnEntry c e) ∧
    ∀ a s', step m s a = some s' → Moves d s s' := by
  have hs : Accounts d m i s :=
    h.invariant (init_accounts d m i) fun _ _ _ hI _ hstep => (step_accounts hd hI hstep).1
  refine ⟨hs.history, hs.path, fun q hq => ?_, hs.settledOwn,
    fun a s' hstep => (step_accounts hd hs hstep).2⟩
  rw [hs.history]
  exact hq.append hs.path

/-- A door that calls a hook when it opens. -/
def door : Definition where
  name := .str (units "door")
  initial := some (units "closed")
  states := some [(units "closed", ⟨true, .undefined, .undefined⟩),
    (units "open", ⟨true, .function, .undefined⟩)]
  transitions := some [some ⟨.str (units "closed"), .str (units "open"), .str (units "open"),
      .undefined⟩,
    some ⟨.str (units "open"), .str (units "closed"), .str (units "close"), .undefined⟩]

def doorMachine : Machine where
  name := units "door"
  initial := units "closed"
  states := [(units "closed", ⟨false, false⟩), (units "open", ⟨true, false⟩)]
  transitions := [⟨units "closed", units "open", units "open", false⟩,
    ⟨units "open", units "closed", units "close", false⟩]

def plainCall (name : String) : Call Unit := ⟨.str (units name), ⟨none, none, true⟩⟩

/-- Three calls made at once; the hook of the first rejects. -/
def doorRun : List (Action Unit Unit) :=
  [.call (plainCall "open"), .call (plainCall "open"), .call (plainCall "close"),
    .start 1 (.verdict true ()) (.returned ()) (.promised ()),
    .entered (.rejected ⟨true, units "jammed"⟩) (),
    .start 2 (.verdict true ()) (.returned ()) (.returned ()),
    .start 3 (.verdict true ()) (.returned ()) (.returned ())]

theorem history_isPath_door : ∃ s : St Unit Unit,
    exec (step doorMachine) (St.init (create doorMachine ())) doorRun = some s ∧
    s.settled.length = 3 ∧ s.inst.history.length = 2 ∧
    Path door (units "closed") s.inst.history s.inst.state :=
  ⟨_, rfl, rfl, rfl, (history_isPath (m := doorMachine) rfl (create doorMachine ())
    (reach_of_exec doorRun rfl)).2.2.1 _ rfl⟩

end Blamejs.Fsm
