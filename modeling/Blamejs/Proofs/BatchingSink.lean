import Blamejs.Ref.BatchingSink
import Mathlib.Data.List.Perm.Basic
import Mathlib.Data.List.Perm.Lattice

/-!
# Where a record is

Records only move: into the buffer, from its head into a batch or the drop total,
and from the batch to the delivered or the dropped. `Sound` keeps the books of
this, and one drain at a time, in every run. At the head of its loop a drain has
no batch, `Ready`, and everything a step does to a drain goes through there.

That nothing is left when `close` has resolved is not so in every run: the drain
it waits for last may stop at a batch it cannot send, and a record may still come
in when that drain has ended. `Orderly` says that neither happens, and that no one
calls `close` from within a callback the drain has only begun to run.
-/

namespace Blamejs.BatchingSink

open Run

variable {α : Type} {o : Opts} {s s' : St α} {d : Drain α}

/-- No record is accepted while a close has nothing left to wait for; no batch is
refused, with records behind it, by the drain that a close waits for last; no
close is called by a callback that the drain is just starting. -/
def Orderly (s : St α) : Action α → Prop
  | .emit (.entry _) => s.closed = true ∨
      ∀ id, Close.flush id ∈ s.closes → s.settled id = false
  | .settle k false => ∀ d batch, s.drains[k]? = some d → d.phase = .sending batch →
      Close.flush (some d.id) ∈ s.closes → s.buffer = []
  | .close => s.returned = true
  | _ => True

/-! ## One drain at a time -/

/-- The latch is on while a drain runs, and there is one; when it has come back its
promise is known. -/
def Single (s : St α) : Prop :=
  (s.inFlight = false ∧ s.drains = []) ∨
    ∃ d, s.inFlight = true ∧ s.drains = [d] ∧
      (d.assigned = true → s.inFlightPromise = some d.id)

theorem Single.drains (h : Single s) {k : Nat} (hk : s.drains[k]? = some d) :
    k = 0 ∧ s.drains = [d] ∧ s.inFlight = true ∧
      (d.assigned = true → s.inFlightPromise = some d.id) := by
  rcases h with ⟨-, hnone⟩ | ⟨d', hflight, hone, hpromise⟩
  · simp [hnone] at hk
  · rw [hone] at hk
    cases k with
    | zero =>
        injection hk with hk
        subst hk
        exact ⟨rfl, hone, hflight, hpromise⟩
    | succ k => simp at hk

theorem finish_single (hone : s.drains = [d]) : Single (s.finish 0 d) :=
  .inl ⟨rfl, by simp [St.finish, hone]⟩

theorem width_pos (o : Opts) : 0 < o.batchSize.floor.toNat := by
  have hfloor : 1 ≤ o.batchSize.floor := Rat.le_floor_iff.mpr o.batchSize_ge
  omega

/-- A drain at the head of its loop takes a batch, or ends since there is none or
the sink is closed. -/
theorem loop_cases (hone : s.drains = [d]) :
    (∃ batch rest, s.buffer = batch ++ rest ∧ batch ≠ [] ∧ s.closed = false ∧
      s.loop o 0 d = { s with
        buffer := rest, left := s.left ++ batch, drains := [{ d with phase := .sending batch }] }) ∨
    ((s.buffer = [] ∨ s.closed = true) ∧ s.loop o 0 d = s.finish 0 d) := by
  unfold St.loop
  cases hbuffer : s.buffer with
  | nil => exact .inr ⟨.inl rfl, by simp⟩
  | cons x xs =>
      cases hclosed : s.closed with
      | true => exact .inr ⟨.inr rfl, by simp⟩
      | false =>
          have hne : (x :: xs).take o.batchSize.floor.toNat ≠ [] := by
            have := width_pos o
            simp
            omega
          refine .inl ⟨_, _, (List.take_append_drop o.batchSize.floor.toNat (x :: xs)).symm, hne,
            rfl, ?_⟩
          simp [hone, List.isEmpty_iff, hne]

theorem settled_one (hone : s.drains = [d]) (id : Option Nat) :
    s.settled id = true ↔ id ≠ some d.id := by simp [St.settled, hone]

theorem settled_nil (hnone : s.drains = []) (id : Option Nat) : s.settled id = true := by
  simp [St.settled, hnone]

/-! ## The books -/

structure Sound (s : St α) : Prop where
  parts : List.Perm s.accepted (s.buffer ++ s.sending ++ s.delivered ++ s.dropped)
  count : s.dropCount = s.dropped.length + s.rejected
  order : List.Sublist (s.left ++ s.buffer) s.accepted
  single : Single s

/-- The books at the head of the loop, where the drain has no batch. -/
structure Ready (s : St α) (d : Drain α) : Prop where
  parts : List.Perm s.accepted (s.buffer ++ s.delivered ++ s.dropped)
  count : s.dropCount = s.dropped.length + s.rejected
  order : List.Sublist (s.left ++ s.buffer) s.accepted
  one : s.drains = [d]
  inFlight : s.inFlight = true
  promise : d.assigned = true → s.inFlightPromise = some d.id

theorem Ready.finish (h : Ready s d) : Sound (s.finish 0 d) where
  parts := by simpa [St.finish, St.sending, h.one] using h.parts
  count := h.count
  order := h.order
  single := finish_single h.one

theorem Ready.loop (h : Ready s d) : Sound (s.loop o 0 d) := by
  obtain ⟨batch, rest, hbuffer, -, -, heq⟩ | ⟨-, heq⟩ := loop_cases (o := o) h.one
  · rw [heq]
    refine ⟨?_, h.count, ?_, .inr ⟨_, h.inFlight, rfl, h.promise⟩⟩
    · have hparts := h.parts
      classical
      rw [List.perm_iff_count] at hparts ⊢
      intro x
      have hx := hparts x
      simp only [hbuffer, List.count_append] at hx
      simp [St.sending, Drain.batch, List.count_append]
      omega
    · simpa [hbuffer] using h.order
  · rw [heq]
    exact h.finish

theorem Sound.batch_preparing (h : Sound s) (hone : s.drains = [d]) (hphase : d.phase = .preparing)
    (hflight : s.inFlight = true) (hpromise : d.assigned = true → s.inFlightPromise = some d.id) :
    Ready s d where
  parts := by simpa [St.sending, hone, Drain.batch, hphase] using h.parts
  count := h.count
  order := h.order
  one := hone
  inFlight := hflight
  promise := hpromise

/-- A drain that is answered comes back to the head of its loop, or ends. -/
theorem Sound.settle {k : Nat} {ok : Bool} (h : Sound s) (hk : s.drains[k]? = some d) :
    Sound (s.settle o k d ok) := by
  obtain ⟨rfl, hone, hflight, hpromise⟩ := h.single.drains hk
  have hparts := h.parts
  have hcount := h.count
  unfold St.settle
  cases hphase : d.phase with
  | preparing =>
      have hready := h.batch_preparing hone hphase hflight hpromise
      cases ok with
      | true => exact hready.loop
      | false =>
          refine Ready.finish ⟨?_, ?_, ?_, hone, hflight, hpromise⟩
          · have := hready.parts
            classical
            rw [List.perm_iff_count] at this ⊢
            intro x
            have hx := this x
            simp [St.drop, List.count_append] at hx ⊢
            omega
          · simp [St.drop, hcount]
            omega
          · simpa [St.drop] using (List.sublist_append_left s.left s.buffer).trans h.order
  | sending batch =>
      classical
      rw [List.perm_iff_count] at hparts
      cases ok with
      | true =>
          refine Ready.loop ⟨?_, hcount, h.order, hone, hflight, hpromise⟩
          rw [List.perm_iff_count]
          intro x
          have hx := hparts x
          simp [St.sending, hone, Drain.batch, hphase, List.count_append] at hx ⊢
          omega
      | false =>
          refine Ready.finish ⟨?_, ?_, h.order, hone, hflight, hpromise⟩
          · rw [List.perm_iff_count]
            intro x
            have hx := hparts x
            simp [St.sending, hone, Drain.batch, hphase, St.drop, List.count_append] at hx ⊢
            omega
          · simp [St.drop, hcount]
            omega

/-- The state in which `flush` has started a drain. -/
def St.start (s : St α) : St α :=
  { s with
    inFlight := true, drains := [⟨s.started, .preparing, false⟩], started := s.started + 1 }

/-- `flush` returns the promise of the drain that runs, nothing when there is nothing
to send, or starts a drain. -/
theorem flush_cases (h : Single s) :
    (∃ d, s.drains = [d] ∧ (d.assigned = true → s.inFlightPromise = some d.id) ∧
      s.flush o = (s, s.inFlightPromise)) ∨
    (s.drains = [] ∧ s.buffer = [] ∧ s.flush o = (s, none)) ∨
    (s.drains = [] ∧ s.buffer ≠ [] ∧
      s.flush o = (if o.beforeDrain then s.start
        else s.start.loop o 0 ⟨s.started, .preparing, false⟩, some s.started)) := by
  unfold St.flush
  rcases h with ⟨hflight, hnone⟩ | ⟨d, hflight, hone, hpromise⟩
  · rw [if_neg (by simp [hflight])]
    cases hbuffer : s.buffer with
    | nil => exact .inr (.inl ⟨hnone, rfl, by simp⟩)
    | cons x xs => exact .inr (.inr ⟨hnone, by simp, by simp [St.start, hnone, hbuffer]⟩)
  · exact .inl ⟨d, hone, hpromise, by simp [hflight]⟩

theorem Sound.start (h : Sound s) (hnone : s.drains = []) :
    Ready s.start ⟨s.started, .preparing, false⟩ where
  parts := by simpa [St.start, St.sending, hnone] using h.parts
  count := h.count
  order := h.order
  one := rfl
  inFlight := rfl
  promise := by simp

theorem Ready.sound (h : Ready s d) (hphase : d.phase = .preparing) : Sound s where
  parts := by simpa [St.sending, h.one, Drain.batch, hphase] using h.parts
  count := h.count
  order := h.order
  single := .inr ⟨d, h.inFlight, h.one, h.promise⟩

theorem Sound.flush (h : Sound s) : Sound (s.flush o).1 := by
  obtain ⟨d, -, -, heq⟩ | ⟨-, -, heq⟩ | ⟨hnone, -, heq⟩ := flush_cases (o := o) h.single
  · rw [heq]
    exact h
  · rw [heq]
    exact h
  · rw [heq]
    have hready := h.start hnone
    cases o.beforeDrain with
    | true => exact hready.sound rfl
    | false => exact hready.loop

theorem Sound.evict (h : Sound s) : Sound (s.evict o) := by
  unfold St.evict
  split
  · next oldest rest hbuffer =>
      split
      · have hparts := h.parts
        have horder := h.order
        rw [hbuffer] at hparts horder
        refine ⟨?_, ?_, ?_, h.single⟩
        · classical
          rw [List.perm_iff_count] at hparts ⊢
          intro x
          have hx := hparts x
          simp [St.sending, St.drop, List.count_append, List.count_cons] at hx ⊢
          omega
        · simp [St.drop, h.count]
          omega
        · exact (List.Sublist.append_left (List.sublist_cons_self oldest rest) s.left).trans horder
      · exact h
  · exact h

theorem Sound.push (h : Sound s) (entry : α) : Sound (s.push entry) where
  parts := by
    have hparts := h.parts
    classical
    rw [List.perm_iff_count] at hparts ⊢
    intro x
    have hx := hparts x
    simp only [St.push, St.sending, List.count_append] at hx ⊢
    omega
  count := h.count
  order := by simpa [St.push] using h.order.append_right [entry]
  single := h.single

theorem Sound.emit {prepared : Prepared α} (h : Sound s) : Sound (s.emit o prepared) := by
  unfold St.emit
  split
  · exact h
  · cases prepared with
    | entry entry =>
        have hpushed := (h.evict (o := o)).push entry
        show Sound (St.enqueue o s entry)
        unfold St.enqueue
        dsimp only
        split
        · exact hpushed.flush
        · exact ⟨hpushed.parts, hpushed.count, hpushed.order, hpushed.single⟩
    | rejected => exact ⟨h.parts, by simp [h.count]; omega, h.order, h.single⟩
    | threw => exact h

/-- Fields that are read by none of the books. -/
theorem Sound.same (h : Sound s) (hs : s' = { s with
    closed := s'.closed, timer := s'.timer, closes := s'.closes, resolved := s'.resolved }) :
    Sound s' := by
  rw [hs]
  exact ⟨h.parts, h.count, h.order, h.single⟩

theorem Sound.close (h : Sound s) : Sound (s.close o) := by
  have hcancel : Sound { s with timer := false } := h.same rfl
  unfold St.close
  dsimp only
  split
  · exact hcancel.same rfl
  · exact hcancel.flush.same rfl

theorem Sound.resume {k : Nat} {c : Close} (h : Sound s) : Sound (s.resume o k c) := by
  cases c with
  | inflight id => exact h.flush.same rfl
  | flush id => exact h.same rfl

theorem Sound.assign {k : Nat} (h : Sound s) (hk : s.drains[k]? = some d) :
    Sound { s with drains := s.drains.set k { d with assigned := true }
                   inFlightPromise := some d.id } := by
  obtain ⟨rfl, hone, hflight, -⟩ := h.single.drains hk
  refine ⟨?_, h.count, h.order, .inr ⟨{ d with assigned := true }, hflight, ?_, fun _ => rfl⟩⟩
  · have hparts := h.parts
    simp only [St.sending, hone] at hparts ⊢
    exact hparts
  · simp [hone]

/-- The step function by its steps. -/
inductive Steps (o : Opts) (s : St α) : Action α → St α → Prop
  | emit (prepared : Prepared α) : Steps o s (.emit prepared) (s.emit o prepared)
  | fire (htimer : s.timer = true) : Steps o s .fire ({ s with timer := false }.flush o).1
  | flush : Steps o s .flush (s.flush o).1
  | assign (k : Nat) (d : Drain α) (hk : s.drains[k]? = some d) :
      Steps o s (.assign k) { s with
        drains := s.drains.set k { d with assigned := true }, inFlightPromise := some d.id }
  | settle (k : Nat) (d : Drain α) (ok : Bool) (hk : s.drains[k]? = some d) :
      Steps o s (.settle k ok) (s.settle o k d ok)
  | close : Steps o s .close (s.close o)
  | resume (k : Nat) (c : Close) (hk : s.closes[k]? = some c)
      (hsettled : s.settled c.promise = true) (hreturned : s.returned = true) :
      Steps o s (.resume k) (s.resume o k c)

theorem step_steps {a : Action α} (hs : step o s a = some s') : Steps o s a s' := by
  cases a with
  | emit prepared => exact Option.some.inj hs ▸ .emit prepared
  | fire =>
      simp only [step] at hs
      split at hs
      · next hguard =>
          rw [Bool.and_eq_true] at hguard
          exact Option.some.inj hs ▸ .fire hguard.1
      · cases hs
  | flush => exact Option.some.inj hs ▸ .flush
  | assign k =>
      simp only [step] at hs
      split at hs
      · next d hk =>
          split at hs
          · cases hs
          · exact Option.some.inj hs ▸ .assign k d hk
      · cases hs
  | settle k ok =>
      simp only [step] at hs
      split at hs
      · next d hk =>
          split at hs
          · cases hs
          · exact Option.some.inj hs ▸ .settle k d ok hk
      · cases hs
  | close => exact Option.some.inj hs ▸ .close
  | resume k =>
      simp only [step] at hs
      split at hs
      · next c hk =>
          split at hs
          · next hguard =>
              rw [Bool.and_eq_true] at hguard
              exact Option.some.inj hs ▸ .resume k c hk hguard.1 hguard.2
          · cases hs
      · cases hs

theorem Steps.sound {a : Action α} (hs : Steps o s a s') (h : Sound s) : Sound s' := by
  cases hs with
  | emit prepared => exact h.emit
  | fire htimer => exact (@Sound.same _ _ { s with timer := false } h rfl).flush
  | flush => exact h.flush
  | assign k d hk => exact h.assign hk
  | settle k d ok hk => exact h.settle hk
  | close => exact h.close
  | resume k c hk hsettled hreturned => exact h.resume

theorem init_sound : Sound (St.init (α := α)) :=
  ⟨List.Perm.refl _, rfl, List.Sublist.refl _, .inl ⟨rfl, rfl⟩⟩

/-! ## Closing -/

/-- A close that has nothing left to wait for has nothing left to lose. -/
structure Drained (s : St α) : Prop where
  closes : ∀ id, Close.flush id ∈ s.closes → s.settled id = true → s.buffer = [] ∧ s.drains = []
  closed : s.closed = true → s.buffer = [] ∧ s.drains = []
  resolved : 0 < s.resolved → s.closed = true

/-- While a drain runs, a close that waits for its flush waits for this drain. -/
theorem Drained.unsettled (h : Drained s) (hone : s.drains = [d]) {id : Option Nat}
    (hid : Close.flush id ∈ s.closes) : id = some d.id := by
  by_contra hne
  have := (h.closes id hid ((settled_one hone id).mpr hne)).2
  simp [hone] at this

theorem Drained.open_of_drain (h : Drained s) (hone : s.drains = [d]) : s.closed = false := by
  cases hclosed : s.closed with
  | false => rfl
  | true =>
      have := (h.closed hclosed).2
      simp [hone] at this

/-- A drain goes on, and those who waited for it still do. -/
theorem Drained.goes_on (h : Drained s) (hone : s.drains = [d]) {d' : Drain α} (hid : d'.id = d.id)
    (hdrains : s'.drains = [d']) (hcloses : s'.closes = s.closes) (hclosed : s'.closed = s.closed)
    (hresolved : s'.resolved = s.resolved) : Drained s' where
  closes := by
    intro id hmem hsettled
    rw [hcloses] at hmem
    rw [settled_one hdrains, hid] at hsettled
    exact absurd (h.unsettled hone hmem) hsettled
  closed := by
    rw [hclosed, h.open_of_drain hone]
    simp
  resolved := by rw [hresolved, hclosed]; exact h.resolved

/-- A drain ends with nothing left, or with no close that waits for it. -/
theorem Drained.ends (h : Drained s) (hone : s.drains = [d]) {t : St α}
    (hcloses : t.closes = s.closes) (hclosed : t.closed = s.closed)
    (hresolved : t.resolved = s.resolved) (hdrains : t.drains = [d])
    (hempty : Close.flush (some d.id) ∈ s.closes → t.buffer = []) : Drained (t.finish 0 d) where
  closes := by
    intro id hmem _
    replace hmem : Close.flush id ∈ t.closes := hmem
    rw [hcloses] at hmem
    have hid := h.unsettled hone hmem
    subst hid
    exact ⟨hempty hmem, by simp [St.finish, hdrains]⟩
  closed := by
    show t.closed = true → _
    rw [hclosed, h.open_of_drain hone]
    simp
  resolved := by
    show 0 < t.resolved → t.closed = true
    rw [hresolved, hclosed]
    exact h.resolved

theorem Drained.loop (h : Drained s) (hone : s.drains = [d]) {t : St α}
    (hcloses : t.closes = s.closes) (hclosed : t.closed = s.closed)
    (hresolved : t.resolved = s.resolved) (hdrains : t.drains = [d]) : Drained (t.loop o 0 d) := by
  obtain ⟨batch, rest, -, -, -, heq⟩ | ⟨hend, heq⟩ := loop_cases (o := o) hdrains
  · rw [heq]
    exact @Drained.goes_on _ _ _ _ h hone { d with phase := .sending batch } rfl rfl hcloses hclosed
      hresolved
  · rw [heq]
    refine h.ends hone hcloses hclosed hresolved hdrains fun _ => ?_
    rcases hend with hempty | hshut
    · exact hempty
    · rw [hclosed, h.open_of_drain hone] at hshut
      cases hshut

theorem Drained.settle {k : Nat} {ok : Bool} (h : Drained s) (hsingle : Single s)
    (hok : Orderly s (.settle k ok)) (hk : s.drains[k]? = some d) :
    Drained (s.settle o k d ok) := by
  obtain ⟨rfl, hone, -, -⟩ := hsingle.drains hk
  unfold St.settle
  cases hphase : d.phase with
  | preparing =>
      cases ok with
      | true => exact h.loop hone rfl rfl rfl hone
      | false => exact h.ends hone rfl rfl rfl hone fun _ => rfl
  | sending batch =>
      cases ok with
      | true => exact h.loop hone rfl rfl rfl hone
      | false => exact h.ends hone rfl rfl rfl hone fun hmem => hok d batch hk hphase hmem

/-- A flush that starts a drain finds no close that waits for its own. -/
theorem Drained.flush (h : Drained s) (hsingle : Single s) : Drained (s.flush o).1 := by
  obtain ⟨d, -, -, heq⟩ | ⟨-, -, heq⟩ | ⟨hnone, hne, heq⟩ := flush_cases (o := o) hsingle
  · rw [heq]
    exact h
  · rw [heq]
    exact h
  · rw [heq]
    have hfree : ∀ id, Close.flush id ∉ s.closes := fun id hmem =>
      hne (h.closes id hmem (settled_nil hnone id)).1
    have hopen : s.closed = false := by
      cases hclosed : s.closed with
      | false => rfl
      | true => exact absurd (h.closed hclosed).1 hne
    have hstart : Drained s.start :=
      ⟨fun id hmem => absurd hmem (hfree id), by simp [St.start, hopen], h.resolved⟩
    cases o.beforeDrain with
    | true => exact hstart
    | false => exact hstart.loop rfl rfl rfl rfl rfl

/-- The promise a close gets from its flush: nothing to send, or a drain that runs. -/
theorem flush_promise (h : Drained s) (hsingle : Single s) (hreturned : s.returned = true)
    (hsettled : (s.flush o).1.settled (s.flush o).2 = true) :
    (s.flush o).1.buffer = [] ∧ (s.flush o).1.drains = [] := by
  obtain ⟨d, hone, hpromise, heq⟩ | ⟨hnone, hempty, heq⟩ | ⟨hnone, hne, heq⟩ :=
    flush_cases (o := o) hsingle
  · rw [heq] at hsettled
    have hassigned : d.assigned = true := by simpa [St.returned, hone] using hreturned
    rw [hpromise hassigned, settled_one hone] at hsettled
    exact absurd rfl hsettled
  · rw [heq]
    exact ⟨hempty, hnone⟩
  · rw [heq] at hsettled
    by_cases hbefore : o.beforeDrain = true
    · rw [if_pos hbefore] at hsettled
      simp [St.start, St.settled] at hsettled
    · rw [if_neg hbefore] at hsettled
      obtain ⟨batch, rest, -, -, -, hloop⟩ | ⟨hend, -⟩ :=
        loop_cases (o := o) (s := s.start) (d := ⟨s.started, .preparing, false⟩) rfl
      · simp [hloop, St.settled] at hsettled
      · rcases hend with hempty | hshut
        · exact absurd hempty hne
        · exact absurd (h.closed hshut).1 hne

theorem flush_closes (o : Opts) (s : St α) (hsingle : Single s) :
    (s.flush o).1.closes = s.closes ∧ (s.flush o).1.closed = s.closed ∧
      (s.flush o).1.resolved = s.resolved := by
  obtain ⟨d, -, -, heq⟩ | ⟨-, -, heq⟩ | ⟨-, -, heq⟩ := flush_cases (o := o) hsingle
  · rw [heq]
    exact ⟨rfl, rfl, rfl⟩
  · rw [heq]
    exact ⟨rfl, rfl, rfl⟩
  · rw [heq]
    split
    · exact ⟨rfl, rfl, rfl⟩
    · obtain ⟨batch, rest, -, -, -, hloop⟩ | ⟨-, hloop⟩ :=
        loop_cases (o := o) (s := s.start) (d := ⟨s.started, .preparing, false⟩) rfl
      · rw [hloop]
        exact ⟨rfl, rfl, rfl⟩
      · rw [hloop]
        exact ⟨rfl, rfl, rfl⟩

theorem Drained.cancel (h : Drained s) : Drained { s with timer := false } :=
  ⟨h.closes, h.closed, h.resolved⟩

/-- A close that begins to wait for its flush. -/
theorem Drained.wait (h : Drained s) (hsingle : Single s) (hreturned : s.returned = true)
    {closes : List Close} (hcloses : ∀ id, Close.flush id ∈ closes →
      Close.flush id ∈ s.closes ∨ id = (s.flush o).2) :
    Drained { (s.flush o).1 with closes := closes } := by
  have hflush := h.flush (o := o) hsingle
  refine ⟨fun id hmem hsettled => ?_, hflush.closed, hflush.resolved⟩
  rcases hcloses id hmem with hold | rfl
  · exact hflush.closes id ((flush_closes o s hsingle).1 ▸ hold) hsettled
  · exact flush_promise h hsingle hreturned hsettled

theorem Drained.close (h : Drained s) (hsingle : Single s) (hreturned : s.returned = true) :
    Drained (s.close o) := by
  unfold St.close
  dsimp only
  split
  · refine ⟨fun id hmem hsettled => h.closes id ?_ hsettled, h.closed, h.resolved⟩
    simpa using hmem
  · rw [(flush_closes o { s with timer := false } hsingle).1]
    refine h.cancel.wait hsingle hreturned fun id hmem => ?_
    simpa using hmem

theorem Drained.resume {k : Nat} {c : Close} (h : Drained s) (hsingle : Single s)
    (hk : s.closes[k]? = some c) (hsettled : s.settled c.promise = true)
    (hreturned : s.returned = true) : Drained (s.resume o k c) := by
  cases c with
  | inflight id =>
      show Drained
        { (s.flush o).1 with closes := (s.flush o).1.closes.set k (.flush (s.flush o).2) }
      rw [(flush_closes o s hsingle).1]
      refine h.wait hsingle hreturned fun id hmem => ?_
      rcases List.mem_or_eq_of_mem_set hmem with hold | hnew
      · exact .inl hold
      · injection hnew with hnew
        exact .inr hnew
  | flush id =>
      have hdone := h.closes id (List.mem_of_getElem? hk) hsettled
      exact ⟨fun id' hmem => h.closes id' (List.mem_of_mem_eraseIdx hmem), fun _ => hdone,
        fun _ => rfl⟩

theorem evict_same (o : Opts) (s : St α) : s.evict o = { s with
    buffer := (s.evict o).buffer, dropCount := (s.evict o).dropCount
    dropped := (s.evict o).dropped } := by
  unfold St.evict
  split
  · split <;> rfl
  · rfl

theorem Drained.emit {prepared : Prepared α} (h : Drained s) (hsingle : Single s)
    (hok : Orderly s (.emit prepared)) : Drained (s.emit o prepared) := by
  unfold St.emit
  split
  · exact h
  · next hopen =>
      have hshut : s.closed = false := by simpa using hopen
      cases prepared with
      | rejected => exact ⟨h.closes, h.closed, h.resolved⟩
      | threw => exact h
      | entry entry =>
          have hunsettled : ∀ id, Close.flush id ∈ s.closes → s.settled id = false :=
            hok.resolve_left (by simp [hshut])
          -- whoever waits for a drain goes on waiting for it
          have hpushed : Drained ((s.evict o).push entry) := by
            rw [evict_same]
            refine ⟨fun id hmem hsettled => ?_, fun hclosed => absurd hclosed hopen, h.resolved⟩
            have hwaits : s.settled id = false := hunsettled id hmem
            exact absurd hsettled (by simpa [St.settled, St.push] using hwaits)
          have hone : Single ((s.evict o).push entry) := by
            rw [evict_same]
            exact hsingle
          show Drained (St.enqueue o s entry)
          unfold St.enqueue
          dsimp only
          split
          · exact hpushed.flush hone
          · exact ⟨hpushed.closes, hpushed.closed, hpushed.resolved⟩

theorem Drained.assign {k : Nat} (h : Drained s) (hsingle : Single s)
    (hk : s.drains[k]? = some d) :
    Drained { s with drains := s.drains.set k { d with assigned := true }
                     inFlightPromise := some d.id } := by
  obtain ⟨rfl, hone, -, -⟩ := hsingle.drains hk
  exact @Drained.goes_on _ _ _ _ h hone { d with assigned := true } rfl (by simp [hone]) rfl rfl rfl

theorem Steps.drained {a : Action α} (hs : Steps o s a s') (hok : Orderly s a) (h : Drained s)
    (hsingle : Single s) : Drained s' := by
  cases hs with
  | emit prepared => exact h.emit hsingle hok
  | fire htimer => exact h.cancel.flush hsingle
  | flush => exact h.flush hsingle
  | assign k d hk => exact h.assign hsingle hk
  | settle k d ok hk => exact h.settle hsingle hok hk
  | close => exact h.close hsingle hok
  | resume k c hk hsettled hreturned => exact h.resume hsingle hk hsettled hreturned

theorem init_drained : Drained (St.init (α := α)) :=
  ⟨fun _ hmem => absurd hmem List.not_mem_nil, fun _ => ⟨rfl, rfl⟩,
    fun hpos => absurd hpos (Nat.lt_irrefl 0)⟩

/-- A closed sink with an empty buffer arms no timer. -/
theorem Steps.timer {a : Action α} (hs : Steps o s a s') (hclosed : s.closed = true)
    (hempty : s.buffer = []) (hnone : s.drains = []) (htimer : s'.timer = true) :
    s.timer = true := by
  have hflush : ∀ {t : St α}, t.buffer = [] → ((t.flush o).1).timer = t.timer := by
    intro t ht
    unfold St.flush
    split
    · rfl
    · rw [if_pos (by simp [ht])]
  cases hs with
  | emit prepared => simpa [St.emit, hclosed] using htimer
  | fire ht => exact ht
  | flush => rwa [hflush hempty] at htimer
  | assign k d hk => exact htimer
  | settle k d ok hk => simp [hnone] at hk
  | close =>
      unfold St.close at htimer
      dsimp only at htimer
      split at htimer
      · simp at htimer
      · change ((St.flush o { s with timer := false }).1).timer = true at htimer
        rw [hflush (show ({ s with timer := false } : St α).buffer = [] from hempty)] at htimer
        simp at htimer
  | resume k c hk hsettled hreturned =>
      cases c with
      | inflight id =>
          change ((s.flush o).1).timer = true at htimer
          rwa [hflush hempty] at htimer
      | flush id => exact htimer

/-! ## Whole runs -/

/-- In every run each accepted record is in one place, one batch at most is being
sent, and the batches leave in the order of emission. In an orderly run all
accepted records have been delivered or dropped once a close has resolved, and no
step arms the timer from then on. -/
theorem sink_books {ok : St α → Action α → Prop} (h : Reach (step o) ok St.init s) :
    List.Perm s.accepted (s.buffer ++ s.sending ++ s.delivered ++ s.dropped) ∧
    s.dropCount = s.dropped.length + s.rejected ∧ s.drains.length ≤ 1 ∧
    List.Sublist (s.left ++ s.buffer) s.accepted ∧
    ((∀ s a, ok s a → Orderly s a) → 0 < s.resolved →
      List.Perm s.accepted (s.delivered ++ s.dropped) ∧ s.buffer = [] ∧ s.drains = [] ∧
      ∀ a s', step o s a = some s' → s'.timer = true → s.timer = true) := by
  have hsound : Sound s := h.invariant init_sound fun _ _ _ hI _ hs => (step_steps hs).sound hI
  have hone : s.drains.length ≤ 1 := by
    rcases hsound.single with ⟨-, hnone⟩ | ⟨d, -, hone, -⟩
    · simp [hnone]
    · simp [hone]
  refine ⟨hsound.parts, hsound.count, hone, hsound.order, fun horderly hresolved => ?_⟩
  have hdrained : Sound s ∧ Drained s := by
    refine h.invariant (I := fun s => Sound s ∧ Drained s) ⟨init_sound, init_drained⟩
      fun s a s' hI hok hs => ?_
    exact ⟨(step_steps hs).sound hI.1,
      (step_steps hs).drained (horderly s a hok) hI.2 hI.1.single⟩
  have hclosed := hdrained.2.resolved hresolved
  obtain ⟨hempty, hnone⟩ := hdrained.2.closed hclosed
  refine ⟨?_, hempty, hnone, fun a s' hs => (step_steps hs).timer hclosed hempty hnone⟩
  simpa [hempty, St.sending, hnone] using hsound.parts

/-- Batches of `n`, and no `beforeDrain`. -/
def batches (n : Rat) (h : 1 ≤ n) : Opts := ⟨n, 10, false, h, by decide⟩

/-- A record is delivered, and then the sink is closed. -/
def closeRun : List (Action Nat) :=
  [.emit (.entry 1), .assign 0, .settle 0 true, .close, .resume 0]

theorem sink_books_close : ∃ s, exec (step (batches 1 (by decide))) St.init closeRun = some s ∧
    s.resolved = 1 ∧ List.Perm s.accepted (s.delivered ++ s.dropped) := by
  have hmeets : Meets (step (batches 1 (by decide))) Orderly St.init closeRun :=
    ⟨.inr fun _ hmem => absurd hmem List.not_mem_nil, trivial, trivial, rfl, trivial, trivial⟩
  obtain ⟨s, hrun, hresolved⟩ : ∃ s,
      exec (step (batches 1 (by decide))) St.init closeRun = some s ∧ s.resolved = 1 :=
    ⟨_, rfl, rfl⟩
  have hbooks := sink_books (reach_of_meets closeRun hmeets hrun)
  exact ⟨s, hrun, hresolved,
    (hbooks.2.2.2.2 (fun _ _ => id) (hresolved ▸ Nat.one_pos)).1⟩

/-- The batch that is being sent is refused, and then the first of the final flush. -/
def refusedRun : List (Action Nat) :=
  [.emit (.entry 1), .assign 0, .emit (.entry 2), .emit (.entry 3), .close, .settle 0 false,
    .resume 0, .assign 0, .settle 0 false, .resume 0]

/-- A record is emitted right after the call of `close`. -/
def lateRun : List (Action Nat) := [.close, .emit (.entry 3), .resume 0]

/-- The timer of a closed sink that holds a record goes off, and is armed again. -/
def Stranded (o : Opts) (run : List (Action Nat)) : Prop :=
  ∃ s s', exec (step o) St.init run = some s ∧ s.resolved = 1 ∧ s.buffer = [3] ∧
    s.timer = true ∧ step o s .fire = some s' ∧ s'.buffer = [3] ∧ s'.timer = true

theorem records_stranded : Stranded (batches 1 (by decide)) refusedRun ∧
    Stranded (batches 2 (by decide)) lateRun :=
  ⟨⟨_, _, rfl, rfl, rfl, rfl, rfl, rfl, rfl⟩, _, _, rfl, rfl, rfl, rfl, rfl, rfl, rfl⟩

end Blamejs.BatchingSink
