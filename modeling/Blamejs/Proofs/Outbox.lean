import Blamejs.Ref.Outbox

/-!
# The outbox keeps its events, and what a late mark does to them

The marks name a row by its id and nothing else, so a worker whose claim was
taken back still writes over whatever happened to the row since
(`outbox_late_marks`). What every run keeps is the events themselves. The
terminal states are terminal in the runs where a mark is applied only while the
worker's claim still stands: a claim that stands says that the row is in flight
(`Standing.inFlight`), so no mark reaches a row that is published or dead. The
attempts of a row count rejections of the publisher as long as nothing else
gets a worker into the `catch` block.
-/

namespace Blamejs.Outbox

open Blamejs.Js Run Table

variable {V : Type} {cfg : Config V} {s s' : St}

/-! ## What a step can do -/

/-- The columns no statement assigns. -/
structure Content where
  id : Nat
  topic : JsString
  payload : JsString
  key : Option JsString
  headers : Option JsString
  enqueuedAt : Int

def Row.content (r : Row) : Content := ⟨r.id, r.topic, r.payload, r.key, r.headers, r.enqueuedAt⟩

theorem id_of_content {r r' : Row} (h : r.content = r'.content) : r.id = r'.id :=
  congrArg Content.id h

/-- The rows a worker has claimed and not done with. -/
def Pc.held : Pc → List Claimed
  | .idle => []
  | .publishing row rest => row :: rest
  | .accepted row rest => row :: rest
  | .failed row rest _ => row :: rest

/-- The outcomes of an action, one constructor for each. -/
inductive Moves (cfg : Config V) (s : St) : Action V → St → Prop
  | stays {a : Action V} : Moves cfg s a s
  | enqueue {event : NewEvent V} {id : Nat} {now : Int} (row : Row) (hid : row.id = id)
      (hfresh : id ∉ s.rows.map Row.id) (hpending : row.status = .pending)
      (hnew : row.attempts = 0) :
      Moves cfg s (.enqueue event id now)
        { s with rows := s.rows ++ [row], enqueued := s.enqueued ++ [row] }
  | reap (now : Int) : Moves cfg s (.reap now) { s with
        rows := reapStaleInflight (now - cfg.claimReclaimMs) s.rows
        holder := fun id =>
          if s.rows.any fun r => r.id = id ∧ stale (now - cfg.claimReclaimMs) r then none
          else s.holder id }
  | claim {w : Nat} {now claimedAt : Int} {locked : List Nat} {rows reread : List Row}
      (ids : List Nat) (batch : List Claimed) (hidle : s.workers w = .idle)
      (hids : ∀ id ∈ ids, id ∈ s.rows.map Row.id)
      (hpending : ∀ r ∈ s.rows, r.id ∈ ids → r.status = .pending)
      (hbatch : ∀ c ∈ batch, ∃ r ∈ s.rows, r.claimed = c) :
      Moves cfg s (.claim w now claimedAt locked rows reread)
        (St.goto { s with
          rows := update (fun r => r.id ∈ ids) (Row.claim claimedAt) s.rows
          holder := fun id => if id ∈ ids then some w else s.holder id } w (.next batch))
  | unreadable {w : Nat} {outcome : Outcome} {row : Claimed} {rest : List Claimed}
      {message : JsString} (hpc : s.workers w = .publishing row rest)
      (hevent : cfg.event row = .error message) :
      Moves cfg s (.publish w outcome) (s.goto w (.failed row rest message))
  | rejected {w : Nat} {row : Claimed} {rest : List Claimed} {message : JsString}
      (hpc : s.workers w = .publishing row rest) :
      Moves cfg s (.publish w (.threw message))
        (St.goto { s with rejected := row.id :: s.rejected } w (.failed row rest message))
  | accepted {w : Nat} {row : Claimed} {rest : List Claimed}
      (hpc : s.workers w = .publishing row rest) :
      Moves cfg s (.publish w .resolved)
        (St.goto { s with accepted := row.id :: s.accepted } w (.accepted row rest))
  | markPublished {w : Nat} {now : Int} {reply : Reply} {row : Claimed} {rest : List Claimed}
      (pc : Pc) (hpc : s.workers w = .accepted row rest)
      (hdone : reply = .done → pc = .next rest)
      (hlost : reply ≠ .done → ∃ message, pc = .failed row rest message) :
      Moves cfg s (.markPublished w now reply)
        (St.goto { s.release row.id with rows := markPublished row.id now s.rows } w pc)
  | notPublished {w : Nat} {now : Int} {row : Claimed} {rest : List Claimed} {message : JsString}
      (hpc : s.workers w = .accepted row rest) :
      Moves cfg s (.markPublished w now (.refused message)) (s.goto w (.failed row rest message))
  | markFailed {w : Nat} {now : Int} {row : Claimed} {rest : List Claimed} {errMsg : JsString}
      (hpc : s.workers w = .failed row rest errMsg) :
      Moves cfg s (.markFailed w now true)
        (St.goto { s.release row.id with rows := cfg.markFailed row errMsg now s.rows } w
          (.next rest))
  | notMarked {w : Nat} {now : Int} {row : Claimed} {rest : List Claimed} {errMsg : JsString}
      (hpc : s.workers w = .failed row rest errMsg) :
      Moves cfg s (.markFailed w now false) (s.goto w (.next rest))
  | crash (w : Nat) : Moves cfg s (.crash w) (s.goto w .idle)

theorem enqueue_ok {event : NewEvent V} {id : Nat} {now : Int} {row : Row}
    (h : cfg.enqueue event id now = .ok row) :
    row.id = id ∧ row.status = .pending ∧ row.attempts = 0 := by
  rw [Config.enqueue, Checked.bind_eq_ok] at h
  obtain ⟨_, -, h⟩ := h
  split at h
  · cases h
  · obtain ⟨_, -, h⟩ := Checked.bind_eq_ok.mp h
    obtain ⟨_, -, h⟩ := Checked.bind_eq_ok.mp h
    obtain ⟨_, -, h⟩ := Checked.bind_eq_ok.mp h
    obtain ⟨_, -, h⟩ := Checked.bind_eq_ok.mp h
    cases h
    exact ⟨rfl, rfl, rfl⟩

/-- Both ways of claiming come to the same: the rows selected are pending, so
testing it again changes nothing, and reading them back gives them as they were
but for the status. -/
theorem claimBatch_moves {w : Nat} {now claimedAt : Int} {locked : List Nat}
    {rows reread batch : List Row} (hids : (s.rows.map Row.id).Nodup) (hidle : s.workers w = .idle)
    (hbatch : ∀ r ∈ batch, r ∈ s.rows ∧ r.status = .pending)
    (h : cfg.claimBatch s w claimedAt batch reread = some s') :
    Moves cfg s (.claim w now claimedAt locked rows reread) s' := by
  have hpending : ∀ r ∈ s.rows, r.id ∈ batch.map Row.id → r.status = .pending := by
    intro r hr hid
    obtain ⟨r₀, hr₀, heq⟩ := List.mem_map.mp hid
    rw [← row_unique hids (hbatch r₀ hr₀).1 hr heq]
    exact (hbatch r₀ hr₀).2
  have hsub : ∀ id ∈ batch.map Row.id, id ∈ s.rows.map Row.id := by
    intro id hid
    obtain ⟨r, hr, rfl⟩ := List.mem_map.mp hid
    exact List.mem_map_of_mem (hbatch r hr).1
  unfold Config.claimBatch at h
  dsimp only at h
  split at h
  · injection h with h
    exact h ▸ .stays
  split at h
  · injection h with h
    subst h
    refine .claim (batch.map Row.id) (batch.map Row.claimed) hidle hsub hpending fun c hc => ?_
    obtain ⟨r, hr, hrc⟩ := List.mem_map.mp hc
    exact ⟨r, (hbatch r hr).1, hrc⟩
  · split at h
    · next hperm =>
        injection h with h
        subst h
        have hsame : update (fun r => r.status = .pending ∧ r.id ∈ batch.map Row.id)
            (Row.claim claimedAt) s.rows =
            update (fun r => r.id ∈ batch.map Row.id) (Row.claim claimedAt) s.rows := by
          refine List.map_congr_left fun r hr => ?_
          by_cases hid : r.id ∈ batch.map Row.id
          · simp only [hid, hpending r hr hid, and_self]
          · simp only [hid, and_false]
        rw [hsame] at hperm ⊢
        refine .claim (batch.map Row.id) (reread.map Row.claimed) hidle hsub hpending fun c hc => ?_
        obtain ⟨r', hr', rfl⟩ := List.mem_map.mp hc
        obtain ⟨r, hr, heq⟩ := mem_update.mp (List.mem_filter.mp (hperm.mem_iff.mp hr')).1
        refine ⟨r, hr, ?_⟩
        rw [heq]
        split <;> rfl
    · cases h

theorem step_moves {a : Action V} (hids : (s.rows.map Row.id).Nodup)
    (h : step cfg s a = some s') : Moves cfg s a s' := by
  cases a with
  | enqueue event id now =>
      rw [step] at h
      split at h
      · injection h with h
        exact h ▸ .stays
      · next row hok =>
          split at h
          · cases h
          · next hfresh =>
              injection h with h
              subst h
              obtain ⟨hid, hpending, hnew⟩ := enqueue_ok hok
              exact .enqueue row hid hfresh hpending hnew
  | reap now =>
      injection h with h
      exact h ▸ .reap now
  | claim w now claimedAt locked rows reread =>
      rw [step] at h
      split at h
      · next hopen =>
          refine claimBatch_moves hids hopen.1 (fun r hr => ?_) h
          have hdue := List.mem_filter.mp (hopen.2.1.mem_iff.mp (List.mem_of_mem_take hr))
          exact ⟨hdue.1, (of_decide_eq_true hdue.2).1⟩
      · cases h
  | publish w outcome =>
      rw [step] at h
      split at h
      · next row rest hpc =>
          cases hevent : cfg.event row with
          | error message =>
              simp only [hevent] at h
              injection h with h
              exact h ▸ .unreadable hpc hevent
          | ok event =>
              cases outcome with
              | resolved =>
                  simp only [hevent] at h
                  injection h with h
                  exact h ▸ .accepted hpc
              | threw message =>
                  simp only [hevent] at h
                  injection h with h
                  exact h ▸ .rejected hpc
      · cases h
  | markPublished w now reply =>
      rw [step] at h
      split at h
      · next row rest hpc =>
          cases reply with
          | done =>
              injection h with h
              exact h ▸ .markPublished _ hpc (fun _ => rfl) fun hne => (hne rfl).elim
          | lost message =>
              injection h with h
              refine h ▸ .markPublished _ hpc (fun hd => ?_) fun _ => ⟨message, rfl⟩
              cases hd
          | refused message =>
              injection h with h
              exact h ▸ .notPublished hpc
      · cases h
  | markFailed w now applied =>
      rw [step] at h
      split at h
      · next row rest errMsg hpc =>
          cases applied with
          | true =>
              injection h with h
              exact h ▸ .markFailed hpc
          | false =>
              injection h with h
              exact h ▸ .notMarked hpc
      · cases h
  | crash w =>
      injection h with h
      exact h ▸ .crash w

/-! ## Every run -/

theorem forall_goto {P : Pc → Prop} {w : Nat} {pc : Pc} (hs : ∀ u, P (s.workers u)) (hpc : P pc) :
    ∀ u, P ((s.goto w pc).workers u) :=
  (Function.forall_update_iff s.workers fun _ => P).mpr ⟨hpc, fun u _ => hs u⟩

/-- A worker about to mark a row published has had it accepted. -/
def Pc.Backed (accepted : List Nat) : Pc → Prop
  | .accepted row _ => row.id ∈ accepted
  | _ => True

theorem backed_next (accepted : List Nat) (rest : List Claimed) :
    (Pc.next rest).Backed accepted := by
  cases rest <;> trivial

theorem Pc.Backed.cons {accepted : List Nat} {pc : Pc} (h : pc.Backed accepted) (id : Nat) :
    pc.Backed (id :: accepted) := by
  cases pc with
  | accepted row rest => exact List.mem_cons_of_mem _ h
  | _ => trivial

/-- The rows are the committed events, and published means that the publisher
accepted. -/
structure Kept (s : St) : Prop where
  ids : (s.rows.map Row.id).Nodup
  contents : s.rows.map Row.content = s.enqueued.map Row.content
  published : ∀ r ∈ s.rows, r.status = .published → r.id ∈ s.accepted
  backed : ∀ w, (s.workers w).Backed s.accepted

/-- A statement that leaves the contents alone, and publishes only what the
publisher accepted. -/
theorem Kept.statement {p : Row → Bool} {f : Row → Row} (h : Kept s)
    (hrows : s'.rows = update p f s.rows) (henqueued : s'.enqueued = s.enqueued)
    (haccepted : s'.accepted = s.accepted) (hcontent : ∀ r, (f r).content = r.content)
    (hpublished : ∀ r, p r = true → (f r).status = .published → r.id ∈ s.accepted)
    (hbacked : ∀ w, (s'.workers w).Backed s.accepted) : Kept s' where
  ids := by
    rw [hrows]
    exact nodup_update h.ids fun r => id_of_content (hcontent r)
  contents := by rw [hrows, henqueued, map_update hcontent, h.contents]
  published := by
    rw [hrows, haccepted]
    refine forall_update (fun r _ hp hs => ?_) fun r hr _ => h.published r hr
    rw [id_of_content (hcontent r)]
    exact hpublished r hp hs
  backed := haccepted ▸ hbacked

theorem Kept.goto {w : Nat} {pc : Pc} (h : Kept s) (hpc : pc.Backed s.accepted) :
    Kept (s.goto w pc) :=
  ⟨h.ids, h.contents, h.published, forall_goto h.backed hpc⟩

theorem markFailed_content (cfg : Config V) {row : Claimed} {errMsg : JsString} {now : Int} :
    ∃ f : Row → Row, cfg.markFailed row errMsg now = update (·.id = row.id) f ∧
      (∀ r, (f r).content = r.content) ∧
      ∀ r, (f r).attempts = row.attempts + 1 ∧ (f r).status ≠ .published ∧
        ((f r).status = .dead → cfg.maxAttempts ≤ (row.attempts + 1 : Nat)) := by
  unfold Config.markFailed
  split
  · next hmax =>
      refine ⟨_, rfl, fun _ => rfl, fun _ => ⟨rfl, ?_, fun _ => hmax⟩⟩
      exact Status.noConfusion
  · exact ⟨_, rfl, fun _ => rfl, fun _ => ⟨rfl, Status.noConfusion, Status.noConfusion⟩⟩

theorem Moves.kept {a : Action V} (hm : Moves cfg s a s') (h : Kept s) : Kept s' := by
  cases hm with
  | stays => exact h
  | enqueue row hid hfresh hpending hnew =>
      refine ⟨?_, ?_, fun r hr hs => ?_, h.backed⟩
      · rw [List.map_append, List.nodup_append]
        refine ⟨h.ids, List.nodup_singleton _, fun i hi j hj heq => hfresh ?_⟩
        rw [← hid, ← List.mem_singleton.mp hj, ← heq]
        exact hi
      · rw [List.map_append, List.map_append, h.contents]
      · rcases List.mem_append.mp hr with hold | hlast
        · exact h.published r hold hs
        · rw [List.mem_singleton.mp hlast, hpending] at hs
          cases hs
  | reap now =>
      exact h.statement rfl rfl rfl (fun _ => rfl) (fun _ _ => Status.noConfusion) h.backed
  | claim ids batch hidle hids hpending hbatch =>
      exact h.statement rfl rfl rfl (fun _ => rfl) (fun _ _ => Status.noConfusion)
        (forall_goto h.backed (backed_next _ _))
  | unreadable hpc hevent => exact h.goto trivial
  | rejected hpc =>
      exact ⟨h.ids, h.contents, h.published, forall_goto h.backed trivial⟩
  | accepted hpc =>
      exact ⟨h.ids, h.contents, fun r hr hs => List.mem_cons_of_mem _ (h.published r hr hs),
        forall_goto (fun u => (h.backed u).cons _) List.mem_cons_self⟩
  | @markPublished w _ reply row rest pc hpc hdone hlost =>
      have hrow : row.id ∈ s.accepted := by
        have := h.backed w
        rwa [hpc] at this
      refine h.statement rfl rfl rfl (fun _ => rfl)
        (fun r hp _ => of_decide_eq_true hp ▸ hrow) (forall_goto h.backed ?_)
      by_cases hd : reply = .done
      · rw [hdone hd]
        exact backed_next _ _
      · obtain ⟨message, rfl⟩ := hlost hd
        trivial
  | notPublished hpc => exact h.goto trivial
  | markFailed hpc =>
      obtain ⟨f, hrows, hcontent, hf⟩ := markFailed_content cfg
      exact h.statement (congrFun hrows _) rfl rfl hcontent
        (fun r _ hs => ((hf r).2.1 hs).elim) (forall_goto h.backed (backed_next _ _))
  | notMarked hpc => exact h.goto (backed_next _ _)
  | crash w => exact h.goto trivial

theorem init_kept : Kept St.init :=
  ⟨List.nodup_nil, rfl, fun _ hr => (List.not_mem_nil hr).elim, fun _ => trivial⟩

theorem reach_kept {ok : St → Action V → Prop} (h : Reach (step cfg) ok St.init s) : Kept s :=
  h.invariant init_kept fun _ _ _ hI _ hs => (step_moves hI.ids hs).kept hI

/-! ## Runs without late marks -/

/-- The row in a worker's hands. -/
def Pc.row : Pc → Option Claimed
  | .idle => none
  | .publishing row _ => some row
  | .accepted row _ => some row
  | .failed row _ _ => some row

/-- The claim of the row in the worker's hands has been neither marked nor taken
back. -/
def St.stands (s : St) (w : Nat) : Bool := (s.workers w).row.all fun row => s.holder row.id = some w

/-- The row in the worker's hands parses. -/
def Config.readable (cfg : Config V) (s : St) (w : Nat) : Bool :=
  (s.workers w).row.all fun row => (cfg.event row).isOk

/-- What a step must meet: a mark is applied only while the worker's claim still
stands, marking a row published does not fail, and the row's texts parse. -/
def Config.standing (cfg : Config V) (s : St) : Action V → Bool
  | .publish w _ => cfg.readable s w
  | .markPublished w _ reply => reply = .done && s.stands w
  | .markFailed w _ applied => !applied || s.stands w
  | _ => true

/-- What a worker holds was claimed after as many rejections as it says, and in
the `catch` block after one more. -/
def Pc.Counted (rejected : List Nat) (pc : Pc) : Prop :=
  (∀ c ∈ pc.held, c.attempts ≤ rejected.count c.id) ∧
    ∀ row rest errMsg, pc = .failed row rest errMsg → row.attempts + 1 ≤ rejected.count row.id

theorem Pc.Counted.tail {rejected : List Nat} {pc : Pc} {row : Claimed} {rest : List Claimed}
    (h : pc.Counted rejected) (hheld : pc.held = row :: rest) :
    (Pc.next rest).Counted rejected := by
  have hrest : ∀ c ∈ rest, c.attempts ≤ rejected.count c.id := fun c hc =>
    h.1 c (hheld ▸ List.mem_cons_of_mem _ hc)
  cases rest with
  | nil =>
      refine ⟨fun c hc => (List.not_mem_nil hc).elim, fun _ _ _ heq => ?_⟩
      cases heq
  | cons c cs =>
      refine ⟨hrest, fun _ _ _ heq => ?_⟩
      cases heq

theorem Pc.Counted.cons {rejected : List Nat} {pc : Pc} (h : pc.Counted rejected) (id : Nat) :
    pc.Counted (id :: rejected) :=
  ⟨fun c hc => (h.1 c hc).trans List.count_le_count_cons,
    fun _ _ _ heq => (h.2 _ _ _ heq).trans List.count_le_count_cons⟩

/-- A worker without a failure to report. -/
theorem counted_of_held {rejected : List Nat} {pc : Pc}
    (hheld : ∀ c ∈ pc.held, c.attempts ≤ rejected.count c.id)
    (hpc : ∀ row rest errMsg, pc ≠ .failed row rest errMsg) : pc.Counted rejected :=
  ⟨hheld, fun _ _ _ heq => (hpc _ _ _ heq).elim⟩

/-- Attempts are rejections, and a claim that stands is of a row in flight. -/
structure Standing (cfg : Config V) (s : St) : Prop where
  attempts : ∀ r ∈ s.rows, r.attempts ≤ s.rejected.count r.id
  dead : ∀ r ∈ s.rows, r.status = .dead → cfg.maxAttempts ≤ (s.rejected.count r.id : Nat)
  inFlight : ∀ r ∈ s.rows, s.holder r.id ≠ none → r.status = .inFlight
  known : ∀ id, s.holder id ≠ none → id ∈ s.rows.map Row.id
  counted : ∀ w, (s.workers w).Counted s.rejected

theorem Standing.goto {w : Nat} {pc : Pc} (h : Standing cfg s) (hpc : pc.Counted s.rejected) :
    Standing cfg (s.goto w pc) :=
  ⟨h.attempts, h.dead, h.inFlight, h.known, forall_goto h.counted hpc⟩

/-- A statement on the rows with `p`: what it assigns, and the claims that stand
after it. -/
theorem Standing.statement {p : Row → Bool} {f : Row → Row} (h : Standing cfg s)
    {holder : Nat → Option Nat} (hcontent : ∀ r, (f r).content = r.content)
    (hattempts : ∀ r ∈ s.rows, p r = true → (f r).attempts ≤ s.rejected.count r.id)
    (hdead : ∀ r ∈ s.rows, p r = true → (f r).status = .dead →
      cfg.maxAttempts ≤ (s.rejected.count r.id : Nat))
    (htouched : ∀ r ∈ s.rows, p r = true → holder r.id ≠ none → (f r).status = .inFlight)
    (hother : ∀ r ∈ s.rows, p r = false → holder r.id ≠ none → s.holder r.id ≠ none)
    (hknown : ∀ id, holder id ≠ none → id ∈ s.rows.map Row.id) :
    Standing cfg { s with rows := update p f s.rows, holder := holder } where
  attempts := by
    refine forall_update (fun r hr hp => ?_) fun r hr _ => h.attempts r hr
    rw [id_of_content (hcontent r)]
    exact hattempts r hr hp
  dead := by
    refine forall_update (fun r hr hp hs => ?_) fun r hr _ => h.dead r hr
    rw [id_of_content (hcontent r)]
    exact hdead r hr hp hs
  inFlight := by
    refine forall_update (fun r hr hp hne => ?_) fun r hr hp hne => ?_
    · rw [id_of_content (hcontent r)] at hne
      exact htouched r hr hp hne
    · exact h.inFlight r hr (hother r hr hp hne)
  known := by
    show ∀ id, holder id ≠ none → id ∈ (update p f s.rows).map Row.id
    rw [map_update fun r => id_of_content (hcontent r)]
    exact hknown
  counted := h.counted

/-- The claim of a row ends with the statement that marks it. -/
theorem Standing.mark {id : Nat} {f : Row → Row} (h : Standing cfg s)
    (hcontent : ∀ r, (f r).content = r.content)
    (hattempts : ∀ r ∈ s.rows, r.id = id → (f r).attempts ≤ s.rejected.count id)
    (hdead : ∀ r ∈ s.rows, r.id = id → (f r).status = .dead →
      cfg.maxAttempts ≤ (s.rejected.count id : Nat)) :
    Standing cfg { s.release id with rows := update (·.id = id) f s.rows } := by
  have hholder : ∀ i, Function.update s.holder id none i ≠ none → i ≠ id ∧ s.holder i ≠ none := by
    intro i hne
    by_cases hi : i = id
    · rw [hi, Function.update_self] at hne
      exact (hne rfl).elim
    · rw [Function.update_of_ne hi] at hne
      exact ⟨hi, hne⟩
  refine h.statement hcontent (fun r hr hp => ?_) (fun r hr hp hs => ?_) (fun r hr hp hne => ?_)
    (fun r _ _ hne => (hholder _ hne).2) fun i hne => h.known i (hholder i hne).2
  · exact of_decide_eq_true hp ▸ hattempts r hr (of_decide_eq_true hp)
  · exact of_decide_eq_true hp ▸ hdead r hr (of_decide_eq_true hp) hs
  · exact ((hholder _ hne).1 (of_decide_eq_true hp)).elim

/-- No mark of a claim that stands reaches a row that is published or dead. -/
theorem Standing.stands_inFlight (h : Standing cfg s) {w : Nat} {row : Claimed}
    (hrow : (s.workers w).row = some row) (hstands : s.stands w = true) {r : Row} (hr : r ∈ s.rows)
    (hid : r.id = row.id) : r.status = .inFlight := by
  rw [St.stands, hrow, Option.all_some, decide_eq_true_eq] at hstands
  refine h.inFlight r hr ?_
  rw [hid, hstands]
  exact Option.some_ne_none w

theorem Moves.standing {a : Action V} (hm : Moves cfg s a s') (hok : cfg.standing s a = true)
    (h : Standing cfg s) : Standing cfg s' := by
  cases hm with
  | stays => exact h
  | enqueue row hid hfresh hpending hnew =>
      refine ⟨fun r hr => ?_, fun r hr hs => ?_, fun r hr hne => ?_, fun i hne => ?_, h.counted⟩
      · rcases List.mem_append.mp hr with hold | hlast
        · exact h.attempts r hold
        · rw [List.mem_singleton.mp hlast, hnew]
          exact Nat.zero_le _
      · rcases List.mem_append.mp hr with hold | hlast
        · exact h.dead r hold hs
        · rw [List.mem_singleton.mp hlast, hpending] at hs
          cases hs
      · rcases List.mem_append.mp hr with hold | hlast
        · exact h.inFlight r hold hne
        · rw [List.mem_singleton.mp hlast, hid] at hne
          exact (hfresh (h.known _ hne)).elim
      · rw [List.map_append]
        exact List.mem_append_left _ (h.known i hne)
  | reap now =>
      have hholder : ∀ i, (if s.rows.any fun r => r.id = i ∧ stale (now - cfg.claimReclaimMs) r
          then none else s.holder i) ≠ none → s.holder i ≠ none ∧
            ∀ r ∈ s.rows, r.id = i → stale (now - cfg.claimReclaimMs) r = false := by
        intro i hne
        split at hne
        · exact (hne rfl).elim
        · next hany =>
            refine ⟨hne, fun r hr hid => Bool.eq_false_iff.mpr fun hs => hany ?_⟩
            exact List.any_eq_true.mpr ⟨r, hr, decide_eq_true ⟨hid, hs⟩⟩
      refine h.statement (fun _ => rfl) (fun r hr _ => h.attempts r hr) (fun r _ _ hs => ?_)
        (fun r hr hp hne => ?_) (fun r _ _ hne => (hholder _ hne).1)
        fun i hne => h.known i (hholder i hne).1
      · cases hs
      · rw [(hholder _ hne).2 r hr rfl] at hp
        cases hp
  | @claim w _ _ _ _ _ ids batch hidle hids hpending hbatch =>
      refine Standing.goto (h.statement (fun _ => rfl) (fun r hr _ => h.attempts r hr)
        (fun r _ _ hs => ?_) (fun _ _ _ _ => rfl) (fun r _ hp hne => ?_) fun i hne => ?_) ?_
      · cases hs
      · rwa [if_neg (of_decide_eq_false hp)] at hne
      · split at hne
        · next hi => exact hids i hi
        · exact h.known i hne
      · have hheld : ∀ c ∈ batch, c.attempts ≤ s.rejected.count c.id := by
          intro c hc
          obtain ⟨r, hr, rfl⟩ := hbatch c hc
          exact h.attempts r hr
        cases batch with
        | nil =>
          exact counted_of_held (fun c hc => (List.not_mem_nil hc).elim) fun _ _ _ =>
            Pc.noConfusion
        | cons c cs => exact counted_of_held hheld fun _ _ _ => Pc.noConfusion
  | @unreadable w _ row rest message hpc hevent =>
      rw [Config.standing, Config.readable, hpc] at hok
      simp only [Pc.row, Option.all_some, hevent] at hok
      cases hok
  | @rejected w row rest message hpc =>
      have hw := h.counted w
      rw [hpc] at hw
      refine ⟨fun r hr => (h.attempts r hr).trans List.count_le_count_cons, fun r hr hs => ?_,
        h.inFlight, h.known, forall_goto (fun u => (h.counted u).cons _) ?_⟩
      · refine (h.dead r hr hs).trans ?_
        exact_mod_cast (List.count_le_count_cons : _ ≤ (row.id :: s.rejected).count r.id)
      · refine ⟨(hw.cons row.id).1, fun row' rest' message' heq => ?_⟩
        cases heq
        show row.attempts + 1 ≤ (row.id :: s.rejected).count row.id
        rw [List.count_cons_self]
        exact Nat.succ_le_succ (hw.1 row List.mem_cons_self)
  | @accepted w row rest hpc =>
      have hw := h.counted w
      rw [hpc] at hw
      exact ⟨h.attempts, h.dead, h.inFlight, h.known,
        forall_goto h.counted (counted_of_held hw.1 fun _ _ _ => Pc.noConfusion)⟩
  | @markPublished w _ reply row rest pc hpc hdone hlost =>
      rw [Config.standing, Bool.and_eq_true, decide_eq_true_eq] at hok
      have hw := h.counted w
      rw [hpc] at hw
      rw [hdone hok.1]
      refine Standing.goto (h.mark (fun _ => rfl) (fun r hr hid => ?_) fun _ _ _ hs => ?_)
        (hw.tail rfl)
      · exact hid ▸ h.attempts r hr
      · cases hs
  | notPublished hpc =>
      rw [Config.standing, Bool.and_eq_true, decide_eq_true_eq] at hok
      cases hok.1
  | @markFailed w _ row rest errMsg hpc =>
      have hw := h.counted w
      rw [hpc] at hw
      obtain ⟨f, hrows, hcontent, hf⟩ := markFailed_content cfg
      have hcount : row.attempts + 1 ≤ s.rejected.count row.id := hw.2 _ _ _ rfl
      rw [hrows]
      refine Standing.goto (h.mark hcontent (fun r _ _ => (hf r).1 ▸ hcount) fun r _ _ hs => ?_)
        (hw.tail rfl)
      exact ((hf r).2.2 hs).trans (by exact_mod_cast hcount)
  | @notMarked w _ row rest errMsg hpc =>
      have hw := h.counted w
      rw [hpc] at hw
      exact h.goto (hw.tail rfl)
  | crash w =>
      exact h.goto (counted_of_held (fun c hc => (List.not_mem_nil hc).elim) fun _ _ _ =>
        Pc.noConfusion)

/-- A row that is published or dead is so after the step. -/
theorem Moves.settled {a : Action V} (hm : Moves cfg s a s') (hok : cfg.standing s a = true)
    (h : Standing cfg s) {r : Row} (hr : r ∈ s.rows) (hterminal : r.status.terminal = true) :
    r ∈ s'.rows := by
  have hother : ∀ {p : Row → Bool} {f : Row → Row},
      (p r = true → r.status = .inFlight ∨ r.status = .pending) → r ∈ update p f s.rows := by
    intro p f hp
    refine mem_update_other hr (Bool.eq_false_iff.mpr fun hpr => ?_)
    rcases hp hpr with heq | heq
    · rw [heq] at hterminal
      cases hterminal
    · rw [heq] at hterminal
      cases hterminal
  cases hm with
  | enqueue row hid hfresh hpending hnew => exact List.mem_append_left _ hr
  | reap now => exact hother fun hp => .inl (of_decide_eq_true hp).1
  | claim ids batch hidle hids hpending hbatch =>
      exact hother fun hp => .inr (hpending r hr (of_decide_eq_true hp))
  | @markPublished w _ reply row rest pc hpc hdone hlost =>
      rw [Config.standing, Bool.and_eq_true] at hok
      have hrow : (s.workers w).row = some row := by rw [hpc]; rfl
      exact hother fun hp => .inl (h.stands_inFlight hrow hok.2 hr (of_decide_eq_true hp))
  | @markFailed w _ row rest errMsg hpc =>
      have hrow : (s.workers w).row = some row := by rw [hpc]; rfl
      obtain ⟨f, hrows, -, -⟩ := markFailed_content cfg
      rw [hrows]
      exact hother fun hp => .inl (h.stands_inFlight hrow hok hr (of_decide_eq_true hp))
  | _ => exact hr

/-! ## Whole runs -/

/-- No event is lost: the rows are the committed events with their data, a row
is published only if the publisher accepted it, and a row in flight can be taken
back once its claim is old. -/
structure Intact (cfg : Config V) (s : St) : Prop where
  ids : (s.rows.map Row.id).Nodup
  contents : s.rows.map Row.content = s.enqueued.map Row.content
  published : ∀ r ∈ s.rows, r.status = .published → r.id ∈ s.accepted
  reaped : ∀ r ∈ s.rows, r.status = .inFlight → ∀ now,
    (∀ t, r.claimedAt = some t → t ≤ now - cfg.claimReclaimMs) → ∃ s',
      step cfg s (.reap now) = some s' ∧
        ∃ r' ∈ s'.rows, r'.content = r.content ∧ r'.status = .pending

/-- In the runs whose steps meet `ok`, a row that is published or dead stays as
it is. -/
def TerminalStays (cfg : Config V) (ok : St → Action V → Prop) : Prop :=
  ∀ s s', Reach (step cfg) ok St.init s → Reach (step cfg) ok s s' →
    ∀ r ∈ s.rows, r.status.terminal = true →
      ∃ r' ∈ s'.rows, r'.content = r.content ∧ r'.status = r.status

/-- In the runs whose steps meet `ok`, the publisher rejected a dead row
`maxAttempts` times. -/
def DeadByPublisher (cfg : Config V) (ok : St → Action V → Prop) : Prop :=
  ∀ s, Reach (step cfg) ok St.init s → ∀ r ∈ s.rows, r.status = .dead →
    cfg.maxAttempts ≤ (s.rejected.count r.id : Nat)

theorem Kept.intact (h : Kept s) : Intact cfg s where
  ids := h.ids
  contents := h.contents
  published := h.published
  reaped r hr hs now hold := by
    have hstale : stale (now - cfg.claimReclaimMs) r = true := by
      refine decide_eq_true ⟨hs, ?_⟩
      cases ht : r.claimedAt with
      | none => rfl
      | some t => exact decide_eq_true (hold t ht)
    exact ⟨_, rfl, _, mem_update_touched hr hstale, rfl, rfl⟩

theorem reach_standing
    (h : Reach (step cfg) (fun s a => cfg.standing s a = true) St.init s) : Standing cfg s := by
  refine h.invariant_of (J := Kept) (fun _ hr => reach_kept hr) ?_
    fun _ _ _ hk _ hI hok hs => (step_moves hk.ids hs).standing hok hI
  exact ⟨fun _ hr => (List.not_mem_nil hr).elim, fun _ hr => (List.not_mem_nil hr).elim,
    fun _ hr => (List.not_mem_nil hr).elim, fun _ hne => (hne rfl).elim,
    fun _ => counted_of_held (fun _ hc => (List.not_mem_nil hc).elim) fun _ _ _ => Pc.noConfusion⟩

/-- No run loses an event. In every run whose marks are applied only while the
claim they answer still stands, whose published-marks do not fail and whose rows
parse, published and dead rows stay as they are, and a dead row was rejected by
the publisher `maxAttempts` times. -/
theorem terminal_rows_stay (cfg : Config V) :
    (∀ s, Reach (step cfg) Always St.init s → Intact cfg s) ∧
      TerminalStays cfg (fun s a => cfg.standing s a = true) ∧
      DeadByPublisher cfg (fun s a => cfg.standing s a = true) := by
  refine ⟨fun s h => (reach_kept h).intact, fun s s' hs hs' r hr hterminal => ?_, fun s h =>
    (reach_standing h).dead⟩
  refine ⟨r, ?_, rfl, rfl⟩
  induction hs' with
  | start => exact hr
  | next hreach hok hstep ih =>
      have hrun := hs.trans hreach
      exact (step_moves (reach_kept hrun).ids hstep).settled hok (reach_standing hrun) ih hterminal

/-- A worker on a backend with SKIP LOCKED whose texts are their own values. -/
def textConfig (maxAttempts : Rat) : Config JsString where
  batchSize := 10
  maxAttempts := maxAttempts
  claimReclaimMs := 300000
  backoffInitial := 1000
  backoffMax := 300000
  backoffFactor := 2
  supportsSkipLocked := true
  stringify := .ok
  parse _ text := .ok text

def debitEvent : NewEvent JsString := ⟨some (units "debit"), some (units "5"), .missing, .missing⟩

/-- `debitEvent` as it is enqueued at 0 under the id 1. -/
def debitRow : Row :=
  ⟨1, units "debit", units "5", none, none, 0, 0, none, none, 0, none, .pending⟩

/-- Worker 1 claims the row and stalls; the row is taken back, and worker 2
publishes it. -/
def takenBackRun : List (Action JsString) :=
  [.enqueue debitEvent 1 0,
    .claim 1 0 0 [] [debitRow] [],
    .reap 300000,
    .claim 2 300000 300000 [] [debitRow] [],
    .publish 2 .resolved,
    .markPublished 2 300001 .done]

/-- The publisher rejects the event for worker 1 after all. -/
def lateRun : List (Action JsString) :=
  [.publish 1 (.threw (units "timeout")), .markFailed 1 300002 true]

/-- The publisher accepts the event and the mark fails, on the only attempt. -/
def unmarkedRun : List (Action JsString) :=
  [.enqueue debitEvent 1 0,
    .claim 1 0 0 [] [debitRow] [],
    .publish 1 .resolved,
    .markPublished 1 1 (.refused (units "timeout")),
    .markFailed 1 2 true]

theorem late_marks :
    ¬ TerminalStays (textConfig 3) Always ∧ ¬ DeadByPublisher (textConfig 1) Always := by
  constructor
  · intro h
    obtain ⟨s, hs, hpublished, s', hs', hpending⟩ : ∃ s,
        exec (step (textConfig 3)) St.init takenBackRun = some s ∧
        s.rows.map Row.status = [.published] ∧
        ∃ s', exec (step (textConfig 3)) s lateRun = some s' ∧
          s'.rows.map Row.status = [.pending] := ⟨_, rfl, rfl, _, rfl, rfl⟩
    obtain ⟨r, hrows, hstatus⟩ := List.map_eq_singleton_iff.mp hpublished
    obtain ⟨r', hr', -, hsame⟩ := h s s' (reach_of_exec _ hs) (reach_of_exec _ hs') r
      (hrows ▸ List.mem_cons_self) (hstatus ▸ rfl)
    have hmem : r'.status ∈ s'.rows.map Row.status := List.mem_map_of_mem hr'
    rw [hpending, List.mem_singleton, hsame, hstatus] at hmem
    cases hmem
  · intro h
    obtain ⟨s, hs, hdead, hrejected⟩ : ∃ s,
        exec (step (textConfig 1)) St.init unmarkedRun = some s ∧
        s.rows.map Row.status = [.dead] ∧ s.rejected = [] := ⟨_, rfl, rfl, rfl⟩
    obtain ⟨r, hrows, hstatus⟩ := List.map_eq_singleton_iff.mp hdead
    have hmax := h s (reach_of_exec _ hs) r (hrows ▸ List.mem_cons_self) hstatus
    rw [hrejected, List.count_nil] at hmax
    exact absurd hmax (by decide)

/-- The first worker crashes after its claim, the claim is taken back, and the
publisher accepts one event and rejects the other. -/
def crashedRun : List (Action JsString) :=
  [.enqueue debitEvent 1 0,
    .enqueue debitEvent 2 0,
    .claim 1 0 0 [] [debitRow, { debitRow with id := 2 }] [],
    .crash 1,
    .reap 300000,
    .claim 2 300000 300000 [] [debitRow, { debitRow with id := 2 }] [],
    .publish 2 .resolved,
    .markPublished 2 300001 .done,
    .publish 2 (.threw (units "timeout")),
    .markFailed 2 300002 true]

theorem terminal_rows_stay_crashed : ∃ s,
    exec (guarded (step (textConfig 1)) (textConfig 1).standing) St.init crashedRun = some s ∧
    s.rows.map Row.status = [.published, .dead] ∧ s.rejected = [2] ∧
    ∀ s', Reach (step (textConfig 1)) (fun s a => (textConfig 1).standing s a = true) s s' →
      ∀ r ∈ s.rows, r.status.terminal = true →
        ∃ r' ∈ s'.rows, r'.content = r.content ∧ r'.status = r.status :=
  ⟨_, rfl, rfl, rfl, fun s' hs' => (terminal_rows_stay (textConfig 1)).2.1 _ s'
    (reach_of_exec_guarded crashedRun rfl) hs'⟩

end Blamejs.Outbox
