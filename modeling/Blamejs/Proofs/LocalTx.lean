import Blamejs.Ref.LocalTx

/-!
# Transactions exclude each other while every ROLLBACK works

A call goes on only when it sees no active transaction, and a transaction sets the variable
before it yields, so the one that is set is the one that is open. The last step of a
transaction gives the connection back; where its COMMIT and its ROLLBACK both fail, or the
ROLLBACK of a body that threw, the variable is cleared all the same.
-/

namespace Blamejs.LocalTx

open Run

variable {W : Type} {s s' : St W} {c d : Caller}

/-- The call has begun its transaction and has not ended it. -/
def Pc.isOpen : Pc W → Prop
  | .body => True
  | .settled _ => True
  | _ => False

/-- The statements `c` has sent since its BEGIN end with no COMMIT or ROLLBACK that worked. -/
def OpenIn (log : List (Event W)) (c : Caller) : Prop :=
  ∃ before since, log = before ++ ⟨c, .begin, true⟩ :: since ∧
    ∀ e ∈ since, ¬ (e.caller = c ∧ e.ok = true ∧ (e.sql = .commit ∨ e.sql = .rollback))

/-- Between a BEGIN and the end of its transaction nobody else reaches the connection. -/
def Exclusive (log : List (Event W)) : Prop :=
  ∀ before e after c, log = before ++ e :: after → OpenIn before c → e.caller = c

/-- What is claimed of a state. -/
structure Isolated (s : St W) : Prop where
  /-- At most one transaction is open. -/
  one : ∀ c d, (s.pc c).isOpen → (s.pc d).isOpen → c = d
  exclusive : Exclusive s.log
  /-- With no transaction open the connection is outside of one. -/
  idle : (∀ c, ¬ (s.pc c).isOpen) → s.conn.working = none
  /-- A transaction that failed has left nothing. -/
  undone : ∀ c, s.pc c = .done false →
    (∀ w ∈ s.conn.committed, w.1 ≠ c) ∧ ∀ db, s.conn.working = some db → ∀ w ∈ db, w.1 ≠ c

/-! ## The log -/

theorem OpenIn.of_append {log : List (Event W)} {e : Event W} (h : OpenIn (log ++ [e]) c) :
    e = ⟨c, .begin, true⟩ ∨
      (OpenIn log c ∧ ¬ (e.caller = c ∧ e.ok = true ∧ (e.sql = .commit ∨ e.sql = .rollback))) := by
  obtain ⟨before, since, heq, hno⟩ := h
  obtain rfl | ⟨since, e', rfl⟩ := List.eq_nil_or_concat since
  · obtain ⟨-, he⟩ := List.append_inj' heq rfl
    exact .inl (List.singleton_inj.mp he)
  · rw [List.concat_eq_append] at heq hno
    rw [← List.cons_append, ← List.append_assoc] at heq
    obtain ⟨hlog, he⟩ := List.append_inj' heq rfl
    obtain rfl := List.singleton_inj.mp he
    exact .inr ⟨⟨before, since, hlog, fun e' he' => hno e' (by simp [he'])⟩, hno e (by simp)⟩

theorem Exclusive.append {log : List (Event W)} {e : Event W} (h : Exclusive log)
    (he : ∀ c, OpenIn log c → e.caller = c) : Exclusive (log ++ [e]) := by
  intro before e' after c heq hopen
  obtain rfl | ⟨after, e'', rfl⟩ := List.eq_nil_or_concat after
  · obtain ⟨rfl, he'⟩ := List.append_inj' heq rfl
    obtain rfl := List.singleton_inj.mp he'
    exact he c hopen
  · rw [List.concat_eq_append, ← List.cons_append, ← List.append_assoc] at heq
    exact h before e' after c (List.append_inj' heq rfl).1 hopen

/-! ## The invariant -/

structure Inv (s : St W) : Prop where
  /-- The variable names the transaction that is open. -/
  active : ∀ c, s.activeTx = some c ↔ (s.pc c).isOpen
  logged : ∀ c, OpenIn s.log c → (s.pc c).isOpen
  exclusive : Exclusive s.log
  working : s.activeTx = none ↔ s.conn.working = none
  /-- What is in the database comes from calls that succeeded. -/
  owner : ∀ w ∈ s.conn.committed, s.pc w.1 = .executed true ∨ s.pc w.1 = .done true
  writes : ∀ db, s.conn.working = some db → ∀ w ∈ db,
    w ∈ s.conn.committed ∨ s.activeTx = some w.1

theorem Inv.init : Inv (St.init W) where
  active c := by simp [St.init, Pc.isOpen]
  logged c h := by
    obtain ⟨before, since, heq, -⟩ := h
    simp [St.init] at heq
  exclusive before e after c heq := by simp [St.init] at heq
  working := by simp [St.init]
  owner w h := by simp [St.init] at h
  writes db h := by simp [St.init] at h

theorem Inv.one (h : Inv s) (hc : (s.pc c).isOpen) (hd : (s.pc d).isOpen) : c = d := by
  rw [← h.active] at hc hd
  rw [hc] at hd
  exact Option.some.inj hd

theorem Inv.isolated (h : Inv s) : Isolated s where
  one c d hc hd := h.one hc hd
  exclusive := h.exclusive
  idle hno := by
    rw [← h.working]
    cases hactive : s.activeTx with
    | none => rfl
    | some c => exact absurd ((h.active c).mp hactive) (hno c)
  undone c hc := by
    have hcommitted : ∀ w ∈ s.conn.committed, w.1 ≠ c := by
      rintro w hw rfl
      have := h.owner w hw
      simp [hc] at this
    refine ⟨hcommitted, fun db hdb w hw => ?_⟩
    obtain hw | hw := h.writes db hdb w hw
    · exact hcommitted w hw
    · rintro rfl
      have := (h.active _).mp hw
      simp [hc, Pc.isOpen] at this

theorem setPc_pc (s : St W) (c d : Caller) (pc : Pc W) :
    (s.setPc c pc).pc d = if d = c then pc else s.pc d := rfl

/-- A call that is in nobody's way may take up another place outside transactions. -/
theorem Inv.moved (h : Inv s) {pc : Pc W} (hc : ¬ (s.pc c).isOpen) (hpc : ¬ pc.isOpen)
    (hold : s.pc c ≠ .executed true ∧ s.pc c ≠ .done true) : Inv (s.setPc c pc) where
  active d := by
    rw [setPc_pc]
    split
    next heq => exact iff_of_false (fun hd => hc (heq ▸ (h.active d).mp hd)) hpc
    next => exact h.active d
  logged d hd := by
    rw [setPc_pc]
    split
    next heq => exact absurd (heq ▸ h.logged d hd) hc
    next => exact h.logged d hd
  exclusive := h.exclusive
  working := h.working
  owner w hw := by
    have := h.owner w hw
    rw [setPc_pc]
    split
    next heq =>
      rw [heq] at this
      exact (this.elim hold.1 hold.2).elim
    next => exact this
  writes := h.writes

/-- Nobody is in a transaction. -/
theorem Inv.none_open (h : Inv s) (hactive : s.activeTx = none) : ¬ (s.pc c).isOpen := by
  rw [← h.active, hactive]
  simp

theorem Inv.none_logged (h : Inv s) (hactive : s.activeTx = none) : ¬ OpenIn s.log c :=
  fun hopen => h.none_open hactive (h.logged c hopen)

/-- What is committed is of callers whose write or transaction is done. -/
theorem Inv.owner_ne (h : Inv s) (hold : s.pc c ≠ .executed true ∧ s.pc c ≠ .done true) :
    ∀ v ∈ s.conn.committed, v.1 ≠ c := by
  rintro v hv rfl
  exact (h.owner v hv).elim hold.1 hold.2

theorem open_not_done (hc : (s.pc c).isOpen) : s.pc c ≠ .executed true ∧ s.pc c ≠ .done true := by
  refine ⟨fun h => ?_, fun h => ?_⟩
  · simp [h, Pc.isOpen] at hc
  · simp [h, Pc.isOpen] at hc

/-! ## What reaches the connection -/

/-- The connection after a statement. -/
def Conn.write (conn : Conn W) (c : Caller) (w : W) : Conn W :=
  match conn.working with
  | none => { conn with committed := conn.committed ++ [(c, w)] }
  | some db => { conn with working := some (db ++ [(c, w)]) }

theorem localExec_stmt (conn : Conn W) (c : Caller) (w : W) (fails : Bool) :
    localExec conn c (.stmt w) fails = if fails then none else some (conn.write c w) := by
  cases fails with
  | true => rfl
  | false =>
      obtain ⟨committed, working⟩ := conn
      cases working <;> rfl

theorem run_stmt (s : St W) (c : Caller) (w : W) (fails : Bool) :
    s.run c (.stmt w) fails =
      { s with
        conn := if fails then s.conn else s.conn.write c w
        log := s.log ++ [⟨c, .stmt w, !fails⟩] } := by
  rw [St.run, localExec_stmt]
  cases fails <;> rfl

theorem returns_stmt (s : St W) (c : Caller) (w : W) (fails : Bool) :
    s.returns c (.stmt w) fails = !fails := by
  rw [St.returns, localExec_stmt]
  cases fails <;> rfl

/-- An event that ends no transaction and begins none leaves the open ones open. -/
theorem OpenIn.old {log : List (Event W)} {e : Event W} (h : OpenIn (log ++ [e]) c)
    (he : e ≠ ⟨c, .begin, true⟩) : OpenIn log c :=
  h.of_append.elim (fun h => absurd h he) And.left

/-! ## What a call does when it goes on -/

theorem Inv.execute (h : Inv s) {w : W} {fails : Bool} (hc : ¬ (s.pc c).isOpen)
    (hold : s.pc c ≠ .executed true ∧ s.pc c ≠ .done true) : Inv (s.execute c w fails) := by
  rw [St.execute]
  cases hactive : s.activeTx with
  | some on => exact h.moved hc (by simp [Pc.isOpen]) hold
  | none =>
      dsimp only
      rw [run_stmt, returns_stmt]
      have hworking : s.conn.working = none := h.working.mp hactive
      have howner := h.owner_ne hold
      have hnew : (if fails then s.conn else s.conn.write c w).working = none := by
        cases fails
        · show (s.conn.write c w).working = none
          rw [Conn.write, hworking]
        · exact hworking
      constructor
      · intro d
        show s.activeTx = some d ↔ (if d = c then Pc.executed !fails else s.pc d).isOpen
        by_cases heq : d = c
        · rw [if_pos heq]
          simp [hactive, Pc.isOpen]
        · rw [if_neg heq]
          exact h.active d
      · intro d hopen
        exact (h.none_logged hactive (hopen.old (by simp))).elim
      · exact h.exclusive.append fun d hd => (h.none_logged hactive hd).elim
      · exact iff_of_true hactive hnew
      · intro v hv
        rw [setPc_pc]
        cases fails with
        | true =>
            rw [if_neg (howner v hv)]
            exact h.owner v hv
        | false =>
            have hv : v ∈ s.conn.committed ++ [(c, w)] := by
              simpa [St.setPc, Conn.write, hworking] using hv
            obtain hv | hv := List.mem_append.mp hv
            · rw [if_neg (howner v hv)]
              exact h.owner v hv
            · rw [List.mem_singleton.mp hv, if_pos rfl]
              exact .inl rfl
      · intro db hdb
        exact absurd (hnew.symm.trans hdb) (by simp)

theorem Inv.transaction (h : Inv s) {beginFails : Bool} (hc : ¬ (s.pc c).isOpen)
    (hold : s.pc c ≠ .executed true ∧ s.pc c ≠ .done true) :
    Inv (s.transaction c beginFails) := by
  rw [St.transaction]
  cases hactive : s.activeTx with
  | some on => exact h.moved hc (by simp [Pc.isOpen]) hold
  | none =>
      have hworking : s.conn.working = none := h.working.mp hactive
      have howner := h.owner_ne hold
      cases beginFails with
      | true =>
          show Inv { (St.release _ c false) with log := s.log ++ [⟨c, .begin, false⟩] }
          constructor
          · intro d
            show none = some d ↔ (if d = c then Pc.done false else s.pc d).isOpen
            split
            · simp [Pc.isOpen]
            · rw [← hactive]
              exact h.active d
          · intro d hopen
            exact (h.none_logged hactive (hopen.old (by simp))).elim
          · exact h.exclusive.append fun d hd => (h.none_logged hactive hd).elim
          · exact iff_of_true rfl hworking
          · intro v hv
            show (if v.1 = c then Pc.done false else s.pc v.1) = _ ∨
              (if v.1 = c then Pc.done false else s.pc v.1) = _
            rw [if_neg (howner v hv)]
            exact h.owner v hv
          · intro db hdb
            exact absurd (hworking.symm.trans hdb) (by simp)
      | false =>
          have hexec : localExec s.conn c .begin false =
              some { s.conn with working := some s.conn.committed } := by
            simp [localExec, hworking]
          have hreturns : s.returns c .begin false = true := by rw [St.returns, hexec]; rfl
          dsimp only
          rw [if_pos hreturns, St.run, hexec]
          dsimp only [Option.getD_some, Option.isSome_some]
          constructor
          · intro d
            rw [setPc_pc]
            show some c = some d ↔ _
            split
            next heq => simp [heq, Pc.isOpen]
            next hne =>
              refine iff_of_false (fun heq => hne (Option.some.inj heq).symm) ?_
              exact h.none_open hactive
          · intro d hopen
            obtain heq | ⟨hopen, -⟩ := hopen.of_append
            · obtain rfl : c = d := congrArg Event.caller heq
              rw [setPc_pc, if_pos rfl]
              trivial
            · exact (h.none_logged hactive hopen).elim
          · exact h.exclusive.append fun d hd => (h.none_logged hactive hd).elim
          · exact iff_of_false (by simp [St.setPc]) (by simp [St.setPc])
          · intro v hv
            rw [setPc_pc, if_neg (howner v hv)]
            exact h.owner v hv
          · intro db hdb v hv
            obtain rfl : s.conn.committed = db := Option.some.inj hdb
            exact .inl hv

/-! ## What happens inside a transaction -/

/-- The connection is in the transaction of the one that is open. -/
theorem Inv.in_transaction (h : Inv s) (hc : (s.pc c).isOpen) :
    s.activeTx = some c ∧ ∃ db, s.conn.working = some db := by
  have hactive := (h.active c).mpr hc
  refine ⟨hactive, Option.ne_none_iff_exists'.mp fun hnone => ?_⟩
  rw [h.working.mpr hnone] at hactive
  cases hactive

theorem Inv.tx (h : Inv s) {w : W} {fails : Bool} (hc : (s.pc c).isOpen) :
    Inv (s.run c (.stmt w) fails) := by
  obtain ⟨hactive, db, hdb⟩ := h.in_transaction hc
  rw [run_stmt]
  have hwrite : s.conn.write c w = { s.conn with working := some (db ++ [(c, w)]) } := by
    rw [Conn.write, hdb]
  rw [hwrite]
  constructor
  · exact h.active
  · intro d hopen
    exact h.logged d (hopen.old (by simp))
  · exact h.exclusive.append fun d hd => h.one hc (h.logged d hd)
  · refine iff_of_false (by simp [hactive]) ?_
    cases fails <;> simp [hdb]
  · intro v hv
    refine h.owner v ?_
    cases fails <;> exact hv
  · intro db' hdb' v hv
    cases fails with
    | true => exact h.writes db' hdb' v hv
    | false =>
        obtain rfl : db ++ [(c, w)] = db' := Option.some.inj hdb'
        obtain hv | hv := List.mem_append.mp hv
        · exact h.writes db hdb v hv
        · rw [List.mem_singleton.mp hv]
          exact .inr hactive

theorem Inv.settle (h : Inv s) {threw : Bool} (hc : (s.pc c).isOpen) :
    Inv (s.setPc c (.settled threw)) where
  active d := by
    rw [setPc_pc]
    split
    next heq => rw [heq]; exact iff_of_true ((h.active c).mpr hc) trivial
    next => exact h.active d
  logged d hd := by
    rw [setPc_pc]
    split
    · trivial
    · exact h.logged d hd
  exclusive := h.exclusive
  working := h.working
  owner v hv := by
    rw [setPc_pc, if_neg (h.owner_ne (open_not_done hc) v hv)]
    exact h.owner v hv
  writes := h.writes

/-- A transaction that gives the connection back outside of one. -/
theorem Inv.close (h : Inv s) (hc : (s.pc c).isOpen) {e : Event W} {conn : Conn W} {ok : Bool}
    (hcaller : e.caller = c) (hok : e.ok = true) (hsql : e.sql = .commit ∨ e.sql = .rollback)
    (hworking : conn.working = none)
    (hcommitted : ∀ w ∈ conn.committed, w ∈ s.conn.committed ∨ (ok = true ∧ w.1 = c)) :
    Inv (St.release { s with conn := conn, log := s.log ++ [e] } c ok) where
  active d := by
    show none = some d ↔ (if d = c then Pc.done ok else s.pc d).isOpen
    split
    · simp [Pc.isOpen]
    next hne => exact iff_of_false (by simp) fun hd => hne (h.one hd hc)
  logged d hopen := by
    obtain heq | ⟨hopen, hends⟩ := hopen.of_append
    · rw [heq] at hsql
      simp at hsql
    · obtain rfl := h.one hc (h.logged d hopen)
      exact absurd ⟨hcaller, hok, hsql⟩ hends
  exclusive := h.exclusive.append fun d hd => hcaller.trans (h.one hc (h.logged d hd))
  working := iff_of_true rfl hworking
  owner v hv := by
    show (if v.1 = c then Pc.done ok else s.pc v.1) = _ ∨
      (if v.1 = c then Pc.done ok else s.pc v.1) = _
    obtain hv | ⟨rfl, hcaller⟩ := hcommitted v hv
    · rw [if_neg (h.owner_ne (open_not_done hc) v hv)]
      exact h.owner v hv
    · rw [if_pos hcaller]
      exact .inr rfl
  writes db hdb := absurd (hworking.symm.trans hdb) (by simp)

/-- A COMMIT that throws leaves the transaction open. -/
theorem Inv.refused (h : Inv s) (hc : (s.pc c).isOpen) {sql : Sql W} :
    Inv { s with log := s.log ++ [⟨c, sql, false⟩] } where
  active := h.active
  logged _ hopen := h.logged _ (hopen.old (by simp))
  exclusive := h.exclusive.append fun _ hd => h.one hc (h.logged _ hd)
  working := h.working
  owner := h.owner
  writes := h.writes

theorem Inv.undo (h : Inv s) (hc : (s.pc c).isOpen) : Inv (s.undo c false) := by
  obtain ⟨-, db, hdb⟩ := h.in_transaction hc
  have hexec : localExec s.conn c .rollback false = some { s.conn with working := none } := by
    simp [localExec, hdb]
  rw [St.undo, St.run, hexec]
  exact h.close hc rfl rfl (.inr rfl) rfl fun w hw => .inl hw

theorem Inv.finish (h : Inv s) {threw commitFails rollbackFails : Bool}
    (hc : s.pc c = .settled threw)
    (hundo : rollbackFails = false ∨ (threw = false ∧ commitFails = false)) :
    Inv (s.finish c threw commitFails rollbackFails) := by
  have hopen : (s.pc c).isOpen := by rw [hc]; trivial
  obtain ⟨hactive, db, hdb⟩ := h.in_transaction hopen
  rw [St.finish]
  cases threw with
  | true =>
      obtain rfl : rollbackFails = false := hundo.resolve_right (by simp)
      exact h.undo hopen
  | false =>
      cases commitFails with
      | true =>
          obtain rfl : rollbackFails = false := hundo.resolve_right (by simp)
          exact (h.refused hopen).undo hopen
      | false =>
          have hexec : localExec s.conn c .commit false = some ⟨db, none⟩ := by
            simp [localExec, hdb]
          have hreturns : s.returns c .commit false = true := by rw [St.returns, hexec]; rfl
          dsimp only
          rw [if_neg (by simp), if_pos hreturns, St.run, hexec]
          refine h.close hopen rfl rfl (.inl rfl) rfl fun w hw => ?_
          exact (h.writes db hdb w hw).imp_right fun howner =>
            ⟨rfl, Option.some.inj (howner.symm.trans hactive)⟩

/-! ## Runs -/

/-- A ROLLBACK that is sent works: it is sent when the body threw or its COMMIT did. -/
def Undoes (s : St W) : Act W → Prop
  | .finish c commitFails rollbackFails =>
      rollbackFails = false ∨ (s.pc c = .settled false ∧ commitFails = false)
  | _ => True

theorem not_open_idle (hc : s.pc c = .idle) :
    ¬ (s.pc c).isOpen ∧ s.pc c ≠ .executed true ∧ s.pc c ≠ .done true := by
  simp [hc, Pc.isOpen]

theorem Inv.step (h : Inv s) {a : Act W} (hok : Undoes s a) (hstep : step s a = some s') :
    Inv s' := by
  cases a with
  | execute c w fails =>
      simp only [LocalTx.step] at hstep
      split at hstep
      next hc =>
        cases hstep
        exact h.execute (not_open_idle hc).1 (not_open_idle hc).2
      · cases hstep
  | transaction c beginFails =>
      simp only [LocalTx.step] at hstep
      split at hstep
      next hc =>
        cases hstep
        exact h.transaction (not_open_idle hc).1 (not_open_idle hc).2
      · cases hstep
  | wake c fails =>
      simp only [LocalTx.step] at hstep
      split at hstep
      next on w hc =>
        split at hstep
        · cases hstep
          exact h.execute (by simp [hc, Pc.isOpen]) (by simp [hc])
        · cases hstep
      next on hc =>
        split at hstep
        · cases hstep
          exact h.transaction (by simp [hc, Pc.isOpen]) (by simp [hc])
        · cases hstep
      · cases hstep
  | tx c w fails =>
      simp only [LocalTx.step] at hstep
      split at hstep
      next hc =>
        cases hstep
        exact h.tx (by rw [hc]; trivial)
      · cases hstep
  | settle c threw =>
      simp only [LocalTx.step] at hstep
      split at hstep
      next hc =>
        cases hstep
        exact h.settle (by rw [hc]; trivial)
      · cases hstep
  | finish c commitFails rollbackFails =>
      simp only [LocalTx.step] at hstep
      split at hstep
      next threw hc =>
        cases hstep
        refine h.finish hc (hok.imp_right fun ⟨hthrew, hcommit⟩ => ⟨?_, hcommit⟩)
        rw [hc] at hthrew
        exact Pc.settled.inj hthrew
      · cases hstep

/-- In every run whose ROLLBACKs work, transactions exclude each other and everybody else. -/
theorem isolated_of_reach (h : Reach step Undoes (St.init W) s) : Isolated s :=
  (h.invariant Inv.init fun _ _ _ hI hok hstep => hI.step hok hstep).isolated

/-- Two transactions, the first with a COMMIT that throws, and a call of `execute` that waits
for both. -/
def orderlyRun : List (Act Nat) :=
  [.transaction 0 false, .tx 0 5 false, .transaction 1 false, .execute 2 7 false,
    .settle 0 false, .finish 0 true false, .wake 2 false, .wake 1 false, .tx 1 6 false,
    .settle 1 false, .finish 1 false false]

theorem isolated_orderly : ∃ s, exec step (St.init Nat) orderlyRun = some s ∧
    s.conn.committed = [(2, 7), (1, 6)] ∧ Isolated s := by
  have hmeets : Meets step Undoes (St.init Nat) orderlyRun :=
    ⟨trivial, trivial, trivial, trivial, trivial, .inl rfl, trivial, trivial, trivial, trivial,
      .inl rfl, trivial⟩
  obtain ⟨s, hexec⟩ : ∃ s, exec step (St.init Nat) orderlyRun = some s := ⟨_, rfl⟩
  refine ⟨s, hexec, ?_, isolated_of_reach (reach_of_meets _ hmeets hexec)⟩
  have hcommitted : (exec step (St.init Nat) orderlyRun).map (·.conn.committed) =
      some [(2, 7), (1, 6)] := rfl
  rw [hexec] at hcommitted
  exact Option.some.inj hcommitted

/-- A body that throws, with a ROLLBACK that throws too. -/
def leakingRun : List (Act Nat) :=
  [.transaction 0 false, .tx 0 5 false, .settle 0 true, .finish 0 false true]

/-- The transaction is over and the connection is still inside it, with the write. -/
theorem leaks : ∃ s : St Nat, Reach step Always (St.init Nat) s ∧ ¬ Isolated s := by
  obtain ⟨s, hexec⟩ : ∃ s, exec step (St.init Nat) leakingRun = some s := ⟨_, rfl⟩
  refine ⟨s, reach_of_exec _ hexec, fun h => ?_⟩
  have hdone : (exec step (St.init Nat) leakingRun).map (·.pc 0) = some (.done false) := rfl
  have hworking : (exec step (St.init Nat) leakingRun).map (·.conn.working) =
      some (some [(0, 5)]) := rfl
  rw [hexec] at hdone hworking
  exact (h.undone 0 (Option.some.inj hdone)).2 _ (Option.some.inj hworking) (0, 5)
    List.mem_cons_self rfl

end Blamejs.LocalTx
