import Blamejs.Proofs.QueueFlow

/-!
# Flows: a child is not forgotten

A parked child whose dependencies are done has to be woken by a completion, so
the invariant names the `complete` call that still will (`Woken`): it has not
selected the siblings yet, or the child is the sibling at hand or among those to
come. The dependency that was done last has made such a call; it finds the other
dependencies done when it asks, so it can drop the child only by releasing it.

Nothing of this covers a child that comes into the table when its dependencies
are done and every completion of its flow has selected its siblings: no call is
left to wake it. `Prompt` leaves that step out. It leaves out too what no run of
enqueueing, leasing and completing alone does, a failure put off to the very
time that marks a parked job and a call that stops half way, and a sibling whose
dependencies the call can not read back.
-/

namespace Blamejs.QueueLocal

open Blamejs.Js Checked Run Table

variable {s s' : St}

/-! ## The condition -/

/-- The call has the siblings of the flow still to select. -/
def Completing.ToSelect (flowId : JsString) : Completing → Prop
  | .repeating row _ => row.flowId = some flowId
  | .releasing rel => rel.flowId = flowId
  | _ => False

/-- The dependencies are strings and within the length the call reads. -/
def Row.Readable (r : Row) : Prop :=
  ∀ deps, r.dependsOn = some deps → fits deps = true ∧ .notString ∉ deps

/-- A child is inserted while one of its dependencies is not done, or a
completion will select it; the siblings a completion selects can be read. -/
def Prompt (s : St) : Action → Prop
  | .insertChild flowId _ _ =>
      match s.flows flowId with
      | .inserting _ (c :: _) _ =>
          c.dependsOn = [] ∨ (∃ name ∈ c.dependsOn, ¬ JobDone s.rows flowId name) ∨
            ∃ w, (s.completes w).ToSelect flowId
      | _ => True
  | .selectSiblings _ siblings => ∀ q ∈ siblings, q.Readable
  | .fail _ _ retryDelayMs _ now => now.val + retryDelayMs ≠ flowBlockedAvailableAt
  | .abandon _ => False
  | _ => True

/-! ## The call that will wake a child -/

/-- The sibling is among those to come, with dependencies to look up. -/
def ToCome (rest : List Row) (jobId : JsString) : Prop :=
  ∃ q ∈ rest, q.id = jobId ∧ q.readDeps ≠ []

/-- The call comes to the child yet. -/
def Completing.Wakes (c : FlowChild) : Completing → Prop
  | .checking rel sib _ _ rest => rel.flowId = c.flowId ∧ (sib = c.jobId ∨ ToCome rest c.jobId)
  | .updating rel sib rest => rel.flowId = c.flowId ∧ (sib = c.jobId ∨ ToCome rest c.jobId)
  | pc => pc.ToSelect c.flowId

/-- What the call has still to read can be read. -/
def Completing.Reads : Completing → Prop
  | .checking _ _ _ deps rest => .notString ∉ deps ∧ ∀ q ∈ rest, q.Readable
  | .updating _ _ rest => ∀ q ∈ rest, q.Readable
  | _ => True

theorem check_updates (rel : Release) (sib : JsString) (rest : List Row) {deps : List Dep}
    (hdeps : .notString ∉ deps) :
    Completing.check rel sib rest deps = .updating rel sib rest ∨ ∃ dep deps',
      deps'.Sublist deps ∧
        Completing.check rel sib rest deps = .checking rel sib dep deps' rest := by
  induction deps with
  | nil => exact .inl rfl
  | cons dep deps ih =>
      cases dep with
      | notString => exact (hdeps List.mem_cons_self).elim
      | str dep =>
          rw [Completing.check]
          split
          · rcases ih (fun hmem => hdeps (List.mem_cons_of_mem _ hmem)) with h | ⟨d, ds, hsub, h⟩
            · exact .inl h
            · exact .inr ⟨d, ds, hsub.cons _, h⟩
          · exact .inr ⟨dep, deps, List.sublist_cons_self _ _, rfl⟩

theorem check_wakes {rel : Release} {sib : JsString} {rest : List Row} {deps : List Dep}
    (hdeps : .notString ∉ deps) {c : FlowChild} (hflow : rel.flowId = c.flowId)
    (h : sib = c.jobId ∨ ToCome rest c.jobId) : (Completing.check rel sib rest deps).Wakes c := by
  rcases check_updates rel sib rest hdeps with heq | ⟨d, ds, -, heq⟩
  · rw [heq]
    exact ⟨hflow, h⟩
  · rw [heq]
    exact ⟨hflow, h⟩

theorem check_reads {rel : Release} {sib : JsString} {rest : List Row} {deps : List Dep}
    (hdeps : .notString ∉ deps) (hrest : ∀ q ∈ rest, q.Readable) :
    (Completing.check rel sib rest deps).Reads := by
  rcases check_updates rel sib rest hdeps with heq | ⟨d, ds, hsub, heq⟩
  · rw [heq]
    exact hrest
  · rw [heq]
    exact ⟨fun hmem => hdeps (hsub.subset hmem), hrest⟩

theorem Row.Readable.readDeps {q : Row} (h : q.Readable) : .notString ∉ q.readDeps := by
  intro hmem
  rw [readDeps_eq (List.ne_nil_of_mem hmem)] at hmem
  cases hdeps : q.dependsOn with
  | none =>
      rw [hdeps] at hmem
      exact List.not_mem_nil hmem
  | some deps =>
      rw [hdeps] at hmem
      exact (h deps hdeps).2 hmem

theorem next_reads {rel : Release} {rest : List Row} (hrest : ∀ q ∈ rest, q.Readable) :
    (Completing.next rel rest).Reads := by
  induction rest with
  | nil => trivial
  | cons q rest ih =>
      have htail : ∀ q ∈ rest, q.Readable := fun q hq => hrest q (List.mem_cons_of_mem _ hq)
      rw [Completing.next]
      split
      · exact ih htail
      · exact check_reads (hrest q List.mem_cons_self).readDeps htail

theorem next_wakes {rel : Release} {rest : List Row} (hrest : ∀ q ∈ rest, q.Readable)
    {c : FlowChild} (hflow : rel.flowId = c.flowId) (h : ToCome rest c.jobId) :
    (Completing.next rel rest).Wakes c := by
  induction rest with
  | nil => exact h.elim fun _ hq => (List.not_mem_nil hq.1).elim
  | cons q rest ih =>
      obtain ⟨q', hq', hid, hdeps⟩ := h
      rw [Completing.next]
      rcases List.mem_cons.mp hq' with rfl | htail
      · rw [if_neg hdeps]
        exact check_wakes (hrest _ List.mem_cons_self).readDeps hflow (.inl hid)
      · split
        · exact ih (fun q hq => hrest q (List.mem_cons_of_mem _ hq)) ⟨q', htail, hid, hdeps⟩
        · exact check_wakes (hrest q List.mem_cons_self).readDeps hflow
            (.inr ⟨q', htail, hid, hdeps⟩)

/-! ## Done is found -/

/-- The row of a child: its flow, and what its dependencies stand for. -/
theorem Placed.child_row (h : Placed s) (hf : Fence s) {c : FlowChild} (hc : c ∈ s.children)
    {r : Row} (hr : r ∈ s.rows) (hid : r.id = c.jobId) : r.flowId = some c.flowId ∧
      List.Forall₂ (Stands s.children c.flowId) c.dependsOn (r.dependsOn.getD []) := by
  obtain ⟨q, hq, hqid, hqflow, -, hstands⟩ := h.row c hc
  obtain ⟨row, hrow, hrowid, hrowflow, -, hdeps⟩ := mem_cols hq
  have hsame : row = r := row_unique hf.ids hrow hr (hrowid.trans (hqid.trans hid.symm))
  subst hsame
  rw [hdeps]
  exact ⟨hqflow ▸ hrowflow, hstands⟩

/-- The query for a dependency finds the job it stands for when that is done. -/
theorem Placed.stands_found (h : Placed s) (hf : Fence s) {flowId name dep : JsString}
    (hstands : Stands s.children flowId name (.str dep)) (hdone : JobDone s.rows flowId name) :
    ∃ r ∈ s.rows, satisfies exactly flowId dep r = true := by
  obtain ⟨r, hr, hflow, hname, hstatus⟩ := hdone
  rcases hstands with heq | ⟨d, hd, hdflow, hdname, heq⟩ | heq
  · injection heq with heq
    exact ⟨r, hr, satisfies_iff.mpr ⟨hflow, hstatus, .inr (heq ▸ hname)⟩⟩
  · injection heq with heq
    obtain ⟨q, hq, hqid, hqflow, hqname, -⟩ := h.row d hd
    obtain ⟨row, hrow, hrowid, hrowflow, hrowname, -⟩ := mem_cols hq
    have hsame : row = r := by
      refine h.name_unique hf hrow hr (hrowflow.trans ?_) hflow (hrowname.trans ?_) hname
      · rw [hqflow, hdflow]
      · rw [hqname, hdname]
    subst hsame
    exact ⟨row, hr, satisfies_iff.mpr ⟨hflow, hstatus, .inl (hrowid.trans (hqid.trans heq.symm))⟩⟩
  · cases heq

theorem JobDone.of_update {p : Row → Bool} {f : Row → Row} {rows : List Row}
    {flowId name : JsString} (hplace : ∀ r, (f r).place = r.place)
    (hdone : ∀ r ∈ rows, p r = true → (f r).status = .done → r.status = .done)
    (h : JobDone (update p f rows) flowId name) : JobDone rows flowId name := by
  obtain ⟨r', hr', hflow, hname, hstatus⟩ := h
  obtain ⟨r, hr, heq⟩ := mem_update.mp hr'
  by_cases hp : p r = true
  · rw [if_pos hp] at heq
    subst heq
    exact ⟨r, hr, (congrArg Place.flowId (hplace r)).symm.trans hflow,
      (congrArg Place.flowChildName (hplace r)).symm.trans hname, hdone r hr hp hstatus⟩
  · rw [if_neg hp] at heq
    subst heq
    exact ⟨r', hr, hflow, hname, hstatus⟩

theorem JobDone.of_append {rows : List Row} {row : Row} {flowId name : JsString}
    (hpending : row.status = .pending) (h : JobDone (rows ++ [row]) flowId name) :
    JobDone rows flowId name := by
  obtain ⟨r, hr, hflow, hname, hstatus⟩ := h
  rcases List.mem_append.mp hr with hold | hnew
  · exact ⟨r, hold, hflow, hname, hstatus⟩
  · rw [List.mem_singleton.mp hnew, hpending] at hstatus
    cases hstatus

/-! ## Parked children -/

/-- A child that is parked is pending and has dependencies, and once they are
done some call will wake it. -/
def Waits (s : St) : Prop :=
  ∀ c ∈ s.children, ∀ r ∈ s.rows, r.id = c.jobId → r.availableAt = flowBlockedAvailableAt →
    r.status = .pending ∧ c.dependsOn ≠ [] ∧
      (DepsDone s.rows c → ∃ w, (s.completes w).Wakes c)

/-- The call that moves on wakes what it was to wake. -/
theorem wakes_goto {c : FlowChild} {w : Nat} {pc : Completing}
    (hpc : (s.completes w).Wakes c → pc.Wakes c) (h : ∃ u, (s.completes u).Wakes c) :
    ∃ u, ((s.goto w pc).completes u).Wakes c := by
  obtain ⟨u, hu⟩ := h
  refine ⟨u, ?_⟩
  show (Function.update s.completes w pc u).Wakes c
  rw [Function.update_apply]
  split
  · next heq => exact hpc (heq ▸ hu)
  · exact hu

/-- A statement on the table that parks no job and completes none. -/
theorem Waits.statement {p : Row → Bool} {f : Row → Row} (h : Waits s)
    (hrows : s'.rows = update p f s.rows) (hchildren : s'.children = s.children)
    (hplace : ∀ r, (f r).place = r.place)
    (hparked : ∀ r ∈ s.rows, p r = true → (f r).availableAt = flowBlockedAvailableAt →
      r.availableAt = flowBlockedAvailableAt ∧ (r.status = .pending → (f r).status = .pending))
    (hdone : ∀ r ∈ s.rows, p r = true → (f r).status = .done → r.status = .done)
    (hwakes : ∀ c ∈ s.children, ∀ r ∈ s.rows, r.id = c.jobId →
      (p r = true → (f r).availableAt = flowBlockedAvailableAt) → DepsDone s.rows c →
      (∃ w, (s.completes w).Wakes c) → ∃ w, (s'.completes w).Wakes c) : Waits s' := by
  intro c hc r' hr' hid hpark
  rw [hchildren] at hc
  rw [hrows] at hr' ⊢
  have hback : DepsDone (update p f s.rows) c → DepsDone s.rows c := fun hd name hname =>
    (hd name hname).of_update hplace hdone
  obtain ⟨r, hr, heq⟩ := mem_update.mp hr'
  by_cases hp : p r = true
  · rw [if_pos hp] at heq
    subst heq
    obtain ⟨hpark₀, hpending₀⟩ := hparked r hr hp hpark
    have hid₀ : r.id = c.jobId := (id_of_place (hplace r)).symm.trans hid
    obtain ⟨hpending, hdeps, hwoken⟩ := h c hc r hr hid₀ hpark₀
    exact ⟨hpending₀ hpending, hdeps, fun hd =>
      hwakes c hc r hr hid₀ (fun _ => hpark) (hback hd) (hwoken (hback hd))⟩
  · rw [if_neg hp] at heq
    subst heq
    obtain ⟨hpending, hdeps, hwoken⟩ := h c hc r' hr hid hpark
    exact ⟨hpending, hdeps, fun hd =>
      hwakes c hc r' hr hid (fun htrue => (hp htrue).elim) (hback hd) (hwoken (hback hd))⟩

/-- One more job, of no flow. -/
theorem Waits.insert {row : Row} (h : Waits s) (hrows : s'.rows = s.rows ++ [row])
    (hchildren : s'.children = s.children) (hpending : row.status = .pending)
    (hid : ∀ c ∈ s.children, c.jobId ≠ row.id)
    (hwakes : ∀ c ∈ s.children, (∃ w, (s.completes w).Wakes c) → ∃ w, (s'.completes w).Wakes c) :
    Waits s' := by
  intro c hc r hr hrid hpark
  rw [hchildren] at hc
  rw [hrows] at hr ⊢
  rcases List.mem_append.mp hr with hold | hnew
  · obtain ⟨hstatus, hdeps, hwoken⟩ := h c hc r hold hrid hpark
    exact ⟨hstatus, hdeps, fun hd =>
      hwakes c hc (hwoken fun name hname => (hd name hname).of_append hpending)⟩
  · rw [List.mem_singleton.mp hnew] at hrid
    exact (hid c hc hrid.symm).elim

/-- The same table, and a call that has come further. -/
theorem Waits.goto (h : Waits s) {w : Nat} {pc : Completing}
    (hpc : ∀ c ∈ s.children, ∀ r ∈ s.rows, r.id = c.jobId → r.availableAt = flowBlockedAvailableAt →
      DepsDone s.rows c → (s.completes w).Wakes c → pc.Wakes c) : Waits (s.goto w pc) := by
  intro c hc r hr hid hpark
  obtain ⟨hpending, hdeps, hwoken⟩ := h c hc r hr hid hpark
  exact ⟨hpending, hdeps, fun hd => wakes_goto (hpc c hc r hr hid hpark hd) (hwoken hd)⟩

theorem release_wakes {c : FlowChild} (hne : c.flowId ≠ []) {row : Row} {now : Date}
    (hflow : row.flowId = some c.flowId) : (Completing.release row now).Wakes c := by
  have hfilter : row.flowId.filter (· ≠ []) = some c.flowId := by
    rw [hflow]
    exact Option.filter_some_pos (decide_eq_true hne)
  rw [Completing.release, hfilter]
  exact rfl

theorem afterDone_wakes {c : FlowChild} (hne : c.flowId ≠ []) {row : Row} {now : Date}
    (hflow : row.flowId = some c.flowId) : (Completing.afterDone (some row) now).Wakes c := by
  rw [Completing.afterDone]
  split
  · exact hflow
  · exact release_wakes hne hflow

/-! ## What each step keeps -/

/-- A call that found no row finds none when it marks the job done either. -/
def Known (s : St) : Prop :=
  ∀ w jobId attempt now, s.completes w = .selected jobId attempt now none →
    jobId ∈ s.seen ∧ ∀ r ∈ s.rows, r.id ≠ jobId

theorem Known.goto (h : Known s) {w : Nat} {pc : Completing}
    (hpc : ∀ jobId attempt now, pc ≠ .selected jobId attempt now none) : Known (s.goto w pc) := by
  intro u jobId attempt now hu
  replace hu : Function.update s.completes w pc u = _ := hu
  rw [Function.update_apply] at hu
  split at hu
  · exact (hpc jobId attempt now hu).elim
  · exact h u jobId attempt now hu

/-- Every row is one that was there, or has an id that was not. -/
theorem Known.rows (h : Known s) (hcompletes : s'.completes = s.completes)
    (hseen : s.seen ⊆ s'.seen)
    (hrows : ∀ r' ∈ s'.rows, (∃ r ∈ s.rows, r.id = r'.id) ∨ r'.id ∉ s.seen) : Known s' := by
  intro w jobId attempt now hpc
  obtain ⟨hknown, hnone⟩ := h w jobId attempt now (hcompletes ▸ hpc)
  refine ⟨hseen hknown, fun r' hr' heq => ?_⟩
  rcases hrows r' hr' with ⟨r, hr, hid⟩ | hfresh
  · exact hnone r hr (hid.trans heq)
  · exact hfresh (heq ▸ hknown)

theorem Known.statement {p : Row → Bool} {f : Row → Row} (h : Known s)
    (hcompletes : s'.completes = s.completes) (hseen : s'.seen = s.seen)
    (hrows : s'.rows = update p f s.rows) (hid : ∀ r, (f r).id = r.id) : Known s' := by
  refine h.rows hcompletes (hseen ▸ List.Subset.refl _) fun r' hr' => .inl ?_
  have hmem : r'.id ∈ (update p f s.rows).map Row.id := List.mem_map_of_mem (hrows ▸ hr')
  rw [map_update hid] at hmem
  exact List.mem_map.mp hmem

theorem Known.insert {row : Row} (h : Known s) (hcompletes : s'.completes = s.completes)
    (hseen : s'.seen = row.id :: s.seen) (hrows : s'.rows = s.rows ++ [row])
    (hfresh : row.id ∉ s.seen) : Known s' := by
  refine h.rows hcompletes (hseen ▸ List.subset_cons_self _ _) fun r' hr' => ?_
  rw [hrows] at hr'
  rcases List.mem_append.mp hr' with hold | hnew
  · exact .inl ⟨r', hold, rfl⟩
  · rw [List.mem_singleton.mp hnew]
    exact .inr hfresh

theorem check_not_selected {rel : Release} {sib : JsString} {rest : List Row} {deps : List Dep}
    {jobId : JsString} {attempt : Option Nat} {now : Date} {row : Option Row} :
    Completing.check rel sib rest deps ≠ .selected jobId attempt now row := by
  induction deps with
  | nil => exact Completing.noConfusion
  | cons dep deps ih =>
      cases dep with
      | notString => exact Completing.noConfusion
      | str dep =>
          rw [Completing.check]
          split
          · exact ih
          · exact Completing.noConfusion

theorem next_not_selected {rel : Release} {rest : List Row} {jobId : JsString}
    {attempt : Option Nat} {now : Date} {row : Option Row} :
    Completing.next rel rest ≠ .selected jobId attempt now row := by
  induction rest with
  | nil => exact Completing.noConfusion
  | cons q rest ih =>
      rw [Completing.next]
      split
      · exact ih
      · exact check_not_selected

theorem release_not_selected {row : Row} {now' : Date} {jobId : JsString} {attempt : Option Nat}
    {now : Date} {row' : Option Row} :
    Completing.release row now' ≠ .selected jobId attempt now row' := by
  rw [Completing.release]
  split
  · exact Completing.noConfusion
  · exact Completing.noConfusion

theorem afterDone_not_selected {row : Option Row} {now' : Date} {jobId : JsString}
    {attempt : Option Nat} {now : Date} {row' : Option Row} :
    Completing.afterDone row now' ≠ .selected jobId attempt now row' := by
  cases row with
  | none => exact Completing.noConfusion
  | some row =>
      rw [Completing.afterDone]
      split
      · exact Completing.noConfusion
      · exact release_not_selected

theorem Moves.known {a : Action} (hm : Moves s a s') (h : Known s) : Known s' := by
  cases hm with
  | stays => exact h
  | enqueue hfresh => exact h.insert rfl rfl rfl hfresh
  | lease leased hleased hcandidate hnodup => exact h.statement rfl rfl rfl fun _ => rfl
  | extendLease => exact h.statement rfl rfl rfl fun _ => rfl
  | @complete w jobId attempt now hpc =>
      intro u jobId' attempt' now' hu
      replace hu : Function.update s.completes w _ u = _ := hu
      rw [Function.update_apply] at hu
      split at hu
      · injection hu with hid _ _ hnone
        refine ⟨hid ▸ List.mem_cons_self, fun r hr heq => ?_⟩
        exact List.find?_eq_none.mp hnone r hr (decide_eq_true (heq.trans hid.symm))
      · obtain ⟨hknown, hnone⟩ := h u jobId' attempt' now' hu
        exact ⟨List.mem_cons_of_mem _ hknown, hnone⟩
  | @markDone w jobId attempt now row hpc hcount =>
      have hcall : Known (s.call jobId attempt (Row.complete now)) :=
        h.statement rfl rfl rfl fun _ => rfl
      exact hcall.goto fun _ _ _ => afterDone_not_selected
  | @notDone w jobId attempt now row hpc hcount =>
      have hcall : Known (s.call jobId attempt (Row.complete now)) :=
        h.statement rfl rfl rfl fun _ => rfl
      exact hcall.goto fun _ _ _ => Completing.noConfusion
  | notRepeated hpc => exact h.goto fun _ _ _ => release_not_selected
  | @repeatJob w row now r hpc hfresh =>
      have hinsert : Known { s with
          rows := s.rows ++
            [QueueLocal.enqueue r.id row.queueName r.payload (repeatOpts row r.nextMs) r.now]
          seen := r.id :: s.seen } := h.insert rfl rfl rfl hfresh
      exact hinsert.goto fun _ _ _ => release_not_selected
  | selectSiblings hpc hperm => exact h.goto fun _ _ _ => next_not_selected
  | depDone hpc hrow hdone => exact h.goto fun _ _ _ => check_not_selected
  | depOpen hpc hopen => exact h.goto fun _ _ _ => next_not_selected
  | @releaseChild w rel sib rest hpc =>
      have hrelease : Known { s with
          rows := update (·.id = sib) (fun r => { r with availableAt := rel.now.val }) s.rows } :=
        h.statement rfl rfl rfl fun _ => rfl
      exact hrelease.goto fun _ _ _ => next_not_selected
  | fail => exact h.statement rfl rfl rfl fun _ => rfl
  | sweepExpired => exact h.statement rfl rfl rfl fun _ => rfl
  | dlqRetry => exact h.statement rfl rfl rfl fun _ => rfl
  | startFlow flowId hflowId hcheck hseen =>
      exact h.rows rfl (fun x hx => List.mem_append_right _ hx) fun r hr => .inl ⟨r, hr, rfl⟩
  | insertChild hpc hfresh => exact h.insert rfl rfl rfl hfresh
  | patchFlowDeps hpc => exact h.statement rfl rfl rfl fun _ => rfl
  | abandon => exact h.goto fun _ _ _ => Completing.noConfusion
  | abandonFlow => exact h

theorem release_reads {row : Row} {now : Date} : (Completing.release row now).Reads := by
  rw [Completing.release]
  split
  · trivial
  · trivial

theorem afterDone_reads {row : Option Row} {now : Date} : (Completing.afterDone row now).Reads := by
  cases row with
  | none => trivial
  | some row =>
      rw [Completing.afterDone]
      split
      · trivial
      · exact release_reads

theorem Moves.reads {a : Action} (hm : Moves s a s') (hok : Prompt s a)
    (h : ∀ w, (s.completes w).Reads) : ∀ w, (s'.completes w).Reads := by
  cases hm with
  | complete hpc => exact goto_completes h trivial
  | markDone hpc hcount => exact goto_completes h afterDone_reads
  | notDone hpc hcount => exact goto_completes h trivial
  | notRepeated hpc => exact goto_completes h release_reads
  | repeatJob hpc hfresh => exact goto_completes h release_reads
  | selectSiblings hpc hperm => exact goto_completes h (next_reads hok)
  | @depDone w rel sib dep deps rest hpc row hrow hdone =>
      have hw := h w
      rw [hpc] at hw
      exact goto_completes h (check_reads hw.1 hw.2)
  | @depOpen w rel sib dep deps rest hpc hopen =>
      have hw := h w
      rw [hpc] at hw
      exact goto_completes h (next_reads hw.2)
  | @releaseChild w rel sib rest hpc =>
      have hw := h w
      rw [hpc] at hw
      exact goto_completes h (next_reads hw)
  | abandon => exact goto_completes h trivial
  | _ => exact h

theorem not_parked (now : Date) : now.val ≠ flowBlockedAvailableAt := fun h =>
  parked_not_due now h (Int.le_refl _)

/-- A parked child is among the siblings a completion selects, with dependencies
to look up. -/
theorem Waits.selected (hp : Placed s) (hf : Fence s) (hwaits : Waits s) {rel : Release}
    {siblings : List Row} (hperm : siblings.Perm (s.rows.filter (parked rel.flowId rel.now)))
    (hread : ∀ q ∈ siblings, q.Readable) {c : FlowChild} (hc : c ∈ s.children) {r : Row}
    (hr : r ∈ s.rows) (hid : r.id = c.jobId) (hpark : r.availableAt = flowBlockedAvailableAt)
    (hflow : rel.flowId = c.flowId) : ToCome siblings c.jobId := by
  obtain ⟨hpending, hdeps, -⟩ := hwaits c hc r hr hid hpark
  obtain ⟨hrflow, hstands⟩ := hp.child_row hf hc hr hid
  have hmem : r ∈ siblings := by
    refine hperm.mem_iff.mpr (List.mem_filter.mpr ⟨hr, parked_iff.mpr ⟨?_, hpending, ?_⟩⟩)
    · rw [hrflow, hflow]
    · exact Int.not_le.mp (parked_not_due rel.now hpark)
  refine ⟨r, hmem, hid, ?_⟩
  rw [Row.readDeps]
  cases hd : r.dependsOn with
  | none =>
      rw [hd] at hstands
      exact (hdeps (List.forall₂_nil_right_iff.mp hstands)).elim
  | some deps =>
      rw [Option.filter_some_pos (hread r hmem deps hd).1]
      rw [hd] at hstands
      exact fun hnil => hdeps (List.forall₂_nil_right_iff.mp (hnil ▸ hstands))

/-- The job done now is the last a child waited for: its call will wake it. -/
theorem newly_done (hp : Placed s) (hf : Fence s) (hsound : ∀ w, (s.completes w).Sound s)
    (hknown : Known s) {w : Nat} {jobId : JsString} {attempt : Option Nat} {now : Date}
    {row : Option Row} (hpc : s.completes w = .selected jobId attempt now row) {c : FlowChild}
    (hc : c ∈ s.children) (hopen : ¬ DepsDone s.rows c)
    (hdone : DepsDone (update (heldBy jobId attempt) (Row.complete now) s.rows) c) :
    (Completing.afterDone row now).Wakes c := by
  rw [DepsDone] at hopen
  push Not at hopen
  obtain ⟨name, hname, hnot⟩ := hopen
  obtain ⟨r', hr', hflow, hchild, hstatus⟩ := hdone name hname
  obtain ⟨r, hr, heq⟩ := mem_update.mp hr'
  by_cases hheld : heldBy jobId attempt r = true
  · rw [if_pos hheld] at heq
    subst heq
    have hid : r.id = jobId := (heldBy_iff.mp hheld).1
    have hw := hsound w
    rw [hpc] at hw
    cases row with
    | none => exact ((hknown w jobId attempt now hpc).2 r hr hid).elim
    | some r₀ =>
        obtain ⟨hid₀, q, hq, hplace⟩ := hw r₀ rfl
        have hsame : q = r :=
          row_unique hf.ids hq hr ((id_of_place hplace).trans (hid₀.trans hid.symm))
        subst hsame
        exact afterDone_wakes (hp.nonempty c hc) ((congrArg Place.flowId hplace).symm.trans hflow)
  · rw [if_neg hheld] at heq
    subst heq
    exact (hnot ⟨r', hr, hflow, hchild, hstatus⟩).elim

theorem Waits.markDone (hp : Placed s) (hf : Fence s) (hsound : ∀ w, (s.completes w).Sound s)
    (hknown : Known s) (h : Waits s) {w : Nat} {jobId : JsString} {attempt : Option Nat}
    {now : Date} {row : Option Row} (hpc : s.completes w = .selected jobId attempt now row) :
    Waits ((s.call jobId attempt (Row.complete now)).goto w (.afterDone row now)) := by
  intro c hc r' hr' hid hpark
  obtain ⟨r, hr, heq⟩ := mem_update.mp hr'
  have hsame : r' = r := by
    by_cases hheld : heldBy jobId attempt r = true
    · rw [if_pos hheld] at heq
      subst heq
      exact (heldBy_not_pending hheld (h c hc r hr hid hpark).1).elim
    · rwa [if_neg hheld] at heq
  subst hsame
  obtain ⟨hpending, hdeps, hwoken⟩ := h c hc r' hr hid hpark
  refine ⟨hpending, hdeps, fun hd => ?_⟩
  by_cases hbefore : DepsDone s.rows c
  · refine wakes_goto (fun hw => ?_) (hwoken hbefore)
    have hw : (s.completes w).Wakes c := hw
    rw [hpc] at hw
    exact hw.elim
  · refine ⟨w, ?_⟩
    show (Function.update s.completes w _ w).Wakes c
    rw [Function.update_self]
    exact newly_done hp hf hsound hknown hpc hc hbefore hd

theorem Waits.insertChild (hp : Placed s) (hf : Fence s) (h : Waits s) {flowId id : JsString}
    {now : Date} {queueName : JsString} {c : Child} {todo : List Child} {jobs : List FlowJob}
    (hpc : s.flows flowId = .inserting queueName (c :: todo) jobs) (hfresh : id ∉ s.seen)
    (hok : Prompt s (.insertChild flowId id now)) : Waits (St.flow { s with
      rows := s.rows ++ [enqueue id queueName c.payload (c.toEnqueueOpts flowId) now]
      seen := id :: s.seen
      children := s.children ++ [⟨flowId, c.name, id, c.dependsOn⟩] } flowId
      (.inserted queueName (jobs ++ [⟨c.name, id, c.dependsOn⟩]) todo)) := by
  rw [Prompt, hpc] at hok
  have hback : ∀ {d : FlowChild},
      DepsDone (s.rows ++ [enqueue id queueName c.payload (c.toEnqueueOpts flowId) now]) d →
        DepsDone s.rows d := fun hd name hname => (hd name hname).of_append rfl
  intro d hd r hr hid hpark
  rcases List.mem_append.mp hr with hold | hnew
  · rcases List.mem_append.mp hd with hd | hd
    · obtain ⟨hpending, hdeps, hwoken⟩ := h d hd r hold hid hpark
      exact ⟨hpending, hdeps, fun hdone => hwoken (hback hdone)⟩
    · rw [List.mem_singleton.mp hd] at hid
      have hid : r.id = id := hid
      exact (hfresh (hid ▸ hf.seen r hold)).elim
  · rw [List.mem_singleton.mp hnew] at hid hpark ⊢
    rcases List.mem_append.mp hd with hd | hd
    · exact (hp.fresh_child hf hfresh d hd hid.symm).elim
    · rw [List.mem_singleton.mp hd]
      have hdeps : c.dependsOn ≠ [] := by
        intro hnil
        replace hpark : (if (if c.dependsOn = [] then none
          else some (c.dependsOn.map Dep.str)).isSome then _ else _) = _ := hpark
        rw [if_pos hnil] at hpark
        exact not_parked now ((Int.add_zero _).symm.trans hpark)
      refine ⟨rfl, hdeps, fun hdone => ?_⟩
      rcases hok with hnil | ⟨name, hname, hnot⟩ | ⟨w, hw⟩
      · exact (hdeps hnil).elim
      · exact (hnot (hback hdone name hname)).elim
      · refine ⟨w, ?_⟩
        show (s.completes w).Wakes ⟨flowId, c.name, id, c.dependsOn⟩
        cases hcall : s.completes w with
        | repeating row now =>
            rw [hcall] at hw
            exact hw
        | releasing rel =>
            rw [hcall] at hw
            exact hw
        | _ =>
            rw [hcall] at hw
            exact hw.elim

theorem Moves.waits {a : Action} (hm : Moves s a s') (hf : Fence s) (hp : Placed s)
    (hsound : ∀ w, (s.completes w).Sound s) (hreads : ∀ w, (s.completes w).Reads)
    (hknown : Known s) (hok : Prompt s a) (h : Waits s) : Waits s' := by
  cases hm with
  | stays => exact h
  | enqueue hfresh =>
      exact h.insert rfl rfl rfl (hp.fresh_child hf hfresh) fun _ _ => id
  | lease leased hleased hcandidate hnodup =>
      refine h.statement rfl rfl (fun _ => rfl) (fun r hr hpr hpark => ?_)
        (fun _ _ _ hdone => Status.noConfusion hdone) fun _ _ _ _ _ _ _ => id
      have hdue := (candidate_iff.mp (hcandidate r (leased_row hf.ids hleased hr hpr))).2.2.1
      exact (parked_not_due _ hpark hdue).elim
  | extendLease =>
      exact h.statement rfl rfl (fun _ => rfl) (fun _ _ _ hpark => ⟨hpark, id⟩)
        (fun _ _ _ => id) fun _ _ _ _ _ _ _ => id
  | complete hpc =>
      refine Waits.goto (s := { s with seen := _ :: s.seen }) h fun c _ _ _ _ _ _ hw => ?_
      have hw : (s.completes _).Wakes c := hw
      rw [hpc] at hw
      exact hw.elim
  | markDone hpc hcount => exact h.markDone hp hf hsound hknown hpc
  | @notDone w jobId attempt now row hpc hcount =>
      have hcall : Waits (s.call jobId attempt (Row.complete now)) := by
        refine h.statement rfl rfl (fun _ => rfl) (fun r _ hheld hpark => ?_)
          (fun r hr hheld _ => ?_) fun _ _ _ _ _ _ _ => id
        · exact ⟨hpark, fun hpending => (heldBy_not_pending hheld hpending).elim⟩
        · rw [rowCount_eq_zero.mp hcount r hr] at hheld
          cases hheld
      refine hcall.goto fun c _ _ _ _ _ _ hw => ?_
      have hw : (s.completes w).Wakes c := hw
      rw [hpc] at hw
      exact hw.elim
  | @notRepeated w row now hpc =>
      refine h.goto fun c hc _ _ _ _ _ hw => ?_
      rw [hpc] at hw
      exact release_wakes (hp.nonempty c hc) hw
  | @repeatJob w row now r hpc hfresh =>
      have hinsert : Waits { s with
          rows := s.rows ++
            [QueueLocal.enqueue r.id row.queueName r.payload (repeatOpts row r.nextMs) r.now]
          seen := r.id :: s.seen } :=
        h.insert rfl rfl rfl (hp.fresh_child hf hfresh) fun _ _ => id
      refine hinsert.goto fun c hc _ _ _ _ _ hw => ?_
      have hw : (s.completes w).Wakes c := hw
      rw [hpc] at hw
      exact release_wakes (hp.nonempty c hc) hw
  | @selectSiblings w siblings rel hpc hperm =>
      refine h.goto fun c hc r hr hid hpark _ hw => ?_
      rw [hpc] at hw
      exact next_wakes hok hw (h.selected hp hf hperm hok hc hr hid hpark hw)
  | @depDone w rel sib dep deps rest hpc row hrow hdone =>
      refine h.goto fun c _ _ _ _ _ _ hw => ?_
      have hr := hreads w
      rw [hpc] at hw hr
      exact check_wakes hr.1 hw.1 hw.2
  | @depOpen w rel sib dep deps rest hpc hopen =>
      refine h.goto fun c hc r _ hid hpark hd hw => ?_
      have hr := hreads w
      have hs := hsound w
      rw [hpc] at hw hr hs
      rcases hw.2 with heq | hcome
      · -- the dependency that is not done is one of the child's
        obtain ⟨d, hdc, hdid, hdflow, found, names, hsplit, -, hstands⟩ := hs.2.1
        have hsame : d = c := List.inj_on_of_nodup_map hp.jobIds hdc hc (hdid.trans heq)
        subst hsame
        obtain ⟨name, names', hname, -, rfl⟩ := List.forall₂_cons_right_iff.mp hstands
        have hjob : JobDone s.rows rel.flowId name := by
          rw [← hdflow]
          exact hd name (hsplit ▸ List.mem_append_right _ List.mem_cons_self)
        obtain ⟨q, hq, hfound⟩ := hp.stands_found hf hname hjob
        rw [hopen q hq] at hfound
        cases hfound
      · exact next_wakes hr.2 hw.1 hcome
  | @releaseChild w rel sib rest hpc =>
      refine h.statement rfl rfl (fun _ => rfl) (fun _ _ _ hpark => (not_parked _ hpark).elim)
        (fun _ _ _ => id) fun c _ r _ hid hpark _ => ?_
      refine wakes_goto fun hw => ?_
      have hr := hreads w
      have hw : (s.completes w).Wakes c := hw
      rw [hpc] at hw hr
      rcases hw.2 with heq | hcome
      · exact (not_parked _ (hpark (decide_eq_true (hid.trans heq.symm)))).elim
      · exact next_wakes hr hw.1 hcome
  | fail =>
      refine h.statement rfl rfl (fun _ => rfl) (fun r _ hheld hpark => ?_)
        (fun r _ hheld hdone => ?_) fun _ _ _ _ _ _ _ => id
      · refine ⟨?_, fun hpending => (heldBy_not_pending hheld hpending).elim⟩
        replace hpark : (if (r.attempts : Int) < r.maxAttempts then _ else r.availableAt) = _ :=
          hpark
        split at hpark
        · exact (hok hpark).elim
        · exact hpark
      · replace hdone : (if (r.attempts : Int) < r.maxAttempts then Status.pending
          else .failed) = .done := hdone
        split at hdone
        · cases hdone
        · cases hdone
  | sweepExpired =>
      exact h.statement rfl rfl (fun _ => rfl) (fun _ _ _ hpark => ⟨hpark, fun _ => rfl⟩)
        (fun _ _ _ hdone => Status.noConfusion hdone) fun _ _ _ _ _ _ _ => id
  | dlqRetry =>
      exact h.statement rfl rfl (fun _ => rfl) (fun _ _ _ hpark => (not_parked _ hpark).elim)
        (fun _ _ _ hdone => Status.noConfusion hdone) fun _ _ _ _ _ _ _ => id
  | startFlow flowId hflowId hcheck hseen => exact h
  | insertChild hpc hfresh => exact h.insertChild hp hf hpc hfresh hok
  | patchFlowDeps hpc =>
      exact h.statement rfl rfl (fun _ => rfl) (fun _ _ _ hpark => ⟨hpark, id⟩)
        (fun _ _ _ => id) fun _ _ _ _ _ _ _ => id
  | abandon => exact hok.elim
  | abandonFlow => exact h

/-! ## Whole runs -/

structure WakeInv (s : St) : Prop where
  known : Known s
  reads : ∀ w, (s.completes w).Reads
  waits : Waits s

theorem reach_wakeInv (h : Reach step Prompt St.init s) : WakeInv s := by
  refine h.invariant_of (J := FlowInv) (fun _ hr => reach_flowInv hr) ?_
    fun s a s' hJ _ hI hok hs => ?_
  · exact ⟨fun _ _ _ _ hpc => Completing.noConfusion hpc, fun _ => trivial,
      fun _ hc => (List.not_mem_nil hc).elim⟩
  · have hm := step_moves hJ.fence.ids hs
    exact ⟨hm.known hI.known, hm.reads hok hI.reads,
      hm.waits hJ.fence hJ.placed hJ.sound hI.reads hI.known hok hI.waits⟩

/-- In every run in which no child comes in late, a child whose dependencies are
done is not parked once every `complete` call has returned. -/
theorem no_lost_wakeup (h : Reach step Prompt St.init s) (hidle : ∀ w, s.completes w = .idle)
    {c : FlowChild} (hc : c ∈ s.children) {r : Row} (hr : r ∈ s.rows) (hid : r.id = c.jobId)
    (hdone : DepsDone s.rows c) : r.availableAt ≠ flowBlockedAvailableAt := by
  intro hpark
  obtain ⟨w, hw⟩ := ((reach_wakeInv h).waits c hc r hr hid hpark).2.2 hdone
  rw [hidle w] at hw
  exact hw

/-- The two children of a flow, the second in the table before the first is
done. -/
theorem no_lost_wakeup_pair : ∃ s, exec step St.init pairRun = some s ∧ ∃ r ∈ s.rows,
    r.id = units "j2" ∧ r.status = .pending ∧ r.availableAt ≠ flowBlockedAvailableAt := by
  have hmeets : Meets step Prompt St.init pairRun := by
    refine ⟨trivial, .inl rfl, trivial, .inr (.inl ⟨_, List.mem_cons_self, by decide⟩), trivial,
      trivial, trivial, fun q hq => ?_, trivial, trivial⟩
    rw [List.mem_singleton.mp hq]
    intro deps hdeps
    injection hdeps with hdeps
    subst hdeps
    exact ⟨by decide, by decide⟩
  obtain ⟨s, hrun, hidle, c, hc, r, hr, hid, hjob, hpending, hdone⟩ : ∃ s,
      exec step St.init pairRun = some s ∧ (∀ w, s.completes w = .idle) ∧ ∃ c ∈ s.children,
      ∃ r ∈ s.rows, r.id = c.jobId ∧ r.id = units "j2" ∧ r.status = .pending ∧
        DepsDone s.rows c := by
    refine ⟨_, rfl, fun w => ?_, _, List.mem_cons_of_mem _ List.mem_cons_self, _,
      List.mem_cons_of_mem _ List.mem_cons_self, rfl, rfl, rfl, by decide⟩
    cases w with
    | zero => rfl
    | succ w => rfl
  exact ⟨s, hrun, r, hr, hjob, hpending,
    no_lost_wakeup (reach_of_meets pairRun hmeets hrun) hidle hc hr hid hdone⟩

/-- The first child leased and completed before the second is inserted. -/
def lateRun : List Action :=
  [.startFlow (units "1") pairSpec,
    .insertChild (units "flow-1") (units "j1") dawn,
    .lease (units "ingest") 1000 1 dawn [] [fetchRow],
    .complete 0 (units "j1") (some 1) noon,
    .markDone 0,
    .selectSiblings 0 [],
    .insertChild (units "flow-1") (units "j2") dawn,
    .patchFlowDeps (units "flow-1")]

/-- Every call has returned, and the second child stays parked although its
dependency is done. -/
theorem wakeup_lost : ∃ s, exec step St.init lateRun = some s ∧
    (∀ w, s.completes w = .idle) ∧ s.flows (units "flow-1") = .idle ∧
    ∃ c ∈ s.children, ∃ r ∈ s.rows, r.id = c.jobId ∧ r.status = .pending ∧
      DepsDone s.rows c ∧ r.availableAt = flowBlockedAvailableAt := by
  refine ⟨_, rfl, fun w => ?_, rfl, _, List.mem_cons_of_mem _ List.mem_cons_self, _,
    List.mem_cons_of_mem _ List.mem_cons_self, rfl, rfl, by decide, rfl⟩
  cases w with
  | zero => rfl
  | succ w => rfl

end Blamejs.QueueLocal
