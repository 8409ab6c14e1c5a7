import Blamejs.Proofs.QueueLease

/-!
# Flows: a child waits for its dependencies

A child is kept back by nothing but its `availableAt`, so the invariant says of
each child that it is pending and parked or its dependencies are done (`Gated`).
Only the last statement of a release lowers `availableAt` on a parked row, after
a query for each dependency the call read off the sibling some time before. The
dependencies it read are names or, after `patchFlowDeps`, ids, and may have been
rewritten meanwhile; what they stand for does not change (`Stands`), and done is
final, so what a call has found done stays so (`Grows`). That names and ids are
not mistaken for each other is what fresh tokens give: an id never equals a name
that stood in the flow before it.
-/

namespace Blamejs.QueueLocal

open Blamejs.Js Checked Run Table

variable {s s' : St}

/-! ## Flows in the table -/

/-- The children a call has still to insert. -/
def Flowing.todo : Flowing → List Child
  | .inserting _ todo _ => todo
  | _ => []

/-- The jobs a call has noted. -/
def Flowing.jobs : Flowing → List FlowJob
  | .inserting _ _ jobs => jobs
  | .patching jobs todo => jobs ++ todo
  | .idle => []

/-- The children of a flow that have been inserted. -/
def St.childrenOf (s : St) (flowId : JsString) : List FlowChild :=
  s.children.filter (·.flowId = flowId)

/-- The names in a flow, of children inserted and of those to come. -/
def St.names (s : St) (flowId : JsString) : List JsString :=
  (s.childrenOf flowId).map FlowChild.name ++ (s.flows flowId).todo.map Child.name

/-- The names in a flow and those it depends on. -/
def St.texts (s : St) (flowId : JsString) : List JsString :=
  ((s.childrenOf flowId).flatMap fun c => c.name :: c.dependsOn) ++
    (s.flows flowId).todo.flatMap fun c => c.name :: c.dependsOn

/-- What an element of `dependsOn` stands for: the child of that name. -/
def Stands (children : List FlowChild) (flowId name : JsString) (dep : Dep) : Prop :=
  dep = .str name ∨ (∃ c ∈ children, c.flowId = flowId ∧ c.name = name ∧ dep = .str c.jobId) ∨
    dep = .notString

theorem Stands.mono {children children' : List FlowChild} (hsub : children ⊆ children')
    {flowId name : JsString} {dep : Dep} (h : Stands children flowId name dep) :
    Stands children' flowId name dep := by
  rcases h with heq | ⟨c, hc, hrest⟩ | heq
  · exact .inl heq
  · exact .inr (.inl ⟨c, hsub hc, hrest⟩)
  · exact .inr (.inr heq)

theorem forall_stands_mono {children children' : List FlowChild} (hsub : children ⊆ children')
    {flowId : JsString} {names : List JsString} {deps : List Dep}
    (h : List.Forall₂ (Stands children flowId) names deps) :
    List.Forall₂ (Stands children' flowId) names deps := h.imp fun _ _ => Stands.mono hsub

/-- Where a job stands in its flow, when it is in one. -/
structure Cols where
  id : JsString
  flowId : JsString
  flowChildName : Option JsString
  dependsOn : Option (List Dep)

def Row.cols (r : Row) : Option Cols :=
  r.flowId.map fun f => ⟨r.id, f, r.flowChildName, r.dependsOn⟩

def St.cols (s : St) : List Cols := s.rows.filterMap Row.cols

/-- The children of flows and the rows of the table belong together. -/
structure Placed (s : St) : Prop where
  flowSeen : ∀ r ∈ s.cols, r.flowId ∈ s.seen
  textSeen : ∀ f, ∀ t ∈ s.texts f, t ∈ s.seen
  apart : ∀ r ∈ s.cols, r.id ∉ s.texts r.flowId
  child : ∀ r ∈ s.cols, ∃ c ∈ s.children, c.jobId = r.id ∧ c.flowId = r.flowId ∧
    r.flowChildName = some c.name
  row : ∀ c ∈ s.children, ∃ r ∈ s.cols, r.id = c.jobId ∧ r.flowId = c.flowId ∧
    r.flowChildName = some c.name ∧
    List.Forall₂ (Stands s.children c.flowId) c.dependsOn (r.dependsOn.getD [])
  jobIds : (s.children.map FlowChild.jobId).Nodup
  names : ∀ f, (s.names f).Nodup
  jobs : ∀ f, ∀ j ∈ (s.flows f).jobs, ⟨f, j.name, j.jobId, j.dependsOn⟩ ∈ s.children
  flowing : ∀ f, s.flows f ≠ .idle → f ∈ s.seen ∧ f ≠ []
  nonempty : ∀ c ∈ s.children, c.flowId ≠ []

/-- A statement on the columns that keeps what a dependency stands for. -/
theorem Placed.rewrite (h : Placed s) {g : Cols → Cols} (hcols : s'.cols = s.cols.map g)
    (hid : ∀ r, (g r).id = r.id) (hflow : ∀ r, (g r).flowId = r.flowId)
    (hname : ∀ r, (g r).flowChildName = r.flowChildName)
    (hstands : ∀ c ∈ s.children, ∀ r ∈ s.cols, r.id = c.jobId →
      List.Forall₂ (Stands s.children c.flowId) c.dependsOn (r.dependsOn.getD []) →
      List.Forall₂ (Stands s.children c.flowId) c.dependsOn ((g r).dependsOn.getD []))
    (hchildren : s'.children = s.children) (hflows : s'.flows = s.flows)
    (hseen : s.seen ⊆ s'.seen) : Placed s' := by
  have hof : ∀ f, s'.childrenOf f = s.childrenOf f := fun f => by
    rw [St.childrenOf, hchildren, St.childrenOf]
  have htexts : ∀ f, s'.texts f = s.texts f := fun f => by rw [St.texts, hof, hflows, St.texts]
  have hnames : ∀ f, s'.names f = s.names f := fun f => by rw [St.names, hof, hflows, St.names]
  have hall : ∀ {P : Cols → Prop}, (∀ r ∈ s.cols, P (g r)) → ∀ r ∈ s'.cols, P r := by
    intro P hP r hr
    rw [hcols] at hr
    obtain ⟨r₀, hr₀, rfl⟩ := List.mem_map.mp hr
    exact hP r₀ hr₀
  refine ⟨hall fun r hr => ?_, fun f t ht => hseen (h.textSeen f t (htexts f ▸ ht)),
    hall fun r hr => ?_, hall fun r hr => ?_, fun c hc => ?_, hchildren ▸ h.jobIds,
    fun f => hnames f ▸ h.names f, ?_, fun f hf => (h.flowing f (hflows ▸ hf)).imp_left (@hseen f),
      hchildren ▸ h.nonempty⟩
  · rw [hflow]
    exact hseen (h.flowSeen r hr)
  · rw [hid, hflow, htexts]
    exact h.apart r hr
  · rw [hid, hflow, hname, hchildren]
    exact h.child r hr
  · rw [hchildren] at hc ⊢
    obtain ⟨r, hr, hrid, hrflow, hrname, hrstands⟩ := h.row c hc
    exact ⟨g r, hcols ▸ List.mem_map_of_mem hr, (hid r).trans hrid, (hflow r).trans hrflow,
      (hname r).trans hrname, hstands c hc r hr hrid hrstands⟩
  · rw [hflows, hchildren]
    exact h.jobs

theorem Placed.congr (h : Placed s) (hcols : s'.cols = s.cols)
    (hchildren : s'.children = s.children) (hflows : s'.flows = s.flows)
    (hseen : s.seen ⊆ s'.seen) : Placed s' :=
  h.rewrite (hcols.trans (List.map_id _).symm) (fun _ => rfl) (fun _ => rfl) (fun _ => rfl)
    (fun _ _ _ _ _ hstands => hstands) hchildren hflows hseen

theorem cols_update {p : Row → Bool} {f : Row → Row} {rows : List Row}
    (h : ∀ r, (f r).cols = r.cols) :
    (update p f rows).filterMap Row.cols = rows.filterMap Row.cols := by
  rw [update, List.filterMap_map]
  refine List.filterMap_congr fun r _ => ?_
  show (if p r then f r else r).cols = r.cols
  split
  · exact h r
  · rfl

/-- A job that stands in no flow. -/
theorem cols_plain {row : Row} (h : row.flowId = none) :
    (s.rows ++ [row]).filterMap Row.cols = s.cols := by
  have hnone : row.cols = none := by rw [Row.cols, h]; rfl
  rw [List.filterMap_append, List.filterMap_cons_none hnone]
  exact List.append_nil _

theorem mem_cols {r : Cols} (h : r ∈ s.cols) : ∃ row ∈ s.rows, row.id = r.id ∧
    row.flowId = some r.flowId ∧ row.flowChildName = r.flowChildName ∧
      row.dependsOn = r.dependsOn := by
  obtain ⟨row, hrow, hcols⟩ := List.mem_filterMap.mp h
  obtain ⟨f, hf, rfl⟩ := Option.map_eq_some_iff.mp hcols
  exact ⟨row, hrow, rfl, hf, rfl, rfl⟩

theorem cols_of_mem {row : Row} (h : row ∈ s.rows) {f : JsString} (hf : row.flowId = some f) :
    ⟨row.id, f, row.flowChildName, row.dependsOn⟩ ∈ s.cols :=
  List.mem_filterMap.mpr ⟨row, h, by rw [Row.cols, hf]; rfl⟩

/-- A flow no row has heard of has no children. -/
theorem Placed.childrenOf_fresh (h : Placed s) {flowId : JsString} (hfresh : flowId ∉ s.seen) :
    s.childrenOf flowId = [] := by
  refine List.filter_eq_nil_iff.mpr fun c hc heq => hfresh ?_
  obtain ⟨r, hr, -, hflow, -⟩ := h.row c hc
  rw [← of_decide_eq_true heq, ← hflow]
  exact h.flowSeen r hr

theorem flow_same (s : St) (flowId : JsString) (pc : Flowing) :
    (s.flow flowId pc).flows flowId = pc :=
  Function.update_self _ _ _

theorem flow_other (s : St) {flowId f : JsString} (pc : Flowing) (h : f ≠ flowId) :
    (s.flow flowId pc).flows f = s.flows f := Function.update_of_ne h _ _

/-- A call that has fewer children to insert, or none. -/
theorem Placed.flow (h : Placed s) {flowId : JsString} {pc : Flowing}
    (htodo : pc.todo.Sublist (s.flows flowId).todo)
    (hjobs : ∀ j ∈ pc.jobs, ⟨flowId, j.name, j.jobId, j.dependsOn⟩ ∈ s.children)
    (hflowing : pc ≠ .idle → flowId ∈ s.seen ∧ flowId ≠ []) : Placed (s.flow flowId pc) := by
  have htodo' : ∀ f, ((s.flow flowId pc).flows f).todo.Sublist (s.flows f).todo := by
    intro f
    by_cases hf : f = flowId
    · rw [hf, flow_same]
      exact htodo
    · rw [flow_other s pc hf]
  have htexts : ∀ f, (s.flow flowId pc).texts f ⊆ s.texts f := by
    intro f t ht
    rcases List.mem_append.mp ht with hold | hnew
    · exact List.mem_append_left _ hold
    · obtain ⟨c, hc, hct⟩ := List.mem_flatMap.mp hnew
      exact List.mem_append_right _ (List.mem_flatMap.mpr ⟨c, (htodo' f).subset hc, hct⟩)
  refine ⟨h.flowSeen, fun f t ht => h.textSeen f t (htexts f ht),
    fun r hr ht => h.apart r hr (htexts _ ht), h.child, h.row, h.jobIds,
    fun f => (h.names f).sublist (((htodo' f).map _).append_left _), fun f j hj => ?_,
    fun f hne => ?_, h.nonempty⟩
  · by_cases hf : f = flowId
    · rw [hf, flow_same] at hj
      rw [hf]
      exact hjobs j hj
    · rw [flow_other s pc hf] at hj
      exact h.jobs f j hj
  · by_cases hf : f = flowId
    · rw [hf, flow_same] at hne
      exact hf ▸ hflowing hne
    · rw [flow_other s pc hf] at hne
      exact h.flowing f hne

theorem patch_todo (jobs todo : List FlowJob) : (Flowing.patch jobs todo).todo = [] := by
  cases todo <;> rfl

theorem patch_jobs {jobs todo : List FlowJob} : (Flowing.patch jobs todo).jobs ⊆ jobs ++ todo := by
  cases todo with
  | nil => exact List.nil_subset _
  | cons job todo => exact List.Subset.refl _

theorem inserted_todo (queueName : JsString) (jobs : List FlowJob) (todo : List Child) :
    (Flowing.inserted queueName jobs todo).todo = todo := by
  cases todo with
  | nil => exact patch_todo _ _
  | cons c todo => rfl

theorem inserted_jobs {queueName : JsString} {jobs : List FlowJob} {todo : List Child} :
    (Flowing.inserted queueName jobs todo).jobs ⊆ jobs := by
  cases todo with
  | nil =>
      intro j hj
      rcases List.mem_append.mp (patch_jobs hj) with hall | hfilter
      · exact hall
      · exact (List.mem_filter.mp hfilter).1
  | cons c todo => exact List.Subset.refl _

theorem checkNames_ok {i : Nat} {byName : List JsString} {cs : List Child} {u : Unit}
    (h : checkNames i byName cs = .ok u) :
    (cs.map Child.name).Nodup ∧ ∀ c ∈ cs, c.name ∉ byName ∧ c.name ∉ protoNames := by
  induction cs generalizing i byName with
  | nil => exact ⟨List.nodup_nil, fun _ hc => (List.not_mem_nil hc).elim⟩
  | cons c cs ih =>
      rw [checkNames, Checked.bind_eq_ok] at h
      obtain ⟨_, -, h⟩ := h
      obtain ⟨_, hnew, h⟩ := Checked.bind_eq_ok.mp h
      obtain ⟨hnodup, hrest⟩ := ih h
      refine ⟨List.nodup_cons.mpr ⟨fun hmem => ?_, hnodup⟩, fun d hd => ?_⟩
      · obtain ⟨d, hd, heq⟩ := List.mem_map.mp hmem
        exact (hrest d hd).1 (heq ▸ List.mem_cons_self)
      · rcases List.mem_cons.mp hd with rfl | htail
        · exact ensure_eq_ok.mp hnew
        · exact ⟨fun hmem => (hrest d htail).1 (List.mem_cons_of_mem _ hmem), (hrest d htail).2⟩

theorem check_names {spec : FlowSpec} (h : spec.check = .ok ()) :
    (spec.children.map Child.name).Nodup ∧ ∀ c ∈ spec.children, c.name ∉ protoNames := by
  rw [FlowSpec.check, Checked.bind_eq_ok] at h
  obtain ⟨_, -, h⟩ := h
  obtain ⟨_, -, h⟩ := Checked.bind_eq_ok.mp h
  obtain ⟨_, hnames, -⟩ := Checked.bind_eq_ok.mp h
  exact ⟨(checkNames_ok hnames).1, fun c hc => ((checkNames_ok hnames).2 c hc).2⟩

theorem Placed.startFlow (h : Placed s) {flowId : JsString} {spec : FlowSpec} (hne : flowId ≠ [])
    (hcheck : spec.check = .ok ()) (hseen : flowId ∉ s.seen) :
    Placed (St.flow { s with seen := flowId :: spec.texts ++ s.seen } flowId
      (.inserting spec.queueName spec.children [])) := by
  generalize ht : St.flow { s with seen := flowId :: spec.texts ++ s.seen } flowId
    (.inserting spec.queueName spec.children []) = t
  have hnone := h.childrenOf_fresh hseen
  have hsub : s.seen ⊆ t.seen := fun x hx => ht ▸ List.mem_append_right (flowId :: spec.texts) hx
  have hrow : ∀ r ∈ s.cols, r.flowId ≠ flowId := fun r hr heq => hseen (heq ▸ h.flowSeen r hr)
  have hself : t.flows flowId = .inserting spec.queueName spec.children [] := ht ▸ flow_same _ _ _
  have hother : ∀ f, f ≠ flowId → t.flows f = s.flows f := fun f hf => ht ▸ flow_other _ _ hf
  have hof : ∀ f, t.childrenOf f = s.childrenOf f := fun f => by rw [← ht]; rfl
  have htexts : t.texts flowId = spec.texts := by
    rw [St.texts, hof, hnone, hself]
    rfl
  have htexts' : ∀ f, f ≠ flowId → t.texts f = s.texts f := fun f hf => by
    rw [St.texts, hof, hother f hf, St.texts]
  have hcols : t.cols = s.cols := by rw [← ht]; rfl
  have hchildren : t.children = s.children := by rw [← ht]; rfl
  have hspec : ∀ x ∈ flowId :: spec.texts, x ∈ t.seen := fun x hx =>
    ht ▸ List.mem_append_left s.seen hx
  refine ⟨?_, fun f x hx => ?_, ?_, ?_, ?_, ?_, fun f => ?_, fun f j hj => ?_, fun f hf => ?_,
    hchildren ▸ h.nonempty⟩
  · rw [hcols]
    exact fun r hr => hsub (h.flowSeen r hr)
  · by_cases hf : f = flowId
    · rw [hf, htexts] at hx
      exact hspec x (List.mem_cons_of_mem _ hx)
    · rw [htexts' f hf] at hx
      exact hsub (h.textSeen f x hx)
  · rw [hcols]
    exact fun r hr => htexts' r.flowId (hrow r hr) ▸ h.apart r hr
  · rw [hcols, hchildren]
    exact h.child
  · rw [hcols, hchildren]
    exact h.row
  · rw [hchildren]
    exact h.jobIds
  · by_cases hf : f = flowId
    · rw [St.names, hof, hf, hnone, hself]
      exact (check_names hcheck).1
    · rw [St.names, hof, hother f hf]
      exact h.names f
  · by_cases hf : f = flowId
    · rw [hf, hself] at hj
      exact (List.not_mem_nil hj).elim
    · rw [hother f hf] at hj
      exact hchildren ▸ h.jobs f j hj
  · by_cases hf' : f = flowId
    · exact ⟨hspec f (hf' ▸ List.mem_cons_self), hf' ▸ hne⟩
    · rw [hother f hf'] at hf
      exact (h.flowing f hf).imp_left (@hsub f)

theorem Placed.child_known (h : Placed s) (hf : Fence s) {c : FlowChild} (hc : c ∈ s.children) :
    c.jobId ∈ s.seen := by
  obtain ⟨r, hr, hrid, -⟩ := h.row c hc
  obtain ⟨row, hrow, hrowid, -⟩ := mem_cols hr
  rw [← hrid, ← hrowid]
  exact hf.seen row hrow

/-- One more child in the table and on the list. -/
theorem Placed.addChild {t : St} (h : Placed s) (hf : Fence s) {child : FlowChild}
    {deps : Option (List Dep)}
    (hcols : t.cols = s.cols ++ [⟨child.jobId, child.flowId, some child.name, deps⟩])
    (hchildren : t.children = s.children ++ [child]) (hseen : t.seen = child.jobId :: s.seen)
    (hdeps : deps.getD [] = child.dependsOn.map Dep.str) (htexts : ∀ f, t.texts f = s.texts f)
    (hnames : ∀ f, t.names f = s.names f) (hflowSeen : child.flowId ∈ s.seen ∧ child.flowId ≠ [])
    (hfresh : child.jobId ∉ s.seen)
    (hjobs : ∀ f, ∀ j ∈ (t.flows f).jobs, ⟨f, j.name, j.jobId, j.dependsOn⟩ ∈ t.children)
    (hflowing : ∀ f, t.flows f ≠ .idle → f ∈ s.seen ∧ f ≠ []) : Placed t := by
  have hsub : s.seen ⊆ t.seen := fun x hx => hseen ▸ List.mem_cons_of_mem child.jobId hx
  have hcsub : s.children ⊆ t.children := fun x hx => hchildren ▸ List.mem_append_left _ hx
  have hlast : child ∈ t.children := hchildren ▸ List.mem_append_right _ List.mem_cons_self
  refine ⟨fun r hr => ?_, fun f x hx => hsub (h.textSeen f x (htexts f ▸ hx)), fun r hr => ?_,
    fun r hr => ?_, fun c hc => ?_, ?_, fun f => hnames f ▸ h.names f, hjobs,
    fun f hf => (hflowing f hf).imp_left (@hsub f), fun c hc => ?_⟩
  · rw [hcols] at hr
    rcases List.mem_append.mp hr with hold | hnew
    · exact hsub (h.flowSeen r hold)
    · rw [List.mem_singleton.mp hnew]
      exact hsub hflowSeen.1
  · rw [htexts]
    rw [hcols] at hr
    rcases List.mem_append.mp hr with hold | hnew
    · exact h.apart r hold
    · rw [List.mem_singleton.mp hnew]
      exact fun hx => hfresh (h.textSeen _ _ hx)
  · rw [hcols] at hr
    rcases List.mem_append.mp hr with hold | hnew
    · obtain ⟨c, hc, hrest⟩ := h.child r hold
      exact ⟨c, hcsub hc, hrest⟩
    · rw [List.mem_singleton.mp hnew]
      exact ⟨child, hlast, rfl, rfl, rfl⟩
  · rw [hchildren] at hc
    rw [hcols]
    rcases List.mem_append.mp hc with hold | hnew
    · obtain ⟨r, hr, hrid, hrflow, hrname, hstands⟩ := h.row c hold
      exact ⟨r, List.mem_append_left _ hr, hrid, hrflow, hrname, forall_stands_mono hcsub hstands⟩
    · rw [List.mem_singleton.mp hnew]
      refine ⟨_, List.mem_append_right _ List.mem_cons_self, rfl, rfl, rfl, ?_⟩
      rw [hdeps, List.forall₂_map_right_iff, List.forall₂_same]
      exact fun _ _ => .inl rfl
  · rw [hchildren, List.map_append, List.nodup_append]
    refine ⟨h.jobIds, List.nodup_singleton _, fun i hi j hj heq => ?_⟩
    obtain ⟨c, hc, rfl⟩ := List.mem_map.mp hi
    rw [List.mem_singleton.mp hj] at heq
    exact hfresh (heq ▸ h.child_known hf hc)
  · rw [hchildren] at hc
    rcases List.mem_append.mp hc with hold | hnew
    · exact h.nonempty c hold
    · rw [List.mem_singleton.mp hnew]
      exact hflowSeen.2

theorem Placed.insertChild (h : Placed s) (hfence : Fence s) {flowId id : JsString} {now : Date}
    {queueName : JsString} {c : Child} {todo : List Child} {jobs : List FlowJob}
    (hpc : s.flows flowId = .inserting queueName (c :: todo) jobs) (hfresh : id ∉ s.seen) :
    Placed (St.flow { s with
      rows := s.rows ++ [enqueue id queueName c.payload (c.toEnqueueOpts flowId) now]
      seen := id :: s.seen
      children := s.children ++ [⟨flowId, c.name, id, c.dependsOn⟩] } flowId
      (.inserted queueName (jobs ++ [⟨c.name, id, c.dependsOn⟩]) todo)) := by
  generalize ht : St.flow { s with
    rows := s.rows ++ [enqueue id queueName c.payload (c.toEnqueueOpts flowId) now]
    seen := id :: s.seen
    children := s.children ++ [⟨flowId, c.name, id, c.dependsOn⟩] } flowId
    (.inserted queueName (jobs ++ [⟨c.name, id, c.dependsOn⟩]) todo) = t
  have hself : t.flows flowId = .inserted queueName (jobs ++ [⟨c.name, id, c.dependsOn⟩]) todo :=
    ht ▸ flow_same _ _ _
  have hother : ∀ f, f ≠ flowId → t.flows f = s.flows f := fun f hf => ht ▸ flow_other _ _ hf
  have hchildren : t.children = s.children ++ [⟨flowId, c.name, id, c.dependsOn⟩] := by
    rw [← ht]; rfl
  have hof : t.childrenOf flowId = s.childrenOf flowId ++ [⟨flowId, c.name, id, c.dependsOn⟩] := by
    simp [St.childrenOf, hchildren]
  have hof' : ∀ f, f ≠ flowId → t.childrenOf f = s.childrenOf f := fun f hf => by
    simp [St.childrenOf, hchildren, Ne.symm hf]
  have htodo : (t.flows flowId).todo = todo := by rw [hself, inserted_todo]
  have htodo₀ : (s.flows flowId).todo = c :: todo := by
    rw [hpc]
    rfl
  have hcols : t.cols = s.cols ++ [⟨id, flowId, some c.name,
      (enqueue id queueName c.payload (c.toEnqueueOpts flowId) now).dependsOn⟩] := by
    rw [← ht]
    exact List.filterMap_append
  refine h.addChild hfence hcols
    hchildren (by rw [← ht]; rfl) ?_ (fun f => ?_) (fun f => ?_)
    (h.flowing flowId (hpc ▸ Flowing.noConfusion)) hfresh (fun f j hj => ?_)
    fun f hf => ?_
  · show (if c.dependsOn = [] then none else some (c.dependsOn.map Dep.str)).getD [] = _
    split
    · next hnil =>
        rw [hnil]
        rfl
    · rfl
  · by_cases hf : f = flowId
    · simp [hf, St.texts, hof, htodo, htodo₀]
    · rw [St.texts, hof' f hf, hother f hf, St.texts]
  · by_cases hf : f = flowId
    · simp [hf, St.names, hof, htodo, htodo₀]
    · rw [St.names, hof' f hf, hother f hf, St.names]
  · rw [hchildren]
    by_cases hf : f = flowId
    · rw [hf, hself] at hj
      rcases List.mem_append.mp (inserted_jobs hj) with hold | hnew
      · rw [hf]
        exact List.mem_append_left _ (h.jobs flowId j (hpc ▸ hold))
      · rw [hf, List.mem_singleton.mp hnew]
        exact List.mem_append_right _ List.mem_cons_self
    · rw [hother f hf] at hj
      exact List.mem_append_left _ (h.jobs f j hj)
  · by_cases hf' : f = flowId
    · exact hf' ▸ h.flowing flowId (hpc ▸ Flowing.noConfusion)
    · rw [hother f hf'] at hf
      exact h.flowing f hf

theorem jobIdOf_stands {children : List FlowChild} {flowId : JsString} {jobs : List FlowJob}
    (h : ∀ j ∈ jobs, ⟨flowId, j.name, j.jobId, j.dependsOn⟩ ∈ children) (name : JsString) :
    Stands children flowId name (jobIdOf jobs name) := by
  rw [jobIdOf]
  split
  · next job hfind =>
      have hname : job.name = name := of_decide_eq_true (List.find?_some hfind :)
      exact .inr (.inl ⟨_, h job (List.mem_of_find?_eq_some hfind), rfl, hname, rfl⟩)
  · exact .inr (.inr rfl)

/-- `patchFlowDeps`, on the columns. -/
def Cols.patch (jobId : JsString) (deps : List Dep) (r : Cols) : Cols :=
  if r.id = jobId then { r with dependsOn := some deps } else r

theorem cols_patch (jobId : JsString) (deps : List Dep) (rows : List Row) :
    (update (·.id = jobId) (fun r => { r with dependsOn := some deps }) rows).filterMap Row.cols =
      (rows.filterMap Row.cols).map (Cols.patch jobId deps) := by
  rw [update, List.filterMap_map, List.map_filterMap]
  refine List.filterMap_congr fun r _ => ?_
  rw [Function.comp_apply]
  by_cases hid : r.id = jobId
  · rw [if_pos (decide_eq_true hid), Row.cols, Row.cols, Option.map_map]
    refine congrArg (Option.map · _) (funext fun f => ?_)
    exact (if_pos hid).symm
  · rw [if_neg (fun heq => hid (of_decide_eq_true heq)), Row.cols, Option.map_map]
    refine congrArg (Option.map · _) (funext fun f => ?_)
    exact (if_neg hid).symm

theorem patch_fixed (jobId : JsString) (deps : List Dep) (r : Cols) :
    (r.patch jobId deps).id = r.id ∧ (r.patch jobId deps).flowId = r.flowId ∧
      (r.patch jobId deps).flowChildName = r.flowChildName := by
  rw [Cols.patch]
  split
  · exact ⟨rfl, rfl, rfl⟩
  · exact ⟨rfl, rfl, rfl⟩

/-- The dependencies of a child rewritten: they stand for the same jobs. -/
theorem Placed.patch (h : Placed s) {flowId : JsString} {jobs todo : List FlowJob} {job : FlowJob}
    (hpc : s.flows flowId = .patching jobs (job :: todo)) :
    Placed (St.flow { s with
      rows := update (·.id = job.jobId)
        (fun r => { r with dependsOn := some (job.dependsOn.map (jobIdOf jobs)) }) s.rows } flowId
      (.patch jobs todo)) := by
  have hnoted : ∀ j ∈ jobs ++ job :: todo, ⟨flowId, j.name, j.jobId, j.dependsOn⟩ ∈ s.children :=
    fun j hj => h.jobs flowId j (hpc ▸ hj)
  have hjob := hnoted job (List.mem_append_right _ List.mem_cons_self)
  have hrewritten : Placed { s with
      rows := update (·.id = job.jobId)
        (fun r => { r with dependsOn := some (job.dependsOn.map (jobIdOf jobs)) }) s.rows } := by
    refine h.rewrite (cols_patch _ _ _) (fun r => (patch_fixed _ _ r).1)
      (fun r => (patch_fixed _ _ r).2.1) (fun r => (patch_fixed _ _ r).2.2)
      (fun c hc r hr hid hstands => ?_) rfl rfl (List.Subset.refl _)
    rw [Cols.patch]
    split
    · next heq =>
        have hsame : c = ⟨flowId, job.name, job.jobId, job.dependsOn⟩ :=
          List.inj_on_of_nodup_map h.jobIds hc hjob (hid.symm.trans heq)
        subst hsame
        show List.Forall₂ _ job.dependsOn (job.dependsOn.map (jobIdOf jobs))
        rw [List.forall₂_map_right_iff, List.forall₂_same]
        exact fun name _ =>
          jobIdOf_stands (fun j hj => hnoted j (List.mem_append_left _ hj)) name
    · exact hstands
  refine hrewritten.flow ?_ (fun j hj => hnoted j ?_) fun _ => ?_
  · rw [patch_todo]
    exact List.nil_sublist _
  · rcases List.mem_append.mp (patch_jobs hj) with hold | hnew
    · exact List.mem_append_left _ hold
    · exact List.mem_append_right _ (List.mem_cons_of_mem _ hnew)
  · exact h.flowing flowId (hpc ▸ Flowing.noConfusion)

theorem Moves.placed {a : Action} (hm : Moves s a s') (hf : Fence s) (h : Placed s) :
    Placed s' := by
  cases hm with
  | stays => exact h
  | enqueue hfresh =>
      exact h.congr (cols_plain rfl) rfl rfl (List.subset_cons_self _ _)
  | lease leased hleased hcandidate hnodup =>
      exact h.congr (cols_update fun _ => rfl) rfl rfl (List.Subset.refl _)
  | extendLease => exact h.congr (cols_update fun _ => rfl) rfl rfl (List.Subset.refl _)
  | complete hpc => exact h.congr rfl rfl rfl (List.subset_cons_self _ _)
  | markDone hpc hcount => exact h.congr (cols_update fun _ => rfl) rfl rfl (List.Subset.refl _)
  | notDone hpc hcount => exact h.congr (cols_update fun _ => rfl) rfl rfl (List.Subset.refl _)
  | notRepeated hpc => exact h.congr rfl rfl rfl (List.Subset.refl _)
  | repeatJob hpc hfresh => exact h.congr (cols_plain rfl) rfl rfl (List.subset_cons_self _ _)
  | selectSiblings hpc hperm => exact h.congr rfl rfl rfl (List.Subset.refl _)
  | depDone hpc hrow hdone => exact h.congr rfl rfl rfl (List.Subset.refl _)
  | depOpen hpc hopen => exact h.congr rfl rfl rfl (List.Subset.refl _)
  | releaseChild hpc => exact h.congr (cols_update fun _ => rfl) rfl rfl (List.Subset.refl _)
  | fail => exact h.congr (cols_update fun _ => rfl) rfl rfl (List.Subset.refl _)
  | sweepExpired => exact h.congr (cols_update fun _ => rfl) rfl rfl (List.Subset.refl _)
  | dlqRetry => exact h.congr (cols_update fun _ => rfl) rfl rfl (List.Subset.refl _)
  | startFlow flowId hflowId hcheck hseen =>
      exact h.startFlow (hflowId ▸ List.cons_ne_nil _ _) hcheck hseen
  | insertChild hpc hfresh => exact h.insertChild hf hpc hfresh
  | patchFlowDeps hpc => exact h.patch hpc
  | abandon => exact h.congr rfl rfl rfl (List.Subset.refl _)
  | abandonFlow =>
      exact h.flow (List.nil_sublist _) (fun _ hj => (List.not_mem_nil hj).elim) fun hne =>
        (hne rfl).elim

/-! ## Done is final -/

/-- Some job of this name in the flow is done. -/
def JobDone (rows : List Row) (flowId name : JsString) : Prop :=
  ∃ r ∈ rows, r.flowId = some flowId ∧ r.flowChildName = some name ∧ r.status = .done

instance (rows : List Row) (flowId name : JsString) : Decidable (JobDone rows flowId name) :=
  inferInstanceAs (Decidable (∃ r ∈ rows, _))

def DepsDone (rows : List Row) (c : FlowChild) : Prop :=
  ∀ name ∈ c.dependsOn, JobDone rows c.flowId name

instance (rows : List Row) (c : FlowChild) : Decidable (DepsDone rows c) :=
  inferInstanceAs (Decidable (∀ name ∈ c.dependsOn, _))

/-- No job leaves the table, and none that is done changes that. -/
def Grows (rows rows' : List Row) : Prop :=
  ∀ r ∈ rows, ∃ r' ∈ rows', r'.place = r.place ∧ (r.status = .done → r'.status = .done)

theorem grows_update {p : Row → Bool} {f : Row → Row} {rows : List Row}
    (hplace : ∀ r, (f r).place = r.place)
    (hdone : ∀ r ∈ rows, p r = true → r.status = .done → (f r).status = .done) :
    Grows rows (update p f rows) := by
  intro r hr
  cases hp : p r with
  | true => exact ⟨f r, mem_update_touched hr hp, hplace r, hdone r hr hp⟩
  | false => exact ⟨r, mem_update_other hr hp, rfl, id⟩

theorem Effect.grows {a : Action} (he : Effect s a s') (hf : Fence s) : Grows s.rows s'.rows := by
  cases he with
  | same hrows hlog hseen => exact hrows ▸ fun r hr => ⟨r, hr, rfl, id⟩
  | insert row hfresh hpending hnew hrows hlog hseen hmax =>
      exact hrows ▸ fun r hr => ⟨r, List.mem_append_left _ hr, rfl, id⟩
  | lease leased hleased hcandidate hnodup hrows hlog hseen =>
      refine hrows ▸ grows_update (fun _ => rfl) fun r hr hp hs => ?_
      have hpending := (candidate_iff.mp (hcandidate r (leased_row hf.ids hleased hr hp))).2.1
      rw [hs] at hpending
      cases hpending
  | touch p f hf' hrows hlog hseen =>
      exact hrows ▸ grows_update hf'.place fun r _ _ hs => (hf'.status r).trans hs
  | settle jobId attempt f hf' hrows hlog hseen =>
      refine hrows ▸ grows_update hf'.place fun r _ hp hs => ?_
      rw [(heldBy_iff.mp hp).2.1] at hs
      cases hs
  | sweep now hrows hlog hseen =>
      refine hrows ▸ grows_update (fun _ => rfl) fun r _ hp hs => ?_
      rw [(expired_iff.mp hp).1] at hs
      cases hs
  | requeue jobId now hrows hlog hseen =>
      refine hrows ▸ grows_update (fun _ => rfl) fun r _ hp hs => ?_
      rw [(deadLetter_iff.mp hp).2] at hs
      cases hs

theorem JobDone.mono {rows rows' : List Row} (hgrows : Grows rows rows') {flowId name : JsString}
    (h : JobDone rows flowId name) : JobDone rows' flowId name := by
  obtain ⟨r, hr, hflow, hname, hdone⟩ := h
  obtain ⟨r', hr', hplace, hstays⟩ := hgrows r hr
  exact ⟨r', hr', (congrArg Place.flowId hplace).trans hflow,
    (congrArg Place.flowChildName hplace).trans hname, hstays hdone⟩

theorem DepsDone.mono {rows rows' : List Row} (hgrows : Grows rows rows') {c : FlowChild}
    (h : DepsDone rows c) : DepsDone rows' c := fun name hname => (h name hname).mono hgrows

theorem Moves.children {a : Action} (hm : Moves s a s') : s.children ⊆ s'.children := by
  cases hm with
  | insertChild hpc hfresh => exact List.subset_append_left _ _
  | _ => exact List.Subset.refl _

/-! ## What a completing call knows -/

/-- The job whose completion releases the children. -/
def Completed (rows : List Row) (rel : Release) : Prop :=
  ∃ r ∈ rows, r.place = ⟨rel.jobId, some rel.flowId, rel.childName⟩ ∧ r.status = .done

/-- A sibling as it was selected: what it depends on has not changed since. -/
def Sibling (children : List FlowChild) (flowId : JsString) (q : Row) : Prop :=
  ∃ c ∈ children, c.jobId = q.id ∧ c.flowId = flowId ∧
    List.Forall₂ (Stands children flowId) c.dependsOn (q.dependsOn.getD [])

/-- A sibling some of whose dependencies have been found done; the others are
`deps`. -/
def Halfway (s : St) (flowId sib : JsString) (deps : List Dep) : Prop :=
  ∃ c ∈ s.children, c.jobId = sib ∧ c.flowId = flowId ∧ ∃ found rest,
    c.dependsOn = found ++ rest ∧ (∀ name ∈ found, JobDone s.rows flowId name) ∧
      List.Forall₂ (Stands s.children flowId) rest deps

/-- What a call has found holds, wherever it stands. -/
def Completing.Sound (s : St) : Completing → Prop
  | .idle => True
  | .selected jobId _ _ row =>
      ∀ r₀, row = some r₀ → r₀.id = jobId ∧ ∃ r ∈ s.rows, r.place = r₀.place
  | .repeating row _ => ∃ r ∈ s.rows, r.place = row.place ∧ r.status = .done
  | .releasing rel => Completed s.rows rel
  | .checking rel sib dep deps rest =>
      Completed s.rows rel ∧ Halfway s rel.flowId sib (.str dep :: deps) ∧
        ∀ q ∈ rest, Sibling s.children rel.flowId q
  | .updating rel sib rest =>
      Completed s.rows rel ∧ Halfway s rel.flowId sib [] ∧
        ∀ q ∈ rest, Sibling s.children rel.flowId q

theorem Completed.mono {rows rows' : List Row} (hgrows : Grows rows rows') {rel : Release}
    (h : Completed rows rel) : Completed rows' rel := by
  obtain ⟨r, hr, hplace, hdone⟩ := h
  obtain ⟨r', hr', hplace', hstays⟩ := hgrows r hr
  exact ⟨r', hr', hplace'.trans hplace, hstays hdone⟩

theorem Sibling.mono {children children' : List FlowChild} (hsub : children ⊆ children')
    {flowId : JsString} {q : Row} (h : Sibling children flowId q) : Sibling children' flowId q := by
  obtain ⟨c, hc, hid, hflow, hstands⟩ := h
  exact ⟨c, hsub hc, hid, hflow, forall_stands_mono hsub hstands⟩

theorem Halfway.mono (hgrows : Grows s.rows s'.rows) (hsub : s.children ⊆ s'.children)
    {flowId sib : JsString} {deps : List Dep} (h : Halfway s flowId sib deps) :
    Halfway s' flowId sib deps := by
  obtain ⟨c, hc, hid, hflow, found, rest, heq, hfound, hstands⟩ := h
  exact ⟨c, hsub hc, hid, hflow, found, rest, heq,
    fun name hname => (hfound name hname).mono hgrows, forall_stands_mono hsub hstands⟩

theorem Completing.Sound.mono (hgrows : Grows s.rows s'.rows) (hsub : s.children ⊆ s'.children)
    {pc : Completing} (h : pc.Sound s) : pc.Sound s' := by
  cases pc with
  | idle => trivial
  | selected jobId attempt now row =>
      intro r₀ hr₀
      obtain ⟨hid, r, hr, hplace⟩ := h r₀ hr₀
      obtain ⟨r', hr', hplace', -⟩ := hgrows r hr
      exact ⟨hid, r', hr', hplace'.trans hplace⟩
  | repeating row now =>
      obtain ⟨r, hr, hplace, hdone⟩ := h
      obtain ⟨r', hr', hplace', hstays⟩ := hgrows r hr
      exact ⟨r', hr', hplace'.trans hplace, hstays hdone⟩
  | releasing rel => exact Completed.mono hgrows h
  | checking rel sib dep deps rest =>
      exact ⟨h.1.mono hgrows, h.2.1.mono hgrows hsub, fun q hq => (h.2.2 q hq).mono hsub⟩
  | updating rel sib rest =>
      exact ⟨h.1.mono hgrows, h.2.1.mono hgrows hsub, fun q hq => (h.2.2 q hq).mono hsub⟩

/-- A done job of the flow that a dependency names, or is the id of, is the one
the dependency stands for. -/
theorem Placed.stands_done (h : Placed s) {c : FlowChild} (hc : c ∈ s.children)
    {name dep : JsString} (hname : name ∈ c.dependsOn)
    (hstands : Stands s.children c.flowId name (.str dep)) {r : Row}
    (hr : r ∈ s.rows) (hflow : r.flowId = some c.flowId) (hdone : r.status = .done)
    (hmatch : r.id = dep ∨ r.flowChildName = some dep) : JobDone s.rows c.flowId name := by
  have hcols := cols_of_mem hr hflow
  have htext : ∀ {d : FlowChild} {t : JsString}, d ∈ s.children → d.flowId = c.flowId →
      t ∈ d.name :: d.dependsOn → t ∈ s.texts c.flowId := fun hd hdflow ht =>
    List.mem_append_left _ (List.mem_flatMap.mpr
      ⟨_, List.mem_filter.mpr ⟨hd, decide_eq_true hdflow⟩, ht⟩)
  rcases hstands with heq | ⟨d, hd, hdflow, hdname, heq⟩ | heq
  · injection heq with heq
    subst heq
    rcases hmatch with hid | hchild
    · exact (h.apart _ hcols (hid ▸ htext hc rfl (List.mem_cons_of_mem _ hname))).elim
    · exact ⟨r, hr, hflow, hchild, hdone⟩
  · injection heq with heq
    subst heq
    obtain ⟨e, he, heid, heflow, hename⟩ := h.child _ hcols
    rcases hmatch with hid | hchild
    · have hsame : e = d := List.inj_on_of_nodup_map h.jobIds he hd (heid.trans hid)
      refine ⟨r, hr, hflow, ?_, hdone⟩
      rw [← hdname, ← hsame]
      exact hename
    · -- an id of the flow that were a name of the flow
      obtain ⟨q, hq, hqid, hqflow, -⟩ := h.row d hd
      have hnamed : e.name = d.jobId := by
        rw [hchild] at hename
        injection hename with hename
        exact hename.symm
      refine (h.apart q hq ?_).elim
      rw [hqid, hqflow, hdflow, ← hnamed]
      exact htext he heflow List.mem_cons_self
  · cases heq

theorem Halfway.found (h : Placed s) {flowId sib dep : JsString} {deps : List Dep}
    (hhalf : Halfway s flowId sib (.str dep :: deps)) {r : Row} (hr : r ∈ s.rows)
    (hflow : r.flowId = some flowId) (hdone : r.status = .done)
    (hmatch : r.id = dep ∨ r.flowChildName = some dep) : Halfway s flowId sib deps := by
  obtain ⟨c, hc, hid, hcflow, found, rest, heq, hfound, hstands⟩ := hhalf
  obtain ⟨name, names, hname, hnames, rfl⟩ := List.forall₂_cons_right_iff.mp hstands
  subst hcflow
  have hjob : JobDone s.rows c.flowId name :=
    h.stands_done hc (by rw [heq]; exact List.mem_append_right _ List.mem_cons_self) hname hr hflow
      hdone hmatch
  refine ⟨c, hc, hid, rfl, found ++ [name], names, ?_, fun n hn => ?_, hnames⟩
  · rw [heq, List.append_assoc]
    rfl
  · rcases List.mem_append.mp hn with hold | hnew
    · exact hfound n hold
    · rw [List.mem_singleton.mp hnew]
      exact hjob

theorem check_sound (h : Placed s) {rel : Release} (hcompleted : Completed s.rows rel)
    {sib : JsString} {rest : List Row} (hrest : ∀ q ∈ rest, Sibling s.children rel.flowId q)
    {deps : List Dep} (hhalf : Halfway s rel.flowId sib deps) :
    (Completing.check rel sib rest deps).Sound s := by
  induction deps with
  | nil => exact ⟨hcompleted, hhalf, hrest⟩
  | cons dep deps ih =>
      cases dep with
      | notString => trivial
      | str dep =>
          show (if rel.isSelf (.str dep) then Completing.check rel sib rest deps
            else .checking rel sib dep deps rest).Sound s
          split
          · next hself =>
              obtain ⟨r, hr, hplace, hdone⟩ := hcompleted
              have hmatch : r.id = dep ∨ r.flowChildName = some dep := by
                rw [show r.id = rel.jobId from congrArg Place.id hplace,
                  show r.flowChildName = rel.childName from congrArg Place.flowChildName hplace]
                exact (of_decide_eq_true hself).imp Eq.symm And.right
              exact ih (hhalf.found h hr (congrArg Place.flowId hplace) hdone hmatch)
          · exact ⟨hcompleted, hhalf, hrest⟩

theorem readDeps_eq {q : Row} (h : q.readDeps ≠ []) : q.readDeps = q.dependsOn.getD [] := by
  rw [Row.readDeps] at h ⊢
  cases hdeps : q.dependsOn with
  | none => rfl
  | some deps =>
      rw [hdeps] at h
      by_cases hfits : fits deps = true
      · rw [Option.filter_some_pos hfits]
      · rw [Option.filter_some_neg (Bool.eq_false_iff.mpr hfits)] at h
        exact (h rfl).elim

theorem next_sound (h : Placed s) {rel : Release} (hcompleted : Completed s.rows rel)
    {rest : List Row} (hrest : ∀ q ∈ rest, Sibling s.children rel.flowId q) :
    (Completing.next rel rest).Sound s := by
  induction rest with
  | nil => trivial
  | cons q rest ih =>
      have htail : ∀ q ∈ rest, Sibling s.children rel.flowId q := fun q hq =>
        hrest q (List.mem_cons_of_mem _ hq)
      rw [Completing.next]
      split
      · exact ih htail
      · next hne =>
          obtain ⟨c, hc, hid, hflow, hstands⟩ := hrest q List.mem_cons_self
          refine check_sound h hcompleted htail ⟨c, hc, hid, hflow, [], c.dependsOn, rfl,
            fun _ hn => (List.not_mem_nil hn).elim, ?_⟩
          rw [readDeps_eq hne]
          exact hstands

theorem release_sound {row : Row} {now : Date}
    (h : ∃ r ∈ s.rows, r.place = row.place ∧ r.status = .done) :
    (Completing.release row now).Sound s := by
  rw [Completing.release]
  split
  · next flowId hflow =>
      obtain ⟨r, hr, hplace, hdone⟩ := h
      refine ⟨r, hr, hplace.trans ?_, hdone⟩
      rw [Row.place, (Option.filter_eq_some_iff.mp hflow).1]
  · trivial

theorem afterDone_sound {row : Option Row} {now : Date}
    (h : ∀ r₀, row = some r₀ → ∃ r ∈ s.rows, r.place = r₀.place ∧ r.status = .done) :
    (Completing.afterDone row now).Sound s := by
  cases row with
  | none => trivial
  | some row =>
      rw [Completing.afterDone]
      split
      · exact h row rfl
      · exact release_sound (h row rfl)

/-- The siblings a call selects are children of its flow. -/
theorem Placed.sibling (h : Placed s) (hf : Fence s) {flowId : JsString} {q : Row}
    (hq : q ∈ s.rows) (hflow : q.flowId = some flowId) : Sibling s.children flowId q := by
  obtain ⟨c, hc, hid, hcflow, -⟩ := h.child _ (cols_of_mem hq hflow)
  obtain ⟨r, hr, hrid, -, -, hstands⟩ := h.row c hc
  obtain ⟨row, hrow, hrowid, -, -, hdeps⟩ := mem_cols hr
  have hsame : row = q := row_unique hf.ids hrow hq (hrowid.trans (hrid.trans hid))
  subst hsame
  rw [← hdeps, hcflow] at hstands
  exact ⟨c, hc, hid, hcflow, hstands⟩

theorem goto_completes {P : Completing → Prop} {w : Nat} {pc : Completing}
    (hs : ∀ u, P (s.completes u)) (hpc : P pc) : ∀ u, P ((s.goto w pc).completes u) :=
  (Function.forall_update_iff s.completes fun _ => P).mpr ⟨hpc, fun u _ => hs u⟩

theorem find_row {jobId : JsString} {r : Row} {rows : List Row}
    (h : rows.find? (·.id = jobId) = some r) : r ∈ rows ∧ r.id = jobId :=
  ⟨List.mem_of_find?_eq_some h, of_decide_eq_true (List.find?_some h :)⟩

theorem Moves.sound {a : Action} (hm : Moves s a s') (hf : Fence s) (h : Placed s)
    (hsound : ∀ w, (s.completes w).Sound s) : ∀ w, (s'.completes w).Sound s' := by
  have hgrows := hm.effect.grows hf
  have hsub := hm.children
  have hmono : ∀ w, (s.completes w).Sound s' := fun w => (hsound w).mono hgrows hsub
  have hplaced := hm.placed hf h
  cases hm with
  | stays => exact hmono
  | enqueue hfresh => exact hmono
  | lease leased hleased hcandidate hnodup => exact hmono
  | extendLease => exact hmono
  | @complete w jobId attempt now hpc =>
      refine goto_completes hmono fun r₀ hr₀ => ?_
      obtain ⟨hmem, hid⟩ := find_row hr₀
      exact ⟨hid, r₀, hmem, rfl⟩
  | @markDone w jobId attempt now row hpc hcount =>
      refine goto_completes hmono (afterDone_sound fun r₀ hr₀ => ?_)
      have hw := hsound w
      rw [hpc] at hw
      obtain ⟨hid, r, hr, hplace⟩ := hw r₀ hr₀
      obtain ⟨q, hq, hheld⟩ := rowCount_pos.mp (Nat.pos_of_ne_zero hcount)
      have hsame : q = r := row_unique hf.ids hq hr <| by
        rw [(heldBy_iff.mp hheld).1, id_of_place hplace, hid]
      subst hsame
      exact ⟨_, mem_update_touched hq hheld, hplace, rfl⟩
  | notDone hpc hcount => exact goto_completes hmono trivial
  | @notRepeated w row now hpc =>
      have hw := hmono w
      rw [hpc] at hw
      exact goto_completes hmono (release_sound hw)
  | @repeatJob w row now r hpc hfresh =>
      have hw := hmono w
      rw [hpc] at hw
      exact goto_completes hmono (release_sound hw)
  | @selectSiblings w siblings rel hpc hperm =>
      have hw := hsound w
      rw [hpc] at hw
      refine goto_completes hsound (next_sound h hw fun q hq => ?_)
      have hq := List.mem_filter.mp (hperm.mem_iff.mp hq)
      exact h.sibling hf hq.1 (parked_iff.mp hq.2).1
  | @depDone w rel sib dep deps rest hpc row hrow hdone =>
      have hw := hsound w
      rw [hpc] at hw
      obtain ⟨hflow, hstatus, hmatch⟩ := satisfies_iff.mp hdone
      exact goto_completes hsound
        (check_sound h hw.1 hw.2.2 (hw.2.1.found h hrow hflow hstatus hmatch))
  | @depOpen w rel sib dep deps rest hpc hopen =>
      have hw := hsound w
      rw [hpc] at hw
      exact goto_completes hsound (next_sound h hw.1 hw.2.2)
  | @releaseChild w rel sib rest hpc =>
      have hw := hmono w
      rw [hpc] at hw
      exact goto_completes hmono (next_sound hplaced hw.1 hw.2.2)
  | fail => exact hmono
  | sweepExpired => exact hmono
  | dlqRetry => exact hmono
  | startFlow flowId hflowId hcheck hseen => exact hmono
  | insertChild hpc hfresh => exact hmono
  | patchFlowDeps hpc => exact hmono
  | abandon => exact goto_completes hmono trivial
  | abandonFlow => exact hmono

/-! ## Children are kept back -/

/-- A child is pending and parked, or its dependencies are done. -/
def Gated (s : St) : Prop :=
  ∀ c ∈ s.children, ∀ r ∈ s.rows, r.id = c.jobId →
    (r.status = .pending ∧ r.availableAt = flowBlockedAvailableAt) ∨ DepsDone s.rows c

/-- A statement reaches a parked child only to leave it parked, or when its
dependencies are done. -/
theorem Gated.statement {p : Row → Bool} {f : Row → Row} (h : Gated s)
    (hrows : s'.rows = update p f s.rows) (hchildren : s'.children = s.children)
    (hgrows : Grows s.rows s'.rows) (hid : ∀ r, (f r).id = r.id)
    (hopen : ∀ c ∈ s.children, ∀ r ∈ s.rows, r.id = c.jobId → p r = true →
      r.status = .pending → r.availableAt = flowBlockedAvailableAt →
      (f r).status = .pending ∧ (f r).availableAt = flowBlockedAvailableAt ∨ DepsDone s.rows c) :
    Gated s' := by
  intro c hc
  rw [hchildren] at hc
  have hkept : ∀ r ∈ update p f s.rows, r.id = c.jobId →
      (r.status = .pending ∧ r.availableAt = flowBlockedAvailableAt) ∨ DepsDone s.rows c := by
    refine forall_update (fun r hr hp hrid => ?_) fun r hr _ => h c hc r hr
    rw [hid] at hrid
    rcases h c hc r hr hrid with ⟨hpending, hparked⟩ | hdone
    · exact hopen c hc r hr hrid hp hpending hparked
    · exact .inr hdone
  rw [hrows] at hgrows ⊢
  exact fun r hr hrid => (hkept r hr hrid).imp_right (DepsDone.mono hgrows)

/-- The same rows, or one more that is no child. -/
theorem Gated.insert {row : Row} (h : Gated s) (hrows : s'.rows = s.rows ++ [row])
    (hchildren : s'.children = s.children) (hid : ∀ c ∈ s.children, c.jobId ≠ row.id) :
    Gated s' := by
  intro c hc r hr hrid
  rw [hchildren] at hc
  rw [hrows] at hr ⊢
  rcases List.mem_append.mp hr with hold | hnew
  · exact (h c hc r hold hrid).imp_right
      (DepsDone.mono fun q hq => ⟨q, List.mem_append_left _ hq, rfl, id⟩)
  · rw [List.mem_singleton.mp hnew] at hrid
    exact (hid c hc hrid.symm).elim

theorem Placed.fresh_child (h : Placed s) (hf : Fence s) {id : JsString} (hfresh : id ∉ s.seen) :
    ∀ c ∈ s.children, c.jobId ≠ id := fun _ hc heq => hfresh (heq ▸ h.child_known hf hc)

theorem parked_not_due (now : Date) {t : Int} (h : t = flowBlockedAvailableAt) : ¬ t ≤ now.val := by
  have := now.property
  rw [h, flowBlockedAvailableAt]
  omega

theorem heldBy_not_pending {jobId : JsString} {attempt : Option Nat} {r : Row}
    (h : heldBy jobId attempt r = true) : r.status ≠ .pending := by
  rw [(heldBy_iff.mp h).2.1]
  exact Status.noConfusion

theorem Moves.gated {a : Action} (hm : Moves s a s') (hf : Fence s) (h : Placed s)
    (hsound : ∀ w, (s.completes w).Sound s) (hgated : Gated s) : Gated s' := by
  have hgrows := hm.effect.grows hf
  cases hm with
  | stays => exact hgated
  | enqueue hfresh => exact hgated.insert rfl rfl (h.fresh_child hf hfresh)
  | lease leased hleased hcandidate hnodup =>
      refine hgated.statement rfl rfl hgrows (fun _ => rfl) fun c _ r hr _ hp _ hparked => ?_
      have hdue := (candidate_iff.mp (hcandidate r (leased_row hf.ids hleased hr hp))).2.2.1
      exact (parked_not_due _ hparked hdue).elim
  | extendLease =>
      exact hgated.statement rfl rfl hgrows (fun _ => rfl) fun _ _ _ _ _ _ hpending hparked =>
        .inl ⟨hpending, hparked⟩
  | complete hpc => exact hgated
  | markDone hpc hcount =>
      exact hgated.statement rfl rfl hgrows (fun _ => rfl) fun _ _ _ _ _ hp hpending _ =>
        (heldBy_not_pending hp hpending).elim
  | notDone hpc hcount =>
      exact hgated.statement rfl rfl hgrows (fun _ => rfl) fun _ _ _ _ _ hp hpending _ =>
        (heldBy_not_pending hp hpending).elim
  | notRepeated hpc => exact hgated
  | repeatJob hpc hfresh => exact hgated.insert rfl rfl (h.fresh_child hf hfresh)
  | selectSiblings hpc hperm => exact hgated
  | depDone hpc hrow hdone => exact hgated
  | depOpen hpc hopen => exact hgated
  | @releaseChild w rel sib rest hpc =>
      have hw := hsound w
      rw [hpc] at hw
      refine hgated.statement rfl rfl hgrows (fun _ => rfl) fun c hc r _ hrid hp _ _ => .inr ?_
      obtain ⟨d, hd, hdid, hdflow, found, open_, heq, hfound, hnone⟩ := hw.2.1
      have hsame : d = c := by
        refine List.inj_on_of_nodup_map h.jobIds hd hc (hdid.trans ?_)
        rw [← of_decide_eq_true hp, hrid]
      subst hsame
      rw [List.forall₂_nil_right_iff.mp hnone, List.append_nil] at heq
      exact fun name hname => hdflow ▸ hfound name (heq ▸ hname)
  | fail =>
      exact hgated.statement rfl rfl hgrows (fun _ => rfl) fun _ _ _ _ _ hp hpending _ =>
        (heldBy_not_pending hp hpending).elim
  | sweepExpired =>
      refine hgated.statement rfl rfl hgrows (fun _ => rfl) fun _ _ r _ _ hp hpending _ => ?_
      rw [(expired_iff.mp hp).1] at hpending
      cases hpending
  | dlqRetry =>
      refine hgated.statement rfl rfl hgrows (fun _ => rfl) fun _ _ r _ _ hp hpending _ => ?_
      rw [(deadLetter_iff.mp hp).2] at hpending
      cases hpending
  | startFlow flowId hflowId hcheck hseen => exact hgated
  | @insertChild flowId id now queueName c todo jobs hpc hfresh =>
      intro d hd r hr hrid
      rcases List.mem_append.mp hr with hold | hnew
      · rcases List.mem_append.mp hd with hd | hd
        · exact (hgated d hd r hold hrid).imp_right (DepsDone.mono hgrows)
        · rw [List.mem_singleton.mp hd] at hrid
          have hid : r.id = id := hrid
          exact (hfresh (hid ▸ hf.seen r hold)).elim
      · rw [List.mem_singleton.mp hnew] at hrid ⊢
        rcases List.mem_append.mp hd with hd | hd
        · exact (h.fresh_child hf hfresh d hd hrid.symm).elim
        · rw [List.mem_singleton.mp hd]
          by_cases hnone : c.dependsOn = []
          · refine .inr fun name hname => ?_
            rw [show (⟨flowId, c.name, id, c.dependsOn⟩ : FlowChild).dependsOn = c.dependsOn
              from rfl, hnone] at hname
            exact (List.not_mem_nil hname).elim
          · refine .inl ⟨rfl, ?_⟩
            show (if (if c.dependsOn = [] then none else some _).isSome then _ else _) = _
            rw [if_neg hnone]
            rfl
  | patchFlowDeps hpc =>
      exact hgated.statement rfl rfl hgrows (fun _ => rfl) fun _ _ _ _ _ _ hpending hparked =>
        .inl ⟨hpending, hparked⟩
  | abandon => exact hgated
  | abandonFlow => exact hgated

/-! ## Whole runs -/

structure FlowInv (s : St) : Prop where
  fence : Fence s
  placed : Placed s
  sound : ∀ w, (s.completes w).Sound s
  gated : Gated s

theorem init_flowInv : FlowInv St.init where
  fence := init_fence
  placed := ⟨fun _ hr => (List.not_mem_nil hr).elim, fun _ _ ht => (List.not_mem_nil ht).elim,
    fun _ hr => (List.not_mem_nil hr).elim, fun _ hr => (List.not_mem_nil hr).elim,
    fun _ hc => (List.not_mem_nil hc).elim, List.nodup_nil, fun _ => List.nodup_nil,
    fun _ _ hj => (List.not_mem_nil hj).elim, fun _ hf => (hf rfl).elim,
    fun _ hc => (List.not_mem_nil hc).elim⟩
  sound := fun _ => trivial
  gated := fun _ hc => (List.not_mem_nil hc).elim

theorem reach_flowInv {ok : St → Action → Prop} (h : Reach step ok St.init s) : FlowInv s := by
  refine h.invariant init_flowInv fun s a s' hI _ hs => ?_
  have hm := step_moves hI.fence.ids hs
  exact ⟨hm.effect.fence hI.fence, hm.placed hI.fence hI.placed,
    hm.sound hI.fence hI.placed hI.sound, hm.gated hI.fence hI.placed hI.sound hI.gated⟩

/-- A step that hands out a pending job does so at a time it is due. -/
theorem Effect.due {a : Action} (he : Effect s a s') (hf : Fence s) {r r' : Row} (hr : r ∈ s.rows)
    (hr' : r' ∈ s'.rows) (hid : r'.id = r.id) (hpending : r.status = .pending)
    (hinflight : r'.status = .inflight) : ∃ now : Date, r.availableAt ≤ now.val := by
  have hfrom : ∀ {p : Row → Bool} {f : Row → Row}, s'.rows = update p f s.rows →
      (∀ r, (f r).id = r.id) → p r = true ∧ (f r).status = .inflight := by
    intro p f hrows hfid
    rw [hrows] at hr'
    obtain ⟨q, hq, heq⟩ := mem_update.mp hr'
    have hqid : r'.id = q.id := by
      rw [heq]
      split
      · exact hfid q
      · rfl
    have hsame : q = r := row_unique hf.ids hq hr (hqid.symm.trans hid)
    subst hsame
    by_cases hp : p q = true
    · rw [heq, if_pos hp] at hinflight
      exact ⟨hp, hinflight⟩
    · rw [heq, if_neg hp, hpending] at hinflight
      cases hinflight
  cases he with
  | same hrows hlog hseen =>
      rw [row_unique hf.ids (hrows ▸ hr') hr hid, hpending] at hinflight
      cases hinflight
  | insert row hfresh hnew hattempts hrows hlog hseen hmax =>
      rw [hrows] at hr'
      rcases List.mem_append.mp hr' with hold | hlast
      · rw [row_unique hf.ids hold hr hid, hpending] at hinflight
        cases hinflight
      · rw [List.mem_singleton.mp hlast, hnew] at hinflight
        cases hinflight
  | @lease _ _ _ _ now _ _ leased hleased hcandidate hnodup hrows hlog hseen =>
      have hmem : r ∈ leased := leased_row hf.ids hleased hr (hfrom hrows fun _ => rfl).1
      exact ⟨now, (candidate_iff.mp (hcandidate r hmem)).2.2.1⟩
  | touch p f hkeeps hrows hlog hseen =>
      have hstatus := (hfrom hrows fun r => id_of_place (hkeeps.place r)).2
      rw [hkeeps.status, hpending] at hstatus
      cases hstatus
  | settle jobId attempt f hsettles hrows hlog hseen =>
      have hmatch := (hfrom hrows fun r => id_of_place (hsettles.place r)).1
      exact (heldBy_not_pending hmatch hpending).elim
  | sweep now hrows hlog hseen =>
      have hstatus := (hfrom hrows fun _ => rfl).2
      cases hstatus
  | requeue jobId now hrows hlog hseen =>
      have hstatus := (hfrom hrows fun _ => rfl).2
      cases hstatus

/-- In a flow a name is one job's. -/
theorem Placed.name_unique (h : Placed s) (hf : Fence s) {flowId name : JsString} {r r' : Row}
    (hr : r ∈ s.rows) (hr' : r' ∈ s.rows) (hflow : r.flowId = some flowId)
    (hflow' : r'.flowId = some flowId) (hname : r.flowChildName = some name)
    (hname' : r'.flowChildName = some name) : r = r' := by
  obtain ⟨c, hc, hid, hcflow, hcname⟩ := h.child _ (cols_of_mem hr hflow)
  obtain ⟨c', hc', hid', hcflow', hcname'⟩ := h.child _ (cols_of_mem hr' hflow')
  have hnodup : ((s.childrenOf flowId).map FlowChild.name).Nodup :=
    (h.names flowId).sublist (List.sublist_append_left _ _)
  have hsame : c = c' := by
    refine List.inj_on_of_nodup_map hnodup (List.mem_filter.mpr ⟨hc, decide_eq_true hcflow⟩)
      (List.mem_filter.mpr ⟨hc', decide_eq_true hcflow'⟩) (Option.some.inj ?_)
    exact hcname.symm.trans (hname.trans (hname'.symm.trans hcname'))
  exact row_unique hf.ids hr hr' (hid.symm.trans (hsame ▸ hid'))

/-- A query for a dependency takes no other text for the id or the name of a job of the flow. -/
def distinct (same : JsString → JsString → Bool) (s : St) : Action → Bool
  | .checkDep w =>
      match s.completes w with
      | .checking rel _ dep _ _ => s.rows.all fun r =>
          r.flowId ≠ some rel.flowId || (same r.id dep == exactly r.id dep &&
            r.flowChildName.all fun name => same name dep == exactly name dep)
      | _ => true
  | _ => true

theorem satisfies_exactly {same : JsString → JsString → Bool} {flowId dep : JsString} {r : Row}
    (h : (r.flowId ≠ some flowId || (same r.id dep == exactly r.id dep &&
      r.flowChildName.all fun name => same name dep == exactly name dep)) = true) :
    satisfies same flowId dep r = satisfies exactly flowId dep r := by
  by_cases hflow : r.flowId = some flowId
  · rw [decide_eq_false (not_not.mpr hflow), Bool.false_or, Bool.and_eq_true, beq_iff_eq] at h
    have hname : r.flowChildName.any (same · dep) = r.flowChildName.any (exactly · dep) := by
      cases hn : r.flowChildName with
      | none => rfl
      | some name =>
          rw [hn, Option.all_some, beq_iff_eq] at h
          exact h.2
    rw [satisfies, satisfies, h.1, hname]
  · rw [satisfies, satisfies, decide_eq_false fun h' => hflow h'.1,
      decide_eq_false fun h' => hflow h'.1]

/-- Where the texts are told apart, the database might as well compare them exactly. -/
theorem stepWith_exactly {same : JsString → JsString → Bool} {a : Action}
    (h : distinct same s a = true) : stepWith same s a = step s a := by
  cases a with
  | checkDep w =>
      rw [distinct] at h
      rw [step, stepWith, stepWith]
      split
      · next rel sib dep deps rest hpc =>
          rw [hpc] at h
          have hany : s.rows.any (satisfies same rel.flowId dep) =
              s.rows.any (satisfies exactly rel.flowId dep) := by
            rw [Bool.eq_iff_iff, List.any_eq_true, List.any_eq_true]
            exact exists_congr fun r => and_congr_right fun hr => by
              rw [satisfies_exactly (List.all_eq_true.mp h r hr)]
          rw [hany]
      · rfl
  | _ => rfl

theorem reach_exactly {same : JsString → JsString → Bool}
    (h : Reach (stepWith same) (fun s a => distinct same s a = true) St.init s) :
    Reach step Always St.init s := by
  induction h with
  | start => exact .start
  | next _ hok hs ih => exact .next ih trivial (stepWith_exactly hok ▸ hs)

def namedChild (name : JsString) (dependsOn : List JsString) : Child :=
  ⟨name, none, dependsOn, 0, none, none, none⟩

/-- Two children, the second waiting for the first. -/
def pairSpec : FlowSpec :=
  ⟨units "ingest",
    [namedChild (units "fetch") [], namedChild (units "publish") [units "fetch"]]⟩

def fetchRow : Row :=
  enqueue (units "j1") (units "ingest") none
    ((namedChild (units "fetch") []).toEnqueueOpts (units "flow-1")) dawn

def publishRow : Row :=
  enqueue (units "j2") (units "ingest") none
    ((namedChild (units "publish") [units "fetch"]).toEnqueueOpts (units "flow-1")) dawn

/-- `publishRow` once its dependency is an id. -/
def patchedRow : Row := { publishRow with dependsOn := some [.str (units "j1")] }

/-- The flow is enqueued, its first child leased and completed. -/
def pairRun : List Action :=
  [.startFlow (units "1") pairSpec,
    .insertChild (units "flow-1") (units "j1") dawn,
    .lease (units "ingest") 1000 1 dawn [] [fetchRow],
    .insertChild (units "flow-1") (units "j2") dawn,
    .complete 0 (units "j1") (some 1) noon,
    .patchFlowDeps (units "flow-1"),
    .markDone 0,
    .selectSiblings 0 [patchedRow],
    .releaseChild 0]

/-- A text column keeps a lone surrogate as U+FFFD. -/
def sameStored (x y : JsString) : Bool := toWellFormed x = toWellFormed y

/-- A child that waits for two. -/
def tripleSpec : FlowSpec :=
  ⟨units "ingest", [namedChild (units "fetch") [], namedChild (units "check") [],
    namedChild (units "publish") [units "fetch", units "check"]]⟩

def tripleRow (id name : String) (dependsOn : List JsString) : Row :=
  enqueue (units id) (units "ingest") none
    ((namedChild (units name) dependsOn).toEnqueueOpts (units "flow-1")) dawn

def waitingRow : Row := tripleRow "j3" "publish" [units "fetch", units "check"]

/-- Both are done before the names are rewritten: the first is looked for by its name. -/
def tripleRun : List Action :=
  [.startFlow (units "1") tripleSpec,
    .insertChild (units "flow-1") (units "j1") dawn,
    .lease (units "ingest") 1000 1 dawn [] [tripleRow "j1" "fetch" []],
    .insertChild (units "flow-1") (units "j2") dawn,
    .insertChild (units "flow-1") (units "j3") dawn,
    .complete 0 (units "j1") (some 1) noon,
    .markDone 0,
    .lease (units "ingest") 1000 1 noon [] [tripleRow "j2" "check" []],
    .complete 1 (units "j2") (some 1) noon,
    .markDone 1,
    .selectSiblings 1 [waitingRow],
    .checkDep 1,
    .releaseChild 1]

def tripleLease : Action :=
  .lease (units "ingest") 1000 2 noon [] [{ waitingRow with availableAt := 5000 }]

/-- U+D800 and U+FFFD: two names to `enqueueFlow`, one text to the database. -/
def loneName : JsString := [0xD800]

def replacementName : JsString := [0xFFFD]

def loneSpec : FlowSpec :=
  ⟨units "ingest", [namedChild replacementName [], namedChild loneName [],
    namedChild (units "publish") [loneName]]⟩

def loneRow (id : String) (name : JsString) (dependsOn : List JsString) : Row :=
  enqueue (units id) (units "ingest") none
    ((namedChild name dependsOn).toEnqueueOpts (units "flow-1")) dawn

/-- The child with the other name is done, and found for the dependency. -/
def loneRun : List Action :=
  [.startFlow (units "1") loneSpec,
    .insertChild (units "flow-1") (units "j1") dawn,
    .lease (units "ingest") 1000 1 dawn [] [loneRow "j1" replacementName []],
    .insertChild (units "flow-1") (units "j2") dawn,
    .insertChild (units "flow-1") (units "j3") dawn,
    .complete 0 (units "j1") (some 1) noon,
    .markDone 0,
    .selectSiblings 0 [loneRow "j3" (units "publish") [loneName]],
    .checkDep 0,
    .releaseChild 0,
    .lease (units "ingest") 1000 2 noon []
      [loneRow "j2" loneName [],
        { loneRow "j3" (units "publish") [loneName] with availableAt := 5000 }]]

end Blamejs.QueueLocal
