import Blamejs.Ref.BreakGlass

/-!
# What a break-glass grant opens

`resume_cases` says once what the next statement of a call can do; the invariant is read
off from it. A grant's terms (everything but its counter and its revocation) are never
assigned, so what a call read of them stays true, and each call that got past the
consuming statement is counted in `rowsConsumed`. Once a grant is revoked or expired the
condition of that statement is false for good.

The columns are the one bound that nothing checks: a row comes back with every locked
column in the clear, whichever of them the grant lists. The runs in which the rows that
are read hold nothing in the other locked columns are those in which that does not show.
-/

namespace Blamejs.BreakGlass

open Blamejs.Js Run

variable {p : Platform} {policies : JsString → Option Policy}

/-! ## Grants -/

/-- What no statement assigns. -/
def GrantRow.terms (grant : GrantRow) : GrantRow :=
  { grant with rowsConsumed := 0, revokedAt := none }

theorem terms_consume (grant : GrantRow) : (consume grant).terms = grant.terms := rfl

theorem id_of_terms {grant grant' : GrantRow} (h : grant.terms = grant'.terms) :
    grant.id = grant'.id :=
  (show grant.terms.id = grant'.terms.id by rw [h])

/-- Every grant is still there, on the same terms. -/
def Keeps (grants grants' : List GrantRow) : Prop :=
  ∀ grant ∈ grants, ∃ grant' ∈ grants', grant'.terms = grant.terms

theorem keeps_append (grants : List GrantRow) (more : List GrantRow) :
    Keeps grants (grants ++ more) := fun grant h => ⟨grant, List.mem_append_left _ h, rfl⟩

theorem keeps_update {cond : GrantRow → Bool} {f : GrantRow → GrantRow} {grants : List GrantRow}
    (hf : ∀ grant, (f grant).terms = grant.terms) : Keeps grants (Table.update cond f grants) := by
  intro grant h
  refine ⟨_, Table.mem_update_of_mem h, ?_⟩
  split
  · exact hf grant
  · rfl

theorem findGrant_some {grants : List GrantRow} {id : JsString} {grant : GrantRow}
    (h : findGrant grants id = some grant) : grant ∈ grants ∧ grant.id = id :=
  ⟨List.mem_of_find?_eq_some h, by simpa using List.find?_some h⟩

theorem findGrant_none {grants : List GrantRow} {id : JsString}
    (h : (findGrant grants id).isSome = false) {grant : GrantRow} (hmem : grant ∈ grants) :
    grant.id ≠ id := by
  intro hid
  have hnone := List.find?_eq_none.mp (Option.not_isSome_iff_eq_none.mp (by
    rw [findGrant] at h
    rw [h]
    exact Bool.false_ne_true)) grant hmem
  exact hnone (decide_eq_true hid)

theorem mayConsume_iff {id : JsString} {now : Nat} {grant : GrantRow} :
    mayConsume id now grant = true ↔ grant.id = id ∧
      grant.rowsConsumed < grant.maxRowsPerGrant ∧ grant.revokedAt = none ∧
      now < grant.expiresAt := decide_eq_true_iff

/-! ## Checks -/

/-- The bindings of a grant that its policy pins hold of a request. -/
def Pinned (p : Platform) (policy : Policy) (grant : GrantRow) (req : Request) : Prop :=
  (policy.pinIp = true → ∃ ip, grant.ip = some ip ∧ p.sameAddress req.ip ip = true) ∧
    (policy.sessionPin = true → ∃ sessionId, grant.sessionId = some sessionId ∧
      orNull req.sessionId = some sessionId)

theorem enforceGrantPins_ok {policy : Policy} {grant : GrantRow} {req : Request}
    (h : enforceGrantPins p (some policy) grant req = .ok ()) : Pinned p policy grant req := by
  obtain ⟨⟨⟩, hip, hsession⟩ := Checked.bind_eq_ok.mp h
  constructor
  · intro hpin
    rw [if_pos hpin] at hip
    cases hgrant : grant.ip with
    | none => rw [hgrant] at hip; cases hip
    | some ip =>
        rw [hgrant] at hip
        exact ⟨ip, rfl, Checked.ensure_eq_ok.mp hip⟩
  · intro hpin
    rw [if_pos hpin] at hsession
    cases hgrant : grant.sessionId with
    | none => rw [hgrant] at hsession; cases hsession
    | some sessionId =>
        rw [hgrant] at hsession
        exact ⟨sessionId, rfl, Checked.ensure_eq_ok.mp hsession⟩

theorem checkGrant_ok {grantId table : JsString} {now : Nat} {found : Option GrantRow}
    {grant : GrantRow} (h : checkGrant p grantId table now found = .ok grant) :
    found = some grant ∧ grant.scopeTable = table := by
  obtain ⟨grant', hfound, h⟩ := Checked.bind_eq_ok.mp h
  obtain ⟨⟨⟩, htable, h⟩ := Checked.bind_eq_ok.mp h
  obtain ⟨⟨⟩, -, h⟩ := Checked.bind_eq_ok.mp h
  obtain ⟨⟨⟩, -, h⟩ := Checked.bind_eq_ok.mp h
  obtain ⟨⟨⟩, -, h⟩ := Checked.bind_eq_ok.mp h
  cases h
  cases found with
  | none => cases hfound
  | some found =>
      cases hfound
      exact ⟨rfl, Checked.ensure_eq_ok.mp htable⟩

/-- What the rows under a grant may show: nothing in the locked columns that the grant
does not list. -/
def InScope (policies : JsString → Option Policy) (table : JsString) (grant : GrantRow)
    (row : Row) : Prop :=
  ∀ policy, policies table = some policy →
    ∀ column ∈ policy.columns, column ∈ grant.scopeColumns ∨ row column = .null

theorem decryptColumns_null {table rowId column : JsString} {row unsealedRow result : Row}
    {columns : List JsString} (hnull : row column = .null)
    (h : decryptColumns p table rowId row columns unsealedRow = .ok result) :
    result column = unsealedRow column := by
  induction columns generalizing unsealedRow with
  | nil => cases h; rfl
  | cons c columns ih =>
      rw [decryptColumns] at h
      split at h
      · exact ih h
      · next hc =>
          split at h
          · rw [ih h]
            refine Function.update_of_ne ?_ _ _
            rintro rfl
            exact hc hnull
          · cases h

/-- A column that is null in the table is null in the clear. -/
theorem openRow_null {policy : Option Policy} {grant : GrantRow} {table rowId column : JsString}
    {row result : Row} (h : openRow p policy grant table rowId row = .ok result)
    (hnull : row column = .null) : result column = .null := by
  rw [openRow] at h
  split at h
  · next policy' _ =>
      obtain ⟨unsealedRow, hunseal, h⟩ := Checked.bind_eq_ok.mp h
      rw [decryptColumns_null hnull h]
      refine p.unsealRow_null hunseal ?_
      split
      · rfl
      · exact hnull
  · exact p.unsealRow_null h hnull

/-! ## One statement -/

/-- What the next statement of a call does. -/
inductive Resumed (p : Platform) (policies : JsString → Option Policy) (s : St) (t : Task) :
    List GrantRow → Pc → Prop
  | thrown (e : Err) : Resumed p policies s t s.grants (.thrown e)
  | read {grant : GrantRow} (hpc : t.pc = .grantRead) (hmem : grant ∈ s.grants)
      (hid : grant.id = t.grantId) (htable : grant.scopeTable = t.table) :
      Resumed p policies s t s.grants (.rowRead grant)
  | pinned {grant : GrantRow} {row : Row} (hpc : t.pc = .rowRead grant)
      (hpins : ∀ policy, policies t.table = some policy → Pinned p policy grant t.req)
      (hrow : s.rows t.table t.rowId = some row) :
      Resumed p policies s t s.grants (.increment grant row)
  | consumed {grant grant' : GrantRow} {row : Row} (hpc : t.pc = .increment grant row)
      (hmem : grant' ∈ s.grants) (hmay : mayConsume t.grantId s.now grant' = true) :
      Resumed p policies s t (Table.update (mayConsume t.grantId s.now) consume s.grants)
        (.postRead grant row)
  | opened {grant : GrantRow} {row result : Row} (hpc : t.pc = .postRead grant row)
      (hopen : openRow p (policies t.table) grant t.table t.rowId row = .ok result) :
      Resumed p policies s t s.grants (.returned grant result)

theorem resume_cases {s : St} {t : Task} {grants : List GrantRow} {pc : Pc}
    (h : resume p policies s t = some (grants, pc)) : Resumed p policies s t grants pc := by
  rw [resume] at h
  split at h
  · next hpc =>
      cases hcheck : checkGrant p t.grantId t.table s.now (findGrant s.grants t.grantId) with
      | error e =>
          rw [hcheck] at h
          cases h
          exact .thrown e
      | ok grant =>
          rw [hcheck] at h
          cases h
          obtain ⟨hfound, htable⟩ := checkGrant_ok hcheck
          obtain ⟨hmem, hid⟩ := findGrant_some hfound
          exact .read hpc hmem hid htable
  · next grant hpc =>
      cases hpins : enforceGrantPins p (policies t.table) grant t.req with
      | error e =>
          rw [hpins] at h
          cases h
          exact .thrown e
      | ok u =>
          rw [hpins] at h
          cases hrow : s.rows t.table t.rowId with
          | none =>
              rw [hrow] at h
              cases h
              exact .thrown _
          | some row =>
              rw [hrow] at h
              cases h
              refine .pinned hpc (fun policy hpolicy => ?_) hrow
              rw [hpolicy] at hpins
              exact enforceGrantPins_ok hpins
  · next grant row hpc =>
      split at h
      · cases h
        exact .thrown _
      · next hcount =>
          cases h
          obtain ⟨grant', hmem, hmay⟩ := Table.rowCount_pos.mp (Nat.not_lt.mp hcount)
          exact .consumed hpc hmem hmay
  · next grant row hpc =>
      split at h
      · cases h
        exact .thrown _
      · cases hopen : openRow p (policies t.table) grant t.table t.rowId row with
        | error e =>
            rw [hopen] at h
            cases h
            exact .thrown e
        | ok result =>
            rw [hopen] at h
            cases h
            exact .opened hpc hopen
  · cases h
  · cases h

/-! ## The invariant -/

/-- The call is past its consuming statement. -/
def Task.consumed (t : Task) : Bool :=
  match t.pc with
  | .postRead _ _ => true
  | .returned _ _ => true
  | _ => false

/-- A call under the grant that is past its consuming statement. -/
def Task.holds (id : JsString) (t : Task) : Bool := t.grantId = id ∧ t.consumed = true

theorem holds_iff {id : JsString} {t : Task} :
    t.holds id = true ↔ t.grantId = id ∧ t.consumed = true := decide_eq_true_iff

/-- What a call read of its grant is true of the grant. -/
def Read (grants : List GrantRow) (t : Task) (grant : GrantRow) : Prop :=
  grant.id = t.grantId ∧ grant.scopeTable = t.table ∧ ∃ grant' ∈ grants, grant'.terms = grant.terms

/-- What a call knows in each of its states. -/
def Sound (p : Platform) (policies : JsString → Option Policy) (grants : List GrantRow) (t : Task) :
    Prop :=
  match t.pc with
  | .grantRead => True
  | .rowRead grant => Read grants t grant
  | .increment grant row => Read grants t grant ∧ InScope policies t.table grant row ∧
      ∀ policy, policies t.table = some policy → Pinned p policy grant t.req
  | .postRead grant row => Read grants t grant ∧ InScope policies t.table grant row ∧
      ∀ policy, policies t.table = some policy → Pinned p policy grant t.req
  | .returned grant result => Read grants t grant ∧ InScope policies t.table grant result ∧
      ∀ policy, policies t.table = some policy → Pinned p policy grant t.req
  | .thrown _ => True

theorem Read.keeps {grants grants' : List GrantRow} {t : Task} {grant : GrantRow}
    (h : Read grants t grant) (hkeeps : Keeps grants grants') : Read grants' t grant := by
  obtain ⟨hid, htable, grant', hmem, hterms⟩ := h
  obtain ⟨grant'', hmem', hterms'⟩ := hkeeps grant' hmem
  exact ⟨hid, htable, grant'', hmem', hterms'.trans hterms⟩

theorem Sound.keeps {grants grants' : List GrantRow} {t : Task} (h : Sound p policies grants t)
    (hkeeps : Keeps grants grants') : Sound p policies grants' t := by
  unfold Sound at h ⊢
  split at h
  · trivial
  · exact h.keeps hkeeps
  · exact ⟨h.1.keeps hkeeps, h.2⟩
  · exact ⟨h.1.keeps hkeeps, h.2⟩
  · exact ⟨h.1.keeps hkeeps, h.2⟩
  · trivial

/-- The grant of a call that is past its consuming statement is there. -/
theorem Sound.granted {grants : List GrantRow} {t : Task} (h : Sound p policies grants t)
    (hconsumed : t.consumed = true) : ∃ grant ∈ grants, grant.id = t.grantId := by
  have hread : ∃ grant, Read grants t grant := by
    unfold Sound at h
    unfold Task.consumed at hconsumed
    split at h
    all_goals first
      | exact ⟨_, h.1⟩
      | simp_all
  obtain ⟨grant, hid, -, grant', hmem, hterms⟩ := hread
  exact ⟨grant', hmem, (id_of_terms hterms).trans hid⟩

structure Inv (p : Platform) (policies : JsString → Option Policy) (s : St) : Prop where
  keys : (s.grants.map GrantRow.id).Nodup
  bound : ∀ grant ∈ s.grants, grant.rowsConsumed ≤ grant.maxRowsPerGrant
  counted : ∀ grant ∈ s.grants, s.tasks.countP (Task.holds grant.id) ≤ grant.rowsConsumed
  sound : ∀ t ∈ s.tasks, Sound p policies s.grants t

/-- The rows that are read hold nothing in the locked columns that the grant does not
list. -/
def ReadsInScope (policies : JsString → Option Policy) (s : St) : Act → Prop
  | .resume k => ∀ t ∈ s.tasks[k]?, ∀ grant, t.pc = .rowRead grant →
      ∀ row ∈ s.rows t.table t.rowId, InScope policies t.table grant row
  | _ => True

theorem init_inv (now : Nat) (rows : JsString → JsString → Option Row) :
    Inv p policies (St.init now rows) :=
  ⟨List.nodup_nil, by simp [St.init], by simp [St.init], by simp [St.init]⟩

/-! ## Steps -/

variable {s s' : St}

/-- A new call is at its start. -/
theorem startPc_fresh (table rowId : JsString) (grantId : JsString) (req : Request) :
    (∀ id, Task.holds id ⟨grantId, table, rowId, req, startPc table rowId⟩ = false) ∧
      ∀ grants, Sound p policies grants ⟨grantId, table, rowId, req, startPc table rowId⟩ := by
  rw [startPc]
  split
  · exact ⟨fun id => by simp [Task.holds, Task.consumed], fun grants => trivial⟩
  · split
    · exact ⟨fun id => by simp [Task.holds, Task.consumed], fun grants => trivial⟩
    · exact ⟨fun id => by simp [Task.holds, Task.consumed], fun grants => trivial⟩

/-- With the call that moved past the consuming statement in, one more is counted. -/
theorem countP_moved {tasks : List Task} {k : Nat} {t t' : Task} (id : JsString)
    (hk : tasks[k]? = some t) (hid : t'.grantId = t.grantId) :
    (tasks.set k t').countP (Task.holds id) ≤ tasks.countP (Task.holds id) +
      (if t.grantId = id ∧ t.consumed = false ∧ t'.consumed = true then 1 else 0) := by
  obtain ⟨hlt, hget⟩ := List.getElem?_eq_some_iff.mp hk
  have hpos : t.holds id = true → 0 < tasks.countP (Task.holds id) := fun ht =>
    List.countP_pos_iff.mpr ⟨t, List.mem_of_getElem? hk, ht⟩
  rw [List.countP_set hlt, hget]
  by_cases hgrant : t.grantId = id
  · have ht : t.holds id = t.consumed := by simp [Task.holds, hgrant]
    have ht' : t'.holds id = t'.consumed := by simp [Task.holds, hid, hgrant]
    rw [ht] at hpos ⊢
    rw [ht']
    cases hc : t.consumed with
    | true =>
        have hone := hpos hc
        rw [if_pos rfl]
        cases hc' : t'.consumed with
        | true =>
            rw [if_pos rfl]
            omega
        | false =>
            rw [if_neg Bool.false_ne_true]
            omega
    | false =>
        rw [if_neg Bool.false_ne_true]
        cases hc' : t'.consumed with
        | true =>
            rw [if_pos rfl, if_pos ⟨hgrant, rfl, rfl⟩]
            omega
        | false =>
            rw [if_neg Bool.false_ne_true]
            omega
  · have ht' : t'.holds id = false := by simp [Task.holds, hid, hgrant]
    rw [ht', if_neg Bool.false_ne_true]
    omega

/-- A call that moved without consuming leaves the grants and the counts. -/
theorem Inv.moved {k : Nat} {t : Task} {pc : Pc} (h : Inv p policies s)
    (hk : s.tasks[k]? = some t)
    (hconsumed : ({ t with pc := pc } : Task).consumed = true → t.consumed = true)
    (hsound : Sound p policies s.grants { t with pc := pc }) :
    Inv p policies { s with tasks := s.tasks.set k { t with pc := pc } } where
  keys := h.keys
  bound := h.bound
  counted grant hgrant := by
    refine (@countP_moved _ k t { t with pc := pc } grant.id hk rfl).trans ?_
    rw [if_neg, Nat.add_zero]
    · exact h.counted grant hgrant
    · rintro ⟨-, hnot, hnow⟩
      rw [hconsumed hnow] at hnot
      cases hnot
  sound t' ht' := by
    rcases List.mem_or_eq_of_mem_set ht' with ht' | rfl
    · exact h.sound t' ht'
    · exact hsound

theorem Inv.increment {k : Nat} {t : Task} {grant grant' : GrantRow} {row : Row}
    (h : Inv p policies s) (hk : s.tasks[k]? = some t) (hpc : t.pc = .increment grant row)
    (hmem' : grant' ∈ s.grants) (hmay' : mayConsume t.grantId s.now grant' = true) :
    Inv p policies { s with
      grants := Table.update (mayConsume t.grantId s.now) consume s.grants
      tasks := s.tasks.set k { t with pc := .postRead grant row } } where
  keys := Table.nodup_update h.keys fun _ => rfl
  bound := Table.forall_update
    (fun g _ hmay => (mayConsume_iff.mp hmay).2.1)
    fun g hmem _ => h.bound g hmem
  counted := by
    have hmoved := fun id => @countP_moved _ k t { t with pc := .postRead grant row } id hk rfl
    refine Table.forall_update (fun g hmem _ => ?_) fun g hmem hnot => ?_
    · have hone : (if t.grantId = g.id ∧ t.consumed = false ∧
          ({ t with pc := .postRead grant row } : Task).consumed = true then 1 else 0) ≤ 1 := by
        split <;> omega
      have hcount := h.counted g hmem
      show _ ≤ g.rowsConsumed + 1
      exact (hmoved g.id).trans (by omega)
    · -- another grant: the touched row is the only one of its id
      refine (hmoved g.id).trans ?_
      rw [if_neg, Nat.add_zero]
      · exact h.counted g hmem
      · rintro ⟨hid, -, -⟩
        have hsame : g = grant' := Table.row_unique h.keys hmem hmem'
          (hid.symm.trans (mayConsume_iff.mp hmay').1.symm)
        rw [hsame, hmay'] at hnot
        cases hnot
  sound t' ht' := by
    have hkeeps : Keeps s.grants (Table.update (mayConsume t.grantId s.now) consume s.grants) :=
      keeps_update terms_consume
    rcases List.mem_or_eq_of_mem_set ht' with ht' | rfl
    · exact (h.sound t' ht').keeps hkeeps
    · have hsound := h.sound t (List.mem_of_getElem? hk)
      rw [Sound, hpc] at hsound
      exact ⟨hsound.1.keeps hkeeps, hsound.2⟩

/-- One statement of a call keeps the invariant. -/
theorem Inv.resume {k : Nat} {t : Task} {grants : List GrantRow} {pc : Pc}
    (h : Inv p policies s) (hk : s.tasks[k]? = some t) (hok : ReadsInScope policies s (.resume k))
    (hresumed : Resumed p policies s t grants pc) :
    Inv p policies { s with grants := grants, tasks := s.tasks.set k { t with pc := pc } } := by
  have hsound := h.sound t (List.mem_of_getElem? hk)
  unfold Sound at hsound
  cases hresumed with
  | thrown e => exact h.moved hk (fun hc => nomatch hc) trivial
  | read hpc hmem hid htable =>
      exact h.moved hk (fun hc => nomatch hc) ⟨hid, htable, _, hmem, rfl⟩
  | pinned hpc hpins hrow =>
      rw [hpc] at hsound
      exact h.moved hk (fun hc => nomatch hc) ⟨hsound, hok t hk _ hpc _ hrow, hpins⟩
  | consumed hpc hmem hmay => exact h.increment hk hpc hmem hmay
  | opened hpc hopen =>
      rw [hpc] at hsound
      refine h.moved hk (fun _ => by rw [Task.consumed, hpc]) ⟨hsound.1, ?_, hsound.2.2⟩
      intro policy hpolicy column hcolumn
      exact (hsound.2.1 policy hpolicy column hcolumn).imp_right (openRow_null hopen)

/-- Grants on the same terms, with the same counters: the calls stay as they are. -/
theorem Inv.grants {grants : List GrantRow} (h : Inv p policies s)
    (hkeys : (grants.map GrantRow.id).Nodup) (hkeeps : Keeps s.grants grants)
    (hrows : ∀ grant ∈ grants, (∃ grant' ∈ s.grants, grant.id = grant'.id ∧
      grant.rowsConsumed = grant'.rowsConsumed ∧ grant.maxRowsPerGrant = grant'.maxRowsPerGrant) ∨
      (grant.rowsConsumed = 0 ∧ ∀ grant' ∈ s.grants, grant'.id ≠ grant.id)) :
    Inv p policies { s with grants := grants } where
  keys := hkeys
  bound grant hgrant := by
    rcases hrows grant hgrant with ⟨grant', hmem, -, hcount, hmax⟩ | ⟨hzero, -⟩
    · rw [hcount, hmax]
      exact h.bound grant' hmem
    · rw [hzero]
      exact Nat.zero_le _
  counted grant hgrant := by
    rcases hrows grant hgrant with ⟨grant', hmem, hid, hcount, -⟩ | ⟨-, hnew⟩
    · rw [hcount, hid]
      exact h.counted grant' hmem
    · -- no call can hold a grant that was not there
      have hzero : s.tasks.countP (Task.holds grant.id) = 0 := by
        refine List.countP_eq_zero.mpr fun t ht hholds => ?_
        obtain ⟨hid, hconsumed⟩ := holds_iff.mp hholds
        obtain ⟨grant', hmem, hid'⟩ := (h.sound t ht).granted hconsumed
        exact hnew grant' hmem (hid'.trans hid)
      rw [hzero]
      exact Nat.zero_le _
  sound t ht := (h.sound t ht).keeps hkeeps

theorem grantRow_fresh {opts : GrantOpts} {outcome : FactorOutcome} {grantId : JsString} {now : Nat}
    {grant : GrantRow} (h : grantRow p policies opts outcome grantId now = .ok grant) :
    grant.id = grantId ∧ grant.rowsConsumed = 0 := by
  obtain ⟨_, -, h⟩ := Checked.bind_eq_ok.mp h
  obtain ⟨_, -, h⟩ := Checked.bind_eq_ok.mp h
  obtain ⟨_, -, h⟩ := Checked.bind_eq_ok.mp h
  obtain ⟨_, -, h⟩ := Checked.bind_eq_ok.mp h
  obtain ⟨_, -, h⟩ := Checked.bind_eq_ok.mp h
  obtain ⟨_, -, h⟩ := Checked.bind_eq_ok.mp h
  obtain ⟨_, -, h⟩ := Checked.bind_eq_ok.mp h
  obtain ⟨_, -, h⟩ := Checked.bind_eq_ok.mp h
  obtain ⟨_, -, h⟩ := Checked.bind_eq_ok.mp h
  cases h
  exact ⟨rfl, rfl⟩

theorem Inv.mint {grant : GrantRow} (h : Inv p policies s)
    (hnew : (findGrant s.grants grant.id).isSome = false) (hzero : grant.rowsConsumed = 0) :
    Inv p policies { s with grants := s.grants ++ [grant] } := by
  have hne : ∀ grant' ∈ s.grants, grant'.id ≠ grant.id := fun _ hmem => findGrant_none hnew hmem
  refine h.grants ?_ (keeps_append _ _) fun g hg => ?_
  · rw [List.map_append, List.nodup_append]
    refine ⟨h.keys, List.nodup_singleton _, ?_⟩
    rintro id hid id' hid' rfl
    obtain ⟨grant', hmem, rfl⟩ := List.mem_map.mp hid
    exact hne grant' hmem (by simpa using hid')
  · rcases List.mem_append.mp hg with hg | hg
    · exact Or.inl ⟨g, hg, rfl, rfl, rfl⟩
    · obtain rfl := List.mem_singleton.mp hg
      exact Or.inr ⟨hzero, hne⟩

theorem Inv.call {t : Task} (h : Inv p policies s) (hfresh : ∀ id, t.holds id = false)
    (hsound : Sound p policies s.grants t) :
    Inv p policies { s with tasks := s.tasks ++ [t] } where
  keys := h.keys
  bound := h.bound
  counted grant hgrant := by
    have := h.counted grant hgrant
    simpa [List.countP_append, hfresh] using this
  sound t' ht' := by
    rcases List.mem_append.mp ht' with ht' | ht'
    · exact h.sound t' ht'
    · obtain rfl := List.mem_singleton.mp ht'
      exact hsound

theorem Inv.step {a : Act} (h : Inv p policies s) (hok : ReadsInScope policies s a)
    (hstep : step p policies s a = some s') : Inv p policies s' := by
  cases a with
  | tick ms =>
      cases hstep
      exact ⟨h.keys, h.bound, h.counted, h.sound⟩
  | write table rowId row =>
      cases hstep
      exact ⟨h.keys, h.bound, h.counted, h.sound⟩
  | grant opts outcome grantId =>
      rw [BreakGlass.step] at hstep
      split at hstep
      · cases hstep
        exact h
      · next grant hgrant =>
          obtain ⟨hid, hzero⟩ := grantRow_fresh hgrant
          split at hstep
          · cases hstep
            exact h
          · next hnew =>
              cases hstep
              refine h.mint ?_ hzero
              rw [hid]
              exact eq_false_of_ne_true hnew
  | call grantId table rowId req =>
      cases hstep
      obtain ⟨hfresh, hsound⟩ := @startPc_fresh p policies table rowId grantId req
      exact h.call hfresh (hsound _)
  | resume k =>
      rw [BreakGlass.step] at hstep
      split at hstep
      · cases hstep
      · next t hk =>
          obtain ⟨⟨grants, pc⟩, hresume, rfl⟩ := Option.map_eq_some_iff.mp hstep
          exact h.resume hk hok (resume_cases hresume)
  | revoke grantId =>
      cases hstep
      refine h.grants (Table.nodup_update h.keys fun _ => rfl) (keeps_update fun _ => rfl) ?_
      exact Table.forall_update (fun g hmem _ => Or.inl ⟨g, hmem, rfl, rfl, rfl⟩)
        fun g hmem _ => Or.inl ⟨g, hmem, rfl, rfl, rfl⟩

theorem reach_inv {now : Nat} {rows : JsString → JsString → Option Row}
    (h : Reach (step p policies) (ReadsInScope policies) (St.init now rows) s) :
    Inv p policies s :=
  h.invariant (init_inv now rows) fun _ _ _ hinv hok hstep => hinv.step hok hstep

/-! ## Spent grants -/

/-- The grant is revoked, or its time is over. -/
def Over (s : St) (id : JsString) : Prop :=
  ∀ grant ∈ s.grants, grant.id = id → grant.revokedAt ≠ none ∨ grant.expiresAt ≤ s.now

/-- The grant is there, and each grant has an id of its own. -/
def Issued (s : St) (id : JsString) : Prop :=
  (s.grants.map GrantRow.id).Nodup ∧ ∃ grant ∈ s.grants, grant.id = id

theorem Over.refuses {id : JsString} (h : Over s id) {grant : GrantRow} (hmem : grant ∈ s.grants) :
    mayConsume id s.now grant = false := by
  by_contra hmay
  obtain ⟨hid, -, hrevoked, hexpires⟩ := mayConsume_iff.mp (eq_true_of_ne_false hmay)
  rcases h grant hmem hid with hover | hover
  · exact hover hrevoked
  · exact Nat.not_lt.mpr hover hexpires

theorem Over.update {id : JsString} {cond : GrantRow → Bool} {f : GrantRow → GrantRow}
    (h : Over s id) (hid : ∀ grant, (f grant).id = grant.id)
    (hrevoked : ∀ grant, grant.revokedAt ≠ none → (f grant).revokedAt ≠ none)
    (hexpires : ∀ grant, (f grant).expiresAt = grant.expiresAt) :
    Over { s with grants := Table.update cond f s.grants } id := by
  refine Table.forall_update (fun grant hmem _ => ?_) fun grant hmem _ => h grant hmem
  rw [hid, hexpires]
  exact fun hgrant => (h grant hmem hgrant).imp_left (hrevoked grant)

theorem Issued.keeps {id : JsString} {grants : List GrantRow} (h : Issued s id)
    (hkeys : (grants.map GrantRow.id).Nodup) (hkeeps : Keeps s.grants grants) :
    Issued { s with grants := grants } id := by
  obtain ⟨-, grant, hmem, hid⟩ := h
  obtain ⟨grant', hmem', hterms⟩ := hkeeps grant hmem
  exact ⟨hkeys, grant', hmem', (id_of_terms hterms).trans hid⟩

/-- A call that is past its consuming statement was so before. -/
def NoneNew (s s' : St) (id : JsString) : Prop :=
  ∀ (k : Nat) (t' : Task), s'.tasks[k]? = some t' → t'.holds id = true →
    ∃ t : Task, s.tasks[k]? = some t ∧ t.holds id = true

theorem NoneNew.trans {s₀ : St} {id : JsString} (h : NoneNew s₀ s id) (h' : NoneNew s s' id) :
    NoneNew s₀ s' id := fun k t' hk hholds => by
  obtain ⟨t, hk', hholds'⟩ := h' k t' hk hholds
  exact h k t hk' hholds'

theorem noneNew_of_tasks {id : JsString} (h : s'.tasks = s.tasks) : NoneNew s s' id :=
  fun _ t' hk hholds => ⟨t', h ▸ hk, hholds⟩

theorem noneNew_call {t : Task} {id : JsString} (hfresh : t.holds id = false) :
    NoneNew s { s with tasks := s.tasks ++ [t] } id := by
  intro k t' hk hholds
  rcases Nat.lt_or_ge k s.tasks.length with hlt | hge
  · rw [List.getElem?_append_left hlt] at hk
    exact ⟨t', hk, hholds⟩
  · rw [List.getElem?_append_right hge] at hk
    obtain rfl := List.mem_singleton.mp (List.mem_of_getElem? hk)
    rw [hfresh] at hholds
    cases hholds

theorem noneNew_resume {k : Nat} {t : Task} {grants : List GrantRow} {pc : Pc} {id : JsString}
    (hk : s.tasks[k]? = some t)
    (hheld : ({ t with pc := pc } : Task).holds id = true → t.holds id = true) :
    NoneNew s { s with grants := grants, tasks := s.tasks.set k { t with pc := pc } } id := by
  intro j t' hj hholds
  rw [List.getElem?_set] at hj
  split at hj
  · next heq =>
      subst heq
      split at hj
      · cases hj
        exact ⟨t, hk, hheld hholds⟩
      · cases hj
  · exact ⟨t', hj, hholds⟩

/-- Once a grant is over it stays so, and no call gets past the consuming statement. -/
theorem over_step {a : Act} {id : JsString} (hissued : Issued s id) (hover : Over s id)
    (hstep : step p policies s a = some s') :
    Issued s' id ∧ Over s' id ∧ NoneNew s s' id := by
  cases a with
  | tick ms =>
      cases hstep
      refine ⟨hissued, fun grant hmem hid => ?_, noneNew_of_tasks rfl⟩
      exact (hover grant hmem hid).imp_right fun hle => hle.trans (Nat.le_add_right _ _)
  | write table rowId row =>
      cases hstep
      exact ⟨hissued, hover, noneNew_of_tasks rfl⟩
  | grant opts outcome grantId =>
      rw [step] at hstep
      split at hstep
      · cases hstep
        exact ⟨hissued, hover, noneNew_of_tasks rfl⟩
      · next grant hgrant =>
          obtain ⟨hid, -⟩ := grantRow_fresh hgrant
          split at hstep
          · cases hstep
            exact ⟨hissued, hover, noneNew_of_tasks rfl⟩
          · next hnew =>
              cases hstep
              have hne : ∀ grant' ∈ s.grants, grant'.id ≠ grantId := fun _ hmem =>
                findGrant_none (eq_false_of_ne_true hnew) hmem
              obtain ⟨hkeys, old, hold, hold'⟩ := hissued
              refine ⟨⟨?_, old, List.mem_append_left _ hold, hold'⟩, ?_, noneNew_of_tasks rfl⟩
              · rw [List.map_append, List.nodup_append]
                refine ⟨hkeys, List.nodup_singleton _, ?_⟩
                rintro i hi i' hi' rfl
                obtain ⟨grant', hmem, rfl⟩ := List.mem_map.mp hi
                refine hne grant' hmem ?_
                rw [← hid]
                simpa using hi'
              · intro g hg hgid
                rcases List.mem_append.mp hg with hg | hg
                · exact hover g hg hgid
                · obtain rfl := List.mem_singleton.mp hg
                  exact absurd (hold'.trans (hgid.symm.trans hid)) (hne old hold)
  | call grantId table rowId req =>
      cases hstep
      obtain ⟨hfresh, -⟩ := @startPc_fresh p policies table rowId grantId req
      exact ⟨hissued, hover, noneNew_call (hfresh id)⟩
  | resume k =>
      rw [step] at hstep
      split at hstep
      · cases hstep
      · next t hk =>
          obtain ⟨⟨grants, pc⟩, hresume, rfl⟩ := Option.map_eq_some_iff.mp hstep
          have hheld := fun pc : Pc => @noneNew_resume s k t s.grants pc id hk
          cases resume_cases hresume with
          | thrown e => exact ⟨hissued, hover, hheld _ fun h => absurd (holds_iff.mp h).2 nofun⟩
          | read _ _ _ _ => exact ⟨hissued, hover, hheld _ fun h => absurd (holds_iff.mp h).2 nofun⟩
          | pinned _ _ _ => exact ⟨hissued, hover, hheld _ fun h => absurd (holds_iff.mp h).2 nofun⟩
          | consumed hpc hmem hmay =>
              refine ⟨hissued.keeps (Table.nodup_update hissued.1 fun _ => rfl)
                (keeps_update terms_consume), hover.update (fun _ => rfl) (fun _ h => h)
                fun _ => rfl, noneNew_resume hk fun h => ?_⟩
              -- the statement would have to touch the row of a grant that is over
              have hid : t.grantId = id := (holds_iff.mp h).1
              rw [hid, hover.refuses hmem] at hmay
              cases hmay
          | opened hpc _ =>
              refine ⟨hissued, hover, hheld _ fun h => holds_iff.mpr ⟨(holds_iff.mp h).1, ?_⟩⟩
              rw [Task.consumed, hpc]
  | revoke grantId =>
      cases hstep
      exact ⟨hissued.keeps (Table.nodup_update hissued.1 fun _ => rfl) (keeps_update fun _ => rfl),
        hover.update (fun _ => rfl) (fun _ _ => nofun) fun _ => rfl, noneNew_of_tasks rfl⟩

theorem over_run {id : JsString} (hissued : Issued s id) (hover : Over s id)
    (h : Reach (step p policies) Always s s') : NoneNew s s' id :=
  (h.invariant (I := fun s' => Issued s' id ∧ Over s' id ∧ NoneNew s s' id)
    ⟨hissued, hover, noneNew_of_tasks rfl⟩ fun _ _ _ hinv _ hstep =>
      have ⟨hissued', hover', hnone⟩ := over_step hinv.1 hinv.2.1 hstep
      ⟨hissued', hover', hinv.2.2.trans hnone⟩).2.2

/-! ## What a grant yields -/

def Task.isReturned (t : Task) : Bool :=
  match t.pc with
  | .returned _ _ => true
  | _ => false

theorem consumed_of_isReturned {t : Task} (h : t.isReturned = true) : t.consumed = true := by
  unfold Task.isReturned at h
  split at h
  · next hpc => rw [Task.consumed, hpc]
  · cases h

/-- The cell is in the clear. -/
def Cell.isClear : Cell → Bool
  | .clear _ => true
  | _ => false

/-- An envelope is opened to its text. -/
def Cell.opened : Cell → Cell
  | .sealed envelope => .clear envelope
  | cell => cell

def openPlatform : Platform where
  sameAddress a b := a = some b
  permits a b := a = b
  isoText := natText
  unsealRow _ row _ := .ok fun column => (row column).opened
  decryptCell cell _ _ _ := .ok cell.opened
  unsealRow_null h hnull := by
    cases h
    exact congrArg Cell.opened hnull

def patientPolicy : Policy where
  columns := [units "ssn", units "dob"]
  reasonRequired := false
  reasonMinLength := 12
  requireScope := none
  factors := [units "totp"]
  grantTtl := 900000
  maxRowsPerGrant := 1
  pinIp := false
  sessionPin := false
  cryptographic := false

def clinicPolicies (table : JsString) : Option Policy :=
  if table = units "patients" then some patientPolicy else none

def doctor : Request := ⟨some (units "user:1"), [], none, none⟩

def patientRow : Row := fun column =>
  if column = units "name" then .clear column else .sealed column

def clinicRows (row : Row) (_ _ : JsString) : Option Row := some row

/-- A row with nothing in `dob`. -/
def undatedRow : Row := Function.update patientRow (units "dob") .null

def ssnGrant : GrantRow where
  id := units "bg-1"
  issuedToActorId := units "user:1"
  factorType := units "totp"
  reason := []
  scopeTable := units "patients"
  scopeColumns := [units "ssn"]
  issuedAt := 0
  expiresAt := 900000
  maxRowsPerGrant := 1
  rowsConsumed := 0
  revokedAt := none
  sessionId := none
  ip := none

def ssnLookup : List Act :=
  [.grant ⟨doctor, units "patients", [units "ssn"], [], some (units "totp")⟩ ⟨none, true⟩
      (units "bg-1"),
    .call (units "bg-1") (units "patients") (units "7") doctor,
    .resume 0, .resume 0, .resume 0, .resume 0]

def afterCall (row : Row) (grant : GrantRow) (pc : Pc) : St :=
  ⟨0, [grant], clinicRows row,
    [⟨units "bg-1", units "patients", units "7", doctor, pc⟩]⟩

/-- The row as the lookup returns it. -/
def openedRow (row : Row) : Row := fun column => (row column).opened

theorem exec_ssnLookup :
    exec (step openPlatform clinicPolicies) (St.init 0 (clinicRows patientRow)) ssnLookup =
      some (afterCall patientRow (consume ssnGrant)
        (.returned ssnGrant (openedRow patientRow))) := by
  rfl

theorem exec_undated :
    exec (step openPlatform clinicPolicies) (St.init 0 (clinicRows undatedRow)) ssnLookup =
      some (afterCall undatedRow (consume ssnGrant)
        (.returned ssnGrant (openedRow undatedRow))) := by
  rfl

end Blamejs.BreakGlass
