import Blamejs.Ref.ClusterLease

/-!
# One leader, and tokens that only grow

What a node believes is a copy of the row, with an expiry that was read off the
shared clock when the statement was sent. The row may be taken over once its
expiry is past, so one leader is safe as long as no copy outlives the row:
`Counted` says that an unexpired copy is of the lease that stands in the row and
does not count on more time than the row gives it. An acquire statement was sent
no later than it is applied, so it finds every copy expired.

Two statements set the row's expiry back. A release frees the row while the node
still holds its copy, until the answer comes, and longer when a renewed copy is
on its way; and a renewal that comes late, after its answer was given up on,
undoes the renewal that came after it. `Orderly` says that the second does not
happen to an unexpired copy and that no one takes over a released row while there
is one. The tokens need none of this: they count the acquisitions.
-/

namespace Blamejs.ClusterLease

open Blamejs.Js Run

variable {mysql : Bool} {s s' : St}

/-! ## Copies -/

def Op.statement : Op → Option Statement
  | .idle => none
  | .waiting st | .reading st | .answered st _ => some st

/-- The lease an answer on its way will hand over. -/
def Op.lease : Op → Option Lease
  | .answered st row => st.lease row
  | _ => none

/-- The copies of the row a node holds, or is about to. -/
def Node.copies (n : Node) : List Lease := n.lease.toList ++ n.beat.lease.toList

/-- The lease ids of a node. -/
def Node.ids (n : Node) : List JsString :=
  (n.lease.map Lease.leaseId).toList ++ (n.beat.statement.map Statement.leaseId).toList

/-- No one acquires a released row of which some node still has an unexpired
copy, and no renewal sets the expiry below that of an unexpired copy. -/
def InOrder (s : St) : Statement → Prop
  | .acquire .. => ∀ r, s.row = some r → r.expiresAt = 0 →
      ∀ i, ∀ l ∈ (s.nodes i).copies, l.leaseId = r.leaseId → l.expiresAt ≤ s.clock
  | .renew _ leaseId _ newExpiresAt _ => ∀ i, ∀ l ∈ (s.nodes i).copies, l.leaseId = leaseId →
      l.expiresAt ≤ s.clock ∨ l.expiresAt ≤ newExpiresAt
  | .release .. => True

def Orderly (s : St) (a : Action) : Prop := ∀ st, s.takesEffect a = some st → InOrder s st

theorem lease_own {st : Statement} {row : Option Lease} {l : Lease} (h : st.lease row = some l) :
    row = some l ∧ l.leaseId = st.leaseId := by
  obtain ⟨hrow, hown⟩ := Option.filter_eq_some_iff.mp h
  exact ⟨hrow, (of_decide_eq_true hown).2⟩

theorem Node.mem_copies {n : Node} {l : Lease} :
    l ∈ n.copies ↔ n.lease = some l ∨ n.beat.lease = some l := by
  rw [Node.copies, List.mem_append, Option.mem_toList, Option.mem_toList]

theorem Node.mem_ids {n : Node} {x : JsString} : x ∈ n.ids ↔
    (∃ l, n.lease = some l ∧ l.leaseId = x) ∨
      ∃ st, n.beat.statement = some st ∧ st.leaseId = x := by
  rw [Node.ids, List.mem_append, Option.mem_toList, Option.mem_toList, Option.map_eq_some_iff,
    Option.map_eq_some_iff]

/-- A copy on its way has the id of the statement that fetched it. -/
theorem Node.copy_id {n : Node} {l : Lease} (h : l ∈ n.copies) : l.leaseId ∈ n.ids := by
  rw [Node.mem_ids]
  rcases Node.mem_copies.mp h with hheld | hcoming
  · exact .inl ⟨l, hheld, rfl⟩
  · cases hbeat : n.beat with
    | answered st row =>
        rw [hbeat] at hcoming
        exact .inr ⟨st, rfl, (lease_own hcoming).2.symm⟩
    | _ =>
        rw [hbeat] at hcoming
        cases hcoming

/-! ## What a statement writes -/

theorem written_renew {nodeId leaseId : JsString} {newAcquiredAt newExpiresAt : Int}
    {endpoint : Option JsString} {row : Option Lease} {r' : Lease}
    (h : (Statement.renew nodeId leaseId newAcquiredAt newExpiresAt endpoint).written row =
      some r') :
    ∃ r, row = some r ∧ r.leaseId = leaseId ∧ r'.leaseId = r.leaseId ∧
      r'.fencingToken = r.fencingToken ∧ r'.expiresAt = newExpiresAt := by
  obtain ⟨r, hfilter, rfl⟩ := Option.map_eq_some_iff.mp h
  obtain ⟨hrow, hown⟩ := Option.filter_eq_some_iff.mp hfilter
  exact ⟨r, hrow, (of_decide_eq_true hown).2, rfl, rfl, rfl⟩

theorem written_release {nodeId leaseId : JsString} {row : Option Lease} {r' : Lease}
    (h : (Statement.release nodeId leaseId).written row = some r') :
    ∃ r, row = some r ∧ r'.leaseId = r.leaseId ∧ r'.fencingToken = r.fencingToken ∧
      r'.expiresAt = 0 := by
  obtain ⟨r, hfilter, rfl⟩ := Option.map_eq_some_iff.mp h
  exact ⟨r, (Option.filter_eq_some_iff.mp hfilter).1, rfl, rfl, rfl⟩

theorem written_acquire {nodeId leaseId : JsString} {nowMs expiresAt : Int}
    {endpoint : Option JsString} {row : Option Lease} {r' : Lease}
    (h : (Statement.acquire nodeId leaseId nowMs expiresAt endpoint).written row = some r') :
    r'.leaseId = leaseId ∧ r'.fencingToken = (row.map Lease.fencingToken).getD 0 + 1 ∧
      ∀ r, row = some r → r.expiresAt < nowMs := by
  cases row with
  | none =>
      injection h with h
      subst h
      exact ⟨rfl, rfl, fun _ hr => (Option.some_ne_none _ hr.symm).elim⟩
  | some r =>
      rw [Statement.written] at h
      split at h
      · next hlt =>
          injection h with h
          subst h
          refine ⟨rfl, rfl, fun r₀ hr₀ => ?_⟩
          injection hr₀ with hr₀
          exact hr₀ ▸ hlt
      · cases h

theorem run_written {st : Statement} {row : Option Lease} {r : Lease}
    (h : st.written row = some r) : st.run row = some r := by
  rw [Statement.run, h]
  rfl

theorem run_unwritten {st : Statement} {row : Option Lease} (h : st.written row = none) :
    st.run row = row := by
  rw [Statement.run, h]
  rfl

/-! ## What a step can do -/

/-- Computed no later than now, which matters for what it compares with. -/
def Statement.SentBy (now : Int) : Statement → Prop
  | .acquire _ _ nowMs _ _ => nowMs ≤ now
  | _ => True

def Node.waits (n : Node) : List Statement := n.beat.waits ++ n.exit.waits

/-- The lease id a heartbeat is acquiring under. -/
def Op.acquiring (op : Op) : Option JsString :=
  op.statement.bind fun st =>
    match st with
    | .acquire _ leaseId _ _ _ => some leaseId
    | _ => none

/-- A node that has dropped something, or sent nothing that acquires. -/
structure Quieter (now : Int) (n n' : Node) : Prop where
  copies : n'.copies ⊆ n.copies
  ids : n'.ids ⊆ n.ids
  acquiring : ∀ x, n'.beat.acquiring = some x → n.beat.acquiring = some x
  waits : ∀ st ∈ n'.waits, st ∈ n.waits ∨ st.SentBy now

inductive Effect (s : St) : Action → St → Prop
  | tick {ms : Nat} : Effect s (.tick ms) { s with clock := s.clock + ms }
  | quiet {a : Action} (i : Nat) (n : Node) (strays : List Statement)
      (hquiet : Quieter s.clock (s.nodes i) n)
      (hstrays : ∀ st ∈ strays, st ∈ s.strays ∨ st ∈ (s.nodes i).waits)
      (hnone : s.takesEffect a = none) : Effect s a (St.set { s with strays := strays } i n)
  | request {a : Action} (i : Nat) (n : Node) (leaseId : JsString) (hfresh : leaseId ∉ s.seen)
      (hlease : n.lease = (s.nodes i).lease) (hexit : n.exit = (s.nodes i).exit)
      (hnone : s.takesEffect a = none) :
      Effect s a (St.set { s with seen := leaseId :: s.seen } i
        { n with beat := .waiting (n.acquireLease leaseId s.clock) })
  | fetch {a : Action} (i : Nat) (st : Statement) (hbeat : (s.nodes i).beat = .reading st)
      (hnone : s.takesEffect a = none) :
      Effect s a (s.set i { s.nodes i with beat := .answered st s.row })
  | receive {a : Action} (i : Nat) (leaseId : JsString) (row : Option Lease) (got : Lease)
      (hbeat : (s.nodes i).beat.acquiring = some leaseId) (hgot : (s.nodes i).beat.lease = some got)
      (hid : got.leaseId = leaseId) (hnone : s.takesEffect a = none) :
      Effect s a (St.set { s with returned := s.returned ++ [got] } i
        { s.nodes i with lease := some got, beat := .idle })
  | apply {a : Action} (i : Nat) (n : Node) (st : Statement) (strays : List Statement)
      (htakes : s.takesEffect a = some st) (hwaits : st ∈ s.strays ∨ st ∈ (s.nodes i).waits)
      (hstrays : strays ⊆ s.strays)
      (hcopies : ∀ l ∈ n.copies, l ∈ (s.nodes i).copies ∨ st.written s.row = some l)
      (hids : n.ids ⊆ (s.nodes i).ids)
      (hacquiring : ∀ x, n.beat.acquiring = some x → (s.nodes i).beat.acquiring = some x)
      (hwaits' : n.waits ⊆ (s.nodes i).waits) :
      Effect s a (St.set { s.apply st with strays := strays } i n)

theorem set_self (s : St) (i : Nat) : s.set i (s.nodes i) = s := by
  rw [St.set, Function.update_eq_self]

theorem mem_of_append_nil {R : Type} {x : R} {l : List R} (h : x ∈ l ++ []) : x ∈ l :=
  (List.mem_append.mp h).resolve_right List.not_mem_nil

theorem quieter_idle (now : Int) (n : Node) : Quieter now n { n with beat := .idle } where
  copies := fun _ hl => List.mem_append_left _ (mem_of_append_nil hl)
  ids := fun _ hx => List.mem_append_left _ (mem_of_append_nil hx)
  acquiring := fun _ hx => (Option.some_ne_none _ hx.symm).elim
  waits := fun _ hst => .inl (List.mem_append_right _ hst)

theorem quieter_shut (now : Int) (n : Node) : Quieter now n n.shut where
  copies := fun _ hl => List.mem_append_right _ hl
  ids := fun _ hx => List.mem_append_right _ hx
  acquiring := fun _ hx => hx
  waits := fun _ hst => .inl (List.mem_append_left _ (mem_of_append_nil hst))

theorem quieter_start (now : Int) (n : Node) : Quieter now n .start where
  copies := List.nil_subset _
  ids := List.nil_subset _
  acquiring := fun _ hx => (Option.some_ne_none _ hx.symm).elim
  waits := fun _ hst => (List.not_mem_nil hst).elim

theorem answered_acquiring {n : Node} {nodeId leaseId : JsString} {nowMs expiresAt : Int}
    {endpoint row} (h : n.beat = .answered (.acquire nodeId leaseId nowMs expiresAt endpoint) row) :
    n.beat.acquiring = some leaseId := by
  rw [h]
  rfl

/-- The lease a renewal hands over, or its loss. -/
theorem quieter_renewed (now : Int) {n : Node} {st : Statement} {row : Option Lease}
    (h : n.beat = .answered st row) :
    Quieter now n { n with lease := st.lease row, beat := .idle } where
  copies := fun l hl => by
    refine Node.mem_copies.mpr (.inr ?_)
    rw [h]
    exact Option.mem_toList.mp (mem_of_append_nil hl)
  ids := fun x hx => by
    obtain ⟨l, hl, rfl⟩ := Option.map_eq_some_iff.mp (Option.mem_toList.mp (mem_of_append_nil hx))
    refine Node.mem_ids.mpr (.inr ⟨st, ?_, (lease_own hl).2.symm⟩)
    rw [h]
    rfl
  acquiring := fun _ hx => (Option.some_ne_none _ hx.symm).elim
  waits := fun _ hst => .inl (List.mem_append_right _ hst)

theorem quieter_renews (now : Int) {n : Node} {lease : Lease} (h : n.lease = some lease) :
    Quieter now n { n with beat := .waiting (n.renewLease lease now) } where
  copies := fun _ hl => List.mem_append_left _ (mem_of_append_nil hl)
  ids := fun x hx => by
    rcases Node.mem_ids.mp hx with ⟨l, hl, rfl⟩ | ⟨st, hst, rfl⟩
    · exact Node.mem_ids.mpr (.inl ⟨l, hl, rfl⟩)
    · injection hst with hst
      subst hst
      exact Node.mem_ids.mpr (.inl ⟨lease, h, rfl⟩)
  acquiring := fun _ hx => (Option.some_ne_none _ hx.symm).elim
  waits := fun st hst => by
    rcases List.mem_append.mp hst with hbeat | hexit
    · rw [List.mem_singleton.mp hbeat]
      exact .inr trivial
    · exact .inl (List.mem_append_right _ hexit)

theorem quieter_releases (now : Int) {n : Node} (lease : Lease) :
    Quieter now n { n with exit := .waiting (.release lease.nodeId lease.leaseId) } where
  copies := fun _ hl => hl
  ids := fun _ hx => hx
  acquiring := fun _ hx => hx
  waits := fun st hst => by
    rcases List.mem_append.mp hst with hbeat | hexit
    · exact .inl (List.mem_append_left _ hbeat)
    · rw [List.mem_singleton.mp hexit]
      exact .inr trivial

theorem applied_cases (mysql : Bool) (st : Statement) (row : Option Lease) :
    Op.applied mysql st row = .reading st ∨ Op.applied mysql st row = .answered st row := by
  cases st with
  | acquire nodeId leaseId nowMs expiresAt endpoint =>
      cases mysql with
      | false => exact .inr rfl
      | true => exact .inl rfl
  | renew nodeId leaseId newAcquiredAt newExpiresAt endpoint =>
      simp only [Op.applied]
      exact ite_eq_or_eq _ _ _
  | release nodeId leaseId =>
      simp only [Op.applied]
      exact ite_eq_or_eq _ _ _

theorem applied_statement (mysql : Bool) (st : Statement) (row : Option Lease) :
    (Op.applied mysql st row).statement = some st := by
  rcases applied_cases mysql st row with h | h
  · rw [h]
    rfl
  · rw [h]
    rfl

theorem applied_lease {st : Statement} {row : Option Lease} {l : Lease}
    (h : (Op.applied mysql st row).lease = some l) : row = some l := by
  rcases applied_cases mysql st row with heq | heq
  · rw [heq] at h
    cases h
  · rw [heq] at h
    exact (lease_own h).1

theorem applied_waits (mysql : Bool) (st : Statement) (row : Option Lease) :
    (Op.applied mysql st row).waits = [] := by
  rcases applied_cases mysql st row with h | h
  · rw [h]
    rfl
  · rw [h]
    rfl

theorem step_effect {a : Action} (h : step mysql s a = some s') : Effect s a s' := by
  cases a with
  | tick ms =>
      injection h with h
      exact h ▸ .tick
  | init i nodeId leader leaseTtlMs endpoint leaseId =>
      rw [step] at h
      dsimp only at h
      split at h
      · cases h
      · next hopen =>
          rw [not_or, not_or] at hopen
          have hidle : (s.nodes i).beat = .idle := not_not.mp hopen.2.1
          split at h
          · split at h
            · cases h
            · next hfresh =>
                injection h with h
                exact h ▸ .request i ⟨true, leader, nodeId, leaseTtlMs, endpoint, (s.nodes i).lease,
                  .idle, (s.nodes i).exit⟩ leaseId hfresh rfl rfl rfl
          · injection h with h
            refine h ▸ .quiet i _ s.strays ⟨?_, ?_, ?_, ?_⟩ (fun _ => .inl) rfl
            · exact fun _ hl => List.mem_append_left _ (mem_of_append_nil hl)
            · exact fun _ hx => List.mem_append_left _ (mem_of_append_nil hx)
            · exact fun _ hx => (Option.some_ne_none _ hx.symm).elim
            · exact fun _ hst => .inl (List.mem_append_right _ hst)
  | heartbeat i leaseId =>
      rw [step] at h
      split at h
      · split at h
        · next lease hlease =>
            injection h with h
            exact h ▸ .quiet i _ s.strays (quieter_renews _ hlease) (fun _ => .inl) rfl
        · split at h
          · split at h
            · cases h
            · next hfresh =>
                injection h with h
                exact h ▸ .request i (s.nodes i) leaseId hfresh rfl rfl rfl
          · injection h with h
            subst h
            have hsame : Effect s (.heartbeat i leaseId) (s.set i (s.nodes i)) :=
              .quiet i (s.nodes i) s.strays ⟨List.Subset.refl _, List.Subset.refl _, fun _ => id,
                fun _ => .inl⟩ (fun _ => .inl) rfl
            rwa [set_self] at hsame
      · cases h
  | apply i =>
      rw [step] at h
      split at h
      · next st hbeat =>
          injection h with h
          have hwait : (s.nodes i).beat.waits = [st] := by
            rw [hbeat]
            rfl
          have hstatement : (s.nodes i).beat.statement = some st := by
            rw [hbeat]
            rfl
          refine h ▸ .apply i _ st s.strays ?_ (.inr ?_) (List.Subset.refl _) (fun l hl => ?_)
            (fun x hx => ?_) (fun x hx => ?_) fun u hu => ?_
          · rw [St.takesEffect, hwait]
            rfl
          · exact List.mem_append_left _ (hwait ▸ List.mem_cons_self)
          · rcases Node.mem_copies.mp hl with hheld | hcoming
            · exact .inl (Node.mem_copies.mpr (.inl hheld))
            · exact .inr (applied_lease hcoming)
          · rw [Node.mem_ids] at hx ⊢
            rwa [hstatement, ← applied_statement mysql st (st.written s.row)]
          · rw [Op.acquiring, hstatement, ← applied_statement mysql st (st.written s.row)]
            exact hx
          · rcases List.mem_append.mp hu with hbeat' | hexit
            · rw [applied_waits] at hbeat'
              exact (List.not_mem_nil hbeat').elim
            · exact List.mem_append_right _ hexit
      · cases h
  | readBack i =>
      rw [step] at h
      split at h
      · next st hbeat =>
          injection h with h
          exact h ▸ .fetch i st hbeat rfl
      · cases h
  | answer i =>
      rw [step] at h
      split at h
      · next st row hbeat =>
          cases st with
          | acquire nodeId leaseId nowMs expiresAt endpoint =>
              dsimp only at h
              split at h
              · next got hgot =>
                  injection h with h
                  refine h ▸ .receive i leaseId row got (answered_acquiring hbeat) ?_
                    (lease_own hgot).2 rfl
                  rw [hbeat]
                  exact hgot
              · injection h with h
                exact h ▸ .quiet i _ s.strays (quieter_idle _ _) (fun _ => .inl) rfl
          | renew nodeId leaseId newAcquiredAt newExpiresAt endpoint =>
              injection h with h
              exact h ▸ .quiet i _ s.strays (quieter_renewed _ hbeat) (fun _ => .inl) rfl
          | release nodeId leaseId =>
              injection h with h
              exact h ▸ .quiet i _ s.strays (quieter_renewed _ hbeat) (fun _ => .inl) rfl
      · cases h
  | lose i =>
      rw [step] at h
      split at h
      · cases h
      · injection h with h
        refine h ▸ .quiet i _ _ (quieter_idle _ _) (fun st hst => ?_) rfl
        exact (List.mem_append.mp hst).imp_right (List.mem_append_left _)
  | shutdown i =>
      rw [step] at h
      split at h
      · split at h
        · next lease hlease =>
            injection h with h
            exact h ▸ .quiet i _ s.strays (quieter_releases _ lease) (fun _ => .inl) rfl
        · injection h with h
          exact h ▸ .quiet i _ s.strays (quieter_shut _ _) (fun _ => .inl) rfl
      · cases h
  | applyRelease i =>
      rw [step] at h
      split at h
      · next st hexit =>
          injection h with h
          have hwait : (s.nodes i).exit.waits = [st] := by
            rw [hexit]
            rfl
          refine h ▸ .apply i _ st s.strays ?_ (.inr ?_) (List.Subset.refl _) (fun _ => .inl)
            (List.Subset.refl _) (fun _ => id) fun u hu => ?_
          · rw [St.takesEffect, hwait]
            rfl
          · exact List.mem_append_right _ (hwait ▸ List.mem_cons_self)
          · exact List.mem_append_left _ (mem_of_append_nil hu)
      · cases h
  | answerRelease i =>
      rw [step] at h
      split at h
      · injection h with h
        exact h ▸ .quiet i _ s.strays (quieter_shut _ _) (fun _ => .inl) rfl
      · cases h
  | loseRelease i =>
      rw [step] at h
      split at h
      · cases h
      · injection h with h
        refine h ▸ .quiet i _ _ (quieter_shut _ _) (fun st hst => ?_) rfl
        exact (List.mem_append.mp hst).imp_right (List.mem_append_right _)
  | applyStray k =>
      rw [step] at h
      split at h
      · next st hst =>
          injection h with h
          have hself : Effect s (.applyStray k)
              (St.set { s.apply st with strays := s.strays.eraseIdx k } 0 (s.nodes 0)) :=
            .apply 0 (s.nodes 0) st (s.strays.eraseIdx k) hst (.inl (List.mem_of_getElem? hst))
              List.eraseIdx_subset (fun _ => .inl) (List.Subset.refl _) (fun _ => id)
              (List.Subset.refl _)
          have hsame := set_self { s.apply st with strays := s.strays.eraseIdx k } 0
          exact h ▸ hsame ▸ hself
      · cases h
  | crash i =>
      injection h with h
      refine h ▸ .quiet i _ _ (quieter_start _ _) (fun st hst => ?_) rfl
      rw [List.append_assoc] at hst
      exact List.mem_append.mp hst

/-! ## Lease ids -/

/-- What holds of every node, the one that moved and the others. -/
theorem forall_set {P : Nat → Node → Prop} {i : Nat} {n : Node} (hi : P i n)
    (h : ∀ j, P j (s.nodes j)) : ∀ j, P j ((s.set i n).nodes j) :=
  (Function.forall_update_iff s.nodes P).mpr ⟨hi, fun j _ => h j⟩

theorem acquiring_statement {op : Op} {x : JsString} (h : op.acquiring = some x) :
    ∃ st, op.statement = some st ∧ st.leaseId = x := by
  obtain ⟨st, hst, hx⟩ := Option.bind_eq_some_iff.mp h
  refine ⟨st, hst, ?_⟩
  cases st with
  | acquire nodeId leaseId nowMs expiresAt endpoint =>
      injection hx
  | _ => cases hx

/-- A lease id is one process's. -/
structure Apart (s : St) : Prop where
  known : ∀ i, ∀ x ∈ (s.nodes i).ids, x ∈ s.seen
  own : ∀ i j x, x ∈ (s.nodes i).ids → x ∈ (s.nodes j).ids → i = j

theorem Apart.shrink (h : Apart s) (hseen : s.seen ⊆ s'.seen)
    (hids : ∀ j, (s'.nodes j).ids ⊆ (s.nodes j).ids) : Apart s' :=
  ⟨fun i _ hx => hseen (h.known i _ (hids i hx)), fun i j x hx hx' =>
    h.own i j x (hids i hx) (hids j hx')⟩

theorem Apart.set {t : St} {i : Nat} {n : Node} (h : Apart s) (hnodes : t.nodes = s.nodes)
    (hseen : t.seen = s.seen) (hids : n.ids ⊆ (s.nodes i).ids) : Apart (t.set i n) := by
  have hsub : s.seen ⊆ (t.set i n).seen := by
    show s.seen ⊆ t.seen
    rw [hseen]
    exact List.Subset.refl _
  refine h.shrink hsub ?_
  exact forall_set (P := fun j n => n.ids ⊆ (s.nodes j).ids) hids fun j =>
    hnodes ▸ List.Subset.refl _

theorem Apart.request {i : Nat} {n : Node} {leaseId : JsString} (h : Apart s)
    (hfresh : leaseId ∉ s.seen) (hlease : n.lease = (s.nodes i).lease) :
    Apart (St.set { s with seen := leaseId :: s.seen } i
      { n with beat := .waiting (n.acquireLease leaseId s.clock) }) := by
  generalize ht : St.set { s with seen := leaseId :: s.seen } i
    { n with beat := .waiting (n.acquireLease leaseId s.clock) } = t
  have hids : ∀ j, ∀ x ∈ (t.nodes j).ids, (x = leaseId ∧ j = i) ∨ x ∈ (s.nodes j).ids := by
    rw [← ht]
    refine forall_set (P := fun j n => ∀ x ∈ n.ids, (x = leaseId ∧ j = i) ∨ x ∈ (s.nodes j).ids)
      (fun x hx => ?_) fun _ _ hx => .inr hx
    rcases Node.mem_ids.mp hx with ⟨l, hl, rfl⟩ | ⟨st, hst, rfl⟩
    · exact .inr (Node.mem_ids.mpr (.inl ⟨l, hlease ▸ hl, rfl⟩))
    · injection hst with hst
      subst hst
      exact .inl ⟨rfl, rfl⟩
  have hseen : t.seen = leaseId :: s.seen := by
    rw [← ht]
    rfl
  refine ⟨fun j x hx => ?_, fun j k x hx hx' => ?_⟩
  · rw [hseen]
    rcases hids j x hx with ⟨rfl, -⟩ | hold
    · exact List.mem_cons_self
    · exact List.mem_cons_of_mem _ (h.known j x hold)
  · rcases hids j x hx with ⟨rfl, rfl⟩ | hold
    · rcases hids k x hx' with ⟨-, rfl⟩ | hold'
      · rfl
      · exact (hfresh (h.known k x hold')).elim
    · rcases hids k x hx' with ⟨rfl, rfl⟩ | hold'
      · exact (hfresh (h.known j x hold)).elim
      · exact h.own j k x hold hold'

theorem Effect.apart {a : Action} (he : Effect s a s') (h : Apart s) : Apart s' := by
  cases he with
  | tick => exact h.shrink (List.Subset.refl _) fun _ => List.Subset.refl _
  | quiet i n strays hquiet hstrays hnone => exact h.set rfl rfl hquiet.ids
  | request i n leaseId hfresh hlease hexit hnone => exact h.request hfresh hlease
  | fetch i st hbeat hnone =>
      refine h.set rfl rfl fun x hx => ?_
      rw [Node.mem_ids] at hx ⊢
      rw [hbeat]
      exact hx
  | receive i leaseId row got hbeat hgot hid hnone =>
      refine h.set rfl rfl fun x hx => ?_
      have hx : x = got.leaseId := List.mem_singleton.mp (mem_of_append_nil hx)
      rw [hx, hid]
      exact Node.mem_ids.mpr (.inr (acquiring_statement hbeat))
  | apply i n st strays htakes hwaits hstrays hcopies hids hacquiring hwaits' =>
      exact h.set rfl rfl hids

theorem init_apart (start : Int) : Apart (St.init start) :=
  ⟨fun _ _ hx => (List.not_mem_nil hx).elim, fun _ _ _ hx => (List.not_mem_nil hx).elim⟩

/-! ## Tokens -/

/-- What a statement that takes effect does: nothing, acquire, or set the expiry
of the lease that stands. -/
theorem apply_cases (s : St) (st : Statement) :
    (st.written s.row = none ∧ st.acquires s.row = false ∧ (s.apply st).row = s.row ∧
      (s.apply st).acquired = s.acquired) ∨
    ∃ r', st.written s.row = some r' ∧ (s.apply st).row = some r' ∧
      ((st.acquires s.row = true ∧ (s.apply st).acquired = s.acquired ++ [r'] ∧
          r'.fencingToken = s.token + 1) ∨
        (st.acquires s.row = false ∧ (s.apply st).acquired = s.acquired ∧
          ∃ r, s.row = some r ∧ r'.leaseId = r.leaseId ∧ r'.fencingToken = r.fencingToken)) := by
  cases hw : st.written s.row with
  | none =>
      refine .inl ⟨rfl, ?_, run_unwritten hw, ?_⟩
      · cases st with
        | acquire nodeId leaseId nowMs expiresAt endpoint =>
            rw [Statement.acquires, hw]
            rfl
        | _ => rfl
      · cases st with
        | acquire nodeId leaseId nowMs expiresAt endpoint =>
            rw [St.apply, hw]
            exact List.append_nil _
        | _ => exact List.append_nil _
  | some r' =>
      refine .inr ⟨r', rfl, run_written hw, ?_⟩
      cases st with
      | acquire nodeId leaseId nowMs expiresAt endpoint =>
          refine .inl ⟨?_, ?_, (written_acquire hw).2.1⟩
          · rw [Statement.acquires, hw]
            rfl
          · rw [St.apply, hw]
            rfl
      | renew nodeId leaseId newAcquiredAt newExpiresAt endpoint =>
          obtain ⟨r, hrow, -, hid, htoken, -⟩ := written_renew hw
          exact .inr ⟨rfl, List.append_nil _, r, hrow, hid, htoken⟩
      | release nodeId leaseId =>
          obtain ⟨r, hrow, hid, htoken, -⟩ := written_release hw
          exact .inr ⟨rfl, List.append_nil _, r, hrow, hid, htoken⟩

/-- Some acquisition gave this lease this token. -/
def Entry (acquired : List Lease) (l : Lease) : Prop :=
  ∃ a ∈ acquired, a.leaseId = l.leaseId ∧ a.fencingToken = l.fencingToken

theorem Entry.mono {acquired acquired' : List Lease} (hsub : acquired ⊆ acquired') {l : Lease}
    (h : Entry acquired l) : Entry acquired' l := by
  obtain ⟨a, ha, hrest⟩ := h
  exact ⟨a, hsub ha, hrest⟩

/-- The acquisitions have the tokens 1, 2, 3 and so on, the row has the last, and
every lease in sight comes from one of them. -/
structure Fenced (s : St) : Prop where
  tokens : s.acquired.map Lease.fencingToken = List.range' 1 s.acquired.length
  row : s.token = s.acquired.length
  standing : ∀ r, s.row = some r → Entry s.acquired r
  copies : ∀ i, ∀ l ∈ (s.nodes i).copies, Entry s.acquired l
  returned : ∀ l ∈ s.returned, Entry s.acquired l ∧ l.leaseId ∈ s.seen
  once : (s.returned.map Lease.leaseId).Nodup
  pending : ∀ i x, (s.nodes i).beat.acquiring = some x → x ∉ s.returned.map Lease.leaseId

theorem Fenced.quiet {t : St} {i : Nat} {n : Node} (h : Fenced s) (hrow : t.row = s.row)
    (hacquired : t.acquired = s.acquired) (hnodes : t.nodes = s.nodes) (hseen : s.seen ⊆ t.seen)
    (hreturned : t.returned = s.returned)
    (hcopies : ∀ l ∈ n.copies, l ∈ (s.nodes i).copies ∨ s.row = some l)
    (hpending : ∀ x, n.beat.acquiring = some x → x ∉ s.returned.map Lease.leaseId) :
    Fenced (t.set i n) where
  tokens := by
    show t.acquired.map Lease.fencingToken = List.range' 1 t.acquired.length
    rw [hacquired]
    exact h.tokens
  row := by
    show (t.row.map Lease.fencingToken).getD 0 = t.acquired.length
    rw [hrow, hacquired]
    exact h.row
  standing := by
    show ∀ r, t.row = some r → Entry t.acquired r
    rw [hrow, hacquired]
    exact h.standing
  copies := by
    refine forall_set (P := fun _ n => ∀ l ∈ n.copies, Entry t.acquired l) (fun l hl => ?_) ?_
    · rw [hacquired]
      rcases hcopies l hl with hold | hnew
      · exact h.copies i l hold
      · exact h.standing l hnew
    · rw [hnodes, hacquired]
      exact h.copies
  returned := by
    show ∀ l ∈ t.returned, Entry t.acquired l ∧ l.leaseId ∈ t.seen
    rw [hreturned, hacquired]
    exact fun l hl => (h.returned l hl).imp_right (@hseen l.leaseId)
  once := by
    show (t.returned.map Lease.leaseId).Nodup
    rw [hreturned]
    exact h.once
  pending := by
    refine forall_set (P := fun _ n => ∀ x, n.beat.acquiring = some x →
      x ∉ t.returned.map Lease.leaseId) ?_ ?_
    · rw [hreturned]
      exact hpending
    · rw [hreturned, hnodes]
      exact h.pending

theorem Fenced.receive {i : Nat} {leaseId : JsString} {got : Lease} (h : Fenced s) (ha : Apart s)
    (hbeat : (s.nodes i).beat.acquiring = some leaseId) (hgot : (s.nodes i).beat.lease = some got)
    (hid : got.leaseId = leaseId) :
    Fenced (St.set { s with returned := s.returned ++ [got] } i
      { s.nodes i with lease := some got, beat := .idle }) where
  tokens := h.tokens
  row := h.row
  standing := h.standing
  copies := by
    refine forall_set (P := fun _ n => ∀ l ∈ n.copies, Entry s.acquired l) (fun l hl => ?_) h.copies
    rw [List.mem_singleton.mp (mem_of_append_nil hl)]
    exact h.copies i got (Node.mem_copies.mpr (.inr hgot))
  returned := by
    intro l hl
    rcases List.mem_append.mp hl with hold | hnew
    · exact h.returned l hold
    · rw [List.mem_singleton.mp hnew]
      refine ⟨h.copies i got (Node.mem_copies.mpr (.inr hgot)), ?_⟩
      rw [hid]
      exact ha.known i _ (Node.mem_ids.mpr (.inr (acquiring_statement hbeat)))
  once := by
    show ((s.returned ++ [got]).map Lease.leaseId).Nodup
    rw [List.map_append, List.nodup_append]
    refine ⟨h.once, List.nodup_singleton _, fun x hx y hy heq => ?_⟩
    rw [List.mem_singleton.mp hy, hid] at heq
    exact h.pending i leaseId hbeat (heq ▸ hx)
  pending := by
    have hothers : ∀ j, j ≠ i → ∀ x, (s.nodes j).beat.acquiring = some x →
        x ∉ (s.returned ++ [got]).map Lease.leaseId := by
      intro j hj x hx hmem
      rw [List.map_append] at hmem
      rcases List.mem_append.mp hmem with hold | hnew
      · exact h.pending j x hx hold
      · have heq : x = leaseId := (List.mem_singleton.mp hnew).trans hid
        refine hj (ha.own j i x (Node.mem_ids.mpr (.inr (acquiring_statement hx))) ?_)
        rw [heq]
        exact Node.mem_ids.mpr (.inr (acquiring_statement hbeat))
    refine (Function.forall_update_iff s.nodes fun _ n => ∀ x, n.beat.acquiring = some x →
      x ∉ (s.returned ++ [got]).map Lease.leaseId).mpr ⟨fun x hx => ?_, hothers⟩
    exact (Option.some_ne_none _ hx.symm).elim

theorem Fenced.apply (h : Fenced s) (st : Statement) (strays : List Statement) :
    Fenced { s.apply st with strays := strays } := by
  rcases apply_cases s st with ⟨-, -, hrow, hacquired⟩ |
    ⟨r', -, hrow, ⟨-, hacquired, htoken⟩ | ⟨-, hacquired, r, hr, hid, htoken⟩⟩
  · refine ⟨hacquired ▸ h.tokens, ?_, ?_, hacquired ▸ h.copies, hacquired ▸ h.returned, h.once,
      h.pending⟩
    · show ((s.apply st).row.map Lease.fencingToken).getD 0 = (s.apply st).acquired.length
      rw [hrow, hacquired]
      exact h.row
    · show ∀ r, (s.apply st).row = some r → Entry (s.apply st).acquired r
      rw [hrow, hacquired]
      exact h.standing
  · have hsub : s.acquired ⊆ (s.apply st).acquired := hacquired ▸ List.subset_append_left _ _
    refine ⟨?_, ?_, fun r hr => ?_, fun i l hl => (h.copies i l hl).mono hsub,
      fun l hl => (h.returned l hl).imp_left (Entry.mono hsub), h.once, h.pending⟩
    · show (s.apply st).acquired.map Lease.fencingToken = List.range' 1 (s.apply st).acquired.length
      rw [hacquired, List.map_append, h.tokens, List.length_append, List.range'_append_1.symm]
      refine congrArg (_ ++ ·) ?_
      show [r'.fencingToken] = [1 + s.acquired.length]
      rw [htoken, h.row, Nat.add_comm]
    · show ((s.apply st).row.map Lease.fencingToken).getD 0 = (s.apply st).acquired.length
      rw [hrow, hacquired, List.length_append]
      show r'.fencingToken = s.acquired.length + 1
      rw [htoken, h.row]
    · have hr : (s.apply st).row = some r := hr
      rw [hrow] at hr
      injection hr with hr
      refine ⟨r', ?_, hr ▸ rfl, hr ▸ rfl⟩
      show r' ∈ (s.apply st).acquired
      rw [hacquired]
      exact List.mem_append_right _ List.mem_cons_self
  · refine ⟨hacquired ▸ h.tokens, ?_, fun q hq => ?_, hacquired ▸ h.copies, hacquired ▸ h.returned,
      h.once, h.pending⟩
    · show ((s.apply st).row.map Lease.fencingToken).getD 0 = (s.apply st).acquired.length
      rw [hrow, hacquired, ← h.row, St.token, hr]
      exact htoken
    · have hq : (s.apply st).row = some q := hq
      rw [hrow] at hq
      injection hq with hq
      subst hq
      obtain ⟨a, ha, haid, hatoken⟩ := h.standing r hr
      exact ⟨a, hacquired ▸ ha, haid.trans hid.symm, hatoken.trans htoken.symm⟩

theorem Effect.fenced {a : Action} (he : Effect s a s') (ha : Apart s) (h : Fenced s) :
    Fenced s' := by
  cases he with
  | tick => exact ⟨h.tokens, h.row, h.standing, h.copies, h.returned, h.once, h.pending⟩
  | quiet i n strays hquiet hstrays hnone =>
      exact h.quiet rfl rfl rfl (List.Subset.refl _) rfl (fun l hl => .inl (hquiet.copies hl))
        fun x hx => h.pending i x (hquiet.acquiring x hx)
  | request i n leaseId hfresh hlease hexit hnone =>
      refine h.quiet rfl rfl rfl (List.subset_cons_self _ _) rfl (fun l hl => .inl ?_)
        fun x hx hmem => ?_
      · exact Node.mem_copies.mpr (.inl (hlease ▸ Option.mem_toList.mp (mem_of_append_nil hl)))
      · injection hx with hx
        obtain ⟨l, hl, hid⟩ := List.mem_map.mp hmem
        exact hfresh ((hid.trans hx.symm) ▸ (h.returned l hl).2)
  | fetch i st hbeat hnone =>
      refine h.quiet rfl rfl rfl (List.Subset.refl _) rfl (fun l hl => ?_) fun x hx => ?_
      · rcases Node.mem_copies.mp hl with hheld | hcoming
        · exact .inl (Node.mem_copies.mpr (.inl hheld))
        · exact .inr (lease_own hcoming).1
      · refine h.pending i x ?_
        rw [hbeat]
        exact hx
  | receive i leaseId row got hbeat hgot hid hnone => exact h.receive ha hbeat hgot hid
  | apply i n st strays htakes hwaits hstrays hcopies hids hacquiring hwaits' =>
      refine (h.apply st strays).quiet rfl rfl rfl (List.Subset.refl _) rfl (fun l hl => ?_)
        fun x hx => h.pending i x (hacquiring x hx)
      exact (hcopies l hl).imp_right run_written

theorem init_fenced (start : Int) : Fenced (St.init start) where
  tokens := rfl
  row := rfl
  standing := fun _ hr => (Option.some_ne_none _ hr.symm).elim
  copies := fun _ _ hl => (List.not_mem_nil hl).elim
  returned := fun _ hl => (List.not_mem_nil hl).elim
  once := List.nodup_nil
  pending := fun _ _ hx => (Option.some_ne_none _ hx.symm).elim

/-! ## Leaders -/

/-- An unexpired copy is of the lease in the row, and the row gives it the time it
counts on, unless it has been released. -/
def Counts (now : Int) (row : Option Lease) (l : Lease) : Prop :=
  now < l.expiresAt → ∃ r, row = some r ∧ r.leaseId = l.leaseId ∧
    (l.expiresAt ≤ r.expiresAt ∨ r.expiresAt = 0)

structure Counted (s : St) : Prop where
  sent : ∀ i, ∀ st ∈ (s.nodes i).waits, st.SentBy s.clock
  strays : ∀ st ∈ s.strays, st.SentBy s.clock
  copies : ∀ i, ∀ l ∈ (s.nodes i).copies, Counts s.clock s.row l

theorem Statement.SentBy.mono {now now' : Int} (hle : now ≤ now') {st : Statement}
    (h : st.SentBy now) : st.SentBy now' := by
  cases st with
  | acquire nodeId leaseId nowMs expiresAt endpoint => exact Int.le_trans h hle
  | _ => trivial

theorem Counted.set {t : St} {i : Nat} {n : Node} (h : Counted s) (hnodes : t.nodes = s.nodes)
    (hclock : t.clock = s.clock) (hsent : ∀ st ∈ n.waits, st.SentBy s.clock)
    (hstrays : ∀ st ∈ t.strays, st.SentBy s.clock)
    (hcopies : ∀ l ∈ n.copies, Counts s.clock t.row l)
    (hothers : ∀ j, ∀ l ∈ (s.nodes j).copies, Counts s.clock t.row l) : Counted (t.set i n) where
  sent := by
    refine forall_set (P := fun _ n => ∀ st ∈ n.waits, st.SentBy t.clock) ?_ ?_
    · rw [hclock]
      exact hsent
    · rw [hclock, hnodes]
      exact h.sent
  strays := by
    show ∀ st ∈ t.strays, st.SentBy t.clock
    rw [hclock]
    exact hstrays
  copies := by
    refine forall_set (P := fun _ n => ∀ l ∈ n.copies, Counts t.clock t.row l) ?_ ?_
    · rw [hclock]
      exact hcopies
    · rw [hclock, hnodes]
      exact hothers

/-- A statement that takes effect in order leaves every copy counted, and so is
the row it writes. -/
theorem Counted.apply (h : Counted s) {st : Statement} (hsent : st.SentBy s.clock)
    (horder : InOrder s st) : (∀ i, ∀ l ∈ (s.nodes i).copies, Counts s.clock (st.run s.row) l) ∧
      ∀ l, st.written s.row = some l → Counts s.clock (st.run s.row) l := by
  cases hw : st.written s.row with
  | none =>
      rw [run_unwritten hw]
      exact ⟨h.copies, fun _ hl => (Option.some_ne_none _ hl.symm).elim⟩
  | some r' =>
      rw [run_written hw]
      refine ⟨fun i l hl hlive => ?_, fun l hl _ => ⟨r', rfl, ?_, .inl ?_⟩⟩
      · obtain ⟨r, hrow, hid, hcount⟩ := h.copies i l hl hlive
        cases st with
        | acquire nodeId leaseId nowMs expiresAt endpoint =>
            -- the copy would have outlived the row that is taken over
            have hlt := (written_acquire hw).2.2 r hrow
            have hnow : nowMs ≤ s.clock := hsent
            rcases hcount with hle | hzero
            · omega
            · have hexpired := horder r hrow hzero i l hl hid.symm
              omega
        | renew nodeId leaseId newAcquiredAt newExpiresAt endpoint =>
            obtain ⟨r₀, hr₀, hid₀, hid', -, hexpires⟩ := written_renew hw
            have hsame : r₀ = r := Option.some.inj (hr₀.symm.trans hrow)
            subst hsame
            refine ⟨r', rfl, hid'.trans hid, .inl ?_⟩
            rw [hexpires]
            exact (horder i l hl (hid.symm.trans hid₀)).resolve_left (Int.not_le.mpr hlive)
        | release nodeId leaseId =>
            obtain ⟨r₀, hr₀, hid', -, hexpires⟩ := written_release hw
            have hsame : r₀ = r := Option.some.inj (hr₀.symm.trans hrow)
            subst hsame
            exact ⟨r', rfl, hid'.trans hid, .inr hexpires⟩
      · injection hl with hl
        exact congrArg Lease.leaseId hl
      · injection hl with hl
        rw [hl]

theorem Effect.counted {a : Action} (he : Effect s a s') (hok : Orderly s a) (h : Counted s) :
    Counted s' := by
  cases he with
  | @tick ms =>
      have hle : s.clock ≤ s.clock + ms := by omega
      refine ⟨fun i st hst => (h.sent i st hst).mono hle, fun st hst => (h.strays st hst).mono hle,
        fun i l hl hlive => h.copies i l hl (Int.lt_of_le_of_lt hle hlive)⟩
  | quiet i n strays hquiet hstrays hnone =>
      refine h.set rfl rfl (fun st hst => ?_) (fun st hst => ?_)
        (fun l hl => h.copies i l (hquiet.copies hl)) h.copies
      · rcases hquiet.waits st hst with hold | hnew
        · exact h.sent i st hold
        · exact hnew
      · rcases hstrays st hst with hold | hnew
        · exact h.strays st hold
        · exact h.sent i st hnew
  | request i n leaseId hfresh hlease hexit hnone =>
      refine h.set rfl rfl (fun st hst => ?_) h.strays (fun l hl => ?_) h.copies
      · rcases List.mem_append.mp hst with hbeat | hexit'
        · rw [List.mem_singleton.mp hbeat]
          exact Int.le_refl _
        · exact h.sent i st (List.mem_append_right _ (hexit ▸ hexit'))
      · refine h.copies i l (Node.mem_copies.mpr (.inl ?_))
        exact hlease ▸ Option.mem_toList.mp (mem_of_append_nil hl)
  | fetch i st hbeat hnone =>
      refine h.set rfl rfl (fun u hu => h.sent i u (List.mem_append_right _ hu)) h.strays
        (fun l hl => ?_) h.copies
      rcases Node.mem_copies.mp hl with hheld | hcoming
      · exact h.copies i l (Node.mem_copies.mpr (.inl hheld))
      · exact fun _ => ⟨l, (lease_own hcoming).1, rfl, .inl (Int.le_refl _)⟩
  | receive i leaseId row got hbeat hgot hid hnone =>
      refine h.set rfl rfl (fun u hu => h.sent i u (List.mem_append_right _ hu)) h.strays
        (fun l hl => ?_) h.copies
      rw [List.mem_singleton.mp (mem_of_append_nil hl)]
      exact h.copies i got (Node.mem_copies.mpr (.inr hgot))
  | apply i n st strays htakes hwaits hstrays hcopies hids hacquiring hwaits' =>
      have hsent : st.SentBy s.clock := by
        rcases hwaits with hstray | hwait
        · exact h.strays st hstray
        · exact h.sent i st hwait
      obtain ⟨hold, hnew⟩ := h.apply hsent (hok st htakes)
      refine h.set rfl rfl (fun u hu => h.sent i u (hwaits' hu))
        (fun u hu => h.strays u (hstrays hu)) (fun l hl => ?_) hold
      rcases hcopies l hl with hheld | hwritten
      · exact hold i l hheld
      · exact hnew l hwritten

theorem init_counted (start : Int) : Counted (St.init start) :=
  ⟨fun _ _ hst => (List.not_mem_nil hst).elim, fun _ hst => (List.not_mem_nil hst).elim,
    fun _ _ hl => (List.not_mem_nil hl).elim⟩

theorem Counted.leads_unique (h : Counted s) (ha : Apart s) {i j : Nat} (hi : s.leads i)
    (hj : s.leads j) : i = j := by
  have hrow : ∀ {k : Nat}, s.leads k → ∃ r, s.row = some r ∧ r.leaseId ∈ (s.nodes k).ids := by
    intro k hk
    obtain ⟨-, l, hl, hlive⟩ := hk
    have hcopy : l ∈ (s.nodes k).copies := Node.mem_copies.mpr (.inl hl)
    obtain ⟨r, hr, hid, -⟩ := h.copies k l hcopy hlive
    exact ⟨r, hr, hid ▸ Node.copy_id hcopy⟩
  obtain ⟨r, hr, hid⟩ := hrow hi
  obtain ⟨r', hr', hid'⟩ := hrow hj
  have hsame : r' = r := Option.some.inj (hr'.symm.trans hr)
  subst hsame
  exact ha.own i j _ hid hid'

/-! ## Whole runs -/

/-- The row's token moves by one when a statement acquires, and else not. -/
theorem Effect.token {a : Action} (he : Effect s a s') : s'.token =
    s.token + if (s.takesEffect a).any (·.acquires s.row) then 1 else 0 := by
  have hsame : s.takesEffect a = none → s.token = s.token +
      if (s.takesEffect a).any (·.acquires s.row) then 1 else 0 := by
    intro hnone
    rw [hnone]
    rfl
  cases he with
  | tick => exact hsame rfl
  | quiet i n strays hquiet hstrays hnone => exact hsame hnone
  | request i n leaseId hfresh hlease hexit hnone => exact hsame hnone
  | fetch i st hbeat hnone => exact hsame hnone
  | receive i leaseId row got hbeat hgot hid hnone => exact hsame hnone
  | apply i n st strays htakes hwaits hstrays hcopies hids hacquiring hwaits' =>
      show ((s.apply st).row.map Lease.fencingToken).getD 0 = _
      rw [htakes]
      show _ = s.token + if st.acquires s.row then 1 else 0
      rcases apply_cases s st with ⟨-, hacquires, hrow, -⟩ |
        ⟨r', -, hrow, ⟨hacquires, -, htoken⟩ | ⟨hacquires, -, r, hr, -, htoken⟩⟩
      · rw [hrow, hacquires]
        rfl
      · rw [hrow, hacquires]
        exact htoken
      · rw [hrow, hacquires, St.token, hr]
        exact htoken

theorem reach_fenced {ok : St → Action → Prop} {start : Int}
    (h : Reach (step mysql) ok (St.init start) s) : Apart s ∧ Fenced s := by
  refine h.invariant (I := fun s => Apart s ∧ Fenced s) ⟨init_apart start, init_fenced start⟩
    fun s a s' hI _ hs => ?_
  have he := step_effect hs
  exact ⟨he.apart hI.1, he.fenced hI.1 hI.2⟩

theorem Fenced.tokens_nodup (h : Fenced s) : (s.returned.map Lease.fencingToken).Nodup := by
  have htokens : (s.acquired.map Lease.fencingToken).Nodup := by
    rw [h.tokens]
    exact List.nodup_range'
  refine (List.nodup_map_iff_inj_on h.once.of_map).mpr fun l hl l' hl' heq => ?_
  obtain ⟨a, ha, haid, hatoken⟩ := (h.returned l hl).1
  obtain ⟨a', ha', haid', hatoken'⟩ := (h.returned l' hl').1
  have hsame : a = a' := List.inj_on_of_nodup_map htokens ha ha'
    (hatoken.trans (heq.trans hatoken'.symm))
  refine List.inj_on_of_nodup_map h.once hl hl' ?_
  rw [← haid, hsame, haid']

/-- In every run whose statements take effect in order there is one leader at
most; in every run the row's token goes up by one with each acquisition and at no
other time, and no two calls of `acquireLease` return the same. -/
theorem one_leader {ok : St → Action → Prop} {start : Int}
    (h : Reach (step mysql) ok (St.init start) s) :
    ((∀ s a, ok s a → Orderly s a) → ∀ i j, s.leads i → s.leads j → i = j) ∧
    (∀ a s', step mysql s a = some s' → s'.token =
      s.token + if (s.takesEffect a).any (·.acquires s.row) then 1 else 0) ∧
    (s.returned.map Lease.fencingToken).Nodup := by
  obtain ⟨hapart, hfenced⟩ := reach_fenced h
  refine ⟨fun hok i j => ?_, fun a s' hs => (step_effect hs).token, hfenced.tokens_nodup⟩
  have hcounted : Counted s :=
    (h.mono hok).invariant (init_counted start) fun _ _ _ hI hok hs =>
      (step_effect hs).counted hok hI
  exact hcounted.leads_unique hapart

theorem orderly_quiet {a : Action} (h : s.takesEffect a = none) : Orderly s a := fun _ hst =>
  (Option.some_ne_none _ (hst.symm.trans h)).elim

theorem orderly_takeover {a : Action} {nodeId leaseId : JsString} {nowMs expiresAt : Int}
    {endpoint : Option JsString}
    (h : s.takesEffect a = some (.acquire nodeId leaseId nowMs expiresAt endpoint))
    (hrow : ∀ r, s.row = some r → r.expiresAt ≠ 0) : Orderly s a := by
  intro st hst
  rw [h] at hst
  injection hst with hst
  subst hst
  exact fun r hr hzero => (hrow r hr hzero).elim

/-- A node crashes, and another takes over when the lease has run out. -/
def takeoverRun : List Action :=
  [.init 0 (units "a") true 30000 none (units "l1"), .apply 0, .answer 0, .crash 0, .tick 30001,
    .init 1 (units "b") true 30000 none (units "l2"), .apply 1, .answer 1]

theorem one_leader_takeover : ∃ s, exec (step false) (St.init 1000) takeoverRun = some s ∧
    s.leads 1 ∧ s.token = 2 ∧ ∀ i, s.leads i → i = 1 := by
  have hmeets : Meets (step false) Orderly (St.init 1000) takeoverRun := by
    refine ⟨orderly_quiet rfl, orderly_takeover rfl fun r hr => ?_, orderly_quiet rfl,
      orderly_quiet rfl, orderly_quiet rfl, orderly_quiet rfl, orderly_takeover rfl fun r hr => ?_,
      orderly_quiet rfl, trivial⟩
    · cases hr
    · injection hr with hr
      subst hr
      exact fun hzero => absurd hzero (by decide)
  obtain ⟨s, hrun, hleads, htoken⟩ : ∃ s, exec (step false) (St.init 1000) takeoverRun = some s ∧
      s.leads 1 ∧ s.token = 2 := ⟨_, rfl, ⟨rfl, _, rfl, by decide⟩, rfl⟩
  exact ⟨s, hrun, hleads, htoken, fun i hi =>
    (one_leader (reach_of_meets takeoverRun hmeets hrun)).1 (fun _ _ => id) i 1 hi hleads⟩

/-- The release has freed the row, its answer is still to come, and another node
acquires. -/
def shutdownRun : List Action :=
  [.init 0 (units "a") true 30000 none (units "l1"), .apply 0, .answer 0, .shutdown 0,
    .applyRelease 0, .init 1 (units "b") true 30000 none (units "l2"), .apply 1, .answer 1]

/-- A renewal whose answer was given up on undoes the one that came after it, and
another node finds the row expired. -/
def lateRun : List Action :=
  [.init 0 (units "a") true 30000 none (units "l1"), .apply 0, .answer 0, .tick 10000,
    .heartbeat 0 [], .lose 0, .tick 10000, .heartbeat 0 [], .apply 0, .answer 0, .applyStray 0,
    .tick 20001, .init 1 (units "b") true 30000 none (units "l2"), .apply 1, .answer 1]

theorem two_leaders :
    (∃ s, exec (step false) (St.init 1000) shutdownRun = some s ∧ s.leads 0 ∧ s.leads 1) ∧
    ∃ s, exec (step false) (St.init 1000) lateRun = some s ∧ s.leads 0 ∧ s.leads 1 :=
  ⟨⟨_, rfl, ⟨rfl, _, rfl, by decide⟩, rfl, _, rfl, by decide⟩,
    _, rfl, ⟨rfl, _, rfl, by decide⟩, rfl, _, rfl, by decide⟩

end Blamejs.ClusterLease
