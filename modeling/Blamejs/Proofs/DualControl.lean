import Blamejs.Ref.DualControl
import Mathlib.Data.List.Perm.Basic

/-!
# A grant is consumed once, and only when it may be

The record in the cache is a function of what was committed for its grant:
`Matches` reads approvals, quorum, cancellation and revocation off the log. It
is kept by every mutator, so the checks `consume` makes on the record are checks
on the log, and `Granted` is what they come to. Once a record carries
`consumedAt` every mutator refuses it, and when it has been deleted nothing can
bring it back, since a request is given a new id.
-/

namespace Blamejs.DualControl

open Blamejs.Js Run

/-- An approval as it was committed. -/
structure Approval where
  approver : Actor
  approverId : JsString
  quorum : Int

/-- The approval of `grantId` an event is. -/
def Event.approvalOf (grantId : JsString) : Event → Option Approval
  | .approved g approver approverId quorum =>
      if g = grantId then some ⟨approver, approverId, quorum⟩ else none
  | _ => none

/-- The approvals committed for a grant, in order. -/
def approvals (grantId : JsString) (log : List Event) : List Approval :=
  log.filterMap (Event.approvalOf grantId)

/-- An approval by an actor with the id it is filed under and a permitted role. -/
def Config.Permitted (cfg : Config) (a : Approval) : Prop :=
  actorIdOf (some a.approver) = some a.approverId ∧ cfg.approverRoleOk (some a.approver) = true

/-- The record says what the log says. -/
structure Matches (cfg : Config) (log : List Event) (g : JsString) (r : Record) : Prop where
  grantId : r.grantId = g
  minApprovers : r.minApprovers = cfg.minApprovers
  consumeLockMs : r.consumeLockMs = cfg.consumeLockMs
  requested : ∀ q t, .requested g q t ∈ log →
    q = r.requestedBy ∧ r.expiresAt = t + cfg.ttlMs
  approvedBy : r.approvedBy = (approvals g log).map Approval.approverId
  quorum : r.quorumReachedAt =
    (approvals g log)[cfg.minApprovers - 1]?.map Approval.quorum
  distinct : r.approvedBy.Nodup
  notSelf : cfg.forbidSelfApprove = true → r.requestedBy ∉ r.approvedBy
  permitted : ∀ a ∈ approvals g log, cfg.Permitted a
  notRevoked : r.revokedAt = none → .revoked g ∉ log
  notCancelled : r.cancelledAt = none → .cancelled g ∉ log

/-- What a consumption rests on, all of it committed before. -/
structure Granted (cfg : Config) (x : Consumption) : Prop where
  enough : cfg.minApprovers ≤ x.record.approvedBy.length
  distinct : x.record.approvedBy.Nodup
  approved : x.record.approvedBy =
    (approvals x.record.grantId x.before).map Approval.approverId
  permitted : ∀ a ∈ approvals x.record.grantId x.before, cfg.Permitted a
  notSelf : cfg.forbidSelfApprove = true → ∀ q t,
    .requested x.record.grantId q t ∈ x.before → q ∉ x.record.approvedBy
  unlocked : ∃ a, (approvals x.record.grantId x.before)[cfg.minApprovers - 1]? = some a ∧
    (cfg.consumeLockMs = 0 ∨ a.quorum + cfg.consumeLockMs ≤ x.clock.locked)
  live : ∀ q t, .requested x.record.grantId q t ∈ x.before →
    x.clock.checked ≤ t + cfg.ttlMs
  notRevoked : .revoked x.record.grantId ∉ x.before
  notCancelled : .cancelled x.record.grantId ∉ x.before

/-! ## The log grows -/

theorem approvals_snoc (g : JsString) (log : List Event) (e : Event) :
    approvals g (log ++ [e]) = approvals g log ++ (e.approvalOf g).toList := by
  rw [approvals, List.filterMap_append, approvals]
  cases h : e.approvalOf g with
  | none => rw [List.filterMap_cons_none h]; rfl
  | some a => rw [List.filterMap_cons_some h]; rfl

theorem approvalOf_ne {g : JsString} {e : Event} (h : e.grantId ≠ g) : e.approvalOf g = none := by
  cases e with
  | approved g' approver approverId quorum => exact if_neg h
  | _ => rfl

theorem approvals_other {g : JsString} {log : List Event} {e : Event}
    (h : e.approvalOf g = none) : approvals g (log ++ [e]) = approvals g log := by
  rw [approvals_snoc, h]
  exact List.append_nil _

theorem mem_snoc_ne {g : JsString} {log : List Event} {e f : Event} (hf : f.grantId = g)
    (h : e.grantId ≠ g) (hmem : f ∈ log ++ [e]) : f ∈ log := by
  rcases List.mem_append.mp hmem with hold | hnew
  · exact hold
  · exact (h (List.mem_singleton.mp hnew ▸ hf)).elim

/-- An event about another grant changes nothing for this one. -/
theorem Matches.other {cfg : Config} {log : List Event} {g : JsString} {r : Record} {e : Event}
    (h : Matches cfg log g r) (he : e.grantId ≠ g) : Matches cfg (log ++ [e]) g r := by
  have hsame : approvals g (log ++ [e]) = approvals g log := approvals_other (approvalOf_ne he)
  exact { h with
    requested := fun q t hmem => h.requested q t (mem_snoc_ne rfl he hmem)
    approvedBy := by rw [hsame]; exact h.approvedBy
    quorum := by rw [hsame]; exact h.quorum
    permitted := by rw [hsame]; exact h.permitted
    notRevoked := fun hr hmem => h.notRevoked hr (mem_snoc_ne rfl he hmem)
    notCancelled := fun hc hmem => h.notCancelled hc (mem_snoc_ne rfl he hmem) }

/-! ## The mutators -/

theorem cancelFn_ok {by_ : Option Actor} {reason : Option JsString} {nowMs : Int}
    {shown : Option Record} {r' : Record} (h : cancelFn by_ reason nowMs shown = .ok r') :
    ∃ r, shown = some r ∧
      r' = { r with cancelledAt := some nowMs, cancelledReason := orNull reason } := by
  cases shown with
  | none => cases h
  | some r =>
      rw [cancelFn] at h
      split at h
      · cases h
      split at h
      · cases h
      split at h
      · cases h
      split at h
      · cases h
      · injection h with h
        exact ⟨r, rfl, h.symm⟩

theorem revokeFn_ok {reason : Option JsString} {nowMs : Int} {shown : Option Record} {r' : Record}
    (h : revokeFn reason nowMs shown = .ok r') :
    ∃ r, shown = some r ∧
      r' = { r with revokedAt := some nowMs, revokedReason := orNull reason } := by
  cases shown with
  | none => cases h
  | some r =>
      rw [revokeFn] at h
      split at h
      · cases h
      · injection h with h
        exact ⟨r, rfl, h.symm⟩

/-- An approval that is committed adds one new approver who may approve. -/
theorem approveFn_ok {cfg : Config} {actor : Actor} {id : JsString} {reason : Option JsString}
    {clock : ApproveClock} {shown : Option Record} {r' : Record}
    (h : cfg.approveFn actor id reason clock shown = .ok r') :
    ∃ r, shown = some r ∧ r.consumedAt = none ∧ ¬ (cfg.forbidSelfApprove ∧ id = r.requestedBy) ∧
      cfg.approverRoleOk (some actor) = true ∧ id ∉ r.approvedBy ∧
      r'.grantId = r.grantId ∧ r'.minApprovers = r.minApprovers ∧
      r'.consumeLockMs = r.consumeLockMs ∧ r'.requestedBy = r.requestedBy ∧
      r'.expiresAt = r.expiresAt ∧ r'.consumedAt = r.consumedAt ∧ r'.revokedAt = r.revokedAt ∧
      r'.cancelledAt = r.cancelledAt ∧ r'.approvedBy = r.approvedBy ++ [id] ∧
      r'.quorumReachedAt = if (r.approvedBy ++ [id]).length ≥ r.minApprovers ∧
        r.quorumReachedAt = none then some clock.quorum else r.quorumReachedAt := by
  cases shown with
  | none => cases h
  | some r =>
      rw [Config.approveFn] at h
      split at h
      · cases h
      next hconsumed =>
      split at h
      · cases h
      split at h
      · cases h
      split at h
      · cases h
      split at h
      · cases h
      next hself =>
      split at h
      · cases h
      next hrole =>
      split at h
      · cases h
      next hnew =>
      split at h
      · cases h
      · injection h with h
        subst h
        exact ⟨r, rfl, not_not.mp hconsumed, hself, not_not.mp hrole, hnew, rfl, rfl, rfl, rfl,
          rfl, rfl, rfl, rfl, rfl, rfl⟩

/-- A consumption that is committed found every condition met. -/
theorem consumeFn_ok {clock : ConsumeClock} {shown : Option Record} {r' : Record}
    (h : consumeFn clock shown = .ok r') :
    ∃ r, shown = some r ∧ r.revokedAt = none ∧ r.cancelledAt = none ∧ r.consumedAt = none ∧
      clock.checked ≤ r.expiresAt ∧ r.minApprovers ≤ r.approvedBy.length ∧
      r.unlockAt.filter (clock.locked < ·) = none ∧
      r' = { r with consumedAt := some clock.consumed } := by
  cases shown with
  | none => cases h
  | some r =>
      rw [consumeFn] at h
      split at h
      · cases h
      next hrevoked =>
      split at h
      · cases h
      next hcancelled =>
      split at h
      · cases h
      next hconsumed =>
      split at h
      · cases h
      next hexpired =>
      split at h
      · cases h
      next henough =>
      split at h
      · cases h
      next hlock =>
      injection h with h
      exact ⟨r, rfl, not_not.mp hrevoked, not_not.mp hcancelled, not_not.mp hconsumed,
        Int.not_lt.mp hexpired, Nat.not_lt.mp henough, hlock, h.symm⟩

/-! ## The record after a mutator -/

/-- A mutator that leaves the approvals alone. -/
theorem Matches.amend {cfg : Config} {log : List Event} {g : JsString} {r r' : Record} {e : Event}
    (h : Matches cfg log g r) (hnew : e.newId = none) (happroval : e.approvalOf g = none)
    (hid : r'.grantId = r.grantId) (hmin : r'.minApprovers = r.minApprovers)
    (hlock : r'.consumeLockMs = r.consumeLockMs) (hby : r'.requestedBy = r.requestedBy)
    (hexpires : r'.expiresAt = r.expiresAt) (happroved : r'.approvedBy = r.approvedBy)
    (hquorum : r'.quorumReachedAt = r.quorumReachedAt)
    (hrevoked : r'.revokedAt = none → r.revokedAt = none ∧ e ≠ .revoked g)
    (hcancelled : r'.cancelledAt = none → r.cancelledAt = none ∧ e ≠ .cancelled g) :
    Matches cfg (log ++ [e]) g r' := by
  have hsame : approvals g (log ++ [e]) = approvals g log := approvals_other happroval
  refine ⟨hid.trans h.grantId, hmin.trans h.minApprovers, hlock.trans h.consumeLockMs, ?_, ?_, ?_,
    happroved ▸ h.distinct, ?_, ?_, ?_, ?_⟩
  · intro q t hmem
    rw [hby, hexpires]
    rcases List.mem_append.mp hmem with hold | hlast
    · exact h.requested q t hold
    · rw [← List.mem_singleton.mp hlast] at hnew
      cases hnew
  · rw [hsame, happroved]
    exact h.approvedBy
  · rw [hsame, hquorum]
    exact h.quorum
  · rw [hby, happroved]
    exact h.notSelf
  · rw [hsame]
    exact h.permitted
  · intro hr hmem
    rcases List.mem_append.mp hmem with hold | hlast
    · exact h.notRevoked (hrevoked hr).1 hold
    · exact (hrevoked hr).2 (List.mem_singleton.mp hlast).symm
  · intro hc hmem
    rcases List.mem_append.mp hmem with hold | hlast
    · exact h.notCancelled (hcancelled hc).1 hold
    · exact (hcancelled hc).2 (List.mem_singleton.mp hlast).symm

/-- The quorum instant is the one of the approval that completes the quorum. -/
theorem quorum_snoc {as : List Approval} {a : Approval} {min : Nat} (hmin : 2 ≤ min)
    {old : Option Int} (hold : old = as[min - 1]?.map Approval.quorum) :
    (if (as.map Approval.approverId ++ [a.approverId]).length ≥ min ∧ old = none
      then some a.quorum else old) = (as ++ [a])[min - 1]?.map Approval.quorum := by
  have hlen : (as.map Approval.approverId ++ [a.approverId]).length = as.length + 1 := by
    rw [List.length_append, List.length_map, List.length_singleton]
  rw [hlen]
  rcases Nat.lt_trichotomy as.length (min - 1) with hlt | heq | hgt
  · have hnone : old = none := by
      rw [hold, List.getElem?_eq_none (by omega)]
      rfl
    rw [if_neg (by omega), hnone, List.getElem?_eq_none (by simp; omega)]
    rfl
  · have hnone : old = none := by
      rw [hold, List.getElem?_eq_none (by omega)]
      rfl
    rw [if_pos ⟨by omega, hnone⟩, ← heq, List.getElem?_concat_length]
    rfl
  · have hsome : old ≠ none := by
      rw [hold, List.getElem?_eq_getElem (by omega)]
      exact Option.some_ne_none _
    rw [if_neg fun h => hsome h.2, hold, List.getElem?_append_left (by omega)]

theorem Matches.approve {cfg : Config} {log : List Event} {g : JsString} {r r' : Record}
    {actor : Actor} {id : JsString} {reason : Option JsString} {clock : ApproveClock}
    (h : Matches cfg log g r) (hactor : actorIdOf (some actor) = some id)
    (hok : cfg.approveFn actor id reason clock (some r) = .ok r') :
    Matches cfg (log ++ [.approved g actor id clock.quorum]) g r' ∧ r.consumedAt = none ∧
      r'.consumedAt = none := by
  obtain ⟨r₀, hr₀, hconsumed, hself, hrole, hnew, hid, hmin, hlock, hby, hexpires, hcons', hrevoked,
    hcancelled, happroved, hquorum⟩ := approveFn_ok hok
  injection hr₀ with hr₀
  subst hr₀
  have hsnoc : approvals g (log ++ [.approved g actor id clock.quorum]) =
      approvals g log ++ [⟨actor, id, clock.quorum⟩] := by
    rw [approvals_snoc]
    show _ ++ (if g = g then some _ else none).toList = _
    rw [if_pos rfl]
    rfl
  have hold : ∀ {f : Event}, f.approvalOf g = none →
      f ∈ log ++ [.approved g actor id clock.quorum] → f ∈ log := by
    intro f hf hmem
    rcases List.mem_append.mp hmem with hmem | hlast
    · exact hmem
    · rw [List.mem_singleton.mp hlast] at hf
      simp [Event.approvalOf] at hf
  refine ⟨⟨hid.trans h.grantId, hmin.trans h.minApprovers, hlock.trans h.consumeLockMs, ?_, ?_, ?_,
    ?_, ?_, ?_, ?_, ?_⟩, hconsumed, hcons'.trans hconsumed⟩
  · intro q t hmem
    rw [hby, hexpires]
    exact h.requested q t (hold rfl hmem)
  · rw [hsnoc, happroved, List.map_append, h.approvedBy]
    rfl
  · rw [hsnoc, hquorum, h.minApprovers, h.approvedBy]
    exact quorum_snoc (a := ⟨actor, id, clock.quorum⟩) cfg.two_le h.quorum
  · rw [happroved]
    refine List.nodup_append.mpr ⟨h.distinct, List.nodup_singleton _, fun a ha b hb heq => ?_⟩
    rw [heq, List.mem_singleton.mp hb] at ha
    exact hnew ha
  · intro hforbid hmem
    rw [hby, happroved] at hmem
    rcases List.mem_append.mp hmem with hmem | hlast
    · exact h.notSelf hforbid hmem
    · exact hself ⟨hforbid, (List.mem_singleton.mp hlast).symm⟩
  · intro a ha
    rw [hsnoc] at ha
    rcases List.mem_append.mp ha with ha | hlast
    · exact h.permitted a ha
    · rw [List.mem_singleton.mp hlast]
      exact ⟨hactor, hrole⟩
  · intro hr hmem
    exact h.notRevoked (hrevoked ▸ hr) (hold rfl hmem)
  · intro hc hmem
    exact h.notCancelled (hcancelled ▸ hc) (hold rfl hmem)

/-- The record a request stores, when nothing was committed for its id. -/
theorem newRecord_matches {cfg : Config} {log : List Event} {g action q : JsString}
    {reason : Option JsString} {nowMs : Int} (hnone : ∀ e ∈ log, e.grantId ≠ g) :
    Matches cfg (log ++ [.requested g q nowMs]) g (cfg.newRecord g action q reason nowMs) := by
  have hempty : approvals g (log ++ [.requested g q nowMs]) = [] := by
    rw [approvals_other rfl]
    exact List.filterMap_eq_nil_iff.mpr fun e he => approvalOf_ne (hnone e he)
  have hold : ∀ {f : Event}, f.grantId = g → f.newId = none →
      f ∉ log ++ [.requested g q nowMs] := by
    intro f hf hid hmem
    rcases List.mem_append.mp hmem with hmem | hlast
    · exact hnone f hmem hf
    · rw [List.mem_singleton.mp hlast] at hid
      cases hid
  refine ⟨rfl, rfl, rfl, ?_, ?_, ?_, List.nodup_nil, ?_, ?_, ?_, ?_⟩
  · intro q' t hmem
    rcases List.mem_append.mp hmem with hmem | hlast
    · exact (hnone _ hmem rfl).elim
    · cases List.mem_singleton.mp hlast
      exact ⟨rfl, rfl⟩
  · rw [hempty]
    rfl
  · rw [hempty]
    rfl
  · exact fun _ => List.not_mem_nil
  · rw [hempty]
    exact fun a ha => (List.not_mem_nil ha).elim
  · exact fun _ => hold rfl rfl
  · exact fun _ => hold rfl rfl

/-- What `consume` checked on the record, said of the log. -/
theorem Matches.granted {cfg : Config} {log : List Event} {g : JsString} {r r' : Record}
    {clock : ConsumeClock} (h : Matches cfg log g r) (hok : consumeFn clock (some r) = .ok r') :
    Granted cfg ⟨r', clock, log⟩ ∧ r.consumedAt = none := by
  obtain ⟨r₀, hr₀, hrevoked, hcancelled, hconsumed, hlive, henough, hlock, hr'⟩ := consumeFn_ok hok
  injection hr₀ with hr₀
  subst hr₀ hr'
  rw [h.minApprovers] at henough
  have hlen : r.approvedBy.length = (approvals g log).length := by
    rw [h.approvedBy, List.length_map]
  have htwo := cfg.two_le
  have hidx : cfg.minApprovers - 1 < (approvals g log).length := by omega
  have hg := h.grantId
  subst hg
  refine ⟨⟨henough, h.distinct, h.approvedBy, h.permitted, ?_, ?_, ?_, h.notRevoked hrevoked,
    h.notCancelled hcancelled⟩, hconsumed⟩
  · intro hforbid q t hmem
    exact (h.requested q t hmem).1 ▸ h.notSelf hforbid
  · refine ⟨(approvals r.grantId log)[cfg.minApprovers - 1], List.getElem?_eq_getElem hidx, ?_⟩
    have hq := h.quorum
    rw [List.getElem?_eq_getElem hidx, Option.map_some] at hq
    rw [Record.unlockAt, h.consumeLockMs, hq] at hlock
    rcases Int.lt_or_eq_of_le cfg.lock_nonneg with hpos | hzero
    · rw [if_pos hpos, Option.map_some, Option.filter_eq_none_iff] at hlock
      have := hlock _ rfl
      simp only [decide_eq_true_eq, not_lt] at this
      exact .inr this
    · exact .inl hzero.symm
  · intro q t hmem
    rw [← (h.requested q t hmem).2]
    exact hlive

/-! ## Whole runs -/

/-- The consumptions that have answered `ready: true` or are about to. -/
def St.consumed (s : St) : List Consumption := s.closing ++ s.ready

structure Inv (cfg : Config) (s : St) : Prop where
  events : ∀ e ∈ s.log, e.grantId ∈ s.issued
  records : ∀ g r, s.cache g = some r → g ∈ s.issued ∧ Matches cfg s.log g r ∧
    (r.consumedAt = none → ∀ x ∈ s.consumed, x.record.grantId ≠ g)
  granted : ∀ x ∈ s.consumed, x.record.grantId ∈ s.issued ∧ Granted cfg x
  once : (s.consumed.map fun x => x.record.grantId).Nodup

theorem cache_of_shown {s : St} {g : JsString} {live : Bool} {r : Record}
    (h : s.shown g live = some r) : s.cache g = some r := by
  cases live with
  | true => exact h
  | false => cases h

theorem put_self (s : St) (g : JsString) (r : Option Record) : (s.put g r).cache g = r :=
  Function.update_self _ _ _

theorem put_of_ne {s : St} {g k : JsString} {r : Option Record} (h : k ≠ g) :
    (s.put g r).cache k = s.cache k := Function.update_of_ne h _ _

/-- Forgetting a record, and nothing else. -/
theorem Inv.forget {cfg : Config} {s s' : St} (h : Inv cfg s)
    (hcache : ∀ g r, s'.cache g = some r → s.cache g = some r) (hlog : s'.log = s.log)
    (hconsumed : s'.consumed.Sublist s.consumed) : Inv cfg s' := by
  have hissued : s'.issued = s.issued := by rw [St.issued, hlog, St.issued]
  refine ⟨?_, fun g r hr => ?_, fun x hx => ?_, h.once.sublist (hconsumed.map _)⟩
  · rw [hlog, hissued]
    exact h.events
  · obtain ⟨h1, h2, h3⟩ := h.records g r (hcache g r hr)
    rw [hlog, hissued]
    exact ⟨h1, h2, fun hc x hx => h3 hc x (hconsumed.subset hx)⟩
  · rw [hissued]
    exact h.granted x (hconsumed.subset hx)

/-- A record put for `g` together with the event that was committed for it. -/
theorem Inv.commit {cfg : Config} {s : St} (h : Inv cfg s) {g : JsString} {r' : Record}
    {e : Event} (he : e.grantId = g) (hissued : g ∈ s.issued ++ e.newId.toList)
    (hmatches : Matches cfg (s.log ++ [e]) g r')
    (hfresh : r'.consumedAt = none → ∀ x ∈ s.consumed, x.record.grantId ≠ g) :
    Inv cfg { s.put g (some r') with log := s.log ++ [e] } := by
  have hgrow : St.issued { s.put g (some r') with log := s.log ++ [e] } =
      s.issued ++ e.newId.toList := by
    show (s.log ++ [e]).filterMap Event.newId = _
    rw [List.filterMap_append, St.issued]
    cases hid : e.newId with
    | none => rw [List.filterMap_cons_none hid]; rfl
    | some i => rw [List.filterMap_cons_some hid]; rfl
  refine ⟨fun f hf => ?_, fun k r hr => ?_, fun x hx => ?_, h.once⟩
  · rw [hgrow]
    rcases List.mem_append.mp hf with hold | hlast
    · exact List.mem_append_left _ (h.events f hold)
    · rw [List.mem_singleton.mp hlast, he]
      exact hissued
  · rw [hgrow]
    by_cases hk : k = g
    · subst hk
      have hr' : some r' = some r := (put_self s k (some r')).symm.trans hr
      injection hr' with hr'
      subst hr'
      exact ⟨hissued, hmatches, hfresh⟩
    · obtain ⟨h1, h2, h3⟩ := h.records k r ((put_of_ne hk).symm.trans hr)
      exact ⟨List.mem_append_left _ h1, h2.other fun heq => hk (heq.symm.trans he), h3⟩
  · rw [hgrow]
    exact ⟨List.mem_append_left _ (h.granted x hx).1, (h.granted x hx).2⟩

theorem cache_of_erased {s : St} {g k : JsString} {r : Record}
    (h : (s.put g none).cache k = some r) : s.cache k = some r := by
  by_cases hk : k = g
  · subst hk
    rw [put_self] at h
    cases h
  · rwa [put_of_ne hk] at h

/-- A consumption moves from closing to ready: the same consumptions, in another
order. -/
theorem Inv.close {cfg : Config} {s : St} (h : Inv cfg s) {index : Nat} {x : Consumption}
    (hx : s.closing[index]? = some x) :
    Inv cfg { St.put { s with closing := s.closing.eraseIdx index } x.record.grantId none with
      ready := s.ready ++ [x] } := by
  obtain ⟨hlt, hget⟩ := List.getElem?_eq_some_iff.mp hx
  have hperm : List.Perm (s.closing.eraseIdx index ++ (s.ready ++ [x])) s.consumed := by
    have h1 : List.Perm (x :: s.closing.eraseIdx index) s.closing :=
      hget ▸ List.getElem_cons_eraseIdx_perm hlt
    have h2 : List.Perm (s.closing.eraseIdx index ++ (s.ready ++ [x]))
        (x :: (s.closing.eraseIdx index ++ s.ready)) := by
      rw [← List.append_assoc]
      exact List.perm_append_singleton _ _
    exact h2.trans (h1.append_right _)
  refine ⟨h.events, fun k r hr => ?_, fun y hy => h.granted y (hperm.mem_iff.mp hy),
    (hperm.map _).nodup_iff.mpr h.once⟩
  obtain ⟨h1, h2, h3⟩ := h.records k r (cache_of_erased hr)
  exact ⟨h1, h2, fun hc y hy => h3 hc y (hperm.mem_iff.mp hy)⟩

theorem Inv.consume {cfg : Config} {s : St} (h : Inv cfg s) {g : JsString} {r r' : Record}
    {clock : ConsumeClock} (hr : s.cache g = some r) (hok : consumeFn clock (some r) = .ok r') :
    Inv cfg { s.put g (some r') with closing := s.closing ++ [⟨r', clock, s.log⟩] } := by
  obtain ⟨hissued, hmatches, hfresh⟩ := h.records g r hr
  obtain ⟨hgranted, hnone⟩ := hmatches.granted hok
  obtain ⟨r₀, hr₀, -, -, -, -, -, -, hr'⟩ := consumeFn_ok hok
  injection hr₀ with hr₀
  subst hr₀ hr'
  have hid := hmatches.grantId
  have hnew := hfresh hnone
  have hmem : ∀ x, x ∈ St.consumed { s.put g (some { r with consumedAt := some clock.consumed })
      with closing := s.closing ++
        [⟨{ r with consumedAt := some clock.consumed }, clock, s.log⟩] } ↔
      x ∈ s.consumed ∨ x = ⟨{ r with consumedAt := some clock.consumed }, clock, s.log⟩ := by
    intro x
    show x ∈ (s.closing ++ [_]) ++ s.ready ↔ x ∈ s.closing ++ s.ready ∨ _
    simp only [List.mem_append, List.mem_singleton]
    tauto
  refine ⟨h.events, fun k r₁ hr₁ => ?_, fun x hx => ?_, ?_⟩
  · by_cases hk : k = g
    · subst hk
      have heq := (put_self s k _).symm.trans hr₁
      injection heq with heq
      subst heq
      refine ⟨hissued, { hmatches with }, fun hc => ?_⟩
      cases hc
    · obtain ⟨h1, h2, h3⟩ := h.records k r₁ ((put_of_ne hk).symm.trans hr₁)
      refine ⟨h1, h2, fun hc x hx => ?_⟩
      rcases (hmem x).mp hx with hold | rfl
      · exact h3 hc x hold
      · exact fun heq => hk (heq.symm.trans hid)
  · rcases (hmem x).mp hx with hold | rfl
    · exact h.granted x hold
    · exact ⟨hid.symm ▸ hissued, hgranted⟩
  · have hperm : List.Perm (St.consumed
        { s.put g (some { r with consumedAt := some clock.consumed }) with
          closing := s.closing ++ [⟨{ r with consumedAt := some clock.consumed }, clock, s.log⟩] })
        (⟨{ r with consumedAt := some clock.consumed }, clock, s.log⟩ :: s.consumed) := by
      show List.Perm ((s.closing ++ [_]) ++ s.ready) (_ :: (s.closing ++ s.ready))
      rw [List.append_assoc]
      exact List.perm_middle
    refine (hperm.map _).nodup_iff.mpr (List.nodup_cons.mpr ⟨fun hmem' => ?_, h.once⟩)
    obtain ⟨x, hx, heq⟩ := List.mem_map.mp hmem'
    exact hnew x hx (heq.trans hid)

theorem step_inv {cfg : Config} {s s' : St} {a : Action} (h : Inv cfg s)
    (hstep : step cfg s a = some s') : Inv cfg s' := by
  cases a with
  | request g action requestedBy reason nowMs =>
      rw [step] at hstep
      split at hstep
      · injection hstep with hstep
        exact hstep ▸ h
      · next q _ =>
          split at hstep
          · injection hstep with hstep
            exact hstep ▸ h
          split at hstep
          · cases hstep
          · next hnew =>
              injection hstep with hstep
              subst hstep
              refine h.commit rfl (List.mem_append_right _ List.mem_cons_self)
                (newRecord_matches fun e he heq => hnew (heq ▸ h.events e he)) fun _ x hx heq => ?_
              exact hnew (heq ▸ (h.granted x hx).1)
  | approve g approver reason clock live =>
      cases approver with
      | none =>
          injection hstep with hstep
          exact hstep ▸ h
      | some actor =>
          cases hid : actorIdOf (some actor) with
          | none =>
              simp only [step, hid] at hstep
              injection hstep with hstep
              exact hstep ▸ h
          | some id =>
              simp only [step, hid] at hstep
              split at hstep
              · injection hstep with hstep
                exact hstep ▸ h
              · next r' hok =>
                  injection hstep with hstep
                  subst hstep
                  obtain ⟨r, hr, -⟩ := approveFn_ok hok
                  rw [hr] at hok
                  obtain ⟨hissued, hmatches, hfresh⟩ := h.records g r (cache_of_shown hr)
                  obtain ⟨hmatches', hnone, -⟩ := hmatches.approve hid hok
                  exact h.commit rfl (List.mem_append_left _ hissued) hmatches' fun _ =>
                    hfresh hnone
  | cancel g cancelledBy reason nowMs live =>
      rw [step] at hstep
      split at hstep
      · injection hstep with hstep
        exact hstep ▸ h
      · next r' hok =>
          injection hstep with hstep
          subst hstep
          obtain ⟨r, hr, rfl⟩ := cancelFn_ok hok
          obtain ⟨hissued, hmatches, hfresh⟩ := h.records g r (cache_of_shown hr)
          refine h.commit rfl (List.mem_append_left _ hissued) (hmatches.amend rfl rfl rfl rfl rfl
            rfl rfl rfl rfl (fun hn => ⟨hn, Event.noConfusion⟩) fun hn => ?_) fun hn => hfresh hn
          cases hn
  | revoke g reason nowMs live =>
      rw [step] at hstep
      split at hstep
      · injection hstep with hstep
        exact hstep ▸ h
      · next r' hok =>
          injection hstep with hstep
          subst hstep
          obtain ⟨r, hr, rfl⟩ := revokeFn_ok hok
          obtain ⟨hissued, hmatches, hfresh⟩ := h.records g r (cache_of_shown hr)
          refine h.commit rfl (List.mem_append_left _ hissued) (hmatches.amend rfl rfl rfl rfl rfl
            rfl rfl rfl rfl (fun hn => ?_) fun hn => ⟨hn, Event.noConfusion⟩) fun hn => hfresh hn
          cases hn
  | consume g clock live =>
      rw [step] at hstep
      split at hstep
      · injection hstep with hstep
        exact hstep ▸ h.forget (fun _ _ hr => hr) rfl (.refl _)
      · injection hstep with hstep
        exact hstep ▸ h
      · next r' hok =>
          injection hstep with hstep
          subst hstep
          obtain ⟨r, hr, -⟩ := consumeFn_ok hok
          rw [hr] at hok
          exact h.consume (cache_of_shown hr) hok
  | close index deleted =>
      rw [step] at hstep
      split at hstep
      · cases hstep
      · next x hx =>
          cases deleted with
          | false =>
              injection hstep with hstep
              exact hstep ▸ h.forget (fun _ _ hr => hr) rfl
                ((List.eraseIdx_sublist _ _).append_right _)
          | true =>
              injection hstep with hstep
              exact hstep ▸ h.close hx
  | expire index =>
      rw [step] at hstep
      split at hstep
      · cases hstep
      · injection hstep with hstep
        exact hstep ▸ h.forget (fun _ _ hr => cache_of_erased hr) rfl (.refl _)
  | lose g =>
      injection hstep with hstep
      exact hstep ▸ h.forget (fun _ _ hr => cache_of_erased hr) rfl (.refl _)

theorem init_inv (cfg : Config) : Inv cfg St.init where
  events := fun _ he => (List.not_mem_nil he).elim
  records := fun _ _ hr => by cases hr
  granted := fun _ hx => (List.not_mem_nil hx).elim
  once := List.nodup_nil

/-- In every run of a dual-control instance, no grant is consumed twice, and a
consumption that answers `ready: true` rests on enough approvals by distinct
actors with a permitted role, none of them the requester where that is
forbidden; the lock counted from the approval that completed the quorum has
run out, the grant has not expired, and neither a cancellation nor a revocation
of it was committed before. -/
theorem consume_once (cfg : Config) {s : St} (h : Reach (step cfg) Always St.init s) :
    (s.ready.map fun x => x.record.grantId).Nodup ∧ ∀ x ∈ s.ready, Granted cfg x := by
  have hs : Inv cfg s := h.invariant (init_inv cfg) fun _ _ _ hI _ hstep => step_inv hI hstep
  refine ⟨hs.once.sublist ((List.sublist_append_right _ _).map _), fun x hx => ?_⟩
  exact (hs.granted x (List.mem_append_right _ hx)).2

/-- Two approvers with a role, an hour to use the grant, ten milliseconds to wait. -/
def pairConfig : Config where
  ttlMs := 3600000
  minApprovers := 2
  forbidSelfApprove := true
  consumeLockMs := 10
  minReasonLength := 0
  approverRoles := some [units "ops"]
  ttl_pos := by decide
  two_le := by decide
  lock_nonneg := by decide

def namedActor (name : String) : Actor :=
  ⟨some (units name), none, none, none, some [some (units "ops")]⟩

/-- The second `consume` comes while the first has yet to delete the record, and
the revocation after both. -/
def pairRun : List Action :=
  [.request (units "dc-1") (units "erase") (some (namedActor "ann")) none 0,
    .approve (units "dc-1") (some (namedActor "ann")) none ⟨1, 1, 1⟩ true,
    .approve (units "dc-1") (some (namedActor "bob")) none ⟨2, 2, 2⟩ true,
    .approve (units "dc-1") (some (namedActor "eve")) none ⟨3, 3, 3⟩ true,
    .consume (units "dc-1") ⟨12, 12, 12, 12⟩ true,
    .consume (units "dc-1") ⟨13, 13, 13, 13⟩ true,
    .consume (units "dc-1") ⟨14, 14, 14, 14⟩ true,
    .close 0 true,
    .revoke (units "dc-1") none 15 true]

theorem consume_once_pair : ∃ s, exec (step pairConfig) St.init pairRun = some s ∧
    s.ready.length = 1 ∧ (s.ready.map fun x => x.record.grantId).Nodup :=
  ⟨_, rfl, rfl, (consume_once pairConfig (reach_of_exec pairRun rfl)).1⟩

end Blamejs.DualControl
