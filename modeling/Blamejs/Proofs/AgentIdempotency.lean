import Blamejs.Ref.AgentIdempotency
import Blamejs.Lib.Run
import Blamejs.Lib.Sessions

/-!
# One claim at a time

A claim is the insertion of a pending row, so a key that is claimed has a row until the
row expires or is invalidated, and no second claim goes through while it is there. Two
statements of a call with a step of another between them are what can break this: the read
of a row whose presence refused a claim, and the deletion of a row that was read as
expired. The store itself does not know of expiry, so that a claim also needs the expired
row to be gone; `Orderly` is the condition under which none of this shows.
-/

namespace Blamejs.AgentIdempotency

open Blamejs.Js Run

variable {R : Type} {p : Platform R}

/-- A caller is told that the key is now claimed for it. -/
def Event.claims : Event R → Bool
  | .claimed _ => true
  | _ => false

/-- An expiry or an invalidation of the entry. -/
def Event.ends : Event R → Bool
  | .deleted row now invalidated => invalidated || row.any fun row => row.expiresAt ≤ (now : Rat)
  | _ => false

/-- The row that an answer rests on is not past its expiry. -/
def Event.Fresh : Event R → Prop
  | .refused row now => now ≤ row.expiresAt
  | .pending row now => now ≤ row.expiresAt
  | .replayed _ row _ now => now ≤ row.expiresAt
  | _ => True

/-- No claim comes across an expired row, and no row is deleted between the statements
of a call that has seen it; `gc` takes nothing before its time. -/
def Orderly (s : St R) : Act R → Prop
  | .putIfAbsent _ => ∀ row ∈ s.row, s.now ≤ row.expiresAt
  | .gc olderThanMs => 0 ≤ olderThanMs
  | .resume k =>
      match s.tasks[k]? with
      | some (.refused _) => ∃ row ∈ s.row, s.now ≤ row.expiresAt
      | some (.getRead (some row)) => row.expiresAt < s.now → ∀ r ∈ s.row, r.expiresAt ≤ s.now
      | _ => True
  | _ => True

/-! ## One step -/

/-- What a step leaves behind: the row, and what is logged. -/
structure Keeps (s : St R) (row : Option Row) (more : List (Event R)) : Prop where
  unclaimed : ∀ e ∈ more, e.claims = false
  fresh : ∀ e ∈ more, e.Fresh
  row : s.row.isSome = true → (∀ e ∈ more, e.ends = false) → row.isSome = true

theorem keeps_same {s : St R} {more : List (Event R)} (hunclaimed : ∀ e ∈ more, e.claims = false)
    (hfresh : ∀ e ∈ more, e.Fresh) : Keeps s s.row more :=
  ⟨hunclaimed, hfresh, fun h _ => h⟩

theorem existingAnswer_keeps {s : St R} {row : Row} {f : Option JsString}
    (hrow : s.row = some row) (hfresh : (s.now : Rat) ≤ row.expiresAt) :
    Keeps s s.row [existingAnswer p s.now f s.row] := by
  rw [hrow, existingAnswer, ← hrow]
  refine keeps_same (List.forall_mem_singleton.mpr ?_) (List.forall_mem_singleton.mpr ?_)
  · split
    · rfl
    · split
      · rfl
      · split
        · rfl
        · split <;> rfl
  · split
    · trivial
    · split
      · exact hfresh
      · split
        · trivial
        · split
          · exact hfresh
          · trivial

theorem getAnswer_keeps {s : St R} {row : Option Row}
    (hexpired : ∀ r ∈ row, r.expiresAt < s.now → ∀ r' ∈ s.row, r'.expiresAt ≤ s.now) :
    Keeps s (getAnswer p s.now s.row row).1 (getAnswer p s.now s.row row).2 := by
  cases row with
  | none => exact keeps_same (by simp [getAnswer, Event.claims]) (by simp [getAnswer, Event.Fresh])
  | some row =>
      rw [getAnswer]
      split
      · next hlt =>
          refine ⟨by simp [Event.claims], by simp [Event.Fresh], fun hsome hends => ?_⟩
          obtain ⟨r, hr⟩ := Option.isSome_iff_exists.mp hsome
          have hdeleted := hends _ List.mem_cons_self
          simp [Event.ends, hr, hexpired row rfl hlt r hr] at hdeleted
      · next hlt =>
          split
          · exact keeps_same (by simp [Event.claims]) (by simp [Event.Fresh])
          · split
            · exact keeps_same (by simp [corruptResult, Event.claims])
                (by simp [corruptResult, Event.Fresh])
            · exact ⟨by simp [Event.claims],
                List.forall_mem_singleton.mpr (not_lt.mp hlt), fun h _ => by simpa using h⟩

theorem putAnswer_keeps {s : St R} {existing : Option Row} {result : R} {f : Option JsString} :
    Keeps s (putAnswer p s.now s.row existing result f).1
      (putAnswer p s.now s.row existing result f).2 := by
  generalize hr : putAnswer p s.now s.row existing result f = r
  unfold putAnswer at hr
  split at hr
  · subst hr
    exact keeps_same (by simp [reusedKey, Event.claims]) (by simp [reusedKey, Event.Fresh])
  · split at hr
    · subst hr
      exact keeps_same (by simp [Event.claims]) (by simp [Event.Fresh])
    · dsimp only at hr
      split at hr
      · subst hr
        exact keeps_same (by simp [Event.claims]) (by simp [Event.Fresh])
      · subst hr
        exact ⟨by simp [Event.claims], by simp [Event.Fresh], fun _ _ => rfl⟩

/-! ## Runs -/

/-- Claims are apart, and a key that is claimed has a row. -/
structure Inv (s : St R) : Prop where
  apart : Sessions.Apart Event.claims Event.ends false s.log
  held : Sessions.isOpen Event.claims Event.ends false s.log = true → s.row.isSome = true
  fresh : ∀ e ∈ s.log, e.Fresh

theorem Inv.keeps {s s' : St R} {more : List (Event R)} (h : Inv s)
    (hmore : Keeps s s'.row more) (hlog : s'.log = s.log ++ more) : Inv s' where
  apart := by
    rw [hlog, Sessions.apart_append]
    exact ⟨h.apart, Sessions.apart_of_closed hmore.unclaimed⟩
  held := by
    intro hopen
    rw [hlog, Sessions.isOpen_append] at hopen
    obtain ⟨hbefore, hends⟩ := Sessions.open_of_closed hmore.unclaimed hopen
    exact hmore.row (h.held hbefore) hends
  fresh := by
    rw [hlog]
    exact fun e he => (List.mem_append.mp he).elim (h.fresh e) (hmore.fresh e)

/-- A claim goes through where there is no row. -/
theorem Inv.claim {s s' : St R} {f : Option JsString} (h : Inv s) (hrow : s.row = none)
    (hrow' : s'.row.isSome = true) (hlog : s'.log = s.log ++ [.claimed f]) : Inv s' where
  apart := by
    rw [hlog, Sessions.apart_append]
    refine ⟨h.apart, fun _ => ?_, trivial⟩
    by_contra hopen
    have hsome := h.held (by simpa using hopen)
    rw [hrow] at hsome
    cases hsome
  held := fun _ => hrow'
  fresh := by
    rw [hlog]
    exact fun e he => (List.mem_append.mp he).elim (h.fresh e)
      fun he => List.mem_singleton.mp he ▸ trivial

theorem step_inv {s s' : St R} {a : Act R} (h : Inv s) (hok : Orderly s a)
    (hs : step p s a = some s') : Inv s' := by
  cases a with
  | tick ms =>
      cases hs
      exact ⟨h.apart, h.held, h.fresh⟩
  | putIfAbsent f =>
      cases hs
      rw [putIfAbsent]
      split
      · next hrow => exact h.claim hrow rfl rfl
      · next row hrow =>
          refine h.keeps (keeps_same (List.forall_mem_singleton.mpr rfl)
            (List.forall_mem_singleton.mpr ?_)) rfl
          exact hok row hrow
  | get =>
      cases hs
      exact ⟨h.apart, h.held, h.fresh⟩
  | put result f =>
      cases hs
      exact ⟨h.apart, h.held, h.fresh⟩
  | invalidate =>
      cases hs
      refine h.keeps ⟨List.forall_mem_singleton.mpr rfl, by simp [Event.Fresh],
        fun _ hends => ?_⟩ rfl
      cases hends _ List.mem_cons_self
  | gc olderThanMs =>
      rw [step] at hs
      split at hs
      · next hany =>
          cases hs
          refine h.keeps ⟨List.forall_mem_singleton.mpr rfl, by simp [Event.Fresh],
            fun hsome hends => ?_⟩ rfl
          obtain ⟨row, hrow⟩ := Option.isSome_iff_exists.mp hsome
          rw [hrow, Option.any_some, decide_eq_true_eq] at hany
          have hdeleted := hends _ List.mem_cons_self
          have hpast : row.expiresAt ≤ s.now := le_trans hany (sub_le_self _ hok)
          simp [Event.ends, hrow, hpast] at hdeleted
      · cases hs
        exact h
  | resume k =>
      rw [step] at hs
      rw [Orderly] at hok
      split at hs
      · cases hs
      · next pc hpc =>
          rw [hpc] at hok
          obtain ⟨r, hresume, rfl⟩ := Option.map_eq_some_iff.mp hs
          cases pc with
          | refused f =>
              obtain rfl := Option.some.inj hresume
              obtain ⟨row, hrow, hfresh⟩ := hok
              exact h.keeps (existingAnswer_keeps hrow hfresh) rfl
          | getRead row =>
              obtain rfl := Option.some.inj hresume
              refine h.keeps (getAnswer_keeps fun r hr hlt => ?_) rfl
              cases hr
              exact hok hlt
          | putRead existing result f =>
              obtain rfl := Option.some.inj hresume
              exact h.keeps putAnswer_keeps rfl
          | done => cases hresume

theorem init_inv (now : Nat) : Inv (St.init R now) where
  apart := trivial
  held := fun h => nomatch h
  fresh := fun _ he => nomatch he

/-- In an orderly run the entry ends between two claims, and no answer rests on an entry
that is past its expiry. -/
theorem claimed_once {now : Nat} {s : St R} (h : Reach (step p) Orderly (St.init R now) s) :
    (∀ pre f mid f' post, s.log = pre ++ .claimed f :: mid ++ .claimed f' :: post →
      ∃ e ∈ mid, e.ends = true) ∧
    ∀ e ∈ s.log, e.Fresh := by
  have hinv : Inv s := h.invariant (init_inv now) fun _ _ _ => step_inv
  refine ⟨fun pre f mid f' post heq => ?_, hinv.fresh⟩
  have hapart := hinv.apart
  rw [heq] at hapart
  exact hapart.between rfl rfl

/-- An instance without a vault, whose entries live for ten milliseconds. -/
def briefly : Platform Bool where
  method := units "move"
  key := units "jmap-req-abc"
  ttlMs := 10
  ttl_pos := by decide
  maxResultBytes := 100
  sealCell := id
  unsealCell := id
  stringify b := .ok (if b then units "true" else units "false")
  parse s := .ok (s == units "true")

instance (s : St R) : (a : Act R) → Decidable (Orderly s a)
  | .putIfAbsent _ => inferInstanceAs (Decidable (∀ row ∈ s.row, s.now ≤ row.expiresAt))
  | .gc olderThanMs => inferInstanceAs (Decidable (0 ≤ olderThanMs))
  | .resume k =>
      show Decidable (match s.tasks[k]? with
        | some (.refused _) => ∃ row ∈ s.row, s.now ≤ row.expiresAt
        | some (.getRead (some row)) => row.expiresAt < s.now → ∀ r ∈ s.row, r.expiresAt ≤ s.now
        | _ => True) from
      match s.tasks[k]? with
      | some (.refused _) => inferInstanceAs (Decidable (∃ row ∈ s.row, s.now ≤ row.expiresAt))
      | some (.getRead (some row)) => inferInstanceAs
          (Decidable (row.expiresAt < s.now → ∀ r ∈ s.row, r.expiresAt ≤ s.now))
      | some (.getRead none) => .isTrue trivial
      | some (.putRead _ _ _) => .isTrue trivial
      | some .done => .isTrue trivial
      | none => .isTrue trivial
  | .tick _ => .isTrue trivial
  | .get => .isTrue trivial
  | .put _ _ => .isTrue trivial
  | .invalidate => .isTrue trivial

/-- What is logged of a run. -/
def logOf (as : List (Act Bool)) : Option (List (Event Bool)) :=
  (exec (step briefly) (St.init Bool 0) as).map St.log

/-- The row of a put at the start. -/
def doneRow : Row := ⟨none, some (units "true"), 0, 0, 0, 10, false⟩

/-- A claim, another that is refused, the result, and a caller that it is replayed to;
then a claim after the end of the row. -/
def moveRun : List (Act Bool) :=
  [.putIfAbsent none, .putIfAbsent none, .resume 1, .put true none, .resume 2, .get, .resume 3,
    .tick 11, .gc 0, .putIfAbsent none]

/-- What is logged between the claims. -/
def moveEvents : List (Event Bool) :=
  [.refused (pendingRow briefly 0 none) 0, .pending (pendingRow briefly 0 none) 0, .stored doneRow,
    .replayed true doneRow 1 0, .deleted (some (countReplay doneRow)) 11 false]

theorem claimed_once_move : ∃ s, Reach (step briefly) Orderly (St.init Bool 0) s ∧
    s.log = [] ++ .claimed none :: moveEvents ++ .claimed none :: [] ∧
    (∃ e ∈ moveEvents, e.ends = true) ∧ ∀ e ∈ s.log, e.Fresh := by
  have hrun : (exec (guarded (step briefly) fun s a => decide (Orderly s a)) (St.init Bool 0)
      moveRun).map St.log = some ([] ++ .claimed none :: moveEvents ++ .claimed none :: []) := by
    decide +kernel
  obtain ⟨s, hexec, hlog⟩ := Option.map_eq_some_iff.mp hrun
  have hreach : Reach (step briefly) Orderly (St.init Bool 0) s :=
    (reach_of_exec_guarded moveRun hexec).mono
      fun _ _ => of_decide_eq_true
  exact ⟨s, hreach, hlog, (claimed_once hreach).1 _ _ _ _ _ hlog, (claimed_once hreach).2⟩

/-- A completed row is replayed, and stands in the way, after its time; and of two
callers each is told that the claim is its own, one of them having read the key between an
invalidation and the claim of the other. -/
theorem expired_is_replayed :
    (∃ s, Reach (step briefly) Always (St.init Bool 0) s ∧
      Event.replayed true doneRow 0 11 ∈ s.log ∧ Event.refused doneRow 11 ∈ s.log ∧
        doneRow.expiresAt < 11) ∧
    ∃ s, Reach (step briefly) Always (St.init Bool 0) s ∧ ∃ pre post,
      s.log = pre ++ .claimed none :: [] ++ .claimed none :: post := by
  have hreplay : logOf [.put true none, .resume 0, .tick 11, .putIfAbsent none, .resume 1] =
      some [.stored doneRow, .refused doneRow 11, .replayed true doneRow 0 11] := by
    decide +kernel
  have hrace : logOf
      [.putIfAbsent none, .putIfAbsent none, .invalidate, .resume 1, .putIfAbsent none] =
      some [.claimed none, .refused (pendingRow briefly 0 none) 0,
        .deleted (some (pendingRow briefly 0 none)) 0 true, .claimed none, .claimed none] := by
    decide +kernel
  obtain ⟨s, hexec, hlog⟩ := Option.map_eq_some_iff.mp hreplay
  obtain ⟨s', hexec', hlog'⟩ := Option.map_eq_some_iff.mp hrace
  refine ⟨⟨s, reach_of_exec _ hexec, ?_, ?_, by decide +kernel⟩, s', reach_of_exec _ hexec',
    [_, _, _], [], hlog'⟩
  · rw [hlog]
    simp
  · rw [hlog]
    simp

end Blamejs.AgentIdempotency
