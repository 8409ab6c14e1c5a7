import Blamejs.Ref.Semaphore
import Mathlib.Data.List.Nodup

/-!
# What a counting lock keeps

Both classes count the grants that are outstanding: `Kind.Counts` says what that takes of a
`Kind`, and all else is proved of any kind that counts. A slot is free only while nobody waits,
so a grant at once goes to the latest call there is and one by `release` to the oldest waiter:
the grants are in the order of the calls, `Inv.order`. A listener that is due belongs to a
waiter, `Inv.waitsFor`, which is why it always has somebody to reject.
-/

namespace Blamejs.Semaphore

open Run

variable {σ S : Type} {k : Kind S} {used : S → Nat} {limit : Nat}
  {s s' : St σ S}

/-- `used` is the number of slots taken, of so many. -/
structure Kind.Counts (k : Kind S) (used : S → Nat) (limit : Nat) : Prop where
  free : ∀ c, k.free c = true ↔ used c < limit
  taken : ∀ c, used c < limit → used (k.taken c) = used c + 1
  idle : ∀ c, k.idle c = true ↔ used c = 0
  putBack : ∀ c, used c ≤ limit → used (k.putBack c) = used c - 1

theorem semaphore_counts (limit : Nat) : (semaphore limit).Counts id limit where
  free _ := decide_eq_true_iff
  taken _ _ := rfl
  idle _ := decide_eq_true_iff
  putBack _ _ := rfl

theorem mutex_counts : mutex.Counts Bool.toNat 1 where
  free c := by cases c <;> decide
  taken c h := by cases c <;> first | rfl | exact absurd h (by decide)
  idle c := by cases c <;> decide
  putBack c _ := by cases c <;> rfl

/-- The calls that wait, in the order of the queue. -/
def St.waiting (s : St σ S) : List Nat := s.waiters.map Waiter.call

structure Inv (used : S → Nat) (limit : Nat) (s : St σ S) : Prop where
  count : used s.slots = s.held.length
  bounded : used s.slots ≤ limit
  full : used s.slots < limit → s.waiters = []
  order : (s.granted ++ s.waiting).Pairwise (· < ·)
  old : ∀ c ∈ s.granted ++ s.waiting, c < s.calls
  oldRejected : ∀ c ∈ s.rejected.map Prod.fst, c < s.calls ∧ c ∉ s.granted ++ s.waiting
  once : (s.rejected.map Prod.fst).Nodup
  all : ∀ c < s.calls, c ∈ s.granted ++ s.waiting ∨ c ∈ s.rejected.map Prod.fst
  holds : ∀ c ∈ s.held, c ∈ s.granted
  distinct : s.held.Nodup
  waitsFor : ∀ c ∈ s.due, ∃ w ∈ s.waiters, w.call = c ∧ w.signal.isSome = true
  told : ∀ w ∈ s.waiters, ∀ sig ∈ s.aborted, w.signal = some sig → w.call ∈ s.due
  struck : ∀ c ∈ s.hit, c ∈ s.due ∨ c ∈ s.overtaken ∨ c ∈ s.rejected.map Prod.fst

theorem Inv.init {slots : S} (hused : used slots = 0) : Inv used limit (St.init σ slots) where
  count := hused
  bounded := hused ▸ Nat.zero_le limit
  full _ := rfl
  order := .nil
  old _ hc := (nomatch hc)
  oldRejected _ hc := (nomatch hc)
  once := List.nodup_nil
  all _ hc := (nomatch hc)
  holds _ hc := (nomatch hc)
  distinct := List.nodup_nil
  waitsFor _ hc := (nomatch hc)
  told _ hw := (nomatch hw)
  struck _ hc := (nomatch hc)

/-! ## `acquire` -/

/-- The call that comes next follows all that were granted or wait. -/
theorem Inv.order_next (h : Inv used limit s) :
    (s.granted ++ s.waiting ++ [s.calls]).Pairwise (· < ·) :=
  List.pairwise_append.mpr ⟨h.order, List.pairwise_singleton _ _, fun c hc c' hc' => by
    rw [List.mem_singleton.mp hc']
    exact h.old c hc⟩

theorem Inv.old_next (h : Inv used limit s) :
    ∀ c ∈ s.granted ++ s.waiting ++ [s.calls], c < s.calls + 1 := by
  intro c hc
  rcases List.mem_append.mp hc with hc | hc
  · exact Nat.lt_succ_of_lt (h.old c hc)
  · rw [List.mem_singleton.mp hc]
    exact Nat.lt_succ_self _

theorem Inv.oldRejected_next (h : Inv used limit s) :
    ∀ c ∈ s.rejected.map Prod.fst,
      c < s.calls + 1 ∧ c ∉ s.granted ++ s.waiting ++ [s.calls] := by
  intro c hc
  obtain ⟨hlt, hother⟩ := h.oldRejected c hc
  refine ⟨Nat.lt_succ_of_lt hlt, fun hmem => ?_⟩
  rcases List.mem_append.mp hmem with hmem | hmem
  · exact hother hmem
  · rw [List.mem_singleton.mp hmem] at hlt
    exact Nat.lt_irrefl _ hlt

theorem Inv.all_next (h : Inv used limit s) :
    ∀ c < s.calls + 1,
      c ∈ s.granted ++ s.waiting ++ [s.calls] ∨ c ∈ s.rejected.map Prod.fst := by
  intro c hc
  rcases Nat.lt_succ_iff_lt_or_eq.mp hc with hc | rfl
  · exact (h.all c hc).imp_left (List.mem_append_left _)
  · exact .inl (List.mem_append_right _ (List.mem_singleton_self _))

theorem Inv.grant (hk : k.Counts used limit) (h : Inv used limit s)
    (hfree : k.free s.slots = true) :
    Inv used limit
      { s with
        calls := s.calls + 1
        slots := k.taken s.slots
        granted := s.granted ++ [s.calls]
        held := s.calls :: s.held } := by
  have hroom := (hk.free _).mp hfree
  have htaken := hk.taken _ hroom
  have hnobody := h.full hroom
  -- the list of the grants and the waiters grows at its end, where no waiter stands
  have hlist : s.granted ++ [s.calls] ++ s.waiting = s.granted ++ s.waiting ++ [s.calls] := by
    rw [St.waiting, hnobody, List.map_nil, List.append_nil, List.append_nil]
  refine { h with
    count := by rw [htaken, h.count, List.length_cons]
    bounded := by rw [htaken]; exact hroom
    full := fun _ => hnobody
    order := ?_
    old := ?_
    oldRejected := ?_
    all := ?_
    holds := fun c hc => ?_
    distinct := List.nodup_cons.mpr ⟨fun hmem => ?_, h.distinct⟩ }
  · exact (congrArg (List.Pairwise (· < ·)) hlist).mpr h.order_next
  · exact fun c hc => h.old_next c (hlist ▸ hc)
  · exact fun c hc => ⟨(h.oldRejected_next c hc).1,
      fun hmem => (h.oldRejected_next c hc).2 (hlist ▸ hmem)⟩
  · exact fun c hc => (h.all_next c hc).imp_left fun hmem => hlist ▸ hmem
  · rcases List.mem_cons.mp hc with rfl | hc
    · exact List.mem_append_right _ (List.mem_singleton_self _)
    · exact List.mem_append_left _ (h.holds c hc)
  · exact Nat.lt_irrefl _ (h.old _ (List.mem_append_left _ (h.holds _ hmem)))

theorem Inv.refuse {text : String} (h : Inv used limit s) :
    Inv used limit
      { s with calls := s.calls + 1, rejected := s.rejected ++ [(s.calls, text)] } := by
  have hmap : (s.rejected ++ [(s.calls, text)]).map Prod.fst =
      s.rejected.map Prod.fst ++ [s.calls] := List.map_append
  refine { h with
    old := fun c hc => Nat.lt_succ_of_lt (h.old c hc)
    oldRejected := fun c hc => ?_
    once := ?_
    all := fun c hc => ?_
    struck := fun c hc => ?_ }
  · rw [hmap] at hc
    rcases List.mem_append.mp hc with hc | hc
    · exact ⟨Nat.lt_succ_of_lt (h.oldRejected c hc).1, (h.oldRejected c hc).2⟩
    · rw [List.mem_singleton.mp hc]
      exact ⟨Nat.lt_succ_self _, fun hmem => Nat.lt_irrefl _ (h.old _ hmem)⟩
  · rw [hmap]
    exact List.concat_eq_append ▸ List.Nodup.concat
      (fun hmem => Nat.lt_irrefl _ (h.oldRejected _ hmem).1) h.once
  · rw [hmap]
    rcases Nat.lt_succ_iff_lt_or_eq.mp hc with hc | rfl
    · exact (h.all c hc).imp_right (List.mem_append_left _)
    · exact .inr (List.mem_append_right _ (List.mem_singleton_self _))
  · rw [hmap]
    exact (h.struck c hc).imp_right (Or.imp_right (List.mem_append_left _))

theorem Inv.queue {signal : Option σ} (hk : k.Counts used limit) (h : Inv used limit s)
    (hfull : ¬ k.free s.slots = true) (hsignal : ¬ ∃ sig ∈ signal, sig ∈ s.aborted) :
    Inv used limit
      { s with calls := s.calls + 1, waiters := s.waiters ++ [⟨s.calls, signal⟩] } := by
  have hlist : s.granted ++ (s.waiters ++ [Waiter.mk s.calls signal]).map Waiter.call =
      s.granted ++ s.waiting ++ [s.calls] := by
    rw [List.map_append, List.append_assoc]
    rfl
  refine { h with
    full := fun hroom => absurd ((hk.free _).mpr hroom) hfull
    order := ?_
    old := ?_
    oldRejected := ?_
    all := ?_
    waitsFor := fun c hc => ?_
    told := fun w hw sig hsig heq => ?_ }
  · exact (congrArg (List.Pairwise (· < ·)) hlist).mpr h.order_next
  · exact fun c hc => h.old_next c (hlist ▸ hc)
  · exact fun c hc => ⟨(h.oldRejected_next c hc).1,
      fun hmem => (h.oldRejected_next c hc).2 (hlist ▸ hmem)⟩
  · exact fun c hc => (h.all_next c hc).imp_left fun hmem => hlist ▸ hmem
  · obtain ⟨w, hw, hrest⟩ := h.waitsFor c hc
    exact ⟨w, List.mem_append_left _ hw, hrest⟩
  · rcases List.mem_append.mp hw with hw | hw
    · exact h.told w hw sig hsig heq
    · cases List.mem_singleton.mp hw
      exact absurd ⟨sig, heq, hsig⟩ hsignal

variable [DecidableEq σ]

theorem Inv.acquire {signal : Option σ} (hk : k.Counts used limit) (h : Inv used limit s) :
    Inv used limit (acquire k s signal) := by
  rw [Semaphore.acquire]
  split
  · next hfree => exact h.grant hk hfree
  · next hfull =>
      split
      · exact h.refuse
      · next hsignal => exact h.queue hk hfull hsignal

/-! ## `release` -/

omit [DecidableEq σ] in
/-- A holder gives its slot back, or the first waiter takes it over. -/
theorem Inv.release {holder : Nat} (hk : k.Counts used limit) (h : Inv used limit s)
    (hholder : holder ∈ s.held) :
    ∃ s', release k s = .ok s' ∧ Inv used limit { s' with held := s'.held.erase holder } := by
  have hcount := h.count
  have hheld := List.length_pos_of_mem hholder
  have hbusy : ¬ k.idle s.slots = true := fun hidle => by
    have := (hk.idle _).mp hidle
    omega
  have hlength := List.length_erase_of_mem hholder
  cases hwaiters : s.waiters with
  | nil =>
      have hrun : Semaphore.release k s = .ok { s with slots := k.putBack s.slots } := by
        rw [Semaphore.release, if_neg hbusy, hwaiters]
      refine ⟨_, hrun, { h with
        count := ?_
        bounded := ?_
        full := fun _ => hwaiters
        holds := fun c hc => h.holds c (List.mem_of_mem_erase hc)
        distinct := h.distinct.erase holder }⟩
      · dsimp only
        rw [hk.putBack _ h.bounded, hlength, hcount]
      · dsimp only
        rw [hk.putBack _ h.bounded]
        exact Nat.le_trans (Nat.sub_le _ _) h.bounded
  | cons next rest =>
      have hlist : s.granted ++ [next.call] ++ rest.map Waiter.call =
          s.granted ++ s.waiting := by
        rw [St.waiting, hwaiters, List.map_cons, List.append_assoc, List.singleton_append]
      have hfirst : next ∈ s.waiters := hwaiters ▸ List.mem_cons_self
      have hnew : next.call ∉ s.granted := fun hmem =>
        Nat.lt_irrefl _ ((List.pairwise_append.mp h.order).2.2 _ hmem _
          (List.mem_map_of_mem hfirst))
      have hother : ∀ w ∈ rest, w.call ≠ next.call := by
        intro w hw
        have hsorted := (List.pairwise_append.mp h.order).2.1
        rw [St.waiting, hwaiters, List.map_cons] at hsorted
        exact (Nat.ne_of_lt ((List.pairwise_cons.mp hsorted).1 _ (List.mem_map_of_mem hw))).symm
      have hne : holder ≠ next.call := fun heq => hnew (heq ▸ h.holds _ hholder)
      have herase : (next.call :: s.held).erase holder = next.call :: s.held.erase holder :=
        List.erase_cons_tail (by rw [beq_iff_eq]; exact hne.symm)
      have hdue : ∀ c, c ≠ next.call →
          (c ∈ (if next.signal.isSome then s.due.filter (· ≠ next.call) else s.due) ↔
            c ∈ s.due) := by
        intro c hc
        split
        · rw [List.mem_filter, decide_eq_true_eq]
          exact and_iff_left hc
        · exact Iff.rfl
      have hover : ∀ c ∈ s.overtaken,
          c ∈ if next.call ∈ s.due then next.call :: s.overtaken else s.overtaken := by
        intro c hc
        split
        · exact List.mem_cons_of_mem _ hc
        · exact hc
      have hrun : Semaphore.release k s = .ok { s with
          waiters := rest
          due := if next.signal.isSome then s.due.filter (· ≠ next.call) else s.due
          granted := s.granted ++ [next.call]
          held := next.call :: s.held
          overtaken := if next.call ∈ s.due then next.call :: s.overtaken
            else s.overtaken } := by
        rw [Semaphore.release, if_neg hbusy, hwaiters]
      refine ⟨_, hrun, { h with
        count := ?_
        full := fun hroom => ?_
        order := ?_
        old := fun c hc => h.old c (hlist ▸ hc)
        oldRejected := fun c hc => ⟨(h.oldRejected c hc).1, fun hmem =>
          (h.oldRejected c hc).2 (hlist ▸ hmem)⟩
        all := fun c hc => (h.all c hc).imp_left fun hmem => hlist ▸ hmem
        holds := fun c hc => ?_
        distinct := ?_
        waitsFor := fun c hc => ?_
        told := fun w hw sig hsig heq => ?_
        struck := fun c hc => ?_ }⟩
      · dsimp only
        rw [herase, List.length_cons, hlength, hcount]
        omega
      · have := h.full hroom
        rw [hwaiters] at this
        cases this
      · exact (congrArg (List.Pairwise (· < ·)) hlist).mpr h.order
      · rcases List.mem_cons.mp (herase ▸ hc) with rfl | hc
        · exact List.mem_append_right _ (List.mem_singleton_self _)
        · exact List.mem_append_left _ (h.holds c (List.mem_of_mem_erase hc))
      · dsimp only
        rw [herase]
        exact List.nodup_cons.mpr
          ⟨fun hmem => hnew (h.holds _ (List.mem_of_mem_erase hmem)), h.distinct.erase holder⟩
      · -- the listener of the waiter that leaves goes with it
        by_cases heq : c = next.call
        · dsimp only at hc
          split at hc
          · exact absurd heq (of_decide_eq_true (List.mem_filter.mp hc).2)
          · next hplain =>
              obtain ⟨w, hw, hcall, hsome⟩ := h.waitsFor c hc
              rcases List.mem_cons.mp (hwaiters ▸ hw) with rfl | hw
              · exact absurd hsome hplain
              · exact ⟨w, hw, hcall, hsome⟩
        · obtain ⟨w, hw, hcall, hsome⟩ := h.waitsFor c ((hdue c heq).mp hc)
          rcases List.mem_cons.mp (hwaiters ▸ hw) with rfl | hw
          · exact absurd hcall.symm heq
          · exact ⟨w, hw, hcall, hsome⟩
      · refine (hdue _ (hother w hw)).mpr (h.told w ?_ sig hsig heq)
        exact hwaiters ▸ List.mem_cons_of_mem _ hw
      · rcases h.struck c hc with hstill | hpast | hrej
        · by_cases heq : c = next.call
          · refine .inr (.inl ?_)
            dsimp only
            rw [if_pos (heq ▸ hstill : next.call ∈ s.due), heq]
            exact List.mem_cons_self
          · exact .inl ((hdue c heq).mpr hstill)
        · exact .inr (.inl (hover c hpast))
        · exact .inr (.inr hrej)

/-! ## A signal -/

theorem Inv.abort {sig : σ} (h : Inv used limit s) :
    Inv used limit
      { s with
        aborted := sig :: s.aborted
        due := s.due ++ (s.waiters.filter (·.signal = some sig)).map Waiter.call
        hit := s.hit ++ (s.waiters.filter (·.signal = some sig)).map Waiter.call } := by
  refine { h with
    waitsFor := fun c hc => ?_
    told := fun w hw sig' hsig' heq => ?_
    struck := fun c hc => ?_ }
  · rcases List.mem_append.mp hc with hc | hc
    · exact h.waitsFor c hc
    · obtain ⟨w, hw, rfl⟩ := List.mem_map.mp hc
      obtain ⟨hw, hsig⟩ := List.mem_filter.mp hw
      exact ⟨w, hw, rfl, by rw [of_decide_eq_true hsig]; rfl⟩
  · rcases List.mem_cons.mp hsig' with rfl | hsig'
    · exact List.mem_append_right _
        (List.mem_map_of_mem (List.mem_filter.mpr ⟨hw, decide_eq_true heq⟩))
    · exact List.mem_append_left _ (h.told w hw sig' hsig' heq)
  · rcases List.mem_append.mp hc with hc | hc
    · exact (h.struck c hc).imp_left (List.mem_append_left _)
    · exact .inl (List.mem_append_right _ hc)

omit [DecidableEq σ] in
/-- A listener that is due rejects its waiter. -/
theorem Inv.notify {call : Nat} (h : Inv used limit s) (hdue : call ∈ s.due) :
    Inv used limit (onAbort k { s with due := s.due.filter (· ≠ call) } call) := by
  obtain ⟨w₀, hw₀, hcall₀, -⟩ := h.waitsFor call hdue
  have hwaits : call ∈ s.waiting := List.mem_map.mpr ⟨w₀, hw₀, hcall₀⟩
  have hsub : List.Sublist ((s.waiters.filter (·.call ≠ call)).map Waiter.call) s.waiting :=
    List.filter_sublist.map _
  have hmem : ∀ c ∈ s.granted ++ (s.waiters.filter (·.call ≠ call)).map Waiter.call,
      c ∈ s.granted ++ s.waiting := fun c hc =>
    ((List.Sublist.refl s.granted).append hsub).subset hc
  have hgone : call ∉ s.granted ++ (s.waiters.filter (·.call ≠ call)).map Waiter.call := by
    intro hc
    rcases List.mem_append.mp hc with hc | hc
    · exact Nat.lt_irrefl _ ((List.pairwise_append.mp h.order).2.2 _ hc _ hwaits)
    · obtain ⟨w, hw, heq⟩ := List.mem_map.mp hc
      exact of_decide_eq_true (List.mem_filter.mp hw).2 heq
  have hkept : ∀ c ∈ s.granted ++ s.waiting, c ≠ call →
      c ∈ s.granted ++ (s.waiters.filter (·.call ≠ call)).map Waiter.call := by
    intro c hc hne
    rcases List.mem_append.mp hc with hc | hc
    · exact List.mem_append_left _ hc
    · obtain ⟨w, hw, rfl⟩ := List.mem_map.mp hc
      exact List.mem_append_right _
        (List.mem_map_of_mem (List.mem_filter.mpr ⟨hw, decide_eq_true hne⟩))
  have hmap : ∀ text : String, (s.rejected ++ [(call, text)]).map Prod.fst =
      s.rejected.map Prod.fst ++ [call] := fun text => List.map_append
  rw [onAbort]
  refine (congrArg (Inv used limit) (if_pos hwaits)).mpr { h with
    full := fun hroom => ?_
    order := h.order.sublist ((List.Sublist.refl _).append hsub)
    old := fun c hc => h.old c (hmem c hc)
    oldRejected := fun c hc => ?_
    once := ?_
    all := fun c hc => ?_
    waitsFor := fun c hc => ?_
    told := fun w hw sig hsig heq => ?_
    struck := fun c hc => ?_ }
  · dsimp only
    rw [h.full hroom, List.filter_nil]
  · rw [hmap] at hc
    rcases List.mem_append.mp hc with hc | hc
    · exact ⟨(h.oldRejected c hc).1, fun hin => (h.oldRejected c hc).2 (hmem c hin)⟩
    · rw [List.mem_singleton.mp hc]
      exact ⟨h.old call (List.mem_append_right _ hwaits), hgone⟩
  · rw [hmap]
    exact List.concat_eq_append ▸ List.Nodup.concat
      (fun hmem => (h.oldRejected _ hmem).2 (List.mem_append_right _ hwaits)) h.once
  · rw [hmap]
    by_cases heq : c = call
    · exact .inr (List.mem_append_right _ (List.mem_singleton.mpr heq))
    · exact (h.all c hc).imp (hkept c · heq) (List.mem_append_left _)
  · obtain ⟨hc, hne⟩ := List.mem_filter.mp hc
    obtain ⟨w, hw, hcall, hsome⟩ := h.waitsFor c hc
    exact ⟨w, List.mem_filter.mpr ⟨hw, hcall ▸ hne⟩, hcall, hsome⟩
  · obtain ⟨hw, hne⟩ := List.mem_filter.mp hw
    exact List.mem_filter.mpr ⟨h.told w hw sig hsig heq, hne⟩
  · rw [hmap]
    by_cases heq : c = call
    · exact .inr (.inr (List.mem_append_right _ (List.mem_singleton.mpr heq)))
    · exact (h.struck c hc).imp
        (fun hin => List.mem_filter.mpr ⟨hin, decide_eq_true heq⟩)
        (Or.imp_right (List.mem_append_left _))

theorem Inv.step {a : Act σ} (hk : k.Counts used limit) (h : Inv used limit s)
    (hs : step k s a = some s') : Inv used limit s' := by
  cases a with
  | acquire signal =>
      cases hs
      exact h.acquire hk
  | release holder =>
      rw [Semaphore.step] at hs
      split at hs
      · next hholder =>
          obtain ⟨s'', hrelease, hinv⟩ := h.release hk hholder
          rw [hrelease] at hs
          cases hs
          exact hinv
      · cases hs
  | abort sig =>
      rw [Semaphore.step] at hs
      split at hs
      · cases hs
      · cases hs
        exact h.abort
  | notify call =>
      rw [Semaphore.step] at hs
      split at hs
      · next hdue =>
          cases hs
          exact h.notify hdue
      · cases hs

/-! ## What a run does -/

/-- What the callers rely on in a state of the run. A call has its place in one of the three
lists; `cut` is about the waiters there were when their signal fired, once it has run their
listeners. -/
structure Correct (k : Kind S) (used : S → Nat) (limit : Nat) (s : St σ S) : Prop where
  outstanding : s.held.length = used s.slots
  bounded : s.held.length ≤ limit
  full : s.held.length < limit → s.waiters = []
  arrival : (s.granted ++ s.waiting).Pairwise (· < ·)
  settled : ∀ c < s.calls,
    (c ∈ s.granted ++ s.waiting ∧ c ∉ s.rejected.map Prod.fst) ∨
      (c ∉ s.granted ++ s.waiting ∧ (s.rejected.map Prod.fst).count c = 1)
  cut : ∀ c ∈ s.hit, c ∉ s.due → c ∉ s.overtaken →
    (s.rejected.map Prod.fst).count c = 1 ∧ c ∉ s.granted ∧ c ∉ s.held
  left : s.due = [] → ∀ w ∈ s.waiters, ∀ sig ∈ s.aborted, w.signal ≠ some sig
  ready : ∀ holder ∈ s.held, ∃ s', step k s (.release holder) = some s'

theorem Inv.correct (hk : k.Counts used limit) (h : Inv used limit s) :
    Correct k used limit s where
  outstanding := h.count.symm
  bounded := h.count ▸ h.bounded
  full hroom := h.full (h.count ▸ hroom)
  arrival := h.order
  settled c hc := by
    by_cases hrej : c ∈ s.rejected.map Prod.fst
    · exact .inr ⟨(h.oldRejected c hrej).2, List.count_eq_one_of_mem h.once hrej⟩
    · exact .inl ⟨(h.all c hc).resolve_right hrej, hrej⟩
  cut c hhit hdue hover := by
    have hrej := ((h.struck c hhit).resolve_left hdue).resolve_left hover
    have hother := (h.oldRejected c hrej).2
    have hgranted : c ∉ s.granted := fun hmem => hother (List.mem_append_left _ hmem)
    exact ⟨List.count_eq_one_of_mem h.once hrej, hgranted,
      fun hheld => hgranted (h.holds c hheld)⟩
  left hdue w hw sig hsig heq := by
    have := h.told w hw sig hsig heq
    rw [hdue] at this
    cases this
  ready holder hholder := by
    obtain ⟨s', hrelease, -⟩ := h.release hk hholder
    exact ⟨{ s' with held := s'.held.erase holder }, by
      rw [Semaphore.step, if_pos hholder, hrelease]⟩

theorem correct_of_counts {slots : S} (hk : k.Counts used limit) (hused : used slots = 0)
    (h : Reach (step k) Always (St.init σ slots) s) : Correct k used limit s :=
  (h.invariant (I := Inv used limit) (Inv.init hused)
    fun _ _ _ hinv _ hs => hinv.step hk hs).correct hk

/-- No `release` runs inside the dispatch of an abort. -/
def Apart (s : St σ S) (a : Act σ) : Prop := ∀ holder, a = .release holder → s.due = []

theorem overtaken_eq_nil {slots : S} (h : Reach (step k) Apart (St.init σ slots) s) :
    s.overtaken = [] := by
  refine h.invariant (I := fun s => s.overtaken = []) rfl ?_
  intro s a s' hnone hapart hs
  cases a with
  | acquire signal =>
      cases hs
      rw [acquire]
      split
      · exact hnone
      · split <;> exact hnone
  | release holder =>
      have hdue := hapart holder rfl
      rw [step] at hs
      split at hs
      · unfold release at hs
        split at hs
        · next s'' hrelease =>
            cases hs
            split at hrelease
            · cases hrelease
            · split at hrelease
              · cases hrelease
                dsimp only
                rw [hdue, if_neg List.not_mem_nil]
                exact hnone
              · cases hrelease
                exact hnone
        · cases hs
      · cases hs
  | abort sig =>
      rw [step] at hs
      split at hs
      · cases hs
      · cases hs
        exact hnone
  | notify call =>
      rw [step] at hs
      split at hs
      · cases hs
        rw [onAbort]
        split <;> exact hnone
      · cases hs

/-- The signals that fired have all that waited on them refused, once each, and none of these
calls gets a slot. -/
def Refused (s : St σ S) : Prop :=
  ∀ c ∈ s.hit, c ∉ s.due →
    (s.rejected.map Prod.fst).count c = 1 ∧ c ∉ s.granted ∧ c ∉ s.held

theorem refused_of_counts {slots : S} (hk : k.Counts used limit) (hused : used slots = 0)
    (h : Reach (step k) Apart (St.init σ slots) s) : Refused s := by
  have hcorrect := correct_of_counts hk hused h.always
  intro c hhit hdue
  refine hcorrect.cut c hhit hdue ?_
  rw [overtaken_eq_nil h]
  exact List.not_mem_nil

/-- In every run of a `Semaphore`, and of a `Mutex` with the limit 1, the outstanding grants are
those that are counted, within the limit; nobody waits beside a free slot; the grants are in the
order of the calls. Where no `release` runs inside the dispatch of an abort a waiter whose signal
fires is rejected, once, and gets no slot. -/
theorem slots_of_reach {limit : Nat} {s : St σ Nat} {m : St σ Bool}
    (hs : Reach (step (semaphore limit)) Always (St.init σ 0) s)
    (hm : Reach (step mutex) Always (St.init σ false) m) :
    (Correct (semaphore limit) id limit s ∧
      (Reach (step (semaphore limit)) Apart (St.init σ 0) s → Refused s)) ∧
    (Correct mutex Bool.toNat 1 m ∧
      (Reach (step mutex) Apart (St.init σ false) m → Refused m)) :=
  ⟨⟨correct_of_counts (semaphore_counts limit) rfl hs,
      refused_of_counts (semaphore_counts limit) rfl⟩,
    correct_of_counts mutex_counts rfl hm, refused_of_counts mutex_counts rfl⟩

/-- One slot, a waiter whose signal fires, and a second one that takes the slot over. -/
theorem slots_of_reach_handoff :
    ∃ (s : St Unit Nat) (m : St Unit Bool),
      (Correct (semaphore 1) id 1 s ∧
        (Reach (step (semaphore 1)) Apart (St.init Unit 0) s → Refused s)) ∧
      (Correct mutex Bool.toNat 1 m ∧
        (Reach (step mutex) Apart (St.init Unit false) m → Refused m)) ∧
      Reach (step (semaphore 1)) Apart (St.init Unit 0) s ∧
      s.granted = [0, 2] ∧ s.rejected.map Prod.fst = [1] := by
  have hcalls : ∀ (s : St Unit Nat) (a : Act Unit), s.due = [] → Apart s a :=
    fun _ _ hdue _ _ => hdue
  have hs : Reach (step (semaphore 1)) Apart (St.init Unit 0)
      (⟨1, [], [()], [], 3, [0, 2], [(1, "Semaphore" ++ ".acquire aborted while waiting")], [2],
        [1], []⟩ : St Unit Nat) :=
    Reach.next (a := .release 0) (.next (a := .notify 1) (.next (a := .abort ())
      (.next (a := .acquire none) (.next (a := .acquire (some ()))
        (.next (a := .acquire none) .start (hcalls _ _ rfl) rfl) (hcalls _ _ rfl) rfl)
          (hcalls _ _ rfl) rfl) (hcalls _ _ rfl) rfl) (fun _ h => nomatch h) rfl)
            (hcalls _ _ rfl) rfl
  have hall := hs.always
  exact ⟨_, _, (slots_of_reach hall .start).1, (slots_of_reach hall .start).2, hs, rfl, rfl⟩

/-- A holder releases in its own listener on the signal of the one that waits: `release` does
not look at the signal, and the waiter is granted and never rejected. -/
theorem overtaken_holds :
    ∃ s : St Unit Nat, Reach (step (semaphore 1)) Always (St.init Unit 0) s ∧
      s.aborted = [()] ∧ s.hit = [1] ∧ s.due = [] ∧ s.held = [1] ∧ s.rejected = [] ∧
      ¬ Refused s := by
  refine ⟨⟨1, [], [()], [], 2, [0, 1], [], [1], [1], [1]⟩,
    Reach.next (a := .release 0) (.next (a := .abort ()) (.next (a := .acquire (some ()))
      (.next (a := .acquire none) .start trivial rfl) trivial rfl) trivial rfl) trivial rfl,
    rfl, rfl, rfl, rfl, rfl, fun h => ?_⟩
  exact (h 1 List.mem_cons_self List.not_mem_nil).2.2 List.mem_cons_self

end Blamejs.Semaphore
