import Blamejs.Ref.Inbox
import Blamejs.Js.DateOrder
import Blamejs.Lib.Checked
import Blamejs.Lib.Run
import Mathlib.Tactic.Linarith

/-!
# What an inbox takes twice

A message is taken when it has no row, and then gets one; so it is taken again only after a sweep
has deleted the row, and sweeps delete rows by age. Only sqlite's may be wrong about it: its clock
writes a blank where `toISOString` writes a T, so on the day of the stale date every row is older.
-/

namespace Blamejs.Inbox

open Blamejs.Js Run

variable {E R : Type} {o : Opts} {s s' : St} {now : Instant} {rows rows' : Rows}

/-- The retention is over at the second time. -/
def Apart (o : Opts) (t t' : Instant) : Prop :=
  match o.retentionDays with
  | .days n _ => (t.val : Rat) ≤ ago t' n
  | .forever => False

/-- A row may be deleted. -/
def Old (o : Opts) (now : Instant) (row : Row) : Prop :=
  match o.retentionDays with
  | .days n _ => (row.receivedAt.val : Rat) ≤ ago now n ∧
      (row.processedAt = none → (row.receivedAt.val : Rat) ≤ ago now (n * 2))
  | .forever => False

/-- A row of the day of the stale date, and later than this. -/
def LaterThatDay (now : Instant) (days : Rat) (row : Row) : Prop :=
  Date.dayOf row.receivedAt.val = Date.dayOf (toTime (ago now days)) ∧
    ago now days < row.receivedAt.val

/-- An interval of days goes back that many times 24 hours, as it does in a session in UTC. -/
def WholeDays (o : Opts) (now : Instant) (days : Rat) : Prop :=
  o.daysBefore now days = ago now days ∧ o.daysBefore now (days * 2) = ago now (days * 2)

instance (now : Instant) (days : Rat) (row : Row) : Decidable (LaterThatDay now days row) :=
  inferInstanceAs (Decidable (_ ∧ _))

/-- No sweep of sqlite comes on a row that is later that day, and those of postgres are in a
session whose days are whole. -/
def ByDay (o : Opts) (s : St) : Act E R → Prop
  | .handle _ _ _ => True
  | .sweep now =>
      match o.dialect, o.retentionDays with
      | .sqlite, .days n _ => ∀ k row, s.rows k = some row →
          ¬ LaterThatDay now (if row.processedAt.isSome then n else n * 2) row
      | .postgres, .days n _ => WholeDays o now n
      | _, .forever => True

/-! ## Handling -/

/-- What a call does to the table: it fails or finds a row, or it runs the handler. -/
theorem handle_cases (o : Opts) (now : Instant) (r : ReceiveOpts) (handler : Except E R)
    (rows : Rows) :
    ((handle o now r handler rows).2 = rows ∧
      ∀ out, (handle o now r handler rows).1 = .ok out → out.fresh = false) ∨
    ∃ inner, handler = .ok inner ∧ rows r.key = none ∧
      handle o now r handler rows = (.ok ⟨true, some inner⟩,
        Function.update rows r.key (some ⟨now, some now, r.metadata⟩)) := by
  rw [handle, transaction]
  cases hvalid : validateReceiveOpts (E := E) o r with
  | error e =>
      left
      simp [recordReceive, hvalid, bind, Except.bind]
  | ok u =>
      by_cases hlarge : (r.metadata.any fun m => o.maxPayloadBytes < (utf8 m).length) = true
      · left
        simp [recordReceive, hvalid, hlarge, bind, Except.bind, throw, throwThe,
          MonadExceptOf.throw]
      · by_cases hrow : rows r.key = none
        · cases handler with
          | error e =>
              left
              simp [recordReceive, hvalid, hlarge, hrow, bind, Except.bind, throw, throwThe,
                MonadExceptOf.throw, pure, Except.pure]
          | ok inner =>
              refine .inr ⟨inner, rfl, hrow, ?_⟩
              simp [recordReceive, markProcessed, hvalid, hlarge, hrow, bind, Except.bind,
                pure, Except.pure]
        · left
          simp [recordReceive, hvalid, hlarge, hrow, bind, Except.bind, pure, Except.pure]

theorem step_cases {a : Act E R} (h : step o s a = some s') :
    (∃ now r handler, a = .handle now r handler ∧ s.clock ≤ now ∧
      (s' = ⟨now, s.rows, s.log⟩ ∨ s.rows r.key = none ∧
        s' = ⟨now, Function.update s.rows r.key (some ⟨now, some now, r.metadata⟩),
          s.log ++ [⟨r.key, now⟩]⟩)) ∨
    ∃ now, a = .sweep now ∧ s.clock ≤ now ∧
      s' = ⟨now, (sweep o now s.rows).getD s.rows, s.log⟩ := by
  cases a with
  | handle now r handler =>
      rw [step] at h
      split at h
      · next hle =>
          refine .inl ⟨now, r, handler, rfl, hle, ?_⟩
          have hs' := (Option.some.inj h).symm
          rcases handle_cases o now r handler s.rows with ⟨hrows, hfresh⟩ | ⟨inner, -, hrow, heq⟩
          · left
            rw [hrows] at hs'
            split at hs'
            · next hres => exact absurd (hfresh _ hres) (by simp)
            · exact hs'
          · right
            rw [heq] at hs'
            exact ⟨hrow, hs'⟩
      · cases h
  | sweep now =>
      rw [step] at h
      split at h
      · next hle => exact .inr ⟨now, rfl, hle, (Option.some.inj h).symm⟩
      · cases h

/-! ## Sweeping -/

theorem year_bounds (t : Instant) :
    0 ≤ Date.getUTCFullYear t.val ∧ Date.getUTCFullYear t.val ≤ 9999 := by
  obtain ⟨hlow, hhigh⟩ := t.property
  have hday : 0 ≤ Date.dayOf t.val ∧ Date.dayOf t.val ≤ 2932896 := by
    unfold Date.dayOf Date.msPerDay
    omega
  have hfirst : Date.yearOfDay 0 = 1970 := by decide
  have hlast : Date.yearOfDay 2932896 = 9999 := by decide
  have hge := Date.yearOfDay_mono hday.1
  have hle := Date.yearOfDay_mono hday.2
  unfold Date.getUTCFullYear
  omega

theorem toTime_le (now : Instant) {days : Rat} (h : 0 ≤ days) :
    toTime (ago now days) ≤ now.val := by
  have hle : ago now days ≤ now.val := by
    have : (0 : Rat) ≤ days * Date.msPerDay := mul_nonneg h (by decide)
    rw [ago]
    linarith
  rw [toTime]
  split
  · exact Int.cast_le.mp ((Int.floor_le _).trans hle)
  · exact Int.ceil_le.mpr hle

/-- A text before that of the stale date is of an earlier day, or of the same day. -/
theorem le_of_text {received : Instant} {days : Rat} (hdays : 0 ≤ days)
    (h : currentTimestamp received.val < isoText (toTime (ago now days)))
    (hday : ¬ (Date.dayOf received.val = Date.dayOf (toTime (ago now days)) ∧
      ago now days < received.val)) : (received.val : Rat) ≤ ago now days := by
  have hyear : Date.getUTCFullYear (toTime (ago now days)) ≤ 9999 := by
    refine le_trans (Date.yearOfDay_mono ?_) (year_bounds now).2
    exact Int.ediv_le_ediv (by decide) (toTime_le now hdays)
  have hle := Date.dayOf_le_of_lt (year_bounds received).1 (year_bounds received).2 hyear h
  rcases Int.lt_or_eq_of_le hle with hlt | heq
  · have hreceived := received.property.1
    have hbefore : received.val < toTime (ago now days) := by
      unfold Date.dayOf Date.msPerDay at hlt
      omega
    rw [toTime] at hbefore
    split at hbefore
    · exact le_trans (Int.cast_le.mpr (le_of_lt hbefore)) (Int.floor_le _)
    · next hneg =>
        have hceil : ⌈ago now days⌉ ≤ 0 := Int.ceil_le.mpr (by exact_mod_cast (le_of_not_ge hneg))
        omega
  · exact not_lt.mp fun hlater => hday ⟨heq, hlater⟩

theorem deleteWhere_eq_none {p : Row → Bool} {k : Key} {row : Row} (hrow : rows k = some row)
    (h : deleteWhere p rows k = none) : p row = true := by
  rw [deleteWhere, hrow] at h
  simpa [Option.filter] using h

theorem deleteWhere_eq_some {p : Row → Bool} {k : Key} {row : Row}
    (h : deleteWhere p rows k = some row) : rows k = some row :=
  (Option.filter_eq_some_iff.mp h).1

/-- What a sweep leaves was there before. -/
theorem sweep_eq_some {k : Key} {row : Row} (h : (sweep o now rows).getD rows k = some row) :
    rows k = some row := by
  cases hsweep : sweep o now rows with
  | none =>
      rw [hsweep] at h
      exact h
  | some rows' =>
      rw [hsweep, Option.getD_some] at h
      rw [sweep] at hsweep
      split at hsweep
      · rw [← Option.some.inj hsweep] at h
        exact h
      · split at hsweep
        · rw [← Option.some.inj hsweep] at h
          exact deleteWhere_eq_some h
        · obtain ⟨staleDate, -, hsweep⟩ := Option.bind_eq_some_iff.mp hsweep
          obtain ⟨unprocStaleDate, -, hsweep⟩ := Option.bind_eq_some_iff.mp hsweep
          rw [← Option.some.inj hsweep] at h
          exact deleteWhere_eq_some h

/-- A sweep deletes only old rows: in sqlite if it comes on no row that is later that day. -/
theorem sweep_old {k : Key} {row : Row}
    (hday : ByDay (E := E) (R := R) o s (.sweep now)) (hrow : s.rows k = some row)
    (h : (sweep o now s.rows).getD s.rows k = none) : Old o now row := by
  cases hret : o.retentionDays with
  | forever =>
      simp only [sweep, hret, Option.getD_some] at h
      rw [hrow] at h
      cases h
  | days n pos =>
      have hn : ago now (n * 2) ≤ ago now n := by
        have hms : (0 : Rat) ≤ Date.msPerDay := by decide
        rw [ago, ago]
        nlinarith [mul_nonneg (le_of_lt pos) hms]
      simp only [Old, hret]
      cases hdialect : o.dialect with
      | postgres =>
          simp only [ByDay, hret, hdialect] at hday
          simp only [sweep, hret, hdialect, Option.getD_some] at h
          have hstale := deleteWhere_eq_none hrow h
          rw [stalePostgres, hday.1, hday.2, Bool.and_eq_true, Bool.or_eq_true, decide_eq_true_eq,
            decide_eq_true_eq] at hstale
          refine ⟨le_of_lt hstale.1, fun hnone => ?_⟩
          rcases hstale.2 with hsome | hlt
          · rw [hnone] at hsome
            cases hsome
          · exact le_of_lt hlt
      | sqlite =>
          simp only [ByDay, hret, hdialect] at hday
          have hlater := hday k row hrow
          simp only [sweep, hret, hdialect] at h
          cases hclip : Date.timeClip (toTime (ago now n)) with
          | none =>
              rw [hclip, Option.bind_eq_bind, Option.bind_none, Option.getD_none, hrow] at h
              cases h
          | some staleDate =>
              cases hclip' : Date.timeClip (toTime (ago now (n * 2))) with
              | none =>
                  rw [hclip, hclip', Option.bind_eq_bind, Option.bind_some, Option.bind_none,
                    Option.getD_none, hrow] at h
                  cases h
              | some unprocStaleDate =>
                  rw [hclip, hclip'] at h
                  have hstale := deleteWhere_eq_none hrow h
                  rw [Date.timeClip_eq_some hclip, Date.timeClip_eq_some hclip', staleSqlite,
                    Bool.and_eq_true, Bool.or_eq_true, decide_eq_true_eq, decide_eq_true_eq]
                    at hstale
                  cases hproc : row.processedAt with
                  | some t =>
                      rw [hproc, Option.isSome_some, if_pos rfl] at hlater
                      exact ⟨le_of_text (le_of_lt pos) hstale.1 hlater, by simp⟩
                  | none =>
                      rw [hproc, Option.isSome_none, if_neg (by simp)] at hlater
                      rw [hproc] at hstale
                      have hold := le_of_text (by linarith) (hstale.2.resolve_left (by simp)) hlater
                      exact ⟨hold.trans hn, fun _ => hold⟩

/-! ## A whole run -/

/-- What holds of every state: the effects on one message are apart, and the row of the last one is
there until the retention is over. -/
structure Dedupes (o : Opts) (s : St) : Prop where
  past : ∀ e ∈ s.log, e.time ≤ s.clock
  apart : s.log.Pairwise fun e e' => e.key = e'.key → Apart o e.time e'.time
  last : ∀ e ∈ s.log, Apart o e.time s.clock ∨
    ∃ row, s.rows e.key = some row ∧ e.time ≤ row.receivedAt

theorem Apart.later {t t' t'' : Instant} (h : Apart o t t') (hle : t' ≤ t'') : Apart o t t'' := by
  rw [Apart] at h ⊢
  cases hret : o.retentionDays with
  | forever =>
      rw [hret] at h
      exact h
  | days n pos =>
      simp only [hret] at h ⊢
      have hcast : (t'.val : Rat) ≤ t''.val := Int.cast_le.mpr hle
      rw [ago] at h ⊢
      linarith

theorem Old.apart {t : Instant} {row : Row} (h : Old o now row) (hle : t ≤ row.receivedAt) :
    Apart o t now := by
  rw [Old] at h
  rw [Apart]
  cases hret : o.retentionDays with
  | forever =>
      rw [hret] at h
      exact h
  | days n pos =>
      simp only [hret] at h ⊢
      exact le_trans (Int.cast_le.mpr hle) h.1

theorem dedupes_step {a : Act E R} (hd : Dedupes o s) (hday : ByDay o s a)
    (h : step o s a = some s') : Dedupes o s' := by
  have hlater {now : Instant} (hle : s.clock ≤ now) (e : Effect) (he : e ∈ s.log) :
      Apart o e.time now ∨ ∃ row, s.rows e.key = some row ∧ e.time ≤ row.receivedAt :=
    (hd.last e he).imp (fun h => h.later hle) id
  rcases step_cases h with ⟨now, r, handler, -, hle, hs' | ⟨hnone, hs'⟩⟩ | ⟨now, rfl, hle, hs'⟩
  · subst hs'
    exact ⟨fun e he => (hd.past e he).trans hle, hd.apart, hlater hle⟩
  · subst hs'
    refine ⟨fun e he => ?_, ?_, fun e he => ?_⟩
    · rcases List.mem_append.mp he with hold | hnew
      · exact (hd.past e hold).trans hle
      · rw [List.mem_singleton.mp hnew]
    · refine List.pairwise_append.mpr ⟨hd.apart, List.pairwise_singleton _ _, ?_⟩
      intro e he e' he' hkey
      rw [List.mem_singleton.mp he'] at hkey ⊢
      rcases hlater hle e he with hapart | ⟨row, hrow, -⟩
      · exact hapart
      · rw [hkey, hnone] at hrow
        cases hrow
    · dsimp only
      by_cases hkey : e.key = r.key
      · rw [hkey, Function.update_self]
        refine .inr ⟨_, rfl, ?_⟩
        rcases List.mem_append.mp he with hold | hnew
        · exact (hd.past e hold).trans hle
        · rw [List.mem_singleton.mp hnew]
      · rw [Function.update_of_ne hkey]
        rcases List.mem_append.mp he with hold | hnew
        · exact hlater hle e hold
        · exact absurd (congrArg Effect.key (List.mem_singleton.mp hnew)) hkey
  · subst hs'
    refine ⟨fun e he => (hd.past e he).trans hle, hd.apart, fun e he => ?_⟩
    rcases hlater hle e he with hapart | ⟨row, hrow, htime⟩
    · exact .inl hapart
    · dsimp only
      cases hnew : (sweep o now s.rows).getD s.rows e.key with
      | none => exact .inl ((sweep_old hday hrow hnew).apart htime)
      | some row' =>
          have hsame := sweep_eq_some hnew
          rw [hrow] at hsame
          exact .inr ⟨row', rfl, by rw [← Option.some.inj hsame]; exact htime⟩

theorem handle_failed (now : Instant) (r : ReceiveOpts) (e : E) (rows : Rows) :
    (handle o now r (.error e : Except E R) rows).2 = rows := by
  rcases handle_cases o now r (.error e : Except E R) rows with ⟨hrows, -⟩ | ⟨_, h, -⟩
  · exact hrows
  · cases h

/-- One day, in sqlite. -/
def oneDay : Opts := ⟨.sqlite, ago, .days 1 one_pos, 65536, 256, 256⟩

def order : ReceiveOpts := ⟨units "evt-9f3c4d", units "kafka:orders", none⟩

/-- A time of the first day, and one of the second that is 23 hours later. -/
def firstDay : Instant := ⟨36000000, by decide, by decide⟩

def secondDay : Instant := ⟨118800000, by decide, by decide⟩

def noRows : Rows := fun _ => none

/-- The day after, at eleven and at noon. -/
def nextEleven : Instant := ⟨126000000, by decide, by decide⟩

def nextNoon : Instant := ⟨129600000, by decide, by decide⟩

/-- Half an hour after the first time. -/
def halfPast : Instant := ⟨37800000, by decide, by decide⟩

/-- A message, a sweep, the message again, a sweep that deletes its row after 25 hours, and the
message once more. -/
def replay : List (Act Unit Unit) :=
  [.handle firstDay order (.ok ()), .sweep halfPast, .handle halfPast order (.ok ()),
    .sweep nextEleven, .handle nextNoon order (.ok ())]

def rowAt (now : Instant) : Row := ⟨now, some now, none⟩

theorem rows_handle {now : Instant} {k : Key} {row : Row}
    (h : (handle oneDay now order (.ok () : Except Unit Unit) rows).2 k = some row) :
    rows k = some row ∨ row = rowAt now := by
  rcases handle_cases oneDay now order (.ok () : Except Unit Unit) rows with
    ⟨hrows, -⟩ | ⟨_, _, _, hrows⟩
  · exact .inl (hrows ▸ h)
  · rw [hrows] at h
    dsimp only at h
    by_cases hk : k = order.key
    · rw [hk, Function.update_self] at h
      exact .inr (Option.some.inj h).symm
    · rw [Function.update_of_ne hk] at h
      exact .inl h

end Blamejs.Inbox
