import Blamejs.Ref.Calendar
import Mathlib.Data.List.Dedup

/-!
# Windows of a recurring event

Each loop pushes, of the instants it walks over, those at or after the window's start, and
stops at the rule's count of them. The walk itself does not depend on where the window starts,
so the count is of the instances inside the window and not of those from the event's start:
the two agree when the window leaves out none of the first ones, or all of the others.
-/

namespace Blamejs.Calendar

open Blamejs.Js Blamejs.Js.Date

/-! ## Instants up to a limit -/

section kept

variable {α : Type} {p : α → Bool} {limit : Nat}

/-- The first instants that pass. -/
def kept (p : α → Bool) (limit : Nat) (walked : List α) : List α := (walked.filter p).take limit

theorem kept_nil (p : α → Bool) (limit : Nat) : kept p limit [] = [] := List.take_nil

theorem kept_full {walked : List α} (h : limit ≤ (kept p limit walked).length) (more : List α) :
    kept p limit (walked ++ more) = kept p limit walked := by
  have hlong : limit ≤ (walked.filter p).length :=
    Nat.le_trans h (List.length_take_le' _ _)
  rw [kept, kept, List.filter_append, List.take_append_of_le_length hlong]

theorem kept_more {walked found more : List α} {ended : Bool}
    (h : limit ≤ (kept p limit (walked ++ found)).length) :
    kept p limit (walked ++ found) =
      kept p limit (walked ++ if ended then found else found ++ more) := by
  cases ended with
  | true => rfl
  | false => rw [if_neg Bool.false_ne_true, ← List.append_assoc, kept_full h]

theorem kept_room {walked : List α} (h : (kept p limit walked).length < limit) (t : α) :
    kept p limit (walked ++ [t]) =
      if p t then kept p limit walked ++ [t] else kept p limit walked := by
  have hshort : (walked.filter p).length < limit := by
    rw [kept, List.length_take] at h
    omega
  rw [kept, kept, List.filter_append, List.take_of_length_le (Nat.le_of_lt hshort)]
  cases hp : p t with
  | true =>
      rw [List.filter_cons_of_pos hp, List.filter_nil, if_pos rfl]
      exact List.take_of_length_le (by rw [List.length_append, List.length_singleton]; omega)
  | false =>
      rw [List.filter_cons_of_neg (by rw [hp]; exact Bool.false_ne_true), List.filter_nil,
        List.append_nil, if_neg Bool.false_ne_true]
      exact List.take_of_length_le (Nat.le_of_lt hshort)

/-- A limit on what passes is one on the whole exactly when nothing in front of it is left out,
or everything behind it. -/
theorem take_filter_iff (l : List α) (n : Nat) :
    (l.filter p).take n = (l.take n).filter p ↔
      (∀ t ∈ l.take n, p t = true) ∨ ∀ t ∈ l.drop n, p t = false := by
  have hfront : ((l.take n).filter p).length ≤ n :=
    Nat.le_trans (List.length_filter_le _ _) (List.length_take_le _ _)
  have hsplit : (l.filter p).take n =
      (l.take n).filter p ++ ((l.drop n).filter p).take (n - ((l.take n).filter p).length) := by
    conv_lhs => rw [← List.take_append_drop n l, List.filter_append, List.take_append]
    rw [List.take_of_length_le hfront]
  have hnil : (∀ t ∈ l.drop n, p t = false) ↔ (l.drop n).filter p = [] := by
    rw [List.filter_eq_nil_iff]
    exact forall₂_congr fun t _ => (Bool.not_eq_true _).symm.to_iff
  rw [hsplit, List.append_right_eq_self, List.take_eq_nil_iff, hnil]
  constructor
  · rintro (hn | hback)
    · have hall : ((l.take n).filter p).length = (l.take n).length :=
        Nat.le_antisymm (List.length_filter_le _ _)
          (Nat.le_trans (List.length_take_le _ _) (by omega))
      exact Or.inl (List.length_filter_eq_length_iff.mp hall)
    · exact Or.inr hback
  · rintro (hall | hback)
    · rw [List.filter_eq_self.mpr hall, List.length_take]
      rcases Nat.le_total n l.length with h | h
      · exact Or.inl (by omega)
      · exact Or.inr (by rw [List.drop_of_length_le h, List.filter_nil])
    · exact Or.inr hback

end kept

/-! ## The walks -/

variable {b : Bounds} {rule : Rule}

/-- Where a rule's instances end. -/
def past (toDate : Option DateText) (rule : Rule) (t : Int) : Bool :=
  pastUntil rule t || (toDate.bind DateText.ms).any (· < t)

/-- The instants the loop without positions matches within a number of steps. -/
def walk (toDate : Option DateText) (rule : Rule) : Nat → Int → List Int
  | 0, _ => []
  | n + 1, t =>
      if past toDate rule t then []
      else (if matchesBy rule t then [t] else []) ++
        (next rule t).elim [] (walk toDate rule n)

/-- The candidates of a period, whatever is left of the budget. -/
def candidates (rule : Rule) (startMs endMs : Int) : Nat → Int → List Int
  | 0, _ => []
  | safety + 1, dayMs =>
      if dayMs ≤ endMs then
        ((withTimeOfDay startMs dayMs).filter (matchesBy rule)).toList ++
          candidates rule startMs endMs safety (dayMs + msPerDay)
      else []

/-- The picked instants of a period up to the end, and whether the end was met. -/
def counted (startMs : Int) (toDate : Option DateText) (rule : Rule) :
    List Int → List Int × Bool
  | [] => ([], false)
  | t :: ts =>
      if t < startMs then counted startMs toDate rule ts
      else if past toDate rule t then ([], true)
      else (t :: (counted startMs toDate rule ts).1, (counted startMs toDate rule ts).2)

/-- The instants the loop with positions picks in a number of periods. -/
def walkPeriods (startMs : Int) (toDate : Option DateText) (rule : Rule) (positions : List Int) :
    Nat → Nat → List Int
  | 0, _ => []
  | n + 1, k =>
      ((intervalOf rule).bind fun i => periodForIndex rule.frequency startMs (k * i)).elim []
        fun period =>
          if past toDate rule period.1 then []
          else
            let found := counted startMs toDate rule
              (pick (candidates rule startMs period.2 400 period.1) positions)
            if found.2 then found.1
            else found.1 ++ walkPeriods startMs toDate rule positions n (k + 1)

/-- The instants a rule names from the event's start on, within the steps there are. -/
def occurrences (startMs : Int) (toDate : Option DateText) (rule : Rule) : List Int :=
  (bySetPosArray rule.bySetPos).elim (walk toDate rule stepBudget startMs) fun positions =>
    walkPeriods startMs toDate rule positions (periodsFuel stepBudget) 0

/-- How many instances the loops push at most. -/
def limitOf (b : Bounds) (rule : Rule) : Nat :=
  rule.count.elim b.maxCount fun c => min c.toNat b.maxCount

theorem hasRoom_iff (n : Nat) : hasRoom b rule n = true ↔ n < limitOf b rule := by
  unfold hasRoom limitOf
  cases rule.count with
  | none => simp
  | some c =>
      simp only [Option.all_some, Option.elim_some, Bool.and_eq_true, decide_eq_true_eq,
        Nat.lt_min]
      omega

theorem past_eq (t : Int) : (pastUntil rule t || pastTo b t) = past b.toDate rule t := rfl

/-! ## The loop without positions -/

theorem expandLoop_le : ∀ {remaining : Nat} {t : Int} {out : List Int},
    (expandLoop b rule remaining t out).stepBudgetRemaining ≤ remaining
  | 0, _, _ => Nat.le_refl 0
  | remaining + 1, t, out => by
      rw [expandLoop]
      split
      · split
        · exact Nat.le_succ _
        · dsimp only
          cases next rule t with
          | none => exact Nat.le_succ _
          | some t' => exact Nat.le_trans expandLoop_le (Nat.le_succ _)
      · exact Nat.le_refl _

theorem expandLoop_walk : ∀ {remaining : Nat} {t : Int} {seen : List Int} {e : Expanded},
    expandLoop b rule remaining t (kept (fromReached b) (limitOf b rule) seen) = e →
    0 < e.stepBudgetRemaining → ∀ {n : Nat}, remaining ≤ n →
    e.instances = kept (fromReached b) (limitOf b rule) (seen ++ walk b.toDate rule n t)
  | 0, _, _, _, he, hpos, _, _ => by
      rw [← he] at hpos
      cases hpos
  | remaining + 1, t, seen, e, he, hpos, n + 1, hn => by
      rw [expandLoop] at he
      by_cases hroom : hasRoom b rule (kept (fromReached b) (limitOf b rule) seen).length = true
      · rw [if_pos hroom, past_eq] at he
        rw [walk]
        by_cases hpast : past b.toDate rule t = true
        · rw [if_pos hpast] at he
          rw [if_pos hpast, List.append_nil, ← he]
        · rw [if_neg hpast] at he
          rw [if_neg hpast, ← List.append_assoc]
          have hout : (if (matchesBy rule t && fromReached b t) = true then
              kept (fromReached b) (limitOf b rule) seen ++ [t]
              else kept (fromReached b) (limitOf b rule) seen) =
              kept (fromReached b) (limitOf b rule)
                (seen ++ if matchesBy rule t = true then [t] else []) := by
            cases hmatch : matchesBy rule t with
            | false => simp
            | true => rw [Bool.true_and, if_pos rfl, kept_room ((hasRoom_iff _).mp hroom)]
          dsimp only at he
          rw [hout] at he
          cases hnext : next rule t with
          | none =>
              rw [hnext] at he
              rw [Option.elim_none, List.append_nil, ← he]
          | some t' =>
              rw [hnext] at he
              rw [Option.elim_some]
              exact expandLoop_walk he hpos (Nat.le_of_succ_le_succ hn)
      · rw [if_neg hroom] at he
        rw [← he, kept_full (Nat.le_of_not_lt (mt (hasRoom_iff _).mpr hroom))]

/-! ## The loop with positions -/

theorem candidatesLoop_le (startMs endMs : Int) : ∀ (safety : Nat) (dayMs : Int) (remaining : Nat)
    (found : List Int),
    (candidatesLoop rule startMs endMs safety dayMs remaining found).2 ≤ remaining
  | 0, _, _, _ => Nat.le_refl _
  | safety + 1, dayMs, remaining, found => by
      rw [candidatesLoop]
      split
      · exact Nat.le_trans (candidatesLoop_le startMs endMs safety _ _ _) (Nat.sub_le _ _)
      · exact Nat.le_refl _

theorem candidatesLoop_all (startMs endMs : Int) : ∀ (safety : Nat) (dayMs : Int)
    (remaining : Nat) (found : List Int),
    0 < (candidatesLoop rule startMs endMs safety dayMs remaining found).2 →
    (candidatesLoop rule startMs endMs safety dayMs remaining found).1 =
      found ++ candidates rule startMs endMs safety dayMs
  | 0, _, _, _, _ => (List.append_nil _).symm
  | safety + 1, dayMs, remaining, found, hpos => by
      have hleft := Nat.lt_of_lt_of_le hpos (candidatesLoop_le _ _ _ _ _ _)
      rw [candidatesLoop] at hpos ⊢
      rw [candidates]
      by_cases hday : dayMs ≤ endMs
      · rw [if_pos ⟨hday, hleft⟩] at hpos ⊢
        rw [if_pos hday, candidatesLoop_all startMs endMs safety _ _ _ hpos, ← List.append_assoc]
        congr 1
        cases withTimeOfDay startMs dayMs with
        | none => exact (List.append_nil _).symm
        | some c => cases hmatch : matchesBy rule c <;> simp [Option.filter, hmatch]
      · rw [if_neg fun h => hday h.1, if_neg hday, List.append_nil]

/-- One period: the loop goes on only when the walk does, or when there is no room left. -/
theorem pushPicked_counted : ∀ {ts seen out : List Int} {ended : Bool},
    pushPicked b rule ts (kept (fromReached b) (limitOf b rule) seen) = (out, ended) →
    out = kept (fromReached b) (limitOf b rule)
        (seen ++ (counted b.startMs b.toDate rule ts).1) ∧
      (ended = (counted b.startMs b.toDate rule ts).2 ∨ limitOf b rule ≤ out.length)
  | [], seen, out, ended, h => by
      obtain ⟨rfl, rfl⟩ := Prod.mk.inj h
      exact ⟨by rw [counted, List.append_nil], Or.inl rfl⟩
  | t :: ts, seen, out, ended, h => by
      rw [pushPicked, past_eq] at h
      rw [counted]
      by_cases hstart : t < b.startMs
      · rw [if_pos hstart] at h
        rw [if_pos hstart]
        exact pushPicked_counted h
      rw [if_neg hstart] at h
      rw [if_neg hstart]
      by_cases hpast : past b.toDate rule t = true
      · rw [if_pos hpast] at h
        rw [if_pos hpast]
        obtain ⟨rfl, rfl⟩ := Prod.mk.inj h
        exact ⟨by rw [List.append_nil], Or.inl rfl⟩
      rw [if_neg hpast] at h
      rw [if_neg hpast]
      have hstep : seen ++ t :: (counted b.startMs b.toDate rule ts).1 =
          seen ++ [t] ++ (counted b.startMs b.toDate rule ts).1 := by
        rw [List.append_assoc, List.singleton_append]
      rw [hstep]
      by_cases hroom : hasRoom b rule (kept (fromReached b) (limitOf b rule) seen).length = true
      · have hkept := kept_room ((hasRoom_iff _).mp hroom) t
        cases hfrom : fromReached b t with
        | false =>
            rw [hfrom, if_neg Bool.false_ne_true] at hkept
            rw [hfrom, Bool.not_false, if_pos rfl, ← hkept] at h
            exact pushPicked_counted h
        | true =>
            rw [hfrom, if_pos rfl] at hkept
            rw [hfrom, Bool.not_true, if_neg Bool.false_ne_true, if_pos hroom, ← hkept] at h
            exact pushPicked_counted h
      · have hfull := Nat.le_of_not_lt (mt (hasRoom_iff _).mpr hroom)
        have hkept : ∀ more, kept (fromReached b) (limitOf b rule) (seen ++ [t] ++ more) =
            kept (fromReached b) (limitOf b rule) seen := by
          intro more
          rw [List.append_assoc, kept_full hfull]
        cases hfrom : fromReached b t with
        | false =>
            have hone : kept (fromReached b) (limitOf b rule) seen =
                kept (fromReached b) (limitOf b rule) (seen ++ [t]) := (kept_full hfull [t]).symm
            rw [hfrom, Bool.not_false, if_pos rfl, hone] at h
            exact pushPicked_counted h
        | true =>
            rw [hfrom, Bool.not_true, if_neg Bool.false_ne_true, if_neg hroom] at h
            obtain ⟨rfl, rfl⟩ := Prod.mk.inj h
            exact ⟨(hkept _).symm, Or.inr hfull⟩

theorem periodsLoop_walk (positions : List Int) : ∀ {fuel k remaining : Nat} {seen : List Int}
    {e : Expanded}, periodsLoop b rule positions fuel k remaining
        (kept (fromReached b) (limitOf b rule) seen) = e →
    e.stepBudgetRemaining ≤ remaining ∧ (0 < e.stepBudgetRemaining → ∀ {n : Nat}, fuel ≤ n →
    e.instances = kept (fromReached b) (limitOf b rule)
      (seen ++ walkPeriods b.startMs b.toDate rule positions n k))
  | 0, _, _, _, _, he => by
      subst he
      exact ⟨Nat.zero_le _, fun hpos => absurd hpos (Nat.lt_irrefl 0)⟩
  | fuel + 1, k, remaining, seen, e, he => by
      rw [periodsLoop] at he
      by_cases hroom : hasRoom b rule (kept (fromReached b) (limitOf b rule) seen).length = true
      swap
      · rw [if_neg fun h => hroom h.1] at he
        subst he
        refine ⟨Nat.le_refl _, fun _ n _ => ?_⟩
        rw [kept_full (Nat.le_of_not_lt (mt (hasRoom_iff _).mpr hroom))]
      by_cases hleft : 0 < remaining
      swap
      · rw [if_neg fun h => hleft h.2] at he
        subst he
        exact ⟨Nat.le_refl _, fun hpos => absurd hpos hleft⟩
      rw [if_pos ⟨hroom, hleft⟩] at he
      cases hperiod : (intervalOf rule).bind
          fun i => periodForIndex rule.frequency b.startMs (k * i) with
      | none =>
          rw [hperiod] at he
          subst he
          refine ⟨Nat.le_refl _, fun _ n hn => ?_⟩
          obtain ⟨m, rfl⟩ := Nat.exists_eq_add_of_lt hn
          rw [walkPeriods, hperiod, Option.elim_none, List.append_nil]
      | some period =>
          obtain ⟨startMs, endMs⟩ := period
          rw [hperiod] at he
          dsimp only at he
          rw [past_eq] at he
          by_cases hpast : past b.toDate rule startMs = true
          · rw [if_pos hpast] at he
            subst he
            refine ⟨Nat.le_refl _, fun _ n hn => ?_⟩
            obtain ⟨m, rfl⟩ := Nat.exists_eq_add_of_lt hn
            rw [walkPeriods, hperiod, Option.elim_some, if_pos hpast, List.append_nil]
          rw [if_neg hpast] at he
          generalize hfound : candidatesLoop rule b.startMs endMs 400 startMs remaining [] = found
            at he
          generalize hpush : pushPicked b rule (pick found.1 positions)
            (kept (fromReached b) (limitOf b rule) seen) = pushed at he
          obtain ⟨out, ended⟩ := pushed
          obtain ⟨hout, hover⟩ := pushPicked_counted hpush
          have hless : found.2 ≤ remaining := hfound ▸ candidatesLoop_le _ _ _ _ _ _
          have hall : 0 < found.2 → found.1 = candidates rule b.startMs endMs 400 startMs := by
            intro hpos
            rw [← hfound] at hpos ⊢
            exact candidatesLoop_all _ _ _ _ _ _ hpos
          dsimp only at he
          cases ended with
          | true =>
              rw [if_pos rfl] at he
              subst he
              refine ⟨hless, fun hpos n hn => ?_⟩
              obtain ⟨m, rfl⟩ := Nat.exists_eq_add_of_lt hn
              rw [walkPeriods, hperiod, Option.elim_some, if_neg hpast]
              dsimp only
              rw [← hall hpos]
              rcases hover with hover | hfull
              · rw [if_pos hover.symm]
                exact hout
              · rw [hout] at hfull
                rw [← kept_more hfull]
                exact hout
          | false =>
              rw [if_neg Bool.false_ne_true, hout] at he
              obtain ⟨hle, hwalk⟩ := periodsLoop_walk positions he
              refine ⟨Nat.le_trans hle hless, fun hpos n hn => ?_⟩
              obtain ⟨m, rfl⟩ := Nat.exists_eq_add_of_lt hn
              rw [walkPeriods, hperiod, Option.elim_some, if_neg hpast]
              dsimp only
              rw [← hall (Nat.lt_of_lt_of_le hpos hle)]
              rcases hover with hover | hfull
              · rw [if_neg (by rw [← hover]; exact Bool.false_ne_true), ← List.append_assoc]
                exact hwalk hpos (by omega)
              · rw [hout] at hfull
                rw [← kept_more hfull, hwalk hpos (Nat.le_refl _), kept_full hfull]

/-! ## The rules of an event -/

/-- A rule's instances, at most as many as its count. -/
def upToCount (rule : Rule) (instances : List Int) : List Int :=
  rule.count.elim instances fun c => instances.take c.toNat

theorem upToCount_eq {l : List Int} (h : (l.take (limitOf b rule)).length < b.maxCount) :
    l.take (limitOf b rule) = upToCount rule l := by
  revert h
  unfold upToCount limitOf
  cases rule.count with
  | none =>
      intro h
      rw [Option.elim_none, List.length_take] at h
      exact List.take_of_length_le (by rw [Option.elim_none]; omega)
  | some c =>
      intro h
      simp only [Option.elim_some, List.length_take] at h ⊢
      rcases Nat.le_total c.toNat b.maxCount with hc | hc
      · rw [Nat.min_eq_left hc]
      · rw [Nat.min_eq_right hc, List.take_of_length_le (by omega),
          List.take_of_length_le (by omega)]

/-- Below the caps: no rule has as many instances as there may be, or has used up the steps. -/
def BelowCaps (maxCount : Nat) (es : List Expanded) : Prop :=
  (∀ e ∈ es, e.instances.length < maxCount ∧ 0 < e.stepBudgetRemaining) ∧
    (united (es.map Expanded.instances)).length ≤ maxCount

theorem expandSingleRule_occurrences {remaining : Nat} {e : Expanded}
    (h : expandSingleRule b rule remaining = .ok e) (hsteps : remaining ≤ stepBudget)
    (hlength : e.instances.length < b.maxCount) (hpos : 0 < e.stepBudgetRemaining) :
    e.instances =
      upToCount rule ((occurrences b.startMs b.toDate rule).filter (fromReached b)) := by
  have hkept : e.instances =
      kept (fromReached b) (limitOf b rule) (occurrences b.startMs b.toDate rule) := by
    unfold expandSingleRule at h
    unfold occurrences
    cases hpositions : bySetPosArray rule.bySetPos with
    | none =>
        rw [hpositions] at h
        have h := Except.ok.inj h
        rw [← kept_nil (fromReached b) (limitOf b rule)] at h
        exact expandLoop_walk h hpos hsteps
    | some positions =>
        rw [hpositions] at h
        dsimp only at h
        unfold expandWithBysetpos at h
        split at h
        · have hfuel : periodsFuel remaining ≤ periodsFuel stepBudget := by
            unfold periodsFuel
            omega
          have h := Except.ok.inj h
          rw [← kept_nil (fromReached b) (limitOf b rule)] at h
          exact (periodsLoop_walk positions h).2 hpos hfuel
        · cases h
  rw [hkept] at hlength ⊢
  exact upToCount_eq hlength

theorem expandSingleRule_le {remaining : Nat} {e : Expanded}
    (h : expandSingleRule b rule remaining = .ok e) : e.stepBudgetRemaining ≤ remaining := by
  unfold expandSingleRule at h
  cases hpositions : bySetPosArray rule.bySetPos with
  | none =>
      rw [hpositions] at h
      rw [← Except.ok.inj h]
      exact expandLoop_le
  | some positions =>
      rw [hpositions] at h
      dsimp only at h
      unfold expandWithBysetpos at h
      split at h
      · have h := Except.ok.inj h
        rw [← kept_nil (fromReached b) (limitOf b rule)] at h
        exact (periodsLoop_walk positions h).1
      · cases h

theorem expandRules_cons {rules : List Rule} {remaining : Nat} {es : List Expanded}
    (h : expandRules b (rule :: rules) remaining = .ok es) :
    ∃ e rest, expandSingleRule b rule remaining = .ok e ∧
      expandRules b rules e.stepBudgetRemaining = .ok rest ∧ es = e :: rest := by
  obtain ⟨e, he, h⟩ := Checked.bind_eq_ok.mp h
  obtain ⟨rest, hrest, h⟩ := Checked.bind_eq_ok.mp h
  exact ⟨e, rest, he, hrest, (Except.ok.inj h).symm⟩

theorem expandRules_occurrences : ∀ {rules : List Rule} {remaining : Nat} {es : List Expanded},
    expandRules b rules remaining = .ok es → remaining ≤ stepBudget →
    (∀ e ∈ es, e.instances.length < b.maxCount ∧ 0 < e.stepBudgetRemaining) →
    es.map Expanded.instances = rules.map fun r =>
      upToCount r ((occurrences b.startMs b.toDate r).filter (fromReached b))
  | [], _, _, h, _, _ => by
      rw [← Except.ok.inj h]
      rfl
  | rule :: rules, remaining, es, h, hsteps, hcaps => by
      obtain ⟨e, rest, he, hrest, rfl⟩ := expandRules_cons h
      obtain ⟨⟨hlength, hpos⟩, hcaps⟩ := List.forall_mem_cons.mp hcaps
      rw [List.map_cons, List.map_cons, expandSingleRule_occurrences he hsteps hlength hpos,
        expandRules_occurrences hrest (Nat.le_trans (expandSingleRule_le he) hsteps) hcaps]

/-! ## The fuel of the periods -/

/-- A period is a day at least, but for the year 99. -/
theorem periodForIndex_le {freq : Frequency} {startMs offset : Int} {period : Int × Int}
    (h : periodForIndex freq startMs offset = some period) :
    period.1 ≤ period.2 ∨ (freq = .yearly ∧ getUTCFullYear startMs + offset = 99) := by
  cases freq
  case yearly =>
      obtain ⟨ys, hys, h⟩ := Option.bind_eq_some_iff.mp h
      obtain ⟨ye, hye, h⟩ := Option.bind_eq_some_iff.mp h
      obtain rfl := Option.some.inj h
      by_cases hyear : getUTCFullYear startMs + offset = 99
      · exact Or.inr ⟨rfl, hyear⟩
      · exact Or.inl (Int.le_sub_one_of_lt (utc_lt_year hys hye hyear))
  case monthly =>
      obtain ⟨ms, hms, h⟩ := Option.bind_eq_some_iff.mp h
      obtain ⟨me, hme, h⟩ := Option.bind_eq_some_iff.mp h
      obtain rfl := Option.some.inj h
      exact Or.inl (Int.le_sub_one_of_lt (utc_lt_month hms hme (by omega) (by omega)))
  case weekly =>
      obtain ⟨anchor, -, h⟩ := Option.bind_eq_some_iff.mp h
      obtain ⟨ws, -, h⟩ := Option.bind_eq_some_iff.mp h
      obtain rfl := Option.some.inj h
      refine Or.inl ?_
      unfold msPerDay
      omega
  all_goals cases h

/-- The period of an index. -/
def periodAt (startMs : Int) (rule : Rule) (k : Nat) : Option (Int × Int) :=
  (intervalOf rule).bind fun i => periodForIndex rule.frequency startMs (k * i)

theorem periodAt_succ {startMs : Int} {k : Nat} {period period' : Int × Int}
    (h : periodAt startMs rule k = some period) (hempty : period.2 < period.1)
    (h' : periodAt startMs rule (k + 1) = some period') : period'.1 ≤ period'.2 := by
  obtain ⟨i, hi, h⟩ := Option.bind_eq_some_iff.mp h
  obtain ⟨i', hi', h'⟩ := Option.bind_eq_some_iff.mp h'
  obtain rfl := Option.some.inj (hi.symm.trans hi')
  obtain ⟨n, -, hn⟩ := Option.map_eq_some_iff.mp hi
  rcases periodForIndex_le h with hle | ⟨-, hyear⟩
  · omega
  · rcases periodForIndex_le h' with hle | ⟨-, hyear'⟩
    · exact hle
    · have hstep : ((k + 1 : Nat) : Int) * i = k * i + i := by
        rw [Int.natCast_succ, Int.add_mul, Int.one_mul]
      omega

theorem candidatesLoop_lt {startMs endMs dayMs : Int} {safety remaining : Nat} {found : List Int}
    (hday : dayMs ≤ endMs) (hleft : 0 < remaining) :
    (candidatesLoop rule startMs endMs (safety + 1) dayMs remaining found).2 < remaining := by
  rw [candidatesLoop, if_pos ⟨hday, hleft⟩]
  exact Nat.lt_of_le_of_lt (candidatesLoop_le startMs endMs safety _ _ _) (by omega)

/-- Fuel that covers two periods for each step of the budget is never used up. -/
theorem periodsLoop_fuel (positions : List Int) : ∀ {fuel fuel' k remaining : Nat}
    {out : List Int}, 2 * remaining + 1 ≤ fuel → 2 * remaining + 1 ≤ fuel' →
    (∀ period, periodAt b.startMs rule k = some period → period.2 < period.1 →
      2 * remaining + 2 ≤ fuel ∧ 2 * remaining + 2 ≤ fuel') →
    periodsLoop b rule positions fuel k remaining out =
      periodsLoop b rule positions fuel' k remaining out
  | fuel + 1, fuel' + 1, k, remaining, out, hfuel, hfuel', hempty => by
      rw [periodsLoop, periodsLoop]
      by_cases hroom : hasRoom b rule out.length = true ∧ 0 < remaining
      swap
      · rw [if_neg hroom, if_neg hroom]
      rw [if_pos hroom, if_pos hroom]
      cases hperiod : (intervalOf rule).bind
          fun i => periodForIndex rule.frequency b.startMs (k * i) with
      | none => rfl
      | some period =>
          obtain ⟨startMs, endMs⟩ := period
          dsimp only
          split
          · rfl
          have hless : (candidatesLoop rule b.startMs endMs 400 startMs remaining []).2 ≤
              remaining := candidatesLoop_le _ _ _ _ _ _
          have hlt : startMs ≤ endMs →
              (candidatesLoop rule b.startMs endMs 400 startMs remaining []).2 < remaining :=
            fun hday => candidatesLoop_lt hday hroom.2
          generalize candidatesLoop rule b.startMs endMs 400 startMs remaining [] = found
            at hless hlt
          obtain ⟨cands, left⟩ := found
          dsimp only at hless hlt
          generalize pushPicked b rule (pick cands positions) out = pushed
          obtain ⟨out', ended⟩ := pushed
          dsimp only
          split
          · rfl
          rcases Int.lt_or_le endMs startMs with hbefore | hday
          · obtain ⟨hmore, hmore'⟩ := hempty _ hperiod hbefore
            exact periodsLoop_fuel positions (by omega) (by omega) fun period' hnext hbefore' =>
              absurd (periodAt_succ hperiod hbefore hnext) (Int.not_le.mpr hbefore')
          · have := hlt hday
            exact periodsLoop_fuel positions (by omega) (by omega) fun _ _ _ => by omega

/-- The periods end on their own: any more fuel gives the same. -/
theorem periodsLoop_halts (positions : List Int) {remaining fuel : Nat} {out : List Int}
    (h : periodsFuel remaining ≤ fuel) :
    periodsLoop b rule positions (periodsFuel remaining) 0 remaining out =
      periodsLoop b rule positions fuel 0 remaining out := by
  unfold periodsFuel at *
  exact periodsLoop_fuel positions (by omega) (by omega) fun _ _ _ => by omega

/-! ## From the event's start on -/

theorem lt_next {t t' : Int} (h : next rule t = some t') : t < t' := by
  obtain ⟨i, hi, h⟩ := Option.bind_eq_some_iff.mp h
  obtain ⟨n, -, rfl⟩ := Option.map_eq_some_iff.mp hi
  have hpos : 0 < max 1 n := by omega
  unfold advance at h
  cases hfreq : rule.frequency <;> rw [hfreq] at h
  case daily => exact lt_setUTCDate h hpos
  case weekly => exact lt_setUTCDate h (by omega)
  case monthly => exact lt_setUTCMonth h hpos
  case yearly => exact lt_setUTCFullYear h hpos
  all_goals exact lt_atTime h (by unfold makeTime; omega)

theorem walk_ge {toDate : Option DateText} : ∀ {n : Nat} {t : Int},
    ∀ u ∈ walk toDate rule n t, t ≤ u
  | 0, _, u, hu => absurd hu List.not_mem_nil
  | n + 1, t, u, hu => by
      rw [walk] at hu
      split at hu
      · exact absurd hu List.not_mem_nil
      · rcases List.mem_append.mp hu with hu | hu
        · split at hu
          · exact Int.le_of_eq (List.mem_singleton.mp hu).symm
          · exact absurd hu List.not_mem_nil
        · cases hnext : next rule t with
          | none =>
              rw [hnext] at hu
              exact absurd hu List.not_mem_nil
          | some t' =>
              rw [hnext] at hu
              exact Int.le_trans (Int.le_of_lt (lt_next hnext)) (walk_ge u hu)

theorem counted_ge {startMs : Int} {toDate : Option DateText} : ∀ {ts : List Int},
    ∀ u ∈ (counted startMs toDate rule ts).1, startMs ≤ u
  | [], u, hu => absurd hu List.not_mem_nil
  | t :: ts, u, hu => by
      rw [counted] at hu
      split at hu
      · exact counted_ge u hu
      · next hstart =>
          split at hu
          · exact absurd hu List.not_mem_nil
          · rcases List.mem_cons.mp hu with rfl | hu
            · exact Int.not_lt.mp hstart
            · exact counted_ge u hu

theorem walkPeriods_ge {startMs : Int} {toDate : Option DateText} {positions : List Int} :
    ∀ {n k : Nat}, ∀ u ∈ walkPeriods startMs toDate rule positions n k, startMs ≤ u
  | 0, _, u, hu => absurd hu List.not_mem_nil
  | n + 1, k, u, hu => by
      rw [walkPeriods] at hu
      cases hperiod : (intervalOf rule).bind
          fun i => periodForIndex rule.frequency startMs (k * i) with
      | none =>
          rw [hperiod] at hu
          exact absurd hu List.not_mem_nil
      | some period =>
          rw [hperiod, Option.elim_some] at hu
          dsimp only at hu
          split at hu
          · exact absurd hu List.not_mem_nil
          · split at hu
            · exact counted_ge u hu
            · rcases List.mem_append.mp hu with hu | hu
              · exact counted_ge u hu
              · exact walkPeriods_ge u hu

/-- No instance is before the event's start. -/
theorem occurrences_ge {startMs : Int} {toDate : Option DateText} :
    ∀ u ∈ occurrences startMs toDate rule, startMs ≤ u := by
  intro u hu
  unfold occurrences at hu
  cases hpositions : bySetPosArray rule.bySetPos with
  | none =>
      rw [hpositions] at hu
      exact walk_ge u hu
  | some positions =>
      rw [hpositions] at hu
      exact walkPeriods_ge u hu

/-! ## Windows -/

/-- The same window with no start of its own, so that it is everything from the event's start. -/
def Opts.fromStart (opts : Opts) : Opts := { opts with fromDate := none }

/-- A count that a window does not see: none of the instances within it is before the window, or
none of those past it is in the window. -/
def CountSpared (fromMs : Int) (rule : Rule) (instances : List Int) : Prop :=
  ∀ c ∈ rule.count, (∀ t ∈ instances.take c.toNat, fromMs ≤ t) ∨
    ∀ t ∈ instances.drop c.toNat, t < fromMs

theorem upToCount_filter_iff {fromMs : Int} {l : List Int} :
    upToCount rule (l.filter (fromMs ≤ ·)) = (upToCount rule l).filter (fromMs ≤ ·) ↔
      CountSpared fromMs rule l := by
  unfold upToCount CountSpared
  cases rule.count with
  | none => simp
  | some c =>
      rw [Option.elim_some, Option.elim_some, take_filter_iff]
      simp

theorem expandRecurrence_eq {event : Event} {opts : Opts} {startMs : Int} {es : List Expanded}
    (hstart : event.start.bind DateText.ms = some startMs) (hrules : event.recurrenceRules ≠ [])
    (hwindow : checkWindow opts = .ok ())
    (hes : expandRules (boundsOf startMs opts) event.recurrenceRules stepBudget = .ok es)
    (hcaps : BelowCaps (maxCountOf opts) es) :
    expandRecurrence event opts = .ok (united (es.map Expanded.instances)) := by
  rw [expandRecurrence, if_neg hrules, hwindow, hstart]
  show (expandRules _ _ _ >>= fun es => Except.ok _) = _
  rw [hes]
  exact congrArg Except.ok (List.take_of_length_le hcaps.2)

/-- An expansion over a window, against the one from the event's start: they agree, and each rule
has its count of instances from the start on, exactly when the window sees no rule's count. -/
theorem windows_agree (event : Event) (opts : Opts) {startMs fromMs toMs : Int}
    {fromText toText : JsString} {full win : List Expanded}
    (hstart : event.start.bind DateText.ms = some startMs) (hrules : event.recurrenceRules ≠ [])
    (hfrom : opts.fromDate = some ⟨fromText, some fromMs⟩)
    (hto : opts.toDate = some ⟨toText, some toMs⟩) (hle : fromMs ≤ toMs)
    (hspan : toMs - fromMs ≤ maxExpandSpanMs)
    (hfull : expandRules (boundsOf startMs opts.fromStart) event.recurrenceRules stepBudget =
      .ok full)
    (hwin : expandRules (boundsOf startMs opts) event.recurrenceRules stepBudget = .ok win)
    (hcapsFull : BelowCaps (maxCountOf opts) full) (hcaps : BelowCaps (maxCountOf opts) win) :
    (expandRecurrence event opts.fromStart = .ok (united (full.map Expanded.instances)) ∧
      full.map Expanded.instances = event.recurrenceRules.map fun r =>
        upToCount r (occurrences startMs opts.toDate r)) ∧
    (∀ r ∈ event.recurrenceRules, ∀ t ∈ occurrences startMs opts.toDate r, startMs ≤ t) ∧
    ((expandRecurrence event opts =
          .ok (united (full.map fun e => e.instances.filter (fromMs ≤ ·))) ∧
        win.map Expanded.instances = full.map fun e => e.instances.filter (fromMs ≤ ·)) ↔
      ∀ r ∈ event.recurrenceRules, CountSpared fromMs r (occurrences startMs opts.toDate r)) := by
  have hfullInstances : full.map Expanded.instances = event.recurrenceRules.map fun r =>
      upToCount r (occurrences startMs opts.toDate r) := by
    rw [expandRules_occurrences hfull (Nat.le_refl _) hcapsFull.1]
    refine List.map_congr_left fun r _ => ?_
    exact congrArg (upToCount r) (List.filter_eq_self.mpr fun _ _ => rfl)
  have hreached : fromReached (boundsOf startMs opts) = fun t => decide (fromMs ≤ t) := by
    funext t
    rw [fromReached, boundsOf, hfrom]
    rfl
  have hwinInstances := expandRules_occurrences hwin (Nat.le_refl _) hcaps.1
  rw [hreached] at hwinInstances
  have hfiltered : (full.map fun e => e.instances.filter (fromMs ≤ ·)) =
      event.recurrenceRules.map fun r =>
        (upToCount r (occurrences startMs opts.toDate r)).filter (fromMs ≤ ·) := by
    have hmap := congrArg (List.map (List.filter (fromMs ≤ ·))) hfullInstances
    rwa [List.map_map, List.map_map] at hmap
  have hsame : (win.map Expanded.instances = full.map fun e => e.instances.filter (fromMs ≤ ·)) ↔
      ∀ r ∈ event.recurrenceRules, CountSpared fromMs r (occurrences startMs opts.toDate r) := by
    rw [hwinInstances, hfiltered, List.map_inj_left]
    exact forall₂_congr fun r _ => upToCount_filter_iff
  have hchecked : checkWindow opts = .ok () := by
    rw [checkWindow, hfrom, hto]
    dsimp only
    rw [if_neg (by omega), if_neg (by omega)]
  refine ⟨⟨expandRecurrence_eq hstart hrules rfl hfull hcapsFull, hfullInstances⟩,
    fun _ _ => occurrences_ge, fun h => hsame.mp h.2, fun h => ⟨?_, hsame.mpr h⟩⟩
  rw [expandRecurrence_eq hstart hrules hchecked hwin hcaps, hsame.mpr h]

/-- Every day from nine o'clock on 22 May 2026. -/
def everyDay (count : Option Int) : Rule :=
  ⟨.daily, none, count, none, [], [], [], [], [], [], [], [], []⟩

def meeting (count : Option Int) : Event :=
  ⟨some ⟨units "2026-05-22T09:00:00", some 1779440400000⟩, [everyDay count]⟩

/-- The instant the meeting is at on the next day. -/
def nextDay : Opts :=
  ⟨some ⟨units "2026-05-23T09:00:00Z", some 1779526800000⟩,
    some ⟨units "2026-05-23T09:00:00Z", some 1779526800000⟩, none⟩

theorem belowCaps_one {e : Expanded} {maxCount : Nat} (hlength : e.instances.length < maxCount)
    (hpos : 0 < e.stepBudgetRemaining) : BelowCaps maxCount [e] := by
  refine ⟨fun e' he' => ?_, ?_⟩
  · rw [List.mem_singleton.mp he']
    exact ⟨hlength, hpos⟩
  · rw [united, List.length_mergeSort, List.map_singleton, List.flatten_singleton]
    have := List.Sublist.length_le (List.dedup_sublist (e.instances.map msToIsoZ))
    rw [List.length_map] at this
    omega

/-- The meeting is twice; a window on the second day has it once. -/
theorem windows_agree_meeting :
    expandRecurrence (meeting (some 2)) nextDay = .ok (united [[1779526800000]]) := by
  have hfull : expandRules (boundsOf 1779440400000 nextDay.fromStart)
      (meeting (some 2)).recurrenceRules stepBudget =
      .ok [⟨[1779440400000, 1779526800000], 1499134⟩] := rfl
  have hwin : expandRules (boundsOf 1779440400000 nextDay) (meeting (some 2)).recurrenceRules
      stepBudget = .ok [⟨[1779526800000], 1499133⟩] := rfl
  have hspared : ∀ r ∈ (meeting (some 2)).recurrenceRules,
      CountSpared 1779526800000 r (occurrences 1779440400000 nextDay.toDate r) := by
    intro r hr c hc
    obtain rfl := List.mem_singleton.mp hr
    obtain rfl := Option.some.inj hc
    have hdays : occurrences 1779440400000 nextDay.toDate (everyDay (some 2)) =
        [1779440400000, 1779526800000] := rfl
    rw [hdays]
    exact .inr fun t ht => nomatch ht
  exact ((windows_agree (meeting (some 2)) nextDay rfl (List.cons_ne_nil _ _) rfl rfl (by decide)
    (by decide) hfull hwin (belowCaps_one (by decide) (by decide))
    (belowCaps_one (by decide) (by decide))).2.2.mpr hspared).1

/-- The meeting is once, on 22 May; a window on the next day has it then. -/
theorem later_window_creates :
    expandRecurrence (meeting (some 1)) nextDay.fromStart =
        .ok [units "2026-05-22T09:00:00Z"] ∧
      expandRecurrence (meeting (some 1)) nextDay = .ok [units "2026-05-23T09:00:00Z"] := by
  have hfull : expandRules (boundsOf 1779440400000 nextDay.fromStart)
      (meeting (some 1)).recurrenceRules stepBudget = .ok [⟨[1779440400000], 1499135⟩] := rfl
  have hwin : expandRules (boundsOf 1779440400000 nextDay) (meeting (some 1)).recurrenceRules
      stepBudget = .ok [⟨[1779526800000], 1499134⟩] := rfl
  refine ⟨(expandRecurrence_eq rfl (List.cons_ne_nil _ _) rfl hfull
    (belowCaps_one (by decide) (by decide))).trans (congrArg Except.ok ?_),
    (expandRecurrence_eq rfl (List.cons_ne_nil _ _) rfl hwin
    (belowCaps_one (by decide) (by decide))).trans (congrArg Except.ok ?_)⟩
  · exact List.mergeSort_singleton _
  · exact List.mergeSort_singleton _

end Blamejs.Calendar
