import Blamejs.Ref.AiQuota
import Blamejs.Js.DateOrder
import Blamejs.Lib.TimeGrid
import Blamejs.Lib.Run

/-!
# What a usage budget lets through

The slot of a pair and a window holds what was charged to them: its key tells pairs and windows
apart, and it lives at least as long as its window, which has begun when it is made. It is lost
only to a call that reads the clock for its window just before this ends and for the store just
after. An override is found under a name that does not tell all pairs apart.
-/

namespace Blamejs.AiQuota

open Blamejs.Js Run

/-! ## Windows -/

/-- The months, counted through. -/
def months : TimeGrid where
  start i := Date.makeDay 0 i 1 * Date.msPerDay
  start_lt i := by
    have := Date.makeDay_lt_succ i
    unfold Date.msPerDay
    omega
  index t := 12 * Date.getUTCFullYear t + Date.getUTCMonth t
  start_le t := by
    have hday := (Date.dayOf_month t).1
    rw [Date.makeDay_index] at hday
    unfold Date.dayOf Date.msPerDay at *
    omega
  lt_start t := by
    have hday := (Date.dayOf_month t).2
    rw [Date.makeDay_index, ← Int.add_assoc] at hday
    unfold Date.dayOf Date.msPerDay at *
    omega

theorem hour_pos : (0 : Int) < 3600000 := by decide

/-- The windows of a period. -/
def Period.grid : Period → TimeGrid
  | second => .every 1000 0 (by decide)
  | minute => .every 60000 0 (by decide)
  | hour => .every 3600000 0 hour_pos
  | day => .every Date.msPerDay 0 (by decide)
  | week => .every (7 * Date.msPerDay) (-3 * Date.msPerDay) (by decide)
  | month => months

theorem utc_eq {year month date hours : Int} {t : Int} (hyear : 1900 ≤ year)
    (ht : Date.makeDay year month date * Date.msPerDay + hours * 3600000 = t)
    (hclip : 0 ≤ t ∧ t ≤ 8640000000000000) :
    Date.utc year month date hours 0 0 0 = some t := by
  rw [Date.utc, if_neg (by omega), Date.timeClip, Date.makeTime]
  have hsum : Date.makeDay year month date * Date.msPerDay +
      (hours * 3600000 + 0 * 60000 + 0 * 1000 + 0) = t := by omega
  rw [hsum, if_pos (by omega)]

theorem year_le {t : Int} (h : 0 ≤ t) : 1970 ≤ Date.getUTCFullYear t := by
  have hday : 0 ≤ Date.dayOf t := Int.ediv_nonneg h (by decide)
  exact Date.yearOfDay_mono hday

/-- The month of an instant is counted from the first, and the next one is on the calendar. -/
theorem months_bounds {now : Int} (hlow : 0 ≤ now) (hhigh : now < 8600000000000000) :
    0 ≤ months.start (months.index now) ∧
      months.start (months.index now + 1) ≤ 8640000000000000 := by
  have hfirst : months.start (12 * 1970) = 0 := by decide +kernel
  have hlast : months.start (months.index 8600000000000000 + 1) ≤ 8640000000000000 := by
    decide +kernel
  have hyear := year_le hlow
  have hmonth := (Date.month_bounds now).1
  have hindex : 12 * 1970 ≤ months.index now := by
    change 12 * 1970 ≤ 12 * Date.getUTCFullYear now + Date.getUTCMonth now
    omega
  have hnext : months.index now < months.index 8600000000000000 + 1 :=
    months.strictMono.lt_iff_lt.mp
      ((months.start_le now).trans_lt (hhigh.trans (months.lt_start _)))
  refine ⟨le_trans (le_of_eq hfirst.symm) (months.strictMono.monotone hindex), le_trans ?_ hlast⟩
  exact months.strictMono.monotone (by omega)

theorem dayMid_eq {now : Int} (hlow : 0 ≤ now) (hhigh : now < 8600000000000000) :
    Date.utc (Date.getUTCFullYear now) (Date.getUTCMonth now) (Date.getUTCDate now) 0 0 0 0 =
      some (Date.dayOf now * Date.msPerDay) := by
  refine utc_eq (by have := year_le hlow; omega) (by rw [← Date.dayOf_eq]; omega) ?_
  unfold Date.dayOf Date.msPerDay
  omega

theorem windowStartFor_eq (period : Period) {now : Int} (hlow : 0 ≤ now)
    (hhigh : now < 8600000000000000) :
    windowStartFor period now = some (period.grid.start (period.grid.index now)) := by
  have hmonths := months_bounds hlow hhigh
  have hyear := year_le hlow
  cases period with
  | second =>
      change some (now - now.tmod 1000) = some (0 + 1000 * ((now - 0) / 1000))
      rw [Int.tmod_eq_emod_of_nonneg hlow, Option.some.injEq]
      omega
  | minute =>
      change some (now - now.tmod 60000) = some (0 + 60000 * ((now - 0) / 60000))
      rw [Int.tmod_eq_emod_of_nonneg hlow, Option.some.injEq]
      omega
  | hour =>
      change Date.utc _ _ _ _ 0 0 0 = some (0 + 3600000 * ((now - 0) / 3600000))
      refine utc_eq (by omega) ?_ (by omega)
      rw [← Date.dayOf_eq]
      unfold Date.dayOf Date.getUTCHours Date.timeWithinDay Date.msPerDay
      omega
  | day =>
      change Date.utc _ _ _ 0 0 0 0 = some (0 + Date.msPerDay * ((now - 0) / Date.msPerDay))
      rw [dayMid_eq hlow hhigh, Option.some.injEq]
      unfold Date.dayOf Date.msPerDay
      omega
  | week =>
      change (Date.utc _ _ _ 0 0 0 0).map _ = some (-3 * Date.msPerDay + 7 * Date.msPerDay *
        ((now - -3 * Date.msPerDay) / (7 * Date.msPerDay)))
      rw [dayMid_eq hlow hhigh, Option.map_some, Option.some.injEq]
      unfold Date.getUTCDay Date.dayOf Date.msPerDay
      omega
  | month =>
      have hle := months.start_le now
      change Date.utc _ _ 1 0 0 0 0 = some (months.start (months.index now))
      refine utc_eq (by omega) ?_ ⟨hmonths.1, by omega⟩
      rw [Date.makeDay_index, Int.zero_mul, Int.add_zero]
      rfl

theorem resetsAtFor_eq (period : Period) {now : Int} (hlow : 0 ≤ now)
    (hhigh : now < 8600000000000000) :
    resetsAtFor period (period.grid.start (period.grid.index now)) =
      some (period.grid.start (period.grid.index now + 1)) := by
  have hmonths := months_bounds hlow hhigh
  have hevery (length first i : Int) :
      first + length * i + length = first + length * (i + 1) := by
    rw [Int.mul_add, Int.mul_one, Int.add_assoc]
  cases period with
  | second => exact congrArg some (hevery 1000 0 _)
  | minute => exact congrArg some (hevery 60000 0 _)
  | hour => exact congrArg some (hevery 3600000 0 _)
  | day => exact congrArg some (hevery Date.msPerDay 0 _)
  | week => exact congrArg some (hevery (7 * Date.msPerDay) (-3 * Date.msPerDay) _)
  | month =>
      have hindex := months.index_start (months.index now)
      have hyear := year_le hmonths.1
      have hlt := months.start_lt (months.index now)
      change Date.utc (Date.getUTCFullYear (months.start (months.index now))) _ 1 0 0 0 0 =
        some (months.start (months.index now + 1))
      refine utc_eq (by omega) ?_ ⟨by omega, hmonths.2⟩
      rw [Date.makeDay_index, Int.zero_mul, Int.add_zero, ← Int.add_assoc]
      exact congrArg (fun i => Date.makeDay 0 (i + 1) 1 * Date.msPerDay) hindex

theorem windowOf_eq (period : Period) (now : Instant) :
    windowOf period now.val = (period.grid.start (period.grid.index now.val),
      period.grid.start (period.grid.index now.val + 1)) := by
  rw [windowOf, windowStartFor_eq period now.property.1 now.property.2]
  rw [Option.getD_some, resetsAtFor_eq period now.property.1 now.property.2]
  rfl

/-- Windows partition time. -/
theorem windows_partition (period : Period) (now : Instant) :
    (windowOf period now.val).1 ≤ now.val ∧ now.val < (windowOf period now.val).2 ∧
    (∀ t : Instant, (windowOf period now.val).1 ≤ t.val → t.val < (windowOf period now.val).2 →
      windowOf period t.val = windowOf period now.val) ∧
    ∀ t : Instant, t.val = (windowOf period now.val).2 →
      (windowOf period t.val).1 = (windowOf period now.val).2 := by
  rw [windowOf_eq]
  refine ⟨period.grid.start_le _, period.grid.lt_start _, fun t hlow hhigh => ?_, fun t ht => ?_⟩
  · rw [windowOf_eq, period.grid.index_eq hlow hhigh]
  · rw [windowOf_eq, ht, period.grid.index_start]

/-! ## Names -/

theorem colon_not_mem {s e : JsString} (h : encode s = some e) : unit ':' ∉ e := by
  rw [encode] at h
  split at h
  · rw [← Option.some.inj h]
    exact not_mem_encodeURIComponent (by decide) (by decide) (by decide) _
  · cases h

theorem encode_injective {s s' e : JsString} (h : encode s = some e) (h' : encode s' = some e) :
    s = s' := by
  rw [encode] at h h'
  split at h
  · next hs =>
      split at h'
      · next hs' =>
          have hscalars := encodeURIComponent_injective
            ((Option.some.inj h).trans (Option.some.inj h').symm)
          rw [← hs, ← hs', hscalars]
      · cases h'
  · cases h

theorem intText_injective : Function.Injective intText := by
  intro z z' h
  have hdash (n : Nat) (l : JsString) : natText n ≠ unit '-' :: l := by
    intro heq
    have := isDigitUnit_of_mem_natText (heq ▸ List.mem_cons_self : unit '-' ∈ natText n)
    exact absurd this (by decide)
  have hnat {n n' : Nat} (h : natText n = natText n') : n = n' := by
    rw [← digitsValue_natText n, h, digitsValue_natText]
  rw [intText, intText] at h
  split at h
  · split at h
    · have := hnat (List.cons.inj h).2
      omega
    · exact absurd h.symm (hdash _ _)
  · split at h
    · exact absurd h (hdash _ _)
    · have := hnat h
      omega

theorem split_colon {a b x y : JsString} (ha : unit ':' ∉ a) (hb : unit ':' ∉ b)
    (h : a ++ unit ':' :: x = b ++ unit ':' :: y) : a = b ∧ x = y := by
  rcases List.append_eq_append_iff.mp h with ⟨c, rfl, hc⟩ | ⟨c, rfl, hc⟩
  · rcases List.cons_eq_append_iff.mp hc with ⟨rfl, hy⟩ | ⟨d, rfl, -⟩
    · exact ⟨(List.append_nil a).symm, (List.cons.inj hy).2.symm⟩
    · exact absurd (List.mem_append_right _ (List.mem_cons_self)) hb
  · rcases List.cons_eq_append_iff.mp hc with ⟨rfl, hx⟩ | ⟨d, rfl, -⟩
    · exact ⟨List.append_nil b, (List.cons.inj hx).2⟩
    · exact absurd (List.mem_append_right _ (List.mem_cons_self)) ha

/-- The parts of a key. -/
theorem keyFor_eq_some {o : Opts} {t m k : JsString} {w : Int} (h : keyFor o t m w = some k) :
    ∃ tenant model, encode t = some tenant ∧ encode m = some model ∧
      k = units "aiq:" ++ o.dimension.text ++ unit ':' :: o.period.text ++ unit ':' ::
        (tenant ++ unit ':' :: (model ++ unit ':' :: intText w)) := by
  obtain ⟨start, hstart, h⟩ := Option.bind_eq_some_iff.mp h
  obtain ⟨model, hmodel, h⟩ := Option.bind_eq_some_iff.mp h
  obtain ⟨tenant, htenant, rfl⟩ := Option.map_eq_some_iff.mp hstart
  refine ⟨tenant, model, htenant, hmodel, ?_⟩
  rw [← Option.some.inj h]
  simp

/-- A key tells tenants, models and windows apart. -/
theorem keyFor_injective {o : Opts} {t m t' m' k : JsString} {w w' : Int}
    (h : keyFor o t m w = some k) (h' : keyFor o t' m' w' = some k) :
    t = t' ∧ m = m' ∧ w = w' := by
  obtain ⟨tenant, model, ht, hm, rfl⟩ := keyFor_eq_some h
  obtain ⟨tenant', model', ht', hm', heq⟩ := keyFor_eq_some h'
  rw [List.append_cancel_left_eq, List.cons.injEq] at heq
  obtain ⟨rfl, hrest⟩ := split_colon (colon_not_mem ht) (colon_not_mem ht') heq.2
  obtain ⟨rfl, htext⟩ := split_colon (colon_not_mem hm) (colon_not_mem hm') hrest
  exact ⟨encode_injective ht ht', encode_injective hm hm', intText_injective htext⟩

/-- A key begins as those of a tenant do just when it is one of these. -/
theorem prefix_keyFor {o : Opts} {t t' m k start : JsString} {w : Int}
    (hstart : keyPrefixForTenant o t' = some start) (h : keyFor o t m w = some k) :
    start <+: k ↔ t = t' := by
  obtain ⟨tenant, model, ht, -, rfl⟩ := keyFor_eq_some h
  obtain ⟨tenant', ht', rfl⟩ := Option.map_eq_some_iff.mp hstart
  constructor
  · rintro ⟨more, heq⟩
    rw [List.append_assoc, List.append_assoc, List.append_cancel_left_eq, List.cons_append,
      List.cons.injEq] at heq
    have hsplit := split_colon (colon_not_mem ht') (colon_not_mem ht) heq.2
    exact encode_injective ht (hsplit.1 ▸ ht')
  · rintro rfl
    rw [ht] at ht'
    rw [← Option.some.inj ht']
    exact ⟨model ++ unit ':' :: intText w, by simp⟩

/-! ## Charges -/

variable {o : Opts} {s s' : St} {now storeNow clock : Instant} {t m t' m' k : JsString} {w w' : Int}

/-- The charges of a pair and a window. -/
def Charge.At (t m : JsString) (w : Int) (c : Charge) : Prop :=
  c.tenantId = t ∧ c.model = m ∧ c.windowStart = w

instance : DecidablePred (Charge.At t m w) := fun _ => inferInstanceAs (Decidable (_ ∧ _ ∧ _))

/-- What the charges of some kind to a pair and a window come to. -/
def total (kind : Charge → Bool) (charges : List Charge) (t m : JsString) (w : Int) : Rat :=
  ((charges.filter fun c => c.At t m w && kind c).map Charge.amount).sum

def everyCharge (_ : Charge) : Bool := true

def hardCharge (c : Charge) : Bool := c.mode = .hard

theorem total_append (kind : Charge → Bool) (charges : List Charge) (c : Charge) (t m : JsString)
    (w : Int) : total kind (charges ++ [c]) t m w =
      total kind charges t m w + if c.At t m w ∧ kind c = true then c.amount else 0 := by
  rw [total, total, List.filter_append, List.map_append, List.sum_append]
  by_cases h : c.At t m w ∧ kind c = true
  · rw [if_pos h, List.filter_cons_of_pos (by simpa using h)]
    simp
  · rw [if_neg h, List.filter_cons_of_neg (by simpa using h)]
    simp

theorem total_le {charges : List Charge} (h : ∀ c ∈ charges, 0 ≤ c.amount)
    (kind : Charge → Bool) (t m : JsString) (w : Int) :
    total kind charges t m w ≤ total everyCharge charges t m w := by
  induction charges with
  | nil => exact le_refl _
  | cons c charges ih =>
      have hrest := ih fun c' hc' => h c' (.tail _ hc')
      have hc := h c (.head _)
      rw [total, total, List.filter_cons, List.filter_cons]
      by_cases hat : c.At t m w
      · cases hkind : kind c with
        | true => simpa [hat, hkind, everyCharge, total] using hrest
        | false =>
            simp only [hat, everyCharge, decide_true, Bool.and_false, Bool.and_true,
              if_true, List.map_cons, List.sum_cons]
            exact le_add_of_nonneg_of_le hc (by simpa [total, everyCharge] using hrest)
      · simpa [hat, total, everyCharge] using hrest

/-- What is taken out of the charges of a pair and a window is all of them or none. -/
theorem total_filter {q : Charge → Bool} {b : Bool} (h : ∀ c : Charge, c.At t m w → q c = b)
    (kind : Charge → Bool) (charges : List Charge) :
    total kind (charges.filter fun c => !q c) t m w =
      if b then 0 else total kind charges t m w := by
  rw [total, total, List.filter_filter]
  cases b with
  | true =>
      rw [if_pos rfl]
      have hnil : (charges.filter fun c => (c.At t m w && kind c) && !q c) = [] := by
        refine List.filter_eq_nil_iff.mpr fun c _ hc => ?_
        rw [Bool.and_eq_true, Bool.and_eq_true, decide_eq_true_eq] at hc
        rw [h c hc.1.1] at hc
        cases hc.2
      rw [hnil]
      rfl
  | false =>
      rw [if_neg (by simp)]
      congr 2
      refine List.filter_congr fun c _ => ?_
      by_cases hat : c.At t m w
      · rw [h c hat, Bool.not_false, Bool.and_true]
      · simp [hat]

/-! ## One call -/

/-- What a key holds. -/
def usedAt (store : Store) (k : JsString) : Rat := ((store k).map Slot.value).getD 0

/-- The slot that a call finds for its window is alive when the store looks for it. -/
def Alive (o : Opts) (s : St) : Act → Prop
  | .consume now storeNow t m _ _ => ∀ k e, keyFor o t m (windowOf o.period now.val).1 = some k →
      s.store k = some e → storeNow.val < e.expiresAt
  | .check now storeNow t m => ∀ k e, keyFor o t m (windowOf o.period now.val).1 = some k →
      s.store k = some e → storeNow.val < e.expiresAt
  | .reset _ _ => True

theorem slot_alive {windowMs : Int} {store : Store}
    (h : ∀ e, store k = some e → storeNow.val < e.expiresAt) :
    (slot storeNow k windowMs store).value = usedAt store k ∧
      ∀ e, store k = some e → slot storeNow k windowMs store = e := by
  rw [slot, usedAt]
  cases he : store k with
  | none => exact ⟨rfl, fun e hs => by cases hs⟩
  | some e =>
      dsimp only
      rw [if_neg (Int.not_le.mpr (h e he))]
      exact ⟨rfl, fun e' he' => Option.some.inj he'⟩

theorem usedAt_update (store : Store) (k k' : JsString) (e : Slot) :
    usedAt (Function.update store k (some e)) k' = if k' = k then e.value else usedAt store k' := by
  rw [usedAt, usedAt, Function.update_apply]
  split <;> rfl

/-- A slot that is put where the store found it changes nothing that can be read. -/
theorem get_update_slot {windowMs : Int} {store : Store}
    (h : ∀ e, store k = some e → storeNow.val < e.expiresAt) (now' : Instant) (k' : JsString) :
    get now' k' (Function.update store k (some (slot storeNow k windowMs store))) =
        get now' k' store ∧
      usedAt (Function.update store k (some (slot storeNow k windowMs store))) k' =
        usedAt store k' := by
  rw [usedAt_update, (slot_alive h).1]
  by_cases hk : k' = k
  · subst hk
    refine ⟨?_, if_pos rfl⟩
    rw [get, get, Function.update_self]
    cases he : store k' with
    | none =>
        rw [slot, he]
        dsimp only
        split <;> rfl
    | some e => rw [(slot_alive h).2 e he]
  · refine ⟨?_, if_neg hk⟩
    rw [get, get, Function.update_of_ne hk]

/-- A call charges its amount to its slot, or leaves what every key holds. -/
theorem consume_cases {amount : Rat} {override : Option Mode} {store : Store}
    (halive : ∀ k e, keyFor o t m (windowOf o.period now.val).1 = some k → store k = some e →
      storeNow.val < e.expiresAt) :
    (∃ e, (consume o now storeNow t m amount override store).1 = .error e ∧
      ∀ now' k, get now' k (consume o now storeNow t m amount override store).2 =
        get now' k store ∧
        usedAt (consume o now storeNow t m amount override store).2 k = usedAt store k) ∨
    ∃ k res e, keyFor o t m (windowOf o.period now.val).1 = some k ∧ 0 ≤ amount ∧
      consume o now storeNow t m amount override store =
        (.ok res, Function.update store k (some e)) ∧
      e.value = usedAt store k + amount ∧ res.windowStart = (windowOf o.period now.val).1 ∧
      (res.enforcement = .hard → e.value ≤ limitFor o t m) := by
  have hrefused (e : Err) (h : consume o now storeNow t m amount override store =
      (.error e, store)) : ∃ e, (consume o now storeNow t m amount override store).1 = .error e ∧
      ∀ now' k, get now' k (consume o now storeNow t m amount override store).2 =
        get now' k store ∧
        usedAt (consume o now storeNow t m amount override store).2 k = usedAt store k := by
    rw [h]
    exact ⟨e, rfl, fun _ _ => ⟨rfl, rfl⟩⟩
  by_cases ht : t = []
  · exact .inl (hrefused .badTenant (by rw [consume, if_pos ht]))
  by_cases hm : m = []
  · exact .inl (hrefused .badModel (by rw [consume, if_neg ht, if_pos hm]))
  by_cases hamount : amount < 0
  · exact .inl (hrefused .badAmount (by rw [consume, if_neg ht, if_neg hm, if_pos hamount]))
  cases hkey : keyFor o t m (windowOf o.period now.val).1 with
  | none =>
      refine .inl (hrefused .malformed ?_)
      rw [consume, if_neg ht, if_neg hm, if_neg hamount]
      simp only [hkey]
  | some k =>
      have hslot := @slot_alive storeNow k
        ((windowOf o.period now.val).2 - (windowOf o.period now.val).1) store
        fun e => halive k e hkey
      by_cases hmode : override.getD o.enforcement = .hard
      · by_cases hfull : limitFor o t m < (slot storeNow k ((windowOf o.period now.val).2 -
            (windowOf o.period now.val).1) store).value + amount
        · left
          rw [consume, if_neg ht, if_neg hm, if_neg hamount]
          simp only [hkey, hmode, reserve, hfull, if_true, Bool.false_eq_true, if_false]
          exact ⟨_, rfl, get_update_slot fun e => halive k e hkey⟩
        · right
          rw [consume, if_neg ht, if_neg hm, if_neg hamount]
          simp only [hkey, hmode, reserve, hfull, if_true, if_false]
          refine ⟨k, _, _, rfl, not_lt.mp hamount, rfl, ?_, rfl, fun _ => not_lt.mp hfull⟩
          exact congrArg (· + amount) hslot.1
      · right
        rw [consume, if_neg ht, if_neg hm, if_neg hamount]
        by_cases hfull : limitFor o t m < (slot storeNow k ((windowOf o.period now.val).2 -
            (windowOf o.period now.val).1) store).value + amount
        · simp only [hkey, hmode, add, hfull, if_false, if_true]
          exact ⟨k, _, _, rfl, not_lt.mp hamount, rfl, congrArg (· + amount) hslot.1, rfl,
            fun h => absurd h hmode⟩
        · simp only [hkey, hmode, add, hfull, if_false]
          exact ⟨k, _, _, rfl, not_lt.mp hamount, rfl, congrArg (· + amount) hslot.1, rfl,
            fun h => absurd h hmode⟩

/-- What a reset leaves of a key. -/
theorem usedAt_reset {scope : Scope} {store : Store} {res : Unit}
    (h : (reset o now scope store).1 = .ok res) (hkey : keyFor o t m w = some k) :
    usedAt (reset o now scope store).2 k =
      if scope.covers (windowOf o.period now.val).1 ⟨t, m, w, 0, .hard⟩ then 0
      else usedAt store k := by
  cases scope with
  | all => rfl
  | tenant t' =>
      rw [reset] at h ⊢
      by_cases ht : t' = []
      · rw [if_pos ht] at h
        cases h
      rw [if_neg ht] at h ⊢
      cases hstart : keyPrefixForTenant o t' with
      | none =>
          rw [hstart] at h
          cases h
      | some start =>
          have hprefix := prefix_keyFor hstart hkey
          simp only [Scope.covers, usedAt, decide_eq_true_eq, hprefix]
          split <;> rfl
  | pair t' m' =>
      rw [reset] at h ⊢
      by_cases ht : t' = []
      · rw [if_pos ht] at h
        cases h
      by_cases hm : m' = []
      · rw [if_neg ht, if_pos hm] at h
        cases h
      rw [if_neg ht, if_neg hm] at h ⊢
      cases hkey' : keyFor o t' m' (windowOf o.period now.val).1 with
      | none =>
          rw [hkey'] at h
          cases h
      | some k' =>
          have hsame : k = k' ↔ t = t' ∧ m = m' ∧ w = (windowOf o.period now.val).1 := by
            refine ⟨fun hk => keyFor_injective hkey (hk ▸ hkey'), ?_⟩
            rintro ⟨rfl, rfl, rfl⟩
            exact Option.some.inj (hkey.symm.trans hkey')
          simp only [Scope.covers, usedAt, Function.update_apply, hsame, Bool.and_eq_true,
            decide_eq_true_eq, and_assoc]
          split <;> rfl

theorem reset_error {scope : Scope} {store : Store} {e : Err}
    (h : (reset o now scope store).1 = .error e) : (reset o now scope store).2 = store := by
  cases scope with
  | all => cases h
  | tenant t' =>
      rw [reset] at h ⊢
      split at h
      · next ht => rw [if_pos ht]
      · next ht =>
          rw [if_neg ht]
          cases hstart : keyPrefixForTenant o t' with
          | none => rfl
          | some start =>
              rw [hstart] at h
              cases h
  | pair t' m' =>
      rw [reset] at h ⊢
      split at h
      · next ht => rw [if_pos ht]
      · next ht =>
          rw [if_neg ht]
          split at h
          · next hm => rw [if_pos hm]
          · next hm =>
              rw [if_neg hm]
              cases hkey : keyFor o t' m' (windowOf o.period now.val).1 with
              | none => rfl
              | some k' =>
                  rw [hkey] at h
                  cases h

/-! ## A whole run -/

/-- The slots hold what was charged, and hard charges are within the limits. -/
structure Books (o : Opts) (s : St) : Prop where
  nonneg : ∀ c ∈ s.charges, 0 ≤ c.amount
  used : ∀ t m w k, keyFor o t m w = some k → usedAt s.store k = total everyCharge s.charges t m w
  hard : ∀ t m w, total hardCharge s.charges t m w ≤ limitFor o t m

theorem limitFor_pos (o : Opts) (t m : JsString) : 0 < limitFor o t m := by
  rw [limitFor]
  cases htm : o.perTenantModel.get (joinedKey t m) with
  | some v => exact o.perTenantModel.pos _ v htm
  | none =>
      cases ht : o.perTenant.get t with
      | some v => exact o.perTenant.pos _ v ht
      | none =>
          cases hm : o.perModel.get m with
          | some v => exact o.perModel.pos _ v hm
          | none => exact o.limit_pos

theorem books_init (o : Opts) (clock : Instant) : Books o (St.init clock) :=
  ⟨by simp [St.init], fun _ _ _ _ _ => rfl, fun t m w => le_of_lt (limitFor_pos o t m)⟩

theorem covers_of_at {scope : Scope} {c : Charge} (h : c.At t m w) :
    scope.covers w' c = scope.covers w' ⟨t, m, w, 0, .hard⟩ := by
  obtain ⟨rfl, rfl, rfl⟩ := h
  cases scope <;> rfl

theorem books_step {a : Act} (hb : Books o s) (halive : Alive o s a) (h : step o s a = some s') :
    Books o s' := by
  cases a with
  | consume now storeNow t m amount override =>
      rw [step] at h
      split at h
      · rcases @consume_cases o now storeNow t m amount override s.store halive with
          ⟨e, herr, hsame⟩ | ⟨k, res, e, hkey, hamount, heq, hvalue, hwindow, hlimit⟩
        · rw [← Option.some.inj h, herr]
          exact ⟨hb.nonneg, fun t m w k hk => ((hsame now k).2).trans (hb.used t m w k hk), hb.hard⟩
        · rw [← Option.some.inj h, heq]
          have hused : e.value = total everyCharge s.charges t m res.windowStart + amount := by
            rw [hvalue, hwindow, hb.used t m _ k hkey]
          rw [← hwindow] at hkey
          refine ⟨fun c hc => ?_, fun t' m' w' k' hk' => ?_, fun t' m' w' => ?_⟩
          · rcases List.mem_append.mp hc with hold | hnew
            · exact hb.nonneg c hold
            · rw [List.mem_singleton.mp hnew]
              exact hamount
          · dsimp only
            rw [usedAt_update, total_append]
            by_cases hk : k' = k
            · obtain ⟨rfl, rfl, rfl⟩ := keyFor_injective hk' (hk ▸ hkey)
              rw [if_pos hk, if_pos ⟨⟨rfl, rfl, rfl⟩, rfl⟩, hused]
            · rw [if_neg hk, if_neg, add_zero, hb.used t' m' w' k' hk']
              rintro ⟨⟨rfl, rfl, rfl⟩, -⟩
              exact hk (Option.some.inj (hk'.symm.trans hkey))
          · dsimp only
            rw [total_append]
            split
            · next hat =>
                obtain ⟨⟨rfl, rfl, rfl⟩, hhard⟩ := hat
                have hle := total_le hb.nonneg hardCharge t m res.windowStart
                have hmax := hlimit (of_decide_eq_true hhard)
                rw [hused] at hmax
                exact (add_le_add hle (le_refl _)).trans hmax
            · rw [add_zero]
              exact hb.hard t' m' w'
      · cases h
  | check now storeNow t m =>
      rw [step] at h
      split at h
      · rw [← Option.some.inj h]
        exact ⟨hb.nonneg, hb.used, hb.hard⟩
      · cases h
  | reset now scope =>
      rw [step] at h
      split at h
      · cases hres : (reset o now scope s.store).1 with
        | error e =>
            rw [← Option.some.inj h, hres, reset_error hres]
            exact ⟨hb.nonneg, hb.used, hb.hard⟩
        | ok res =>
            rw [← Option.some.inj h, hres]
            refine ⟨fun c hc => hb.nonneg c (List.mem_of_mem_filter hc), ?_, fun t m w => ?_⟩
            · intro t m w k hk
              dsimp only
              rw [usedAt_reset hres hk, total_filter fun c hat => covers_of_at hat]
              split
              · rfl
              · exact hb.used t m w k hk
            · dsimp only
              rw [total_filter fun c hat => covers_of_at hat]
              split
              · exact le_of_lt (limitFor_pos o t m)
              · exact hb.hard t m w
      · cases h

theorem books_reach (hrun : Reach (step o) (Alive o) (St.init clock) s) : Books o s :=
  hrun.invariant (books_init o clock) fun _ _ _ hb halive hstep => books_step hb halive hstep

/-! ## Slots outlive their windows -/

/-- The store reads the clock before the window of the call ends. -/
def SameWindow (o : Opts) (_ : St) : Act → Prop
  | .consume now storeNow _ _ _ _ => storeNow.val < (windowOf o.period now.val).2
  | .check now storeNow _ _ => storeNow.val < (windowOf o.period now.val).2
  | .reset _ _ => True

/-- A slot is alive till its window ends. -/
def Outlives (o : Opts) (s : St) : Prop :=
  ∀ t m i k e, keyFor o t m (o.period.grid.start i) = some k → s.store k = some e →
    o.period.grid.start (i + 1) ≤ e.expiresAt

theorem slot_expiresAt (now : Instant) (k : JsString) (windowMs : Int) (store : Store) :
    (∃ e, store k = some e ∧ (slot now k windowMs store).expiresAt = e.expiresAt) ∨
      (slot now k windowMs store).expiresAt = now.val + windowMs := by
  rw [slot]
  cases store k with
  | none => exact .inr rfl
  | some e =>
      dsimp only
      split
      · exact .inr rfl
      · exact .inl ⟨e, rfl, rfl⟩

/-- A call makes a slot of its key at most, and leaves the lives of all others. -/
theorem consume_expiresAt {amount : Rat} {override : Option Mode} {store : Store} {e : Slot}
    (h : (consume o now storeNow t m amount override store).2 k = some e) :
    (∃ e', store k = some e' ∧ e.expiresAt = e'.expiresAt) ∨
      keyFor o t m (windowOf o.period now.val).1 = some k ∧ e.expiresAt =
        storeNow.val + ((windowOf o.period now.val).2 - (windowOf o.period now.val).1) := by
  have hupdate (k' : JsString) (v : Rat)
      (hkey : keyFor o t m (windowOf o.period now.val).1 = some k')
      (h : Function.update store k' (some { slot storeNow k' ((windowOf o.period now.val).2 -
        (windowOf o.period now.val).1) store with value := v }) k = some e) :
      (∃ e', store k = some e' ∧ e.expiresAt = e'.expiresAt) ∨
      keyFor o t m (windowOf o.period now.val).1 = some k ∧ e.expiresAt =
        storeNow.val + ((windowOf o.period now.val).2 - (windowOf o.period now.val).1) := by
    by_cases hk : k = k'
    · subst hk
      rw [Function.update_self, Option.some.injEq] at h
      subst h
      exact (slot_expiresAt storeNow k _ store).imp id fun h => ⟨hkey, h⟩
    · rw [Function.update_of_ne hk] at h
      exact .inl ⟨e, h, rfl⟩
  rw [consume] at h
  split at h
  · exact .inl ⟨e, h, rfl⟩
  split at h
  · exact .inl ⟨e, h, rfl⟩
  split at h
  · exact .inl ⟨e, h, rfl⟩
  cases hkey : keyFor o t m (windowOf o.period now.val).1 with
  | none =>
      simp only [hkey] at h
      exact .inl ⟨e, h, rfl⟩
  | some k' =>
      rw [← hkey]
      by_cases hmode : override.getD o.enforcement = .hard
      · by_cases hfull : limitFor o t m < (slot storeNow k' ((windowOf o.period now.val).2 -
            (windowOf o.period now.val).1) store).value + amount
        · simp only [hkey, hmode, reserve, hfull, if_true, Bool.false_eq_true, if_false] at h
          exact hupdate k' _ hkey h
        · simp only [hkey, hmode, reserve, hfull, if_true, if_false] at h
          exact hupdate k' _ hkey h
      · by_cases hfull : limitFor o t m < (slot storeNow k' ((windowOf o.period now.val).2 -
            (windowOf o.period now.val).1) store).value + amount
        · simp only [hkey, hmode, add, hfull, if_true, if_false] at h
          exact hupdate k' _ hkey h
        · simp only [hkey, hmode, add, hfull, if_false] at h
          exact hupdate k' _ hkey h

theorem reset_eq_some {scope : Scope} {store : Store} {e : Slot}
    (h : (reset o now scope store).2 k = some e) : store k = some e := by
  cases scope with
  | all => cases h
  | tenant t' =>
      rw [reset] at h
      split at h
      · exact h
      · cases hstart : keyPrefixForTenant o t' with
        | none =>
            rw [hstart] at h
            exact h
        | some start =>
            simp only [hstart] at h
            split at h
            · cases h
            · exact h
  | pair t' m' =>
      rw [reset] at h
      split at h
      · exact h
      split at h
      · exact h
      cases hkey : keyFor o t' m' (windowOf o.period now.val).1 with
      | none =>
          rw [hkey] at h
          exact h
      | some k' =>
          simp only [hkey, Function.update_apply] at h
          split at h
          · cases h
          · exact h

theorem outlives_step {a : Act} (hlive : Outlives o s) (h : step o s a = some s') :
    Outlives o s' := by
  intro t' m' i k e hkey he
  cases a with
  | consume now storeNow t m amount override =>
      rw [step] at h
      split at h
      · next hclock =>
          rw [← Option.some.inj h] at he
          rcases consume_expiresAt he with ⟨e', he', hsame⟩ | ⟨hkey', hlife⟩
          · rw [hsame]
            exact hlive t' m' i k e' hkey he'
          · rw [windowOf_eq] at hkey' hlife
            have hi : i = o.period.grid.index now.val :=
              o.period.grid.strictMono.injective (keyFor_injective hkey hkey').2.2
            have hstart := o.period.grid.start_le now.val
            rw [hlife, hi]
            have := hclock.2
            dsimp only
            omega
      · cases h
  | check now storeNow t m =>
      rw [step] at h
      split at h
      · rw [← Option.some.inj h] at he
        exact hlive t' m' i k e hkey he
      · cases h
  | reset now scope =>
      rw [step] at h
      split at h
      · rw [← Option.some.inj h] at he
        exact hlive t' m' i k e hkey (reset_eq_some he)
      · cases h

/-- A slot is alive at every reading of the clock in its window. -/
theorem alive_of_sameWindow {a : Act} (hlive : Outlives o s) (hsame : SameWindow o s a) :
    Alive o s a := by
  cases a with
  | consume now storeNow t m amount override =>
      intro k e hkey he
      simp only [SameWindow, windowOf_eq] at hsame
      rw [windowOf_eq] at hkey
      exact hsame.trans_le (hlive t m _ k e hkey he)
  | check now storeNow t m =>
      intro k e hkey he
      simp only [SameWindow, windowOf_eq] at hsame
      rw [windowOf_eq] at hkey
      exact hsame.trans_le (hlive t m _ k e hkey he)
  | reset now scope => trivial

theorem reach_of_sameWindow (h : Reach (step o) (SameWindow o) (St.init clock) s) :
    Reach (step o) (Alive o) (St.init clock) s ∧ Outlives o s := by
  induction h with
  | start => exact ⟨.start, fun _ _ _ _ _ _ he => by cases he⟩
  | next _ hok hstep ih =>
      exact ⟨.next ih.1 (alive_of_sameWindow ih.2 hok) hstep, outlives_step ih.2 hstep⟩

theorem meets_alive {as : List Act} {s : St} (h : Outlives o s)
    (hmeets : Meets (step o) (SameWindow o) s as) : Meets (step o) (Alive o) s as := by
  induction as generalizing s with
  | nil => trivial
  | cons a as ih =>
      obtain ⟨hok, hrest⟩ := hmeets
      refine ⟨alive_of_sameWindow h hok, ?_⟩
      cases hstep : step o s a with
      | none => trivial
      | some s' =>
          rw [hstep] at hrest
          exact ih (outlives_step h hstep) hrest

/-! ## Overrides -/

/-- No name of an override can be split at two signs. -/
def OneBar (o : Opts) : Prop :=
  ∀ a b c, a ≠ [] → c ≠ [] →
    o.perTenantModel.get (a ++ unit '|' :: (b ++ unit '|' :: c)) = none

/-- Two pairs share an override. -/
def SharesOverride (o : Opts) (t m t' m' : JsString) : Prop :=
  (t, m) ≠ (t', m') ∧ joinedKey t m = joinedKey t' m' ∧
    o.perTenantModel.get (joinedKey t m) ≠ none

theorem sharesOverride_iff (o : Opts) :
    (∀ t m t' m', t ≠ [] → m ≠ [] → t' ≠ [] → m' ≠ [] → ¬ SharesOverride o t m t' m') ↔
      OneBar o := by
  constructor
  · intro h a b c ha hc
    by_contra hget
    refine h a (b ++ unit '|' :: c) (a ++ unit '|' :: b) c ha (by simp) (by simp) hc ⟨?_, ?_, hget⟩
    · intro heq
      have := congrArg List.length (Prod.mk.inj heq).2
      simp only [List.length_append, List.length_cons] at this
      omega
    · simp [joinedKey]
  · rintro h t m t' m' ht hm ht' hm' ⟨hne, hkey, hget⟩
    have hjoined : t ++ unit '|' :: m = t' ++ unit '|' :: m' := hkey
    rcases List.append_eq_append_iff.mp hjoined with ⟨d, rfl, hd⟩ | ⟨d, rfl, hd⟩
    · rcases List.cons_eq_append_iff.mp hd with ⟨rfl, hm⟩ | ⟨d, rfl, rfl⟩
      · rw [List.append_nil] at hne
        exact hne (by rw [(List.cons.inj hm).2])
      · exact hget (h t d m' ht hm')
    · rcases List.cons_eq_append_iff.mp hd with ⟨rfl, hm⟩ | ⟨d, rfl, rfl⟩
      · rw [List.append_nil] at hne
        exact hne (by rw [(List.cons.inj hm).2])
      · rw [hkey] at hget
        exact hget (h t' d m ht' hm)

/-! ## The budget -/

theorem check_ok {store : Store} {res : Result} (h : check o now storeNow t m store = .ok res) :
    ∃ k, keyFor o t m (windowOf o.period now.val).1 = some k ∧ res.used = get storeNow k store := by
  rw [check] at h
  split at h
  · cases h
  split at h
  · cases h
  cases hkey : keyFor o t m (windowOf o.period now.val).1 with
  | none =>
      simp only [hkey] at h
      cases h
  | some k =>
      simp only [hkey, Except.ok.injEq] at h
      exact ⟨k, rfl, by rw [← h]; rfl⟩

theorem get_alive {store : Store} (h : ∀ e, store k = some e → storeNow.val < e.expiresAt) :
    get storeNow k store = usedAt store k := by
  rw [get, usedAt]
  cases he : store k with
  | none => rfl
  | some e =>
      dsimp only
      rw [if_neg (Int.not_le.mpr (h e he))]
      rfl

theorem check_congr {store store' : Store}
    (h : ∀ k, get storeNow k store' = get storeNow k store) :
    check o now storeNow t m store' = check o now storeNow t m store := by
  rw [check, check]
  simp only [h]

/-- Windows partition time; and in runs whose calls find the slots of their windows alive, hard
charges are within the limits, a refused call changes nothing, and a check tells what was charged.
Pairs share no override just when no name of one can be split at two signs. -/
theorem quota_keeps (hrun : Reach (step o) (Alive o) (St.init clock) s) :
    (∀ now : Instant, (windowOf o.period now.val).1 ≤ now.val ∧
      now.val < (windowOf o.period now.val).2 ∧
      (∀ t : Instant, (windowOf o.period now.val).1 ≤ t.val →
        t.val < (windowOf o.period now.val).2 →
        windowOf o.period t.val = windowOf o.period now.val) ∧
      ∀ t : Instant, t.val = (windowOf o.period now.val).2 →
        (windowOf o.period t.val).1 = (windowOf o.period now.val).2) ∧
    (∀ t m w, total hardCharge s.charges t m w ≤ limitFor o t m) ∧
    (∀ now storeNow t m amount override s' e,
      Alive o s (.consume now storeNow t m amount override) →
      step o s (.consume now storeNow t m amount override) = some s' →
      (consume o now storeNow t m amount override s.store).1 = .error e →
      s'.charges = s.charges ∧ ∀ now' storeNow' t' m',
        check o now' storeNow' t' m' s'.store = check o now' storeNow' t' m' s.store) ∧
    (∀ now storeNow t m res, Alive o s (.check now storeNow t m) →
      check o now storeNow t m s.store = .ok res →
      res.used = total everyCharge s.charges t m (windowOf o.period now.val).1) ∧
    ((∀ t m t' m', t ≠ [] → m ≠ [] → t' ≠ [] → m' ≠ [] → ¬ SharesOverride o t m t' m') ↔
      OneBar o) := by
  have hbooks := books_reach hrun
  refine ⟨windows_partition o.period, hbooks.hard, ?_, ?_, sharesOverride_iff o⟩
  · intro now storeNow t m amount override s' e halive hstep herr
    rw [step] at hstep
    split at hstep
    · rw [← Option.some.inj hstep, herr]
      refine ⟨rfl, fun now' storeNow' t' m' => check_congr fun k => ?_⟩
      rcases @consume_cases o now storeNow t m amount override s.store halive with
        ⟨_, -, hsame⟩ | ⟨_, _, _, -, -, heq, -⟩
      · exact (hsame storeNow' k).1
      · rw [heq] at herr
        cases herr
    · cases hstep
  · intro now storeNow t m res halive hcheck
    obtain ⟨k, hkey, hused⟩ := check_ok hcheck
    rw [hused, get_alive fun e => halive k e hkey, hbooks.used t m _ k hkey]

def noOverrides : LimitMap := ⟨fun _ => none, fun _ _ h => by cases h⟩

theorem ten_pos : (0 : Rat) < 10 := by decide

/-- Ten tokens a minute. -/
def tenTokens : Opts :=
  ⟨.tokens, .minute, 10, ten_pos, noOverrides, noOverrides, noOverrides, .hard⟩

def epoch : Instant := ⟨0, by decide, by decide⟩

/-- Two calls in one window, a third that is refused, and a check. -/
def tokenRun : List Act :=
  [.consume epoch epoch (units "acme") (units "opus") 4 none,
    .consume epoch epoch (units "acme") (units "opus") 5 none,
    .consume epoch epoch (units "acme") (units "opus") 3 none,
    .check epoch epoch (units "acme") (units "opus")]

theorem quota_keeps_tenTokens : ∃ s, exec (step tenTokens) (St.init epoch) tokenRun = some s ∧
    total hardCharge s.charges (units "acme") (units "opus") 0 = 9 ∧
    total hardCharge s.charges (units "acme") (units "opus") 0 ≤
      limitFor tenTokens (units "acme") (units "opus") := by
  have hnine : (exec (step tenTokens) (St.init epoch) tokenRun).map (fun s =>
      total hardCharge s.charges (units "acme") (units "opus") 0) = some 9 := by decide +kernel
  obtain ⟨s, hexec, hsum⟩ := Option.map_eq_some_iff.mp hnine
  have hwindow : epoch.val < (windowOf tenTokens.period epoch.val).2 := by decide
  have hmeets : Meets (step tenTokens) (Alive tenTokens) (St.init epoch) tokenRun :=
    meets_alive (fun _ _ _ _ _ _ he => by cases he) ⟨hwindow, hwindow, hwindow, hwindow, trivial⟩
  exact ⟨s, hexec, hsum, (quota_keeps (reach_of_meets _ hmeets hexec)).2.1 _ _ _⟩

theorem reach_of_sameWindow_tenTokens : ∃ s,
    exec (step tenTokens) (St.init epoch) tokenRun = some s ∧
      Reach (step tenTokens) (Alive tenTokens) (St.init epoch) s ∧ Outlives tenTokens s := by
  obtain ⟨s, hexec⟩ : ∃ s, exec (step tenTokens) (St.init epoch) tokenRun = some s := ⟨_, rfl⟩
  have hwindow : epoch.val < (windowOf tenTokens.period epoch.val).2 := by decide
  have hmeets : Meets (step tenTokens) (SameWindow tenTokens) (St.init epoch) tokenRun :=
    ⟨hwindow, hwindow, hwindow, hwindow, trivial⟩
  exact ⟨s, hexec, reach_of_sameWindow (reach_of_meets _ hmeets hexec)⟩

/-- An override of the model `b|c` for the tenant `a`, or of `c` for `a|b`. -/
def barred : Opts :=
  { tenTokens with
    perTenantModel := ⟨fun k => if k = units "a|b|c" then some 1000 else none, fun k v h => by
      split at h
      · rw [← Option.some.inj h]
        decide
      · cases h⟩ }

theorem override_shared :
    SharesOverride barred (units "a") (units "b|c") (units "a|b") (units "c") ∧
      limitFor barred (units "a") (units "b|c") = 1000 ∧
      limitFor barred (units "a|b") (units "c") = 1000 := by
  refine ⟨⟨by decide, by decide, by decide⟩, by decide, by decide⟩

/-- The last millisecond of the first minute, and the one after it. -/
def lastTick : Instant := ⟨59999, by decide, by decide⟩

def nextTick : Instant := ⟨60000, by decide, by decide⟩

-- A call that straddles the end of its window finds its slot expired.
example : (exec (step tenTokens) (St.init epoch)
    [.consume epoch epoch (units "acme") (units "opus") 10 none,
      .consume lastTick nextTick (units "acme") (units "opus") 10 none]).map
    (fun s => total hardCharge s.charges (units "acme") (units "opus") 0) = some 20 := by
  decide +kernel

end Blamejs.AiQuota
