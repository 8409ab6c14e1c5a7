import Blamejs.Proofs.AuditWalk

/-!
# Verifying a chain in two parts

`verifyChain` with `to` walks the rows up to a counter; with `from` it looks for
the last row below the counter, takes that row's stored hash on faith and walks
what comes after. The two options cut one ordered list in two places that need
not be the same place: counters are compared as JavaScript numbers, and past
`2 ^ 53` the number after `n` may be `n` again. What makes the parts add up to
the whole is only that the second cut is not above the first
(`takeWhile_prefix_of_imp`), so the row taken on faith is one the first part has
checked.
-/

namespace Blamejs.AuditChain

open Blamejs.Js Blamejs.CanonicalJson HashChain

/-- The value of a counter column that holds the integer `k`: a number, or the
digits or big integer a driver returns for a BIGINT. -/
def CounterIs (v : Value) (k : Nat) : Prop :=
  v = .num (Double.ofInt k) ∨ v = .str (natText k) ∨ v = .bigint k

/-- The answer to `SELECT … ORDER BY "monotonicCounter" ASC`. -/
def selectOrdered (counterOf : Row → Nat) (table : List Row) : List Row :=
  table.insertionSort fun r s => counterOf r ≤ counterOf s

/-- The walk is clean and ends in `e`. -/
def Clean (result : Except JsString WalkResult) (e : JsString) : Prop :=
  ∃ t n, result = .ok (.ok t n e)

theorem clean_walkRows {sha3 : List UInt8 → List UInt8} {tableName h e : JsString}
    {rows : List Row} :
    Clean (walkRows sha3 rows tableName h 0) e ↔ follow (link sha3) h rows = some e := by
  constructor
  · rintro ⟨t, n, hw⟩
    exact (walkRows_ok_iff.mp hw).2.2
  · exact fun hf => ⟨_, _, walkRows_ok_iff.mpr ⟨rfl, rfl, hf⟩⟩

/-! ## Counters as the walk reads them -/

theorem prop_coerceRow (columnTypes : JsString → Option ColumnType) (row : Row)
    (key : JsString) :
    (coerceRow columnTypes row).prop key = coerceValue (columnTypes key) (row.prop key) := by
  have hlookup : ∀ es : List (JsString × Value),
      (es.map fun p => (p.1, coerceValue (columnTypes p.1) p.2)).lookup key
        = (es.lookup key).map (coerceValue (columnTypes key)) := by
    intro es
    induction es with
    | nil => rfl
    | cons p es ih =>
        rw [List.map_cons, List.lookup_cons, List.lookup_cons, ih]
        cases hk : key == p.1 with
        | false => rfl
        | true => rw [eq_of_beq hk]; rfl
  rw [Row.prop, Row.prop, coerceRow, hlookup]
  cases row.entries.lookup key with
  | none => cases columnTypes key with
    | none => rfl
    | some t => cases t <;> rfl
  | some v => rfl

theorem toNumber_coerceValue (objectToNumber : Value → Double) (t : Option ColumnType)
    {v : Value} {k : Nat} (h : CounterIs v k) :
    toNumber objectToNumber (coerceValue t v) = Double.ofInt k := by
  rcases h with rfl | rfl | rfl
  · cases t with
    | none => rfl
    | some t => cases t <;> rfl
  · have hplain : toNumber objectToNumber (.str (natText k)) = Double.ofInt k :=
      stringToNumber_natText k
    cases t with
    | none => exact hplain
    | some t =>
        cases t with
        | int =>
            simp only [coerceValue]
            split
            · exact stringToNumber_natText k
            · exact hplain
        | blob => exact hplain
  · cases t with
    | none => rfl
    | some t => cases t <;> rfl

/-! ## Cutting an ordered list -/

section
variable {α : Type}

/-- A predicate that only ever stops holding along a list selects a prefix. -/
theorem filter_eq_takeWhile {p : α → Bool} {l : List α}
    (h : l.Pairwise fun a b => p b = true → p a = true) : l.filter p = l.takeWhile p := by
  induction l with
  | nil => rfl
  | cons a l ih =>
      rw [List.pairwise_cons] at h
      cases ha : p a with
      | true => rw [List.filter_cons_of_pos ha, List.takeWhile_cons_of_pos ha, ih h.2]
      | false =>
          rw [List.filter_cons_of_neg (by simp [ha]), List.takeWhile_cons_of_neg (by simp [ha])]
          refine List.filter_eq_nil_iff.mpr fun b hb hpb => ?_
          rw [h.1 b hb hpb] at ha
          exact absurd ha (by decide)

/-- Its negation selects the rest. -/
theorem filter_not_eq_dropWhile {p : α → Bool} {l : List α}
    (h : l.Pairwise fun a b => p b = true → p a = true) :
    l.filter (fun a => !p a) = l.dropWhile p := by
  induction l with
  | nil => rfl
  | cons a l ih =>
      rw [List.pairwise_cons] at h
      cases ha : p a with
      | true =>
          rw [List.filter_cons_of_neg (by simp [ha]), List.dropWhile_cons_of_pos ha, ih h.2]
      | false =>
          rw [List.filter_cons_of_pos (by simp [ha]), List.dropWhile_cons_of_neg (by simp [ha])]
          refine congrArg _ (List.filter_eq_self.mpr fun b hb => ?_)
          cases hpb : p b with
          | false => rfl
          | true =>
              rw [h.1 b hb hpb] at ha
              exact absurd ha (by decide)

theorem takeWhile_prefix_of_imp {p q : α → Bool} {l : List α}
    (h : ∀ a ∈ l, p a = true → q a = true) : l.takeWhile p <+: l.takeWhile q := by
  induction l with
  | nil => exact List.prefix_refl _
  | cons a l ih =>
      cases ha : p a with
      | false => rw [List.takeWhile_cons_of_neg (by simp [ha])]; exact List.nil_prefix
      | true =>
          rw [List.takeWhile_cons_of_pos ha,
            List.takeWhile_cons_of_pos (h a List.mem_cons_self ha), List.cons_prefix_cons]
          exact ⟨rfl, ih fun b hb => h b (List.mem_cons_of_mem _ hb)⟩

end

/-- The scan finds the last row of the run below `from`. -/
theorem findPred_eq {counter : Row → Double} {fromCounter skip : Double} {rows : List Row}
    (hskip : ∀ r ∈ rows, skip.lt (counter r) = true)
    (hcut : ∀ r ∈ rows, fromCounter.le (counter r) = !(counter r).lt fromCounter)
    (pred : Option Row) :
    findPred counter fromCounter skip pred rows
      = ((rows.takeWhile fun r => (counter r).lt fromCounter).getLast?).or pred := by
  induction rows generalizing pred with
  | nil => rfl
  | cons row rest ih =>
      have hs := hskip row List.mem_cons_self
      have hc := hcut row List.mem_cons_self
      rw [findPred]
      cases hlt : (counter row).lt fromCounter with
      | true =>
          rw [if_pos ⟨rfl, hs⟩, List.takeWhile_cons, hlt, if_pos rfl,
            ih (fun r hr => hskip r (List.mem_cons_of_mem _ hr))
              (fun r hr => hcut r (List.mem_cons_of_mem _ hr)), List.getLast?_cons]
          cases (rest.takeWhile fun r => (counter r).lt fromCounter).getLast? <;> rfl
      | false =>
          rw [if_neg (by simp), hc, hlt, Bool.not_false, if_pos rfl, List.takeWhile_cons, hlt]
          rfl

/-! ## The rows a verification walks -/

/-- Rows in ascending order of counters that are positive numbers. -/
structure Ascending (counter : Row → Double) (rows : List Row) : Prop where
  number : ∀ r ∈ rows, (counter r).isNaN = false
  positive : ∀ r ∈ rows, 0 < (counter r).key
  sorted : rows.Pairwise fun r s => (counter r).key ≤ (counter s).key

/-- Being below a bound only ever stops. -/
theorem Ascending.lt_down {counter : Row → Double} {rows : List Row} {f : Double}
    (h : Ascending counter rows) (hf : f.isNaN = false) :
    rows.Pairwise fun r s => (counter s).lt f = true → (counter r).lt f = true := by
  refine h.sorted.imp_of_mem fun {r s} hr hs hle => ?_
  simp only [Double.lt, hf, h.number r hr, h.number s hs, Bool.not_false, Bool.true_and,
    decide_eq_true_eq]
  omega

section
variable {sha3 : List UInt8 → List UInt8} {columnTypes : JsString → Option ColumnType}
  {objectToNumber : Value → Double} {counterOf : Row → Nat} {table : List Row}
  {tableName : JsString}

theorem counterNumber_coerced (objectToNumber : Value → Double)
    (hcounter : ∀ r ∈ table, CounterIs (r.prop (units "monotonicCounter")) (counterOf r))
    {r : Row} (hr : r ∈ (selectOrdered counterOf table).map (coerceRow columnTypes)) :
    ∃ s ∈ table, counterNumber objectToNumber r = Double.ofInt (counterOf s) := by
  obtain ⟨s, hs, rfl⟩ := List.mem_map.mp hr
  have hmem : s ∈ table := (List.mem_insertionSort _).mp hs
  refine ⟨s, hmem, ?_⟩
  rw [counterNumber, prop_coerceRow]
  exact toNumber_coerceValue _ _ (hcounter s hmem)

theorem ascending_coerced
    (hcounter : ∀ r ∈ table, CounterIs (r.prop (units "monotonicCounter")) (counterOf r))
    (hpos : ∀ r ∈ table, 0 < counterOf r) :
    Ascending (counterNumber objectToNumber)
      ((selectOrdered counterOf table).map (coerceRow columnTypes)) := by
  have hnumber : ∀ {r}, r ∈ selectOrdered counterOf table →
      counterNumber objectToNumber (coerceRow columnTypes r) = Double.ofInt (counterOf r) := by
    intro r hr
    rw [counterNumber, prop_coerceRow]
    exact toNumber_coerceValue _ _ (hcounter r ((List.mem_insertionSort _).mp hr))
  constructor
  · intro r hr
    obtain ⟨s, -, hs⟩ := counterNumber_coerced objectToNumber hcounter hr
    rw [hs]
    exact Double.isNaN_ofInt _
  · intro r hr
    obtain ⟨s, hmem, hs⟩ := counterNumber_coerced objectToNumber hcounter hr
    rw [hs]
    exact Double.key_ofInt_pos (hpos s hmem)
  · have : Std.Total fun r s : Row => counterOf r ≤ counterOf s := ⟨fun r s => Nat.le_total _ _⟩
    have : IsTrans Row fun r s => counterOf r ≤ counterOf s := ⟨fun r s t => Nat.le_trans⟩
    rw [List.pairwise_map]
    refine (List.pairwise_insertionSort _ table).imp_of_mem fun {r s} hr hs hle => ?_
    rw [hnumber hr, hnumber hs]
    exact Double.key_ofInt_mono hle

theorem zero_lt_zero : (Double.zero false).lt (Double.zero false) = false := by decide

theorem finiteBound_undefined : finiteBound objectToNumber .undefined = none := rfl

theorem verifyChain_whole {rows : List Row} :
    verifyChain sha3 columnTypes objectToNumber rows tableName none ⟨.undefined, .undefined⟩ 0
      = walkRows sha3 (rows.map (coerceRow columnTypes)) tableName zeroHash 0 := by
  simp only [verifyChain, finiteBound_undefined, selectRange, Option.map_none, Option.getD_none,
    Option.isSome_none, Bool.false_eq_true, or_false, zero_lt_zero, if_false]

theorem finiteBound_num (x : Double) :
    finiteBound objectToNumber (.num x) = if x.isFinite then some x else none := rfl

/-- `to` walks the run of rows up to the bound. -/
theorem verifyChain_to {rows : List Row} {t : Double} (ht : t.isFinite = true)
    (hrows : Ascending (counterNumber objectToNumber) (rows.map (coerceRow columnTypes))) :
    verifyChain sha3 columnTypes objectToNumber rows tableName none ⟨.undefined, .num t⟩ 0
      = walkRows sha3 ((rows.map (coerceRow columnTypes)).takeWhile fun r =>
          (counterNumber objectToNumber r).le t) tableName zeroHash 0 := by
  have hnan := Double.isNaN_of_isFinite ht
  have hfilter : selectRange (counterNumber objectToNumber) (Double.zero false) (some t)
      (rows.map (coerceRow columnTypes))
      = (rows.map (coerceRow columnTypes)).takeWhile fun r =>
          (counterNumber objectToNumber r).le t := by
    rw [← filter_eq_takeWhile, selectRange, if_pos (Or.inr Option.isSome_some)]
    · refine List.filter_congr fun r hr => ?_
      have hpos := hrows.positive r hr
      have hnum := hrows.number r hr
      have hzero : (Double.zero false).key = 0 := rfl
      simp only [Double.le, Double.lt, hnan, hnum, Bool.not_false, Bool.true_and, hzero,
        Option.any_some]
      rw [Bool.eq_iff_iff]
      simp only [Bool.and_eq_true, Bool.not_eq_true', decide_eq_false_iff_not, decide_eq_true_eq,
        Bool.and_eq_false_iff]
      omega
    · refine hrows.sorted.imp_of_mem fun {r s} hr hs hle => ?_
      simp only [Double.le, hnan, hrows.number r hr, hrows.number s hs, Bool.not_false,
        Bool.true_and, decide_eq_true_eq]
      omega
  rw [← hfilter]
  simp only [verifyChain, finiteBound_num, finiteBound_undefined, ht, if_true, Option.map_none,
    Option.getD_none]

/-- Skipping everything up to the last row below `f` leaves the rows not below
it. -/
theorem selectRange_pred {R : List Row} {f : Double} {pred : Row} (hf : f.isFinite = true)
    (hrows : Ascending (counterNumber objectToNumber) R)
    (hlast : (R.takeWhile fun r => (counterNumber objectToNumber r).lt f).getLast? = some pred) :
    selectRange (counterNumber objectToNumber)
        (Double.max (Double.zero false) (counterNumber objectToNumber pred)) none R
      = R.dropWhile fun r => (counterNumber objectToNumber r).lt f := by
  have hnan := Double.isNaN_of_isFinite hf
  have hzero : (Double.zero false).key = 0 := rfl
  have hznan : (Double.zero false).isNaN = false := by decide
  have hsplit : (R.takeWhile fun r => (counterNumber objectToNumber r).lt f) ++
      (R.dropWhile fun r => (counterNumber objectToNumber r).lt f) = R :=
    List.takeWhile_append_dropWhile
  have hbelow : ∀ r ∈ R.takeWhile (fun r => (counterNumber objectToNumber r).lt f),
      (counterNumber objectToNumber r).lt f = true := fun r hr =>
    List.mem_takeWhile_imp (p := fun r => (counterNumber objectToNumber r).lt f) hr
  obtain ⟨init, hinit⟩ := List.getLast?_eq_some_iff.mp hlast
  have hpredmem : pred ∈ R := by
    rw [← hsplit, hinit]
    simp
  have hprednum := hrows.number pred hpredmem
  have hskip : Double.max (Double.zero false) (counterNumber objectToNumber pred)
      = counterNumber objectToNumber pred := by
    simp [Double.max, Double.lt, hznan, hprednum, hzero, hrows.positive pred hpredmem]
  rw [hskip, selectRange, if_pos (Or.inl (by
    simpa [Double.lt, hznan, hprednum, hzero] using hrows.positive pred hpredmem))]
  have hsorted := hrows.sorted
  rw [← hsplit] at hsorted
  -- Below the cut every counter is at most the last one's; above it every counter is more.
  rw [← filter_not_eq_dropWhile (hrows.lt_down hnan)]
  refine List.filter_congr fun r hr => ?_
  have hrnum := hrows.number r hr
  simp only [Option.any_none, Bool.not_false, Bool.and_true]
  congr 1
  have hpredlt := hbelow pred (by rw [hinit]; simp)
  rw [Bool.eq_iff_iff]
  constructor
  · intro hle
    simp only [Double.le, Double.lt, hnan, hrnum, hprednum, Bool.not_false, Bool.true_and,
      decide_eq_true_eq] at hle hpredlt ⊢
    omega
  · intro hlt
    have hrmem : r ∈ init ++ [pred] := by
      rw [← hinit, ← filter_eq_takeWhile (hrows.lt_down hnan), List.mem_filter]
      exact ⟨hr, hlt⟩
    have hle : (counterNumber objectToNumber r).key ≤ (counterNumber objectToNumber pred).key := by
      rcases List.mem_append.mp hrmem with hr' | hr'
      · rw [hinit, List.append_assoc, List.pairwise_append] at hsorted
        exact hsorted.2.2 r hr' pred (by simp)
      · rw [List.mem_singleton.mp hr']
    simpa [Double.le, hrnum, hprednum] using hle

/-- `from` walks the rows not below the bound, from the stored hash of the last
row that is. -/
theorem verifyChain_from {rows : List Row} {f : Double} (hf : f.isFinite = true)
    (hone : (Double.ofInt 1).lt f = true)
    (hrows : Ascending (counterNumber objectToNumber) (rows.map (coerceRow columnTypes))) :
    verifyChain sha3 columnTypes objectToNumber rows tableName none ⟨.num f, .undefined⟩ 0
      = match ((rows.map (coerceRow columnTypes)).takeWhile fun r =>
            (counterNumber objectToNumber r).lt f).getLast? with
        | none => walkRows sha3 (rows.map (coerceRow columnTypes)) tableName zeroHash 0
        | some pred =>
            match pred.text? "rowHash" with
            | none => .ok (.refused tableName
                (units "incremental-verify anchor row has a corrupt rowHash"))
            | some hash =>
                if isHex hash sha3HexLen then
                  walkRows sha3 ((rows.map (coerceRow columnTypes)).dropWhile fun r =>
                    (counterNumber objectToNumber r).lt f) tableName hash 0
                else .ok (.refused tableName
                  (units "incremental-verify anchor row has a corrupt rowHash")) := by
  have hnan := Double.isNaN_of_isFinite hf
  have hzero : (Double.zero false).key = 0 := rfl
  have hznan : (Double.zero false).isNaN = false := by decide
  have hadd : (Double.zero false).add (Double.ofInt 1) = Double.ofInt 1 := by decide +kernel
  generalize hR : rows.map (coerceRow columnTypes) = R at hrows
  have hscan := @findPred_eq (counterNumber objectToNumber) f (Double.zero false) R
    (fun r hr => by
      simpa [Double.lt, hznan, hrows.number r hr, hzero] using hrows.positive r hr)
    (fun r hr => by
      simp only [Double.le, Double.lt, hnan, hrows.number r hr, Bool.not_false, Bool.true_and,
        ← decide_not, Int.not_lt]) none
  rw [Option.or_none] at hscan
  simp only [verifyChain, finiteBound_num, finiteBound_undefined, hf, if_true, hR, Option.map_none,
    Option.getD_none, hadd, hone, hscan]
  cases hlast : (R.takeWhile fun r => (counterNumber objectToNumber r).lt f).getLast? with
  | none =>
      simp only [selectRange, Option.isSome_none, Bool.false_eq_true, or_false, zero_lt_zero,
        if_false]
  | some pred =>
      have hcut := selectRange_pred hf hrows hlast
      simp only [hcut]
      cases pred.text? "rowHash" <;> rfl

/-! ## The parts and the whole -/

/-- Without a usable bound the option is ignored. -/
theorem verifyChain_unbounded {rows : List Row} {from_ to_ : Value}
    (hfrom : finiteBound objectToNumber from_ = none)
    (hto : finiteBound objectToNumber to_ = none) :
    verifyChain sha3 columnTypes objectToNumber rows tableName none ⟨from_, to_⟩ 0
      = walkRows sha3 (rows.map (coerceRow columnTypes)) tableName zeroHash 0 := by
  simp only [verifyChain, hfrom, hto, selectRange, Option.map_none, Option.getD_none,
    Option.isSome_none, Bool.false_eq_true, or_false, zero_lt_zero, if_false]

/-- `{to: n}` walks a run of rows from the first; it contains every row below
`n + 1`, and is the whole table when no counter exceeds `n`. -/
theorem verifyChain_to_run {n : Nat}
    (hcounter : ∀ r ∈ table, CounterIs (r.prop (units "monotonicCounter")) (counterOf r))
    (hpos : ∀ r ∈ table, 0 < counterOf r) :
    ∃ P, P <+: (selectOrdered counterOf table).map (coerceRow columnTypes) ∧
      ((selectOrdered counterOf table).map (coerceRow columnTypes)).takeWhile
        (fun r => (counterNumber objectToNumber r).lt (Double.ofInt (n + 1 : Nat))) <+: P ∧
      ((∀ r ∈ table, counterOf r ≤ n) →
        P = (selectOrdered counterOf table).map (coerceRow columnTypes)) ∧
      verifyChain sha3 columnTypes objectToNumber (selectOrdered counterOf table) tableName none
        ⟨.undefined, .num (Double.ofInt n)⟩ 0 = walkRows sha3 P tableName zeroHash 0 := by
  have hle : ∀ r ∈ (selectOrdered counterOf table).map (coerceRow columnTypes), ∀ s ∈ table,
      counterNumber objectToNumber r = Double.ofInt (counterOf s) → counterOf s ≤ n →
      (counterNumber objectToNumber r).le (Double.ofInt n) = true := by
    intro r _ s _ hrs hsn
    simp only [Double.le, hrs, Double.isNaN_ofInt, Bool.not_false, Bool.true_and,
      decide_eq_true_eq]
    exact Double.key_ofInt_mono hsn
  cases hfin : (Double.ofInt n).isFinite with
  | false =>
      refine ⟨_, List.prefix_refl _, List.takeWhile_prefix _, fun _ => rfl, ?_⟩
      exact verifyChain_unbounded rfl (by rw [finiteBound_num, hfin]; rfl)
  | true =>
      refine ⟨_, List.takeWhile_prefix _, ?_, ?_, verifyChain_to hfin
        (ascending_coerced hcounter hpos)⟩
      · refine takeWhile_prefix_of_imp fun r hr hlt => ?_
        obtain ⟨s, hmem, hs⟩ := counterNumber_coerced objectToNumber hcounter hr
        refine hle r hr s hmem hs (Nat.le_of_not_lt fun hns => ?_)
        have hmono := Double.key_ofInt_mono (m := n + 1) (n := counterOf s) hns
        simp only [Double.lt, hs, Double.isNaN_ofInt, Bool.not_false, Bool.true_and,
          decide_eq_true_eq] at hlt
        omega
      · intro hall
        refine List.takeWhile_eq_self_iff.mpr fun r hr => ?_
        obtain ⟨s, hmem, hs⟩ := counterNumber_coerced objectToNumber hcounter hr
        exact hle r hr s hmem hs (hall s hmem)

/-- A chain whose prefix `A` ends in `pred` goes on from `pred`'s stored hash. -/
theorem follow_from_pred (hlen : ∀ d, (sha3 d).length = 64) {A S : List Row} {pred : Row}
    (hlast : A.getLast? = some pred) {k : JsString} (hA : follow (link sha3) zeroHash A = some k) :
    pred.text? "rowHash" = some k ∧ isHex k sha3HexLen = true ∧
      follow (link sha3) zeroHash (A ++ S) = follow (link sha3) k S := by
  obtain ⟨init, rfl⟩ := List.getLast?_eq_some_iff.mp hlast
  obtain ⟨j, -, hpred⟩ := follow_append_eq_some.mp hA
  rw [follow_cons, Option.bind_eq_some_iff] at hpred
  obtain ⟨k', hlink, hk⟩ := hpred
  obtain rfl := Option.some.inj hk
  refine ⟨(link_eq_some hlink).2.1, isHex_digest hlen (link_isDigest hlink), ?_⟩
  rw [follow_append, hA, Option.bind_some]

/-- A table verifies exactly when its two parts do, and then the last hash is
that of the second part; it is that of the first when the second is empty. -/
theorem verifyChain_parts (hlen : ∀ d, (sha3 d).length = 64)
    (hcounter : ∀ r ∈ table, CounterIs (r.prop (units "monotonicCounter")) (counterOf r))
    (hpos : ∀ r ∈ table, 0 < counterOf r)
    {n : Nat} (hn : 1 ≤ n) :
    let verify := fun opts : Range =>
      verifyChain sha3 columnTypes objectToNumber (selectOrdered counterOf table) tableName none
        opts 0
    let whole := verify ⟨.undefined, .undefined⟩
    let first := verify ⟨.undefined, .num (Double.ofInt n)⟩
    let second := verify ⟨.num (Double.ofInt (n + 1 : Nat)), .undefined⟩
    ((∃ e, Clean whole e) ↔ (∃ e, Clean first e) ∧ ∃ e, Clean second e) ∧
      ∀ e e₁ e₂, Clean whole e → Clean first e₁ → Clean second e₂ →
        e = e₂ ∧ ((∀ r ∈ table, counterOf r ≤ n) → e = e₁) := by
  intro verify whole first second
  obtain ⟨P, hPR, hAP, hPall, hfirst⟩ := @verifyChain_to_run sha3 columnTypes objectToNumber
    counterOf table tableName n hcounter hpos
  have hasc := @ascending_coerced columnTypes objectToNumber counterOf table hcounter hpos
  simp only [whole, first, second, verify, verifyChain_whole, hfirst, clean_walkRows]
  obtain ⟨T, hT⟩ := hPR
  have hinit : ∀ {e}, follow (link sha3) zeroHash
      ((selectOrdered counterOf table).map (coerceRow columnTypes)) = some e →
      ∃ k, follow (link sha3) zeroHash P = some k := by
    intro e he
    rw [← hT] at he
    obtain ⟨k, hk, -⟩ := follow_append_eq_some.mp he
    exact ⟨k, hk⟩
  -- Whenever the second part is the whole walk, the first is a prefix of it.
  have htrivial : ∀ {r : Except JsString WalkResult},
      (∀ e, Clean r e ↔ follow (link sha3) zeroHash
        ((selectOrdered counterOf table).map (coerceRow columnTypes)) = some e) →
      ((∃ e, follow (link sha3) zeroHash
          ((selectOrdered counterOf table).map (coerceRow columnTypes)) = some e) ↔
        (∃ e, follow (link sha3) zeroHash P = some e) ∧ ∃ e, Clean r e) ∧
      ∀ e e₁ e₂, follow (link sha3) zeroHash
          ((selectOrdered counterOf table).map (coerceRow columnTypes)) = some e →
        follow (link sha3) zeroHash P = some e₁ → Clean r e₂ →
        e = e₂ ∧ ((∀ r ∈ table, counterOf r ≤ n) → e = e₁) := by
    intro r hr
    simp only [hr]
    refine ⟨⟨fun ⟨e, he⟩ => ⟨hinit he, e, he⟩, fun h => h.2⟩, ?_⟩
    intro e e₁ e₂ he he₁ he₂
    refine ⟨Option.some.inj (he.symm.trans he₂), fun hall => ?_⟩
    rw [hPall hall] at he₁
    exact Option.some.inj (he.symm.trans he₁)
  cases hfin : (Double.ofInt (n + 1 : Nat)).isFinite with
  | false =>
      rw [verifyChain_unbounded (by rw [finiteBound_num, hfin]; rfl) rfl]
      exact htrivial fun e => clean_walkRows
  | true =>
      have hone : (Double.ofInt 1).lt (Double.ofInt (n + 1 : Nat)) = true := by
        have htwo : (Double.ofInt 1).key < (Double.ofInt 2).key := by decide +kernel
        have hmono := Double.key_ofInt_mono (m := 2) (n := n + 1) (by omega)
        simp only [Double.lt, Double.isNaN_ofInt, Bool.not_false, Bool.true_and,
          decide_eq_true_eq]
        exact Int.lt_of_lt_of_le htwo hmono
      rw [verifyChain_from hfin hone hasc]
      have hsplit := List.takeWhile_append_dropWhile
        (p := fun r => (counterNumber objectToNumber r).lt (Double.ofInt (n + 1 : Nat)))
        (l := (selectOrdered counterOf table).map (coerceRow columnTypes))
      split
      · exact htrivial fun e => clean_walkRows
      · next pred hlast =>
          generalize ((selectOrdered counterOf table).map (coerceRow columnTypes)).takeWhile
            (fun r => (counterNumber objectToNumber r).lt (Double.ofInt (n + 1 : Nat))) = A
            at hAP hsplit hlast
          generalize ((selectOrdered counterOf table).map (coerceRow columnTypes)).dropWhile
            (fun r => (counterNumber objectToNumber r).lt (Double.ofInt (n + 1 : Nat))) = S
            at hsplit ⊢
          rw [← hsplit]
          obtain ⟨U, rfl⟩ := hAP
          -- The row taken on faith ends `A`, which every walk that matters here has checked.
          have hclean : ∀ {k e : JsString}, follow (link sha3) zeroHash A = some k →
              (Clean (match pred.text? "rowHash" with
                | none => .ok (.refused tableName
                    (units "incremental-verify anchor row has a corrupt rowHash"))
                | some hash =>
                    if isHex hash sha3HexLen then walkRows sha3 S tableName hash 0
                    else .ok (.refused tableName
                      (units "incremental-verify anchor row has a corrupt rowHash"))) e ↔
                follow (link sha3) zeroHash (A ++ S) = some e) := by
            intro k e hk
            obtain ⟨htext, hhex, hfollow⟩ := follow_from_pred (S := S) hlen hlast hk
            simp only [htext, hhex, if_true, hfollow]
            exact clean_walkRows
          constructor
          · constructor
            · rintro ⟨e, he⟩
              obtain ⟨k, hk, -⟩ := follow_append_eq_some.mp he
              obtain ⟨j, hj⟩ := hinit (hsplit ▸ he)
              exact ⟨⟨j, hj⟩, e, (hclean hk).mpr he⟩
            · rintro ⟨⟨j, hj⟩, e, he⟩
              obtain ⟨k, hk, -⟩ := follow_append_eq_some.mp hj
              exact ⟨e, (hclean hk).mp he⟩
          · intro e e₁ e₂ he he₁ he₂
            obtain ⟨k, hk, -⟩ := follow_append_eq_some.mp he₁
            refine ⟨Option.some.inj (he.symm.trans ((hclean hk).mp he₂)), fun hall => ?_⟩
            rw [hPall hall, ← hsplit] at he₁
            exact Option.some.inj (he.symm.trans he₁)

/-- The counter of each of the two rows. -/
def bootCounter (row : Row) : Nat := if row.text? "action" = some (units "auth.login") then 2 else 1

/-- A journal of two linked rows, stored the other way round and cut between them. -/
theorem verifyChain_parts_boot :
    let verify := fun opts : Range =>
      verifyChain bootSha3 (fun _ => none) (fun _ => Double.nan)
        (selectOrdered bootCounter [loginRow, bootRow]) (units "journal") none opts 0
    let whole := verify ⟨.undefined, .undefined⟩
    let first := verify ⟨.undefined, .num (Double.ofInt (1 : Nat))⟩
    let second := verify ⟨.num (Double.ofInt (1 + 1 : Nat)), .undefined⟩
    ((∃ e, Clean first e) ∧ ∃ e, Clean second e) ∧
      ∀ e e₁ e₂, Clean whole e → Clean first e₁ → Clean second e₂ →
        e = e₂ ∧ ((∀ r ∈ [loginRow, bootRow], bootCounter r ≤ 1) → e = e₁) := by
  intro verify whole first second
  have hcounter : ∀ r ∈ [loginRow, bootRow],
      CounterIs (r.prop (units "monotonicCounter")) (bootCounter r) := by
    intro r hr
    rcases List.mem_pair.mp hr with rfl | rfl
    · exact Or.inl rfl
    · exact Or.inl rfl
  have hpos : ∀ r ∈ [loginRow, bootRow], 0 < bootCounter r := by
    intro r hr
    rcases List.mem_pair.mp hr with rfl | rfl <;> decide
  have hparts := @verifyChain_parts bootSha3 (fun _ => none) (fun _ => Double.nan) bootCounter
    [loginRow, bootRow] (units "journal") length_bootSha3 hcounter hpos 1 (Nat.le_refl 1)
  have hwhole : Clean whole (hexText loginDigest) := by
    have hrows : (selectOrdered bootCounter [loginRow, bootRow]).map (coerceRow fun _ => none) =
        [bootRow, loginRow] := rfl
    rw [show whole = _ from verifyChain_whole, hrows, clean_walkRows]
    decide +kernel
  exact ⟨hparts.1.mp ⟨_, hwhole⟩, hparts.2⟩

end

end Blamejs.AuditChain
