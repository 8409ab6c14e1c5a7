import Blamejs.Js.Text

/-!
# Small letters

`toLowerCase` maps code point after code point, except that a capital sigma at the end of
a word becomes the final sigma. What the mapping and the two properties of characters are
is data of Unicode, and a parameter here. A separator, which is neither cased nor skipped
when the ends of words are looked for, cuts a string into parts that are mapped on their
own.
-/

namespace Blamejs.Js

/-- The code points of a string, a lone surrogate for itself. -/
def codePoints : JsString → List Nat
  | [] => []
  | [u] => [u.toNat]
  | u :: v :: rest =>
      if isHigh u && isLow v then pairValue u v :: codePoints rest
      else u.toNat :: codePoints (v :: rest)

def ofCodePoint (n : Nat) : JsString :=
  if n < 0x10000 then [UInt16.ofNat n]
  else
    [UInt16.ofNat (0xD800 + (n - 0x10000) / 0x400), UInt16.ofNat (0xDC00 + (n - 0x10000) % 0x400)]

/-- The data of Unicode that `toLowerCase` uses. -/
structure CaseTable where
  lower : Nat → List Nat
  cased : Nat → Bool
  ignorable : Nat → Bool

namespace CaseTable

variable (T : CaseTable)

/-- Characters that are skipped, then a cased letter. -/
def meetsCased : List Nat → Bool
  | [] => false
  | n :: ns => T.cased n || (T.ignorable n && meetsCased ns)

/-- A code point behind some (the nearest first) and before others. -/
def lowerAt (before after : List Nat) (n : Nat) : List Nat :=
  if n = 0x3A3 then
    if T.meetsCased before && !T.meetsCased after then [0x3C2] else [0x3C3]
  else T.lower n

def lowerFrom (before : List Nat) : List Nat → List Nat
  | [] => []
  | n :: ns => T.lowerAt before ns n ++ lowerFrom (n :: before) ns

end CaseTable

/-- `String.prototype.toLowerCase`. -/
def toLowerCase (T : CaseTable) (s : JsString) : JsString :=
  (T.lowerFrom [] (codePoints s)).flatMap ofCodePoint

/-- The letters of ASCII. -/
def asciiCases : CaseTable where
  lower n := if 0x41 ≤ n ∧ n ≤ 0x5A then [n + 0x20] else [n]
  cased n := (0x41 ≤ n && n ≤ 0x5A) || (0x61 ≤ n && n ≤ 0x7A)
  ignorable n := n = 0x2E

/-- What Unicode says of the letters of ASCII and of a separator. -/
structure CaseTable.Documented (T : CaseTable) (separators : List UInt16) : Prop where
  small : ∀ u : UInt16, (0x61 ≤ u.toNat ∧ u.toNat ≤ 0x7A) ∨ (0x30 ≤ u.toNat ∧ u.toNat ≤ 0x39) →
    T.lower u.toNat = [u.toNat]
  below : ∀ u ∈ separators, u.toNat < 0x80
  apart : ∀ u ∈ separators, T.cased u.toNat = false ∧ T.ignorable u.toNat = false
  keeps : ∀ u ∈ separators, ∀ n < 0x110000, u ∈ (T.lower n).flatMap ofCodePoint ↔ n = u.toNat
  alone : ∀ u ∈ separators, T.lower u.toNat = [u.toNat]

variable {T : CaseTable} {separators : List UInt16} {u : UInt16}

theorem meetsCased_append {n : Nat} (hcased : T.cased n = false) (hskip : T.ignorable n = false)
    (ms ns : List Nat) : T.meetsCased (ms ++ n :: ns) = T.meetsCased ms := by
  induction ms with
  | nil => simp [CaseTable.meetsCased, hcased, hskip]
  | cons m ms ih => rw [List.cons_append, CaseTable.meetsCased, ih, CaseTable.meetsCased]

theorem lowerFrom_before {n : Nat} (hcased : T.cased n = false) (hskip : T.ignorable n = false)
    (before rest ns : List Nat) :
    T.lowerFrom (before ++ n :: rest) ns = T.lowerFrom before ns := by
  induction ns generalizing before with
  | nil => rfl
  | cons m ns ih =>
      rw [CaseTable.lowerFrom, CaseTable.lowerFrom, ← List.cons_append, ih, CaseTable.lowerAt,
        CaseTable.lowerAt, meetsCased_append hcased hskip]

theorem lowerFrom_append {n : Nat} (hcased : T.cased n = false) (hskip : T.ignorable n = false)
    (halone : T.lowerAt [] [] n = [n]) (hn : n ≠ 0x3A3) (before ms ns : List Nat) :
    T.lowerFrom before (ms ++ n :: ns) = T.lowerFrom before ms ++ n :: T.lowerFrom [] ns := by
  induction ms generalizing before with
  | nil =>
      have hat : T.lowerAt before ns n = [n] := by
        rw [← halone, CaseTable.lowerAt, CaseTable.lowerAt, if_neg hn, if_neg hn]
      have hrest := lowerFrom_before hcased hskip [] before ns
      rw [List.nil_append] at hrest
      change T.lowerAt before ns n ++ T.lowerFrom (n :: before) ns = [] ++ n :: T.lowerFrom [] ns
      rw [hat, hrest]
      rfl
  | cons m ms ih =>
      have hat : T.lowerAt before (ms ++ n :: ns) m = T.lowerAt before ms m := by
        rw [CaseTable.lowerAt, CaseTable.lowerAt, meetsCased_append hcased hskip]
      rw [List.cons_append, CaseTable.lowerFrom, CaseTable.lowerFrom, hat, ih, List.append_assoc]

theorem codePoints_single (hhigh : isHigh u = false) (s : JsString) :
    codePoints (u :: s) = u.toNat :: codePoints s := by
  cases s with
  | nil => rfl
  | cons v rest => simp [codePoints, hhigh]

/-- A unit that is no surrogate is a code point of its own wherever it stands. -/
theorem codePoints_append (hhigh : isHigh u = false) (hlow : isLow u = false) (s t : JsString) :
    codePoints (s ++ u :: t) = codePoints s ++ u.toNat :: codePoints t := by
  induction s using codePoints.induct with
  | case1 => exact codePoints_single hhigh t
  | case2 v =>
      have hpair : ¬ (isHigh v && isLow u) = true := by rw [hlow, Bool.and_false]; decide
      rw [List.cons_append, List.nil_append, codePoints.eq_3, if_neg hpair,
        codePoints_single hhigh]
      rfl
  | case3 v w rest hpair ih =>
      rw [List.cons_append, List.cons_append, codePoints, if_pos hpair, ih, codePoints,
        if_pos hpair]
      rfl
  | case4 v w rest hpair ih =>
      rw [List.cons_append, List.cons_append, codePoints, if_neg hpair, ← List.cons_append, ih,
        codePoints, if_neg hpair]
      rfl

theorem codePoints_lt {s : JsString} : ∀ n ∈ codePoints s, n < 0x110000 := by
  have hunit : ∀ v : UInt16, v.toNat < 0x110000 := fun v => by
    have := v.toNat_lt
    omega
  induction s using codePoints.induct with
  | case1 => simp [codePoints]
  | case2 v => simpa [codePoints] using hunit v
  | case3 v w rest hpair ih =>
      rw [codePoints, if_pos hpair]
      refine List.forall_mem_cons.mpr ⟨?_, ih⟩
      simp only [isHigh, isLow, Bool.and_eq_true, decide_eq_true_eq] at hpair
      unfold pairValue
      omega
  | case4 v w rest hpair ih =>
      rw [codePoints, if_neg hpair]
      exact List.forall_mem_cons.mpr ⟨hunit v, ih⟩

/-- Small letters and digits stay. -/
theorem toLowerCase_small {separators : List UInt16} (hT : T.Documented separators) {s : JsString}
    (h : ∀ u ∈ s, (0x61 ≤ u.toNat ∧ u.toNat ≤ 0x7A) ∨ (0x30 ≤ u.toNat ∧ u.toNat ≤ 0x39)) :
    toLowerCase T s = s := by
  have hpoints : codePoints s = s.map UInt16.toNat := by
    induction s with
    | nil => rfl
    | cons u s ih =>
        obtain ⟨hu, hs⟩ := List.forall_mem_cons.mp h
        have hhigh : isHigh u = false := by
          simp only [isHigh, Bool.and_eq_false_iff, decide_eq_false_iff_not]
          omega
        rw [codePoints_single hhigh, ih hs, List.map_cons]
  have hfrom : ∀ before, T.lowerFrom before (s.map UInt16.toNat) = s.map UInt16.toNat := by
    clear hpoints
    induction s with
    | nil => exact fun _ => rfl
    | cons u s ih =>
        intro before
        obtain ⟨hu, hs⟩ := List.forall_mem_cons.mp h
        rw [List.map_cons, CaseTable.lowerFrom, ih hs, CaseTable.lowerAt, if_neg (by omega),
          hT.small u hu, List.singleton_append]
  rw [toLowerCase, hpoints, hfrom, List.flatMap_map]
  have hback : ∀ u : UInt16, ofCodePoint u.toNat = [u] := fun u => by
    have := u.toNat_lt
    rw [ofCodePoint, if_pos (by omega), UInt16.ofNat_toNat]
  simp only [hback, List.flatMap_singleton']

theorem ofCodePoint_unit (u : UInt16) : ofCodePoint u.toNat = [u] := by
  have := u.toNat_lt
  rw [ofCodePoint, if_pos (by omega), UInt16.ofNat_toNat]

section separator

variable (hT : T.Documented separators) (hu : u ∈ separators)

include hT hu

theorem separator_plain : isHigh u = false ∧ isLow u = false := by
  have hbelow := hT.below u hu
  simp only [isHigh, isLow, Bool.and_eq_false_iff, decide_eq_false_iff_not]
  omega

theorem separator_lowerAt (before after : List Nat) :
    T.lowerAt before after u.toNat = [u.toNat] := by
  have hbelow := hT.below u hu
  rw [CaseTable.lowerAt, if_neg (by omega), hT.alone u hu]

/-- The parts beside a separator are mapped on their own. -/
theorem toLowerCase_append (s t : JsString) :
    toLowerCase T (s ++ u :: t) = toLowerCase T s ++ u :: toLowerCase T t := by
  have hbelow := hT.below u hu
  obtain ⟨hhigh, hlow⟩ := separator_plain hT hu
  obtain ⟨hcased, hskip⟩ := hT.apart u hu
  rw [toLowerCase, codePoints_append hhigh hlow,
    lowerFrom_append hcased hskip (separator_lowerAt hT hu [] []) (by omega), List.flatMap_append,
    List.flatMap_cons, ofCodePoint_unit]
  rfl

theorem mem_codePoints {s : JsString} : u.toNat ∈ codePoints s ↔ u ∈ s := by
  have hbelow := hT.below u hu
  induction s using codePoints.induct with
  | case1 => simp [codePoints]
  | case2 v => simp [codePoints, UInt16.toNat_inj]
  | case3 v w rest hpair ih =>
      have hpair' := hpair
      simp only [isHigh, isLow, Bool.and_eq_true, decide_eq_true_eq] at hpair'
      have hvalue : u.toNat ≠ pairValue v w := by
        unfold pairValue
        omega
      have hv : u ≠ v := by rintro rfl; omega
      have hw : u ≠ w := by rintro rfl; omega
      rw [codePoints, if_pos hpair]
      simp only [List.mem_cons, hvalue, hv, hw, false_or]
      exact ih
  | case4 v w rest hpair ih =>
      rw [codePoints, if_neg hpair]
      simp only [List.mem_cons, UInt16.toNat_inj] at ih ⊢
      exact or_congr Iff.rfl ih

/-- No separator comes or goes. -/
theorem mem_toLowerCase {s : JsString} : u ∈ toLowerCase T s ↔ u ∈ s := by
  have hbelow := hT.below u hu
  have hat : ∀ before after, ∀ n < 0x110000,
      (u ∈ (T.lowerAt before after n).flatMap ofCodePoint ↔ n = u.toNat) := by
    intro before after n hn
    rw [CaseTable.lowerAt]
    split
    · next hsigma =>
        have hno : ∀ m : Nat, 0x80 ≤ m → m < 0x10000 → u ∉ [m].flatMap ofCodePoint := by
          intro m hm hlt hmem
          rw [List.flatMap_singleton, ofCodePoint, if_pos hlt, List.mem_singleton] at hmem
          have := congrArg UInt16.toNat hmem
          rw [UInt16.toNat_ofNat'] at this
          omega
        refine iff_of_false ?_ (by omega)
        split
        · exact hno _ (by decide) (by decide)
        · exact hno _ (by decide) (by decide)
    · exact hT.keeps u hu n hn
  have hfrom : ∀ ns before, (∀ n ∈ ns, n < 0x110000) →
      (u ∈ (T.lowerFrom before ns).flatMap ofCodePoint ↔ u.toNat ∈ ns) := by
    intro ns
    induction ns with
    | nil => simp [CaseTable.lowerFrom]
    | cons n ns ih =>
        intro before hns
        obtain ⟨hn, hns⟩ := List.forall_mem_cons.mp hns
        rw [CaseTable.lowerFrom, List.flatMap_append, List.mem_append, hat _ _ n hn, ih _ hns,
          List.mem_cons, eq_comm]
  rw [toLowerCase, hfrom _ _ codePoints_lt, mem_codePoints hT hu]

end separator

/-! ## ASCII -/

/-- The letters of ASCII have the small letters of ASCII, and its other characters stay. -/
def CaseTable.Ascii (T : CaseTable) : Prop := ∀ n < 0x80, T.lower n = asciiCases.lower n

/-- A unit of ASCII in lower case. -/
def smallUnit (u : UInt16) : UInt16 :=
  if 0x41 ≤ u.toNat ∧ u.toNat ≤ 0x5A then UInt16.ofNat (u.toNat + 0x20) else u

theorem toLowerCase_ascii (hT : T.Ascii) {s : JsString} (h : ∀ u ∈ s, u.toNat < 0x80) :
    toLowerCase T s = s.map smallUnit := by
  have hpoints : codePoints s = s.map UInt16.toNat := by
    induction s with
    | nil => rfl
    | cons u s ih =>
        obtain ⟨hu, hs⟩ := List.forall_mem_cons.mp h
        have hhigh : isHigh u = false := by
          simp only [isHigh, Bool.and_eq_false_iff, decide_eq_false_iff_not]
          omega
        rw [codePoints_single hhigh, ih hs, List.map_cons]
  have hfrom : ∀ before, T.lowerFrom before (s.map UInt16.toNat) =
      s.flatMap fun u => asciiCases.lower u.toNat := by
    clear hpoints
    induction s with
    | nil => exact fun _ => rfl
    | cons u s ih =>
        intro before
        obtain ⟨hu, hs⟩ := List.forall_mem_cons.mp h
        rw [List.map_cons, CaseTable.lowerFrom, ih hs, CaseTable.lowerAt, if_neg (by omega),
          hT _ hu, List.flatMap_cons]
  rw [toLowerCase, hpoints, hfrom, List.flatMap_assoc, List.map_eq_flatMap]
  refine List.flatMap_congr fun u hu => ?_
  have hlt := h u hu
  show (asciiCases.lower u.toNat).flatMap ofCodePoint = [smallUnit u]
  rw [asciiCases, smallUnit]
  dsimp only
  split
  · rw [List.flatMap_singleton, ofCodePoint, if_pos (by omega)]
  · rw [List.flatMap_singleton, ofCodePoint_unit]

theorem asciiCases_documented {separators : List UInt16}
    (h : separators.all (fun u => u.toNat < 0x41 && u.toNat != 0x2E) = true) :
    asciiCases.Documented separators := by
  have hbelow : ∀ u ∈ separators, u.toNat < 0x41 ∧ u.toNat ≠ 0x2E := by
    intro u hu
    simpa using List.all_eq_true.mp h u hu
  refine ⟨fun u hu => if_neg (by omega), fun u hu => ?_, fun u hu => ?_, fun u hu n hn => ?_,
    fun u hu => ?_⟩
  · have := hbelow u hu
    omega
  · obtain ⟨hlt, hne⟩ := hbelow u hu
    simp only [asciiCases, Bool.or_eq_false_iff, Bool.and_eq_false_iff, decide_eq_false_iff_not]
    omega
  · have hu' := hbelow u hu
    have hunit : ∀ m < 0x110000, (u ∈ ofCodePoint m ↔ m = u.toNat) := by
      intro m hm
      rw [ofCodePoint]
      split
      · rw [List.mem_singleton, ← UInt16.toNat_inj, UInt16.toNat_ofNat']
        omega
      · simp only [List.mem_cons, List.not_mem_nil, or_false, ← UInt16.toNat_inj,
          UInt16.toNat_ofNat']
        omega
    change u ∈ (if 0x41 ≤ n ∧ n ≤ 0x5A then [n + 0x20] else [n]).flatMap ofCodePoint ↔ _
    split
    · rw [List.flatMap_singleton, hunit _ (by omega)]
      omega
    · rw [List.flatMap_singleton, hunit n hn]
  · have := hbelow u hu
    exact if_neg (by omega)

end Blamejs.Js
