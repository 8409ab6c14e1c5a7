import Blamejs.Ref.PurgeAnchor
import Blamejs.Spec.Json

/-!
# What a purge-anchor signature covers

The lines of a payload carry no newline, so the bytes give the lines back; the
number of lines gives the layout; and a layout is only tried on a row whose
omitted fields are empty. So the row that verifies holds the fields that were
signed, in whatever layout either was written: `purgeAnchorSignatureVerifies_iff`.

Fields here are strings as UTF-8 sees them. The numeric fields are refused when
two values could render alike; the string fields are not, and
`Buffer.from(head, "utf8")` renders every lone surrogate as U+FFFD.
-/

namespace Blamejs.PurgeAnchor

open Blamejs.Js Delimiting

/-- Equal field by field, numbers as the language compares them. -/
structure Agree (f g : Fields) : Prop where
  scope : f.scope = g.scope
  lastPurgedCounter : f.lastPurgedCounter.strictEq g.lastPurgedCounter = true
  lastPurgedRowHash : f.lastPurgedRowHash = g.lastPurgedRowHash
  archiveBundleId : f.archiveBundleId = g.archiveBundleId
  purgedAt : f.purgedAt.strictEq g.purgedAt = true
  fencingToken : f.fencingToken.strictEq g.fencingToken = true
  firstPurgedCounter : f.firstPurgedCounter.strictEq g.firstPurgedCounter = true
  archiveRowsDigest : f.archiveRowsDigest = g.archiveRowsDigest
  archiveCheckpointDigest : f.archiveCheckpointDigest = g.archiveCheckpointDigest
  archiveManifestDigest : f.archiveManifestDigest = g.archiveManifestDigest

/-- The fields with every lone surrogate replaced by U+FFFD. -/
def Fields.toWellFormed (f : Fields) : Fields :=
  { f with
    scope := Js.toWellFormed f.scope
    lastPurgedRowHash := Js.toWellFormed f.lastPurgedRowHash
    archiveBundleId := Js.toWellFormed f.archiveBundleId
    archiveRowsDigest := Js.toWellFormed f.archiveRowsDigest
    archiveCheckpointDigest := Js.toWellFormed f.archiveCheckpointDigest
    archiveManifestDigest := Js.toWellFormed f.archiveManifestDigest }

theorem Agree.toWellFormed {f g : Fields} (h : Agree f g) :
    Agree f.toWellFormed g.toWellFormed :=
  { h with
    scope := congrArg Js.toWellFormed h.scope
    lastPurgedRowHash := congrArg Js.toWellFormed h.lastPurgedRowHash
    archiveBundleId := congrArg Js.toWellFormed h.archiveBundleId
    archiveRowsDigest := congrArg Js.toWellFormed h.archiveRowsDigest
    archiveCheckpointDigest := congrArg Js.toWellFormed h.archiveCheckpointDigest
    archiveManifestDigest := congrArg Js.toWellFormed h.archiveManifestDigest }

/-! ## The checks -/

/-- What the checks leave: newline-free strings and safe integers. -/
structure Checked (f : Fields) : Prop where
  noNewline : ∀ p ∈ f.strings, purgeAnchorDelimiter ∉ p.2
  lastPurgedCounter : isIncrementableSafeInt f.lastPurgedCounter = true
  purgedAt : f.purgedAt.isSafeInteger = true
  fencingToken : isNonNegativeSafeInt f.fencingToken = true
  firstPurgedCounter : isNonNegativeSafeInt f.firstPurgedCounter = true

theorem checkFields_ok_iff {f : Fields} : checkFields f = .ok () ↔ Checked f := by
  unfold checkFields
  constructor
  · intro h
    split at h
    · cases h
    · next hfind =>
        rw [List.find?_eq_none] at hfind
        repeat' split at h
        all_goals try cases h
        next h1 h2 h3 h4 =>
          simp only [Bool.not_eq_true', Bool.not_eq_false] at h1 h2 h3 h4
          exact ⟨by simpa using hfind, h1, h2, h3, h4⟩
  · rintro ⟨h0, h1, h2, h3, h4⟩
    have hfind : f.strings.find? (fun p => decide (purgeAnchorDelimiter ∈ p.2)) = none := by
      rw [List.find?_eq_none]
      simpa using h0
    rw [hfind]
    simp only [h1, h2, h3, h4, Bool.not_true, Bool.false_eq_true, if_false]

theorem isFinite_of_isSafeInteger {x : Double} (h : x.isSafeInteger = true) :
    x.isFinite = true := by
  simp only [Double.isSafeInteger, Double.isInteger, Bool.and_eq_true] at h
  exact h.1.1

theorem isSafeInteger_of_isNonNegative {x : Double} (h : isNonNegativeSafeInt x = true) :
    x.isSafeInteger = true := by
  rw [isNonNegativeSafeInt, Bool.and_eq_true] at h
  exact h.1

theorem isSafeInteger_of_isIncrementable {x : Double} (h : isIncrementableSafeInt x = true) :
    x.isSafeInteger = true := by
  rw [isIncrementableSafeInt, Bool.and_eq_true] at h
  exact isSafeInteger_of_isNonNegative h.1

theorem purgeAnchorPayload_ok_iff {α : Type} {conv : Conversions α} {anchor : Anchor α}
    {layout : Layout} {payload : List UInt8} :
    purgeAnchorPayload conv anchor layout = .ok payload ↔
      Checked (readFields conv anchor) ∧
        payload = utf8 ([purgeAnchorDelimiter].intercalate
          (payloadLines (readFields conv anchor) layout)) := by
  rw [purgeAnchorPayload, ← checkFields_ok_iff]
  cases checkFields (readFields conv anchor) with
  | error e => simp [bind, Except.bind]
  | ok u => simp [bind, Except.bind, pure, Except.pure, eq_comm]

/-! ## Lines and layouts -/

theorem scalars_numberText {x y : Double} (hx : x.isSafeInteger = true)
    (hy : y.isSafeInteger = true) :
    scalars (numberText x) = scalars (numberText y) ↔ x.strictEq y = true := by
  have hfx := isFinite_of_isSafeInteger hx
  have hfy := isFinite_of_isSafeInteger hy
  rw [← numberText_eq_iff hfx hfy]
  constructor
  · intro h
    have := toWellFormed_eq_iff.mpr h
    rwa [(Spec.Json.wellFormed_numberText hfx).toWellFormed,
      (Spec.Json.wellFormed_numberText hfy).toWellFormed] at this
  · exact congrArg scalars

theorem delimiter_plain : isHigh purgeAnchorDelimiter = false ∧ isLow purgeAnchorDelimiter = false ∧
    isNumberUnit purgeAnchorDelimiter = false := by decide

theorem delimiter_not_mem_numberText {x : Double} (h : x.isSafeInteger = true) :
    purgeAnchorDelimiter ∉ numberText x := by
  intro hmem
  have := isNumberUnit_numberText (isFinite_of_isSafeInteger h) hmem
  rw [delimiter_plain.2.2] at this
  exact absurd this (by decide)

theorem Checked.lines {f : Fields} (h : Checked f) (layout : Layout) :
    ∀ l ∈ payloadLines f layout, purgeAnchorDelimiter ∉ l := by
  have hstrings := h.noNewline
  simp only [Fields.strings, List.forall_mem_cons, List.not_mem_nil, false_implies, implies_true,
    and_true] at hstrings
  obtain ⟨hscope, hhash, hbundle, hrows, hckpt, hmanifest⟩ := hstrings
  have hformat : purgeAnchorDelimiter ∉ purgeAnchorFormat := by decide
  have hcounter := delimiter_not_mem_numberText
    (isSafeInteger_of_isIncrementable h.lastPurgedCounter)
  have hat := delimiter_not_mem_numberText h.purgedAt
  have htoken := delimiter_not_mem_numberText (isSafeInteger_of_isNonNegative h.fencingToken)
  have hfirst := delimiter_not_mem_numberText
    (isSafeInteger_of_isNonNegative h.firstPurgedCounter)
  cases layout <;>
    simp only [payloadLines, headLines, List.cons_append, List.nil_append, List.forall_mem_cons,
      hformat, hscope, hcounter, hhash, hbundle, hat, htoken, hfirst, hrows, hckpt, hmanifest,
      not_false_eq_true, List.not_mem_nil, false_implies, implies_true, and_self]

theorem payloadLines_ne_nil (f : Fields) (layout : Layout) : payloadLines f layout ≠ [] := by
  cases layout <;> exact List.cons_ne_nil _ _

/-- Equal bytes are equal lines, up to lone surrogates. -/
theorem lines_of_payload_eq {f g : Fields} {l m : Layout} (hf : Checked f) (hg : Checked g)
    (h : utf8 ([purgeAnchorDelimiter].intercalate (payloadLines f l))
      = utf8 ([purgeAnchorDelimiter].intercalate (payloadLines g m))) :
    (payloadLines f l).map scalars = (payloadLines g m).map scalars := by
  have hfree : ∀ {k : Fields} {n : Layout}, Checked k →
      ∀ t ∈ (payloadLines k n).map scalars, loneScalar purgeAnchorDelimiter ∉ t := by
    intro k n hk t ht
    obtain ⟨s, hs, rfl⟩ := List.mem_map.mp ht
    rw [mem_scalars_plain (by decide)]
    exact hk.lines n s hs
  have hscalars := scalars_eq_of_utf8_eq h
  rw [scalars_intercalate delimiter_plain.1 delimiter_plain.2.1,
    scalars_intercalate delimiter_plain.1 delimiter_plain.2.1] at hscalars
  exact intercalate_injective (hfree hf) (hfree hg)
    (by simpa using payloadLines_ne_nil f l) (by simpa using payloadLines_ne_nil g m) hscalars

/-- No two layouts have equally many lines. -/
theorem layout_of_length {f g : Fields} {l m : Layout}
    (h : (payloadLines f l).length = (payloadLines g m).length) : l = m := by
  cases l <;> cases m <;> first | rfl | exact absurd h (by simp [payloadLines, headLines])

/-- What the current layout writes for the fields a layout leaves out, when
they are empty. -/
def padding : Layout → List JsString
  | .current => []
  | .noManifestDigest => [[]]
  | .noCheckpointDigest => [[], []]
  | .noDigest => [[], [], []]
  | .noRange => [units "0", [], [], []]

theorem strictEq_zero {x : Double} : x.strictEq (Double.zero false) = true ↔ x.isZero = true := by
  have hz : (Double.zero false).isZero = true := by decide
  rw [Double.strictEq, hz, Bool.and_true, Bool.or_eq_true, Bool.and_eq_true, beq_iff_eq]
  constructor
  · rintro (h | ⟨-, rfl⟩)
    · exact h
    · exact hz
  · exact Or.inl

/-- Where a layout applies, it is the current one less its padding. -/
theorem payloadLines_current {f : Fields} {l : Layout} (h : layoutApplies f l = true) :
    payloadLines f .current = payloadLines f l ++ padding l := by
  cases l <;>
    simp only [layoutApplies, decide_eq_true_eq, Bool.decide_and, Bool.and_eq_true,
      strictEq_zero] at h
  case current => rfl
  case noManifestDigest => simp [payloadLines, padding, h]
  case noCheckpointDigest => simp [payloadLines, padding, h]
  case noDigest => simp [payloadLines, padding, h]
  case noRange => simp [payloadLines, padding, h, numberText_zero h.2.2.2]

/-- The lines of the current layout say exactly what the fields are, up to lone
surrogates. -/
theorem agree_iff_lines {f g : Fields} (hf : Checked f) (hg : Checked g) :
    Agree f.toWellFormed g.toWellFormed ↔
      (payloadLines f .current).map scalars = (payloadLines g .current).map scalars := by
  have hcounter := scalars_numberText (isSafeInteger_of_isIncrementable hf.lastPurgedCounter)
    (isSafeInteger_of_isIncrementable hg.lastPurgedCounter)
  have hat := scalars_numberText hf.purgedAt hg.purgedAt
  have htoken := scalars_numberText (isSafeInteger_of_isNonNegative hf.fencingToken)
    (isSafeInteger_of_isNonNegative hg.fencingToken)
  have hfirst := scalars_numberText (isSafeInteger_of_isNonNegative hf.firstPurgedCounter)
    (isSafeInteger_of_isNonNegative hg.firstPurgedCounter)
  simp only [payloadLines, headLines, List.cons_append, List.nil_append, List.map_cons,
    List.map_nil, List.cons.injEq, and_true, true_and, hcounter, hat, htoken, hfirst]
  simp only [← toWellFormed_eq_iff]
  constructor
  · rintro ⟨h1, h2, h3, h4, h5, h6, h7, h8, h9, h10⟩
    exact ⟨h1, h2, h3, h4, h5, h6, h7, h8, h9, h10⟩
  · rintro ⟨h1, h2, h3, h4, h5, h6, h7, h8, h9, h10⟩
    exact ⟨h1, h2, h3, h4, h5, h6, h7, h8, h9, h10⟩

/-! ## Agreement carries the checks over -/

theorem toWellFormed_nil_iff {s : JsString} : Js.toWellFormed s = Js.toWellFormed [] ↔ s = [] := by
  rw [toWellFormed_eq_iff, ← scalars_eq_nil_iff (s := s)]
  rfl

theorem strictEq_checks {x y : Double} (h : x.strictEq y = true) :
    x = y ∨ (x.isZero = true ∧ y.isZero = true) := by
  rw [Double.strictEq, Bool.or_eq_true, Bool.and_eq_true, Bool.and_eq_true, beq_iff_eq] at h
  exact h.symm.imp And.right id

theorem zero_of_isZero {x : Double} (h : x.isZero = true) : x = Double.zero x.neg := by
  obtain ⟨neg, bits⟩ := x
  simp only [Double.isZero, decide_eq_true_eq] at h
  exact congrArg _ (Fin.ext h)

theorem isSafeInteger_congr {x y : Double} (h : x.strictEq y = true) :
    x.isSafeInteger = y.isSafeInteger := by
  rcases strictEq_checks h with rfl | ⟨hx, hy⟩
  · rfl
  · rw [zero_of_isZero hx, zero_of_isZero hy]
    cases x.neg <;> cases y.neg <;> rfl

theorem isNonNegativeSafeInt_congr {x y : Double} (h : x.strictEq y = true) :
    isNonNegativeSafeInt x = isNonNegativeSafeInt y := by
  rcases strictEq_checks h with rfl | ⟨hx, hy⟩
  · rfl
  · rw [zero_of_isZero hx, zero_of_isZero hy]
    cases x.neg <;> cases y.neg <;> rfl

theorem isIncrementableSafeInt_congr {x y : Double} (h : x.strictEq y = true) :
    isIncrementableSafeInt x = isIncrementableSafeInt y := by
  rcases strictEq_checks h with rfl | ⟨hx, hy⟩
  · rfl
  · rw [zero_of_isZero hx, zero_of_isZero hy]
    cases x.neg <;> cases y.neg <;> rfl

theorem delimiter_mem_congr {s t : JsString} (h : Js.toWellFormed s = Js.toWellFormed t) :
    purgeAnchorDelimiter ∉ s → purgeAnchorDelimiter ∉ t := by
  rw [← mem_scalars_plain (u := purgeAnchorDelimiter) (s := s) (by decide),
    ← mem_scalars_plain (u := purgeAnchorDelimiter) (s := t) (by decide),
    toWellFormed_eq_iff.mp h]
  exact id

theorem Checked.congr {f g : Fields} (h : Agree f.toWellFormed g.toWellFormed) (hf : Checked f) :
    Checked g := by
  have hstrings := hf.noNewline
  simp only [Fields.strings, List.forall_mem_cons, List.not_mem_nil, false_implies, implies_true,
    and_true] at hstrings
  obtain ⟨h1, h2, h3, h4, h5, h6⟩ := hstrings
  refine ⟨?_, isIncrementableSafeInt_congr h.lastPurgedCounter ▸ hf.lastPurgedCounter,
    isSafeInteger_congr h.purgedAt ▸ hf.purgedAt,
    isNonNegativeSafeInt_congr h.fencingToken ▸ hf.fencingToken,
    isNonNegativeSafeInt_congr h.firstPurgedCounter ▸ hf.firstPurgedCounter⟩
  simp only [Fields.strings, List.forall_mem_cons, List.not_mem_nil, false_implies, implies_true,
    and_true]
  exact ⟨delimiter_mem_congr h.scope h1, delimiter_mem_congr h.lastPurgedRowHash h2,
    delimiter_mem_congr h.archiveBundleId h3, delimiter_mem_congr h.archiveRowsDigest h4,
    delimiter_mem_congr h.archiveCheckpointDigest h5,
    delimiter_mem_congr h.archiveManifestDigest h6⟩

theorem layoutApplies_congr {f g : Fields} (h : Agree f.toWellFormed g.toWellFormed)
    {l : Layout} (hf : layoutApplies f l = true) : layoutApplies g l = true := by
  have hempty : ∀ {s t : JsString}, Js.toWellFormed s = Js.toWellFormed t → s = [] → t = [] := by
    rintro s t hst rfl
    exact toWellFormed_nil_iff.mp hst.symm
  have hmanifest := hempty h.archiveManifestDigest
  have hckpt := hempty h.archiveCheckpointDigest
  have hrows := hempty h.archiveRowsDigest
  have hrange : f.firstPurgedCounter.isZero = true → g.firstPurgedCounter.isZero = true := by
    intro hz
    rcases strictEq_checks h.firstPurgedCounter with heq | ⟨-, hy⟩
    · exact heq ▸ hz
    · exact hy
  cases l <;>
    simp only [layoutApplies, decide_eq_true_eq, Bool.decide_and, Bool.and_eq_true,
      strictEq_zero] at hf ⊢
  case noManifestDigest => exact hmanifest hf
  case noCheckpointDigest => exact ⟨hmanifest hf.1, hckpt hf.2⟩
  case noDigest => exact ⟨hmanifest hf.1, hckpt hf.2.1, hrows hf.2.2⟩
  case noRange => exact ⟨hmanifest hf.1, hckpt hf.2.1, hrows hf.2.2.1, hrange hf.2.2.2⟩

/-! ## The signature -/

section
variable {α : Type} {conv : Conversions α} {A B : Anchor α} {layout : Layout}
  {signed : List UInt8}

/-- A row verifies under a signature over `A` exactly when it holds `A`'s
fields, as UTF-8 sees them. -/
theorem purgeAnchorSignatureVerifies_iff (hsigned : purgeAnchorPayload conv A layout = .ok signed)
    (homitted : layoutApplies (readFields conv A) layout = true) :
    purgeAnchorSignatureVerifies conv (· == signed) B = true ↔
      Agree (readFields conv A).toWellFormed (readFields conv B).toWellFormed := by
  obtain ⟨hA, rfl⟩ := purgeAnchorPayload_ok_iff.mp hsigned
  rw [purgeAnchorSignatureVerifies, List.any_eq_true]
  constructor
  · rintro ⟨l, -, hl⟩
    rw [Bool.and_eq_true] at hl
    obtain ⟨happlies, hverify⟩ := hl
    cases hpayload : purgeAnchorPayload conv B l with
    | error e => rw [hpayload] at hverify; cases hverify
    | ok payload =>
        rw [hpayload] at hverify
        obtain ⟨hB, hbytes⟩ := purgeAnchorPayload_ok_iff.mp hpayload
        have hlines := lines_of_payload_eq hA hB ((beq_iff_eq.mp hverify).symm.trans hbytes)
        obtain rfl : layout = l := layout_of_length (by simpa using congrArg List.length hlines)
        rw [agree_iff_lines hA hB, payloadLines_current homitted, payloadLines_current happlies,
          List.map_append, List.map_append, hlines]
  · intro hagree
    have hB := hA.congr hagree
    have happlies := layoutApplies_congr hagree homitted
    refine ⟨layout, by cases layout <;> decide, ?_⟩
    rw [Bool.and_eq_true]
    refine ⟨happlies, ?_⟩
    have hlines := (agree_iff_lines hA hB).mp hagree
    rw [payloadLines_current homitted, payloadLines_current happlies, List.map_append,
      List.map_append] at hlines
    have hbytes : utf8 ([purgeAnchorDelimiter].intercalate
        (payloadLines (readFields conv B) layout)) = utf8 ([purgeAnchorDelimiter].intercalate
        (payloadLines (readFields conv A) layout)) := by
      rw [utf8, utf8, scalars_intercalate delimiter_plain.1 delimiter_plain.2.1,
        scalars_intercalate delimiter_plain.1 delimiter_plain.2.1,
        List.append_cancel_right hlines]
    rw [purgeAnchorPayload_ok_iff.mpr ⟨hB, rfl⟩]
    exact beq_iff_eq.mpr hbytes

/-- A row that verifies holds the signed fields, unless it differs from them in
nothing but lone surrogates. -/
theorem purgeAnchorSignatureVerifies_binds
    (hsigned : purgeAnchorPayload conv A layout = .ok signed)
    (homitted : layoutApplies (readFields conv A) layout = true) :
    (purgeAnchorSignatureVerifies conv (· == signed) B = true →
        Agree (readFields conv A) (readFields conv B)) ↔
      (Agree (readFields conv A).toWellFormed (readFields conv B).toWellFormed →
        Agree (readFields conv A) (readFields conv B)) := by
  rw [purgeAnchorSignatureVerifies_iff hsigned homitted]

end

/-- An anchor row over the first three counters, naming `bundle`. -/
def anchorNaming (bundle : JsString) : Anchor Column where
  scope := .null
  lastPurgedCounter := .integer 3
  lastPurgedRowHash := .text (units "c0ffee")
  archiveBundleId := .text bundle
  purgedAt := .integer 1700000000000
  fencingToken := .null
  firstPurgedCounter := .null
  archiveRowsDigest := .null
  archiveCheckpointDigest := .null
  archiveManifestDigest := .text []

theorem purgeAnchorSignatureVerifies_binds_naming :
    (purgeAnchorSignatureVerifies columnConversions
        (· == utf8 (units "blamejs-purge-anchor-v1\naudit\n3\nc0ffee\nb-1\n1700000000000\n0"))
        (anchorNaming (units "b-1")) = true →
      Agree (readFields columnConversions (anchorNaming (units "b-1")))
        (readFields columnConversions (anchorNaming (units "b-1")))) ↔
      (Agree (readFields columnConversions (anchorNaming (units "b-1"))).toWellFormed
          (readFields columnConversions (anchorNaming (units "b-1"))).toWellFormed →
        Agree (readFields columnConversions (anchorNaming (units "b-1")))
          (readFields columnConversions (anchorNaming (units "b-1")))) :=
  have hsigned : purgeAnchorPayload columnConversions (anchorNaming (units "b-1")) .noRange
      = .ok (utf8 (units
        "blamejs-purge-anchor-v1\naudit\n3\nc0ffee\nb-1\n1700000000000\n0")) := by
    decide +kernel
  purgeAnchorSignatureVerifies_binds hsigned (by decide +kernel)

/-- The signature over an anchor whose archive id is a lone surrogate verifies
for the anchor that names U+FFFD. -/
theorem purgeAnchorSignatureVerifies_lone_surrogate :
    ∃ signed, purgeAnchorPayload columnConversions (anchorNaming [0xD800]) .current = .ok signed ∧
      layoutApplies (readFields columnConversions (anchorNaming [0xD800])) .current = true ∧
      purgeAnchorSignatureVerifies columnConversions (· == signed) (anchorNaming [0xFFFD])
        = true ∧
      ¬ Agree (readFields columnConversions (anchorNaming [0xD800]))
        (readFields columnConversions (anchorNaming [0xFFFD])) := by
  refine ⟨_, purgeAnchorPayload_ok_iff.mpr ⟨checkFields_ok_iff.mp (by decide +kernel), rfl⟩, rfl,
    by decide +kernel, fun h => ?_⟩
  exact absurd h.archiveBundleId (by decide)

end Blamejs.PurgeAnchor
