import Blamejs.Lib.Delimited
import Mathlib.Data.Bool.AllAny
import Mathlib.Data.List.Lex
import Mathlib.Data.List.Sort
import Mathlib.Tactic.Common

/-!
# JavaScript text

A JavaScript string is a sequence of UTF-16 code units, nothing more: a lone
surrogate is a perfectly good string of length one. Everything that turns text
into bytes has to take a position on those, and `Buffer.from(s, "utf8")` takes
the lossy one — each lone surrogate is written as U+FFFD. `scalars` is that
reading and `utf8` the bytes; `WellFormed` is the strings on which nothing was
lost.

The way back, `TextDecoder`, has a choice of its own. In fatal mode it refuses
malformed bytes, and unless told otherwise it drops a leading byte-order mark:
`decodeUtf8` is the decoder without that step, `textDecode` the one with it.
-/

namespace Blamejs.Js

/-- A JavaScript string: UTF-16 code units. -/
abbrev JsString := List UInt16

instance : LawfulBEq JsString := inferInstance

/-- A character of the basic plane as its code unit. -/
def unit (c : Char) : UInt16 := UInt16.ofNat c.toNat

/-- Source text of the basic plane as code units. -/
def units (s : String) : JsString := s.toList.map unit

/-- The order `Array.prototype.sort` puts strings in: lexicographic by code
unit. -/
def unitLE (a b : JsString) : Prop := a.map UInt16.toNat ≤ b.map UInt16.toNat

instance : DecidableRel unitLE := fun a b =>
  inferInstanceAs (Decidable (a.map UInt16.toNat ≤ b.map UInt16.toNat))

theorem map_toNat_injective : Function.Injective (List.map UInt16.toNat) :=
  List.map_injective_iff.mpr fun _ _ h => UInt16.toNat_inj.mp h

instance : Std.Total unitLE := ⟨fun a b => le_total (a.map _) (b.map _)⟩

instance : IsTrans JsString unitLE := ⟨fun _ _ _ h₁ h₂ => le_trans (α := List ℕ) h₁ h₂⟩

theorem unitLE_antisymm {a b : JsString} (h₁ : unitLE a b) (h₂ : unitLE b a) : a = b :=
  map_toNat_injective (le_antisymm (α := List ℕ) h₁ h₂)

/-! ## Surrogates and scalar values -/

def isHigh (u : UInt16) : Bool := 0xD800 ≤ u.toNat && u.toNat ≤ 0xDBFF

def isLow (u : UInt16) : Bool := 0xDC00 ≤ u.toNat && u.toNat ≤ 0xDFFF

/-- The code point a surrogate pair stands for. -/
def pairValue (hi lo : UInt16) : Nat :=
  0x10000 + (hi.toNat - 0xD800) * 0x400 + (lo.toNat - 0xDC00)

/-- What the UTF-8 encoder reads a lone unit as. -/
def loneScalar (u : UInt16) : Char :=
  if isHigh u || isLow u then '\uFFFD' else Char.ofNat u.toNat

/-- The scalar values the UTF-8 encoder sees in a string, a lone surrogate
being read as U+FFFD. -/
def scalars : JsString → List Char
  | [] => []
  | [u] => [loneScalar u]
  | u :: v :: rest =>
      if isHigh u && isLow v then Char.ofNat (pairValue u v) :: scalars rest
      else loneScalar u :: scalars (v :: rest)

/-- The code units of one scalar value. -/
def ofChar (c : Char) : JsString :=
  if c.toNat < 0x10000 then [UInt16.ofNat c.toNat]
  else [UInt16.ofNat (0xD800 + (c.toNat - 0x10000) / 0x400),
    UInt16.ofNat (0xDC00 + (c.toNat - 0x10000) % 0x400)]

def ofScalars (cs : List Char) : JsString := cs.flatMap ofChar

@[simp] theorem ofScalars_nil : ofScalars [] = [] := rfl

@[simp] theorem ofScalars_cons (c : Char) (cs : List Char) :
    ofScalars (c :: cs) = ofChar c ++ ofScalars cs := rfl

/-- A string without lone surrogates: reading it as scalar values and writing
those back loses nothing. -/
def WellFormed (s : JsString) : Prop := ofScalars (scalars s) = s

instance : DecidablePred WellFormed := fun s =>
  inferInstanceAs (Decidable (ofScalars (scalars s) = s))

/-- `String.prototype.toWellFormed`. -/
def toWellFormed (s : JsString) : JsString := ofScalars (scalars s)

theorem char_range (c : Char) : c.toNat < 0xD800 ∨ (0xDFFF < c.toNat ∧ c.toNat < 0x110000) :=
  c.valid

theorem scalars_single {u : UInt16} (hhigh : isHigh u = false) (s : JsString) :
    scalars (u :: s) = loneScalar u :: scalars s := by
  cases s with
  | nil => rfl
  | cons v rest => simp [scalars, hhigh]

theorem scalars_pair {u v : UInt16} (hhigh : isHigh u = true) (hlow : isLow v = true)
    (s : JsString) : scalars (u :: v :: s) = Char.ofNat (pairValue u v) :: scalars s := by
  simp [scalars, hhigh, hlow]

theorem pairValue_split {n : Nat} {hi lo : UInt16} (h : ¬ n < 0x10000)
    (hhi : hi.toNat = 0xD800 + (n - 0x10000) / 0x400)
    (hlo : lo.toNat = 0xDC00 + (n - 0x10000) % 0x400) : pairValue hi lo = n := by
  unfold pairValue
  omega

theorem scalars_ofChar_append (c : Char) (s : JsString) :
    scalars (ofChar c ++ s) = c :: scalars s := by
  have hc := char_range c
  unfold ofChar
  split
  · next h =>
      have hu : (UInt16.ofNat c.toNat).toNat = c.toNat := by
        rw [UInt16.toNat_ofNat']; omega
      generalize UInt16.ofNat c.toNat = u at hu
      have hhigh : isHigh u = false := by
        simp only [isHigh, hu, Bool.and_eq_false_iff, decide_eq_false_iff_not]; omega
      have hlow : isLow u = false := by
        simp only [isLow, hu, Bool.and_eq_false_iff, decide_eq_false_iff_not]; omega
      rw [List.singleton_append, scalars_single hhigh, loneScalar, hhigh, hlow, hu]
      simp [Char.ofNat_toNat]
  · next h =>
      have hhi : (UInt16.ofNat (0xD800 + (c.toNat - 0x10000) / 0x400)).toNat
          = 0xD800 + (c.toNat - 0x10000) / 0x400 := by
        rw [UInt16.toNat_ofNat']; omega
      have hlo : (UInt16.ofNat (0xDC00 + (c.toNat - 0x10000) % 0x400)).toNat
          = 0xDC00 + (c.toNat - 0x10000) % 0x400 := by
        rw [UInt16.toNat_ofNat']; omega
      generalize UInt16.ofNat (0xD800 + (c.toNat - 0x10000) / 0x400) = hi at hhi
      generalize UInt16.ofNat (0xDC00 + (c.toNat - 0x10000) % 0x400) = lo at hlo
      have hhigh : isHigh hi = true := by
        simp only [isHigh, hhi, Bool.and_eq_true, decide_eq_true_eq]; omega
      have hlow : isLow lo = true := by
        simp only [isLow, hlo, Bool.and_eq_true, decide_eq_true_eq]; omega
      rw [List.cons_append, List.cons_append, List.nil_append, scalars_pair hhigh hlow,
        pairValue_split h hhi hlo, Char.ofNat_toNat]

@[simp] theorem scalars_ofScalars (cs : List Char) : scalars (ofScalars cs) = cs := by
  induction cs with
  | nil => rfl
  | cons c cs ih => rw [ofScalars_cons, scalars_ofChar_append, ih]

theorem wellFormed_ofScalars (cs : List Char) : WellFormed (ofScalars cs) := by
  rw [WellFormed, scalars_ofScalars]

theorem WellFormed.toWellFormed {s : JsString} (h : WellFormed s) : toWellFormed s = s := h

theorem WellFormed.exists_scalars {s : JsString} (h : WellFormed s) :
    ∃ cs, s = ofScalars cs := ⟨scalars s, h.symm⟩

theorem wellFormed_append {s t : JsString} (hs : WellFormed s) (ht : WellFormed t) :
    WellFormed (s ++ t) := by
  obtain ⟨cs, rfl⟩ := hs.exists_scalars
  obtain ⟨ds, rfl⟩ := ht.exists_scalars
  have : ofScalars cs ++ ofScalars ds = ofScalars (cs ++ ds) := List.flatMap_append.symm
  rw [this]
  exact wellFormed_ofScalars _

theorem wellFormed_nil : WellFormed [] := rfl

/-- A unit that is no surrogate is a character of its own. -/
theorem wellFormed_single {u : UInt16} (hhigh : isHigh u = false) (hlow : isLow u = false) :
    WellFormed [u] := by
  have hu := u.toNat_lt
  have hvalid : Nat.isValidChar u.toNat := by
    simp only [isHigh, isLow, Bool.and_eq_false_iff, decide_eq_false_iff_not] at hhigh hlow
    unfold Nat.isValidChar
    omega
  have hc : (Char.ofNat u.toNat).toNat = u.toNat := by
    rw [Char.ofNat, dif_pos hvalid]
    rfl
  rw [WellFormed, scalars, loneScalar, hhigh, hlow, if_neg (by decide), ofScalars_cons, ofChar,
    hc, if_pos (by omega), UInt16.ofNat_toNat]
  rfl

/-- So is a surrogate pair. -/
theorem wellFormed_pair {u v : UInt16} (hhigh : isHigh u = true) (hlow : isLow v = true) :
    WellFormed [u, v] := by
  have hu := hhigh
  have hv := hlow
  simp only [isHigh, isLow, Bool.and_eq_true, decide_eq_true_eq] at hu hv
  have hc : (Char.ofNat (pairValue u v)).toNat = pairValue u v := by
    have hvalid : Nat.isValidChar (pairValue u v) := by
      unfold Nat.isValidChar pairValue
      omega
    rw [Char.ofNat, dif_pos hvalid]
    rfl
  have hunit : ∀ {w : UInt16} {n : Nat}, n = w.toNat → UInt16.ofNat n = w := by
    rintro w n rfl
    exact UInt16.ofNat_toNat
  rw [WellFormed, scalars_pair hhigh hlow, ofScalars_cons, ofChar, hc,
    if_neg (by unfold pairValue; omega), hunit (w := u) (by unfold pairValue; omega),
    hunit (w := v) (by unfold pairValue; omega)]
  rfl

theorem scalars_eq_nil_iff {s : JsString} : scalars s = [] ↔ s = [] := by
  constructor
  · intro h
    match s with
    | [] => rfl
    | [u] => simp [scalars] at h
    | u :: v :: rest =>
        rw [scalars] at h
        split at h <;> simp at h
  · rintro rfl
    rfl

theorem toWellFormed_eq_iff {s t : JsString} :
    toWellFormed s = toWellFormed t ↔ scalars s = scalars t := by
  constructor
  · intro h
    have hs := congrArg scalars h
    simpa only [toWellFormed, scalars_ofScalars] using hs
  · intro h
    rw [toWellFormed, h, toWellFormed]

/-- A unit that is no surrogate is read on its own wherever it stands. -/
theorem scalars_append_plain {u : UInt16} (hhigh : isHigh u = false) (hlow : isLow u = false)
    (s t : JsString) : scalars (s ++ u :: t) = scalars s ++ loneScalar u :: scalars t := by
  induction s using scalars.induct with
  | case1 => exact scalars_single hhigh t
  | case2 v =>
      have hpair : ¬ (isHigh v && isLow u) = true := by rw [hlow, Bool.and_false]; decide
      rw [List.cons_append, List.nil_append, scalars.eq_3, if_neg hpair, scalars_single hhigh]
      rfl
  | case3 v w rest hpair ih =>
      rw [List.cons_append, List.cons_append, scalars, if_pos hpair, ih, scalars, if_pos hpair]
      rfl
  | case4 v w rest hpair ih =>
      rw [List.cons_append, List.cons_append, scalars, if_neg hpair, ← List.cons_append, ih,
        scalars, if_neg hpair]
      rfl

theorem scalars_intercalate {u : UInt16} (hhigh : isHigh u = false) (hlow : isLow u = false)
    (ls : List JsString) :
    scalars ([u].intercalate ls) = [loneScalar u].intercalate (ls.map scalars) := by
  induction ls with
  | nil => rfl
  | cons l ls ih =>
      cases ls with
      | nil => simp
      | cons m ms =>
          simp only [List.intercalate_cons_cons, List.map_cons, List.append_assoc,
            List.singleton_append] at ih ⊢
          rw [scalars_append_plain hhigh hlow, ih]

theorem loneScalar_toNat (v : UInt16) :
    (loneScalar v).toNat = if isHigh v || isLow v then 0xFFFD else v.toNat := by
  unfold loneScalar
  split
  · rfl
  · next h =>
      have hvalid : Nat.isValidChar v.toNat := by
        have := v.toNat_lt
        simp only [isHigh, isLow, Bool.or_eq_true, Bool.and_eq_true, decide_eq_true_eq] at h
        unfold Nat.isValidChar
        omega
      rw [Char.ofNat, dif_pos hvalid]
      rfl

/-- Units below the surrogates occur in the scalar values exactly where they
occur in the string. -/
theorem mem_scalars_plain {u : UInt16} (hu : u.toNat < 0xD800) {s : JsString} :
    loneScalar u ∈ scalars s ↔ u ∈ s := by
  have hplain : (loneScalar u).toNat = u.toNat := by
    rw [loneScalar_toNat, if_neg]
    simp only [isHigh, isLow, Bool.or_eq_true, Bool.and_eq_true, decide_eq_true_eq]
    omega
  have hlone : ∀ v : UInt16, loneScalar u = loneScalar v ↔ u = v := by
    intro v
    constructor
    · intro h
      have hv := congrArg Char.toNat h
      rw [hplain, loneScalar_toNat] at hv
      split at hv
      · omega
      · exact UInt16.toNat_inj.mp hv
    · rintro rfl
      rfl
  induction s using scalars.induct with
  | case1 => simp [scalars]
  | case2 v => simp [scalars, hlone]
  | case3 v w rest hpair ih =>
      have hpair' := hpair
      simp only [isHigh, isLow, Bool.and_eq_true, decide_eq_true_eq] at hpair'
      have hchar : loneScalar u ≠ Char.ofNat (pairValue v w) := by
        intro h
        have hc := congrArg Char.toNat h
        have hvalid : Nat.isValidChar (pairValue v w) := by
          unfold Nat.isValidChar pairValue
          omega
        rw [hplain, Char.ofNat, dif_pos hvalid] at hc
        have hval : pairValue v w = u.toNat := hc.symm
        unfold pairValue at hval
        omega
      have hv : u ≠ v := by rintro rfl; omega
      have hw : u ≠ w := by rintro rfl; omega
      rw [scalars, if_pos hpair]
      simp only [List.mem_cons, hchar, hv, hw, false_or]
      exact ih
  | case4 v w rest hpair ih =>
      rw [scalars, if_neg hpair]
      simp only [List.mem_cons, hlone] at ih ⊢
      exact or_congr Iff.rfl ih

/-! ## UTF-8 -/

/-- `Buffer.from(s, "utf8")`. -/
def utf8 (s : JsString) : List UInt8 := (scalars s).flatMap String.utf8EncodeChar

/-- The scalar values of well-formed UTF-8; anything malformed is refused. -/
def decodeUtf8 (bs : List UInt8) : Option (List Char) :=
  bs.toByteArray.utf8Decode?.map Array.toList

/-- `new TextDecoder("utf-8", { fatal: true }).decode(bs)`: refuses malformed
bytes, and drops one leading byte-order mark. -/
def textDecode (bs : List UInt8) : Option JsString :=
  (decodeUtf8 bs).map fun cs =>
    match cs with
    | '\uFEFF' :: rest => ofScalars rest
    | cs => ofScalars cs

theorem decodeUtf8_encode (cs : List Char) :
    decodeUtf8 (cs.flatMap String.utf8EncodeChar) = some cs := by
  have h : (cs.flatMap String.utf8EncodeChar).toByteArray = cs.utf8Encode := rfl
  rw [decodeUtf8, h, List.utf8Decode?_utf8Encode]
  rfl

theorem decodeUtf8_utf8 (s : JsString) : decodeUtf8 (utf8 s) = some (scalars s) :=
  decodeUtf8_encode (scalars s)

theorem encode_of_decodeUtf8 {bs : List UInt8} {cs : List Char} (h : decodeUtf8 bs = some cs) :
    cs.flatMap String.utf8EncodeChar = bs := by
  rw [decodeUtf8, Option.map_eq_some_iff] at h
  obtain ⟨a, ha, rfl⟩ := h
  have hsome : bs.toByteArray.utf8Decode?.isSome = true := by rw [ha]; rfl
  have hencode := ByteArray.utf8Encode_get_utf8Decode? (h := hsome)
  simp only [ha, Option.get_some] at hencode
  have hlist := congrArg (fun b => b.data.toList) hencode
  simpa [List.utf8Encode] using hlist

/-- `s` without a leading byte-order mark. -/
def withoutBom : JsString → JsString
  | [] => []
  | u :: rest => if u = 0xFEFF then rest else u :: rest

theorem ofChar_bom : ofChar '\uFEFF' = [0xFEFF] := by decide

theorem withoutBom_eq_self {s : JsString} (h : s.head? ≠ some 0xFEFF) : withoutBom s = s := by
  cases s with
  | nil => rfl
  | cons u rest => rw [withoutBom, if_neg fun hu => h (by rw [hu]; rfl)]

theorem head_ofChar {c : Char} {u : UInt16} {s : JsString}
    (hu : u.toNat < 0xD800 ∨ 0xDFFF < u.toNat)
    (h : (ofChar c ++ s).head? = some u) : c.toNat = u.toNat := by
  have hc := char_range c
  unfold ofChar at h
  split at h
  · rw [List.singleton_append, List.head?_cons, Option.some.injEq] at h
    rw [← h, UInt16.toNat_ofNat']
    omega
  · rw [List.cons_append, List.head?_cons, Option.some.injEq] at h
    rw [← h, UInt16.toNat_ofNat'] at hu
    omega

/-- A decoded text is the encoded one up to one leading byte-order mark. -/
theorem textDecode_utf8 {s : JsString} (hs : WellFormed s) :
    textDecode (utf8 s) = some (withoutBom s) := by
  obtain ⟨cs, rfl⟩ := hs.exists_scalars
  rw [textDecode, decodeUtf8_utf8, scalars_ofScalars, Option.map_some]
  congr 1
  split
  · rw [ofScalars_cons, ofChar_bom]
    rfl
  · next hbom =>
      cases cs with
      | nil => rfl
      | cons c cs =>
          have hc : c ≠ '\uFEFF' := by
            intro h
            exact hbom cs (by rw [h])
          refine (withoutBom_eq_self fun hhead => hc ?_).symm
          exact Char.toNat_inj.mp (head_ofChar (by decide) hhead)

theorem utf8_of_textDecode {bs : List UInt8} {s : JsString} (h : textDecode bs = some s) :
    bs = utf8 s ∨ bs = utf8 (0xFEFF :: s) := by
  rw [textDecode, Option.map_eq_some_iff] at h
  obtain ⟨cs, hcs, hs⟩ := h
  have hbytes := encode_of_decodeUtf8 hcs
  split at hs
  · next rest =>
      refine Or.inr ?_
      have : (0xFEFF :: s : JsString) = ofScalars ('\uFEFF' :: rest) := by
        rw [ofScalars_cons, ofChar_bom, ← hs]
        rfl
      rw [this, utf8, scalars_ofScalars, hbytes]
  · refine Or.inl ?_
    rw [← hs, utf8, scalars_ofScalars, hbytes]

/-- The bytes determine the string up to its lone surrogates. -/
theorem scalars_eq_of_utf8_eq {s t : JsString} (h : utf8 s = utf8 t) :
    scalars s = scalars t := by
  have hs := decodeUtf8_utf8 s
  rw [h, decodeUtf8_utf8 t] at hs
  exact (Option.some.inj hs).symm

theorem utf8_eq_iff {s t : JsString} : utf8 s = utf8 t ↔ toWellFormed s = toWellFormed t := by
  rw [toWellFormed_eq_iff]
  exact ⟨scalars_eq_of_utf8_eq, fun h => by rw [utf8, h, utf8]⟩

theorem utf8_injective_of_wellFormed {s t : JsString} (hs : WellFormed s) (ht : WellFormed t)
    (h : utf8 s = utf8 t) : s = t := by
  have := utf8_eq_iff.mp h
  rwa [hs.toWellFormed, ht.toWellFormed] at this

/-- The bytes of a character are those of no other, whatever follows them. -/
theorem utf8EncodeChar_delimited (c : Char) :
    Delimiting.Delimited String.utf8EncodeChar Delimiting.Anything c := by
  intro d r r' _ _ h
  have hc : ByteArray.utf8DecodeChar? (String.utf8EncodeChar c ++ r).toByteArray 0 = some c := by
    rw [List.toByteArray_append]
    exact ByteArray.utf8DecodeChar?_utf8EncodeChar_append
  rw [h, List.toByteArray_append, ByteArray.utf8DecodeChar?_utf8EncodeChar_append] at hc
  obtain rfl := Option.some.inj hc
  exact ⟨rfl, List.append_cancel_left h⟩

/-- When the bytes of two well-formed strings are the start of one byte
sequence, one string is the start of the other. -/
theorem utf8_append {s t : JsString} (hs : WellFormed s) (ht : WellFormed t) {r r' : List UInt8}
    (h : utf8 s ++ r = utf8 t ++ r') :
    (∃ e, s = t ++ e ∧ utf8 e ++ r = r') ∨ (∃ e, t = s ++ e ∧ r = utf8 e ++ r') := by
  obtain ⟨cs, rfl⟩ := hs.exists_scalars
  obtain ⟨ds, rfl⟩ := ht.exists_scalars
  simp only [utf8, scalars_ofScalars] at h
  rcases Delimiting.code_append utf8EncodeChar_delimited h with ⟨es, rfl, hr⟩ | ⟨es, rfl, hr⟩
  · exact Or.inl ⟨ofScalars es, List.flatMap_append, by rwa [utf8, scalars_ofScalars]⟩
  · exact Or.inr ⟨ofScalars es, List.flatMap_append, by rwa [utf8, scalars_ofScalars]⟩

end Blamejs.Js
