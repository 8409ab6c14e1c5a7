import Blamejs.Proofs.SafeDns
import Blamejs.Ref.PresentationName

/-!
# The text of a name can be read back

One octet is written as itself, behind a backslash, or as a backslash and three digits, and
the scanner takes each of the three for that octet, whatever follows it. A dot is only
written between labels, so the scanner ends a label where the writer did.
-/

namespace Blamejs.SafeDns

open Blamejs.Js LabelName

/-- One octet of a label as `_presentationLabel` writes it. -/
def octetText (c : UInt8) : JsString := presentationLabel [c]

theorem presentationLabel_cons (c : UInt8) (l : Bytes) :
    presentationLabel (c :: l) = octetText c ++ presentationLabel l := by
  simp [octetText, presentationLabel]

/-- The three ways in which an octet is written. -/
inductive OctetText (c : UInt8) : JsString → Prop
  | raw : UInt16.ofNat c.toNat ≠ unit '.' → UInt16.ofNat c.toNat ≠ unit '\\' →
      OctetText c [UInt16.ofNat c.toNat]
  | quoted : isDigitUnit (UInt16.ofNat c.toNat) = false →
      OctetText c [unit '\\', UInt16.ofNat c.toNat]
  | decimal {d₁ d₂ d₃ : UInt16} : isDigitUnit d₁ = true → isDigitUnit d₂ = true →
      isDigitUnit d₃ = true →
      (d₁.toNat - 0x30) * 100 + (d₂.toNat - 0x30) * 10 + (d₃.toNat - 0x30) = c.toNat →
      OctetText c [unit '\\', d₁, d₂, d₃]

/-- The zeros in front of the digits of an octet. -/
def octetPad (n : Nat) : JsString :=
  if n < 10 then units "00" else if n < 100 then units "0" else []

theorem length_octetPad {n : Nat} (h : n < 256) : (octetPad n ++ natText n).length = 3 := by
  rw [octetPad, natText, List.length_append, List.length_map]
  by_cases h10 : n < 10
  · rw [if_pos h10, Nat.toDigits_of_lt_base h10]
    rfl
  have hsplit : Nat.toDigits 10 n = Nat.toDigits 10 (n / 10) ++ [(n % 10).digitChar] :=
    Nat.toDigits_of_base_le (by omega) (by omega)
  by_cases h100 : n < 100
  · rw [if_neg h10, if_pos h100, hsplit, Nat.toDigits_of_lt_base (by omega)]
    rfl
  · have hsplit' : Nat.toDigits 10 (n / 10) =
        Nat.toDigits 10 (n / 10 / 10) ++ [(n / 10 % 10).digitChar] :=
      Nat.toDigits_of_base_le (by omega) (by omega)
    rw [if_neg h10, if_neg h100, hsplit, hsplit', Nat.toDigits_of_lt_base (by omega)]
    rfl

theorem octetPad_eq (n : Nat) : ∃ j, octetPad n = List.replicate j (unit '0') := by
  rw [octetPad]
  split
  · exact ⟨2, rfl⟩
  · split
    · exact ⟨1, rfl⟩
    · exact ⟨0, rfl⟩

/-- An octet in three digits. -/
theorem decimal_digits {n : Nat} (h : n < 256) : ∃ d₁ d₂ d₃ : UInt16,
    octetPad n ++ natText n = [d₁, d₂, d₃] ∧
    isDigitUnit d₁ = true ∧ isDigitUnit d₂ = true ∧ isDigitUnit d₃ = true ∧
    (d₁.toNat - 0x30) * 100 + (d₂.toNat - 0x30) * 10 + (d₃.toNat - 0x30) = n := by
  obtain ⟨d₁, d₂, d₃, heq⟩ := List.length_eq_three.mp (length_octetPad h)
  obtain ⟨j, hj⟩ := octetPad_eq n
  have hdigit : ∀ d ∈ octetPad n ++ natText n, isDigitUnit d = true := by
    intro d hd
    rw [hj, List.mem_append] at hd
    obtain hd | hd := hd
    · rw [List.eq_of_mem_replicate hd]
      decide
    · exact isDigitUnit_of_mem_natText hd
  have hvalue : digitsValue (octetPad n ++ natText n) = n := by
    rw [hj, digitsValue_zeros_append, digitsValue_natText]
  rw [heq] at hdigit hvalue
  refine ⟨d₁, d₂, d₃, heq, hdigit _ (by simp), hdigit _ (by simp), hdigit _ (by simp), ?_⟩
  simp only [digitsValue, List.foldl_cons, List.foldl_nil] at hvalue
  omega

theorem unit_ofNat {n : Nat} {c : Char} (hn : n < 256) (hc : c.toNat < 256) :
    UInt16.ofNat n = unit c ↔ n = c.toNat := by
  constructor
  · intro h
    have := congrArg UInt16.toNat h
    rwa [unit, UInt16.toNat_ofNat', UInt16.toNat_ofNat', Nat.mod_eq_of_lt (by omega),
      Nat.mod_eq_of_lt (by omega)] at this
  · rintro rfl
    rfl

/-- An octet as a code unit. -/
theorem toNat_octetUnit (c : UInt8) : (UInt16.ofNat c.toNat).toNat = c.toNat := by
  have hc := c.toNat_lt
  rw [UInt16.toNat_ofNat', Nat.mod_eq_of_lt (by omega)]

theorem octetText_spec (c : UInt8) : OctetText c (octetText c) := by
  have hc : c.toNat < 256 := c.toNat_lt
  have hnat := toNat_octetUnit c
  simp only [octetText, presentationLabel, List.flatMap_cons, List.flatMap_nil, List.append_nil]
  split
  next h =>
    refine .raw ?_ ?_
    · rw [Ne, unit_ofNat hc (by decide)]
      exact h.2.2.1
    · rw [Ne, unit_ofNat hc (by decide)]
      exact h.2.2.2
  next h =>
    split
    next h' =>
      refine .quoted ?_
      rw [isDigitUnit, hnat]
      obtain h' | h' := h' <;> simp [h']
    next h' =>
      obtain ⟨d₁, d₂, d₃, heq, h₁, h₂, h₃, hv⟩ := decimal_digits hc
      rw [← octetPad, heq]
      exact .decimal h₁ h₂ h₃ hv

/-- Whatever follows, the scanner takes the text of an octet for that octet. -/
theorem scanLabels_octet {c : UInt8} {text : JsString} (h : OctetText c text) (rest : JsString)
    (labels : List Bytes) {cur : Bytes} (wireLen : Nat) (hcur : cur.length < dnsMaxLabelBytes) :
    scanLabels (text ++ rest) labels cur wireLen =
      scanLabels rest labels (cur ++ [c]) wireLen := by
  have hc : c.toNat < 256 := c.toNat_lt
  have hnat := toNat_octetUnit c
  have hself : UInt8.ofNat c.toNat = c := UInt8.ofNat_toNat
  have hlen : ¬ (cur ++ [c]).length > dnsMaxLabelBytes := by simp; omega
  have hback : unit '\\' ≠ unit '.' := by decide
  cases h with
  | raw hdot hback =>
      rw [List.singleton_append, scanLabels.eq_def]
      dsimp only
      rw [if_neg hdot, if_neg hback, hnat, hself, if_neg (by omega), if_neg hlen]
  | quoted hdigit =>
      rw [scanLabels.eq_def]
      dsimp only [List.cons_append, List.nil_append]
      rw [if_neg hback, if_pos rfl, hdigit, hnat, hself, if_neg (by simp), if_neg (by omega),
        if_neg hlen]
  | decimal h₁ h₂ h₃ hv =>
      rw [scanLabels.eq_def]
      dsimp only [List.cons_append, List.nil_append]
      rw [if_neg hback, if_pos rfl, if_pos h₁, h₂, h₃, if_neg (by simp), hv, hself,
        if_neg (by omega), if_neg hlen]

theorem scanLabels_label {l cur : Bytes} (rest : JsString) (labels : List Bytes) (wireLen : Nat)
    (h : (cur ++ l).length ≤ dnsMaxLabelBytes) :
    scanLabels (presentationLabel l ++ rest) labels cur wireLen =
      scanLabels rest labels (cur ++ l) wireLen := by
  induction l generalizing cur with
  | nil => simp [presentationLabel]
  | cons c l ih =>
      have hlen : (cur ++ [c] ++ l).length ≤ dnsMaxLabelBytes := by simpa using h
      have hcur : cur.length < dnsMaxLabelBytes := by simp at h; omega
      rw [presentationLabel_cons, List.append_assoc, scanLabels_octet (octetText_spec c) _ _ _ hcur,
        ih hlen, List.append_assoc, List.singleton_append]

/-- The labels that are left are read behind those that were. -/
theorem scanLabels_labels {labels : List Bytes} (hne : labels ≠ [])
    (h : ∀ l ∈ labels, GoodLabel l) (done : List Bytes) (wireLen : Nat)
    (hwire : wireLen + (wire labels).length ≤ dnsMaxNameBytes + 1) :
    scanLabels (joinDots (labels.map presentationLabel)) done [] wireLen =
      some (done ++ labels) := by
  induction labels generalizing done wireLen with
  | nil => exact absurd rfl hne
  | cons l labels ih =>
      have hl : l ≠ [] ∧ l.length ≤ dnsMaxLabelBytes := h l List.mem_cons_self
      have hpos : 0 < l.length := List.length_pos_iff.mpr hl.1
      rw [length_wire_cons] at hwire
      rw [List.map_cons, joinDots_cons]
      by_cases hnil : labels = []
      · subst hnil
        have hscan := @scanLabels_label l [] [] done wireLen (by simpa using hl.2)
        rw [List.append_nil, List.nil_append] at hscan
        have hrest : (wire []).length = 1 := rfl
        rw [List.map_nil, if_pos rfl, hscan, scanLabels, endLabels, if_pos hpos,
          if_neg (by omega)]
      · have hrest : labels.map presentationLabel ≠ [] := by simpa using hnil
        rw [if_neg hrest, scanLabels_label _ _ _ (by simpa using hl.2), List.nil_append,
          scanLabels.eq_def]
        dsimp only
        rw [if_pos rfl, if_neg (by omega),
          ih hnil (fun l' hl' => h l' (List.mem_cons_of_mem _ hl')) _ _ (by omega),
          List.append_assoc, List.singleton_append]

/-- The labels of a name that fits on the wire. -/
structure NameLabels (labels : List Bytes) : Prop where
  some : labels ≠ []
  few : labels.length ≤ 127
  good : ∀ l ∈ labels, l ≠ [] ∧ l.length ≤ 63
  fits : (wire labels).length ≤ 255

theorem presentationName_eq {labels : List Bytes} (h : labels ≠ []) :
    presentationName labels = nameText labels := by
  rw [presentationName, if_neg (by simpa using h), nameText]

theorem presentationNameLabels_nameText {labels : List Bytes} (h : NameLabels labels) :
    presentationNameLabels (nameText labels) = some labels := by
  have hne : nameText labels ≠ [] := by
    rw [Ne, nameText_eq_nil h.good]
    exact h.some
  have hscan : scanLabels (nameText labels) [] [] 1 = some labels := by
    have hfits := h.fits
    exact scanLabels_labels h.some h.good [] 1 (by rw [dnsMaxNameBytes]; omega)
  have hdot : nameText labels ≠ units "." := by
    intro heq
    rw [heq, show scanLabels (units ".") [] [] 1 = none from rfl] at hscan
    exact absurd hscan (by simp)
  rw [presentationNameLabels, if_neg (by simp [hne, hdot]), hscan]

/-- What was written is read back, so names with different wire forms have different texts. -/
theorem presentationName_roundtrip (labels : List Bytes) (h : NameLabels labels) :
    presentationNameLabels (presentationName labels) = some labels ∧
      ∀ labels', NameLabels labels' → wire labels ≠ wire labels' →
        presentationName labels ≠ presentationName labels' := by
  rw [presentationName_eq h.some]
  refine ⟨presentationNameLabels_nameText h, fun labels' h' hwire heq => hwire ?_⟩
  rw [presentationName_eq h'.some] at heq
  have hread := presentationNameLabels_nameText h
  rw [heq, presentationNameLabels_nameText h', Option.some.injEq] at hread
  rw [hread]

/-- A label with a dot, a backslash, a digit and a control byte, and the same bytes cut into
two labels at the dot. -/
theorem presentationName_roundtrip_bytes :
    presentationName [[0x2E, 0x5C, 0x31, 0x00]] ≠ presentationName [[0x5C], [0x31, 0x00]] :=
  have h : NameLabels [[0x2E, 0x5C, 0x31, 0x00]] :=
    ⟨by decide, by decide, by decide, by decide⟩
  have h' : NameLabels [[0x5C], [0x31, 0x00]] :=
    ⟨by decide, by decide, by decide, by decide⟩
  (presentationName_roundtrip _ h).2 _ h' (by decide)

end Blamejs.SafeDns
