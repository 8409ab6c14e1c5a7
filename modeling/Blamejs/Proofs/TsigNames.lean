import Blamejs.Proofs.Dnssec
import Blamejs.Proofs.SafeDns
import Blamejs.Ref.Tsig

/-!
# Names and records of a TSIG message

The walk over the records of a message reads nothing behind the last of them, so where they end
can be told from any bytes that the message begins. A name is written, read and read again as
text with the same labels.
-/

namespace Blamejs.Tsig

open Blamejs.Js LabelName Checked
open Blamejs.Dnssec (presentationNameLabels presentationLoop asciiLowerLabel labelsOf)
open Blamejs.SafeDns (Bytes slice uint16 uint32 presentationLabel joinDots GoodLabel nameText
  drop_of_drop slice_of_drop length_of_drop beValue_written getElem?_of_drop length_wire_cons)

variable {buf buf' : Bytes} {off next n : Nat} {labels : List Bytes}

theorem ensure_eq_ok {p : Prop} [Decidable p] {e : TsigError} {u : Unit} :
    ensure p e = .ok u ↔ p := by
  unfold ensure
  split <;> simp_all

/-! ## The walk over the records -/

/-- From the header on, one message has what another one has up to an offset. -/
structure Agree (n : Nat) (buf buf' : Bytes) : Prop where
  length : n ≤ buf'.length
  same : ∀ j, 12 ≤ j → j < n → buf'[j]? = buf[j]?

theorem Agree.symm (h : Agree n buf buf') (hlen : n ≤ buf.length) : Agree n buf' buf :=
  ⟨hlen, fun j hj hlt => (h.same j hj hlt).symm⟩

theorem skipLoop_lt : ∀ {fuel i e : Nat}, skipLoop buf fuel i = .ok e → i < e
  | 0, _, _, h => by cases h
  | fuel + 1, i, e, h => by
      rw [skipLoop] at h
      split at h
      · cases h
      · split at h
        · rw [← Except.ok.inj h]
          exact Nat.lt_succ_self i
        · split at h
          · rw [← Except.ok.inj h]
            omega
          · split at h
            · cases h
            · have := skipLoop_lt h
              omega

theorem skipLoop_agree (hagree : Agree n buf buf') : ∀ {fuel fuel' i e : Nat},
    skipLoop buf fuel i = .ok e → 12 ≤ i → e ≤ n → e - i ≤ fuel' → skipLoop buf' fuel' i = .ok e
  | 0, _, _, _, h, _, _, _ => by cases h
  | fuel + 1, 0, i, e, h, _, _, hfuel => by
      have := skipLoop_lt h
      omega
  | fuel + 1, fuel' + 1, i, e, h, hi, he, hfuel => by
      have hlt := skipLoop_lt h
      rw [skipLoop] at h ⊢
      rw [hagree.same i hi (by omega)]
      cases hbyte : buf[i]? with
      | none =>
          rw [hbyte] at h
          cases h
      | some len =>
          rw [hbyte] at h
          dsimp only at h ⊢
          split at h
          · next hzero => rw [if_pos hzero, h]
          · next hzero =>
              rw [if_neg hzero]
              split at h
              · next hptr => rw [if_pos hptr, h]
              · next hptr =>
                  rw [if_neg hptr]
                  split at h
                  · cases h
                  · next hlen =>
                      rw [if_neg hlen]
                      have := skipLoop_lt h
                      exact skipLoop_agree hagree h (by omega) he (by omega)

theorem skipName_agree (hagree : Agree n buf buf') {i e : Nat} (h : skipName buf i = .ok e)
    (hi : 12 ≤ i) (he : e ≤ n) : skipName buf' i = .ok e :=
  skipLoop_agree hagree h hi he (by have := hagree.length; omega)

theorem uint16_agree (hagree : Agree n buf buf') {i : Nat} (hi : 12 ≤ i) (h : i + 2 ≤ n) :
    uint16 buf' i = uint16 buf i := by
  have hslice : slice buf' i 2 = slice buf i 2 := by
    refine List.ext_getElem? fun j => ?_
    rw [slice, slice]
    by_cases hj : j < 2
    · rw [List.getElem?_take_of_lt hj, List.getElem?_take_of_lt hj, List.getElem?_drop,
        List.getElem?_drop, hagree.same _ (by omega) (by omega)]
    · rw [List.getElem?_eq_none (by rw [List.length_take]; omega),
        List.getElem?_eq_none (by rw [List.length_take]; omega)]
  rw [uint16, uint16, hslice]

theorem skipQuestions_le : ∀ {count off e : Nat}, skipQuestions buf count off = .ok e → off ≤ e
  | 0, _, _, h => Nat.le_of_eq (Except.ok.inj h)
  | count + 1, off, e, h => by
      obtain ⟨mid, hmid, h⟩ := bind_eq_ok.mp h
      have := skipLoop_lt hmid
      have := skipQuestions_le h
      omega

theorem skipQuestions_agree (hagree : Agree n buf buf') : ∀ {count off e : Nat},
    skipQuestions buf count off = .ok e → 12 ≤ off → e ≤ n → skipQuestions buf' count off = .ok e
  | 0, _, _, h, _, _ => h
  | count + 1, off, e, h, hoff, he => by
      obtain ⟨mid, hmid, h⟩ := bind_eq_ok.mp h
      have hlt := skipLoop_lt hmid
      have hle := skipQuestions_le h
      exact bind_eq_ok.mpr ⟨mid, skipName_agree hagree hmid hoff (by omega),
        skipQuestions_agree hagree h (by omega) he⟩

theorem skipRecords_le : ∀ {count rrStart off s e : Nat},
    skipRecords buf count rrStart off = .ok (s, e) → off ≤ e
  | 0, _, _, _, _, h => Nat.le_of_eq (Prod.mk.inj (Except.ok.inj h)).2
  | count + 1, rrStart, off, s, e, h => by
      obtain ⟨mid, hmid, h⟩ := bind_eq_ok.mp h
      obtain ⟨-, -, h⟩ := bind_eq_ok.mp h
      have := skipLoop_lt hmid
      have := skipRecords_le h
      omega

theorem skipRecords_agree (hagree : Agree n buf buf') : ∀ {count rrStart off s e : Nat},
    skipRecords buf count rrStart off = .ok (s, e) → 12 ≤ off → e ≤ n →
    skipRecords buf' count rrStart off = .ok (s, e)
  | 0, _, _, _, _, h, _, _ => h
  | count + 1, rrStart, off, s, e, h, hoff, he => by
      obtain ⟨mid, hmid, h⟩ := bind_eq_ok.mp h
      obtain ⟨-, -, h⟩ := bind_eq_ok.mp h
      have hlt := skipLoop_lt hmid
      have hle := skipRecords_le h
      refine bind_eq_ok.mpr ⟨mid, skipName_agree hagree hmid hoff (by omega),
        bind_eq_ok.mpr ⟨(), ensure_eq_ok.mpr ?_, ?_⟩⟩
      · have := hagree.length
        omega
      · rw [uint16_agree hagree (by omega) (by omega)]
        exact skipRecords_agree hagree h (by omega) he

theorem skipRecords_snoc : ∀ {count rrStart off : Nat} {p : Nat × Nat},
    skipRecords buf (count + 1) rrStart off = .ok p ↔
      ∃ s mid, skipRecords buf count rrStart off = .ok (s, mid) ∧ skipRecords buf 1 s mid = .ok p
  | 0, rrStart, off, p => by
      constructor
      · exact fun h => ⟨rrStart, off, rfl, h⟩
      · rintro ⟨s, mid, h, hp⟩
        obtain ⟨rfl, rfl⟩ := Prod.mk.inj (Except.ok.inj h)
        exact hp
  | count + 1, rrStart, off, p => by
      constructor
      · intro h
        obtain ⟨mid, hmid, h⟩ := bind_eq_ok.mp h
        obtain ⟨u, hu, h⟩ := bind_eq_ok.mp h
        obtain ⟨s, last, hlast, hp⟩ := skipRecords_snoc.mp h
        exact ⟨s, last, bind_eq_ok.mpr ⟨mid, hmid, bind_eq_ok.mpr ⟨u, hu, hlast⟩⟩, hp⟩
      · rintro ⟨s, last, h, hp⟩
        obtain ⟨mid, hmid, h⟩ := bind_eq_ok.mp h
        obtain ⟨u, hu, h⟩ := bind_eq_ok.mp h
        exact bind_eq_ok.mpr ⟨mid, hmid,
          bind_eq_ok.mpr ⟨u, hu, skipRecords_snoc.mpr ⟨s, last, h, hp⟩⟩⟩

/-- A message's records end at an offset. -/
def EndsAt (buf : Bytes) (questions records last : Nat) : Prop :=
  ∃ off s, skipQuestions buf questions 12 = .ok off ∧ skipRecords buf records 0 off = .ok (s, last)

theorem EndsAt.agree {questions records last : Nat} (h : EndsAt buf questions records last)
    (hagree : Agree last buf buf') : EndsAt buf' questions records last := by
  obtain ⟨off, s, hoff, hlast⟩ := h
  have hle := skipQuestions_le hoff
  have hle' := skipRecords_le hlast
  exact ⟨off, s, skipQuestions_agree hagree hoff (Nat.le_refl _) hle',
    skipRecords_agree hagree hlast hle (Nat.le_refl _)⟩

theorem EndsAt.unique {questions records last last' : Nat} (h : EndsAt buf questions records last)
    (h' : EndsAt buf questions records last') : last = last' := by
  obtain ⟨off, s, hoff, hlast⟩ := h
  obtain ⟨off', s', hoff', hlast'⟩ := h'
  obtain rfl := Except.ok.inj (hoff.symm.trans hoff')
  exact (Prod.mk.inj (Except.ok.inj (hlast.symm.trans hlast'))).2

/-- A message that its records exactly fill. -/
def Fills (message : Bytes) : Prop :=
  EndsAt message (uint16 message 4) (uint16 message 6 + uint16 message 8 + uint16 message 10)
    message.length

/-! ## Names -/

/-- The head of a name that is written out. -/
theorem wire_head {l : Bytes} {rest : Bytes} (hl : GoodLabel l)
    (hdrop : buf.drop off = wire (l :: labels) ++ rest) :
    buf[off]? = some (UInt8.ofNat l.length) ∧ (UInt8.ofNat l.length).toNat = l.length ∧
      0 < l.length ∧ l.length ≤ 63 ∧ slice buf (off + 1) l.length = l ∧
      off + 1 + l.length ≤ buf.length ∧ buf.drop (off + 1 + l.length) = wire labels ++ rest := by
  have hlen : l.length ≤ 63 := hl.2
  have hwire : wire (l :: labels) = UInt8.ofNat l.length :: (l ++ wire labels) := by simp [wire]
  rw [hwire, List.cons_append, List.append_assoc] at hdrop
  have htail : buf.drop (off + 1) = l ++ (wire labels ++ rest) :=
    @drop_of_drop _ _ [UInt8.ofNat l.length] _ hdrop
  refine ⟨getElem?_of_drop hdrop, ?_, List.length_pos_iff.mpr hl.1, hlen, slice_of_drop htail,
    length_of_drop htail hl.1, drop_of_drop htail⟩
  rw [UInt8.toNat_ofNat', Nat.mod_eq_of_lt (by omega)]

theorem ne_zero_of_toNat {u : UInt8} {k : Nat} (h : u.toNat = k) (hk : 0 < k) : u ≠ 0 := by
  rintro rfl
  rw [← h] at hk
  exact absurd hk (by decide)

theorem length_lt_wire (labels : List Bytes) : labels.length < (wire labels).length := by
  induction labels with
  | nil => simp [wire]
  | cons l labels ih =>
      rw [length_wire_cons, List.length_cons]
      omega

theorem length_le_of_drop {rest : Bytes} (hdrop : buf.drop off = wire labels ++ rest) :
    off + (wire labels).length ≤ buf.length := length_of_drop hdrop (by simp [wire])

theorem skipLoop_wire {rest : Bytes} (hgood : ∀ l ∈ labels, GoodLabel l) : ∀ {fuel off : Nat},
    buf.drop off = wire labels ++ rest → labels.length < fuel →
    skipLoop buf fuel off = .ok (off + (wire labels).length) := by
  induction labels with
  | nil =>
      intro fuel off hdrop hfuel
      obtain ⟨fuel, rfl⟩ := Nat.exists_eq_add_one_of_ne_zero (Nat.ne_of_gt hfuel)
      have hbyte : buf[off]? = some 0 := getElem?_of_drop hdrop
      rw [skipLoop, hbyte]
      rfl
  | cons l labels ih =>
      intro fuel off hdrop hfuel
      obtain ⟨fuel, rfl⟩ :=
        Nat.exists_eq_add_one_of_ne_zero (Nat.ne_of_gt (Nat.zero_lt_of_lt hfuel))
      obtain ⟨hl, hlabels⟩ := List.forall_mem_cons.mp hgood
      obtain ⟨hbyte, hsize, hpos, hlen, -, -, htail⟩ := wire_head hl hdrop
      rw [skipLoop, hbyte]
      dsimp only
      rw [if_neg (ne_zero_of_toNat hsize hpos), hsize, if_neg (by omega), if_neg (by omega),
        ih hlabels htail (by rw [List.length_cons] at hfuel; omega), length_wire_cons]
      congr 1
      omega

theorem skipName_wire {rest : Bytes} (hgood : ∀ l ∈ labels, GoodLabel l)
    (hdrop : buf.drop off = wire labels ++ rest) :
    skipName buf off = .ok (off + (wire labels).length) := by
  have hlen := length_le_of_drop hdrop
  have := length_lt_wire labels
  exact skipLoop_wire hgood hdrop (by omega)

theorem readLabels_wire {rest : Bytes} {follow : Nat → Except TsigError (List JsString)}
    (hgood : ∀ l ∈ labels, GoodLabel l) : ∀ {fuel off : Nat},
    buf.drop off = wire labels ++ rest → labels.length < fuel →
    readLabels buf follow fuel off =
      .ok (labels.map presentationLabel, off + (wire labels).length) := by
  induction labels with
  | nil =>
      intro fuel off hdrop hfuel
      obtain ⟨fuel, rfl⟩ := Nat.exists_eq_add_one_of_ne_zero (Nat.ne_of_gt hfuel)
      have hbyte : buf[off]? = some 0 := getElem?_of_drop hdrop
      rw [readLabels, hbyte]
      rfl
  | cons l labels ih =>
      intro fuel off hdrop hfuel
      obtain ⟨fuel, rfl⟩ :=
        Nat.exists_eq_add_one_of_ne_zero (Nat.ne_of_gt (Nat.zero_lt_of_lt hfuel))
      obtain ⟨hl, hlabels⟩ := List.forall_mem_cons.mp hgood
      obtain ⟨hbyte, hsize, hpos, hlen, hslice, hinside, htail⟩ := wire_head hl hdrop
      rw [readLabels, hbyte]
      dsimp only
      rw [if_neg (ne_zero_of_toNat hsize hpos), hsize, if_neg (by omega), if_neg (by omega),
        if_neg (by omega), hslice]
      refine bind_eq_ok.mpr ⟨_, ih hlabels htail (by rw [List.length_cons] at hfuel; omega), ?_⟩
      rw [length_wire_cons, List.map_cons]
      congr 2
      dsimp only
      omega

/-- The text of a name with the dot of the root. -/
def fullText (labels : List Bytes) : JsString :=
  if labels = [] then units "." else nameText labels ++ units "."

theorem readName_wire {rest : Bytes} (hgood : ∀ l ∈ labels, GoodLabel l)
    (hdrop : buf.drop off = wire labels ++ rest) :
    readName buf off = .ok (fullText labels, off + (wire labels).length) := by
  have hlen := length_le_of_drop hdrop
  have := length_lt_wire labels
  refine bind_eq_ok.mpr ⟨_, readLabels_wire hgood hdrop (by omega), ?_⟩
  dsimp only
  rw [fullText]
  simp only [List.map_eq_nil_iff]
  rfl

/-! ## Names as text -/

/-- Three decimal digits. -/
def threeDigits (k : Nat) : JsString :=
  [UInt16.ofNat (48 + k / 100), UInt16.ofNat (48 + k / 10 % 10), UInt16.ofNat (48 + k % 10)]

theorem padded_threeDigits : ∀ k < 256,
    (if k < 10 then units "00" else if k < 100 then units "0" else []) ++ natText k =
      threeDigits k := by decide +kernel

theorem threeDigits_read : ∀ k < 256, ∀ d1 d2 d3, threeDigits k = [d1, d2, d3] →
    isDigitUnit d1 = true ∧ (isDigitUnit d2 && isDigitUnit d3) = true ∧
      (d1.toNat - 48) * 100 + (d2.toNat - 48) * 10 + (d3.toNat - 48) = k := by
  intro k hk d1 d2 d3 h
  simp only [threeDigits, List.cons.injEq, and_true] at h
  obtain ⟨rfl, rfl, rfl⟩ := h
  have hall : ∀ k < 256, isDigitUnit (UInt16.ofNat (48 + k / 100)) = true ∧
      (isDigitUnit (UInt16.ofNat (48 + k / 10 % 10)) && isDigitUnit (UInt16.ofNat (48 + k % 10))) =
        true ∧
      ((UInt16.ofNat (48 + k / 100)).toNat - 48) * 100 +
        ((UInt16.ofNat (48 + k / 10 % 10)).toNat - 48) * 10 +
        ((UInt16.ofNat (48 + k % 10)).toNat - 48) = k := by decide +kernel
  exact hall k hk

/-- A byte's text is read back. -/
theorem presentationLoop_byte (c : UInt8) (rest : JsString) (acc : List Bytes) {cur : Bytes}
    (wireLen : Nat) (hcur : cur.length + 1 ≤ 63) :
    presentationLoop (presentationLabel [c] ++ rest) acc cur wireLen =
      presentationLoop rest acc (cur ++ [c]) wireLen := by
  have hlt : c.toNat < 256 := UInt8.toNat_lt c
  have hunit : (UInt16.ofNat c.toNat).toNat = c.toNat := by
    rw [UInt16.toNat_ofNat', Nat.mod_eq_of_lt (by omega)]
  have hpush : ∀ r : Option (List Bytes),
      (if c.toNat > 0xFF then none
        else if cur.length + 1 > Dnssec.maxLabelOctets then none else r) = r := by
    intro r
    rw [if_neg (by omega), if_neg (by unfold Dnssec.maxLabelOctets; omega)]
  rw [presentationLabel, List.flatMap_cons, List.flatMap_nil, List.append_nil]
  dsimp only
  split
  · next hplain =>
      have hdot : UInt16.ofNat c.toNat ≠ unit '.' := by
        intro h
        have := congrArg UInt16.toNat h
        rw [hunit, show (unit '.').toNat = 0x2E from rfl] at this
        omega
      have hslash : UInt16.ofNat c.toNat ≠ unit '\\' := by
        intro h
        have := congrArg UInt16.toNat h
        rw [hunit, show (unit '\\').toNat = 0x5C from rfl] at this
        omega
      rw [List.singleton_append, Blamejs.Dnssec.presentationLoop.eq_def]
      dsimp only
      rw [if_neg hdot, if_neg hslash, hunit, hpush, UInt8.ofNat_toNat]
  · split
    · next hescaped =>
        have hdigit : ¬ isDigitUnit (UInt16.ofNat c.toNat) = true := by
          unfold isDigitUnit
          rw [hunit]
          simp only [Bool.and_eq_true, decide_eq_true_eq]
          omega
        rw [List.cons_append, List.singleton_append, Blamejs.Dnssec.presentationLoop.eq_def]
        dsimp only
        rw [if_neg (by decide), if_pos rfl, if_neg hdigit, hunit, hpush, UInt8.ofNat_toNat]
    · obtain ⟨h1, h23, hvalue⟩ := threeDigits_read c.toNat hlt _ _ _ rfl
      rw [padded_threeDigits c.toNat hlt, threeDigits, List.cons_append, List.cons_append,
        List.cons_append, List.cons_append, List.nil_append, Blamejs.Dnssec.presentationLoop.eq_def]
      dsimp only
      rw [if_neg (by decide), if_pos rfl, if_pos h1, if_pos h23, hvalue, hpush, UInt8.ofNat_toNat]

theorem presentationLoop_label (rest : JsString) (acc : List Bytes) (wireLen : Nat) :
    ∀ {l cur : Bytes}, cur.length + l.length ≤ 63 →
    presentationLoop (presentationLabel l ++ rest) acc cur wireLen =
      presentationLoop rest acc (cur ++ l) wireLen
  | [], cur, _ => by rw [List.append_nil]; rfl
  | c :: l, cur, h => by
      rw [List.length_cons] at h
      have hsplit : presentationLabel (c :: l) = presentationLabel [c] ++ presentationLabel l := by
        rw [presentationLabel, presentationLabel, presentationLabel, List.flatMap_cons,
          List.flatMap_cons, List.flatMap_nil, List.append_nil]
      have hcur : (cur ++ [c]).length + l.length ≤ 63 := by
        rw [List.length_append, List.length_singleton]
        omega
      rw [hsplit, List.append_assoc, presentationLoop_byte c _ acc wireLen (by omega),
        presentationLoop_label rest acc wireLen hcur, List.append_assoc]
      rfl

/-- A name is as long on the wire as it may be. -/
def Short (labels : List Bytes) : Prop := (wire labels).length ≤ 255

theorem presentationLoop_text (hgood : ∀ l ∈ labels, GoodLabel l) (hne : labels ≠ []) :
    ∀ {acc : List Bytes} {wireLen : Nat}, wireLen + (wire labels).length ≤ 256 →
    presentationLoop (nameText labels ++ units ".") acc [] wireLen = some (acc ++ labels) := by
  induction labels with
  | nil => exact absurd rfl hne
  | cons l labels ih =>
      intro acc wireLen hshort
      obtain ⟨hl, hlabels⟩ := List.forall_mem_cons.mp hgood
      have hlen : l.length ≤ 63 := hl.2
      rw [length_wire_cons] at hshort
      have hdot : ∀ rest, presentationLoop (unit '.' :: rest) acc l wireLen =
          presentationLoop rest (acc ++ [l]) [] (wireLen + l.length + 1) := by
        intro rest
        rw [Blamejs.Dnssec.presentationLoop.eq_def]
        dsimp only
        rw [if_pos rfl, if_neg hl.1]
      rw [nameText, List.map_cons, SafeDns.joinDots_cons]
      by_cases hlast : labels = []
      · subst hlast
        rw [List.map_nil, if_pos rfl, presentationLoop_label _ _ _ (by simpa using hlen),
          List.nil_append, show units "." = [unit '.'] from rfl, hdot,
          Blamejs.Dnssec.presentationLoop.eq_def]
        dsimp only
        rw [if_pos rfl, if_neg]
        rw [show (wire ([] : List Bytes)).length = 1 from rfl] at hshort
        unfold Dnssec.maxNameOctets
        omega
      · have htail := @ih hlabels hlast (acc ++ [l]) (wireLen + l.length + 1) (by omega)
        rw [if_neg (by simpa using hlast), List.append_assoc,
          presentationLoop_label _ _ _ (by simpa using hlen), List.nil_append, List.cons_append,
          hdot]
        rw [nameText] at htail
        rw [htail, List.append_assoc]
        rfl

theorem presentationNameLabels_fullText (hgood : ∀ l ∈ labels, GoodLabel l)
    (hshort : Short labels) : presentationNameLabels (fullText labels) = some labels := by
  by_cases hne : labels = []
  · subst hne
    rfl
  · rw [fullText, if_neg hne, presentationNameLabels, if_neg, presentationLoop_text hgood hne]
    · rfl
    · unfold Short at hshort
      omega
    · have htext : nameText labels ≠ [] := mt (SafeDns.nameText_eq_nil hgood).mp hne
      rintro (h | h)
      · exact htext (List.append_eq_nil_iff.mp h).1
      · exact htext (List.append_left_eq_self.mp h)

/-- What a name in presentation form is read as. -/
theorem presentationNameLabels_good {name : JsString}
    (h : presentationNameLabels name = some labels) :
    (∀ l ∈ labels, GoodLabel l) ∧ Short labels := by
  rw [presentationNameLabels] at h
  split at h
  · obtain rfl := Option.some.inj h
    exact ⟨by simp, by unfold Short; decide⟩
  · exact Dnssec.presentationLoop_sized h (by simp) (Nat.zero_le _) rfl

end Blamejs.Tsig
