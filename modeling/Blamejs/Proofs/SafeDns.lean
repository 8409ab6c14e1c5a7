import Blamejs.Lib.Checked
import Blamejs.Ref.SafeDns

/-!
# What is read of a DNS message

A name that was read is a list of labels, whatever pointers led to them, and written out
in full it reads the same. The bytes of a name end behind its zero or its first pointer;
the records lie one behind the other, each as long as its name, its fixed fields and its
RDLENGTH say. Nothing ties RDLENGTH to the bytes of a name inside RDATA.
-/

namespace Blamejs.SafeDns

open Blamejs.Js LabelName

variable {caps : Caps} {buf buf' : Bytes} {off next : Nat} {text : JsString}

/-! ## Texts of names -/

/-- The text of a list of labels. -/
def nameText (labels : List Bytes) : JsString := joinDots (labels.map presentationLabel)

/-- A label that fits into a message. -/
def GoodLabel (label : Bytes) : Prop := label ≠ [] ∧ label.length ≤ dnsMaxLabelBytes

theorem presentationLabel_ne_nil {label : Bytes} (h : label ≠ []) :
    presentationLabel label ≠ [] := by
  obtain ⟨c, rest, rfl⟩ := List.exists_cons_of_ne_nil h
  rw [presentationLabel, List.flatMap_cons]
  dsimp only
  split
  · exact List.cons_ne_nil _ _
  · split
    · exact List.cons_ne_nil _ _
    · exact List.cons_ne_nil _ _

theorem joinDots_cons (a : JsString) (rest : List JsString) :
    joinDots (a :: rest) = if rest = [] then a else a ++ unit '.' :: joinDots rest := by
  cases rest with
  | nil => simp [joinDots]
  | cons b rest => simp [joinDots, List.intercalate_cons_cons]

theorem nameText_eq_nil {labels : List Bytes} (h : ∀ l ∈ labels, GoodLabel l) :
    nameText labels = [] ↔ labels = [] := by
  cases labels with
  | nil => simp [nameText, joinDots]
  | cons l labels =>
      have hne := presentationLabel_ne_nil (h l List.mem_cons_self).1
      rw [nameText, List.map_cons, joinDots_cons]
      split <;> simp [hne]

/-! ## Where a name ends -/

/-- The bytes of a name, up to its zero or its first pointer. -/
inductive Encoded (buf : Bytes) : Nat → Nat → Prop
  | root {off : Nat} : buf[off]? = some 0 → Encoded buf off (off + 1)
  | pointer {off : Nat} {byte : UInt8} :
      buf[off]? = some byte → 0xC0 ≤ byte.toNat → Encoded buf off (off + 2)
  | label {off next : Nat} {byte : UInt8} :
      buf[off]? = some byte → byte ≠ 0 → byte.toNat ≤ dnsMaxLabelBytes →
      Encoded buf (off + 1 + byte.toNat) next → Encoded buf off next

theorem Encoded.lt (h : Encoded buf off next) : off < next := by
  induction h with
  | root _ => omega
  | pointer _ _ => omega
  | label _ _ _ _ ih => omega

theorem Encoded.unique {next' : Nat} (h : Encoded buf off next) (h' : Encoded buf off next') :
    next = next' := by
  induction h with
  | root hbyte =>
      cases h' with
      | root => rfl
      | pointer hbyte' hlarge =>
          rw [hbyte] at hbyte'
          cases hbyte'
          exact absurd hlarge (by decide)
      | label hbyte' hne =>
          rw [hbyte] at hbyte'
          cases hbyte'
          exact absurd rfl hne
  | pointer hbyte hlarge =>
      cases h' with
      | root hbyte' =>
          rw [hbyte] at hbyte'
          cases hbyte'
          exact absurd hlarge (by decide)
      | pointer => rfl
      | label hbyte' _ hsmall =>
          rw [hbyte] at hbyte'
          cases hbyte'
          have hsmall : _ ≤ 63 := hsmall
          omega
  | label hbyte hne hsmall _ ih =>
      cases h' with
      | root hbyte' =>
          rw [hbyte] at hbyte'
          cases hbyte'
          exact absurd rfl hne
      | pointer hbyte' hlarge =>
          rw [hbyte] at hbyte'
          cases hbyte'
          have hsmall : _ ≤ 63 := hsmall
          omega
      | label hbyte' _ _ hrest =>
          rw [hbyte] at hbyte'
          cases hbyte'
          exact ih hrest

/-! ## Reading a name -/

/-- What reading a name from some count on has found: its labels, within the bounds. -/
structure Found (caps : Caps) (acc : Acc) (labels : List Bytes) (acc' : Acc) : Prop where
  good : ∀ l ∈ labels, GoodLabel l
  bytes : acc'.bytes = acc.bytes + (wire labels).length
  count : acc'.labels = acc.labels + labels.length
  short : acc'.bytes ≤ dnsMaxNameBytes
  few : labels ≠ [] → acc'.labels ≤ caps.maxLabels

theorem length_wire_cons (l : Bytes) (labels : List Bytes) :
    (wire (l :: labels)).length = 1 + l.length + (wire labels).length := by
  simp [wire]
  omega

theorem found_nil {acc : Acc} (h : acc.bytes + 1 ≤ dnsMaxNameBytes) :
    Found caps acc [] ⟨acc.bytes + 1, acc.labels⟩ where
  good l hl := absurd hl List.not_mem_nil
  bytes := rfl
  count := rfl
  short := h
  few h := absurd rfl h

theorem Found.cons {acc acc' : Acc} {l : Bytes} {labels : List Bytes} (hl : GoodLabel l)
    (hfew : acc.labels + 1 ≤ caps.maxLabels)
    (h : Found caps ⟨acc.bytes + (1 + l.length), acc.labels + 1⟩ labels acc') :
    Found caps acc (l :: labels) acc' where
  good := List.forall_mem_cons.mpr ⟨hl, h.good⟩
  bytes := by
    rw [h.bytes, length_wire_cons]
    dsimp only
    omega
  count := by
    rw [h.count, List.length_cons]
    dsimp only
    omega
  short := h.short
  few _ := by
    by_cases hne : labels = []
    · rw [h.count, hne]
      exact hfew
    · exact h.few hne

/-- What following a pointer finds. -/
def Follows (caps : Caps) (follow : Nat → Acc → Except Err (JsString × Acc)) : Prop :=
  ∀ ptrOff acc name acc', follow ptrOff acc = .ok (name, acc') →
    ∃ labels, name = nameText labels ∧ Found caps acc labels acc'

/-- What is read where a name is walked: its end, a pointer, or a label and the rest. -/
theorem walk_cases {follow : Nat → Acc → Except Err (JsString × Acc)} {fuel : Nat}
    {acc acc' : Acc} {parts : List JsString}
    (h : walk caps buf follow (fuel + 1) off acc = .ok (parts, next, acc')) :
    (buf[off]? = some 0 ∧ acc.bytes + 1 ≤ dnsMaxNameBytes ∧ parts = [] ∧ next = off + 1 ∧
      acc' = ⟨acc.bytes + 1, acc.labels⟩) ∨
    (∃ byte ptrOff name, buf[off]? = some byte ∧ 0xC0 ≤ byte.toNat ∧
      follow ptrOff acc = .ok (name, acc') ∧ parts = (if name = [] then [] else [name]) ∧
      next = off + 2) ∨
    ∃ byte parts', buf[off]? = some byte ∧ byte ≠ 0 ∧ byte.toNat ≤ dnsMaxLabelBytes ∧
      off + 1 + byte.toNat ≤ buf.length ∧ acc.labels + 1 ≤ caps.maxLabels ∧
      walk caps buf follow fuel (off + 1 + byte.toNat)
        ⟨acc.bytes + (1 + byte.toNat), acc.labels + 1⟩ = .ok (parts', next, acc') ∧
      parts = presentationLabel (slice buf (off + 1) byte.toNat) :: parts' := by
  rw [walk] at h
  split at h
  · cases h
  next byte hbyte =>
  split at h
  · next hzero =>
      split at h
      · cases h
      · next hshort =>
          cases h
          exact Or.inl ⟨hzero ▸ hbyte, Nat.not_lt.mp hshort, rfl, rfl, rfl⟩
  next hne =>
  split at h
  · next hlarge =>
      split at h
      · cases h
      dsimp only at h
      split at h
      · cases h
      obtain ⟨⟨name, acc''⟩, htail, h⟩ := Checked.bind_eq_ok.mp h
      cases h
      exact Or.inr (Or.inl ⟨byte, _, name, hbyte, hlarge, htail, rfl, rfl⟩)
  split at h
  · cases h
  next hlabel =>
  split at h
  · cases h
  next hinside =>
  split at h
  · cases h
  next hfew =>
  split at h
  · cases h
  obtain ⟨⟨parts', next', acc''⟩, hrest, h⟩ := Checked.bind_eq_ok.mp h
  cases h
  exact Or.inr (Or.inr ⟨byte, parts', hbyte, hne, Nat.not_lt.mp hlabel, Nat.not_lt.mp hinside,
    Nat.not_lt.mp hfew, hrest, rfl⟩)

theorem walk_found {follow : Nat → Acc → Except Err (JsString × Acc)}
    (hfollow : Follows caps follow)
    {fuel : Nat} {acc acc' : Acc} {parts : List JsString}
    (h : walk caps buf follow fuel off acc = .ok (parts, next, acc')) :
    ∃ labels, joinDots parts = nameText labels ∧ (parts = [] ↔ labels = []) ∧
      Found caps acc labels acc' ∧ Encoded buf off next := by
  induction fuel generalizing off acc parts with
  | zero => cases h
  | succ fuel ih =>
      rcases walk_cases h with ⟨hbyte, hshort, rfl, rfl, rfl⟩ |
        ⟨byte, ptrOff, name, hbyte, hlarge, htail, rfl, rfl⟩ |
        ⟨byte, parts', hbyte, hne, hlabel, hinside, hfew, hrest, rfl⟩
      · exact ⟨[], rfl, by simp, found_nil hshort, .root hbyte⟩
      · obtain ⟨labels, rfl, hfound⟩ := hfollow _ _ _ _ htail
        have hnil := nameText_eq_nil hfound.good
        refine ⟨labels, ?_, ?_, hfound, .pointer hbyte hlarge⟩
        · split
          · next hempty =>
              have hempty : nameText labels = [] := hempty
              rw [hempty]
              rfl
          · rw [joinDots_cons, if_pos rfl]
        · rw [← hnil]
          split <;> simp_all
      · have hlen : (slice buf (off + 1) byte.toNat).length = byte.toNat := by
          rw [slice, List.length_take, List.length_drop]
          omega
        have hpos : 0 < byte.toNat := by
          rw [Nat.pos_iff_ne_zero]
          exact fun hz => hne (UInt8.toNat_inj.mp hz)
        obtain ⟨labels, htext, hiff, hfound, hencoded⟩ := ih hrest
        rw [← hlen] at hfound
        refine ⟨slice buf (off + 1) byte.toNat :: labels, ?_, by simp,
          hfound.cons ⟨fun hnil => ?_, ?_⟩ hfew, .label hbyte hne hlabel hencoded⟩
        · rw [nameText, List.map_cons, joinDots_cons, joinDots_cons, htext]
          simp only [hiff, List.map_eq_nil_iff, nameText]
        · rw [hnil, List.length_nil] at hlen
          omega
        · rw [hlen]
          exact hlabel

theorem readFrom_found {left : Nat} {acc acc' : Acc}
    (h : readFrom caps buf left off acc = .ok (text, next, acc')) :
    ∃ labels, text = nameText labels ∧ Found caps acc labels acc' ∧ Encoded buf off next := by
  induction left generalizing off next text acc acc' with
  | zero => cases h
  | succ left ih =>
      obtain ⟨⟨parts, next', acc''⟩, hwalk, h⟩ := Checked.bind_eq_ok.mp h
      cases h
      have hfollow : Follows caps (fun ptrOff acc =>
          readFrom caps buf left ptrOff acc >>= fun x => .ok (x.1, x.2.2)) := by
        intro ptrOff acc name acc' hname
        obtain ⟨⟨name', next'', acc''⟩, hread, hname⟩ := Checked.bind_eq_ok.mp hname
        cases hname
        obtain ⟨labels, htext, hfound, -⟩ := ih hread
        exact ⟨labels, htext, hfound⟩
      obtain ⟨labels, htext, -, hfound, hencoded⟩ := walk_found hfollow hwalk
      exact ⟨labels, htext, hfound, hencoded⟩

/-- A name that was read: labels within the bounds. -/
structure Name (caps : Caps) (labels : List Bytes) : Prop where
  good : ∀ l ∈ labels, GoodLabel l
  short : (wire labels).length ≤ dnsMaxNameBytes
  few : labels ≠ [] → labels.length ≤ caps.maxLabels

theorem readName_found (h : readName caps buf off = .ok (text, next)) :
    ∃ labels, text = nameText labels ∧ Name caps labels ∧ Encoded buf off next := by
  obtain ⟨⟨name, next', acc⟩, hread, h⟩ := Checked.bind_eq_ok.mp h
  cases h
  obtain ⟨labels, htext, hfound, hencoded⟩ := readFrom_found hread
  have hbytes := hfound.bytes
  have hcount := hfound.count
  simp only [Nat.zero_add] at hbytes hcount
  exact ⟨labels, htext, ⟨hfound.good, hbytes ▸ hfound.short, fun hne => hcount ▸ hfound.few hne⟩,
    hencoded⟩

/-! ## Names written out -/

theorem getElem?_of_drop {n : Nat} {x : UInt8} {rest : Bytes} (h : buf.drop n = x :: rest) :
    buf[n]? = some x := by
  rw [← Nat.add_zero n, ← List.getElem?_drop, h]
  rfl

theorem drop_of_drop {n : Nat} {front rest : Bytes} (h : buf.drop n = front ++ rest) :
    buf.drop (n + front.length) = rest := by
  rw [← List.drop_drop, h, List.drop_left]

theorem slice_of_drop {n : Nat} {front rest : Bytes} (h : buf.drop n = front ++ rest) :
    slice buf n front.length = front := by
  rw [slice, h, List.take_left]

theorem length_of_drop {n : Nat} {front rest : Bytes} (h : buf.drop n = front ++ rest)
    (hne : front ≠ []) : n + front.length ≤ buf.length := by
  have hlen := congrArg List.length h
  rw [List.length_drop, List.length_append] at hlen
  have := List.length_pos_iff.mpr hne
  omega

theorem walk_wire {follow : Nat → Acc → Except Err (JsString × Acc)} {labels : List Bytes}
    {fuel : Nat} {acc : Acc} {rest : Bytes} (hdrop : buf.drop off = wire labels ++ rest)
    (hgood : ∀ l ∈ labels, GoodLabel l)
    (hshort : acc.bytes + (wire labels).length ≤ dnsMaxNameBytes)
    (hfew : labels ≠ [] → acc.labels + labels.length ≤ caps.maxLabels)
    (hfuel : labels.length < fuel) :
    ∃ acc', walk caps buf follow fuel off acc =
      .ok (labels.map presentationLabel, off + (wire labels).length, acc') := by
  induction labels generalizing fuel off acc with
  | nil =>
      obtain ⟨fuel, rfl⟩ := Nat.exists_eq_add_one_of_ne_zero (Nat.ne_of_gt hfuel)
      have hbyte : buf[off]? = some 0 := getElem?_of_drop hdrop
      have hshort : ¬ dnsMaxNameBytes < acc.bytes + 1 := Nat.not_lt.mpr hshort
      exact ⟨⟨acc.bytes + 1, acc.labels⟩, by simp only [walk, hbyte, if_true, if_neg hshort]; rfl⟩
  | cons l labels ih =>
      obtain ⟨fuel, rfl⟩ :=
        Nat.exists_eq_add_one_of_ne_zero (Nat.ne_of_gt (Nat.zero_lt_of_lt hfuel))
      obtain ⟨⟨hne, hlen⟩, hlabels⟩ := List.forall_mem_cons.mp hgood
      have hlen : l.length ≤ 63 := hlen
      have hpos := List.length_pos_iff.mpr hne
      have hwire : wire (l :: labels) = UInt8.ofNat l.length :: (l ++ wire labels) := by simp [wire]
      have hsize : (UInt8.ofNat l.length).toNat = l.length := by
        rw [UInt8.toNat_ofNat', Nat.mod_eq_of_lt (by omega)]
      rw [hwire, List.cons_append, List.append_assoc] at hdrop
      have hbyte := getElem?_of_drop hdrop
      have htail : buf.drop (off + 1) = l ++ (wire labels ++ rest) :=
        @drop_of_drop _ _ [UInt8.ofNat l.length] _ hdrop
      have hslice : slice buf (off + 1) l.length = l := slice_of_drop htail
      have hinside := length_of_drop htail hne
      rw [length_wire_cons] at hshort
      have hcount := hfew (List.cons_ne_nil _ _)
      rw [List.length_cons] at hcount
      obtain ⟨acc', hwalk⟩ := @ih (off + 1 + l.length) fuel
        ⟨acc.bytes + (1 + l.length), acc.labels + 1⟩
        (drop_of_drop htail) hlabels (by dsimp only; omega) (fun _ => by dsimp only; omega)
        (by rw [List.length_cons] at hfuel; omega)
      refine ⟨acc', ?_⟩
      have hzero : ¬ UInt8.ofNat l.length = 0 := fun h => by
        have := congrArg UInt8.toNat h
        rw [hsize] at this
        exact absurd this (Nat.ne_of_gt hpos)
      rw [walk]
      simp only [hbyte]
      rw [if_neg hzero, hsize, if_neg (by omega), if_neg (by unfold dnsMaxLabelBytes; omega),
        if_neg (by omega), if_neg (by omega), if_neg (by omega), hslice]
      refine Checked.bind_eq_ok.mpr ⟨_, hwalk, ?_⟩
      rw [length_wire_cons, List.map_cons]
      congr 3
      dsimp only
      omega

/-- Written out, a name reads the same. -/
theorem readName_wire {labels : List Bytes} (h : Name caps labels) {rest : Bytes}
    (hdrop : buf.drop off = wire labels ++ rest) :
    readName caps buf off = .ok (nameText labels, off + (wire labels).length) := by
  have hne : wire labels ≠ [] := by simp [wire]
  have hinside := length_of_drop hdrop hne
  have hcount : labels.length < (wire labels).length := by
    clear hdrop hinside hne
    induction labels with
    | nil => simp [wire]
    | cons l labels ih =>
        have hlabels : Name caps labels := by
          refine ⟨(List.forall_mem_cons.mp h.good).2, ?_, fun _ => ?_⟩
          · have := h.short
            rw [length_wire_cons] at this
            omega
          · have := h.few (List.cons_ne_nil _ _)
            rw [List.length_cons] at this
            omega
        have := ih hlabels
        rw [length_wire_cons, List.length_cons]
        omega
  obtain ⟨acc', hwalk⟩ := @walk_wire caps buf off _ labels (buf.length + 1) ⟨0, 0⟩ rest hdrop h.good
    (by rw [Nat.zero_add]; exact h.short) (fun hne => by rw [Nat.zero_add]; exact h.few hne)
    (by omega)
  refine Checked.bind_eq_ok.mpr ⟨(nameText labels, off + (wire labels).length, acc'), ?_, rfl⟩
  rw [readFrom]
  exact Checked.bind_eq_ok.mpr ⟨_, hwalk, rfl⟩

theorem bind_eq_outOfFuel {α β : Type} {x : Except Err α} {f : α → Except Err β}
    (h : x >>= f = .error .outOfFuel) : x = .error .outOfFuel ∨
      ∃ a, x = .ok a ∧ f a = .error .outOfFuel := by
  cases x with
  | error e =>
      change (Except.error e : Except Err β) = .error .outOfFuel at h
      cases h
      exact Or.inl rfl
  | ok a => exact Or.inr ⟨a, rfl, h⟩

theorem walk_ends {follow : Nat → Acc → Except Err (JsString × Acc)}
    (hfollow : ∀ ptrOff acc, follow ptrOff acc ≠ .error .outOfFuel) {fuel : Nat} {acc : Acc}
    (hpos : 0 < fuel) (hfuel : buf.length < fuel + off) :
    walk caps buf follow fuel off acc ≠ .error .outOfFuel := by
  induction fuel generalizing off acc with
  | zero => exact absurd hpos (Nat.lt_irrefl 0)
  | succ fuel ih =>
      intro h
      rw [walk] at h
      split at h
      · cases h
      · next byte hbyte =>
        split at h
        · split at h <;> cases h
        · next hne =>
          split at h
          · split at h
            · cases h
            · dsimp only at h
              split at h
              · cases h
              · rcases bind_eq_outOfFuel h with h | ⟨_, -, h⟩
                · exact hfollow _ _ h
                · cases h
          · split at h
            · cases h
            · split at h
              · cases h
              · next hinside =>
                split at h
                · cases h
                · split at h
                  · cases h
                  · have hbytes : 0 < byte.toNat := by
                      rw [Nat.pos_iff_ne_zero]
                      exact fun hz => hne (UInt8.toNat_inj.mp hz)
                    rcases bind_eq_outOfFuel h with h | ⟨_, -, h⟩
                    · exact ih (by omega) (by omega) h
                    · cases h

theorem readFrom_ends (caps : Caps) (buf : Bytes) (left off : Nat) (acc : Acc) :
    readFrom caps buf left off acc ≠ .error .outOfFuel := by
  induction left generalizing off acc with
  | zero => exact fun h => nomatch h
  | succ left ih =>
      intro h
      rcases bind_eq_outOfFuel h with h | ⟨_, -, h⟩
      · refine walk_ends (fun ptrOff acc h => ?_) (Nat.succ_pos _) (by omega) h
        rcases bind_eq_outOfFuel h with h | ⟨_, -, h⟩
        · exact ih _ _ h
        · cases h
      · cases h

/-- Reading a name ends on every message: the bound on its labels is not reached. -/
theorem readName_ends (caps : Caps) (buf : Bytes) (off : Nat) :
    readName caps buf off ≠ .error .outOfFuel := by
  intro h
  rcases bind_eq_outOfFuel h with h | ⟨_, -, h⟩
  · exact readFrom_ends caps buf _ off _ h
  · cases h

/-! ## Numbers -/

theorem beValue_lt (bytes : Bytes) : beValue bytes < 256 ^ bytes.length := by
  induction bytes using List.reverseRecOn with
  | nil => exact Nat.one_pos
  | append_singleton bytes b ih =>
      have hb := b.toNat_lt
      rw [beValue, List.foldl_append, List.length_append, List.length_singleton, Nat.pow_succ]
      change beValue bytes * 256 + b.toNat < _
      omega

theorem slice_lt {n : Nat} (k : Nat) : beValue (slice buf n k) < 256 ^ k := by
  have hlen : (slice buf n k).length ≤ k := by
    rw [slice, List.length_take]
    omega
  exact (beValue_lt _).trans_le (Nat.pow_le_pow_right (by decide) hlen)

/-- A number that was written where it is read. -/
theorem beValue_written {n k v : Nat} {rest : Bytes} (hv : v < 256 ^ k)
    (h : buf.drop n = beBytes k v ++ rest) : beValue (slice buf n k) = v := by
  have hslice := slice_of_drop h
  rw [length_beBytes] at hslice
  rw [hslice, beValue_beBytes hv]

theorem slice_take {bytes tail : Bytes} {k i n : Nat} (hk : k ≤ bytes.length) (hin : i + n ≤ k) :
    slice (bytes.take k ++ tail) i n = slice bytes i n := by
  have hlen : (bytes.take k).length = k := by rw [List.length_take]; omega
  rw [slice, slice, List.drop_append_of_le_length (by omega), List.drop_take,
    List.take_append_of_le_length (by rw [List.length_take, List.length_drop]; omega),
    List.take_take, Nat.min_eq_left (by omega)]

theorem slice_drop (bytes : Bytes) (n i k : Nat) :
    slice (bytes.drop n) i k = slice bytes (n + i) k := by
  rw [slice, slice, List.drop_drop]

/-! ## Records -/

/-- A record from an offset on: its name and where that ends, the fields behind it, and
RDATA. -/
structure RrAt (caps : Caps) (buf : Bytes) (off : Nat) (rr : Rr) (stop : Nat) (labels : List Bytes)
    (nameEnd : Nat) : Prop where
  name : rr.name = nameText labels
  bounds : Name caps labels
  encoded : Encoded buf off nameEnd
  type : rr.type = uint16 buf nameEnd
  rclass : rr.rclass = uint16 buf (nameEnd + 2)
  ttl : rr.ttl = uint32 buf (nameEnd + 4)
  rdata : rr.rdata = slice buf (nameEnd + dnsRrFixedBytes) (uint16 buf (nameEnd + 8))
  ends : stop = nameEnd + dnsRrFixedBytes + uint16 buf (nameEnd + 8)
  inside : stop ≤ buf.length
  decoded : decodeRdata caps (namesAt caps buf (nameEnd + dnsRrFixedBytes)) rr.type rr.rdata =
    .ok rr.decoded

theorem readRr_found {rr : Rr} {stop : Nat} (h : readRr caps buf off = .ok (rr, stop)) :
    ∃ labels nameEnd, RrAt caps buf off rr stop labels nameEnd := by
  obtain ⟨⟨name, nameEnd⟩, hname, h⟩ := Checked.bind_eq_ok.mp h
  obtain ⟨labels, htext, hbounds, hencoded⟩ := readName_found hname
  dsimp only at h
  split at h
  · cases h
  · split at h
    · cases h
    · next hinside =>
        obtain ⟨decoded, hdecoded, h⟩ := Checked.bind_eq_ok.mp h
        cases h
        exact ⟨labels, nameEnd, htext, hbounds, hencoded, rfl, rfl, rfl, rfl, rfl,
          Nat.not_lt.mp hinside, hdecoded⟩

theorem RrAt.length_rdata {rr : Rr} {stop nameEnd : Nat} {labels : List Bytes}
    (h : RrAt caps buf off rr stop labels nameEnd) :
    rr.rdata.length = uint16 buf (nameEnd + 8) := by
  have hinside := h.inside
  rw [h.ends] at hinside
  rw [h.rdata, slice, List.length_take, List.length_drop]
  omega

/-- Where RDATA of a type has a name in it, but for the two of a SOA. -/
def nameOffset (rtype rdlen : Nat) : Option Nat :=
  if rtype = 5 ∨ rtype = 2 ∨ rtype = 12 then some 0
  else if rtype = 15 ∧ 3 ≤ rdlen then some 2
  else if rtype = 33 ∧ 7 ≤ rdlen then some 6
  else if rtype = 46 ∧ 18 ≤ rdlen then some 18
  else none

/-- RDATA with its names written out. -/
inductive Expanded (caps : Caps) (names : Nat → Except Err (JsString × Nat)) (rtype : Nat)
    (rdata : Bytes) : Bytes → Prop
  | plain : nameOffset rtype rdata.length = none → rtype ≠ 6 → Expanded caps names rtype rdata rdata
  | one {k next : Nat} {labels : List Bytes} : nameOffset rtype rdata.length = some k →
      Name caps labels → names k = .ok (nameText labels, next) →
      Expanded caps names rtype rdata (rdata.take k ++ (wire labels ++ rdata.drop next))
  | two {next next' : Nat} {labels labels' : List Bytes} : rtype = 6 →
      Name caps labels → names 0 = .ok (nameText labels, next) →
      Name caps labels' → names next = .ok (nameText labels', next') →
      Expanded caps names rtype rdata (wire labels ++ (wire labels' ++ rdata.drop next'))

/-- A reader of names that reads what is written out in RDATA. -/
def ReadsWritten (caps : Caps) (names : Nat → Except Err (JsString × Nat)) (rdata : Bytes) : Prop :=
  ∀ k labels rest, Name caps labels → rdata.drop k = wire labels ++ rest →
    names k = .ok (nameText labels, k + (wire labels).length)

section expand

variable {names names' : Nat → Except Err (JsString × Nat)} {rtype : Nat} {rdata rdata' : Bytes}
variable {decoded : Decoded}

theorem length_wire_pos (labels : List Bytes) : 0 < (wire labels).length := by
  simp [wire]

/-- RDATA of a type that begins with a name. -/
theorem decode_target (hlt : rtype = 5 ∨ rtype = 2 ∨ rtype = 12) :
    decodeRdata caps names rtype rdata = names 0 >>= fun (target, _) => .ok (.name target) := by
  rw [decodeRdata]
  dsimp only
  rw [if_neg (by omega), if_neg (by omega), if_pos hlt]

theorem decode_mx (hlen : 3 ≤ rdata.length) : decodeRdata caps names 15 rdata =
    names 2 >>= fun (exchange, _) => .ok (.mx (uint16 rdata 0) exchange) := by
  rw [decodeRdata]
  dsimp only
  rw [if_neg (by omega), if_neg (by omega), if_neg (by omega), if_pos ⟨rfl, hlen⟩]

theorem decode_soa : decodeRdata caps names 6 rdata = decodeSoa names rdata := by
  rw [decodeRdata]
  dsimp only
  rw [if_neg (by omega), if_neg (by omega), if_neg (by omega), if_neg (by omega), if_neg (by omega),
    if_pos rfl]

theorem decode_srv (hlen : 7 ≤ rdata.length) : decodeRdata caps names 33 rdata =
    names 6 >>= fun (target, _) =>
      .ok (.srv (uint16 rdata 0) (uint16 rdata 2) (uint16 rdata 4) target) := by
  rw [decodeRdata]
  dsimp only
  rw [if_neg (by omega), if_neg (by omega), if_neg (by omega), if_neg (by omega), if_neg (by omega),
    if_neg (by omega), if_pos ⟨rfl, hlen⟩]

theorem decode_rrsig (hlen : 18 ≤ rdata.length) : decodeRdata caps names 46 rdata =
    names 18 >>= fun (signer, next) =>
      .ok (.rrsig (uint16 rdata 0) (uint8 rdata 2) (uint8 rdata 3) (uint32 rdata 4)
        (uint32 rdata 8) (uint32 rdata 12) (uint16 rdata 16) signer (rdata.drop next)) := by
  rw [decodeRdata]
  dsimp only
  rw [if_neg (by omega), if_neg (by omega), if_neg (by omega), if_neg (by omega), if_neg (by omega),
    if_neg (by omega), if_neg (by omega), if_neg (by omega), if_neg (by omega), if_pos ⟨rfl, hlen⟩]

/-- Where there is no name, none is read. -/
theorem decode_plain (hnone : nameOffset rtype rdata.length = none) (hsoa : rtype ≠ 6) :
    decodeRdata caps names rtype rdata = decodeRdata caps names' rtype rdata := by
  unfold nameOffset at hnone
  split at hnone
  · cases hnone
  · next htarget =>
      split at hnone
      · cases hnone
      · next hmx =>
          split at hnone
          · cases hnone
          · next hsrv =>
              split at hnone
              · cases hnone
              · next hrrsig =>
                  unfold decodeRdata
                  dsimp only
                  rw [if_neg htarget, if_neg htarget, if_neg hmx, if_neg hmx, if_neg hsoa,
                    if_neg hsoa, if_neg hsrv, if_neg hsrv, if_neg hrrsig, if_neg hrrsig]

/-- The types with a name in RDATA. -/
theorem nameOffset_eq_some {rdlen k : Nat} (h : nameOffset rtype rdlen = some k) :
    (k = 0 ∧ (rtype = 5 ∨ rtype = 2 ∨ rtype = 12)) ∨ (k = 2 ∧ rtype = 15 ∧ 3 ≤ rdlen) ∨
      (k = 6 ∧ rtype = 33 ∧ 7 ≤ rdlen) ∨ (k = 18 ∧ rtype = 46 ∧ 18 ≤ rdlen) := by
  unfold nameOffset at h
  split at h
  · next htarget =>
      cases h
      exact Or.inl ⟨rfl, htarget⟩
  · split at h
    · next hmx =>
        cases h
        exact Or.inr (Or.inl ⟨rfl, hmx⟩)
    · split at h
      · next hsrv =>
          cases h
          exact Or.inr (Or.inr (Or.inl ⟨rfl, hsrv⟩))
      · split at h
        · next hrrsig =>
            cases h
            exact Or.inr (Or.inr (Or.inr ⟨rfl, hrrsig⟩))
        · cases h

theorem decode_expanded_one {k next : Nat} {labels : List Bytes}
    (h : decodeRdata caps names rtype rdata = .ok decoded)
    (hk : nameOffset rtype rdata.length = some k) (hname : Name caps labels)
    (hread : names k = .ok (nameText labels, next))
    (hwritten : ReadsWritten caps names' (rdata.take k ++ (wire labels ++ rdata.drop next))) :
    decodeRdata caps names' rtype (rdata.take k ++ (wire labels ++ rdata.drop next)) =
      .ok decoded := by
  have hle : k ≤ rdata.length := by
    rcases nameOffset_eq_some hk with ⟨rfl, -⟩ | ⟨rfl, -, hlen⟩ | ⟨rfl, -, hlen⟩ |
      ⟨rfl, -, hlen⟩ <;> omega
  have hfront : (rdata.take k).length = k := by rw [List.length_take]; omega
  have hpos := length_wire_pos labels
  have hdrop : (rdata.take k ++ (wire labels ++ rdata.drop next)).drop k =
      wire labels ++ rdata.drop next := List.drop_left' hfront
  have hread' := hwritten k labels _ hname hdrop
  have hslice : ∀ i n, i + n ≤ k →
      slice (rdata.take k ++ (wire labels ++ rdata.drop next)) i n = slice rdata i n :=
    fun i n hin => slice_take hle hin
  have hlength : k + 1 ≤ (rdata.take k ++ (wire labels ++ rdata.drop next)).length := by
    rw [List.length_append, List.length_append, hfront]
    omega
  rcases nameOffset_eq_some hk with ⟨rfl, htype⟩ | ⟨rfl, rfl, hlen⟩ | ⟨rfl, rfl, hlen⟩ |
    ⟨rfl, rfl, hlen⟩
  · rw [decode_target htype, hread] at h
    rw [decode_target htype, hread']
    exact h
  · rw [decode_mx hlen, hread] at h
    rw [decode_mx hlength, hread', uint16, hslice 0 2 (by omega)]
    exact h
  · rw [decode_srv hlen, hread] at h
    rw [decode_srv hlength, hread', uint16, uint16, uint16, hslice 0 2 (by omega),
      hslice 2 2 (by omega), hslice 4 2 (by omega)]
    exact h
  · rw [decode_rrsig hlen, hread] at h
    have htail : (rdata.take 18 ++ (wire labels ++ rdata.drop next)).drop
        (18 + (wire labels).length) = rdata.drop next := drop_of_drop hdrop
    rw [decode_rrsig (by omega), hread']
    change Except.ok _ = _
    rw [htail]
    simp only [uint8, uint16, uint32]
    rw [hslice 0 2 (by omega), hslice 2 1 (by omega), hslice 3 1 (by omega),
      hslice 4 4 (by omega), hslice 8 4 (by omega), hslice 12 4 (by omega),
      hslice 16 2 (by omega)]
    exact h

theorem decode_expanded_two {next next' : Nat} {labels labels' : List Bytes}
    (h : decodeRdata caps names 6 rdata = .ok decoded)
    (hname : Name caps labels) (hread : names 0 = .ok (nameText labels, next))
    (hname' : Name caps labels') (hread' : names next = .ok (nameText labels', next'))
    (hwritten : ReadsWritten caps names' (wire labels ++ (wire labels' ++ rdata.drop next'))) :
    decodeRdata caps names' 6 (wire labels ++ (wire labels' ++ rdata.drop next')) =
      .ok decoded := by
  have hfirst := hwritten 0 labels _ hname rfl
  have hdrop : (wire labels ++ (wire labels' ++ rdata.drop next')).drop
      (0 + (wire labels).length) = wire labels' ++ rdata.drop next' := drop_of_drop rfl
  have hsecond := hwritten _ labels' _ hname' hdrop
  have htail := drop_of_drop hdrop
  rw [decode_soa] at h
  obtain ⟨⟨mname, off⟩, hfound, h⟩ := Checked.bind_eq_ok.mp h
  obtain ⟨⟨rname, off'⟩, hfound', h⟩ := Checked.bind_eq_ok.mp h
  rw [hread] at hfound
  cases hfound
  rw [hread'] at hfound'
  cases hfound'
  dsimp only at h
  split at h
  · cases h
  · next hlen =>
      have hlength := congrArg List.length htail
      rw [List.length_drop, List.length_drop] at hlength
      have hnumber : ∀ i, uint32 (wire labels ++ (wire labels' ++ rdata.drop next'))
          (0 + (wire labels).length + (wire labels').length + i) =
            uint32 rdata (next' + i) := by
        intro i
        rw [uint32, ← slice_drop, htail, slice_drop]
        rfl
      rw [decode_soa, decodeSoa]
      refine Checked.bind_eq_ok.mpr ⟨_, hfirst, Checked.bind_eq_ok.mpr ⟨_, hsecond, ?_⟩⟩
      dsimp only
      rw [if_neg (by omega), hnumber 4, hnumber 8, hnumber 12, hnumber 16]
      have hzero := hnumber 0
      rw [Nat.add_zero, Nat.add_zero] at hzero
      rw [hzero]
      exact h

/-- With the names of RDATA written out, the same is decoded. -/
theorem decode_expanded (h : decodeRdata caps names rtype rdata = .ok decoded)
    (hexpanded : Expanded caps names rtype rdata rdata')
    (hwritten : ReadsWritten caps names' rdata') :
    decodeRdata caps names' rtype rdata' = .ok decoded := by
  cases hexpanded with
  | plain hnone hsoa => rw [decode_plain hnone hsoa, h]
  | one hk hname hread => exact decode_expanded_one h hk hname hread hwritten
  | two htype hname hread hname' hread' =>
      subst htype
      exact decode_expanded_two h hname hread hname' hread' hwritten

/-- RDATA that was decoded can be written out. -/
theorem exists_expanded (h : decodeRdata caps names rtype rdata = .ok decoded)
    (hnames : ∀ k name next, names k = .ok (name, next) →
      ∃ labels, name = nameText labels ∧ Name caps labels) :
    ∃ rdata', Expanded caps names rtype rdata rdata' := by
  have hone : ∀ k, nameOffset rtype rdata.length = some k →
      (∃ found, names k = .ok found) → ∃ rdata', Expanded caps names rtype rdata rdata' := by
    rintro k hk ⟨⟨name, next⟩, hread⟩
    obtain ⟨labels, rfl, hname⟩ := hnames _ _ _ hread
    exact ⟨_, .one hk hname hread⟩
  cases hoffset : nameOffset rtype rdata.length with
  | none =>
      by_cases hsoa : rtype = 6
      · subst hsoa
        rw [decode_soa] at h
        obtain ⟨⟨mname, next⟩, hread, h⟩ := Checked.bind_eq_ok.mp h
        obtain ⟨⟨rname, next'⟩, hread', h⟩ := Checked.bind_eq_ok.mp h
        obtain ⟨labels, rfl, hname⟩ := hnames _ _ _ hread
        obtain ⟨labels', rfl, hname'⟩ := hnames _ _ _ hread'
        exact ⟨_, .two rfl hname hread hname' hread'⟩
      · exact ⟨_, .plain hoffset hsoa⟩
  | some k =>
      refine hone k hoffset ?_
      rcases nameOffset_eq_some hoffset with ⟨rfl, htype⟩ | ⟨rfl, rfl, hlen⟩ | ⟨rfl, rfl, hlen⟩ |
        ⟨rfl, rfl, hlen⟩
      · rw [decode_target htype] at h
        exact (Checked.bind_eq_ok.mp h).imp fun _ hread => hread.1
      · rw [decode_mx hlen] at h
        exact (Checked.bind_eq_ok.mp h).imp fun _ hread => hread.1
      · rw [decode_srv hlen] at h
        exact (Checked.bind_eq_ok.mp h).imp fun _ hread => hread.1
      · rw [decode_rrsig hlen] at h
        exact (Checked.bind_eq_ok.mp h).imp fun _ hread => hread.1

end expand

/-! ## Records and questions written out -/

theorem readsWritten_at {start : Nat} {rdata rest : Bytes} (h : buf.drop start = rdata ++ rest) :
    ReadsWritten caps (namesAt caps buf start) rdata := by
  intro k labels tail hname hdrop
  have hk : k ≤ rdata.length := by
    by_contra hlt
    have hlen := congrArg List.length hdrop
    rw [List.length_drop, List.length_append] at hlen
    have := length_wire_pos labels
    omega
  have hname' : buf.drop (start + k) = wire labels ++ (tail ++ rest) := by
    rw [← List.drop_drop, h, List.drop_append_of_le_length hk, hdrop, List.append_assoc]
  refine Checked.bind_eq_ok.mpr ⟨_, readName_wire hname hname', ?_⟩
  change Except.ok (nameText labels, start + k + (wire labels).length - start) = _
  congr 2
  omega

/-- The bytes of a record with its names written out. -/
def rrBytes (labels : List Bytes) (rr : Rr) (rdata : Bytes) : Bytes :=
  wire labels ++ (beBytes 2 rr.type ++ (beBytes 2 rr.rclass ++ (beBytes 4 rr.ttl ++
    (beBytes 2 rdata.length ++ rdata))))

/-- A record with its names written out is the same record, wherever it stands. -/
theorem readRr_expanded {rr : Rr} {stop nameEnd : Nat} {labels : List Bytes} {rdata : Bytes}
    (h : RrAt caps buf off rr stop labels nameEnd)
    (hexpanded :
      Expanded caps (namesAt caps buf (nameEnd + dnsRrFixedBytes)) rr.type rr.rdata rdata)
    (hlen : rdata.length < 256 ^ 2) {off' : Nat} {rest : Bytes}
    (hdrop : buf'.drop off' = rrBytes labels rr rdata ++ rest) :
    readRr caps buf' off' =
      .ok ({ rr with rdata := rdata }, off' + (rrBytes labels rr rdata).length) := by
  have htype : rr.type < 256 ^ 2 := h.type ▸ slice_lt 2
  have hclass : rr.rclass < 256 ^ 2 := h.rclass ▸ slice_lt 2
  have httl : rr.ttl < 256 ^ 4 := h.ttl ▸ slice_lt 4
  simp only [rrBytes, List.append_assoc] at hdrop
  have hread := @readName_wire caps buf' off' labels h.bounds _ hdrop
  have h₀ := drop_of_drop hdrop
  have h₁ := drop_of_drop h₀
  have h₂ := drop_of_drop h₁
  have h₃ := drop_of_drop h₂
  have h₄ := drop_of_drop h₃
  simp only [length_beBytes] at h₁ h₂ h₃ h₄
  have hinside : off' + (wire labels).length + 10 + rdata.length ≤ buf'.length := by
    have hlen := congrArg List.length hdrop
    simp only [List.length_drop, List.length_append, length_beBytes] at hlen
    have := length_wire_pos labels
    omega
  have hrdata : slice buf' (off' + (wire labels).length + dnsRrFixedBytes) rdata.length = rdata :=
    slice_of_drop h₄
  have hfixed : ¬ buf'.length < off' + (wire labels).length + dnsRrFixedBytes := by
    unfold dnsRrFixedBytes
    omega
  have hall : ¬ buf'.length < off' + (wire labels).length + dnsRrFixedBytes + rdata.length := by
    unfold dnsRrFixedBytes
    omega
  have htype' : uint16 buf' (off' + (wire labels).length) = rr.type := beValue_written htype h₀
  have hclass' : uint16 buf' (off' + (wire labels).length + 2) = rr.rclass :=
    beValue_written hclass h₁
  have httl' : uint32 buf' (off' + (wire labels).length + 4) = rr.ttl := beValue_written httl h₂
  have hlen' : uint16 buf' (off' + (wire labels).length + 8) = rdata.length :=
    beValue_written hlen h₃
  have hdecoded : decodeRdata caps (namesAt caps buf' (off' + (wire labels).length +
      dnsRrFixedBytes)) rr.type rdata = .ok rr.decoded :=
    decode_expanded h.decoded hexpanded (readsWritten_at h₄)
  refine Checked.bind_eq_ok.mpr ⟨_, hread, ?_⟩
  dsimp only
  rw [if_neg hfixed, hlen', if_neg hall, hrdata, htype', hclass', httl']
  refine Checked.bind_eq_ok.mpr ⟨_, hdecoded, ?_⟩
  rw [← h.name]
  simp only [rrBytes, List.length_append, length_beBytes, dnsRrFixedBytes]
  congr 2
  omega

theorem readQuestion_expanded {q : Question} {stop : Nat}
    (h : readQuestion caps buf off = .ok (q, stop)) :
    ∃ labels nameEnd, q.name = nameText labels ∧ Encoded buf off nameEnd ∧ stop = nameEnd + 4 ∧
      stop ≤ buf.length ∧ ∀ buf' off' rest,
        buf'.drop off' = wire labels ++ (beBytes 2 q.type ++ (beBytes 2 q.qclass ++ rest)) →
        readQuestion caps buf' off' = .ok (q, off' + (wire labels).length + 4) := by
  obtain ⟨⟨name, nameEnd⟩, hname, h⟩ := Checked.bind_eq_ok.mp h
  obtain ⟨labels, htext, hbounds, hencoded⟩ := readName_found hname
  dsimp only at h
  split at h
  · cases h
  · next hinside =>
      cases h
      refine ⟨labels, nameEnd, htext, hencoded, rfl, Nat.not_lt.mp hinside,
        fun buf' off' rest hdrop => ?_⟩
      have hread := @readName_wire caps buf' off' labels hbounds _ hdrop
      have h₀ := drop_of_drop hdrop
      have h₁ := drop_of_drop h₀
      rw [length_beBytes] at h₁
      have htype : uint16 buf' (off' + (wire labels).length) = uint16 buf nameEnd :=
        beValue_written (slice_lt 2) h₀
      have hclass : uint16 buf' (off' + (wire labels).length + 2) = uint16 buf (nameEnd + 2) :=
        beValue_written (slice_lt 2) h₁
      have hlen := congrArg List.length hdrop
      simp only [List.length_drop, List.length_append, length_beBytes] at hlen
      have := length_wire_pos labels
      refine Checked.bind_eq_ok.mpr ⟨_, hread, ?_⟩
      dsimp only
      rw [if_neg (by omega), htype, hclass, ← htext]

/-! ## Messages -/

/-- Something that was read, and its bytes. -/
structure Span (α : Type) where
  start : Nat
  item : α
  stop : Nat

/-- Readings one behind the other. -/
inductive Tiles {α : Type} (read : Nat → Except Err (α × Nat)) : Nat → List (Span α) → Nat → Prop
  | nil {off : Nat} : Tiles read off [] off
  | cons {off mid stop : Nat} {x : α} {spans : List (Span α)} :
      read off = .ok (x, mid) → off < mid →
      Tiles read mid spans stop → Tiles read off (⟨off, x, mid⟩ :: spans) stop

section tiles

variable {α : Type} {read : Nat → Except Err (α × Nat)} {stop n : Nat} {spans : List (Span α)}

theorem readMany_tiles (hread : ∀ off x mid, read off = .ok (x, mid) → off < mid) {xs : List α}
    (h : readMany read n off = .ok (xs, stop)) :
    ∃ spans, Tiles read off spans stop ∧ xs = spans.map Span.item ∧ spans.length = n := by
  induction n generalizing off xs with
  | zero =>
      cases h
      exact ⟨[], .nil, rfl, rfl⟩
  | succ n ih =>
      obtain ⟨⟨x, mid⟩, hx, h⟩ := Checked.bind_eq_ok.mp h
      obtain ⟨⟨xs', stop'⟩, hxs, h⟩ := Checked.bind_eq_ok.mp h
      cases h
      obtain ⟨spans, htiles, rfl, hlen⟩ := ih hxs
      exact ⟨⟨off, x, mid⟩ :: spans, .cons hx (hread _ _ _ hx) htiles, rfl, by
        rw [List.length_cons, hlen]⟩

theorem Tiles.read_of_mem (h : Tiles read off spans stop) :
    ∀ s ∈ spans, read s.start = .ok (s.item, s.stop) := by
  induction h with
  | nil => exact fun s hs => absurd hs List.not_mem_nil
  | cons hx _ _ ih => exact List.forall_mem_cons.mpr ⟨hx, ih⟩

theorem Tiles.le (h : Tiles read off spans stop) : off ≤ stop := by
  induction h with
  | nil => exact Nat.le_refl _
  | cons _ hlt _ ih => omega

/-- What readings inside the message reach is inside it. -/
theorem Tiles.inside (h : Tiles read off spans stop) {len : Nat} (hoff : off ≤ len)
    (hread : ∀ off x mid, read off = .ok (x, mid) → mid ≤ len) : stop ≤ len := by
  induction h with
  | nil => exact hoff
  | cons hx _ _ ih => exact ih (hread _ _ _ hx)

end tiles

theorem readRr_lt {rr : Rr} {stop : Nat} (h : readRr caps buf off = .ok (rr, stop)) :
    off < stop ∧ stop ≤ buf.length := by
  obtain ⟨labels, nameEnd, hrr⟩ := readRr_found h
  have hlt := hrr.encoded.lt
  have hends := hrr.ends
  exact ⟨by omega, hrr.inside⟩

theorem readAdditional_rr {x : Rr × Option Edns0} {stop : Nat}
    (h : readAdditional caps buf off = .ok (x, stop)) : readRr caps buf off = .ok (x.1, stop) := by
  obtain ⟨⟨rr, mid⟩, hrr, h⟩ := Checked.bind_eq_ok.mp h
  dsimp only at h
  split at h
  · obtain ⟨edns0, -, h⟩ := Checked.bind_eq_ok.mp h
    cases h
    exact hrr
  · cases h
    exact hrr

/-! ## RDLENGTH and the names inside RDATA -/

/-- How many bytes the name at the start of some bytes takes, up to its zero or its first
pointer. -/
def encodedLength : Bytes → Option Nat
  | [] => none
  | byte :: rest =>
      if byte = 0 then some 1
      else if 0xC0 ≤ byte.toNat then some 2
      else if dnsMaxLabelBytes < byte.toNat then none
      else (encodedLength (rest.drop byte.toNat)).map fun n => 1 + byte.toNat + n
termination_by bytes => bytes.length
decreasing_by simp only [List.length_drop, List.length_cons]; omega

theorem encodedLength_eq (h : Encoded buf off next) :
    encodedLength (buf.drop off) = some (next - off) := by
  have hcons : ∀ {off : Nat} {byte : UInt8}, buf[off]? = some byte →
      buf.drop off = byte :: buf.drop (off + 1) := by
    intro off byte hbyte
    obtain ⟨hlt, rfl⟩ := List.getElem?_eq_some_iff.mp hbyte
    exact List.drop_eq_getElem_cons hlt
  induction h with
  | root hbyte =>
      rw [hcons hbyte, encodedLength, if_pos rfl]
      simp
  | @pointer off byte hbyte hlarge =>
      have hne : ¬ byte = 0 := by
        rintro rfl
        exact absurd hlarge (by decide)
      rw [hcons hbyte, encodedLength, if_neg hne, if_pos hlarge]
      simp
  | @label off next byte hbyte hne hsmall hrest ih =>
      have hlt := hrest.lt
      have hsmall' : byte.toNat ≤ 63 := hsmall
      rw [hcons hbyte, encodedLength, if_neg hne, if_neg (by omega), if_neg (Nat.not_lt.mpr hsmall),
        List.drop_drop, ih, Option.map_some]
      congr 1
      omega

/-- Where RDATA of a record of the types CNAME, NS, PTR, MX and SRV has its target. -/
def targetOffset (rr : Rr) : Option Nat :=
  if rr.type = 46 then none else nameOffset rr.type rr.rdata.length

/-- Where RDATA of a record begins. -/
def rdataStart (s : Span Rr) : Nat := s.stop - s.item.rdata.length

/-- The bytes of the target end where RDATA ends. -/
def TargetEnds (buf : Bytes) (s : Span Rr) : Prop :=
  ∀ k ∈ targetOffset s.item, Encoded buf (rdataStart s + k) s.stop

/-- RDLENGTH is what the bytes before the target and those of the target take. -/
def RdlengthFits (buf : Bytes) (s : Span Rr) : Prop :=
  ∀ k ∈ targetOffset s.item, ∀ n ∈ encodedLength (buf.drop (rdataStart s + k)),
    uint16 buf (rdataStart s - 2) = k + n

theorem targetOffset_le {rr : Rr} {k : Nat} (h : targetOffset rr = some k) :
    nameOffset rr.type rr.rdata.length = some k ∧ k ≤ rr.rdata.length := by
  rw [targetOffset] at h
  split at h
  · cases h
  · refine ⟨h, ?_⟩
    rcases nameOffset_eq_some h with ⟨rfl, -⟩ | ⟨rfl, -, hlen⟩ | ⟨rfl, -, hlen⟩ | ⟨rfl, -, hlen⟩ <;>
      omega

/-- A target that was decoded has its bytes. -/
theorem target_encoded {s : Span Rr} {nameEnd : Nat} {labels : List Bytes}
    (h : RrAt caps buf s.start s.item s.stop labels nameEnd) {k : Nat}
    (hk : targetOffset s.item = some k) : ∃ next, Encoded buf (rdataStart s + k) next := by
  have hstart : rdataStart s = nameEnd + dnsRrFixedBytes := by
    rw [rdataStart, h.length_rdata, h.ends, Nat.add_sub_cancel]
  have hread : ∃ found, namesAt caps buf (nameEnd + dnsRrFixedBytes) k = .ok found := by
    obtain ⟨hoffset, -⟩ := targetOffset_le hk
    have hdecoded := h.decoded
    rcases nameOffset_eq_some hoffset with ⟨rfl, htype⟩ | ⟨rfl, htype, hlen⟩ |
      ⟨rfl, htype, hlen⟩ | ⟨rfl, htype, hlen⟩
    · rw [decode_target htype] at hdecoded
      exact (Checked.bind_eq_ok.mp hdecoded).imp fun _ hread => hread.1
    · rw [htype, decode_mx hlen] at hdecoded
      exact (Checked.bind_eq_ok.mp hdecoded).imp fun _ hread => hread.1
    · rw [htype, decode_srv hlen] at hdecoded
      exact (Checked.bind_eq_ok.mp hdecoded).imp fun _ hread => hread.1
    · rw [htype, decode_rrsig hlen] at hdecoded
      exact (Checked.bind_eq_ok.mp hdecoded).imp fun _ hread => hread.1
  obtain ⟨⟨name, next⟩, hread⟩ := hread
  obtain ⟨⟨name', next'⟩, hname, -⟩ := Checked.bind_eq_ok.mp hread
  obtain ⟨-, -, -, hencoded⟩ := readName_found hname
  exact ⟨next', hstart ▸ hencoded⟩

theorem targetEnds_iff {s : Span Rr} (h : readRr caps buf s.start = .ok (s.item, s.stop)) :
    TargetEnds buf s ↔ RdlengthFits buf s := by
  obtain ⟨labels, nameEnd, hrr⟩ := readRr_found h
  have hstart : rdataStart s = nameEnd + dnsRrFixedBytes := by
    rw [rdataStart, hrr.length_rdata, hrr.ends, Nat.add_sub_cancel]
  have hlen := hrr.length_rdata
  have hfield : uint16 buf (rdataStart s - 2) = s.item.rdata.length := by
    rw [hlen, hstart]
    rfl
  have hends := hrr.ends
  constructor
  · intro htarget k hk n hn
    have hencoded := htarget k hk
    have hlt := hencoded.lt
    rw [encodedLength_eq hencoded] at hn
    cases hn
    rw [hfield, hlen]
    omega
  · intro hfits k hk
    obtain ⟨next, hencoded⟩ := target_encoded hrr hk
    have hlt := hencoded.lt
    have heq := hfits k hk _ (encodedLength_eq hencoded)
    have hnext : next = s.stop := by
      rw [hfield, hlen] at heq
      omega
    exact hnext ▸ hencoded

/-! ## The message -/

/-- A record of the additional section as a record. -/
def Span.rr (s : Span (Rr × Option Edns0)) : Span Rr := ⟨s.start, s.item.1, s.stop⟩

/-- A record with its names written out reads as the same record. -/
def ReadsExpanded (caps : Caps) (buf : Bytes) (s : Span Rr) : Prop :=
  ∃ labels nameEnd rdata, RrAt caps buf s.start s.item s.stop labels nameEnd ∧
    Expanded caps (namesAt caps buf (nameEnd + dnsRrFixedBytes)) s.item.type s.item.rdata rdata ∧
    (rdata.length < 256 ^ 2 → ∀ buf' off rest, buf'.drop off = rrBytes labels s.item rdata ++ rest →
      readRr caps buf' off =
        .ok ({ s.item with rdata := rdata }, off + (rrBytes labels s.item rdata).length))

/-- So does a question. -/
def QuestionExpanded (caps : Caps) (buf : Bytes) (s : Span Question) : Prop :=
  ∃ labels nameEnd, s.item.name = nameText labels ∧ Encoded buf s.start nameEnd ∧
    s.stop = nameEnd + 4 ∧ s.stop ≤ buf.length ∧ ∀ buf' off' rest,
      buf'.drop off' =
        wire labels ++ (beBytes 2 s.item.type ++ (beBytes 2 s.item.qclass ++ rest)) →
      readQuestion caps buf' off' = .ok (s.item, off' + (wire labels).length + 4)

theorem readRr_expands {s : Span Rr} (h : readRr caps buf s.start = .ok (s.item, s.stop)) :
    ReadsExpanded caps buf s := by
  obtain ⟨labels, nameEnd, hrr⟩ := readRr_found h
  obtain ⟨rdata, hexpanded⟩ := exists_expanded hrr.decoded fun k name next hread => by
    obtain ⟨⟨name', next'⟩, hname, hread⟩ := Checked.bind_eq_ok.mp hread
    cases hread
    obtain ⟨labels, htext, hbounds, -⟩ := readName_found hname
    exact ⟨labels, htext, hbounds⟩
  exact ⟨labels, nameEnd, rdata, hrr, hexpanded,
    fun hlen buf' off rest hdrop => readRr_expanded hrr hexpanded hlen hdrop⟩

/-- Reading a name ends on every message. In a message that is accepted the questions and
records lie one behind the other from the header on, as many as it says; with names
written out each reads the same; and the targets of all records end where RDATA ends just
if RDLENGTH is what their bytes take. -/
theorem parse_message (caps : Caps) (buf : Bytes) :
    (∀ off, readName caps buf off ≠ .error .outOfFuel) ∧
    ∀ r, parseResponse caps buf = .ok r →
      ∃ questions answers authorities additionals a b c e,
        Tiles (readQuestion caps buf) dnsHeaderBytes questions a ∧
        Tiles (readRr caps buf) a answers b ∧ Tiles (readRr caps buf) b authorities c ∧
        Tiles (readAdditional caps buf) c additionals e ∧ e ≤ buf.length ∧
        questions.length = uint16 buf 4 ∧ answers.length = uint16 buf 6 ∧
        authorities.length = uint16 buf 8 ∧ additionals.length = uint16 buf 10 ∧
        r.question = questions.map Span.item ∧ r.answer = answers.map Span.item ∧
        r.authority = authorities.map Span.item ∧
        r.additional = ((additionals.map Span.item).filter fun x => x.2.isNone).map Prod.fst ∧
        (∀ s ∈ questions, QuestionExpanded caps buf s) ∧
        (∀ s ∈ answers ++ authorities ++ additionals.map Span.rr, ReadsExpanded caps buf s) ∧
        ((∀ s ∈ answers ++ authorities ++ additionals.map Span.rr, TargetEnds buf s) ↔
          ∀ s ∈ answers ++ authorities ++ additionals.map Span.rr, RdlengthFits buf s) := by
  refine ⟨readName_ends caps buf, fun r h => ?_⟩
  rw [parseResponse] at h
  dsimp only at h
  split at h
  · cases h
  split at h
  · cases h
  next hheader =>
  split at h
  · cases h
  split at h
  · cases h
  split at h
  · cases h
  obtain ⟨⟨questions, a⟩, hquestions, h⟩ := Checked.bind_eq_ok.mp h
  obtain ⟨⟨answers, b⟩, hanswers, h⟩ := Checked.bind_eq_ok.mp h
  obtain ⟨⟨authorities, c⟩, hauthorities, h⟩ := Checked.bind_eq_ok.mp h
  obtain ⟨⟨additionals, e⟩, hadditionals, h⟩ := Checked.bind_eq_ok.mp h
  cases h
  have hquestion : ∀ off q mid, readQuestion caps buf off = .ok (q, mid) →
      off < mid ∧ mid ≤ buf.length := by
    intro off q mid hq
    obtain ⟨labels, nameEnd, -, hencoded, hstop, hinside, -⟩ := readQuestion_expanded hq
    have hlt := hencoded.lt
    exact ⟨by omega, hinside⟩
  have hadditional : ∀ off x mid, readAdditional caps buf off = .ok (x, mid) →
      off < mid ∧ mid ≤ buf.length := fun _ _ _ hx => readRr_lt (readAdditional_rr hx)
  obtain ⟨qs, hqs, rfl, hqlen⟩ := readMany_tiles (fun _ _ _ hq => (hquestion _ _ _ hq).1) hquestions
  obtain ⟨ans, hans, rfl, hanlen⟩ := readMany_tiles (fun _ _ _ hr => (readRr_lt hr).1) hanswers
  obtain ⟨aus, haus, rfl, haulen⟩ := readMany_tiles (fun _ _ _ hr => (readRr_lt hr).1) hauthorities
  obtain ⟨ads, hads, rfl, hadlen⟩ :=
    readMany_tiles (fun _ _ _ hx => (hadditional _ _ _ hx).1) hadditionals
  have hinside : e ≤ buf.length := by
    have ha := hqs.inside (Nat.not_lt.mp hheader) fun _ _ _ hq => (hquestion _ _ _ hq).2
    have hb := hans.inside ha fun _ _ _ hr => (readRr_lt hr).2
    have hc := haus.inside hb fun _ _ _ hr => (readRr_lt hr).2
    exact hads.inside hc fun _ _ _ hx => (hadditional _ _ _ hx).2
  have hrecords : ∀ s ∈ ans ++ aus ++ ads.map Span.rr,
      readRr caps buf s.start = .ok (s.item, s.stop) := by
    intro s hs
    rcases List.mem_append.mp hs with hs | hs
    · rcases List.mem_append.mp hs with hs | hs
      · exact hans.read_of_mem s hs
      · exact haus.read_of_mem s hs
    · obtain ⟨x, hx, rfl⟩ := List.mem_map.mp hs
      exact readAdditional_rr (hads.read_of_mem x hx)
  refine ⟨qs, ans, aus, ads, a, b, c, e, hqs, hans, haus, hads, hinside, hqlen, hanlen, haulen,
    hadlen, rfl, rfl, rfl, rfl, fun s hs => readQuestion_expanded (hqs.read_of_mem s hs),
    fun s hs => readRr_expands (hrecords s hs), ?_⟩
  exact forall₂_congr fun s hs => targetEnds_iff (hrecords s hs)

/-! ## A target that runs on -/

def strictCaps : Caps := ⟨4096, 4096, 127, 16, 64, 32, 32, 65536⟩

/-- A question and a CNAME record whose owner and target are pointers to its name. -/
def compressed : Bytes :=
  [0, 0, 0x80, 0, 0, 1, 0, 1, 0, 0, 0, 0] ++ [1, 0x61, 0, 0, 5, 0, 1] ++
    [0xC0, 12, 0, 5, 0, 1, 0, 0, 0, 0, 0, 2] ++ [0xC0, 12]

theorem parse_message_compressed : ∃ r answers a b, parseResponse strictCaps compressed = .ok r ∧
    r.answer = [⟨units "a", 5, 1, 0, [0xC0, 12], .name (units "a")⟩] ∧
    Tiles (readRr strictCaps compressed) a answers b ∧ r.answer = answers.map Span.item ∧
    ∀ s ∈ answers, ReadsExpanded strictCaps compressed s := by
  have hparse : (parseResponse strictCaps compressed).toOption.map Response.answer =
      some [⟨units "a", 5, 1, 0, [0xC0, 12], .name (units "a")⟩] := by decide +kernel
  obtain ⟨r, hr, hanswer⟩ := Option.map_eq_some_iff.mp hparse
  have hr := Checked.ok_of_toOption hr
  obtain ⟨_, answers, _, _, a, b, _, _, -, htiles, -, -, -, -, -, -, -, -, hitems, -, -, -,
    hexpanded, -⟩ := (parse_message strictCaps compressed).2 r hr
  exact ⟨r, answers, a, b, hr, hanswer, htiles, hitems, fun s hs =>
    hexpanded s (List.mem_append_left _ (List.mem_append_left _ hs))⟩

/-- One CNAME record with an RDLENGTH of 1, before a target of three bytes. -/
def shortRdata : Bytes :=
  [0, 0, 0x80, 0, 0, 0, 0, 1, 0, 0, 0, 0] ++ [0, 0, 5, 0, 1, 0, 0, 0, 0, 0, 1] ++ [1, 0x61, 0]

/-- It is accepted, and the bytes of its target end behind RDATA. -/
theorem target_runs_on : ∃ (r : Response) (s : Span Rr),
    parseResponse strictCaps shortRdata = .ok r ∧ r.answer = [s.item] ∧
      readRr strictCaps shortRdata s.start = .ok (s.item, s.stop) ∧
      s.item.decoded = .name (units "a") ∧ ¬ TargetEnds shortRdata s := by
  let rr : Rr := ⟨[], 5, 1, 0, [1], .name (units "a")⟩
  have hparse : (parseResponse strictCaps shortRdata).toOption =
      some ⟨0, 0, 0x8000, [], [rr], [], [], none⟩ := by decide +kernel
  have hread : (readRr strictCaps shortRdata 12).toOption = some (rr, 24) := by decide +kernel
  refine ⟨_, ⟨12, rr, 24⟩, Checked.ok_of_toOption hparse, rfl, Checked.ok_of_toOption hread, rfl,
    fun htarget => ?_⟩
  have hshort : Encoded shortRdata 23 24 := htarget 0 rfl
  have hlong : Encoded shortRdata 23 26 :=
    @Encoded.label _ 23 26 1 rfl (by decide) (by decide) (.root rfl)
  exact absurd (hshort.unique hlong) (by decide)

end Blamejs.SafeDns
