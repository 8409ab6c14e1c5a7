import Blamejs.Js.JsonText
import Blamejs.Lib.Delimited

/-!
# JSON values and their text

What a canonical text says, as opposed to the JavaScript value it was written
for: a number is finite and has one zero, an object is its entries in the order
they are written. On these `text` is one-to-one, and more: it is
self-delimiting, so nothing that follows it can be mistaken for a part of it.
-/

namespace Blamejs.Spec

open Blamejs.Js Delimiting

/-- A number with a JSON form of its own. -/
structure JsonNumber where
  x : Double
  finite : x.isFinite = true
  notNegZero : x.isNegZero = false

inductive Json where
  | null
  | bool (b : Bool)
  | num (n : JsonNumber)
  | str (s : JsString)
  | arr (items : List Json)
  | obj (entries : List (JsString × Json))

namespace Json

mutual

def text : Json → JsString
  | .null => units "null"
  | .bool b => jsonBool b
  | .num n => numberText n.x
  | .str s => quote s
  | .arr items => unit '[' :: closed (unit ',') (unit ']') (itemTexts items)
  | .obj entries => unit '\x7b' :: closed (unit ',') (unit '\x7d') (entryTexts entries)

def itemTexts : List Json → List JsString
  | [] => []
  | j :: js => text j :: itemTexts js

def entryTexts : List (JsString × Json) → List JsString
  | [] => []
  | (k, j) :: es => (quote k ++ unit ':' :: text j) :: entryTexts es

end

/-- One property as it is written. -/
def entryText (p : JsString × Json) : JsString := quote p.1 ++ unit ':' :: text p.2

theorem itemTexts_eq (js : List Json) : itemTexts js = js.map text := by
  induction js with
  | nil => rfl
  | cons j js ih => rw [itemTexts, ih, List.map_cons]

theorem entryTexts_eq (es : List (JsString × Json)) : entryTexts es = es.map entryText := by
  induction es with
  | nil => rfl
  | cons p es ih => rw [entryTexts, ih, List.map_cons, entryText]

/-! ## The first unit tells the constructor -/

def tag : Json → Nat
  | .null => 0
  | .bool _ => 1
  | .num _ => 2
  | .str _ => 3
  | .arr _ => 4
  | .obj _ => 5

/-- The constructor a first unit announces. -/
def unitTag (u : UInt16) : Nat :=
  if u = unit 'n' then 0
  else if u = unit 't' ∨ u = unit 'f' then 1
  else if u = unit '"' then 3
  else if u = unit '[' then 4
  else if u = unit '\x7b' then 5
  else 2

theorem unitTag_of_isNumberUnit {u : UInt16} (h : isNumberUnit u = true) : unitTag u = 2 := by
  have hne : ∀ v, isNumberUnit v = false → u ≠ v := by
    rintro v hv rfl
    rw [h] at hv
    exact absurd hv (by decide)
  unfold unitTag
  rw [if_neg (hne _ (by decide)), if_neg, if_neg (hne _ (by decide)),
    if_neg (hne _ (by decide)), if_neg (hne _ (by decide))]
  rintro (h | h)
  · exact hne _ (by decide) h
  · exact hne _ (by decide) h

theorem text_head (j : Json) : ∃ u t, text j = u :: t ∧ unitTag u = tag j := by
  cases j with
  | null => exact ⟨_, _, rfl, rfl⟩
  | bool b => cases b <;> exact ⟨_, _, rfl, rfl⟩
  | num n =>
      obtain ⟨u, t, h⟩ := List.exists_cons_of_ne_nil (numberText_ne_nil n.finite)
      have hu : u ∈ numberText n.x := by rw [h]; exact List.mem_cons_self
      exact ⟨u, t, h, unitTag_of_isNumberUnit (isNumberUnit_numberText n.finite hu)⟩
  | str s => exact ⟨_, _, rfl, rfl⟩
  | arr items => exact ⟨_, _, rfl, rfl⟩
  | obj entries => exact ⟨_, _, rfl, rfl⟩

theorem tag_eq {a b : Json} {r r' : JsString} (h : text a ++ r = text b ++ r') :
    tag a = tag b := by
  obtain ⟨u, t, ha, hu⟩ := text_head a
  obtain ⟨v, w, hb, hv⟩ := text_head b
  rw [ha, hb] at h
  rw [← hu, ← hv, (List.cons.inj h).1]

/-! ## Self-delimitation -/

/-- What follows a JSON value does not go on with the text of a number. -/
def NumberEnds : JsString → Prop := Leaves isNumberUnit

theorem numberEnds_of_begins {close : UInt16} (hclose : isNumberUnit close = false)
    {r : JsString} (h : Begins (fun u => u = unit ',' ∨ u = close) r) : NumberEnds r := by
  cases r with
  | nil => exact h.elim
  | cons u r =>
      intro v hv
      obtain rfl : u = v := by simpa using hv
      rcases h with rfl | rfl
      · decide
      · exact hclose

theorem jsonNumber_ext {n m : JsonNumber} (h : numberText n.x = numberText m.x) : n = m := by
  obtain ⟨x, hx, hzx⟩ := n
  obtain ⟨y, hy, hzy⟩ := m
  have hzero : ∀ {z : Double}, z.isZero = true → z.isNegZero = false → z = Double.zero false := by
    rintro ⟨neg, bits⟩ hz hneg
    simp only [Double.isZero, decide_eq_true_eq] at hz
    simp only [Double.isNegZero, Double.isZero, hz, decide_true, Bool.and_true] at hneg
    rw [Double.zero, Double.mk.injEq]
    exact ⟨hneg, Fin.ext hz⟩
  have heq := (numberText_eq_iff hx hy).mp h
  simp only [Double.strictEq, Bool.or_eq_true, Bool.and_eq_true, beq_iff_eq] at heq
  have hxy : x = y := by
    rcases heq with ⟨h0x, h0y⟩ | ⟨-, heq⟩
    · rw [hzero h0x hzx, hzero h0y hzy]
    · exact heq
  subst hxy
  rfl

theorem num_delimited (n m : JsonNumber) {r r' : JsString} (hr : NumberEnds r)
    (hr' : NumberEnds r') (h : numberText n.x ++ r = numberText m.x ++ r') :
    n = m ∧ r = r' := by
  obtain ⟨htext, hrest⟩ := span_append (fun _ hu => isNumberUnit_numberText n.finite hu)
    (fun _ hu => isNumberUnit_numberText m.finite hu) hr hr' h
  exact ⟨jsonNumber_ext htext, hrest⟩

theorem entry_delimited {p : JsString × Json} {stop : JsString → Prop}
    (h : Delimited text stop p.2) : Delimited entryText stop p := by
  rintro ⟨k, j⟩ r r' hr hr' he
  simp only [entryText, List.append_assoc, List.cons_append] at he
  obtain ⟨hk, hv⟩ := quote_append he
  obtain ⟨hj, hrest⟩ := h hr hr' (List.cons.inj hv).2
  exact ⟨Prod.ext hk hj, hrest⟩

theorem text_head_ne {u : UInt16} (hu : unitTag u = 2) (hn : isNumberUnit u = false) (j : Json) :
    ∃ v t, text j = v :: t ∧ v ≠ u := by
  obtain ⟨v, t, hj, hv⟩ := text_head j
  refine ⟨v, t, hj, ?_⟩
  rintro rfl
  cases j with
  | num n =>
      have hmem : v ∈ numberText n.x := by
        rw [show numberText n.x = v :: t from hj]
        exact List.mem_cons_self
      rw [isNumberUnit_numberText n.finite hmem] at hn
      exact absurd hn (by decide)
  | _ => rw [hu] at hv; exact absurd hv (by simp [tag])

theorem entries_closed {entries : List (JsString × Json)}
    (h : ∀ p ∈ entries, Delimited text NumberEnds p.2) :
    Delimited (fun es => text (.obj es)) Anything entries := by
  intro entries' r r' _ _ he
  have hentries := @closed_delimited _ _ entryText (unit ',') (unit '\x7d') entries (by decide)
    (fun p hp => (entry_delimited (h p hp)).mono fun _ => numberEnds_of_begins (by decide))
    (fun p => ⟨unit '"', _, rfl, by decide⟩)
  simp only [text, entryTexts_eq, List.cons_append, List.cons.injEq, true_and] at he
  exact hentries trivial trivial he

theorem items_closed {items : List Json} (h : ∀ j ∈ items, Delimited text NumberEnds j) :
    Delimited (fun js => text (.arr js)) Anything items := by
  intro items' r r' _ _ he
  have hitems := @closed_delimited _ _ text (unit ',') (unit ']') items (by decide)
    (fun j hj => (h j hj).mono fun _ => numberEnds_of_begins (by decide))
    (text_head_ne (by decide) (by decide))
  simp only [text, itemTexts_eq, List.cons_append, List.cons.injEq, true_and] at he
  exact hitems trivial trivial he

mutual

/-- A JSON text ends where it ends: what comes after it cannot change what it
says, if it does not extend a number. -/
theorem text_delimited : ∀ j : Json, Delimited text NumberEnds j
  | .null => by
      intro b r r' _ _ h
      have htag := tag_eq h
      cases b <;> simp only [tag, reduceCtorEq] at htag
      exact ⟨rfl, List.append_cancel_left h⟩
  | .bool a => by
      intro b r r' _ _ h
      have htag := tag_eq h
      cases b <;> simp only [tag] at htag <;> try omega
      next b =>
        have hab : a = b := by
          cases a <;> cases b <;> first | rfl | exact absurd (List.cons.inj h).1 (by decide)
        subst hab
        exact ⟨rfl, List.append_cancel_left h⟩
  | .num n => by
      intro b r r' hr hr' h
      have htag := tag_eq h
      cases b <;> simp only [tag] at htag <;> try omega
      next m =>
        obtain ⟨rfl, hrest⟩ := num_delimited n m hr hr' h
        exact ⟨rfl, hrest⟩
  | .str s => by
      intro b r r' _ _ h
      have htag := tag_eq h
      cases b <;> simp only [tag] at htag <;> try omega
      next t =>
        obtain ⟨rfl, hrest⟩ := quote_append h
        exact ⟨rfl, hrest⟩
  | .arr items => by
      intro b r r' _ _ h
      have htag := tag_eq h
      cases b <;> simp only [tag] at htag <;> try omega
      next items' =>
        obtain ⟨rfl, hrest⟩ := items_closed (items_delimited items) trivial trivial h
        exact ⟨rfl, hrest⟩
  | .obj entries => by
      intro b r r' _ _ h
      have htag := tag_eq h
      cases b <;> simp only [tag] at htag <;> try omega
      next entries' =>
        obtain ⟨rfl, hrest⟩ := entries_closed (entries_delimited entries) trivial trivial h
        exact ⟨rfl, hrest⟩

theorem items_delimited : ∀ js : List Json, ∀ j ∈ js, Delimited text NumberEnds j
  | [] => fun _ hj => absurd hj List.not_mem_nil
  | j :: js => List.forall_mem_cons.mpr ⟨text_delimited j, items_delimited js⟩

theorem entries_delimited : ∀ es : List (JsString × Json), ∀ p ∈ es,
    Delimited text NumberEnds p.2
  | [] => fun _ hp => absurd hp List.not_mem_nil
  | (_, j) :: es => List.forall_mem_cons.mpr ⟨text_delimited j, entries_delimited es⟩

end

/-- An object closes itself: nothing at all that follows can be mistaken for a
part of it. -/
theorem obj_delimited (entries : List (JsString × Json)) :
    Delimited (fun es => text (.obj es)) Anything entries :=
  entries_closed (entries_delimited entries)

/-- One text, one value. -/
theorem text_injective : Function.Injective text := fun a _ h =>
  (text_delimited a).eq (fun _ h => absurd h (by simp)) h

/-! ## The text as bytes -/

theorem wellFormed_numberText {x : Double} (h : x.isFinite = true) : WellFormed (numberText x) :=
  wellFormed_of_plain fun u hu => by
    have := lt_of_isNumberUnit (isNumberUnit_numberText h hu)
    omega

theorem wellFormed_closed {sep close : UInt16} (hsep : WellFormed [sep])
    (hclose : WellFormed [close]) {parts : List JsString} (h : ∀ p ∈ parts, WellFormed p) :
    WellFormed (closed sep close parts) := by
  induction parts with
  | nil => exact hclose
  | cons p ps ih =>
      rw [closed_cons]
      refine wellFormed_append (h p List.mem_cons_self) ?_
      cases ps with
      | nil => exact hclose
      | cons q qs =>
          exact wellFormed_append (s := [sep]) hsep
            (ih fun t ht => h t (List.mem_cons_of_mem _ ht))

mutual

/-- Canonical text has no lone surrogates, so nothing is lost when it is
written as UTF-8. -/
theorem wellFormed_text : ∀ j : Json, WellFormed (text j)
  | .null => by decide
  | .bool b => by cases b <;> decide
  | .num n => wellFormed_numberText n.finite
  | .str s => wellFormed_quote s
  | .arr items => by
      rw [text]
      exact wellFormed_append (s := [unit '[']) (by decide)
        (wellFormed_closed (by decide) (by decide) (wellFormed_itemTexts items))
  | .obj entries => by
      rw [text]
      exact wellFormed_append (s := [unit '\x7b']) (by decide)
        (wellFormed_closed (by decide) (by decide) (wellFormed_entryTexts entries))

theorem wellFormed_itemTexts : ∀ js : List Json, ∀ t ∈ itemTexts js, WellFormed t
  | [] => fun _ ht => absurd ht List.not_mem_nil
  | j :: js => List.forall_mem_cons.mpr ⟨wellFormed_text j, wellFormed_itemTexts js⟩

theorem wellFormed_entryTexts : ∀ es : List (JsString × Json), ∀ t ∈ entryTexts es, WellFormed t
  | [] => fun _ ht => absurd ht List.not_mem_nil
  | (k, j) :: es => List.forall_mem_cons.mpr
      ⟨wellFormed_append (wellFormed_quote k)
        (wellFormed_append (s := [unit ':']) (by decide) (wellFormed_text j)),
        wellFormed_entryTexts es⟩

end

/-- The bytes of an object's text are self-delimiting too, in front of bytes
that need not be text at all. -/
theorem obj_utf8_delimited (entries : List (JsString × Json)) :
    Delimited (fun es => utf8 (text (.obj es))) Anything entries := by
  intro entries' r r' _ _ h
  rcases utf8_append (wellFormed_text _) (wellFormed_text _) h with ⟨e, he, hr⟩ | ⟨e, he, hr⟩
  · obtain ⟨rfl, hnil⟩ := obj_delimited entries (r := []) trivial trivial (by simpa using he)
    subst hnil
    exact ⟨rfl, by simpa [utf8, scalars] using hr⟩
  · obtain ⟨rfl, hnil⟩ := obj_delimited entries' (r := []) trivial trivial (by simpa using he)
    subst hnil
    exact ⟨rfl, by simpa [utf8, scalars] using hr⟩

end Json

end Blamejs.Spec
