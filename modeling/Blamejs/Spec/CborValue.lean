import Blamejs.Ref.Cbor

/-!
# What a round trip through CBOR should return

`Encodable` is the values CBOR has a form for without floats: integers, strings,
containers and tags. `Returns v w` says that `w` is `v` as CBOR can tell it: a
big integer in the safe range is a number, a plain object is a `Map`, and the
entries of a `Map` may come in any order. Two keys are distinct when no value is
what both of them return.
-/

namespace Blamejs.Cbor

open Blamejs.Js

/-! ## Going through a value -/

/-- A plain object as the entries of a `Map`. -/
def asEntries (es : List (JsString × Value)) : List (Value × Value) :=
  es.map fun e => (.text e.1, e.2)

theorem asEntries_cons (e : JsString × Value) (es : List (JsString × Value)) :
    asEntries (e :: es) = (.text e.1, e.2) :: asEntries es := rfl

def HasNoParts : Value → Prop
  | .boxed _ | .array _ | .map _ | .obj _ | .tag _ _ => False
  | _ => True

/-- `P` passes from the parts of a value to the value. -/
structure PassesUp (P : Value → Prop) : Prop where
  leaf : ∀ v, HasNoParts v → P v
  boxed : ∀ v, P v → P (.boxed v)
  array : ∀ items, (∀ v ∈ items, P v) → P (.array items)
  map : ∀ entries, (∀ e ∈ entries, P e.1 ∧ P e.2) → P (.map entries)
  obj : ∀ entries, (∀ e ∈ asEntries entries, P e.1 ∧ P e.2) → P (.obj entries)
  tag : ∀ n v, P v → P (.tag n v)

namespace PassesUp

variable {P : Value → Prop}

mutual

theorem value (h : PassesUp P) : ∀ v, P v
  | .null | .undefined | .bool _ | .num _ | .bigint _ | .text _ | .bytes _ | .date
  | .noForm _ | .other _ => h.leaf _ trivial
  | .boxed v => h.boxed v (value h v)
  | .array items => h.array items (listed h items)
  | .map entries => h.map entries (paired h entries)
  | .obj entries => h.obj entries (properties h entries)
  | .tag n v => h.tag n v (value h v)

theorem listed (h : PassesUp P) : ∀ items : List Value, ∀ v ∈ items, P v
  | [] => fun _ hv => (List.not_mem_nil hv).elim
  | v :: vs => List.forall_mem_cons.mpr ⟨value h v, listed h vs⟩

theorem paired (h : PassesUp P) : ∀ entries : List (Value × Value), ∀ e ∈ entries, P e.1 ∧ P e.2
  | [] => fun _ he => (List.not_mem_nil he).elim
  | (k, v) :: es => List.forall_mem_cons.mpr ⟨⟨value h k, value h v⟩, paired h es⟩

theorem properties (h : PassesUp P) :
    ∀ entries : List (JsString × Value), ∀ e ∈ asEntries entries, P e.1 ∧ P e.2
  | [] => fun _ he => (List.not_mem_nil he).elim
  | (k, v) :: es => List.forall_mem_cons.mpr
      ⟨⟨h.leaf (.text k) trivial, value h v⟩, properties h es⟩

end

end PassesUp

mutual

/-- `P` holds of a value and of every value in it, the names of properties
included. -/
def Everywhere (P : Value → Prop) : Value → Prop
  | .boxed v => P (.boxed v) ∧ Everywhere P v
  | .array items => P (.array items) ∧ EverywhereItems P items
  | .map entries => P (.map entries) ∧ EverywhereEntries P entries
  | .obj entries => P (.obj entries) ∧ EverywhereProperties P entries
  | .tag n v => P (.tag n v) ∧ Everywhere P v
  | v => P v

def EverywhereItems (P : Value → Prop) : List Value → Prop
  | [] => True
  | v :: vs => Everywhere P v ∧ EverywhereItems P vs

def EverywhereEntries (P : Value → Prop) : List (Value × Value) → Prop
  | [] => True
  | (k, v) :: es => (Everywhere P k ∧ Everywhere P v) ∧ EverywhereEntries P es

def EverywhereProperties (P : Value → Prop) : List (JsString × Value) → Prop
  | [] => True
  | (k, v) :: es => (P (.text k) ∧ Everywhere P v) ∧ EverywhereProperties P es

end

/-! ## The values a round trip is about -/

/-- An integer as CBOR gives it back. -/
def ofInteger (z : Int) : Value :=
  if z.natAbs ≤ Double.maxSafe then .num (Double.ofInt z) else .bigint z

mutual

def Returns : Value → Value → Prop
  | .null, w => w = .null
  | .bool b, w => w = .bool b
  | .num x, w => w = .num x
  | .bigint z, w => w = ofInteger z
  | .text s, w => w = .text s
  | .bytes bs, w => w = .bytes bs
  | .array items, w => ∃ ws, w = .array ws ∧ ItemsReturn items ws
  | .map entries, w => ∃ ws ws', w = .map ws ∧ ws.Perm ws' ∧ EntriesReturn entries ws'
  | .obj entries, w => ∃ ws ws', w = .map ws ∧ ws.Perm ws' ∧ PropertiesReturn entries ws'
  | .tag n v, w => ∃ v', w = .tag n v' ∧ Returns v v'
  | .undefined, _ | .boxed _, _ | .date, _ | .noForm _, _ | .other _, _ => False

def ItemsReturn : List Value → List Value → Prop
  | [], ws => ws = []
  | v :: vs, ws => ∃ w ws', ws = w :: ws' ∧ Returns v w ∧ ItemsReturn vs ws'

def EntriesReturn : List (Value × Value) → List (Value × Value) → Prop
  | [], ws => ws = []
  | (k, v) :: es, ws =>
      ∃ k' v' ws', ws = (k', v') :: ws' ∧ (Returns k k' ∧ Returns v v') ∧ EntriesReturn es ws'

def PropertiesReturn : List (JsString × Value) → List (Value × Value) → Prop
  | [], ws => ws = []
  | (k, v) :: es, ws =>
      ∃ k' v' ws', ws = (k', v') :: ws' ∧ (k' = .text k ∧ Returns v v') ∧ PropertiesReturn es ws'

end

def Distinct (v w : Value) : Prop := ∀ u, Returns v u → ¬ Returns w u

def EncodableNode : Value → Prop
  | .null | .bool _ | .bytes _ | .array _ | .tag _ _ => True
  | .num x => x.isInteger = true ∧ x.isNegZero = false
  | .bigint z => -2 ^ 64 ≤ z ∧ z < 2 ^ 64
  | .text s => WellFormed s
  | .map entries => entries.Pairwise fun e f => Distinct e.1 f.1
  | .obj entries => (entries.map Prod.fst).Nodup
  | _ => False

/-- Integers of 64 bits, well-formed strings, byte strings, arrays, `Map`s and
plain objects with distinct keys, and tags. -/
def Encodable : Value → Prop := Everywhere EncodableNode

def TagNode (P : Nat → Prop) : Value → Prop
  | .tag n _ => P n
  | _ => True

/-- `P` holds of every tag number in the value. -/
def Tags (P : Nat → Prop) : Value → Prop := Everywhere (TagNode P)

def BomFree : Value → Prop
  | .text s => s.head? ≠ some 0xFEFF
  | _ => True

/-- No string in the value begins with U+FEFF. -/
def NoBom : Value → Prop := Everywhere BomFree

mutual

/-- How many levels lie below a value. -/
def height : Value → Nat
  | .array items => itemsHeight items
  | .map entries => entriesHeight entries
  | .obj entries => propertiesHeight entries
  | .tag _ v => height v + 1
  | _ => 0

def itemsHeight : List Value → Nat
  | [] => 0
  | v :: vs => max (height v + 1) (itemsHeight vs)

def entriesHeight : List (Value × Value) → Nat
  | [] => 0
  | (k, v) :: es => max (max (height k) (height v) + 1) (entriesHeight es)

def propertiesHeight : List (JsString × Value) → Nat
  | [] => 0
  | (_, v) :: es => max (height v + 1) (propertiesHeight es)

end

/-- How many bytes a head takes. -/
def headSize (n : Nat) : Nat :=
  if n < 24 then 1 else if n < 256 then 2 else if n < 65536 then 3
  else if n < 4294967296 then 5 else 9

def intSize (z : Int) : Nat := headSize (if 0 ≤ z then z.toNat else (-1 - z).toNat)

/-- How many bytes an integral Number takes. -/
def numberSize (x : Double) : Nat :=
  if x.isSafeInteger then intSize x.toInt
  else if (readSingle (writeSingle x)).strictEq x then 5 else 9

def textSize (s : JsString) : Nat := headSize (utf8 s).length + (utf8 s).length

mutual

/-- How many bytes an encodable value takes. -/
def size : Value → Nat
  | .num x => numberSize x
  | .bigint z => intSize z
  | .text s => textSize s
  | .bytes bs => headSize bs.length + bs.length
  | .array items => headSize items.length + itemsSize items
  | .map entries => headSize entries.length + entriesSize entries
  | .obj entries => headSize entries.length + propertiesSize entries
  | .tag n v => headSize n + size v
  | _ => 1

def itemsSize : List Value → Nat
  | [] => 0
  | v :: vs => size v + itemsSize vs

def entriesSize : List (Value × Value) → Nat
  | [] => 0
  | (k, v) :: es => size k + size v + entriesSize es

def propertiesSize : List (JsString × Value) → Nat
  | [] => 0
  | (k, v) :: es => textSize k + size v + propertiesSize es

end

/-! ## Lists of parts -/

variable {P : Value → Prop}

theorem bomFree_of_ne {v : Value} (h : ∀ s, v ≠ .text s) : BomFree v := by
  unfold BomFree
  split
  · exact absurd rfl (h _)
  · trivial

theorem tagNode_leaf {Q : Nat → Prop} {v : Value} (h : HasNoParts v) : TagNode Q v := by
  unfold TagNode
  split
  · exact h.elim
  · trivial

theorem TagNode.and {Q R : Nat → Prop} {v : Value} (hQ : TagNode Q v) (hR : TagNode R v) :
    TagNode (fun n => Q n ∧ R n) v := by
  unfold TagNode at hQ hR ⊢
  split
  · exact ⟨hQ, hR⟩
  · trivial

theorem everywhere_leaf {v : Value} (h : HasNoParts v) : Everywhere P v ↔ P v := by
  rw [Everywhere.eq_def]
  split
  · exact h.elim
  · exact h.elim
  · exact h.elim
  · exact h.elim
  · exact h.elim
  · exact Iff.rfl

theorem everywhereItems_iff {items : List Value} :
    EverywhereItems P items ↔ ∀ v ∈ items, Everywhere P v := by
  induction items with
  | nil => exact ⟨fun _ _ h => (List.not_mem_nil h).elim, fun _ => trivial⟩
  | cons v vs ih => exact (and_congr Iff.rfl ih).trans List.forall_mem_cons.symm

theorem everywhereEntries_iff {es : List (Value × Value)} :
    EverywhereEntries P es ↔ ∀ e ∈ es, Everywhere P e.1 ∧ Everywhere P e.2 := by
  induction es with
  | nil => exact ⟨fun _ _ h => (List.not_mem_nil h).elim, fun _ => trivial⟩
  | cons e es ih =>
      rw [List.forall_mem_cons, ← ih]
      exact Iff.rfl

theorem everywhereProperties_iff {es : List (JsString × Value)} :
    EverywhereProperties P es ↔ EverywhereEntries P (asEntries es) := by
  induction es with
  | nil => exact Iff.rfl
  | cons e es ih => exact and_congr Iff.rfl ih

theorem everywhere_text {s : JsString} : Everywhere P (.text s) ↔ P (.text s) :=
  everywhere_leaf trivial

/-- A relation between three conditions on a node holds everywhere at once. -/
theorem Everywhere.mp {P Q R : Value → Prop} (hPQR : ∀ v, P v → Q v → R v) (v : Value) :
    Everywhere P v → Everywhere Q v → Everywhere R v := by
  refine PassesUp.value (P := fun v => Everywhere P v → Everywhere Q v → Everywhere R v)
    ⟨?_, ?_, ?_, ?_, ?_, ?_⟩ v
  · intro v hparts
    simp only [everywhere_leaf hparts]
    exact hPQR v
  · intro v ih hP hQ
    rw [Everywhere] at hP hQ ⊢
    exact ⟨hPQR _ hP.1 hQ.1, ih hP.2 hQ.2⟩
  · intro items ih hP hQ
    rw [Everywhere, everywhereItems_iff] at hP hQ ⊢
    exact ⟨hPQR _ hP.1 hQ.1, fun v hv => ih v hv (hP.2 v hv) (hQ.2 v hv)⟩
  · intro es ih hP hQ
    rw [Everywhere, everywhereEntries_iff] at hP hQ ⊢
    refine ⟨hPQR _ hP.1 hQ.1, fun e he => ?_⟩
    exact ⟨(ih e he).1 (hP.2 e he).1 (hQ.2 e he).1, (ih e he).2 (hP.2 e he).2 (hQ.2 e he).2⟩
  · intro es ih hP hQ
    rw [Everywhere, everywhereProperties_iff, everywhereEntries_iff] at hP hQ ⊢
    refine ⟨hPQR _ hP.1 hQ.1, fun e he => ?_⟩
    exact ⟨(ih e he).1 (hP.2 e he).1 (hQ.2 e he).1, (ih e he).2 (hP.2 e he).2 (hQ.2 e he).2⟩
  · intro n v ih hP hQ
    rw [Everywhere] at hP hQ ⊢
    exact ⟨hPQR _ hP.1 hQ.1, ih hP.2 hQ.2⟩

theorem itemsReturn_iff {items ws : List Value} :
    ItemsReturn items ws ↔ List.Forall₂ Returns items ws := by
  induction items generalizing ws with
  | nil => rw [ItemsReturn, List.forall₂_nil_left_iff]
  | cons v vs ih =>
      rw [ItemsReturn, List.forall₂_cons_left_iff]
      constructor
      · intro h
        obtain ⟨w, ws', hws, hv, hvs⟩ := h
        exact ⟨w, ws', hv, ih.mp hvs, hws⟩
      · intro h
        obtain ⟨w, ws', hv, hvs, hws⟩ := h
        exact ⟨w, ws', hws, hv, ih.mpr hvs⟩

/-- Both halves of an entry return. -/
def EntryReturns (e w : Value × Value) : Prop := Returns e.1 w.1 ∧ Returns e.2 w.2

theorem entriesReturn_iff {es ws : List (Value × Value)} :
    EntriesReturn es ws ↔ List.Forall₂ EntryReturns es ws := by
  induction es generalizing ws with
  | nil => rw [EntriesReturn, List.forall₂_nil_left_iff]
  | cons e es ih =>
      rw [EntriesReturn, List.forall₂_cons_left_iff]
      constructor
      · intro h
        obtain ⟨k, v, ws', hws, he, hes⟩ := h
        exact ⟨(k, v), ws', he, ih.mp hes, hws⟩
      · intro h
        obtain ⟨w, ws', he, hes, hws⟩ := h
        exact ⟨w.1, w.2, ws', hws, he, ih.mpr hes⟩

theorem propertiesReturn_iff {es : List (JsString × Value)} {ws : List (Value × Value)} :
    PropertiesReturn es ws ↔ EntriesReturn (asEntries es) ws := by
  induction es generalizing ws with
  | nil => rw [PropertiesReturn, asEntries, List.map_nil, EntriesReturn]
  | cons e es ih =>
      rw [PropertiesReturn, asEntries_cons, EntriesReturn]
      simp only [ih, Returns]

theorem height_lt_of_mem_items {items : List Value} {v : Value} (h : v ∈ items) :
    height v < itemsHeight items := by
  induction items with
  | nil => exact (List.not_mem_nil h).elim
  | cons w ws ih =>
      rw [itemsHeight]
      rcases List.mem_cons.mp h with rfl | hmem
      · omega
      · have := ih hmem
        omega

theorem height_lt_of_mem_entries {es : List (Value × Value)} {e : Value × Value} (h : e ∈ es) :
    height e.1 < entriesHeight es ∧ height e.2 < entriesHeight es := by
  induction es with
  | nil => exact (List.not_mem_nil h).elim
  | cons f es ih =>
      rw [entriesHeight]
      rcases List.mem_cons.mp h with rfl | hmem
      · omega
      · have := ih hmem
        omega

theorem propertiesHeight_eq (es : List (JsString × Value)) :
    propertiesHeight es = entriesHeight (asEntries es) := by
  induction es with
  | nil => rfl
  | cons e es ih =>
      have hkey : height (.text e.1) = 0 := rfl
      rw [propertiesHeight, ih, asEntries_cons, entriesHeight, hkey, Nat.zero_max]

theorem propertiesSize_eq (es : List (JsString × Value)) :
    propertiesSize es = entriesSize (asEntries es) := by
  induction es with
  | nil => rfl
  | cons e es ih =>
      rw [propertiesSize, ih]
      rfl

end Blamejs.Cbor
