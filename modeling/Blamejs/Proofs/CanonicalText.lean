import Blamejs.Ref.CanonicalJson
import Blamejs.Spec.Json

/-!
# What a canonical text commits to

`reading` is the JSON value a JavaScript value is written as: boxes are opened,
`undefined` and the numbers without a JSON form become `null`, both zeros
become one, buffers and big integers become strings, and properties are put in
key order. `emit_ok` says the walk writes exactly the text of the reading, and
with that the injectivity of JSON text answers every question about when two
outputs coincide: `emitTop_eq_iff`.

What remains is to compare readings. For values that are JSON to begin with,
two readings agree exactly when the values have the same content once each
non-finite number is read as `null`.
-/

namespace Blamejs.CanonicalJson

open Blamejs.Js Blamejs.Spec Delimiting

/-! ## Sorting by key -/

theorem perm_sortKeys {α : Type} (es : List (JsString × α)) : (sortKeys es).Perm es :=
  List.perm_insertionSort _ es

theorem sortKeys_map {α β : Type} (f : α → β) (es : List (JsString × α)) :
    sortKeys (es.map fun p => (p.1, f p.2)) = (sortKeys es).map fun p => (p.1, f p.2) :=
  (List.map_insertionSort (r := keyLE) (s := keyLE) (fun p => (p.1, f p.2)) es
    fun _ _ _ _ => Iff.rfl).symm

/-- With distinct keys, sorting forgets the order the properties came in. -/
theorem sortKeys_eq_of_perm {α : Type} {es fs : List (JsString × α)}
    (hnodup : (es.map Prod.fst).Nodup) (h : es.Perm fs) : sortKeys es = sortKeys fs := by
  have hperm : (sortKeys es).Perm (sortKeys fs) :=
    (perm_sortKeys es).trans (h.trans (perm_sortKeys fs).symm)
  refine hperm.eq_of_pairwise ?_ (List.pairwise_insertionSort keyLE es)
    (List.pairwise_insertionSort keyLE fs)
  intro p q hp hq hpq hqp
  have hp' : p ∈ es := (perm_sortKeys es).mem_iff.mp hp
  have hq' : q ∈ es := h.mem_iff.mpr ((perm_sortKeys fs).mem_iff.mp hq)
  exact List.inj_on_of_nodup_map hnodup hp' hq' (unitLE_antisymm hpq hqp)

/-! ## The reading of a value -/

/-- The number a finite number is written as. -/
def readingNumber (x : Double) (h : x.isFinite = true) : JsonNumber :=
  if hz : x.isNegZero = true then ⟨Double.zero false, by decide, by decide⟩
  else ⟨x, h, Bool.not_eq_true _ ▸ hz⟩

mutual

def reading : Value → Json
  | .null | .undefined => .null
  | .boxed v => reading v
  | .num x => if h : x.isFinite = true then .num (readingNumber x h) else .null
  | .str s => .str s
  | .bool b => .bool b
  | .bigint z => .str (intText z)
  | .buffer bytes | .uint8Array bytes => .str (hexText bytes)
  | .date iso => .str (iso.getD [])
  | .symbol | .function | .noForm _ => .null
  | .arr _ items => .arr (readingItems items)
  | .obj _ entries => .obj (sortKeys (readingEntries entries))

def readingItems : List Value → List Json
  | [] => []
  | v :: vs => reading v :: readingItems vs

def readingEntries : List (JsString × Value) → List (JsString × Json)
  | [] => []
  | (k, v) :: es => (k, reading v) :: readingEntries es

end

theorem readingEntries_eq (es : List (JsString × Value)) :
    readingEntries es = es.map fun p => (p.1, reading p.2) := by
  induction es with
  | nil => rfl
  | cons p es ih => rw [readingEntries, ih, List.map_cons]

theorem emitEntries_eq (bufferAs : BufferAs) (depth : Nat) (es : List (JsString × Value)) :
    emitEntries bufferAs depth es = es.map fun p => (p.1, emit bufferAs depth p.2) := by
  induction es with
  | nil => rfl
  | cons p es ih => rw [emitEntries, ih, List.map_cons]

theorem jsonNumber_eq_text (x : Double) : jsonNumber x = (reading (.num x)).text := by
  rw [reading, jsonNumber]
  split
  · next h =>
      rw [Json.text, readingNumber]
      split
      · next hz =>
          rw [Double.isNegZero, Bool.and_eq_true] at hz
          rw [numberText_zero hz.2, numberText_zero (by decide)]
      · rfl
  · rfl

/-! ## The walk writes the reading -/

section
variable {α β : Type}

theorem bind_ok {m : Walk α} {f : α → Walk β} {seen seen' : List Nat} {b : β}
    (h : (m >>= f) seen = .ok (b, seen')) :
    ∃ a mid, m seen = .ok (a, mid) ∧ f a mid = .ok (b, seen') := by
  have hrun : (m seen).bind (fun p => f p.1 p.2) = .ok (b, seen') := h
  cases hm : m seen with
  | error e => rw [hm] at hrun; cases hrun
  | ok p => rw [hm] at hrun; exact ⟨p.1, p.2, rfl, hrun⟩

theorem pure_ok {a b : α} {seen seen' : List Nat}
    (h : (pure a : Walk α) seen = .ok (b, seen')) : b = a := by
  have hrun : (.ok (a, seen) : Except JsString (α × List Nat)) = .ok (b, seen') := h
  cases hrun
  rfl

/-- If every step that succeeds gives `g`, a sequence of them that succeeds
gives `g` all along. -/
theorem mapM_ok {f : α → Walk β} {g : α → β} {l : List α}
    (hf : ∀ a ∈ l, ∀ seen b seen', f a seen = .ok (b, seen') → b = g a) :
    ∀ {seen bs seen'}, l.mapM f seen = .ok (bs, seen') → bs = l.map g := by
  induction l with
  | nil =>
      intro seen bs seen' h
      rw [List.mapM_nil] at h
      exact pure_ok h
  | cons a l ih =>
      intro seen bs seen' h
      rw [List.mapM_cons] at h
      obtain ⟨b, mid, hb, h⟩ := bind_ok h
      obtain ⟨bs', mid', hbs, h⟩ := bind_ok h
      rw [pure_ok h, hf a List.mem_cons_self _ _ _ hb,
        ih (fun c hc => hf c (List.mem_cons_of_mem _ hc)) hbs, List.map_cons]

end

theorem bracketed_eq (opn close : UInt16) (parts : List JsString) :
    opn :: (joinComma parts ++ [close]) = opn :: closed (unit ',') close parts := rfl

mutual

/-- Whatever `_emit` returns is the text of the value's reading. -/
theorem emit_ok (bufferAs : BufferAs) (depth : Nat) : ∀ (v : Value) {seen s seen'},
    emit bufferAs depth v seen = .ok (s, seen') → s = (reading v).text
  | .null | .undefined | .str _ | .bool _ => by
      intro h
      rw [emit] at h
      exact pure_ok h
  | .boxed v => by
      intro h
      rw [emit] at h
      rw [reading]
      exact emit_ok bufferAs depth v h
  | .num x => by
      intro h
      rw [emit] at h
      exact (pure_ok h).trans (jsonNumber_eq_text x)
  | .bigint z => by
      intro h
      rw [emit] at h
      split at h
      · cases h
      · exact pure_ok h
  | .symbol | .function | .noForm _ => by
      intro h
      rw [emit] at h
      cases h
  | .buffer bytes | .uint8Array bytes => by
      intro h
      rw [emit] at h
      split at h
      · cases h
      · exact pure_ok h
  | .date iso => by
      intro h
      simp only [emit] at h
      split at h
      · cases h
      · cases iso with
        | none => cases h
        | some text => exact pure_ok h
  | .arr ref items => by
      intro h
      rw [emit] at h
      obtain ⟨-, mid, -, h⟩ := bind_ok h
      obtain ⟨parts, mid', hparts, h⟩ := bind_ok h
      rw [pure_ok h, emitItems_ok bufferAs (depth + 1) items hparts, reading, Json.text,
        bracketed_eq]
  | .obj ref entries => by
      intro h
      rw [emit] at h
      obtain ⟨-, mid, -, h⟩ := bind_ok h
      obtain ⟨parts, mid', hparts, h⟩ := bind_ok h
      rw [emitEntries_eq, sortKeys_map, List.mapM_map] at hparts
      have hsorted := mapM_ok (g := fun p => Json.entryText (p.1, reading p.2)) ?_ hparts
      · rw [pure_ok h, hsorted, reading, Json.text, Json.entryTexts_eq, readingEntries_eq,
          sortKeys_map, List.map_map, bracketed_eq]
        rfl
      · intro p hp seen t seen' ht
        obtain ⟨text, mid, htext, ht⟩ := bind_ok ht
        rw [pure_ok ht, emitEntries_ok bufferAs (depth + 1) entries p
          ((perm_sortKeys entries).mem_iff.mp hp) htext, Json.entryText]

theorem emitItems_ok (bufferAs : BufferAs) (depth : Nat) : ∀ (vs : List Value) {seen ts seen'},
    emitItems bufferAs depth vs seen = .ok (ts, seen') → ts = Json.itemTexts (readingItems vs)
  | [] => by
      intro h
      rw [emitItems] at h
      exact pure_ok h
  | v :: vs => by
      intro h
      rw [emitItems] at h
      obtain ⟨t, mid, ht, h⟩ := bind_ok h
      obtain ⟨ts', mid', hts, h⟩ := bind_ok h
      rw [pure_ok h, emit_ok bufferAs depth v ht, emitItems_ok bufferAs depth vs hts,
        readingItems, Json.itemTexts]

theorem emitEntries_ok (bufferAs : BufferAs) (depth : Nat) :
    ∀ (es : List (JsString × Value)), ∀ p ∈ es, ∀ {seen s seen'},
      emit bufferAs depth p.2 seen = .ok (s, seen') → s = (reading p.2).text
  | [] => fun _ hp => absurd hp List.not_mem_nil
  | (_, v) :: es => List.forall_mem_cons.mpr
      ⟨fun h => emit_ok bufferAs depth v h, emitEntries_ok bufferAs depth es⟩

end

theorem emitTop_ok {bufferAs : BufferAs} {v : Value} {s : JsString}
    (h : emitTop bufferAs v = .ok s) : s = (reading v).text := by
  rw [emitTop, StateT.run'] at h
  cases hrun : emit bufferAs 0 v [] with
  | error e => rw [hrun] at h; cases h
  | ok p =>
      rw [hrun] at h
      obtain rfl : p.1 = s := by simpa [Functor.map, Except.map] using h
      exact emit_ok bufferAs 0 v hrun

/-- Two accepted values share an output exactly when they are written as one
JSON value. -/
theorem emitTop_eq_iff {bufferAs bufferAs' : BufferAs} {v w : Value} {s t : JsString}
    (hv : emitTop bufferAs v = .ok s) (hw : emitTop bufferAs' w = .ok t) :
    s = t ↔ reading v = reading w := by
  rw [emitTop_ok hv, emitTop_ok hw]
  exact Json.text_injective.eq_iff

end Blamejs.CanonicalJson
