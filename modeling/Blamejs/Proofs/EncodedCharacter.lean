import Blamejs.Ref.EncodedCharacter

/-!
# Encoded characters read as their grammar says

A run is `*blank hexval *(1*blank hexval) *blank` between its keyword and a closing brace.
`Decodes` reads a text from left to right by that grammar alone: it has no index and no
cache. The scan agrees with it because the cached brace, whenever it lies behind the
opener, is the first one behind the opener (`Cached`).
-/

namespace Blamejs.EncodedCharacter

open Blamejs.Js

/-! ## The grammar -/

def Keyword.maxDigits : Keyword → Option Nat
  | .hex => some 2
  | .unicode => none

/-- A run of blanks, `blank` being what one of them may be. -/
def Blanks (blank : JsString → Prop) (text : JsString) : Prop :=
  ∃ ts : List JsString, (∀ t ∈ ts, blank t) ∧ ts.flatten = text

/-- One number of a payload. -/
structure HexVal (maxDigits : Option Nat) (text : JsString) (value : Nat) : Prop where
  nonempty : text ≠ []
  fits : ∀ m ∈ maxDigits, text.length ≤ m
  reads : ∃ digits : List Nat, text.map hexDigitValue = digits.map some ∧
    value = digits.foldl (fun v d => v * 16 + d) 0

/-- `hexval *(1*blank hexval) *blank`. -/
inductive HexVals (blank : JsString → Prop) (maxDigits : Option Nat) :
    JsString → List Nat → Prop where
  | last {g t : JsString} {v : Nat} (hval : HexVal maxDigits g v) (hblanks : Blanks blank t) :
      HexVals blank maxDigits (g ++ t) [v]
  | cons {g t rest : JsString} {v : Nat} {vs : List Nat} (hval : HexVal maxDigits g v)
      (hblanks : Blanks blank t) (hsome : t ≠ []) (hrest : HexVals blank maxDigits rest vs) :
      HexVals blank maxDigits (g ++ (t ++ rest)) (v :: vs)

/-- `*blank hexval *(1*blank hexval) *blank`. -/
def Payload (blank : JsString → Prop) (maxDigits : Option Nat) (body : JsString)
    (vs : List Nat) : Prop :=
  ∃ lead rest, Blanks blank lead ∧ HexVals blank maxDigits rest vs ∧ body = lead ++ rest

/-- A text that starts with a run, and what follows the run. -/
def Run (blank : JsString → Prop) (text : JsString) (k : Keyword) (vs : List Nat)
    (rest : JsString) : Prop :=
  ∃ name body, text = opener ++ (name ++ unit ':' :: (body ++ closer :: rest)) ∧
    name.map foldAscii = k.word ∧ Payload blank k.maxDigits body vs

def Scalar (v : Nat) : Prop := v ≤ 0x10FFFF ∧ ¬ (0xD800 ≤ v ∧ v ≤ 0xDFFF)

instance : DecidablePred Scalar := fun v =>
  inferInstanceAs (Decidable (v ≤ 0x10FFFF ∧ ¬ (0xD800 ≤ v ∧ v ≤ 0xDFFF)))

/-- What the numbers of a run stand for. -/
def octetsOf : Keyword → List Nat → Except Refusal (List UInt8)
  | .hex, vs => if 0 ∈ vs then .error .nul else .ok (vs.map UInt8.ofNat)
  | .unicode, vs =>
      if ∀ v ∈ vs, Scalar v then
        if 0 ∈ vs then .error .nul
        else .ok (vs.flatMap fun v => String.utf8EncodeChar (Char.ofNat v))
      else .error .nonScalar

/-- A code unit that stays as it is, or the octets of a run. -/
inductive Piece where
  | literal (c : UInt16)
  | octets (bytes : List UInt8)
  deriving DecidableEq, Repr

/-- A text read from left to right. -/
inductive Decodes (blank : JsString → Prop) : JsString → Except Refusal (List Piece) → Prop where
  | done : Decodes blank [] (.ok [])
  | run {text rest : JsString} {k : Keyword} {vs : List Nat} {bytes : List UInt8}
      {d : Except Refusal (List Piece)} (hrun : Run blank text k vs rest)
      (hoctets : octetsOf k vs = .ok bytes) (hrest : Decodes blank rest d) :
      Decodes blank text (d.map (Piece.octets bytes :: ·))
  | refused {text rest : JsString} {k : Keyword} {vs : List Nat} {e : Refusal}
      (hrun : Run blank text k vs rest) (hoctets : octetsOf k vs = .error e) :
      Decodes blank text (.error e)
  | literal {c : UInt16} {rest : JsString} {d : Except Refusal (List Piece)}
      (hnone : ∀ k vs after, ¬ Run blank (c :: rest) k vs after) (hrest : Decodes blank rest d) :
      Decodes blank (c :: rest) (d.map (Piece.literal c :: ·))

/-- The octets of the pieces behind the code units of `pending`. A surrogate pair is one
character, so code units are encoded together. -/
def encodeFrom (pending : JsString) : List Piece → List UInt8
  | [] => utf8 pending
  | .literal c :: ps => encodeFrom (pending ++ [c]) ps
  | .octets bytes :: ps => utf8 pending ++ (bytes ++ encodeFrom [] ps)

def encode (ps : List Piece) : List UInt8 := encodeFrom [] ps

/-- The text the pieces are the UTF-8 of. -/
def readBack (ps : List Piece) : Except Refusal JsString :=
  match decodeUtf8 (encode ps) with
  | some cs => .ok (ofScalars cs)
  | none => .error .notUtf8

/-- The decoding of a string. -/
inductive Decoding (blank : JsString → Prop) (s : JsString) : Except Refusal JsString → Prop where
  | plain (h : ¬ opener <:+: s) : Decoding blank s (.ok s)
  | decoded {d : Except Refusal (List Piece)} (h : opener <:+: s) (hd : Decodes blank s d) :
      Decoding blank s (d.bind readBack)

/-- A blank is a space or a tab. -/
def Wsp (t : JsString) : Prop := t = [0x20] ∨ t = [0x09]

/-- `blank = WSP / CRLF`. -/
def WspOrCrlf (t : JsString) : Prop := Wsp t ∨ t = [0x0D, 0x0A]

/-! ## Payloads -/

theorem isBlank_iff {c : UInt16} : isBlank c = true ↔ c = 0x20 ∨ c = 0x09 := by
  simp [isBlank]

theorem hexDigitValue_blank {c : UInt16} (h : isBlank c = true) : hexDigitValue c = none := by
  rcases isBlank_iff.mp h with rfl | rfl <;> rfl

theorem isBlank_of_hexDigitValue {c : UInt16} {d : Nat} (h : hexDigitValue c = some d) :
    isBlank c = false := by
  cases hc : isBlank c with
  | false => rfl
  | true => rw [hexDigitValue_blank hc] at h; cases h

theorem blanks_iff {t : JsString} : Blanks Wsp t ↔ ∀ c ∈ t, isBlank c = true := by
  constructor
  · rintro ⟨ts, hts, rfl⟩ c hc
    obtain ⟨t, ht, hct⟩ := List.mem_flatten.mp hc
    rcases hts t ht with rfl | rfl
    · exact isBlank_iff.mpr (.inl (List.mem_singleton.mp hct))
    · exact isBlank_iff.mpr (.inr (List.mem_singleton.mp hct))
  · intro h
    refine ⟨t.map fun c => [c], ?_, by simp [← List.flatMap_def]⟩
    intro b hb
    obtain ⟨c, hc, rfl⟩ := List.mem_map.mp hb
    rcases isBlank_iff.mp (h c hc) with rfl | rfl
    · exact .inl rfl
    · exact .inr rfl

/-- The digits at the start of a text are read up to the first character that is none. -/
theorem readDigits_complete {max : Option Nat} {g rest : JsString} {ds : List Nat} {value n : Nat}
    (hds : g.map hexDigitValue = ds.map some) (hfits : ∀ m ∈ max, n + g.length ≤ m)
    (hrest : ∀ c ∈ rest.head?, hexDigitValue c = none) :
    readDigits max value n (g ++ rest) =
      some (ds.foldl (fun v d => v * 16 + d) value, n + g.length, rest) := by
  induction g generalizing ds value n with
  | nil =>
      obtain rfl : ds = [] := List.map_eq_nil_iff.mp hds.symm
      cases rest with
      | nil => rfl
      | cons c rest => rw [List.nil_append, readDigits, hrest c rfl]; rfl
  | cons c g ih =>
      cases ds with
      | nil => cases hds
      | cons d ds =>
          obtain ⟨hc, hg⟩ := List.cons_eq_cons.mp hds
          have hroom : max.any (· ≤ n) = false := by
            cases max with
            | none => rfl
            | some m =>
                have hm := hfits m rfl
                rw [List.length_cons] at hm
                exact decide_eq_false (by omega)
          rw [List.cons_append, readDigits, hc]
          simp only [hroom, Bool.false_eq_true, if_false]
          rw [ih hg (fun m hm => by have := hfits m hm; rw [List.length_cons] at this; omega),
            List.length_cons, Nat.add_right_comm, Nat.add_assoc]
          rfl

theorem readDigits_sound {max : Option Nat} {body rest : JsString} {value n v m : Nat}
    (h : readDigits max value n body = some (v, m, rest)) :
    ∃ (g : JsString) (ds : List Nat), body = g ++ rest ∧ g.map hexDigitValue = ds.map some ∧
      v = ds.foldl (fun v d => v * 16 + d) value ∧ m = n + g.length ∧
      (g ≠ [] → ∀ b ∈ max, m ≤ b) := by
  induction body generalizing value n with
  | nil =>
      cases h
      exact ⟨[], [], rfl, rfl, rfl, rfl, fun h => absurd rfl h⟩
  | cons c body ih =>
      rw [readDigits] at h
      cases hc : hexDigitValue c with
      | none =>
          rw [hc] at h
          cases h
          exact ⟨[], [], rfl, rfl, rfl, rfl, fun h => absurd rfl h⟩
      | some d =>
          rw [hc] at h
          dsimp only at h
          split at h
          · cases h
          · next hroom =>
              obtain ⟨g, ds, rfl, hds, hv, hm, hfits⟩ := ih h
              refine ⟨c :: g, d :: ds, rfl, by rw [List.map_cons, hc, hds]; rfl, hv,
                by rw [hm, List.length_cons]; omega, fun _ b hb => ?_⟩
              cases g with
              | nil =>
                  obtain rfl := Option.mem_def.mp hb
                  have hlt : ¬ b ≤ n := fun hle => hroom (decide_eq_true hle)
                  rw [hm, List.length_nil]
                  omega
              | cons e g => exact hfits (List.cons_ne_nil _ _) b hb

theorem HexVal.head {max : Option Nat} {g : JsString} {v : Nat} (h : HexVal max g v) :
    ∃ c tail d, g = c :: tail ∧ hexDigitValue c = some d := by
  obtain ⟨ds, hds, -⟩ := h.reads
  cases g with
  | nil => exact absurd rfl h.nonempty
  | cons c tail =>
      cases ds with
      | nil => cases hds
      | cons d ds => exact ⟨c, tail, d, rfl, (List.cons_eq_cons.mp hds).1⟩

theorem HexVals.head {max : Option Nat} {body : JsString} {vs : List Nat}
    (h : HexVals Wsp max body vs) : ∃ c tail d, body = c :: tail ∧ hexDigitValue c = some d := by
  cases h with
  | last hval _ =>
      obtain ⟨c, tail, d, rfl, hc⟩ := hval.head
      exact ⟨c, _, d, rfl, hc⟩
  | cons hval _ _ _ =>
      obtain ⟨c, tail, d, rfl, hc⟩ := hval.head
      exact ⟨c, _, d, rfl, hc⟩

theorem dropWhile_blanks {t rest : JsString} (ht : ∀ c ∈ t, isBlank c = true)
    (hrest : ∀ c ∈ rest.head?, isBlank c = false) : (t ++ rest).dropWhile isBlank = rest := by
  rw [List.dropWhile_append_of_pos ht]
  cases rest with
  | nil => rfl
  | cons c rest => exact List.dropWhile_cons_of_neg (by rw [hrest c rfl]; decide)

theorem HexVal.readDigits {max : Option Nat} {g rest : JsString} {v : Nat} (h : HexVal max g v)
    (hrest : ∀ c ∈ rest.head?, hexDigitValue c = none) :
    readDigits max 0 0 (g ++ rest) = some (v, g.length, rest) := by
  obtain ⟨ds, hds, rfl⟩ := h.reads
  rw [readDigits_complete hds (fun m hm => by have := h.fits m hm; omega) hrest, Nat.zero_add]

theorem HexVal.length_ne {max : Option Nat} {g : JsString} {v : Nat} (h : HexVal max g v) :
    g.length ≠ 0 := fun h0 => h.nonempty (List.length_eq_zero_iff.mp h0)

theorem head_blank {t rest : JsString} (ht : ∀ c ∈ t, isBlank c = true) (hsome : t ≠ []) :
    ∀ c ∈ (t ++ rest).head?, isBlank c = true := by
  cases t with
  | nil => exact absurd rfl hsome
  | cons b t =>
      rintro c hc
      obtain rfl : b = c := Option.some_inj.mp hc
      exact ht _ List.mem_cons_self

/-- What the loop does at a number with blanks behind it. -/
theorem readValues_blank {max : Option Nat} {g t rest : JsString} {v fuel : Nat}
    (hval : HexVal max g v) (ht : ∀ c ∈ t, isBlank c = true) (hsome : t ≠ [])
    (hrest : ∀ c ∈ rest.head?, isBlank c = false) :
    readValues max (fuel + 1) (g ++ (t ++ rest)) =
      if rest = [] then some [v] else (readValues max fuel rest).map (v :: ·) := by
  have hhead := @head_blank t rest ht hsome
  rw [readValues, hval.readDigits fun c hc => hexDigitValue_blank (hhead c hc)]
  dsimp only
  rw [if_neg hval.length_ne]
  cases htail : t ++ rest with
  | nil => exact absurd (List.append_eq_nil_iff.mp htail).1 hsome
  | cons b tail =>
      have hb : isBlank b = true := hhead b (by rw [htail]; rfl)
      have hdrop : (b :: tail).dropWhile isBlank = rest := by
        rw [← htail, dropWhile_blanks ht hrest]
      dsimp only
      rw [if_neg (by rw [hb]; decide), hdrop]

theorem readValues_complete {max : Option Nat} {body : JsString} {vs : List Nat}
    (h : HexVals Wsp max body vs) {fuel : Nat} (hfuel : body.length ≤ fuel) :
    readValues max fuel body = some vs := by
  induction h generalizing fuel with
  | @last g t v hval hblanks =>
      have hpos := hval.length_ne
      rw [List.length_append] at hfuel
      obtain ⟨fuel, rfl⟩ : ∃ n, fuel = n + 1 := ⟨fuel - 1, by omega⟩
      by_cases hsome : t = []
      · subst hsome
        rw [readValues, hval.readDigits (fun c hc => by cases hc)]
        exact if_neg hpos
      · have hstep := @readValues_blank max g t [] v fuel hval (blanks_iff.mp hblanks) hsome
          (fun c hc => by cases hc)
        rwa [List.append_nil] at hstep
  | @cons g t rest v vs hval hblanks hsome hrest ih =>
      have hpos := hval.length_ne
      rw [List.length_append, List.length_append] at hfuel
      obtain ⟨fuel, rfl⟩ : ∃ n, fuel = n + 1 := ⟨fuel - 1, by omega⟩
      obtain ⟨c, tail, d, hbody, hc⟩ := hrest.head
      have hhead : ∀ e ∈ rest.head?, isBlank e = false := by
        rw [hbody]
        rintro e he
        obtain rfl : c = e := Option.some_inj.mp he
        exact isBlank_of_hexDigitValue hc
      rw [readValues_blank hval (blanks_iff.mp hblanks) hsome hhead, if_neg (by rw [hbody]; simp),
        ih (by omega)]
      rfl

theorem takeWhile_blanks (rest : JsString) : Blanks Wsp (rest.takeWhile isBlank) :=
  blanks_iff.mpr (List.all_eq_true.mp List.all_takeWhile)

theorem readValues_sound {max : Option Nat} {fuel : Nat} {body : JsString} {vs : List Nat}
    (h : readValues max fuel body = some vs) : HexVals Wsp max body vs := by
  induction fuel generalizing body vs with
  | zero => cases h
  | succ fuel ih =>
      rw [readValues] at h
      cases hdigits : readDigits max 0 0 body with
      | none => rw [hdigits] at h; cases h
      | some r =>
          obtain ⟨v, n, rest⟩ := r
          rw [hdigits] at h
          dsimp only at h
          obtain ⟨g, ds, rfl, hds, hv, hn, hfits⟩ := readDigits_sound hdigits
          rw [Nat.zero_add] at hn
          split at h
          · cases h
          · next hpos =>
              have hg : g ≠ [] := fun h0 => hpos (by rw [hn, h0]; rfl)
              have hval : HexVal max g v := ⟨hg, fun m hm => hn ▸ hfits hg m hm, ds, hds, hv⟩
              cases rest with
              | nil =>
                  obtain rfl : [v] = vs := Option.some_inj.mp h
                  exact .last hval ⟨[], by simp, rfl⟩
              | cons c rest =>
                  dsimp only at h
                  split at h
                  · cases h
                  · next hblank =>
                      have hc : isBlank c = true := by simpa using hblank
                      have hsplit := List.takeWhile_append_dropWhile (p := isBlank) (l := c :: rest)
                      rw [← hsplit]
                      split at h
                      · next hend =>
                          obtain rfl : [v] = vs := Option.some_inj.mp h
                          rw [hend, List.append_nil]
                          exact .last hval (takeWhile_blanks _)
                      · obtain ⟨vs', hvs, rfl⟩ := Option.map_eq_some_iff.mp h
                        refine .cons hval (takeWhile_blanks _) ?_ (ih hvs)
                        rw [List.takeWhile_cons_of_pos hc]
                        exact List.cons_ne_nil _ _

/-- `_hexRunValues` reads the payloads of the grammar and nothing else. -/
theorem hexRunValues_iff {max : Option Nat} {body : JsString} {vs : List Nat} :
    hexRunValues max body = some vs ↔ Payload Wsp max body vs := by
  constructor
  · intro h
    rw [hexRunValues] at h
    split at h
    · cases h
    · exact ⟨_, _, takeWhile_blanks body, readValues_sound h, List.takeWhile_append_dropWhile.symm⟩
  · rintro ⟨lead, rest, hlead, hvals, rfl⟩
    obtain ⟨c, tail, d, hrest, hc⟩ := hvals.head
    have hdrop : (lead ++ rest).dropWhile isBlank = rest := by
      refine dropWhile_blanks (blanks_iff.mp hlead) ?_
      rw [hrest]
      rintro e he
      obtain rfl : c = e := Option.some_inj.mp he
      exact isBlank_of_hexDigitValue hc
    rw [hexRunValues, hdrop, if_neg (by rw [hrest]; simp)]
    exact readValues_complete hvals (by rw [List.length_append]; omega)

/-! ## Runs -/

theorem closer_not_mem_name {name : JsString} {k : Keyword} (h : name.map foldAscii = k.word) :
    closer ∉ name := by
  intro hc
  have hfold : foldAscii closer ∈ k.word := h ▸ List.mem_map_of_mem hc
  cases k <;> exact absurd hfold (by decide)

theorem HexVal.closer_not_mem {max : Option Nat} {g : JsString} {v : Nat} (h : HexVal max g v) :
    closer ∉ g := by
  intro hc
  obtain ⟨ds, hds, -⟩ := h.reads
  have hmem : hexDigitValue closer ∈ ds.map some := hds ▸ List.mem_map_of_mem hc
  obtain ⟨d, -, hd⟩ := List.mem_map.mp hmem
  cases hd

theorem Blanks.closer_not_mem {t : JsString} (h : Blanks Wsp t) : closer ∉ t :=
  fun hc => absurd (blanks_iff.mp h closer hc) (by decide)

theorem HexVals.closer_not_mem {max : Option Nat} {body : JsString} {vs : List Nat}
    (h : HexVals Wsp max body vs) : closer ∉ body := by
  induction h with
  | last hval hblanks =>
      rw [List.mem_append]
      exact not_or.mpr ⟨hval.closer_not_mem, hblanks.closer_not_mem⟩
  | cons hval hblanks _ _ ih =>
      rw [List.mem_append, List.mem_append]
      exact not_or.mpr ⟨hval.closer_not_mem, not_or.mpr ⟨hblanks.closer_not_mem, ih⟩⟩

theorem Payload.closer_not_mem {max : Option Nat} {body : JsString} {vs : List Nat}
    (h : Payload Wsp max body vs) : closer ∉ body := by
  obtain ⟨lead, rest, hlead, hvals, rfl⟩ := h
  rw [List.mem_append]
  exact not_or.mpr ⟨hlead.closer_not_mem, hvals.closer_not_mem⟩

/-- A keyword in any case with a colon behind it. -/
def Named (v : JsString) (k : Keyword) (name after : JsString) : Prop :=
  v = name ++ unit ':' :: after ∧ name.map foldAscii = k.word

theorem Named.length {v name after : JsString} {k : Keyword} (h : Named v k name after) :
    name.length = k.word.length := by
  rw [← h.2, List.length_map]

theorem Named.unique {v name name' after after' : JsString} {k k' : Keyword}
    (h : Named v k name after) (h' : Named v k' name' after') :
    k = k' ∧ name = name' ∧ after = after' := by
  have hk : k = k' := by
    have hcolon : ∀ {n n' a a' : JsString}, Named v .hex n a → Named v .unicode n' a' → False := by
      rintro n n' a a' hn hn'
      have hlen : n.length = 3 := hn.length
      have hlen' : n'.length = 7 := hn'.length
      have hat : n'[3]? = some (unit ':') := by
        have := congrArg (·[3]?) (hn.1.symm.trans hn'.1)
        rwa [List.getElem?_append_right (by omega), List.getElem?_append_left (by omega), hlen,
          eq_comm] at this
      have hfold := congrArg (·[3]?) hn'.2
      rw [List.getElem?_map, hat] at hfold
      exact absurd hfold (by decide)
    cases k <;> cases k'
    · rfl
    · exact (hcolon h h').elim
    · exact (hcolon h' h).elim
    · rfl
  subst hk
  obtain ⟨rfl, hafter⟩ := List.append_inj (h.1.symm.trans h'.1) (h.length.trans h'.length.symm)
  exact ⟨rfl, rfl, (List.cons_eq_cons.mp hafter).2⟩

/-- The first closing brace stands behind the keyword and its colon. -/
theorem Named.closes {v name after w rest : JsString} {k : Keyword} (h : Named v k name after)
    (hw : v = w ++ closer :: rest) (hcloser : closer ∉ w) :
    ∃ payload, after = payload ++ closer :: rest ∧ w = name ++ unit ':' :: payload ∧
      closer ∉ payload := by
  have hname : closer ∉ name ++ [unit ':'] := by
    rw [List.mem_append]
    exact not_or.mpr ⟨closer_not_mem_name h.2, by decide⟩
  have hv : v = (name ++ [unit ':']) ++ after := by rw [h.1, List.append_assoc]; rfl
  cases hsearch : search [closer] after with
  | none =>
      have hmem : closer ∈ v := by rw [hw]; simp
      rw [hv, List.mem_append] at hmem
      exact absurd hmem (not_or.mpr ⟨hname, search_unit_none hsearch⟩)
  | some n =>
      obtain ⟨payload, rest', rfl, hpayload, -⟩ := search_unit_some hsearch
      rw [hw, ← List.append_assoc] at hv
      obtain ⟨rfl, rfl⟩ := split_unique hv hcloser (by
        rw [List.mem_append]
        exact not_or.mpr ⟨hname, hpayload⟩)
      exact ⟨payload, rfl, by rw [List.append_assoc]; rfl, hpayload⟩

theorem foldAscii_word (k : Keyword) : k.word.map foldAscii = k.word := by
  cases k <;> rfl

/-- The test of one keyword. -/
theorem keywordTest_iff {s : JsString} {start : Nat} {k : Keyword} :
    (s[start + k.word.length]? == some (unit ':') && matchesAtFolded s start k.word) = true ↔
      ∃ name after, Named (s.drop start) k name after := by
  rw [Bool.and_eq_true, beq_iff_eq, matchesAtFolded, beq_iff_eq, foldAscii_word,
    ← List.getElem?_drop]
  generalize s.drop start = v
  constructor
  · rintro ⟨hcolon, hname⟩
    obtain ⟨hlt, hget⟩ := List.getElem?_eq_some_iff.mp hcolon
    refine ⟨v.take k.word.length, v.drop (k.word.length + 1), ?_, hname⟩
    rw [← hget, ← List.drop_eq_getElem_cons hlt, List.take_append_drop]
  · rintro ⟨name, after, hv⟩
    have hlen := hv.length
    obtain ⟨rfl, hname⟩ := hv
    rw [← hlen, List.getElem?_append_right (le_refl _), Nat.sub_self, List.take_left]
    exact ⟨rfl, hname⟩

theorem encodedKeywordAt_some {s : JsString} {start : Nat} {k : Keyword}
    (h : encodedKeywordAt s start = some k) : ∃ name after, Named (s.drop start) k name after := by
  have htest := List.find?_some h
  exact keywordTest_iff.mp htest

theorem encodedKeywordAt_none {s : JsString} {start : Nat} (h : encodedKeywordAt s start = none)
    {k : Keyword} {name after : JsString} : ¬ Named (s.drop start) k name after := by
  intro hnamed
  refine List.find?_eq_none.mp h k ?_ (keywordTest_iff.mpr ⟨name, after, hnamed⟩)
  cases k <;> decide

theorem Run.opens {text rest : JsString} {k : Keyword} {vs : List Nat} {blank : JsString → Prop}
    (h : Run blank text k vs rest) : opener <+: text := by
  obtain ⟨name, body, rfl, -, -⟩ := h
  exact List.prefix_append _ _

theorem Run.closes {text rest : JsString} {k : Keyword} {vs : List Nat} {blank : JsString → Prop}
    (h : Run blank text k vs rest) : closer ∈ text.drop 2 := by
  obtain ⟨name, body, rfl, -, -⟩ := h
  show closer ∈ name ++ unit ':' :: (body ++ closer :: rest)
  simp

/-- A run behind its opener. -/
theorem run_iff {v rest : JsString} {k : Keyword} {vs : List Nat} :
    Run Wsp (opener ++ v) k vs rest ↔
      ∃ name body, Named v k name (body ++ closer :: rest) ∧
        hexRunValues k.maxDigits body = some vs := by
  constructor
  · rintro ⟨name, body, htext, hname, hbody⟩
    exact ⟨name, body, ⟨List.append_cancel_left htext, hname⟩, hexRunValues_iff.mpr hbody⟩
  · rintro ⟨name, body, ⟨rfl, hname⟩, hbody⟩
    exact ⟨name, body, rfl, hname, hexRunValues_iff.mp hbody⟩

theorem Run.unique {text rest rest' : JsString} {k k' : Keyword} {vs vs' : List Nat}
    (h : Run Wsp text k vs rest) (h' : Run Wsp text k' vs' rest') :
    k = k' ∧ vs = vs' ∧ rest = rest' := by
  obtain ⟨v, rfl⟩ := h.opens
  obtain ⟨name, body, hnamed, hvs⟩ := run_iff.mp h
  obtain ⟨name', body', hnamed', hvs'⟩ := run_iff.mp h'
  obtain ⟨rfl, rfl, hafter⟩ := hnamed.unique hnamed'
  obtain ⟨rfl, rfl⟩ := split_unique hafter (hexRunValues_iff.mp hvs).closer_not_mem
    (hexRunValues_iff.mp hvs').closer_not_mem
  rw [hvs] at hvs'
  exact ⟨rfl, Option.some_inj.mp hvs', rfl⟩

theorem Run.not_nil {rest : JsString} {k : Keyword} {vs : List Nat} {blank : JsString → Prop} :
    ¬ Run blank [] k vs rest :=
  fun h => absurd (List.prefix_nil.mp h.opens) (List.cons_ne_nil _ _)

/-- A text that starts with a run stands for one thing only. -/
theorem Run.octets_unique {text rest rest' : JsString} {k k' : Keyword} {vs vs' : List Nat}
    (h : Run Wsp text k vs rest) (h' : Run Wsp text k' vs' rest') :
    octetsOf k vs = octetsOf k' vs' ∧ rest = rest' := by
  obtain ⟨rfl, rfl, rfl⟩ := h.unique h'
  exact ⟨rfl, rfl⟩

/-- A text is decoded in one way only. -/
theorem Decodes.unique {text : JsString} {d d' : Except Refusal (List Piece)}
    (h : Decodes Wsp text d) (h' : Decodes Wsp text d') : d = d' := by
  induction h generalizing d' with
  | done =>
      cases h' with
      | done => rfl
      | run hrun _ _ => exact (Run.not_nil hrun).elim
      | refused hrun _ => exact (Run.not_nil hrun).elim
  | run hrun hoctets _ ih =>
      cases h' with
      | done => exact (Run.not_nil hrun).elim
      | run hrun' hoctets' hrest' =>
          obtain ⟨hsame, rfl⟩ := hrun.octets_unique hrun'
          cases hoctets.symm.trans (hsame.trans hoctets')
          rw [ih hrest']
      | refused hrun' hoctets' =>
          cases hoctets.symm.trans ((hrun.octets_unique hrun').1.trans hoctets')
      | literal hnone _ => exact absurd hrun (hnone _ _ _)
  | refused hrun hoctets =>
      cases h' with
      | done => exact (Run.not_nil hrun).elim
      | run hrun' hoctets' _ =>
          cases hoctets.symm.trans ((hrun.octets_unique hrun').1.trans hoctets')
      | refused hrun' hoctets' =>
          cases hoctets.symm.trans ((hrun.octets_unique hrun').1.trans hoctets')
          rfl
      | literal hnone _ => exact absurd hrun (hnone _ _ _)
  | literal hnone _ ih =>
      cases h' with
      | run hrun' _ _ => exact absurd hrun' (hnone _ _ _)
      | refused hrun' _ => exact absurd hrun' (hnone _ _ _)
      | literal _ hrest' => rw [ih hrest']

/-! ## Octets -/

theorem scalarOctets_eq (vs : List Nat) :
    scalarOctets vs =
      if ∀ v ∈ vs, Scalar v then
        .ok (vs.flatMap fun v => String.utf8EncodeChar (Char.ofNat v))
      else .error .nonScalar := by
  induction vs with
  | nil => rw [if_pos (by simp)]; rfl
  | cons v vs ih =>
      rw [scalarOctets, ih]
      by_cases hv : Scalar v
      · rw [if_neg (by unfold Scalar at hv; omega)]
        by_cases hvs : ∀ v ∈ vs, Scalar v
        · rw [if_pos hvs, if_pos (List.forall_mem_cons.mpr ⟨hv, hvs⟩)]
          rfl
        · rw [if_neg hvs, if_neg fun h => hvs (List.forall_mem_cons.mp h).2]
          rfl
      · rw [if_pos (by unfold Scalar at hv; omega),
          if_neg fun h => hv (List.forall_mem_cons.mp h).1]

/-- Only U+0000 is written with a NUL octet. -/
theorem zero_mem_utf8EncodeChar {c : Char} :
    (0 : UInt8) ∈ String.utf8EncodeChar c ↔ c.toNat = 0 := by
  have hv : c.val.toNat = c.toNat := rfl
  have hzero : ∀ {n : Nat}, n < 256 → ((0 : UInt8) = UInt8.ofNat n ↔ n = 0) := by
    intro n hn
    rw [← UInt8.toNat_inj, toNat_byte hn, eq_comm]
    rfl
  have hrange := char_range c
  rw [String.utf8EncodeChar, hv]
  by_cases h₁ : c.toNat ≤ 0x7F
  · rw [if_pos h₁, List.mem_singleton, hzero (by omega)]
  rw [if_neg h₁]
  by_cases h₂ : c.toNat ≤ 0x7FF
  · rw [if_pos h₂]
    simp only [List.mem_cons, List.not_mem_nil, or_false]
    rw [hzero (by omega), hzero (by omega)]
    omega
  rw [if_neg h₂]
  by_cases h₃ : c.toNat ≤ 0xFFFF
  · rw [if_pos h₃]
    simp only [List.mem_cons, List.not_mem_nil, or_false]
    rw [hzero (by omega), hzero (by omega), hzero (by omega)]
    omega
  · rw [if_neg h₃]
    simp only [List.mem_cons, List.not_mem_nil, or_false]
    rw [hzero (by omega), hzero (by omega), hzero (by omega), hzero (by omega)]
    omega

theorem toNat_scalar {v : Nat} (h : Scalar v) : (Char.ofNat v).toNat = v := by
  have hvalid : Nat.isValidChar v := by
    unfold Scalar at h
    unfold Nat.isValidChar
    omega
  rw [Char.ofNat, dif_pos hvalid]
  rfl

theorem zero_mem_scalars {vs : List Nat} (h : ∀ v ∈ vs, Scalar v) :
    (0 : UInt8) ∈ vs.flatMap (fun v => String.utf8EncodeChar (Char.ofNat v)) ↔ 0 ∈ vs := by
  rw [List.mem_flatMap]
  constructor
  · rintro ⟨v, hv, hmem⟩
    rw [zero_mem_utf8EncodeChar, toNat_scalar (h v hv)] at hmem
    exact hmem ▸ hv
  · intro hmem
    exact ⟨0, hmem, by decide⟩

theorem hexDigitValue_lt {c : UInt16} {d : Nat} (h : hexDigitValue c = some d) : d < 16 := by
  unfold hexDigitValue at h
  dsimp only at h
  split at h
  · cases h; omega
  · split at h
    · cases h; omega
    · split at h
      · cases h; omega
      · cases h

/-- Two digits make a byte. -/
theorem HexVal.lt {g : JsString} {v : Nat} (h : HexVal (some 2) g v) : v < 256 := by
  obtain ⟨ds, hds, rfl⟩ := h.reads
  have hlen : ds.length ≤ 2 := by
    rw [← List.length_map some, ← hds, List.length_map]
    exact h.fits 2 rfl
  have hdigits : ∀ d ∈ ds, d < 16 := by
    intro d hd
    have hmem : some d ∈ g.map hexDigitValue := hds ▸ List.mem_map_of_mem hd
    obtain ⟨c, -, hc⟩ := List.mem_map.mp hmem
    exact hexDigitValue_lt hc
  rcases ds with _ | ⟨a, _ | ⟨b, _ | ⟨c, ds⟩⟩⟩
  · decide
  · have ha := hdigits a (by simp)
    simp only [List.foldl_cons, List.foldl_nil]
    omega
  · have ha := hdigits a (by simp)
    have hb := hdigits b (by simp)
    simp only [List.foldl_cons, List.foldl_nil]
    omega
  · simp only [List.length_cons] at hlen
    omega

theorem HexVals.lt {body : JsString} {vs : List Nat} {blank : JsString → Prop}
    (h : HexVals blank (some 2) body vs) : ∀ v ∈ vs, v < 256 := by
  induction h with
  | last hval _ => exact fun v hv => List.mem_singleton.mp hv ▸ hval.lt
  | cons hval _ _ _ ih => exact List.forall_mem_cons.mpr ⟨hval.lt, ih⟩

theorem zero_mem_bytes {vs : List Nat} (h : ∀ v ∈ vs, v < 256) :
    (0 : UInt8) ∈ vs.map UInt8.ofNat ↔ 0 ∈ vs := by
  rw [List.mem_map]
  constructor
  · rintro ⟨v, hv, hzero⟩
    have hnat := congrArg UInt8.toNat hzero
    rw [toNat_byte (h v hv)] at hnat
    exact (show v = 0 from hnat) ▸ hv
  · intro hmem
    exact ⟨0, hmem, rfl⟩

theorem runOctets_none {k : Keyword} {payload : JsString}
    (h : hexRunValues k.maxDigits payload = none) : runOctets k payload = .ok none := by
  cases k with
  | hex => exact congrArg (fun o => Except.ok (Option.map _ o)) h
  | unicode =>
      rw [runOctets, unicodeRunOctets, show hexRunValues none payload = none from h]

/-- What the scan takes a payload for is what its numbers stand for. -/
theorem runOctets_some {k : Keyword} {payload : JsString} {vs : List Nat}
    (h : hexRunValues k.maxDigits payload = some vs) :
    (∃ e, runOctets k payload = .error e ∧ octetsOf k vs = .error e) ∨
      ∃ decoded, runOctets k payload = .ok (some decoded) ∧
        octetsOf k vs = if 0 ∈ decoded then .error .nul else .ok decoded := by
  cases k with
  | hex =>
      have hpayload := hexRunValues_iff.mp h
      obtain ⟨lead, rest, -, hvals, -⟩ := hpayload
      refine .inr ⟨vs.map UInt8.ofNat, congrArg (fun o => Except.ok (Option.map _ o)) h, ?_⟩
      rw [octetsOf]
      simp only [zero_mem_bytes hvals.lt]
  | unicode =>
      have hrun : runOctets .unicode payload = (scalarOctets vs).map some := by
        rw [runOctets, unicodeRunOctets, show hexRunValues none payload = some vs from h]
      rw [hrun, scalarOctets_eq, octetsOf]
      by_cases hvs : ∀ v ∈ vs, Scalar v
      · refine .inr ⟨_, by rw [if_pos hvs]; rfl, ?_⟩
        rw [if_pos hvs]
        simp only [zero_mem_scalars hvs]
      · exact .inl ⟨.nonScalar, by rw [if_neg hvs]; rfl, by rw [if_neg hvs]⟩

/-! ## Pieces -/

theorem utf8_append_plain {u : UInt16} (hhigh : isHigh u = false) (hlow : isLow u = false)
    (a b : JsString) : utf8 (a ++ u :: b) = utf8 (a ++ [u]) ++ utf8 b := by
  rw [utf8, utf8, utf8, scalars_append_plain hhigh hlow, scalars_append_plain hhigh hlow]
  simp [scalars]

theorem encodeFrom_plain {u : UInt16} (hhigh : isHigh u = false) (hlow : isLow u = false)
    (a b : JsString) (ps : List Piece) :
    encodeFrom (a ++ u :: b) ps = utf8 (a ++ [u]) ++ encodeFrom b ps := by
  induction ps generalizing b with
  | nil => exact utf8_append_plain hhigh hlow a b
  | cons p ps ih =>
      cases p with
      | literal c =>
          rw [encodeFrom, encodeFrom, List.append_assoc, List.cons_append]
          exact ih (b ++ [c])
      | octets bytes =>
          rw [encodeFrom, encodeFrom, utf8_append_plain hhigh hlow, List.append_assoc]

theorem encodeFrom_literals (a t : JsString) (ps : List Piece) :
    encodeFrom a (t.map Piece.literal ++ ps) = encodeFrom (a ++ t) ps := by
  induction t generalizing a with
  | nil => rw [List.append_nil]; rfl
  | cons c t ih =>
      rw [List.map_cons, List.cons_append, encodeFrom, ih, List.append_assoc, List.singleton_append]

theorem encode_literals (t : JsString) : encode (t.map Piece.literal) = utf8 t := by
  have h := encodeFrom_literals [] t []
  rwa [List.append_nil] at h

/-- Text up to an opener is encoded by itself. -/
theorem encode_opener (t : JsString) (ps : List Piece) :
    encode ((t ++ opener).map Piece.literal ++ ps) = utf8 (t ++ opener) ++ encode ps := by
  have hsplit : t ++ opener = (t ++ [unit '$']) ++ unit '\x7b' :: [] := by
    rw [List.append_assoc]
    rfl
  rw [encode, encodeFrom_literals, List.nil_append, hsplit,
    encodeFrom_plain (by decide) (by decide), encode]

theorem encode_octets (t : JsString) (bytes : List UInt8) (ps : List Piece) :
    encode (t.map Piece.literal ++ Piece.octets bytes :: ps) =
      utf8 t ++ (bytes ++ encode ps) := by
  rw [encode, encodeFrom_literals, List.nil_append, encodeFrom, encode]

/-! ## The scan -/

/-- The cached index, when the scan has not passed it, is the first closing brace. -/
def Cached (s : JsString) (i : Nat) (closeAt : Option Nat) : Prop :=
  ∀ c ∈ closeAt, i ≤ c → ∃ w rest, s.drop i = w ++ closer :: rest ∧ closer ∉ w ∧ i + w.length = c

theorem drop_add {s a b : JsString} {i n : Nat} (h : s.drop i = a ++ b) (hn : n = i + a.length) :
    s.drop n = b := by
  rw [hn, ← List.drop_drop, h, List.drop_left]

theorem slice_add {s a b : JsString} {i n : Nat} (h : s.drop i = a ++ b) (hn : n = i + a.length) :
    slice s i n = a := by
  rw [slice, List.drop_take, h, hn, Nat.add_sub_cancel_left, List.take_left]

theorem Cached.later {s : JsString} {i j : Nat} {closeAt : Option Nat} (h : Cached s i closeAt)
    (hij : i ≤ j) : Cached s j closeAt := by
  intro c hc hj
  obtain ⟨w, rest, hdrop, hw, rfl⟩ := h c hc (by omega)
  have hsplit : w ++ closer :: rest = w.take (j - i) ++ (w.drop (j - i) ++ closer :: rest) := by
    rw [← List.append_assoc, List.take_append_drop]
  refine ⟨w.drop (j - i), rest, ?_, fun hm => hw (List.mem_of_mem_drop hm), ?_⟩
  · refine drop_add (hdrop.trans hsplit) ?_
    rw [List.length_take]
    omega
  · rw [List.length_drop]
    omega

theorem cached_search {s v : JsString} {i : Nat} (h : s.drop i = v) :
    Cached s i ((search [closer] v).map (i + ·)) := by
  intro c hc _
  obtain ⟨n, hn, rfl⟩ := Option.map_eq_some_iff.mp (Option.mem_def.mp hc)
  obtain ⟨w, rest, hv, hw, hlen⟩ := search_unit_some hn
  exact ⟨w, rest, h.trans hv, hw, by rw [hlen]⟩

/-- The scan uses the first closing brace behind the opener, cached or not. -/
theorem closing_eq {s before v : JsString} {i : Nat} {closeAt : Option Nat}
    (hcached : Cached s i closeAt) (h : s.drop i = before ++ (opener ++ v)) :
    (if closeAt.all (· ≤ i + before.length) then indexOf s [closer] (i + before.length + 2)
      else closeAt) = (search [closer] v).map (i + before.length + 2 + ·) := by
  have hv : s.drop (i + before.length + 2) = v := by
    refine drop_add (h.trans (List.append_assoc _ _ _).symm) ?_
    rw [List.length_append, Nat.add_assoc]
    rfl
  split
  · rw [indexOf, hv]
  · next hall =>
      cases closeAt with
      | none => exact absurd rfl hall
      | some c =>
          have hlt : i + before.length < c := by
            by_contra hle
            exact hall (decide_eq_true (by omega))
          obtain ⟨w, rest, hdrop, hw, rfl⟩ := hcached c rfl (by omega)
          have htext := h.symm.trans hdrop
          have hne : w.length ≠ before.length + 1 := by
            intro hlen
            have hat := congrArg (·[before.length + 1]?) htext
            rw [List.getElem?_append_right (by omega), ← hlen,
              List.getElem?_append_right (le_refl _), hlen, Nat.add_sub_cancel_left,
              Nat.sub_self] at hat
            exact absurd (Option.some_inj.mp hat) (by decide)
          have hbehind : v = w.drop (before.length + 2) ++ closer :: rest := by
            have hdrop₂ := congrArg (List.drop (before.length + 2)) htext
            rwa [← List.append_assoc, List.drop_left' (by rw [List.length_append]; rfl),
              List.drop_append_of_le_length (by omega)] at hdrop₂
          rw [hbehind, search_unit fun hm => hw (List.mem_of_mem_drop hm), Option.map_some,
            List.length_drop]
          exact congrArg some (by omega)

theorem decodes_text {before u : JsString} {d : Except Refusal (List Piece)}
    (hnone : ∀ j < before.length, ∀ k vs after, ¬ Run Wsp ((before ++ u).drop j) k vs after)
    (hd : Decodes Wsp u d) :
    Decodes Wsp (before ++ u) (d.map (before.map Piece.literal ++ ·)) := by
  induction before with
  | nil =>
      have hmap : d.map (([] : JsString).map Piece.literal ++ ·) = d := by cases d <;> rfl
      rwa [hmap]
  | cons c before ih =>
      have hrest := ih fun j hj => hnone (j + 1) (Nat.succ_lt_succ hj)
      have hhere := Decodes.literal (hnone 0 (Nat.succ_pos _)) hrest
      have hmap : (d.map (before.map Piece.literal ++ ·)).map (Piece.literal c :: ·) =
          d.map ((c :: before).map Piece.literal ++ ·) := by cases d <;> rfl
      rwa [hmap] at hhere

theorem decodes_literals {t : JsString}
    (hnone : ∀ j, ∀ k vs after, ¬ Run Wsp (t.drop j) k vs after) :
    Decodes Wsp t (.ok (t.map Piece.literal)) := by
  have h := decodes_text (u := []) (fun j _ => by rw [List.append_nil]; exact hnone j) .done
  rwa [List.append_nil, Except.map, List.append_nil] at h

/-- No run starts before the first opener, nor at its brace. -/
theorem no_run_before {before v : JsString}
    (hfirst : ∀ j < before.length, ¬ opener <+: (before ++ (opener ++ v)).drop j) {j : Nat}
    (hj : j < before.length ∨ j = before.length + 1) (k : Keyword) (vs : List Nat)
    (after : JsString) : ¬ Run Wsp ((before ++ (opener ++ v)).drop j) k vs after := by
  intro hrun
  rcases hj with hj | rfl
  · exact hfirst j hj hrun.opens
  · have hdrop : (before ++ (opener ++ v)).drop (before.length + 1) = unit '\x7b' :: v := by
      rw [List.drop_append]
      simp [opener, units]
    have hopens := hrun.opens
    rw [hdrop] at hopens
    exact absurd (List.cons_prefix_cons.mp hopens).1 (by decide)

theorem decodes_opener {before v : JsString} {d : Except Refusal (List Piece)}
    (hfirst : ∀ j < before.length, ¬ opener <+: (before ++ (opener ++ v)).drop j)
    (hnone : ∀ k vs after, ¬ Run Wsp (opener ++ v) k vs after) (hd : Decodes Wsp v d) :
    Decodes Wsp (before ++ (opener ++ v)) (d.map ((before ++ opener).map Piece.literal ++ ·)) := by
  have h := @decodes_text (before ++ opener) v d (fun j hj => ?_) hd
  · rwa [List.append_assoc] at h
  · rw [List.append_assoc]
    rw [List.length_append] at hj
    by_cases hat : j = before.length
    · rw [hat, List.drop_left]
      exact hnone
    · refine no_run_before hfirst ?_
      have : opener.length = 2 := rfl
      omega

theorem map_encode_opener {octets : List UInt8} {t : JsString} {d : Except Refusal (List Piece)} :
    (d.map ((t ++ opener).map Piece.literal ++ ·)).map (octets ++ encode ·) =
      d.map (octets ++ utf8 (t ++ opener) ++ encode ·) := by
  cases d with
  | error e => rfl
  | ok ps =>
      refine congrArg Except.ok ?_
      dsimp only
      rw [encode_opener, List.append_assoc]

theorem map_encode_octets {octets bytes : List UInt8} {t : JsString}
    {d : Except Refusal (List Piece)} :
    ((d.map (Piece.octets bytes :: ·)).map (t.map Piece.literal ++ ·)).map (octets ++ encode ·) =
      d.map (octets ++ utf8 t ++ bytes ++ encode ·) := by
  cases d with
  | error e => rfl
  | ok ps =>
      refine congrArg Except.ok ?_
      dsimp only
      rw [encode_octets, List.append_assoc, List.append_assoc]

/-- The scan from `i` on, with any cache it can hold there, is the decoding of the text
from `i` on. -/
theorem scan_decodes {s : JsString} {fuel i : Nat} {closeAt : Option Nat} {octets : List UInt8}
    (hfuel : s.length < i + fuel) (hcached : Cached s i closeAt) :
    ∃ d, Decodes Wsp (s.drop i) d ∧
      scan s fuel i closeAt octets = d.map (octets ++ encode ·) := by
  induction fuel generalizing i closeAt octets with
  | zero =>
      rw [List.drop_of_length_le (by omega), scan]
      exact ⟨_, .done, congrArg Except.ok (List.append_nil _).symm⟩
  | succ fuel ih =>
      rw [scan]
      by_cases hend : s.length ≤ i
      · rw [if_pos hend, List.drop_of_length_le hend]
        exact ⟨_, .done, congrArg Except.ok (List.append_nil _).symm⟩
      rw [if_neg hend, indexOf]
      cases hopen : search opener (s.drop i) with
      | none =>
          have hnone := search_none (by decide) hopen
          refine ⟨_, decodes_literals fun j k vs after hrun => hnone j hrun.opens, ?_⟩
          exact congrArg (fun b => Except.ok (octets ++ b)) (encode_literals _).symm
      | some n =>
          obtain ⟨before, v, htext, rfl, hfirst⟩ := search_some hopen
          rw [htext] at hfirst ⊢
          have hassoc : s.drop i = (before ++ opener) ++ v := by rw [htext, List.append_assoc]
          have hlen : i + before.length + 2 = i + (before ++ opener).length := by
            rw [List.length_append, Nat.add_assoc]
            rfl
          have hv : s.drop (i + before.length + 2) = v := drop_add hassoc hlen
          have hslice : slice s i (i + before.length + 2) = before ++ opener :=
            slice_add hassoc hlen
          -- an opener that starts no run is text, whatever the cache is by then
          have hskip : ∀ {closeAt' : Option Nat}, Cached s (i + before.length + 2) closeAt' →
              (∀ k vs after, ¬ Run Wsp (opener ++ v) k vs after) →
              ∃ d, Decodes Wsp (before ++ (opener ++ v)) d ∧
                scan s fuel (i + before.length + 2) closeAt'
                  (octets ++ utf8 (slice s i (i + before.length + 2))) =
                    d.map (octets ++ encode ·) := by
            intro closeAt' hcached' hnone
            obtain ⟨d, hd, hscan⟩ :=
              @ih (i + before.length + 2) closeAt' (octets ++ utf8 (before ++ opener)) (by omega)
                hcached'
            rw [hv] at hd
            refine ⟨_, decodes_opener hfirst hnone hd, ?_⟩
            rw [hslice, hscan, map_encode_opener]
          simp only [Option.map_some]
          cases hkeyword : encodedKeywordAt s (i + before.length + 2) with
          | none =>
              have hnamed := @encodedKeywordAt_none _ _ hkeyword
              rw [hv] at hnamed
              refine hskip (hcached.later (by omega)) fun k vs after hrun => ?_
              obtain ⟨name, body, hrun, -⟩ := run_iff.mp hrun
              exact hnamed hrun
          | some k =>
              obtain ⟨name, after, hnamed⟩ := encodedKeywordAt_some hkeyword
              rw [hv] at hnamed
              dsimp only
              rw [closing_eq hcached htext]
              have hcached' := cached_search hv
              cases hclose : search [closer] v with
              | none =>
                  have hv' := search_unit_none hclose
                  have hnone : ∀ k vs after, ¬ Run Wsp (opener ++ v) k vs after :=
                    fun k vs after hrun => hv' hrun.closes
                  have hd : Decodes Wsp v (.ok (v.map Piece.literal)) :=
                    decodes_literals fun j k vs after hrun =>
                      hv' (List.mem_of_mem_drop (List.mem_of_mem_drop hrun.closes))
                  refine ⟨_, decodes_opener hfirst hnone hd, ?_⟩
                  rw [map_encode_opener]
                  refine congrArg Except.ok ?_
                  dsimp only
                  rw [List.append_assoc octets, ← encode_opener, ← List.map_append, encode_literals,
                    List.append_assoc]
              | some m =>
                  rw [hclose] at hcached'
                  obtain ⟨w, rest, hw, hcloser, rfl⟩ := search_unit_some hclose
                  obtain ⟨payload, rfl, rfl, hpayload⟩ := hnamed.closes hw hcloser
                  have hbody : s.drop (i + before.length + 2 + k.word.length + 1) =
                      payload ++ closer :: rest := by
                    refine drop_add (a := name ++ [unit ':']) (hv.trans ?_) ?_
                    · rw [hnamed.1, List.append_assoc]
                      rfl
                    · rw [List.length_append, hnamed.length]
                      rfl
                  have hclosed : i + before.length + 2 + (name ++ unit ':' :: payload).length =
                      i + before.length + 2 + k.word.length + 1 + payload.length := by
                    rw [List.length_append, List.length_cons, hnamed.length]
                    omega
                  have hrest : s.drop (i + before.length + 2 +
                      (name ++ unit ':' :: payload).length + 1) = rest := by
                    refine drop_add (a := payload ++ [closer]) (hbody.trans ?_) ?_
                    · rw [List.append_assoc]
                      rfl
                    · rw [hclosed, List.length_append]
                      rfl
                  have hslice' : slice s (i + before.length + 2 + k.word.length + 1)
                      (i + before.length + 2 + (name ++ unit ':' :: payload).length) = payload :=
                    slice_add hbody hclosed
                  rw [Option.map_some]
                  dsimp only
                  rw [hslice']
                  cases hvalues : hexRunValues k.maxDigits payload with
                  | none =>
                      rw [runOctets_none hvalues]
                      refine hskip hcached' fun k' vs after hrun => ?_
                      obtain ⟨name', body, hnamed', hvs⟩ := run_iff.mp hrun
                      obtain ⟨rfl, -, hafter⟩ := hnamed.unique hnamed'
                      obtain ⟨rfl, -⟩ := split_unique hafter hpayload
                        (hexRunValues_iff.mp hvs).closer_not_mem
                      rw [hvalues] at hvs
                      cases hvs
                  | some vs =>
                      have hrun : Run Wsp (opener ++ v) k vs rest :=
                        run_iff.mpr ⟨name, payload, hnamed, hvalues⟩
                      have hbefore : ∀ {d}, Decodes Wsp (opener ++ v) d →
                          Decodes Wsp (before ++ (opener ++ v))
                            (d.map (before.map Piece.literal ++ ·)) :=
                        decodes_text fun j hj k vs after =>
                          no_run_before hfirst (.inl hj) k vs after
                      rcases runOctets_some hvalues with
                        ⟨e, hraw, hoctets⟩ | ⟨bytes, hraw, hoctets⟩
                      · rw [hraw]
                        exact ⟨_, hbefore (.refused hrun hoctets), rfl⟩
                      · rw [hraw]
                        dsimp only
                        by_cases hzero : 0 ∈ bytes
                        · rw [if_pos hzero] at hoctets ⊢
                          exact ⟨_, hbefore (.refused hrun hoctets), rfl⟩
                        · rw [if_neg hzero] at hoctets ⊢
                          obtain ⟨d, hd, hscan⟩ :=
                            @ih (i + before.length + 2 + (name ++ unit ':' :: payload).length + 1)
                              (some (i + before.length + 2 + (name ++ unit ':' :: payload).length))
                              (octets ++ utf8 (slice s i (i + before.length)) ++ bytes) (by omega)
                              (fun c hc hle => absurd (Option.some_inj.mp hc) (by omega))
                          rw [hrest] at hd
                          refine ⟨_, hbefore (.run hrun hoctets hd), ?_⟩
                          rw [hscan, slice_add htext rfl, map_encode_octets]

theorem textOf_encode (ps : List Piece) : textOf (encode ps) = readBack ps := by
  rw [textOf, readBack]
  cases hdecoded : decodeUtf8 (encode ps) with
  | some cs =>
      have hbytes : utf8 (ofScalars cs) = encode ps := by
        rw [utf8, scalars_ofScalars, encode_of_decodeUtf8 hdecoded]
      have htext : utf8Text (encode ps) = ofScalars cs := by
        rw [← hbytes, utf8Text_of_wellFormed (wellFormed_ofScalars cs)]
      simp only [htext, hbytes, if_true]
  | none =>
      refine if_neg fun hbytes => ?_
      rw [← hbytes, decodeUtf8_utf8] at hdecoded
      cases hdecoded

theorem indexOf_opener {s : JsString} : indexOf s opener 0 = none ↔ ¬ opener <:+: s := by
  rw [indexOf, List.drop_zero, Option.map_eq_none_iff]
  constructor
  · rintro hnone ⟨a, b, rfl⟩
    refine search_none (by decide) hnone a.length ?_
    rw [List.append_assoc, List.drop_left]
    exact List.prefix_append _ _
  · intro hnone
    cases hsearch : search opener s with
    | none => rfl
    | some n =>
        obtain ⟨a, b, rfl, -, -⟩ := search_some hsearch
        exact absurd ⟨a, b, List.append_assoc _ _ _⟩ hnone

/-- `_decodeEncodedCharacters` is the decoding of its string, by the grammar whose blanks
are spaces and tabs. -/
theorem decoding_iff (s : JsString) (r : Except Refusal JsString) :
    Decoding Wsp s r ↔ decodeEncodedCharacters s = r := by
  obtain ⟨d, hd, hscan⟩ :=
    @scan_decodes s (s.length + 1) 0 none [] (by omega) (fun c hc => by cases hc)
  have hcode : (scan s (s.length + 1) 0 none []).bind textOf = d.bind readBack := by
    rw [hscan]
    cases d with
    | error e => rfl
    | ok ps => exact textOf_encode ps
  rw [decodeEncodedCharacters, hcode]
  constructor
  · rintro (hplain | ⟨hopens, hd'⟩)
    · exact if_pos (indexOf_opener.mpr hplain)
    · rw [if_neg fun h => indexOf_opener.mp h hopens, hd.unique hd']
  · rintro rfl
    by_cases hopens : opener <:+: s
    · rw [if_neg fun h => indexOf_opener.mp h hopens]
      exact .decoded hopens hd
    · rw [if_pos (indexOf_opener.mpr hopens)]
      exact .plain hopens

/-- A run with a line break between its octets, which the code leaves as it is. -/
theorem crlf_not_blank :
    ¬ ∀ r, Decoding WspOrCrlf (units "$\x7bhex:41\r\n42\x7d") r ↔
      decodeEncodedCharacters (units "$\x7bhex:41\r\n42\x7d") = r := by
  intro h
  have hfirst : HexVal (some 2) (units "41") 0x41 := ⟨by decide, by decide, [4, 1], rfl, rfl⟩
  have hsecond : HexVal (some 2) (units "42") 0x42 := ⟨by decide, by decide, [4, 2], rfl, rfl⟩
  have hblanks : Blanks WspOrCrlf (units "\r\n") :=
    ⟨[units "\r\n"], fun t ht => List.mem_singleton.mp ht ▸ .inr rfl, rfl⟩
  have hvals : HexVals WspOrCrlf (some 2) (units "41" ++ (units "\r\n" ++ (units "42" ++ [])))
      [0x41, 0x42] := .cons hfirst hblanks (by decide) (.last hsecond ⟨[], by simp, rfl⟩)
  have hrun : Run WspOrCrlf (units "$\x7bhex:41\r\n42\x7d") .hex [0x41, 0x42] [] :=
    ⟨units "hex", _, rfl, rfl, [], _, ⟨[], by simp, rfl⟩, hvals, rfl⟩
  have hdecoding : Decoding WspOrCrlf (units "$\x7bhex:41\r\n42\x7d") (.ok (units "AB")) := by
    have hd := Decoding.decoded ⟨[], units "hex:41\r\n42\x7d", rfl⟩ (.run hrun rfl .done)
    have hbytes : encode [Piece.octets ([0x41, 0x42].map UInt8.ofNat)] = utf8 (units "AB") := rfl
    rwa [Except.map, Except.bind, readBack, hbytes, decodeUtf8_utf8] at hd
  exact absurd ((h _).mp hdecoding) (by decide)

end Blamejs.EncodedCharacter
