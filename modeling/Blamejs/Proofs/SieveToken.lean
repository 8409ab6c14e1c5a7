import Blamejs.Lib.Checked
import Blamejs.Ref.SieveToken

/-!
# Multi-line strings are read back

The writer puts a dot in front of each line that begins with one and ends the string by a
line with a single dot. Behind the first line every one of those dots stands behind a line
end, where the tokenizer looks for it. The end of an empty string is not found: it is
sought with a line end in front, and there is no line to give one.
-/

namespace Blamejs.SieveToken

open Blamejs.Js Checked

variable {caps : Caps} {pos pos' : Pos} {s rest rest' : JsString}

/-! ## Every turn takes a character -/

theorem fail_ne_ok {α : Type} {msg : JsString} {a : α} : fail msg pos ≠ .ok a := by
  intro h
  cases h

theorem multiLine_length {raw : JsString} (h : multiLine s = some (raw, rest)) :
    rest.length ≤ s.length := by
  induction s generalizing raw with
  | nil => cases h
  | cons c s ih =>
      rw [multiLine] at h
      split at h
      · cases h
        rw [List.length_drop]
        omega
      · obtain ⟨r, hr, heq⟩ := Option.map_eq_some_iff.mp h
        cases heq
        exact Nat.le_succ_of_le (ih hr)

theorem blockComment_length {comment : JsString} (h : blockComment s = some (comment, rest)) :
    rest.length ≤ s.length := by
  induction s generalizing comment with
  | nil => cases h
  | cons c s ih =>
      rw [blockComment] at h
      split at h
      · cases h
        rw [List.length_tail, List.length_cons]
        omega
      · obtain ⟨r, hr, heq⟩ := Option.map_eq_some_iff.mp h
        cases heq
        exact Nat.le_succ_of_le (ih hr)

theorem textLiteral_length {token : Token} (h : textLiteral caps pos s = .ok (token, rest)) :
    rest.length ≤ s.length := by
  rw [textLiteral] at h
  dsimp only at h
  split at h
  · exact absurd h fail_ne_ok
  cases hbody : multiLine ((s.drop (textComment s).length).drop 2) with
  | none =>
      rw [hbody] at h
      exact absurd h fail_ne_ok
  | some found =>
      obtain ⟨raw, after⟩ := found
      have hlen := multiLine_length hbody
      rw [List.length_drop, List.length_drop] at hlen
      rw [hbody] at h
      dsimp only at h
      split at h
      · exact absurd h fail_ne_ok
      · cases h
        omega

theorem quoted_length {out : JsString} {token : Token}
    (h : quoted caps s out pos = .ok (token, rest)) : rest.length ≤ s.length := by
  fun_induction quoted caps s out pos with
  | case1 => exact absurd h fail_ne_ok
  | case2 => exact absurd h fail_ne_ok
  | case3 =>
      cases h
      simp
  | case4 => exact absurd h fail_ne_ok
  | case5 _ _ _ _ _ _ ih =>
      have := ih h
      simp only [List.length_cons]
      omega
  | case6 => exact absurd h fail_ne_ok
  | case7 _ _ _ _ _ _ _ _ ih =>
      have := ih h
      simp only [List.length_cons]
      omega

theorem length_drop_takeWhile {p : UInt16 → Bool} {c : UInt16} (hc : p c = true) :
    ((c :: s).drop ((c :: s).takeWhile p).length).length ≤ s.length := by
  rw [List.takeWhile_cons, if_pos hc, List.length_cons, List.drop_succ_cons, List.length_drop]
  omega

theorem number_length {c : UInt16} (hc : isDigitUnit c = true) {token : Token}
    (h : number pos (c :: s) = .ok (token, rest)) : rest.length ≤ s.length := by
  rw [number] at h
  split at h
  · exact absurd h fail_ne_ok
  · cases h
    have hsub : (s.dropWhile isDigitUnit).length ≤ s.length :=
      (List.dropWhile_sublist _).length_le
    rw [List.dropWhile_cons, if_pos hc, List.length_drop]
    omega

theorem scanToken_length {c : UInt16} {token : Option Token}
    (h : scanToken caps pos c rest = .ok (token, pos', rest')) : rest'.length ≤ rest.length := by
  rw [scanToken] at h
  cases hpunct : punctuation c with
  | some k =>
      rw [hpunct] at h
      cases h
      exact Nat.le_refl _
  | none =>
      rw [hpunct] at h
      dsimp only at h
      by_cases hcolon : c = unit ':'
      · rw [if_pos hcolon] at h
        by_cases hstart : rest.head?.any isIdStart = false
        · rw [if_pos hstart] at h
          exact absurd h fail_ne_ok
        · rw [if_neg hstart] at h
          cases h
          rw [List.length_drop]
          omega
      rw [if_neg hcolon] at h
      by_cases hdigit : isDigitUnit c = true
      · rw [if_pos hdigit] at h
        obtain ⟨⟨token', after⟩, hread, heq⟩ := map_eq_ok.mp h
        cases heq
        exact number_length hdigit hread
      rw [if_neg hdigit] at h
      by_cases hid : isIdStart c = true
      · have hcont : isIdCont c = true := by rw [isIdCont, hid]; rfl
        have hlen := @length_drop_takeWhile rest _ _ hcont
        rw [if_pos hid] at h
        by_cases htext : (c :: rest).takeWhile isIdCont = units "text" ∧
            ((c :: rest).drop ((c :: rest).takeWhile isIdCont).length).head? = some (unit ':')
        · rw [if_pos htext] at h
          obtain ⟨⟨token', after⟩, hread, heq⟩ := map_eq_ok.mp h
          cases heq
          have hlen' := textLiteral_length hread
          rw [List.length_tail] at hlen'
          exact Nat.le_trans hlen' (Nat.le_trans (Nat.sub_le _ _) hlen)
        · rw [if_neg htext] at h
          cases h
          exact hlen
      rw [if_neg hid] at h
      by_cases hquote : c = unit '"'
      · rw [if_pos hquote] at h
        obtain ⟨⟨token', after⟩, hread, heq⟩ := map_eq_ok.mp h
        cases heq
        exact quoted_length hread
      · rw [if_neg hquote] at h
        exact absurd h fail_ne_ok

theorem next_length {c : UInt16} {token : Option Token}
    (h : next caps pos c rest = .ok (token, pos', rest')) : rest'.length ≤ rest.length := by
  rw [next] at h
  by_cases hblank : c = 0x20 ∨ c = 0x09
  · rw [if_pos hblank] at h
    cases h
    exact Nat.le_refl _
  rw [if_neg hblank] at h
  by_cases hcr : c = cr
  · rw [if_pos hcr] at h
    by_cases hlf : rest.head? = some lf
    · rw [if_pos hlf] at h
      cases h
      rw [List.length_tail]
      omega
    · rw [if_neg hlf] at h
      exact absurd h fail_ne_ok
  rw [if_neg hcr] at h
  by_cases hlf : c = lf
  · rw [if_pos hlf] at h
    cases h
    exact Nat.le_refl _
  rw [if_neg hlf] at h
  by_cases hcontrol : c.toNat < 0x20
  · rw [if_pos hcontrol] at h
    exact absurd h fail_ne_ok
  rw [if_neg hcontrol] at h
  by_cases hdel : c = 0x7F
  · rw [if_pos hdel] at h
    exact absurd h fail_ne_ok
  rw [if_neg hdel] at h
  by_cases hhash : c = unit '#'
  · rw [if_pos hhash] at h
    cases h
    exact length_drop_takeWhile (by rw [hhash]; decide)
  rw [if_neg hhash] at h
  by_cases hopen : c = unit '/' ∧ rest.head? = some (unit '*')
  · rw [if_pos hopen] at h
    cases hcomment : blockComment rest.tail with
    | none =>
        rw [hcomment] at h
        exact absurd h fail_ne_ok
    | some found =>
        obtain ⟨comment, after⟩ := found
        rw [hcomment] at h
        cases h
        have hlen := blockComment_length hcomment
        rw [List.length_tail] at hlen
        omega
  · rw [if_neg hopen] at h
    exact scanToken_length h

/-- Any fuel above the length of the text gives the same tokens. -/
theorem loop_fuel {f₁ f₂ : Nat} (h₁ : s.length < f₁) (h₂ : s.length < f₂) :
    loop caps f₁ pos s = loop caps f₂ pos s := by
  induction f₁ generalizing f₂ pos s with
  | zero => exact absurd h₁ (Nat.not_lt_zero _)
  | succ f₁ ih =>
      cases f₂ with
      | zero => exact absurd h₂ (Nat.not_lt_zero _)
      | succ f₂ =>
          cases s with
          | nil => rfl
          | cons c s =>
              rw [List.length_cons] at h₁ h₂
              rw [loop, loop]
              cases hnext : next caps pos c s with
              | error e => rfl
              | ok turn =>
                  obtain ⟨token, pos', rest⟩ := turn
                  have hlen := next_length hnext
                  have heq : loop caps f₁ pos' rest = loop caps f₂ pos' rest :=
                    ih (by omega) (by omega)
                  show (loop caps f₁ pos' rest >>= _) = (loop caps f₂ pos' rest >>= _)
                  rw [heq]

/-- A turn of the loop, and the tokens of what it leaves. -/
theorem tokenizeFrom_next {c : UInt16} {token : Option Token}
    (h : next caps pos c rest = .ok (token, pos', rest')) :
    tokenizeFrom caps pos (c :: rest) =
      (tokenizeFrom caps pos' rest').map (token.toList ++ ·) := by
  have hlen := next_length h
  rw [tokenizeFrom, loop, h]
  show (loop caps _ pos' rest' >>= _) = _
  rw [tokenizeFrom, @loop_fuel _ _ _ _ (rest'.length + 1) (by simp; omega) (by omega)]
  rfl

theorem tokenizeFrom_error {c : UInt16} {e : JsString} (h : next caps pos c rest = .error e) :
    tokenizeFrom caps pos (c :: rest) = .error e := by
  rw [tokenizeFrom, loop, h]
  rfl

/-! ## Writing a multi-line string -/

/-- A line: a text without CR and LF. -/
structure Line where
  text : JsString
  noCr : cr ∉ text
  noLf : lf ∉ text

/-- A line as it is written. -/
def stuff (l : JsString) : JsString := if l.head? = some (unit '.') then unit '.' :: l else l

/-- The multi-line string of a list of lines. -/
def literal (lines : List Line) : JsString :=
  units "text:" ++ crlf ++ lines.flatMap (fun l => stuff l.text ++ crlf) ++ units "." ++ crlf

/-- The lines joined by line ends. -/
def content (lines : List Line) : JsString := crlf.intercalate (lines.map (·.text))

/-- The lines behind the first one, each behind its line end. -/
def tailLines (write : JsString → JsString) (lines : List Line) : JsString :=
  lines.flatMap fun l => crlf ++ write l.text

theorem content_cons (l : Line) (lines : List Line) :
    content (l :: lines) = l.text ++ tailLines id lines := by
  induction lines generalizing l with
  | nil => simp [content, tailLines]
  | cons l' lines ih =>
      rw [content, List.map_cons, List.map_cons, List.intercalate_cons_cons, ← List.map_cons,
        ← content, ih l']
      simp [tailLines]

theorem literal_cons (l : Line) (lines : List Line) :
    literal (l :: lines) =
      units "text:" ++ crlf ++ (stuff l.text ++ tailLines stuff lines) ++ terminator := by
  have hshift : ∀ ls : List Line, crlf ++ ls.flatMap (fun l => stuff l.text ++ crlf) =
      tailLines stuff ls ++ crlf := by
    intro ls
    induction ls with
    | nil => rfl
    | cons l' ls ih =>
        rw [List.flatMap_cons, tailLines, List.flatMap_cons, ← tailLines, List.append_assoc,
          List.append_assoc, ← ih, List.append_assoc]
  rw [literal, List.flatMap_cons, List.append_assoc (stuff l.text), hshift, terminator]
  simp only [List.append_assoc]

/-! ## Finding its end -/

theorem not_terminator {c : UInt16} (hc : c ≠ cr) : terminator.isPrefixOf (c :: s) = false := by
  rw [terminator, crlf, List.cons_append, List.cons_append, List.isPrefixOf_cons_cons,
    beq_false_of_ne hc.symm]
  rfl

theorem multiLine_plain {l t : JsString} (hl : cr ∉ l) :
    multiLine (l ++ t) = (multiLine t).map fun r => (l ++ r.1, r.2) := by
  induction l with
  | nil => simp
  | cons c l ih =>
      have hc : c ≠ cr := fun h => hl (h ▸ List.mem_cons_self)
      rw [List.cons_append, multiLine, if_neg (by rw [not_terminator hc]; decide),
        ih fun h => hl (List.mem_cons_of_mem _ h), Option.map_map]
      rfl

theorem cr_not_mem_stuff {l : JsString} (hl : cr ∉ l) : cr ∉ stuff l := by
  rw [stuff]
  split
  · rw [List.mem_cons, not_or]
    exact ⟨by decide, hl⟩
  · exact hl

/-- Behind a line end a written line is not the terminating one. -/
theorem terminator_stuff {l t : JsString} (ht : t.head? = some cr) :
    terminator.isPrefixOf (crlf ++ stuff l ++ t) = false := by
  obtain ⟨t, rfl⟩ := List.head?_eq_some_iff.mp ht
  rw [stuff]
  split
  next hdot =>
    obtain ⟨l, rfl⟩ := List.head?_eq_some_iff.mp hdot
    simp [terminator, crlf, units, List.isPrefixOf, cr, unit]
  next hdot =>
    cases l with
    | nil => simp [terminator, crlf, units, List.isPrefixOf, cr, unit]
    | cons c l =>
        rw [List.head?_cons, Option.some.injEq] at hdot
        simp [terminator, crlf, units, List.isPrefixOf, Ne.symm hdot]

theorem multiLine_line {l t : JsString} (hl : cr ∉ l) (ht : t.head? = some cr) :
    multiLine (crlf ++ stuff l ++ t) =
      (multiLine t).map fun r => (crlf ++ stuff l ++ r.1, r.2) := by
  have hstart := terminator_stuff (l := l) ht
  rw [crlf, List.cons_append, List.cons_append] at hstart ⊢
  rw [multiLine, if_neg (by rw [hstart]; decide), List.singleton_append, List.cons_append,
    multiLine, if_neg (by rw [not_terminator (by decide)]; decide),
    multiLine_plain (cr_not_mem_stuff hl), Option.map_map, Option.map_map]
  rfl

theorem head_tailLines (lines : List Line) (write : JsString → JsString) :
    (tailLines write lines ++ terminator ++ rest).head? = some cr := by
  cases lines with
  | nil => rfl
  | cons l lines => rfl

/-- The search stops at the terminating line and not before. -/
theorem multiLine_tail (lines : List Line) :
    multiLine (tailLines stuff lines ++ terminator ++ rest) =
      some (tailLines stuff lines, rest) := by
  induction lines with
  | nil =>
      have hfound : terminator.isPrefixOf (terminator ++ rest) = true :=
        List.isPrefixOf_iff_prefix.mpr (List.prefix_append _ _)
      show multiLine (cr :: ([lf] ++ units "." ++ crlf ++ rest)) = _
      rw [multiLine]
      exact if_pos hfound
  | cons l lines ih =>
      have hcons : tailLines stuff (l :: lines) =
          crlf ++ stuff l.text ++ tailLines stuff lines := by
        simp [tailLines]
      rw [hcons, List.append_assoc, List.append_assoc, ← List.append_assoc (tailLines stuff lines),
        multiLine_line l.noCr (head_tailLines lines stuff), ih]
      rfl

/-! ## Taking the dots back -/

theorem unstuff_skip {c : UInt16} {t : JsString}
    (h : (crlf ++ units "..").isPrefixOf (c :: t) = false) :
    unstuff (c :: t) = c :: unstuff t := by
  match t with
  | [] => rfl
  | [_] => rfl
  | [_, _] => rfl
  | a :: b :: d :: t =>
      rw [unstuff, if_neg]
      intro heq
      have hsplit : c :: a :: b :: d :: t = [c, a, b, d] ++ t := rfl
      rw [hsplit, heq, List.isPrefixOf_iff_prefix.mpr (List.prefix_append _ _)] at h
      exact absurd h (by decide)

theorem not_stuffed {c : UInt16} {t : JsString} (hc : c ≠ cr) :
    (crlf ++ units "..").isPrefixOf (c :: t) = false := by
  rw [crlf, List.cons_append, List.isPrefixOf_cons_cons, beq_false_of_ne hc.symm]
  rfl

theorem unstuff_plain {l t : JsString} (hl : cr ∉ l) : unstuff (l ++ t) = l ++ unstuff t := by
  induction l with
  | nil => rfl
  | cons c l ih =>
      have hc : c ≠ cr := fun h => hl (h ▸ List.mem_cons_self)
      rw [List.cons_append, unstuff_skip (not_stuffed hc),
        ih fun h => hl (List.mem_cons_of_mem _ h), List.cons_append]

/-- What follows a line begins with its end. -/
def AtLineEnd (t : JsString) : Prop := t = [] ∨ t.head? = some cr

theorem unstuff_line {l t : JsString} (hl : cr ∉ l) (ht : AtLineEnd t) :
    unstuff (crlf ++ stuff l ++ t) = crlf ++ l ++ unstuff t := by
  by_cases hdot : l.head? = some (unit '.')
  · obtain ⟨l, rfl⟩ := List.head?_eq_some_iff.mp hdot
    rw [stuff, if_pos hdot]
    show unstuff (cr :: lf :: unit '.' :: unit '.' :: (l ++ t)) = _
    rw [unstuff, if_pos (by decide), unstuff_plain fun h => hl (List.mem_cons_of_mem _ h)]
    simp [units]
  · have hno : (crlf ++ units "..").isPrefixOf (cr :: lf :: (l ++ t)) = false := by
      cases l with
      | nil =>
          obtain rfl | ht := ht
          · rfl
          · obtain ⟨t, rfl⟩ := List.head?_eq_some_iff.mp ht
            rfl
      | cons c l =>
          rw [List.head?_cons, Option.some.injEq] at hdot
          simp [crlf, units, List.isPrefixOf, Ne.symm hdot]
    rw [stuff, if_neg hdot]
    show unstuff (cr :: lf :: (l ++ t)) = _
    rw [unstuff_skip hno, unstuff_skip (not_stuffed (by decide)), unstuff_plain hl]
    rfl

theorem atLineEnd_tailLines (lines : List Line) (write : JsString → JsString) :
    AtLineEnd (tailLines write lines) := by
  cases lines with
  | nil => exact .inl rfl
  | cons l lines => exact .inr rfl

theorem unstuff_tailLines (lines : List Line) :
    unstuff (tailLines stuff lines) = tailLines id lines := by
  induction lines with
  | nil => rfl
  | cons l lines ih =>
      have hcons : ∀ write : JsString → JsString, tailLines write (l :: lines) =
          crlf ++ write l.text ++ tailLines write lines := fun write => by simp [tailLines]
      rw [hcons, hcons, unstuff_line l.noCr (atLineEnd_tailLines lines stuff), ih]
      rfl

/-- The dots are taken back, the first line's by the special case. -/
theorem multiLineBody_lines (l : Line) (lines : List Line) :
    multiLineBody (stuff l.text ++ tailLines stuff lines) = content (l :: lines) := by
  have hread : unstuff (stuff l.text ++ tailLines stuff lines) =
      stuff l.text ++ tailLines id lines := by
    rw [unstuff_plain (cr_not_mem_stuff l.noCr), unstuff_tailLines]
  rw [multiLineBody, hread, content_cons, stuff]
  by_cases hdot : l.text.head? = some (unit '.')
  · obtain ⟨t, ht⟩ := List.head?_eq_some_iff.mp hdot
    rw [if_pos hdot, ht]
    rfl
  · have hno : (units "..").isPrefixOf (l.text ++ tailLines id lines) = false := by
      cases htext : l.text with
      | nil =>
          cases lines with
          | nil => rfl
          | cons l' lines => rfl
      | cons c t =>
          rw [htext, List.head?_cons, Option.some.injEq] at hdot
          simp [units, List.isPrefixOf, Ne.symm hdot]
    rw [if_neg hdot, hno]
    rfl

/-! ## Reading the string -/

theorem textLiteral_lines (l : Line) (lines : List Line) : ∃ pos',
    textLiteral caps pos (crlf ++ (stuff l.text ++ tailLines stuff lines) ++ terminator ++ rest) =
      if (utf8 (content (l :: lines))).length > caps.maxStringBytes then
        fail (tooLong "multi-line string " (content (l :: lines)) caps) pos'
      else .ok (⟨.str (content (l :: lines)), pos'⟩, rest) := by
  have hfound : multiLine (stuff l.text ++ (tailLines stuff lines ++ terminator ++ rest)) =
      some (stuff l.text ++ tailLines stuff lines, rest) := by
    rw [multiLine_plain (cr_not_mem_stuff l.noCr), multiLine_tail]
    rfl
  have hbody : (crlf ++ (stuff l.text ++ tailLines stuff lines) ++ terminator ++ rest).drop 2 =
      stuff l.text ++ (tailLines stuff lines ++ terminator ++ rest) := by
    simp [crlf]
  have hcomment :
      textComment (crlf ++ (stuff l.text ++ tailLines stuff lines) ++ terminator ++ rest) = [] := by
    rw [textComment, if_neg]
    simp [crlf, cr, unit]
  refine ⟨⟨pos.line + 1 + (stuff l.text ++ tailLines stuff lines).count lf + 1, 1⟩, ?_⟩
  have hcrlf : ¬ crlf.isPrefixOf (crlf ++ (stuff l.text ++ tailLines stuff lines) ++
      terminator ++ rest) = false := by
    simp [crlf, List.isPrefixOf]
  rw [textLiteral, hcomment]
  refine (if_neg hcrlf).trans ?_
  rw [List.length_nil, List.drop_zero]
  dsimp only
  rw [hbody, hfound]
  dsimp only
  rw [multiLineBody_lines]
  rfl

theorem next_text (h : rest.head? = some cr) :
    next caps pos (unit 't') (units "ext:" ++ rest) =
      (textLiteral caps ⟨pos.line, pos.col + 5⟩ rest).map Turn.token := by
  obtain ⟨rest, rfl⟩ := List.head?_eq_some_iff.mp h
  have hid : (unit 't' :: (units "ext:" ++ cr :: rest)).takeWhile isIdCont = units "text" := rfl
  rw [next, if_neg (by decide), if_neg (by decide), if_neg (by decide), if_neg (by decide),
    if_neg (by decide), if_neg (by decide), if_neg (fun h => absurd h.1 (by decide)), scanToken,
    show punctuation (unit 't') = none from by decide]
  dsimp only
  rw [if_neg (by decide), if_neg (by decide), if_pos (by decide), hid, if_pos ⟨rfl, rfl⟩]
  rfl

/-- The tokenizer reads a multi-line string as its lines and goes on behind it, or refuses it
for its length. -/
def ReadsBack (lines : List Line) : Prop :=
  ∀ caps pos rest, ∃ pos',
    ((utf8 (content lines)).length ≤ caps.maxStringBytes →
      tokenizeFrom caps pos (literal lines ++ rest) =
        (tokenizeFrom caps pos' rest).map (⟨.str (content lines), pos'⟩ :: ·)) ∧
    (caps.maxStringBytes < (utf8 (content lines)).length →
      tokenizeFrom caps pos (literal lines ++ rest) =
        fail (tooLong "multi-line string " (content lines) caps) pos')

theorem readsBack_cons (l : Line) (lines : List Line) : ReadsBack (l :: lines) := by
  intro caps pos rest
  obtain ⟨pos', htext⟩ := @textLiteral_lines caps ⟨pos.line, pos.col + 5⟩ rest l lines
  have hnext := @next_text caps pos
    (crlf ++ (stuff l.text ++ tailLines stuff lines) ++ terminator ++ rest) rfl
  have hstart : literal (l :: lines) ++ rest = unit 't' :: (units "ext:" ++
      (crlf ++ (stuff l.text ++ tailLines stuff lines) ++ terminator ++ rest)) := by
    rw [literal_cons]
    simp [units]
  rw [htext] at hnext
  refine ⟨pos', fun hfits => ?_, fun hlong => ?_⟩
  · rw [if_neg (by omega)] at hnext
    rw [hstart, tokenizeFrom_next hnext]
    rfl
  · rw [if_pos hlong] at hnext
    rw [hstart, tokenizeFrom_error hnext]
    rfl

/-- The string of no lines is not read: its first line end is spent before the search. -/
theorem not_readsBack_nil : ¬ ReadsBack [] := by
  intro h
  obtain ⟨pos', hread, -⟩ := h ⟨4096⟩ ⟨1, 1⟩ []
  have hfail : (tokenizeFrom ⟨4096⟩ ⟨1, 1⟩ (literal [] ++ [])).toOption = none := by
    decide
  rw [hread (by decide)] at hfail
  cases hfail

/-- Exactly the empty list of lines is not read back. -/
theorem readsBack_iff (lines : List Line) : ReadsBack lines ↔ lines ≠ [] := by
  cases lines with
  | nil => exact iff_of_false not_readsBack_nil (fun h => h rfl)
  | cons l lines => exact iff_of_true (readsBack_cons l lines) (List.cons_ne_nil _ _)

end Blamejs.SieveToken
