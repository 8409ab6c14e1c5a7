import Blamejs.Ref.SqlScan

/-!
# Where the SQL scanners agree

Up to the first backtick outside quoted spans and comments all four cut a string into the
same pieces. There `countPlaceholders` goes on in the code, and the others are inside a
quoted name.
-/

namespace Blamejs.SqlScan

open Blamejs.Js

/-! ## Pieces -/

/-- A character, or a span with its delimiters. -/
inductive Piece where
  | code (c : UInt16)
  | quoted (text : JsString) (closed : Bool)
  | line (text : JsString)
  | block (text : JsString)
  deriving DecidableEq, Repr

def Piece.text : Piece → JsString
  | .code c => [c]
  | .quoted text _ => text
  | .line text => text
  | .block text => text

/-- One turn of a walk that takes the characters of `quotes` for quotes. -/
def piece (quotes : UInt16 → Bool) (c : UInt16) (rest : JsString) : Piece × JsString :=
  if quotes c then
    let r := quotedEnd c rest
    (.quoted (c :: r.1) r.2.1, r.2.2)
  else if lineBegins c rest then
    (.line (c :: rest.takeWhile (· != newline)), rest.dropWhile (· != newline))
  else if blockBegins c rest then
    let r := blockEnd rest.tail
    (.block (c :: unit '*' :: r.1), r.2)
  else (.code c, rest)

def piecesFrom (quotes : UInt16 → Bool) : Nat → JsString → List Piece
  | 0, _ => []
  | _ + 1, [] => []
  | fuel + 1, c :: rest =>
      (piece quotes c rest).1 :: piecesFrom quotes fuel (piece quotes c rest).2

def pieces (quotes : UInt16 → Bool) (sql : JsString) : List Piece :=
  piecesFrom quotes sql.length sql

/-! ## The pieces are the string -/

variable {quotes : UInt16 → Bool} {c : UInt16} {s rest : JsString}

theorem head?_of_blockBegins (h : blockBegins c rest = true) : rest.head? = some (unit '*') := by
  rw [blockBegins, Bool.and_eq_true] at h
  exact eq_of_beq h.2

theorem quotedEnd_text (quote : UInt16) (s : JsString) :
    (quotedEnd quote s).1 ++ (quotedEnd quote s).2.2 = s := by
  fun_induction quotedEnd quote s with
  | case1 => rfl
  | case2 => rfl
  | case3 rest' _ ih => simpa using ih
  | case4 => rfl
  | case5 c rest _ _ ih => simpa using ih

theorem blockEnd_text (s : JsString) : (blockEnd s).1 ++ (blockEnd s).2 = s := by
  fun_induction blockEnd s with
  | case1 => rfl
  | case2 c rest h =>
      obtain ⟨t, ht⟩ := List.head?_eq_some_iff.mp h.2
      rw [ht]
      rfl
  | case3 c rest _ _ ih => simpa using ih

theorem piece_text : (piece quotes c rest).1.text ++ (piece quotes c rest).2 = c :: rest := by
  rw [piece]
  split
  · simp [Piece.text, quotedEnd_text]
  split
  · simp [Piece.text, List.takeWhile_append_dropWhile]
  split
  next h =>
    obtain ⟨t, ht⟩ := List.head?_eq_some_iff.mp (head?_of_blockBegins h)
    simp [Piece.text, blockEnd_text, ht]
  · rfl

theorem piece_text_ne_nil : (piece quotes c rest).1.text ≠ [] := by
  rw [piece]
  split
  · simp [Piece.text]
  split
  · simp [Piece.text]
  split
  · simp [Piece.text]
  · simp [Piece.text]

theorem piece_length : (piece quotes c rest).2.length ≤ rest.length := by
  have htext := congrArg List.length (@piece_text quotes c rest)
  have hpos := List.length_pos_iff.mpr (@piece_text_ne_nil quotes c rest)
  simp only [List.length_append, List.length_cons] at htext
  omega

theorem piecesFrom_text {fuel : Nat} (h : s.length ≤ fuel) :
    (piecesFrom quotes fuel s).flatMap Piece.text = s := by
  induction fuel generalizing s with
  | zero =>
      rw [List.length_eq_zero_iff.mp (Nat.le_zero.mp h)]
      rfl
  | succ fuel ih =>
      cases s with
      | nil => rfl
      | cons c rest =>
          have hlen := @piece_length quotes c rest
          rw [List.length_cons] at h
          rw [piecesFrom, List.flatMap_cons, ih (by omega), piece_text]

theorem pieces_text (quotes : UInt16 → Bool) (sql : JsString) :
    (pieces quotes sql).flatMap Piece.text = sql := piecesFrom_text (Nat.le_refl _)

/-! ## The lexical state -/

/-- The piece is a quoted span or a comment. -/
def Piece.isSpan : Piece → Bool
  | .code _ => false
  | _ => true

/-- For every character, whether it is inside a quoted span or a comment. -/
def marks (ps : List Piece) : List Bool := ps.flatMap fun p => p.text.map fun _ => p.isSpan

theorem marks_cons (p : Piece) (ps : List Piece) :
    marks (p :: ps) = (p.text.map fun _ => p.isSpan) ++ marks ps := rfl

/-- No backtick stands outside quoted spans and comments. -/
def NoBareBacktick (sql : JsString) : Prop := .code backtick ∉ pieces countQuotes sql

/-- A turn at any other character is the same for every scanner. -/
theorem piece_eq (h : c ≠ backtick) : piece countQuotes c rest = piece positionalQuotes c rest := by
  have hquotes : positionalQuotes c = countQuotes c := by
    rw [positionalQuotes, countQuotes, beq_false_of_ne h, Bool.or_false]
  rw [piece, piece, hquotes]

theorem piece_backtick : piece countQuotes backtick rest = (.code backtick, rest) := by
  rfl

theorem piecesFrom_eq {fuel : Nat} (h : .code backtick ∉ piecesFrom countQuotes fuel s) :
    piecesFrom countQuotes fuel s = piecesFrom positionalQuotes fuel s := by
  induction fuel generalizing s with
  | zero => rfl
  | succ fuel ih =>
      cases s with
      | nil => rfl
      | cons c rest =>
          rw [piecesFrom, List.mem_cons, not_or] at h
          have hc : c ≠ backtick := by
            rintro rfl
            rw [piece_backtick] at h
            exact h.1 rfl
          rw [piecesFrom, piecesFrom, ih h.2, piece_eq hc]

/-- Where the states agree everywhere, no backtick is met in the code. -/
theorem not_mem_of_marks {fuel : Nat} (h : s.length ≤ fuel)
    (hmarks : marks (piecesFrom countQuotes fuel s) = marks (piecesFrom positionalQuotes fuel s)) :
    .code backtick ∉ piecesFrom countQuotes fuel s := by
  induction fuel generalizing s with
  | zero => exact List.not_mem_nil
  | succ fuel ih =>
      cases s with
      | nil => exact List.not_mem_nil
      | cons c rest =>
          have hlen := @piece_length positionalQuotes c rest
          rw [List.length_cons] at h
          rw [piecesFrom, piecesFrom, marks_cons, marks_cons] at hmarks
          by_cases hc : c = backtick
          · subst hc
            rw [piece_backtick, piece, if_pos (by decide)] at hmarks
            exact absurd (List.cons.inj hmarks).1 Bool.false_ne_true
          · rw [piece_eq hc] at hmarks
            have hrest := ih (by omega) (List.append_cancel_left hmarks)
            rw [piecesFrom, List.mem_cons, not_or, piece_eq hc]
            refine ⟨fun heq => ?_, hrest⟩
            have htext := @piece_text positionalQuotes c rest
            rw [← heq] at htext
            exact hc (List.cons.inj htext).1.symm

/-! ## What each scanner does -/

/-- What `toPositional` puts out behind `n` placeholders. -/
def positional : Nat → List Piece → JsString
  | _, [] => []
  | n, p :: ps =>
      if p = .code (unit '?') then unit '$' :: (natText (n + 1) ++ positional (n + 1) ps)
      else p.text ++ positional n ps

/-- What `normalizeForScan` makes of the pieces behind `out`. -/
def normalize : JsString → List Piece → JsString
  | out, [] => out
  | out, .code c :: ps => normalize (out ++ [c]) ps
  | out, .quoted text _ :: ps =>
      normalize (out ++ blankAt out.getLast? ++ text ++ blankAt (ps.flatMap Piece.text).head?) ps
  | out, .line _ :: ps => normalize (out ++ units " ") ps
  | out, .block _ :: ps => normalize (out ++ units " ") ps

/-- What `assertSingleStatement` makes of the pieces. -/
def statement (label : JsString) : Int → List Piece → Except Err Int
  | depth, [] => .ok depth
  | depth, .code c :: ps =>
      if c = unit '(' then statement label (depth + 1) ps
      else if c = unit ')' then statement label (depth - 1) ps
      else if c = unit ';' then .error (stacked label)
      else statement label depth ps
  | depth, .quoted _ closed :: ps =>
      if closed = false then .error (unterminated label) else statement label depth ps
  | depth, .line _ :: ps => statement label depth ps
  | depth, .block _ :: ps => statement label depth ps

/-- The loop of `countPlaceholders` counts pieces. -/
theorem countFrom_pieces (fuel count : Nat) (s : JsString) :
    countFrom fuel count s =
      count + (piecesFrom countQuotes fuel s).count (.code (unit '?')) := by
  induction fuel generalizing count s with
  | zero => rfl
  | succ fuel ih =>
      cases s with
      | nil => rfl
      | cons c rest =>
          rw [countFrom, piecesFrom, piece]
          split
          · simp [ih]
          split
          · simp [ih]
          split
          · simp [ih]
          split
          next h => simp [ih, h, Nat.add_assoc, Nat.add_comm 1]
          next h => simp [ih, h]

theorem positionalFrom_pieces (fuel n : Nat) (out s : JsString) :
    positionalFrom fuel n out s = out ++ positional n (piecesFrom positionalQuotes fuel s) := by
  induction fuel generalizing n out s with
  | zero => exact (List.append_nil out).symm
  | succ fuel ih =>
      cases s with
      | nil => exact (List.append_nil out).symm
      | cons c rest =>
          rw [positionalFrom, piecesFrom, piece, positional]
          split
          · simp [ih, Piece.text]
          split
          · simp [ih, Piece.text]
          split
          · simp [ih, Piece.text]
          split
          next h => simp [ih, h]
          next h => simp [ih, h, Piece.text]

theorem dropWhile_lineBegins (h : lineBegins c rest = true) :
    rest.tail.dropWhile (· != newline) = rest.dropWhile (· != newline) := by
  rw [lineBegins, Bool.and_eq_true] at h
  obtain ⟨t, rfl⟩ := List.head?_eq_some_iff.mp (eq_of_beq h.2)
  rfl

/-- The character behind a quoted span is the first of the pieces that are left. -/
theorem normalizeFrom_pieces {fuel : Nat} (h : s.length ≤ fuel) (out : JsString) :
    normalizeFrom fuel out s = normalize out (piecesFrom normalizeQuotes fuel s) := by
  induction fuel generalizing out s with
  | zero => rfl
  | succ fuel ih =>
      cases s with
      | nil => rfl
      | cons c rest =>
          have hlen := @piece_length normalizeQuotes c rest
          rw [List.length_cons] at h
          rw [normalizeFrom, piecesFrom]
          rw [piece] at hlen ⊢
          split at hlen
          next hq =>
            rw [if_pos hq, if_pos hq, normalize, piecesFrom_text (hlen.trans (by omega))]
            exact ih (hlen.trans (by omega)) _
          next hq =>
            rw [if_neg hq, if_neg hq]
            split at hlen
            next hline =>
              rw [if_pos hline, if_pos hline, dropWhile_lineBegins hline]
              exact ih (hlen.trans (by omega)) _
            next hline =>
              rw [if_neg hline, if_neg hline]
              split at hlen
              next hblock =>
                rw [if_pos hblock, if_pos hblock]
                exact ih (hlen.trans (by omega)) _
              next hblock =>
                rw [if_neg hblock, if_neg hblock]
                exact ih (by omega) _

theorem statementFrom_pieces (label : JsString) (fuel : Nat) (depth : Int) (s : JsString) :
    statementFrom label fuel depth s =
      statement label depth (piecesFrom statementQuotes fuel s) := by
  induction fuel generalizing depth s with
  | zero => rfl
  | succ fuel ih =>
      cases s with
      | nil => rfl
      | cons c rest =>
          rw [statementFrom, piecesFrom, piece]
          split
          · simp only [statement, ih]
          split
          · simp only [statement, ih]
          split
          · simp only [statement, ih]
          · simp only [statement, ih]

/-- The parts with `$1`, `$2` and so on between them, from the one behind `n` on. -/
def withMarkers : Nat → List JsString → JsString
  | _, [] => []
  | _, [part] => part
  | n, part :: parts => part ++ unit '$' :: (natText (n + 1) ++ withMarkers (n + 1) parts)

/-- The placeholders are numbered from left to right, and everything else stays. -/
theorem positional_parts (n : Nat) (ps : List Piece) : ∃ part parts,
    (part :: parts).length = ps.count (.code (unit '?')) + 1 ∧
    ps.flatMap Piece.text = [unit '?'].intercalate (part :: parts) ∧
    positional n ps = withMarkers n (part :: parts) := by
  induction ps generalizing n with
  | nil => exact ⟨[], [], rfl, by simp, rfl⟩
  | cons p ps ih =>
      by_cases hp : p = .code (unit '?')
      · obtain ⟨part, parts, hlen, htext, hout⟩ := ih (n + 1)
        refine ⟨[], part :: parts, ?_, ?_, ?_⟩
        · rw [hp, List.count_cons_self, List.length_cons, hlen]
        · rw [List.flatMap_cons, htext, hp, List.intercalate_cons_cons]
          rfl
        · rw [positional, if_pos hp, hout]
          rfl
      · obtain ⟨part, parts, hlen, htext, hout⟩ := ih n
        refine ⟨p.text ++ part, parts, ?_, ?_, ?_⟩
        · rw [List.count_cons_of_ne hp]
          exact hlen
        · rw [List.flatMap_cons, htext]
          cases parts with
          | nil => simp
          | cons part' parts => simp [List.intercalate_cons_cons]
        · rw [positional, if_neg hp, hout]
          cases parts with
          | nil => rfl
          | cons part' parts => simp [withMarkers]

/-- The second text is the first with blanks put in. -/
inductive Blanked : JsString → JsString → Prop
  | nil : Blanked [] []
  | keep {c : UInt16} {s t : JsString} : Blanked s t → Blanked (c :: s) (c :: t)
  | blank {s t : JsString} : Blanked s t → Blanked s (unit ' ' :: t)

theorem Blanked.append {s t s' t' : JsString} (h : Blanked s t) (h' : Blanked s' t') :
    Blanked (s ++ s') (t ++ t') := by
  induction h with
  | nil => exact h'
  | keep _ ih => exact .keep ih
  | blank _ ih => exact .blank ih

theorem Blanked.refl (s : JsString) : Blanked s s := by
  induction s with
  | nil => exact .nil
  | cons c s ih => exact .keep ih

theorem blanked_blankAt (c : Option UInt16) : Blanked [] (blankAt c) := by
  rw [blankAt]
  split
  · exact .blank .nil
  · exact .nil

/-- What stands outside comments. -/
def uncommented (ps : List Piece) : JsString :=
  ps.flatMap fun
    | .line _ => []
    | .block _ => []
    | p => p.text

theorem normalize_blanked (out : JsString) (ps : List Piece) :
    ∃ added, normalize out ps = out ++ added ∧ Blanked (uncommented ps) added := by
  induction ps generalizing out with
  | nil => exact ⟨[], (List.append_nil out).symm, .nil⟩
  | cons p ps ih =>
      cases p with
      | code c =>
          obtain ⟨added, hout, hadded⟩ := ih (out ++ [c])
          exact ⟨c :: added, by rw [normalize, hout]; simp, .keep hadded⟩
      | quoted text closed =>
          obtain ⟨added, hout, hadded⟩ := ih (out ++ blankAt out.getLast? ++ text ++
            blankAt (ps.flatMap Piece.text).head?)
          refine ⟨blankAt out.getLast? ++
            (text ++ (blankAt (ps.flatMap Piece.text).head? ++ added)),
            by rw [normalize, hout]; simp, ?_⟩
          exact (blanked_blankAt _).append ((Blanked.refl text).append
            ((blanked_blankAt _).append hadded))
      | line text =>
          obtain ⟨added, hout, hadded⟩ := ih (out ++ units " ")
          exact ⟨unit ' ' :: added, by rw [normalize, hout]; simp [units], .blank hadded⟩
      | block text =>
          obtain ⟨added, hout, hadded⟩ := ih (out ++ units " ")
          exact ⟨unit ' ' :: added, by rw [normalize, hout]; simp [units], .blank hadded⟩

/-! ## The agreement -/

/-- What is claimed of a string. -/
structure Agree (sql : JsString) : Prop where
  /-- `toPositional` puts a numbered marker in the place of each placeholder that is counted. -/
  markers : ∃ parts : List JsString, parts.length = countPlaceholders sql + 1 ∧
    sql = [unit '?'].intercalate parts ∧ toPositional sql .postgres = withMarkers 0 parts
  /-- Each character is inside a quoted span or comment for one scanner as for the others. -/
  spans : marks (pieces countQuotes sql) = marks (pieces positionalQuotes sql) ∧
    marks (pieces positionalQuotes sql) = marks (pieces normalizeQuotes sql) ∧
    marks (pieces normalizeQuotes sql) = marks (pieces statementQuotes sql)
  /-- Of a statement that is accepted nothing but comments is lost. -/
  kept : ∀ label, assertSingleStatement sql label = .ok sql →
    Blanked (uncommented (pieces normalizeQuotes sql)) (normalizeForScan sql)

/-- The scanners agree exactly where no backtick stands outside quoted spans and comments. -/
theorem scanners_agree_iff (sql : JsString) : Agree sql ↔ NoBareBacktick sql := by
  constructor
  · intro h
    exact not_mem_of_marks (Nat.le_refl _) h.spans.1
  · intro h
    have hpieces : pieces countQuotes sql = pieces positionalQuotes sql := piecesFrom_eq h
    constructor
    · obtain ⟨part, parts, hlen, htext, hout⟩ := positional_parts 0 (pieces positionalQuotes sql)
      rw [pieces_text] at htext
      rw [toPositional, if_neg (by simp), positionalFrom_pieces, countPlaceholders,
        countFrom_pieces, Nat.zero_add, ← pieces, ← pieces, hpieces]
      exact ⟨part :: parts, hlen, htext, hout⟩
    · rw [hpieces]
      exact ⟨rfl, rfl, rfl⟩
    · intro label _
      obtain ⟨added, hout, hadded⟩ := normalize_blanked [] (pieces normalizeQuotes sql)
      rw [normalizeForScan, normalizeFrom_pieces (Nat.le_refl _), ← pieces, hout, List.nil_append]
      exact hadded

/-- A backtick name that holds a placeholder character. -/
theorem backtick_disagrees : ¬ Agree (units "\x60a?\x60 = ?") := by
  rw [scanners_agree_iff, NoBareBacktick]
  decide

end Blamejs.SqlScan
