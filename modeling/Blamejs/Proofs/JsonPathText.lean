import Blamejs.Lib.Checked
import Blamejs.Ref.JsonPathText

/-!
# Normalized paths are queries

A normalized path is parsed back token by token: an escaped name ends at the quote that closes
it, an index at its bracket, and a number is never taken for a name. What is parsed selects one
node at each step.

Every node that any query finds stands at its path in the document, whatever its filters test.
-/

namespace Blamejs.JsonPathText

open Blamejs.Js JsonPath

/-! ## Names -/

theorem hexOf_hexDigit {n : Nat} (h : n < 16) : hexOf (hexDigit n) = some n := by
  have hall : ∀ n : Fin 16, hexOf (hexDigit n) = some n.val := by decide
  exact hall ⟨n, h⟩

theorem hexFour_hex4 {n : Nat} (h : n < 0x10000) (t : JsString) :
    hexFour (hex4 n ++ t) = some n := by
  simp only [hex4, List.cons_append, List.nil_append, hexFour]
  rw [hexOf_hexDigit (Nat.mod_lt _ (by decide)), hexOf_hexDigit (Nat.mod_lt _ (by decide)),
    hexOf_hexDigit (Nat.mod_lt _ (by decide)), hexOf_hexDigit (Nat.mod_lt _ (by decide))]
  simp only [Option.bind_eq_bind, Option.bind_some, Option.pure_def, Option.some.injEq]
  omega

theorem unicodeEscape_hex4 {u : UInt16} (h : u.toNat < 0x20) (t : JsString) :
    unicodeEscape (hex4 u.toNat ++ t) = .ok ([u], 4) := by
  rw [unicodeEscape, hexFour_hex4 (by omega)]
  dsimp only
  rw [if_neg (by omega), if_neg (by omega), UInt16.ofNat_toNat]

def prepend (u : UInt16) (r : Except Fault (JsString × JsString)) :
    Except Fault (JsString × JsString) := r.map fun p => (u :: p.1, p.2)

theorem bind_cons (u : UInt16) (r : Except Fault (JsString × JsString)) :
    (do
      let (out, s) ← r
      .ok (u :: out, s)) = prepend u r := by
  cases r <;> rfl

theorem stringBody_simple {u e : UInt16} (t : JsString)
    (he : simpleEscape (unit '\'') e = some u) :
    stringBody (unit '\'') 0 (unit '\\' :: e :: t) =
      prepend u (stringBody (unit '\'') 0 t) := by
  rw [stringBody, if_neg (by decide), if_pos rfl]
  dsimp only
  rw [he, ← bind_cons]
  rfl

theorem stringBody_unicode {u : UInt16} (h : u.toNat < 0x20) (t : JsString) :
    stringBody (unit '\'') 0 (units "\\u" ++ (hex4 u.toNat ++ t)) =
      prepend u (stringBody (unit '\'') 0 t) := by
  have hsplit : units "\\u" ++ (hex4 u.toNat ++ t) =
      unit '\\' :: unit 'u' :: (hex4 u.toNat ++ t) := rfl
  have hnone : simpleEscape (unit '\'') (unit 'u') = none := by decide
  rw [hsplit, stringBody, if_neg (by decide), if_pos rfl]
  dsimp only
  rw [hnone]
  dsimp only
  rw [if_pos rfl, unicodeEscape_hex4 h, ← bind_cons]
  rfl

theorem stringBody_plain {u : UInt16} (hquote : u ≠ unit '\'') (hback : u ≠ unit '\\')
    (hcontrol : ¬ u.toNat < 0x20) (t : JsString) :
    stringBody (unit '\'') 0 (u :: t) = prepend u (stringBody (unit '\'') 0 t) := by
  have hle : ¬ u.toNat ≤ 0x1F := by omega
  cases t with
  | nil => simp [stringBody, hquote, hback, hle, ← bind_cons]
  | cons v t => rw [stringBody, if_neg hquote, if_neg hback, if_neg hle, ← bind_cons]

theorem stringBody_normalizeUnit (u : UInt16) (t : JsString) :
    stringBody (unit '\'') 0 (normalizeUnit u ++ t) =
      prepend u (stringBody (unit '\'') 0 t) := by
  rw [normalizeUnit]
  split_ifs with h₁ h₂ h₃ h₄ h₅ h₆ h₇ h₈
  · exact stringBody_simple t (by rw [h₁]; decide)
  · exact stringBody_simple t (by rw [h₂]; decide)
  · exact stringBody_simple t (by rw [h₃]; decide)
  · exact stringBody_simple t (by rw [h₄]; decide)
  · exact stringBody_simple t (by rw [h₅]; decide)
  · exact stringBody_simple t (by rw [h₆]; decide)
  · exact stringBody_simple t (by rw [h₇]; decide)
  · rw [List.append_assoc]
    exact stringBody_unicode h₈ t
  · exact stringBody_plain h₁ h₂ h₈ t

/-- A name is read back to the quote that closes it. -/
theorem stringBody_normalizeName (name t : JsString) :
    stringBody (unit '\'') 0 (normalizeName name ++ unit '\'' :: t) = .ok (name, t) := by
  induction name with
  | nil =>
      rw [normalizeName, List.flatMap_nil, List.nil_append]
      cases t <;> rw [stringBody, if_pos rfl]
  | cons u name ih =>
      rw [normalizeName, List.flatMap_cons, List.append_assoc, stringBody_normalizeUnit]
      rw [normalizeName] at ih
      rw [ih]
      rfl

/-! ## Indices -/

/-- The text of a positive number begins with another digit than zero. -/
theorem natText_head {n : Nat} (h : 0 < n) :
    ∃ u us, natText n = u :: us ∧ u ≠ unit '0' := by
  induction n using Nat.strongRecOn with
  | ind n ih =>
      by_cases hlt : n < 10
      · have hall : ∀ n : Fin 10, 0 < n.val → unit n.val.digitChar ≠ unit '0' := by decide
        exact ⟨_, _, by rw [natText, Nat.toDigits_of_lt_base hlt]; rfl, hall ⟨n, hlt⟩ h⟩
      · obtain ⟨u, us, htext, hu⟩ := ih (n / 10) (by omega) (by omega)
        rw [natText] at htext
        refine ⟨u, us ++ [unit (n % 10).digitChar], ?_, hu⟩
        rw [natText, Nat.toDigits_of_base_le (by decide) (by omega), List.map_append, htext]
        rfl

theorem isSlice_digits {l : JsString} (hl : ∀ u ∈ l, isDigitUnit u = true) (t : JsString) :
    isSlice (l ++ unit ']' :: t) = false := by
  induction l with
  | nil => rfl
  | cons u l ih =>
      have hu := hl u List.mem_cons_self
      rw [List.cons_append, isSlice, if_neg (ne_of_isDigitUnit hu (by decide)),
        if_neg (by simp [ne_of_isDigitUnit hu (show isDigitUnit (unit ',') = false by decide),
          ne_of_isDigitUnit hu (show isDigitUnit (unit ']') = false by decide)]),
        if_pos (by rw [hu]; simp), ih fun v hv => hl v (List.mem_cons_of_mem _ hv)]

theorem parseDigits_natText {n : Nat} (h : n < 2 ^ 53) (t : JsString) :
    parseDigits false (natText n ++ unit ']' :: t) = .ok ((n : Int), unit ']' :: t) := by
  have hdigits : ∀ u ∈ natText n, isDigitUnit u = true := fun _ hu => isDigitUnit_of_mem_natText hu
  rcases Nat.eq_zero_or_pos n with rfl | hpos
  · rfl
  · obtain ⟨u, us, htext, hu⟩ := natText_head hpos
    have hdigit : isDigitUnit u = true := hdigits u (by rw [htext]; exact List.mem_cons_self)
    have htake : (natText n ++ unit ']' :: t).takeWhile isDigitUnit = natText n :=
      (List.takeWhile_append_of_pos hdigits).trans (List.append_nil _)
    have hdrop : (natText n ++ unit ']' :: t).dropWhile isDigitUnit = unit ']' :: t :=
      List.dropWhile_append_of_pos hdigits
    rw [htext, List.cons_append] at htake hdrop ⊢
    rw [parseDigits, if_neg hu, if_pos hdigit]
    dsimp only
    rw [htake, hdrop, ← htext, digitsValue_natText, if_pos h]
    rfl

theorem parseIndex_natText {n : Nat} (h : n < 2 ^ 53) (t : JsString) :
    parseIndexOrSlice (natText n ++ unit ']' :: t) = .ok (.index n, unit ']' :: t) := by
  have hdigits : ∀ u ∈ natText n, isDigitUnit u = true := fun _ hu => isDigitUnit_of_mem_natText hu
  have hminus : starts '-' (natText n ++ unit ']' :: t) = false := by
    obtain ⟨u, us, htext⟩ := List.exists_cons_of_ne_nil (natText_ne_nil n)
    have hu := hdigits u (by rw [htext]; exact List.mem_cons_self)
    rw [htext, starts, List.cons_append, List.head?_cons, decide_eq_false_iff_not,
      Option.some.injEq]
    exact ne_of_isDigitUnit hu (by decide)
  rw [parseIndexOrSlice, isSlice_digits hdigits, if_neg (by decide), parseIntToken, hminus,
    if_neg (by decide), parseDigits_natText h]
  rfl

/-! ## Paths -/

/-- What a token of a normalized path is parsed to. -/
def selectorOf : Token → Selector
  | .name name => .name name
  | .index i => .index i

def segmentOf (t : Token) : Segment := .mk false [selectorOf t]

/-- An index that the parser takes. -/
def Small : Token → Prop
  | .name _ => True
  | .index i => i < 2 ^ 53

theorem skipBlank_cons {u : UInt16} (h : isBlank u = false) (t : JsString) :
    skipBlank (u :: t) = u :: t := by
  rw [skipBlank, List.dropWhile_cons_of_neg (by rw [h]; decide)]

/-- What a bracket of a normalized path holds. -/
def inside : Token → JsString
  | .index i => natText i
  | .name name => unit '\'' :: (normalizeName name ++ [unit '\''])

theorem normalizeToken_eq (t : Token) (rest : JsString) :
    normalizeToken t ++ rest = unit '[' :: (inside t ++ unit ']' :: rest) := by
  cases t with
  | index i => simp [normalizeToken, inside]
  | name name =>
      have hopen : units "['" = [unit '[', unit '\''] := rfl
      have hclose : units "']" = [unit '\'', unit ']'] := rfl
      rw [normalizeToken, inside, hopen, hclose]
      simp

theorem parseSelector_inside (fuel depth : Nat) {t : Token} (ht : Small t)
    (rest : JsString) :
    skipBlank (inside t ++ unit ']' :: rest) = inside t ++ unit ']' :: rest ∧
      parseSelector (fuel + 1) depth (inside t ++ unit ']' :: rest) =
        .ok (selectorOf t, unit ']' :: rest) := by
  cases t with
  | name name =>
      rw [inside, List.cons_append, List.append_assoc]
      refine ⟨skipBlank_cons (by decide) _, ?_⟩
      have hbody := stringBody_normalizeName name (unit ']' :: rest)
      rw [parseSelector, if_neg (by simp [starts]; decide), if_pos (by simp [starts])]
      simp only [List.headD_cons, List.tail_cons, List.cons_append, List.nil_append, hbody]
      rfl
  | index i =>
      obtain ⟨u, us, htext⟩ := List.exists_cons_of_ne_nil (natText_ne_nil i)
      have hu : isDigitUnit u = true :=
        isDigitUnit_of_mem_natText (n := i) (by rw [htext]; exact List.mem_cons_self)
      have hne : ∀ c : Char, isDigitUnit (unit c) = false →
          starts c (natText i ++ unit ']' :: rest) = false := by
        intro c hc
        rw [htext, starts, List.cons_append, List.head?_cons, decide_eq_false_iff_not,
          Option.some.injEq]
        exact ne_of_isDigitUnit hu hc
      have hdigit : startsDigit (natText i ++ unit ']' :: rest) = true := by
        rw [htext, startsDigit, List.cons_append, List.head?_cons, Option.any_some, hu]
      refine ⟨?_, ?_⟩
      · rw [inside, htext, List.cons_append]
        refine skipBlank_cons ?_ _
        simp only [isBlank, ne_of_isDigitUnit hu (show isDigitUnit (unit ' ') = false by decide),
          ne_of_isDigitUnit hu (show isDigitUnit (unit '\t') = false by decide),
          ne_of_isDigitUnit hu (show isDigitUnit (unit '\n') = false by decide),
          ne_of_isDigitUnit hu (show isDigitUnit (unit '\r') = false by decide), decide_false,
          Bool.or_self]
      · rw [inside, parseSelector, hne '*' (by decide), hne '\'' (by decide), hne '"' (by decide),
          hne '?' (by decide), hdigit, parseIndex_natText ht]
        simp [selectorOf]

theorem parseBracket_inside (fuel depth : Nat) {t : Token} (ht : Small t)
    (rest : JsString) :
    parseBracket (fuel + 2) depth (inside t ++ unit ']' :: rest) =
      .ok ([selectorOf t], rest) := by
  obtain ⟨hblank, hsel⟩ := parseSelector_inside fuel depth ht rest
  rw [parseBracket, hblank, hsel]
  have hclose : skipBlank (unit ']' :: rest) = unit ']' :: rest := skipBlank_cons (by decide) rest
  simp only [bind, Except.bind, hclose]
  rw [if_neg (by simp [starts]; decide), if_pos (by simp [starts])]
  rfl

theorem parseSegments_tokens (depth : Nat) {tokens : List Token}
    (h : ∀ t ∈ tokens, Small t) (fuel : Nat) (hfuel : tokens.length + 3 ≤ fuel) :
    parseSegments fuel depth (tokens.flatMap normalizeToken) =
      .ok (tokens.map segmentOf, []) := by
  induction tokens generalizing fuel with
  | nil =>
      obtain ⟨fuel, rfl⟩ : ∃ n, fuel = n + 1 := ⟨fuel - 1, by simp at hfuel; omega⟩
      rw [List.flatMap_nil, parseSegments]
      rfl
  | cons t tokens ih =>
      obtain ⟨fuel, rfl⟩ : ∃ n, fuel = n + 3 := ⟨fuel - 3, by simp at hfuel; omega⟩
      have hrest := ih (fun t' ht' => h t' (List.mem_cons_of_mem _ ht')) (fuel + 2)
        (by simp at hfuel; omega)
      have hbracket := parseBracket_inside fuel depth (h t List.mem_cons_self)
        (tokens.flatMap normalizeToken)
      rw [List.flatMap_cons, normalizeToken_eq, parseSegments]
      simp only [skipBlank_cons (show isBlank (unit '[') = false by decide)]
      rw [if_pos (by simp [starts]), List.tail_cons, hbracket]
      simp only [bind, Except.bind, hrest]
      rfl

theorem length_tokens (tokens : List Token) :
    tokens.length ≤ (tokens.flatMap normalizeToken).length := by
  induction tokens with
  | nil => exact le_refl _
  | cons t tokens ih =>
      have hone := congrArg List.length (normalizeToken_eq t [])
      rw [List.append_nil, List.length_cons] at hone
      rw [List.flatMap_cons, List.length_append, List.length_cons]
      omega

/-- A normalized path is parsed to one segment a token. -/
theorem parse_normalizedPath {tokens : List Token} (h : ∀ t ∈ tokens, Small t) :
    parse (normalizedPath tokens) = .ok (tokens.map segmentOf) := by
  have hlength := length_tokens tokens
  rw [parse, normalizedPath, if_pos (by simp [starts]), List.tail_cons,
    parseSegments_tokens 0 h _ (by rw [List.length_cons]; omega)]
  rfl

/-! ## Fuel -/

/-- A parser answers, and leaves no more than `n` units. -/
def Reads {α : Type} (n : Nat) (r : Except Fault (α × JsString)) : Prop :=
  r ≠ .error .spent ∧ ∀ a t, r = .ok (a, t) → t.length ≤ n

theorem reads_ok {α : Type} {n : Nat} {a : α} {t : JsString} (h : t.length ≤ n) :
    Reads n (.ok (a, t)) := by
  refine ⟨by simp, fun a' t' heq => ?_⟩
  cases heq
  exact h

theorem reads_err {α : Type} {n : Nat} {message : String} {s : JsString} :
    Reads n (err (α := α × JsString) message s) := ⟨by simp [err], fun _ _ h => by cases h⟩

theorem Reads.mono {α : Type} {n m : Nat} {r : Except Fault (α × JsString)} (h : Reads n r)
    (hle : n ≤ m) : Reads m r := ⟨h.1, fun a t hr => le_trans (h.2 a t hr) hle⟩

theorem reads_bind {α β : Type} {n : Nat} {r : Except Fault α}
    {f : α → Except Fault (β × JsString)} (hr : r ≠ .error .spent)
    (h : ∀ a, r = .ok a → Reads n (f a)) : Reads n (r >>= f) := by
  cases r with
  | error e =>
      refine ⟨fun heq => hr ?_, fun _ _ heq => by cases heq⟩
      cases heq
      rfl
  | ok a => exact h a rfl

theorem Reads.bind {α β : Type} {n m : Nat} {r : Except Fault (α × JsString)}
    {f : α × JsString → Except Fault (β × JsString)} (hr : Reads n r)
    (h : ∀ a t, t.length ≤ n → Reads m (f (a, t))) : Reads m (r >>= f) :=
  reads_bind hr.1 fun p hp => h p.1 p.2 (hr.2 p.1 p.2 hp)

theorem length_skipBlank (s : JsString) : (skipBlank s).length ≤ s.length :=
  (List.dropWhile_suffix _).length_le

theorem length_of_starts {c : Char} {s : JsString} (h : starts c s = true) :
    s.tail.length + 1 = s.length := by
  cases s with
  | nil => cases h
  | cons u s => rfl

theorem eat_ok {c : Char} {s t : JsString} (h : eat c s = .ok t) : t.length + 1 = s.length := by
  rw [eat] at h
  split at h
  · next hc =>
      cases h
      exact length_of_starts hc
  · cases h

theorem eat_ne {c : Char} {s : JsString} : eat c s ≠ .error .spent := by
  rw [eat]
  split <;> simp [err]

theorem reads_shorthand (s : JsString) : Reads s.length (parseShorthand s) := by
  cases s with
  | nil => exact reads_err
  | cons c rest =>
      rw [parseShorthand]
      have := (List.dropWhile_suffix (l := rest) isNameChar).length_le
      split_ifs
      · exact reads_ok (by simp)
      · exact reads_ok (by simp; omega)
      · exact reads_err

theorem reads_digits (neg : Bool) (s : JsString) : Reads s.length (parseDigits neg s) := by
  cases s with
  | nil => exact reads_err
  | cons u rest =>
      rw [parseDigits]
      have := (List.dropWhile_suffix (l := u :: rest) isDigitUnit).length_le
      dsimp only
      split_ifs
      · exact reads_err
      · exact reads_err
      · exact reads_ok (by simp)
      · exact reads_ok this
      · exact reads_ok this
      · exact reads_err
      · exact reads_err

theorem reads_intToken (s : JsString) : Reads s.length (parseIntToken s) := by
  rw [parseIntToken]
  split
  · exact (reads_digits true s.tail).mono (by simp)
  · exact reads_digits false s

theorem reads_bound (s : JsString) : Reads s.length (parseBound s) := by
  rw [parseBound]
  split
  · exact (reads_intToken s).bind fun a t ht => reads_ok ht
  · exact reads_ok (le_refl _)

theorem reads_indexOrSlice (s : JsString) : Reads s.length (parseIndexOrSlice s) := by
  rw [parseIndexOrSlice]
  split
  · have hs := length_skipBlank s
    refine (reads_bound (skipBlank s)).bind fun start t ht => ?_
    refine reads_bind eat_ne fun t' ht' => ?_
    have := eat_ok ht'
    have := length_skipBlank t
    have := length_skipBlank t'
    refine (reads_bound (skipBlank t')).bind fun stop t'' ht'' => ?_
    have := length_skipBlank t''
    dsimp only
    split
    · next hcolon =>
        have := length_of_starts hcolon
        have := length_skipBlank (skipBlank t'').tail
        exact (reads_bound _).bind fun step u hu => reads_ok (le_trans hu (by omega))
    · exact reads_ok (by omega)
  · exact (reads_intToken s).bind fun n t ht => reads_ok ht

theorem unicodeEscape_ne (s : JsString) : unicodeEscape s ≠ .error .spent := by
  rw [unicodeEscape.eq_def]
  split
  · simp [err]
  · dsimp only
    split_ifs
    · split
      · split <;> simp [err]
      · simp [err]
    · simp [err]
    · simp

theorem reads_stringBody (quote : UInt16) (skip : Nat) (s : JsString) :
    Reads s.length (stringBody quote skip s) := by
  induction s generalizing skip with
  | nil => cases skip <;> exact reads_err
  | cons c rest ih =>
      have hmore : ∀ skip, Reads (c :: rest).length (stringBody quote skip rest) := fun skip =>
        (ih skip).mono (by simp)
      cases skip with
      | succ skip => exact hmore skip
      | zero =>
          cases rest with
          | nil =>
              rw [stringBody]
              split_ifs
              · exact reads_ok (by simp)
              · exact reads_err
              · exact reads_err
              · exact (hmore 0).bind fun out t ht => reads_ok ht
          | cons e rest =>
              rw [stringBody]
              split_ifs
              · exact reads_ok (by simp)
              · split
                · exact (hmore 1).bind fun out t ht => reads_ok ht
                · exact reads_bind (unicodeEscape_ne rest) fun p _ =>
                    (hmore (1 + p.2)).bind fun out t ht => reads_ok ht
              · split
                · exact (hmore 1).bind fun out t ht => reads_ok ht
                · exact reads_err
              · exact reads_err
              · exact (hmore 0).bind fun out t ht => reads_ok ht

theorem someDigits_spec {message : String} {s : JsString} :
    someDigits message s ≠ .error .spent ∧
      ∀ t, someDigits message s = .ok t → t.length ≤ s.length := by
  rw [someDigits]
  split
  · refine ⟨by simp, fun t ht => ?_⟩
    cases ht
    exact (List.dropWhile_suffix _).length_le
  · exact ⟨by simp [err], fun t ht => by cases ht⟩

theorem reads_number (s : JsString) : Reads s.length (parseNumber s) := by
  have hsign : (if starts '-' s then s.tail else s).length ≤ s.length := by
    split <;> simp
  rw [parseNumber]
  generalize (if starts '-' s = true then s.tail else s) = u at hsign ⊢
  refine reads_bind ?_ fun t ht => reads_bind ?_ fun t' ht' => reads_bind ?_ fun t'' ht'' =>
    reads_ok ?_
  · rw [wholePart]
    split
    · simp
    · exact someDigits_spec.1
  · rw [fractionPart]
    split
    · exact someDigits_spec.1
    · simp
  · rw [exponentPart]
    split
    · exact someDigits_spec.1
    · simp
  · refine le_trans (?_ : t''.length ≤ t'.length) (le_trans (?_ : t'.length ≤ t.length)
      (le_trans ?_ hsign))
    · rw [exponentPart] at ht''
      split at ht''
      · refine le_trans (someDigits_spec.2 _ ht'') ?_
        split
        · simp
          omega
        · simp
      · cases ht''
        exact le_refl _
    · rw [fractionPart] at ht'
      split at ht'
      · exact le_trans (someDigits_spec.2 _ ht') (by simp)
      · cases ht'
        exact le_refl _
    · rw [wholePart] at ht
      split at ht
      · cases ht
        simp
      · exact someDigits_spec.2 _ ht

theorem reads_literal {s : JsString} {r : Except Fault (Expr × JsString)}
    (h : parseLiteral s = some r) : Reads s.length r := by
  have hmap : ∀ {α : Type} {n : Nat} {q : Except Fault (α × JsString)} (g : α → Expr),
      Reads n q → Reads n (q.map fun p => (g p.1, p.2)) := by
    intro α n q g hq
    cases q with
    | error e =>
        refine ⟨fun heq => hq.1 ?_, fun _ _ heq => by cases heq⟩
        cases heq
        rfl
    | ok p => exact reads_ok (hq.2 p.1 p.2 rfl)
  rw [parseLiteral] at h
  split_ifs at h
  · cases h
    exact hmap (fun name => .lit (.str name)) ((reads_stringBody _ 0 s.tail).mono (by simp))
  · cases h
    exact hmap (fun x => .lit (.num x)) (reads_number s)
  · cases h
    exact reads_ok (by simp)
  · cases h
    exact reads_ok (by simp)
  · cases h
    exact reads_ok (by simp)

theorem deeper_ne {depth : Nat} : deeper depth ≠ .error .spent := by
  rw [deeper]
  split <;> simp

theorem requireTestable_ne {e : Expr} {s : JsString} :
    requireTestable e s ≠ .error .spent := by
  cases e <;> simp [requireTestable, err]
  split <;> simp

theorem requireComparable_ne {e : Expr} {s : JsString} :
    requireComparable e s ≠ .error .spent := by
  cases e <;> simp [requireComparable, err] <;> split <;> simp

theorem startsText_length {t : String} {s : JsString} (h : startsText t s = true) :
    t.toList.length ≤ s.length := by
  have := (List.isPrefixOf_iff_prefix.mp h).length_le
  rwa [units, List.length_map] at this

theorem peekCompareOp_width {s : JsString} {op : Op} {width : Nat}
    (h : peekCompareOp s = some (op, width)) : 1 ≤ width ∧ width ≤ s.length := by
  rw [peekCompareOp] at h
  split_ifs at h with h₁ h₂ h₃ h₄ h₅ h₆
  · cases h
    exact ⟨by decide, startsText_length h₁⟩
  · cases h
    exact ⟨by decide, startsText_length h₂⟩
  · cases h
    exact ⟨by decide, startsText_length h₃⟩
  · cases h
    exact ⟨by decide, startsText_length h₄⟩
  · cases h
    exact ⟨le_refl _, by have := length_of_starts h₅; omega⟩
  · cases h
    exact ⟨le_refl _, by have := length_of_starts h₆; omega⟩

theorem reads_closeCall (name : FuncName) (args : List Expr) (s : JsString) :
    Reads s.length (closeCall name args s) := by
  have hblank := length_skipBlank s
  rw [closeCall]
  refine reads_bind eat_ne fun t ht => ?_
  have hclose := eat_ok ht
  split
  · exact reads_err
  · split
    · exact reads_err
    · exact reads_ok (by omega)

/-- With eight calls a unit, and a few more, no parser is left without fuel. -/
structure Sated (fuel : Nat) : Prop where
  segments : ∀ d s, 8 * s.length + 1 ≤ fuel → Reads s.length (parseSegments fuel d s)
  descendant : ∀ d s, 8 * s.length + 1 ≤ fuel → Reads s.length (parseDescendant fuel d s)
  bracket : ∀ d s, 8 * s.length + 2 ≤ fuel → Reads s.length (parseBracket fuel d s)
  selector : ∀ d s, 8 * s.length + 1 ≤ fuel → Reads s.length (parseSelector fuel d s)
  logicalOr : ∀ d s, 8 * s.length + 6 ≤ fuel → Reads s.length (parseLogicalOr fuel d s)
  orRest : ∀ d e s, 8 * s.length + 1 ≤ fuel → Reads s.length (orRest fuel d e s)
  logicalAnd : ∀ d s, 8 * s.length + 5 ≤ fuel → Reads s.length (parseLogicalAnd fuel d s)
  andRest : ∀ d e s, 8 * s.length + 1 ≤ fuel → Reads s.length (andRest fuel d e s)
  basic : ∀ d s, 8 * s.length + 4 ≤ fuel → Reads s.length (parseBasic fuel d s)
  comparable : ∀ d s, 8 * s.length + 3 ≤ fuel →
    Reads s.length (parseComparableOrQuery fuel d s)
  filterQuery : ∀ d s, 8 * s.length + 2 ≤ fuel → Reads s.length (parseFilterQuery fuel d s)
  function : ∀ d s, 8 * s.length + 1 ≤ fuel → Reads s.length (parseFunction fuel d s)
  args : ∀ d s, 8 * s.length + 8 ≤ fuel → Reads s.length (parseArgs fuel d s)
  arg : ∀ d s, 8 * s.length + 7 ≤ fuel → Reads s.length (parseFunctionArg fuel d s)

section sated

variable {fuel depth : Nat} (ih : Sated fuel) (s : JsString)
include ih

theorem sated_segments (h : 8 * s.length + 1 ≤ fuel + 1) :
    Reads s.length (parseSegments (fuel + 1) depth s) := by
  have hblank := length_skipBlank s
  rw [parseSegments]
  dsimp only
  split
  · next hopen =>
      have hlen := length_of_starts hopen
      refine (ih.bracket depth _ (by omega)).bind fun sels t ht => ?_
      exact (ih.segments depth t (by omega)).bind fun segs u hu => reads_ok (le_trans hu (by omega))
  · split
    · next hdot =>
        have hlen := length_of_starts hdot
        split
        · next hdots =>
            have hlen' := length_of_starts hdots
            refine (ih.descendant depth _ (by omega)).bind fun seg t ht => ?_
            exact (ih.segments depth t (by omega)).bind fun segs u hu =>
              reads_ok (le_trans hu (by omega))
        · refine (reads_shorthand _).bind fun sel t ht => ?_
          exact (ih.segments depth t (by omega)).bind fun segs u hu =>
            reads_ok (le_trans hu (by omega))
    · exact reads_ok (le_refl _)

theorem sated_descendant (h : 8 * s.length + 1 ≤ fuel + 1) :
    Reads s.length (parseDescendant (fuel + 1) depth s) := by
  rw [parseDescendant]
  split
  · next hopen =>
      have hlen := length_of_starts hopen
      exact (ih.bracket depth _ (by omega)).bind fun sels t ht => reads_ok (le_trans ht (by omega))
  · exact (reads_shorthand s).bind fun sel t ht => reads_ok ht

theorem sated_bracket (h : 8 * s.length + 2 ≤ fuel + 1) :
    Reads s.length (parseBracket (fuel + 1) depth s) := by
  have hblank := length_skipBlank s
  rw [parseBracket]
  refine (ih.selector depth _ (by omega)).bind fun sel t ht => ?_
  have hblank' := length_skipBlank t
  dsimp only
  split
  · next hcomma =>
      have hlen := length_of_starts hcomma
      exact (ih.bracket depth _ (by omega)).bind fun sels u hu => reads_ok (le_trans hu (by omega))
  · split
    · exact reads_ok (by simp; omega)
    · exact reads_err

theorem sated_selector (h : 8 * s.length + 1 ≤ fuel + 1) :
    Reads s.length (parseSelector (fuel + 1) depth s) := by
  rw [parseSelector]
  split
  · exact reads_ok (by simp)
  · split
    · have hlen : s.tail.length ≤ s.length := by simp
      exact (reads_stringBody _ 0 s.tail).bind fun name t ht => reads_ok (le_trans ht hlen)
    · split
      · next hquestion =>
          have hlen := length_of_starts hquestion
          have hblank := length_skipBlank s.tail
          exact (ih.logicalOr depth _ (by omega)).bind fun e t ht =>
            reads_ok (le_trans ht (by omega))
      · split
        · exact reads_indexOrSlice s
        · exact reads_err

theorem sated_logicalOr (h : 8 * s.length + 6 ≤ fuel + 1) :
    Reads s.length (parseLogicalOr (fuel + 1) depth s) := by
  rw [parseLogicalOr]
  refine (ih.logicalAnd depth s (by omega)).bind fun left t ht => ?_
  exact (ih.orRest depth left t (by omega)).mono ht

theorem sated_logicalAnd (h : 8 * s.length + 5 ≤ fuel + 1) :
    Reads s.length (parseLogicalAnd (fuel + 1) depth s) := by
  rw [parseLogicalAnd]
  refine (ih.basic depth s (by omega)).bind fun left t ht => ?_
  exact (ih.andRest depth left t (by omega)).mono ht

theorem sated_orRest {e : Expr} (h : 8 * s.length + 1 ≤ fuel + 1) :
    Reads s.length (orRest (fuel + 1) depth e s) := by
  have hblank := length_skipBlank s
  rw [orRest]
  dsimp only
  split
  · next hor =>
      have hlen := startsText_length hor
      have hdrop := List.length_drop (i := 2) (l := skipBlank s)
      have htwo : "||".toList.length = 2 := rfl
      have hblank' := length_skipBlank ((skipBlank s).drop 2)
      refine (ih.logicalAnd depth _ (by omega)).bind fun r t ht => ?_
      exact (ih.orRest depth _ t (by omega)).mono (by omega)
  · exact reads_ok hblank

theorem sated_andRest {e : Expr} (h : 8 * s.length + 1 ≤ fuel + 1) :
    Reads s.length (andRest (fuel + 1) depth e s) := by
  have hblank := length_skipBlank s
  rw [andRest]
  dsimp only
  split
  · next hand =>
      have hlen := startsText_length hand
      have hdrop := List.length_drop (i := 2) (l := skipBlank s)
      have htwo : "&&".toList.length = 2 := rfl
      have hblank' := length_skipBlank ((skipBlank s).drop 2)
      refine (ih.basic depth _ (by omega)).bind fun r t ht => ?_
      exact (ih.andRest depth _ t (by omega)).mono (by omega)
  · exact reads_ok hblank

theorem sated_basic (h : 8 * s.length + 4 ≤ fuel + 1) :
    Reads s.length (parseBasic (fuel + 1) depth s) := by
  have hblank := length_skipBlank s
  rw [parseBasic]
  dsimp only
  split
  · next hnot =>
      have hlen := length_of_starts hnot
      have hblank' := length_skipBlank (skipBlank s).tail
      refine reads_bind deeper_ne fun d _ => ?_
      refine (ih.basic d _ (by omega)).bind fun inner t ht => ?_
      exact reads_bind requireTestable_ne fun _ _ => reads_ok (le_trans ht (by omega))
  · split
    · next hopen =>
        have hlen := length_of_starts hopen
        have hblank' := length_skipBlank (skipBlank s).tail
        refine reads_bind deeper_ne fun d _ => ?_
        refine (ih.logicalOr d _ (by omega)).bind fun e t ht => ?_
        dsimp only
        have hblank'' := length_skipBlank t
        refine reads_bind eat_ne fun t' ht' => ?_
        have hlen' := eat_ok ht'
        exact reads_ok (by omega)
    · refine (ih.comparable depth _ (by omega)).bind fun first t ht => ?_
      have hblank' := length_skipBlank t
      dsimp only
      split
      · next op width hop =>
          obtain ⟨hone, hwidth⟩ := peekCompareOp_width hop
          have hdrop := List.length_drop (i := width) (l := skipBlank t)
          have hblank'' := length_skipBlank ((skipBlank t).drop width)
          refine (ih.comparable depth _ (by omega)).bind fun second u hu => ?_
          refine reads_bind requireComparable_ne fun _ _ => ?_
          refine reads_bind requireComparable_ne fun _ _ => ?_
          exact reads_ok (le_trans hu (by omega))
      · refine reads_bind requireTestable_ne fun _ _ => ?_
        exact reads_ok (by omega)

theorem sated_comparable (h : 8 * s.length + 3 ≤ fuel + 1) :
    Reads s.length (parseComparableOrQuery (fuel + 1) depth s) := by
  rw [parseComparableOrQuery]
  split
  · next r hr => exact reads_literal hr
  · split
    · exact ih.filterQuery depth s (by omega)
    · split
      · exact ih.function depth s (by omega)
      · exact reads_err

theorem sated_filterQuery (h : 8 * s.length + 2 ≤ fuel + 1) :
    Reads s.length (parseFilterQuery (fuel + 1) depth s) := by
  rw [parseFilterQuery]
  have hlen : s.tail.length ≤ s.length := by simp
  exact (ih.segments depth s.tail (by omega)).bind fun segs t ht =>
    reads_ok (le_trans ht hlen)

theorem sated_function (h : 8 * s.length + 1 ≤ fuel + 1) :
    Reads s.length (parseFunction (fuel + 1) depth s) := by
  rw [parseFunction]
  dsimp only
  have hname := (List.dropWhile_suffix (l := s)
    fun u => isLower u || u = unit '_' || isDigitUnit u).length_le
  split
  · exact reads_err
  · refine reads_bind eat_ne fun t ht => ?_
    have hopen := eat_ok ht
    have hblank := length_skipBlank t
    split
    · exact (reads_closeCall _ _ _).mono (by omega)
    · refine (ih.args depth _ (by omega)).bind fun args u hu => ?_
      exact (reads_closeCall _ _ _).mono (le_trans hu (by omega))

theorem sated_args (h : 8 * s.length + 8 ≤ fuel + 1) :
    Reads s.length (parseArgs (fuel + 1) depth s) := by
  have hblank := length_skipBlank s
  rw [parseArgs]
  refine (ih.arg depth _ (by omega)).bind fun arg t ht => ?_
  have hblank' := length_skipBlank t
  dsimp only
  split
  · next hcomma =>
      have hlen := length_of_starts hcomma
      exact (ih.args depth _ (by omega)).bind fun args u hu =>
        reads_ok (le_trans hu (by omega))
  · exact reads_ok (by omega)

theorem sated_arg (h : 8 * s.length + 7 ≤ fuel + 1) :
    Reads s.length (parseFunctionArg (fuel + 1) depth s) := by
  rw [parseFunctionArg]
  split
  · next r hr => exact reads_literal hr
  · split
    · exact ih.filterQuery depth s (by omega)
    · split
      · exact ih.function depth s (by omega)
      · split
        · exact ih.logicalOr depth s (by omega)
        · exact reads_err

end sated

theorem sated (fuel : Nat) : Sated fuel := by
  induction fuel with
  | zero => constructor <;> intros <;> omega
  | succ fuel ih =>
      exact {
        segments := fun _ s => sated_segments ih s
        descendant := fun _ s => sated_descendant ih s
        bracket := fun _ s => sated_bracket ih s
        selector := fun _ s => sated_selector ih s
        logicalOr := fun _ s => sated_logicalOr ih s
        orRest := fun _ _ s => sated_orRest ih s
        logicalAnd := fun _ s => sated_logicalAnd ih s
        andRest := fun _ _ s => sated_andRest ih s
        basic := fun _ s => sated_basic ih s
        comparable := fun _ s => sated_comparable ih s
        filterQuery := fun _ s => sated_filterQuery ih s
        function := fun _ s => sated_function ih s
        args := fun _ s => sated_args ih s
        arg := fun _ s => sated_arg ih s }

/-- The fuel of a text is enough. -/
theorem parse_ne_spent (path : JsString) : parse path ≠ .error .spent := by
  rw [parse]
  split
  · have hlen : path.tail.length ≤ path.length := by simp
    have hsegs := (sated (8 * path.length + 1)).segments 0 path.tail (by omega)
    cases hr : parseSegments (8 * path.length + 1) 0 path.tail with
    | error e =>
        intro heq
        refine hsegs.1 ?_
        rw [hr]
        cases heq
        rfl
    | ok p =>
        simp only [bind, Except.bind]
        split <;> simp [err]
  · simp [err]

/-! ## Places -/

/-- The value one step below another. -/
def below : Token → Json → Option Json
  | .name name, v => member name v
  | .index i, .arr items => items[i]?
  | .index _, _ => none

/-- The value at a path. -/
def locate : List Token → Json → Option Json
  | [], v => some v
  | t :: tokens, v => (below t v).bind (locate tokens)

theorem locate_append (tokens : List Token) (t : Token) (v : Json) :
    locate (tokens ++ [t]) v = (locate tokens v).bind (below t) := by
  induction tokens generalizing v with
  | nil =>
      rw [List.nil_append, locate]
      cases hb : below t v <;> simp [locate, hb]
  | cons t' tokens ih =>
      rw [List.cons_append, locate, locate, Option.bind_assoc]
      exact Option.bind_congr fun w _ => ih w

/-- What `JSON.parse` gives: the names of an object differ, and an array has fewer than 2 ^ 32
elements. -/
inductive Fits : Json → Prop
  | null : Fits .null
  | bool (b : Bool) : Fits (.bool b)
  | num (x : Double) : Fits (.num x)
  | str (s : JsString) : Fits (.str s)
  | arr (items : List Json) (hlength : items.length < 2 ^ 32) (h : ∀ v ∈ items, Fits v) :
      Fits (.arr items)
  | obj (entries : List (JsString × Json)) (hnames : (entries.map Prod.fst).Nodup)
      (h : ∀ e ∈ entries, Fits e.2) : Fits (.obj entries)

structure Doc where
  value : Json
  fits : Fits value

theorem below_fits {t : Token} {v w : Json} (hv : Fits v) (h : below t v = some w) :
    Fits w ∧ Small t := by
  cases t with
  | name name =>
      cases hv with
      | obj entries _ hall =>
          obtain ⟨_, _, rfl, -⟩ := List.lookup_eq_some_iff.mp h
          exact ⟨hall (name, w) (List.mem_append_right _ List.mem_cons_self), trivial⟩
      | _ => cases h
  | index i =>
      cases hv with
      | arr items hlength hall =>
          obtain ⟨hi, rfl⟩ := List.getElem?_eq_some_iff.mp h
          refine ⟨hall _ (List.getElem_mem hi), ?_⟩
          rw [Small]
          omega
      | _ => cases h

/-- A node at its place in a document. -/
structure At (doc : Json) (n : Node) : Prop where
  located : locate n.path doc = some n.value
  fits : Fits n.value
  small : ∀ t ∈ n.path, Small t

/-- One node is a step below another. -/
def Child (node n : Node) : Prop :=
  ∃ t w, below t node.value = some w ∧ n = ⟨w, node.path ++ [t]⟩

theorem At.child {doc : Json} {node n : Node} (h : At doc node) (hc : Child node n) :
    At doc n := by
  obtain ⟨t, w, hbelow, rfl⟩ := hc
  obtain ⟨hfits, hsmall⟩ := below_fits h.fits hbelow
  refine ⟨?_, hfits, ?_⟩
  · rw [locate_append, h.located]
    exact hbelow
  · intro t' ht'
    rcases List.mem_append.mp ht' with ht' | ht'
    · exact h.small t' ht'
    · obtain rfl := List.mem_singleton.mp ht'
      exact hsmall

/-! ## Evaluation -/

theorem lookup_of_mem {entries : List (JsString × Json)} (h : (entries.map Prod.fst).Nodup)
    {e : JsString × Json} (he : e ∈ entries) : entries.lookup e.1 = some e.2 := by
  obtain ⟨before, after, rfl⟩ := List.append_of_mem he
  refine List.lookup_eq_some_iff.mpr ⟨before, after, rfl, fun p hp => ?_⟩
  rw [List.map_append, List.map_cons] at h
  have hne := (List.nodup_append.mp h).2.2 p.1 (List.mem_map_of_mem hp) e.1 List.mem_cons_self
  simpa using fun heq : e.1 = p.1 => hne heq.symm

theorem child_item {node : Node} {items : List Json} (hnode : node.value = .arr items) {i : Nat}
    {w : Json} (h : items[i]? = some w) : Child node ⟨w, node.path ++ [.index i]⟩ :=
  ⟨.index i, w, by rw [hnode]; exact h, rfl⟩

theorem child_entry {node : Node} {entries : List (JsString × Json)}
    (hnode : node.value = .obj entries) (h : (entries.map Prod.fst).Nodup)
    {e : JsString × Json} (he : e ∈ entries) : Child node ⟨e.2, node.path ++ [.name e.1]⟩ :=
  ⟨.name e.1, e.2, by rw [hnode]; exact lookup_of_mem h he, rfl⟩

theorem mem_childItems {path : List Token} {items : List Json} {i : Nat} {n : Node}
    (h : n ∈ childItems path i items) :
    ∃ j w, items[j]? = some w ∧ n = ⟨w, path ++ [.index (i + j)]⟩ := by
  induction items generalizing i with
  | nil => cases h
  | cons v vs ih =>
      rcases List.mem_cons.mp h with rfl | h
      · exact ⟨0, v, rfl, rfl⟩
      · obtain ⟨j, w, hw, rfl⟩ := ih h
        exact ⟨j + 1, w, hw, by rw [Nat.add_assoc, Nat.add_comm 1 j]⟩

theorem children_child {node n : Node} (hfits : Fits node.value) (h : n ∈ children node) :
    Child node n := by
  rw [children.eq_def] at h
  split at h
  · next items hnode =>
      obtain ⟨j, w, hw, rfl⟩ := mem_childItems h
      rw [Nat.zero_add]
      exact child_item hnode hw
  · next entries hnode =>
      obtain ⟨e, he, rfl⟩ := List.mem_map.mp h
      rw [hnode] at hfits
      cases hfits with
      | obj _ hnames _ => exact child_entry hnode hnames he
  · cases h

theorem pick_child {node n : Node} {items : List Json} (hnode : node.value = .arr items) {i : Int}
    (h : pick node items i = some n) : Child node n := by
  obtain ⟨w, hw, rfl⟩ := Option.map_eq_some_iff.mp h
  exact child_item hnode hw

section eval

variable {test : Bool → JsString → JsString → Except Fault Bool}

theorem keep_mem {f : Node → Except Fault Bool} {nodes kept : List Node}
    (h : keep f nodes = .ok kept) : ∀ n ∈ kept, n ∈ nodes := by
  induction nodes generalizing kept with
  | nil =>
      cases h
      exact fun n hn => hn
  | cons node nodes ih =>
      rw [keep, Checked.bind_eq_ok] at h
      obtain ⟨b, -, h⟩ := h
      rw [Checked.bind_eq_ok] at h
      obtain ⟨rest, hrest, h⟩ := h
      cases h
      intro n hn
      split at hn
      · rcases List.mem_cons.mp hn with rfl | hn
        · exact List.mem_cons_self
        · exact List.mem_cons_of_mem _ (ih hrest n hn)
      · exact List.mem_cons_of_mem _ (ih hrest n hn)

theorem collect_mem {f : Node → Except Fault (List Node)} {nodes found : List Node}
    (h : collect f nodes = .ok found) :
    ∀ n ∈ found, ∃ node ∈ nodes, ∃ ns, f node = .ok ns ∧ n ∈ ns := by
  induction nodes generalizing found with
  | nil =>
      cases h
      exact fun n hn => nomatch hn
  | cons node nodes ih =>
      rw [collect, Checked.bind_eq_ok] at h
      obtain ⟨a, ha, h⟩ := h
      rw [Checked.bind_eq_ok] at h
      obtain ⟨b, hb, h⟩ := h
      cases h
      intro n hn
      rcases List.mem_append.mp hn with hn | hn
      · exact ⟨node, List.mem_cons_self, a, ha, hn⟩
      · obtain ⟨node', hmem, hns⟩ := ih hb n hn
        exact ⟨node', List.mem_cons_of_mem _ hmem, hns⟩

/-- Whatever a selector finds is a step below the node. -/
theorem applySelector_child {sel : Selector} {root : Json} {node : Node} {ns : List Node}
    (hfits : Fits node.value) (h : applySelector test sel root node = .ok ns) :
    ∀ n ∈ ns, Child node n := by
  intro n hn
  cases sel with
  | name name =>
      rw [applySelector] at h
      cases h
      obtain ⟨w, hw, rfl⟩ := Option.map_eq_some_iff.mp (Option.mem_toList.mp hn)
      exact ⟨.name name, w, hw, rfl⟩
  | wildcard =>
      rw [applySelector] at h
      cases h
      exact children_child hfits hn
  | index i =>
      rw [applySelector] at h
      cases h
      split at hn
      · next items hnode =>
          obtain ⟨k, -, hk⟩ := Option.bind_eq_some_iff.mp (Option.mem_toList.mp hn)
          exact pick_child hnode hk
      · cases hn
  | slice start stop step =>
      rw [applySelector] at h
      cases h
      rw [applySlice.eq_def] at hn
      split at hn
      · next items hnode =>
          obtain ⟨i, -, hi⟩ := List.mem_filterMap.mp hn
          exact pick_child hnode hi
      · cases hn
  | filter e =>
      rw [applySelector] at h
      exact children_child hfits (keep_mem h n hn)

theorem applySelectors_child {sels : List Selector} {root : Json} {node : Node} {ns : List Node}
    (hfits : Fits node.value) (h : applySelectors test sels root node = .ok ns) :
    ∀ n ∈ ns, Child node n := by
  induction sels generalizing ns with
  | nil =>
      rw [applySelectors] at h
      cases h
      exact fun n hn => nomatch hn
  | cons sel sels ih =>
      rw [applySelectors, Checked.bind_eq_ok] at h
      obtain ⟨a, ha, h⟩ := h
      rw [Checked.bind_eq_ok] at h
      obtain ⟨b, hb, h⟩ := h
      cases h
      intro n hn
      rcases List.mem_append.mp hn with hn | hn
      · exact applySelector_child hfits ha n hn
      · exact ih hb n hn

end eval

/-! ## Descent -/

mutual

theorem descend_at {doc : Json} : ∀ (v : Json) (path : List Token), At doc ⟨v, path⟩ →
    ∀ n ∈ descend v path, At doc n
  | .arr items, path, h => by
      intro n hn
      rcases List.mem_cons.mp hn with rfl | hn
      · exact h
      · refine descendItems_at items path 0 (fun j w hw => ?_) n hn
        rw [Nat.zero_add]
        exact h.child (child_item rfl hw)
  | .obj entries, path, h => by
      intro n hn
      rcases List.mem_cons.mp hn with rfl | hn
      · exact h
      · refine descendEntries_at entries path (fun e he => ?_) n hn
        cases h.fits with
        | obj _ hnames _ => exact h.child (child_entry rfl hnames he)
  | .null, path, h => List.forall_mem_singleton.mpr h
  | .bool b, path, h => List.forall_mem_singleton.mpr h
  | .num x, path, h => List.forall_mem_singleton.mpr h
  | .str s, path, h => List.forall_mem_singleton.mpr h

theorem descendItems_at {doc : Json} : ∀ (items : List Json) (path : List Token) (i : Nat),
    (∀ j w, items[j]? = some w → At doc ⟨w, path ++ [.index (i + j)]⟩) →
    ∀ n ∈ descendItems path i items, At doc n
  | [], _, _, _ => fun _ hn => nomatch hn
  | v :: vs, path, i, h => by
      intro n hn
      rcases List.mem_append.mp hn with hn | hn
      · exact descend_at v _ (h 0 v rfl) n hn
      · refine descendItems_at vs path (i + 1) (fun j w hw => ?_) n hn
        rw [Nat.add_assoc, Nat.add_comm 1 j]
        exact h (j + 1) w hw

theorem descendEntries_at {doc : Json} : ∀ (entries : List (JsString × Json))
    (path : List Token), (∀ e ∈ entries, At doc ⟨e.2, path ++ [.name e.1]⟩) →
    ∀ n ∈ descendEntries path entries, At doc n
  | [], _, _ => fun _ hn => nomatch hn
  | (k, v) :: es, path, h => by
      intro n hn
      rcases List.mem_append.mp hn with hn | hn
      · exact descend_at v _ (h (k, v) List.mem_cons_self) n hn
      · exact descendEntries_at es path (fun e he => h e (List.mem_cons_of_mem _ he)) n hn

end

theorem walk_at {doc : Json} {nodes base : List Node} (h : lift (walk nodes) = .ok base)
    (hnodes : ∀ n ∈ nodes, At doc n) : ∀ n ∈ base, At doc n := by
  rw [walk] at h
  split at h
  · cases h
  · cases h
    intro n hn
    obtain ⟨node, hnode, hn⟩ := List.mem_flatMap.mp hn
    exact descend_at node.value node.path (hnodes node hnode) n hn

variable {test : Bool → JsString → JsString → Except Fault Bool}

/-- Every node a query finds stands at its path. -/
theorem evalSegments_at {doc : Json} {segs : List Segment} {root : Json} {nodes ns : List Node}
    (h : evalSegments test segs root nodes = .ok ns) (hnodes : ∀ n ∈ nodes, At doc n) :
    ∀ n ∈ ns, At doc n := by
  induction segs generalizing nodes with
  | nil =>
      rw [evalSegments] at h
      cases h
      exact hnodes
  | cons seg segs ih =>
      obtain ⟨descendant, sels⟩ := seg
      rw [evalSegments, Checked.bind_eq_ok] at h
      obtain ⟨base, hbase, h⟩ := h
      rw [Checked.bind_eq_ok] at h
      obtain ⟨found, hfound, h⟩ := h
      have hat : ∀ n ∈ base, At doc n := by
        split at hbase
        · exact walk_at hbase hnodes
        · cases hbase
          exact hnodes
      split at h
      · cases h
      · refine ih h fun n hn => ?_
        obtain ⟨node, hnode, ns', hns', hn⟩ := collect_mem hfound n hn
        exact (hat node hnode).child
          (applySelectors_child (hat node hnode).fits hns' n hn)

/-- One token selects what stands one step below, and nothing else. -/
theorem applySelectors_token (t : Token) (root : Json) {v w : Json} (path : List Token)
    (h : below t v = some w) :
    applySelectors test [selectorOf t] root ⟨v, path⟩ = .ok [⟨w, path ++ [t]⟩] := by
  cases t with
  | name name =>
      have hm : member name v = some w := h
      simp [selectorOf, applySelectors, applySelector, hm, bind, Except.bind]
  | index i =>
      cases v with
      | arr items =>
          have hi : items[i]? = some w := h
          obtain ⟨hlt, -⟩ := List.getElem?_eq_some_iff.mp hi
          have hplace : place items.length (i : Int) = some i := by
            have hneg : ¬ (i : Int) < 0 := by omega
            simp only [place, if_neg hneg]
            rw [if_pos ⟨by omega, by omega⟩, Int.toNat_natCast]
          simp [selectorOf, applySelectors, applySelector, hplace, pick, hi, bind, Except.bind]
      | _ => cases h

/-- The segments of a path lead to the one node that stands there. -/
theorem evalSegments_tokens (root : Json) {tokens : List Token} {v w : Json} (path : List Token)
    (h : locate tokens v = some w) :
    evalSegments test (tokens.map segmentOf) root [⟨v, path⟩] = .ok [⟨w, path ++ tokens⟩] := by
  induction tokens generalizing v path with
  | nil =>
      obtain rfl := Option.some.inj h
      rw [List.map_nil, evalSegments, List.append_nil]
  | cons t tokens ih =>
      rw [locate] at h
      obtain ⟨u, hu, h⟩ := Option.bind_eq_some_iff.mp h
      have hrest := ih (path ++ [t]) h
      rw [List.append_assoc, List.singleton_append] at hrest
      rw [List.map_cons, segmentOf, evalSegments]
      simp only [Bool.false_eq_true, if_false, bind, Except.bind, collect,
        applySelectors_token t root path hu, List.append_nil, List.length_singleton]
      rw [if_neg (by decide), hrest]

/-! ## Queries and paths -/

theorem segmentOf_injective : Function.Injective segmentOf := by
  intro t t' h
  cases t with
  | name name =>
      cases t' with
      | name name' =>
          simp only [segmentOf, selectorOf, Segment.mk.injEq, List.cons.injEq,
            Selector.name.injEq] at h
          rw [h.2.1]
      | index i => simp [segmentOf, selectorOf] at h
  | index i =>
      cases t' with
      | name name' => simp [segmentOf, selectorOf] at h
      | index i' =>
          simp only [segmentOf, selectorOf, Segment.mk.injEq, List.cons.injEq,
            Selector.index.injEq] at h
          rw [Int.ofNat.inj h.2.1]

theorem normalizedPath_injective {tokens tokens' : List Token} (h : ∀ t ∈ tokens, Small t)
    (h' : ∀ t ∈ tokens', Small t) (heq : normalizedPath tokens = normalizedPath tokens') :
    tokens = tokens' := by
  have hparse := parse_normalizedPath h
  rw [heq, parse_normalizedPath h'] at hparse
  exact (List.map_injective_iff.mpr segmentOf_injective (Except.ok.inj hparse)).symm

theorem locate_small {tokens : List Token} {v : Json} (hv : Fits v)
    (h : (locate tokens v).isSome) : ∀ t ∈ tokens, Small t := by
  induction tokens generalizing v with
  | nil => exact fun t ht => nomatch ht
  | cons t tokens ih =>
      obtain ⟨w, hw⟩ := Option.isSome_iff_exists.mp h
      rw [locate] at hw
      obtain ⟨u, hu, hw⟩ := Option.bind_eq_some_iff.mp hw
      obtain ⟨hfits, hsmall⟩ := below_fits hv hu
      exact List.forall_mem_cons.mpr ⟨hsmall, ih hfits (by rw [hw]; rfl)⟩

/-- A node that stands at its path is what its normalized path selects. -/
theorem At.query {doc : Json} {n : Node} (h : At doc n) :
    query test doc (normalizedPath n.path) = .ok [n.value] := by
  have hnodes : nodes test doc (normalizedPath n.path) = .ok [⟨n.value, n.path⟩] := by
    rw [nodes, parse_normalizedPath h.small]
    exact evalSegments_tokens doc [] h.located
  rw [JsonPathText.query, hnodes]
  rfl

theorem nodes_at (doc : Doc) {path : JsString} {ns : List Node}
    (h : nodes test doc.value path = .ok ns) : ∀ n ∈ ns, At doc.value n := by
  rw [nodes, Checked.bind_eq_ok] at h
  obtain ⟨segs, -, h⟩ := h
  exact evalSegments_at h (List.forall_mem_singleton.mpr ⟨rfl, doc.fits, fun _ ht => nomatch ht⟩)

/-- `paths` and `query` answer together; each path leads back to the value at its index, and no
two places of the document have one path. -/
theorem paths_lead_back (test : Bool → JsString → JsString → Except Fault Bool) (doc : Doc)
    (q : JsString) :
    (∀ e, query test doc.value q = .error e ↔ paths test doc.value q = .error e) ∧
    (∀ vs ps, query test doc.value q = .ok vs → paths test doc.value q = .ok ps →
      ps.length = vs.length ∧
      ∀ (i : Nat) (v : Json) (p : JsString), vs[i]? = some v → ps[i]? = some p →
        query test doc.value p = .ok [v]) ∧
    (∀ tokens tokens', (locate tokens doc.value).isSome → (locate tokens' doc.value).isSome →
      normalizedPath tokens = normalizedPath tokens' → tokens = tokens') := by
  refine ⟨?_, ?_, fun tokens tokens' h h' => normalizedPath_injective
    (locate_small doc.fits h) (locate_small doc.fits h')⟩
  · intro e
    rw [query, paths]
    cases nodes test doc.value q with
    | error e' => simp [Except.map]
    | ok ns => simp [Except.map]
  · intro vs ps hvs hps
    rw [query, Checked.map_eq_ok] at hvs
    obtain ⟨ns, hns, rfl⟩ := hvs
    rw [paths, hns] at hps
    obtain rfl := Except.ok.inj hps
    refine ⟨by rw [List.length_map, List.length_map], fun i v p hv hp => ?_⟩
    rw [List.getElem?_map] at hv hp
    obtain ⟨n, hn, rfl⟩ := Option.map_eq_some_iff.mp hv
    rw [hn] at hp
    obtain rfl := Option.some.inj hp
    exact (nodes_at doc hns n (List.mem_of_getElem? hn)).query

/-- `{"it's": [true, null]}` -/
def quotedDoc : Doc where
  value := .obj [(units "it's", .arr [.bool true, .null])]
  fits := by
    refine .obj _ (by decide) fun e he => ?_
    obtain rfl := List.mem_singleton.mp he
    refine .arr _ (by decide) fun v hv => ?_
    rcases List.mem_cons.mp hv with rfl | hv
    · exact .bool true
    · obtain rfl := List.mem_singleton.mp hv
      exact .null

theorem paths_lead_back_quoted :
    query (fun _ _ _ => .ok false) quotedDoc.value (units "$['it\\'s'][1]") = .ok [.null] := by
  have hpaths : paths (fun _ _ _ => .ok false) quotedDoc.value (units "$[*][1]") =
      .ok [units "$['it\\'s'][1]"] := by decide +kernel
  have hquery : query (fun _ _ _ => .ok false) quotedDoc.value (units "$[*][1]") =
      .ok [.null] := by with_unfolding_all rfl
  exact ((paths_lead_back (fun _ _ _ => .ok false) quotedDoc (units "$[*][1]")).2.1 [.null]
    [units "$['it\\'s'][1]"] hquery hpaths).2 0 .null _ rfl rfl

/-! ## The evaluator without the parser

What `JsonPath` evaluates is syntax that the parser builds, and it is evaluated as here.
-/

def ofSingle : Single → Segment
  | .name name => .mk false [.name name]
  | .index i => .mk false [.index i]

mutual

def ofSelector : JsonPath.Selector → Selector
  | .name name => .name name
  | .wildcard => .wildcard
  | .index i => .index i
  | .slice start stop step => .slice start stop step
  | .filter e => .filter (ofLogical e)

def ofSelectors : List JsonPath.Selector → List Selector
  | [] => []
  | sel :: sels => ofSelector sel :: ofSelectors sels

def ofSegments : List JsonPath.Segment → List Segment
  | [] => []
  | .mk descendant sels :: segs => .mk descendant (ofSelectors sels) :: ofSegments segs

def ofComparable : JsonPath.Comparable → Expr
  | .lit v => .lit v
  | .query absolute path => .query absolute (path.map ofSingle)
  | .length arg => .func .length [ofComparable arg]
  | .count absolute segs => .func .count [.query absolute (ofSegments segs)]
  | .value absolute segs => .func .value [.query absolute (ofSegments segs)]

def ofLogical : JsonPath.Logical → Expr
  | .or a b => .or (ofLogical a) (ofLogical b)
  | .and a b => .and (ofLogical a) (ofLogical b)
  | .not e => .not (ofLogical e)
  | .compare op a b => .compare op (ofComparable a) (ofComparable b)
  | .query absolute segs => .query absolute (ofSegments segs)

end

theorem lift_bind {α β : Type} (x : Except JsonPath.Err α) (f : α → Except JsonPath.Err β) :
    lift (x >>= f) = lift x >>= fun a => lift (f a) := by
  cases x with
  | ok a => rfl
  | error e => rfl

theorem keep_lift {f : Node → Except JsonPath.Err Bool} {g : Node → Except Fault Bool}
    (h : ∀ node, g node = lift (f node)) (ns : List Node) : keep g ns = lift (keep f ns) := by
  induction ns with
  | nil => rfl
  | cons node ns ih =>
      rw [keep, keep, h, ih, lift_bind]
      simp only [lift_bind]
      rfl

theorem collect_lift {f : Node → Except JsonPath.Err (List Node)}
    {g : Node → Except Fault (List Node)} (h : ∀ node, g node = lift (f node)) (ns : List Node) :
    collect g ns = lift (collect f ns) := by
  induction ns with
  | nil => rfl
  | cons node ns ih =>
      rw [collect, collect, h, ih, lift_bind]
      simp only [lift_bind]
      rfl

theorem singularValue_of (path : List Single) (v : Json) :
    singularValue (path.map ofSingle) v = JsonPath.singularValue path v := by
  induction path generalizing v with
  | nil => rfl
  | cons s path ih =>
      cases s with
      | name name =>
          rw [List.map_cons, ofSingle, singularValue, JsonPath.singularValue, single]
          exact congrArg _ (funext ih)
      | index i =>
          rw [List.map_cons, ofSingle, singularValue, JsonPath.singularValue, single]
          exact congrArg _ (funext ih)

section embed

variable (test : Bool → JsString → JsString → Except Fault Bool)

mutual

theorem applySelector_of : ∀ (sel : JsonPath.Selector) (root : Json) (node : Node),
    applySelector test (ofSelector sel) root node = lift (JsonPath.applySelector sel root node)
  | .name _, _, _ => rfl
  | .wildcard, _, _ => rfl
  | .index _, _, _ => rfl
  | .slice .., _, _ => rfl
  | .filter e, root, _ => keep_lift (evalLogical_of e root) _

theorem applySelectors_of : ∀ (sels : List JsonPath.Selector) (root : Json) (node : Node),
    applySelectors test (ofSelectors sels) root node =
      lift (JsonPath.applySelectors sels root node)
  | [], _, _ => rfl
  | sel :: sels, root, node => by
      rw [ofSelectors, applySelectors, JsonPath.applySelectors, applySelector_of sel root node,
        applySelectors_of sels root node]
      simp only [lift_bind]
      rfl

theorem evalSegments_of : ∀ (segs : List JsonPath.Segment) (root : Json) (ns : List Node),
    evalSegments test (ofSegments segs) root ns = lift (JsonPath.evalSegments segs root ns)
  | [], _, _ => rfl
  | .mk descendant sels :: segs, root, ns => by
      rw [ofSegments, evalSegments, JsonPath.evalSegments, lift_bind]
      have hcollect := collect_lift (applySelectors_of sels root)
      have hrest := evalSegments_of segs root
      simp only [lift_bind, hcollect, hrest]
      cases descendant with
      | true => simp only [if_true, apply_ite lift]; rfl
      | false => simp only [Bool.false_eq_true, if_false, apply_ite lift]; rfl

theorem evalValue_of : ∀ (e : JsonPath.Comparable) (root : Json) (node : Node),
    evalValue test (ofComparable e) root node = lift (JsonPath.evalComparable e root node)
  | .lit _, _, _ => rfl
  | .query absolute path, root, node => by
      rw [ofComparable, evalValue, JsonPath.evalComparable, singularValue_of]
      rfl
  | .length arg, root, node => by
      rw [ofComparable, evalValue, JsonPath.evalComparable, evalValue_of arg root node, lift_bind]
      rfl
  | .count absolute segs, root, node => by
      rw [ofComparable, evalValue, evalNodes, JsonPath.evalComparable, evalSegments_of segs,
        lift_bind]
      rfl
  | .value absolute segs, root, node => by
      rw [ofComparable, evalValue, evalNodes, JsonPath.evalComparable, evalSegments_of segs,
        lift_bind]
      rfl

theorem evalLogical_of : ∀ (e : JsonPath.Logical) (root : Json) (node : Node),
    evalLogical test (ofLogical e) root node = lift (JsonPath.evalLogical e root node)
  | .or a b, root, node => by
      rw [ofLogical, evalLogical, JsonPath.evalLogical, evalLogical_of a root node,
        evalLogical_of b root node, lift_bind]
      simp only [apply_ite lift]
      rfl
  | .and a b, root, node => by
      rw [ofLogical, evalLogical, JsonPath.evalLogical, evalLogical_of a root node,
        evalLogical_of b root node, lift_bind]
      simp only [apply_ite lift]
      rfl
  | .not e, root, node => by
      rw [ofLogical, evalLogical, JsonPath.evalLogical, evalLogical_of e root node, lift_bind]
      rfl
  | .compare op a b, root, node => by
      rw [ofLogical, evalLogical, JsonPath.evalLogical, evalValue_of a root node,
        evalValue_of b root node]
      simp only [lift_bind]
      rfl
  | .query absolute segs, root, node => by
      rw [ofLogical, evalLogical, JsonPath.evalLogical, evalSegments_of segs, lift_bind]
      rfl

end

/-- A text that is read as such a query has its nodes. -/
theorem nodes_of {path : JsString} {segs : List JsonPath.Segment}
    (h : parse path = .ok (ofSegments segs)) (doc : Json) :
    nodes test doc path = lift (JsonPath.query doc segs) := by
  rw [nodes, h]
  exact evalSegments_of test segs doc _

end embed

end Blamejs.JsonPathText
