import Blamejs.Js.NumberText

/-!
# What `JSON.stringify` writes for a primitive

Strings are quoted with the shortest escape the grammar has. A surrogate pair
is written as it stands and a lone surrogate as `\udxxx`, so the text is well
formed whatever the string was, and `unquote` gets the string back unit for
unit. Numbers have no such luck: NaN and the infinities have no JSON form and
are written `null`.
-/

namespace Blamejs.Js

/-- A digit of `\uXXXX`. -/
def hexDigit (n : Nat) : UInt16 := unit n.digitChar

def hexValue (u : UInt16) : Nat :=
  if isDigitUnit u then u.toNat - 48 else u.toNat - 87

/-- `n` as four lower-case hex digits. -/
def hex4 (n : Nat) : JsString :=
  [hexDigit (n / 0x1000 % 16), hexDigit (n / 0x100 % 16), hexDigit (n / 0x10 % 16),
    hexDigit (n % 16)]

/-- The two-character escapes, with what each stands for. -/
def shortEscapes : List (UInt16 × UInt16) :=
  [(unit 'b', 0x08), (unit 't', 0x09), (unit 'n', 0x0A), (unit 'f', 0x0C), (unit 'r', 0x0D),
    (unit '"', 0x22), (unit '\\', 0x5C)]

/-- A unit that is not half of a pair. -/
def quoteUnit (u : UInt16) : JsString :=
  match shortEscapes.find? (·.2 = u) with
  | some (c, _) => [unit '\\', c]
  | none =>
      if u.toNat < 0x20 || isHigh u || isLow u then unit '\\' :: unit 'u' :: hex4 u.toNat
      else [u]

def quoteBody : JsString → JsString
  | [] => []
  | [u] => quoteUnit u
  | u :: v :: rest =>
      if isHigh u && isLow v then u :: v :: quoteBody rest
      else quoteUnit u ++ quoteBody (v :: rest)

/-- `JSON.stringify(s)` for a string. -/
def quote (s : JsString) : JsString := unit '"' :: (quoteBody s ++ [unit '"'])

/-- `JSON.stringify(x)` for a number. -/
def jsonNumber (x : Double) : JsString :=
  if x.isFinite then numberText x else units "null"

/-- `JSON.stringify(b)` for a boolean. -/
def jsonBool (b : Bool) : JsString := if b then units "true" else units "false"

/-! ## Reading a quoted string back -/

/-- Reads up to the closing quote: the string, and what follows it. -/
def unquote : JsString → Option (JsString × JsString)
  | [] => none
  | u :: rest =>
      if u = unit '"' then some ([], rest)
      else if u = unit '\\' then
        match rest with
        | [] => none
        | c :: rest =>
            if c = unit 'u' then
              match rest with
              | a :: b :: d :: e :: rest =>
                  (unquote rest).map fun p =>
                    (UInt16.ofNat (((hexValue a * 16 + hexValue b) * 16 + hexValue d) * 16
                      + hexValue e) :: p.1, p.2)
              | _ => none
            else
              match shortEscapes.find? (·.1 = c) with
              | some (_, v) => (unquote rest).map fun p => (v :: p.1, p.2)
              | none => none
      else (unquote rest).map fun p => (u :: p.1, p.2)

theorem unquote_close (rest : JsString) : unquote (unit '"' :: rest) = some ([], rest) := by
  rw [unquote.eq_def]
  rfl

theorem hexValue_hexDigit {n : Nat} (h : n < 16) : hexValue (hexDigit n) = n := by
  have : ∀ i : Fin 16, hexValue (hexDigit i) = i := by decide
  exact this ⟨n, h⟩

/-- The escape table read in either direction. -/
theorem shortEscapes_find {u : UInt16} {e : UInt16 × UInt16}
    (h : shortEscapes.find? (·.2 = u) = some e) :
    shortEscapes.find? (·.1 = e.1) = some e ∧ e.2 = u ∧ e.1 ≠ unit 'u' := by
  have hall : shortEscapes.all fun e =>
      shortEscapes.find? (·.1 = e.1) = some e ∧ e.1 ≠ unit 'u' := by decide
  have hu : e.2 = u := by simpa using List.find?_some h
  have he := List.all_eq_true.mp hall e (List.mem_of_find?_eq_some h)
  obtain ⟨hfind, hne⟩ := of_decide_eq_true he
  exact ⟨hfind, hu, hne⟩

/-- Units that mean something in a quoted string are written escaped. -/
theorem plain_of_find_none {u : UInt16} (h : shortEscapes.find? (·.2 = u) = none) :
    u ≠ unit '"' ∧ u ≠ unit '\\' := by
  rw [List.find?_eq_none] at h
  constructor
  · rintro rfl
    exact h (unit '"', 0x22) (by decide) (by decide)
  · rintro rfl
    exact h (unit '\\', 0x5C) (by decide) (by decide)

/-! ## The text is well formed, whatever the string -/

theorem wellFormed_of_plain {l : JsString} (h : ∀ u ∈ l, u.toNat < 0xD800) : WellFormed l := by
  induction l with
  | nil => exact wellFormed_nil
  | cons u l ih =>
      have hu := h u List.mem_cons_self
      refine wellFormed_append (s := [u]) (wellFormed_single ?_ ?_)
        (ih fun v hv => h v (List.mem_cons_of_mem _ hv))
      · simp only [isHigh, Bool.and_eq_false_iff, decide_eq_false_iff_not]; omega
      · simp only [isLow, Bool.and_eq_false_iff, decide_eq_false_iff_not]; omega

theorem hexDigit_lt (n : Nat) : (hexDigit (n % 16)).toNat < 0xD800 := by
  have : ∀ i : Fin 16, (hexDigit i).toNat < 0xD800 := by decide
  exact this ⟨n % 16, Nat.mod_lt _ (by decide)⟩

theorem wellFormed_quoteUnit (u : UInt16) : WellFormed (quoteUnit u) := by
  have hback : (unit '\\').toNat < 0xD800 := by decide
  unfold quoteUnit
  split
  · next c v h =>
      have hall : shortEscapes.all fun e => e.1.toNat < 0xD800 := by decide
      have hc := of_decide_eq_true (List.all_eq_true.mp hall _ (List.mem_of_find?_eq_some h))
      exact wellFormed_of_plain (by simpa using ⟨hback, hc⟩)
  · split
    · refine wellFormed_of_plain (List.forall_mem_cons.mpr ⟨hback, List.forall_mem_cons.mpr
        ⟨by decide, ?_⟩⟩)
      simp only [hex4, List.mem_cons, List.not_mem_nil, or_false, forall_eq_or_imp, forall_eq,
        hexDigit_lt, and_self]
    · next h =>
        simp only [Bool.or_eq_true, not_or, Bool.not_eq_true] at h
        exact wellFormed_single h.1.2 h.2

theorem wellFormed_quoteBody (s : JsString) : WellFormed (quoteBody s) := by
  induction s using quoteBody.induct with
  | case1 => exact wellFormed_nil
  | case2 u => exact wellFormed_quoteUnit u
  | case3 u v s hpair ih =>
      rw [quoteBody, if_pos hpair]
      rw [Bool.and_eq_true] at hpair
      exact wellFormed_append (s := [u, v]) (wellFormed_pair hpair.1 hpair.2) ih
  | case4 u v s hpair ih =>
      rw [quoteBody, if_neg hpair]
      exact wellFormed_append (wellFormed_quoteUnit u) ih

theorem wellFormed_quote (s : JsString) : WellFormed (quote s) :=
  wellFormed_append (s := [unit '"']) (by decide)
    (wellFormed_append (wellFormed_quoteBody s) (by decide))

/-! ## Reading it -/

theorem unquote_hex4 (n : Nat) (h : n < 0x10000) (rest : JsString) :
    unquote (unit '\\' :: unit 'u' :: (hex4 n ++ rest))
      = (unquote rest).map fun p => (UInt16.ofNat n :: p.1, p.2) := by
  have hquote : unit '\\' ≠ unit '"' := by decide
  have hval : ((hexValue (hexDigit (n / 0x1000 % 16)) * 16
      + hexValue (hexDigit (n / 0x100 % 16))) * 16
      + hexValue (hexDigit (n / 0x10 % 16))) * 16 + hexValue (hexDigit (n % 16)) = n := by
    rw [hexValue_hexDigit (Nat.mod_lt _ (by decide)), hexValue_hexDigit (Nat.mod_lt _ (by decide)),
      hexValue_hexDigit (Nat.mod_lt _ (by decide)), hexValue_hexDigit (Nat.mod_lt _ (by decide))]
    omega
  rw [unquote.eq_def]
  simp only [hex4, List.cons_append, List.nil_append, if_neg hquote, if_true, hval]

theorem unquote_plain {u : UInt16} (hq : u ≠ unit '"') (hb : u ≠ unit '\\')
    (rest : JsString) :
    unquote (u :: rest) = (unquote rest).map fun p => (u :: p.1, p.2) := by
  rw [unquote.eq_def]
  simp only [if_neg hq, if_neg hb]

theorem unquote_quoteUnit (u : UInt16) (rest : JsString) :
    unquote (quoteUnit u ++ rest) = (unquote rest).map fun p => (u :: p.1, p.2) := by
  have hquote : unit '\\' ≠ unit '"' := by decide
  unfold quoteUnit
  split
  · next c v h =>
      obtain ⟨hfind, rfl, hne⟩ := shortEscapes_find h
      rw [unquote.eq_def]
      simp only [List.cons_append, List.nil_append, if_neg hquote, if_true, if_neg hne, hfind]
  · next h =>
      obtain ⟨hq, hb⟩ := plain_of_find_none h
      split
      · simpa using unquote_hex4 u.toNat u.toNat_lt rest
      · exact unquote_plain hq hb rest

theorem plain_of_surrogate {u : UInt16} (h : 0xD800 ≤ u.toNat) :
    u ≠ unit '"' ∧ u ≠ unit '\\' := by
  constructor <;> rintro rfl <;> exact absurd h (by decide)

theorem unquote_quoteBody (s rest : JsString) :
    unquote (quoteBody s ++ unit '"' :: rest) = some (s, rest) := by
  induction s using quoteBody.induct with
  | case1 => exact unquote_close rest
  | case2 u => rw [quoteBody, unquote_quoteUnit, unquote_close]; rfl
  | case3 u v s hpair ih =>
      rw [quoteBody, if_pos hpair]
      simp only [isHigh, isLow, Bool.and_eq_true, decide_eq_true_eq] at hpair
      obtain ⟨hqu, hbu⟩ := plain_of_surrogate hpair.1.1
      obtain ⟨hqv, hbv⟩ := plain_of_surrogate (u := v) (by omega)
      rw [List.cons_append, List.cons_append, unquote_plain hqu hbu, unquote_plain hqv hbv, ih]
      rfl
  | case4 u v s hpair ih =>
      rw [quoteBody, if_neg hpair, List.append_assoc, unquote_quoteUnit, ih]
      rfl

theorem quote_append {s t r r' : JsString} (h : quote s ++ r = quote t ++ r') :
    s = t ∧ r = r' := by
  simp only [quote, List.cons_append, List.append_assoc, List.nil_append,
    List.cons.injEq, true_and] at h
  have hs := unquote_quoteBody s r
  rw [h, unquote_quoteBody] at hs
  simpa [eq_comm] using hs

end Blamejs.Js
