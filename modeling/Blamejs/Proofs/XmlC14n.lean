import Mathlib
import Blamejs.Spec.XmlMarkup
import Blamejs.Lib.Checked

/-!
# What the XML reader accounts for

The reader is followed along a reading of the text as markup: where every comment and
instruction is clear, each of its steps takes just the markup that comes next, so that
the markup of a parsed text is misc, the root element's, and what is left. What is left
is not looked at: the tree accounts for the text exactly if the text is whole.

`OneRoot` does not see the inside of an element (`Content.oneRoot`), which is what makes
the two notions meet.
-/

namespace Blamejs.XmlC14n

open Blamejs.Js

/-! ## Searching -/

theorem isPrefixOf_iff {pat s : JsString} : pat.isPrefixOf s = true ↔ pat <+: s :=
  List.isPrefixOf_iff_prefix

theorem isPrefixOf_split {pat s : JsString} (h : pat.isPrefixOf s = true) :
    ∃ r, s = pat ++ r := by
  obtain ⟨r, rfl⟩ := isPrefixOf_iff.mp h
  exact ⟨r, rfl⟩

theorem indexOf_prefix {pat s : JsString} {n : Nat} (h : indexOf pat s = some n) :
    pat <+: s.drop n := by
  induction s generalizing n with
  | nil =>
      rw [indexOf] at h
      split at h
      · next hpat => rw [hpat]; exact List.nil_prefix
      · cases h
  | cons u s ih =>
      rw [indexOf] at h
      split at h
      · next hpre =>
          cases h
          exact isPrefixOf_iff.mp hpre
      · obtain ⟨m, hm, rfl⟩ := Option.map_eq_some_iff.mp h
        exact ih hm

/-- Units that the mark does not begin with are passed over. -/
theorem indexOf_skip {v : UInt16} {pat pre : JsString} (h : ∀ u ∈ pre, u ≠ v) (s : JsString) :
    indexOf (v :: pat) (pre ++ s) = (indexOf (v :: pat) s).map (pre.length + ·) := by
  induction pre with
  | nil => simp
  | cons u pre ih =>
      have hu : v ≠ u := (h u List.mem_cons_self).symm
      have hpre : (v :: pat).isPrefixOf (u :: (pre ++ s)) = false := by
        rw [List.isPrefixOf, beq_eq_false_iff_ne.mpr hu, Bool.false_and]
      rw [List.cons_append, indexOf, hpre, ih fun w hw => h w (List.mem_cons_of_mem _ hw),
        Option.map_map]
      simp only [Bool.false_eq_true, if_false]
      congr 1
      funext n
      simp only [Function.comp_apply, List.length_cons]
      omega

theorem indexOf_here {pat : JsString} (hne : pat ≠ []) (s : JsString) :
    indexOf pat (pat ++ s) = some 0 := by
  obtain ⟨u, pat, rfl⟩ := List.exists_cons_of_ne_nil hne
  exact if_pos (isPrefixOf_iff.mpr ⟨s, rfl⟩)

theorem upTo_eq_some {mark s t r : JsString} (h : upTo mark s = some (t, r)) :
    ∃ n, indexOf mark s = some n ∧ t = s.take n ∧ r = s.drop (n + mark.length) := by
  obtain ⟨n, hn, hp⟩ := Option.map_eq_some_iff.mp h
  obtain ⟨rfl, rfl⟩ := Prod.mk.inj hp
  exact ⟨n, hn, rfl, rfl⟩

/-- The text that ends at a mark begins with `v`, if the mark is not there yet. -/
theorem begins_take {v w : UInt16} {pat s : JsString} {n : Nat}
    (h : indexOf (w :: pat) (v :: s) = some n) (hne : w ≠ v) : [v] <+: (v :: s).take n := by
  cases n with
  | zero =>
      have := indexOf_prefix h
      rw [List.drop_zero, List.cons_prefix_cons] at this
      exact absurd this.1 hne
  | succ n => rw [List.take_succ_cons]; exact ⟨_, rfl⟩

/-- The search from the opening of a comment finds the end of a clear one. -/
theorem indexOf_comment {s : JsString} {t r : JsString}
    (h : upTo (units "-->") (s.drop 4) = some (t, r)) (hpre : (units "<!--").isPrefixOf s = true)
    (hclear : (Markup.comment t).Clear) :
    ∃ stop, indexOf (units "-->") s = some stop ∧ (s.take stop).drop 4 = t ∧
      s.drop (stop + 3) = r := by
  obtain ⟨s, rfl⟩ := isPrefixOf_split hpre
  obtain ⟨n, hn, rfl, rfl⟩ := upTo_eq_some (show upTo (units "-->") s = some (t, r) from h)
  refine ⟨4 + n, ?_, ?_, ?_⟩
  · have hfirst : ¬ units "-->" <+: units "--" ++ s := by
      rintro ⟨q, hq⟩
      obtain ⟨rfl⟩ : s = units ">" ++ q := by
        simpa [units, unit] using hq.symm
      exact hclear.1 (begins_take hn (by decide))
    have hsecond : ¬ units "-->" <+: units "-" ++ s := by
      rintro ⟨q, hq⟩
      obtain ⟨rfl⟩ : s = units "->" ++ q := by
        simpa [units, unit] using hq.symm
      refine hclear.2 ?_
      rcases n with _ | _ | n
      · obtain ⟨q', hq'⟩ := indexOf_prefix hn
        simp [units, unit] at hq'
      · obtain ⟨q', hq'⟩ := indexOf_prefix hn
        simp [units, unit] at hq'
      · exact ⟨q.take n, rfl⟩
    have hskip : indexOf (units "-->") (units "<!" ++ (units "--" ++ s)) =
        (indexOf (units "-->") (units "--" ++ s)).map (2 + ·) :=
      @indexOf_skip (unit '-') (units "->") (units "<!")
        (List.all_iff_forall_prop.mp (by decide)) _
    have htwo : indexOf (units "-->") (units "--" ++ s) =
        (indexOf (units "-->") s).map (· + 2) := by
      have h₁ : ¬ (units "-->").isPrefixOf (units "--" ++ s) = true :=
        fun hp => hfirst (isPrefixOf_iff.mp hp)
      have h₂ : ¬ (units "-->").isPrefixOf (units "-" ++ s) = true :=
        fun hp => hsecond (isPrefixOf_iff.mp hp)
      rw [show units "--" ++ s = unit '-' :: (units "-" ++ s) from rfl] at h₁ ⊢
      rw [show units "-" ++ s = unit '-' :: s from rfl] at h₁ h₂ ⊢
      rw [indexOf, if_neg h₁, indexOf, if_neg h₂, Option.map_map]
      rfl
    rw [show units "<!--" ++ s = units "<!" ++ (units "--" ++ s) from rfl, hskip, htwo, hn]
    simp only [Option.map_some, Option.some.injEq]
    omega
  · rw [List.drop_take, show 4 + n - 4 = n by omega]
    rfl
  · rw [show 4 + n + 3 = 4 + (n + 3) by omega, ← List.drop_drop]
    rfl

theorem indexOf_cdata {s t r : JsString} (h : upTo (units "]]>") (s.drop 9) = some (t, r))
    (hpre : (units "<![CDATA[").isPrefixOf s = true) :
    ∃ stop, indexOf (units "]]>") s = some stop ∧ (s.take stop).drop 9 = t ∧
      s.drop (stop + 3) = r := by
  obtain ⟨s, rfl⟩ := isPrefixOf_split hpre
  obtain ⟨n, hn, rfl, rfl⟩ := upTo_eq_some (show upTo (units "]]>") s = some (t, r) from h)
  have hskip : indexOf (units "]]>") (units "<![CDATA[" ++ s) =
      (indexOf (units "]]>") s).map (9 + ·) :=
    @indexOf_skip (unit ']') (units "]>") (units "<![CDATA[")
      (List.all_iff_forall_prop.mp (by decide)) _
  refine ⟨9 + n, ?_, ?_, ?_⟩
  · rw [hskip, hn]
    rfl
  · rw [List.drop_take, show 9 + n - 9 = n by omega]
    rfl
  · rw [show 9 + n + 3 = 9 + (n + 3) by omega, ← List.drop_drop]
    rfl

/-- The search from the opening of an instruction finds the end of a clear one. -/
theorem indexOf_instruction {s t r : JsString} (h : upTo (units "?>") (s.drop 2) = some (t, r))
    (hpre : (units "<?").isPrefixOf s = true) (hclear : (Markup.instruction t).Clear) :
    ∃ stop, indexOf (units "?>") s = some stop ∧ s.drop (stop + 2) = r := by
  obtain ⟨s, rfl⟩ := isPrefixOf_split hpre
  obtain ⟨n, hn, rfl, rfl⟩ := upTo_eq_some (show upTo (units "?>") s = some (t, r) from h)
  have hskip : indexOf (units "?>") (units "<" ++ (units "?" ++ s)) =
      (indexOf (units "?>") (units "?" ++ s)).map (1 + ·) :=
    @indexOf_skip (unit '?') (units ">") (units "<")
      (List.all_iff_forall_prop.mp (by decide)) _
  have hfirst : ¬ (units "?>").isPrefixOf (unit '?' :: s) = true := by
    intro hp
    obtain ⟨q, hq⟩ := isPrefixOf_split hp
    obtain ⟨rfl⟩ : s = units ">" ++ q := by
      simpa [units, unit] using hq
    exact hclear (begins_take hn (by decide))
  have hone : indexOf (units "?>") (units "?" ++ s) = (indexOf (units "?>") s).map (· + 1) := by
    rw [show units "?" ++ s = unit '?' :: s from rfl, indexOf, if_neg hfirst]
  refine ⟨2 + n, ?_, ?_⟩
  · rw [show units "<?" ++ s = units "<" ++ (units "?" ++ s) from rfl, hskip, hone, hn]
    simp only [Option.map_some, Option.some.injEq]
    omega
  · rw [show 2 + n + 2 = 2 + (n + 2) by omega, ← List.drop_drop]
    rfl

/-! ## Reading -/

theorem next_nil : next [] = none := rfl

theorem Reads.inv {s : JsString} {ms : List Markup} (h : Reads s ms []) (hne : s ≠ []) :
    ∃ m s' ms', next s = some (m, s') ∧ ms = m :: ms' ∧ Reads s' ms' [] := by
  cases h with
  | nil => exact absurd rfl hne
  | cons hnext hreads => exact ⟨_, _, _, hnext, rfl, hreads⟩

theorem Reads.eq_nil {ms : List Markup} (h : Reads [] ms []) : ms = [] := by
  cases h with
  | nil => rfl
  | cons hnext _ => rw [next_nil] at hnext; cases hnext

/-- A text has one reading. -/
theorem Reads.unique {s : JsString} {ms ms' : List Markup} (h : Reads s ms [])
    (h' : Reads s ms' []) : ms = ms' := by
  generalize hr : ([] : JsString) = rest at h
  induction h generalizing ms' with
  | nil s =>
      subst hr
      exact h'.eq_nil.symm
  | @cons s s₁ rest m ms hnext hreads ih =>
      have hne : s ≠ [] := by
        rintro rfl
        rw [next_nil] at hnext
        cases hnext
      obtain ⟨m', s₁', ms₁, hnext', rfl, hreads'⟩ := h'.inv hne
      rw [hnext] at hnext'
      cases hnext'
      rw [ih hreads' hr]

theorem next_char {u : UInt16} (h : u ≠ unit '<') (s : JsString) :
    next (u :: s) = some (.char u, s) := by
  have hpre : ∀ pat, (unit '<' :: pat).isPrefixOf (u :: s) = false := fun pat => by
    rw [List.isPrefixOf, beq_eq_false_iff_ne.mpr h.symm, Bool.false_and]
  rw [next, if_neg (by rw [show units "<!--" = unit '<' :: units "!--" from rfl, hpre]; simp),
    if_neg (by rw [show units "<![CDATA[" = unit '<' :: units "![CDATA[" from rfl, hpre]; simp),
    if_neg (by rw [show units "<?" = unit '<' :: units "?" from rfl, hpre]; simp),
    if_neg (by rw [show units "</" = unit '<' :: units "/" from rfl, hpre]; simp)]
  exact if_neg h

/-- Text without a `<` is read unit by unit. -/
theorem Reads.chars {us s : JsString} {ms : List Markup} (hus : ∀ u ∈ us, u ≠ unit '<')
    (h : Reads (us ++ s) ms []) : ∃ ms', ms = us.map .char ++ ms' ∧ Reads s ms' [] := by
  induction us generalizing ms with
  | nil => exact ⟨ms, rfl, h⟩
  | cons u us ih =>
      obtain ⟨m, s', ms', hnext, rfl, hreads⟩ := h.inv (by simp)
      rw [List.cons_append, next_char (hus u List.mem_cons_self)] at hnext
      cases hnext
      obtain ⟨ms', rfl, hrest⟩ := ih (fun v hv => hus v (List.mem_cons_of_mem _ hv)) hreads
      exact ⟨ms', rfl, hrest⟩

/-! ## Tags -/

/-- From here on, these lexemes up to the end of the tag. -/
def Lexed (s : JsString) (ls : List Lexeme) (empty : Bool) (rest : JsString) : Prop :=
  ∀ fuel, s.length < fuel → lexemes fuel s = some (ls, empty, rest)

variable {s rest : JsString} {ls : List Lexeme} {empty : Bool}

theorem lexed_close : Lexed (unit '>' :: s) [] false s := by
  rintro (_ | fuel) hfuel
  · cases hfuel
  · exact if_pos rfl

theorem lexed_empty : Lexed (unit '/' :: unit '>' :: s) [] true s := by
  rintro (_ | fuel) hfuel
  · cases hfuel
  · rw [lexemes, if_neg (by decide), if_pos ⟨rfl, rfl⟩]
    rfl

theorem Lexed.other {u : UInt16} (h : Lexed s ls empty rest)
    (hu : u ≠ unit '>' ∧ u ≠ unit '/' ∧ u ≠ unit '"' ∧ u ≠ unit '\'')
    (hname : isNameUnit u = false) : Lexed (u :: s) ls empty rest := by
  rintro (_ | fuel) hfuel
  · cases hfuel
  · rw [lexemes, if_neg hu.1, if_neg fun hp => hu.2.1 hp.1,
      if_neg fun hp => hp.elim hu.2.2.1 hu.2.2.2, if_neg (by rw [hname]; simp)]
    exact h fuel (by simpa using hfuel)

theorem isNameUnit_range {u : UInt16} (h : isNameUnit u = true) :
    isWhite u = false ∧ u ≠ unit '>' ∧ u ≠ unit '/' ∧ u ≠ unit '"' ∧ u ≠ unit '\'' ∧
      u ≠ unit '<' := by
  have hn : u.toNat = 58 ∨ u.toNat = 95 ∨ u.toNat = 45 ∨ u.toNat = 46 ∨
      (48 ≤ u.toNat ∧ u.toNat ≤ 57) ∨ (65 ≤ u.toNat ∧ u.toNat ≤ 90) ∨
      (97 ≤ u.toNat ∧ u.toNat ≤ 122) := by
    simp only [isNameUnit, isNameStart, isLetter, isDigitUnit, Bool.or_eq_true, Bool.and_eq_true,
      decide_eq_true_eq, beq_iff_eq, ← UInt16.toNat_inj] at h
    simp only [show (unit '_').toNat = 95 from rfl, show (unit ':').toNat = 58 from rfl,
      show (unit '.').toNat = 46 from rfl, show (unit '-').toNat = 45 from rfl] at h
    omega
  refine ⟨?_, ?_⟩
  · simp only [isWhite, Bool.or_eq_false_iff, Bool.and_eq_false_iff, decide_eq_false_iff_not,
      beq_eq_false_iff_ne]
    omega
  · simp only [ne_eq, ← UInt16.toNat_inj, show (unit '>').toNat = 62 from rfl,
      show (unit '/').toNat = 47 from rfl, show (unit '"').toNat = 34 from rfl,
      show (unit '\'').toNat = 39 from rfl, show (unit '<').toNat = 60 from rfl]
    omega

theorem isWhite_range {u : UInt16} (h : isWhite u = true) :
    isNameUnit u = false ∧ u ≠ unit '>' ∧ u ≠ unit '/' ∧ u ≠ unit '"' ∧ u ≠ unit '\'' ∧
      u ≠ unit '<' := by
  refine ⟨?_, ?_⟩
  · by_contra hname
    rw [(isNameUnit_range (eq_true_of_ne_false hname)).1] at h
    cases h
  · refine ⟨?_, ?_, ?_, ?_, ?_⟩ <;> (rintro rfl; exact absurd h (by decide))

theorem Lexed.white (h : Lexed (skipWhitespace s) ls empty rest) : Lexed s ls empty rest := by
  induction s with
  | nil => exact h
  | cons u s ih =>
      rw [skipWhitespace, List.dropWhile_cons] at h
      split at h
      · next hu =>
          obtain ⟨hname, h₁, h₂, h₃, h₄, -⟩ := isWhite_range hu
          exact (ih h).other ⟨h₁, h₂, h₃, h₄⟩ hname
      · exact h

theorem readName_ok {total : Nat} {name : JsString} (h : readName total s = .ok (name, rest)) :
    ∃ u s', s = u :: s' ∧ isNameStart u = true ∧ name = u :: s'.takeWhile isNameUnit ∧
      rest = s'.dropWhile isNameUnit := by
  cases s with
  | nil => cases h
  | cons u s' =>
      rw [readName] at h
      split at h
      · next hu =>
          cases h
          exact ⟨u, s', rfl, hu, rfl, rfl⟩
      · cases h

theorem isNameUnit_of_start {u : UInt16} (h : isNameStart u = true) : isNameUnit u = true := by
  rw [isNameUnit, h]
  rfl

theorem Lexed.word {total : Nat} {name : JsString} {s' : JsString}
    (hname : readName total s = .ok (name, s')) (h : Lexed s' ls empty rest) :
    Lexed s (.word name :: ls) empty rest := by
  obtain ⟨u, s, rfl, hu, rfl, rfl⟩ := readName_ok hname
  have hunit := isNameUnit_of_start hu
  obtain ⟨-, h₁, h₂, h₃, h₄, -⟩ := isNameUnit_range hunit
  rintro (_ | fuel) hfuel
  · cases hfuel
  · have hlen := (List.dropWhile_suffix isNameUnit (l := s)).length_le
    rw [lexemes, if_neg h₁, if_neg fun hp => h₂ hp.1, if_neg fun hp => hp.elim h₃ h₄, if_pos hunit,
      h fuel (by rw [List.length_cons] at hfuel; omega)]
    rfl

/-- The reader of a value stops at its quote. -/
theorem readQuoted_ok {total : Nat} {quote : UInt16} {raw : JsString}
    (h : readQuoted total quote s = .ok (raw, rest)) :
    upTo [quote] s = some (raw, rest) ∧ rest.length < s.length := by
  induction s generalizing raw with
  | nil => cases h
  | cons u s ih =>
      rw [readQuoted] at h
      split at h
      · next hu =>
          cases h
          subst hu
          refine ⟨?_, Nat.lt_succ_self _⟩
          rw [upTo, show indexOf [u] (u :: rest) = some 0 from indexOf_here (by simp) rest]
          rfl
      · next hu =>
          split at h
          · cases h
          · obtain ⟨⟨raw', rest'⟩, hread, hok⟩ := Checked.bind_eq_ok.mp h
            cases hok
            obtain ⟨hupTo, hlen⟩ := ih hread
            refine ⟨?_, Nat.lt_succ_of_lt hlen⟩
            obtain ⟨n, hn, rfl, rfl⟩ := upTo_eq_some hupTo
            have hpre : [quote].isPrefixOf (u :: s) = false := by
              rw [List.isPrefixOf, beq_eq_false_iff_ne.mpr fun he => hu he.symm, Bool.false_and]
            rw [upTo, indexOf, hpre, hn]
            rfl

theorem readAttrValue_ok {total : Nat} {value : JsString}
    (h : readAttrValue total s = .ok (value, rest)) :
    ∃ quote s' raw, s = quote :: s' ∧ (quote = unit '"' ∨ quote = unit '\'') ∧
      readQuoted total quote s' = .ok (raw, rest) ∧ attrValue raw = .ok value := by
  cases s with
  | nil => cases h
  | cons quote s' =>
      rw [readAttrValue] at h
      split at h
      · next hquote =>
          obtain ⟨⟨raw, rest'⟩, hread, h⟩ := Checked.bind_eq_ok.mp h
          obtain ⟨value', hvalue, h⟩ := Checked.bind_eq_ok.mp h
          cases h
          exact ⟨quote, s', raw, rfl, hquote, hread, hvalue⟩
      · cases h

theorem Lexed.quoted {total : Nat} {quote : UInt16} {raw s' : JsString}
    (hquote : quote = unit '"' ∨ quote = unit '\'')
    (hread : readQuoted total quote s = .ok (raw, s')) (h : Lexed s' ls empty rest) :
    Lexed (quote :: s) (.quoted raw :: ls) empty rest := by
  obtain ⟨hupTo, hlen⟩ := readQuoted_ok hread
  rintro (_ | fuel) hfuel
  · cases hfuel
  · have h₁ : quote ≠ unit '>' := by rcases hquote with rfl | rfl <;> decide
    have h₂ : quote ≠ unit '/' := by rcases hquote with rfl | rfl <;> decide
    rw [lexemes, if_neg h₁, if_neg fun hp => h₂ hp.1, if_pos hquote, hupTo, Option.bind_some,
      h fuel (by rw [List.length_cons] at hfuel; omega)]
    rfl

/-- What the attributes of a tag look like. -/
def attrLexemes (raws : List (JsString × JsString)) : List Lexeme :=
  raws.flatMap fun raw => [.word raw.1, .quoted raw.2]

theorem attributes_attrLexemes (raws : List (JsString × JsString)) :
    attributes (attrLexemes raws) = raws := by
  induction raws with
  | nil => rfl
  | cons raw raws ih => exact congrArg (raw :: ·) ih

theorem skipWhitespace_cons {u : UInt16} (h : (skipWhitespace s).head? = some u) :
    ∃ s', skipWhitespace s = u :: s' := by
  cases hs : skipWhitespace s with
  | nil => rw [hs] at h; cases h
  | cons v s' => rw [hs] at h; cases h; exact ⟨s', rfl⟩

/-- The attributes that are read are those of the lexemes. -/
theorem readAttrs_ok {total fuel : Nat} {attrs : List Attr} {s' : JsString}
    (h : readAttrs total fuel s = .ok (attrs, s')) (hclose : Lexed s' [] empty rest) :
    ∃ raws, List.Forall₂ Reading raws attrs ∧ Lexed s (attrLexemes raws) empty rest := by
  induction fuel generalizing s attrs with
  | zero =>
      cases h
      exact ⟨[], .nil, hclose⟩
  | succ fuel ih =>
      rw [readAttrs] at h
      split at h
      · cases h
        exact ⟨[], .nil, hclose⟩
      · obtain ⟨⟨attrName, s₁⟩, hname, h⟩ := Checked.bind_eq_ok.mp h
        dsimp only at h
        split at h
        · next heq =>
            obtain ⟨⟨value, s₂⟩, hvalue, h⟩ := Checked.bind_eq_ok.mp h
            obtain ⟨⟨attrs', s₃⟩, hattrs, h⟩ := Checked.bind_eq_ok.mp h
            cases h
            obtain ⟨raws, hreading, hlexed⟩ := ih hattrs
            obtain ⟨quote, s₂', raw, hs₂, hquote, hread, hraw⟩ := readAttrValue_ok hvalue
            obtain ⟨s₁', hs₁⟩ := skipWhitespace_cons heq
            refine ⟨(attrName, raw) :: raws, .cons ⟨rfl, hraw⟩ hreading, ?_⟩
            refine Lexed.word hname (Lexed.white ?_)
            rw [hs₁] at hs₂ ⊢
            refine Lexed.other (Lexed.white ?_) (by decide) (by decide)
            rw [show skipWhitespace s₁' = quote :: s₂' from hs₂]
            exact Lexed.quoted hquote hread hlexed.white
        · cases h

theorem head?_cons {u : UInt16} (h : s.head? = some u) : ∃ s', s = u :: s' := by
  cases s with
  | nil => cases h
  | cons v s' => cases h; exact ⟨s', rfl⟩

theorem second_cons {u v : UInt16} (hu : s.head? = some u) (hv : s[1]? = some v) :
    ∃ s', s = u :: v :: s' := by
  obtain ⟨s', rfl⟩ := head?_cons hu
  cases s' with
  | nil => cases hv
  | cons w s' => cases hv; exact ⟨s', rfl⟩

/-- A start tag that is read comes next. -/
theorem startTag_ok {total : Nat} {name : JsString} {attrs : List Attr} {selfClosing : Bool}
    (h : startTag total s = .ok ((name, attrs, selfClosing), rest)) :
    (∀ u ∈ name, isNameUnit u = true) ∧ ∃ raws, List.Forall₂ Reading raws attrs ∧
      next s = some (.startTag name raws selfClosing, rest) := by
  rw [startTag] at h
  split at h
  · next hlt =>
      obtain ⟨s₀, rfl⟩ := head?_cons hlt
      obtain ⟨⟨name', s₁⟩, hname, h⟩ := Checked.bind_eq_ok.mp h
      obtain ⟨⟨attrs', s₂⟩, hattrs, h⟩ := Checked.bind_eq_ok.mp h
      have hfinal : name' = name ∧ attrs' = attrs ∧ Lexed s₂ [] selfClosing rest := by
        dsimp only at h
        split at h
        · next hslash =>
            split at h
            · next hgt =>
                obtain ⟨s₃, rfl⟩ := second_cons hslash hgt
                cases h
                exact ⟨rfl, rfl, lexed_empty⟩
            · cases h
        · split at h
          · next hgt =>
              obtain ⟨s₃, rfl⟩ := head?_cons hgt
              cases h
              exact ⟨rfl, rfl, lexed_close⟩
          · cases h
      obtain ⟨rfl, rfl, hclose⟩ := hfinal
      obtain ⟨raws, hreading, hlexed⟩ := readAttrs_ok hattrs hclose
      have hword : Lexed s₀ (.word name' :: attrLexemes raws) selfClosing rest :=
        Lexed.word hname hlexed.white
      obtain ⟨u, s', hs₀, hu, rfl, -⟩ := readName_ok hname
      obtain rfl : s₀ = u :: s' := hs₀
      refine ⟨?_, raws, hreading, ?_⟩
      · intro v hv
        rcases List.mem_cons.mp hv with rfl | hv
        · exact isNameUnit_of_start hu
        · exact List.mem_takeWhile_imp hv
      · -- a name begins none of the other kinds of markup
        have hpre : ∀ v pat, isNameStart v = false →
            (unit '<' :: v :: pat).isPrefixOf (unit '<' :: u :: s') = false := by
          intro v pat hv
          have hne : v ≠ u := by
            rintro rfl
            rw [hu] at hv
            cases hv
          rw [List.isPrefixOf, List.isPrefixOf, beq_eq_false_iff_ne.mpr hne, Bool.false_and,
            Bool.and_false]
        rw [next,
          if_neg (by rw [show units "<!--" = unit '<' :: unit '!' :: units "--" from rfl,
            hpre _ _ (by decide)]; simp),
          if_neg (by rw [show units "<![CDATA[" = unit '<' :: unit '!' :: units "[CDATA[" from rfl,
            hpre _ _ (by decide)]; simp),
          if_neg (by rw [show units "<?" = unit '<' :: unit '?' :: [] from rfl,
            hpre _ _ (by decide)]; simp),
          if_neg (by rw [show units "</" = unit '<' :: unit '/' :: [] from rfl,
            hpre _ _ (by decide)]; simp)]
        rw [if_pos rfl, tag, hword _ (Nat.lt_succ_self _)]
        dsimp only
        rw [attributes_attrLexemes]
  · cases h

/-! ## Content -/

theorem next_comment (hpre : (units "<!--").isPrefixOf s = true) :
    next s = (upTo (units "-->") (s.drop 4)).map fun p => (.comment p.1, p.2) := if_pos hpre

theorem next_cdata (hpre : (units "<![CDATA[").isPrefixOf s = true) :
    next s = (upTo (units "]]>") (s.drop 9)).map fun p => (.cdata p.1, p.2) := by
  obtain ⟨s, rfl⟩ := isPrefixOf_split hpre
  rfl

theorem next_instruction (s : JsString) : next (unit '<' :: unit '?' :: s) =
    (upTo (units "?>") s).map fun p => (.instruction p.1, p.2) := rfl

theorem next_endTag (s : JsString) : next (unit '<' :: unit '/' :: s) =
    (upTo (units ">") s).map fun p => (.endTag p.1, p.2) := rfl

/-! ## Depth -/

theorem oneRoot_misc {seen : Bool} {before ms : List Markup} (h : ∀ m ∈ before, m.IsMisc) :
    OneRoot 0 seen (before ++ ms) ↔ OneRoot 0 seen ms := by
  induction before with
  | nil => exact Iff.rfl
  | cons m before ih =>
      have hm := h m List.mem_cons_self
      have ih' := ih fun m' hm' => h m' (List.mem_cons_of_mem _ hm')
      cases m with
      | char u => exact (and_iff_right hm).trans ih'
      | comment t => exact (and_iff_right trivial).trans ih'
      | instruction t => exact (and_iff_right trivial).trans ih'
      | cdata t => exact hm.elim
      | startTag name attrs empty => exact hm.elim
      | endTag name => exact hm.elim

theorem misc_of_oneRoot {ms : List Markup} (h : OneRoot 0 true ms) : ∀ m ∈ ms, m.IsMisc := by
  induction ms with
  | nil => exact fun m hm => nomatch hm
  | cons m ms ih =>
      have hm : m.IsMisc ∧ OneRoot 0 true ms := by
        cases m with
        | startTag name attrs empty => exact absurd h.1 (by decide)
        | char u => exact h
        | comment t => exact h
        | cdata t => exact h
        | instruction t => exact h
        | endTag name => exact h
      intro m' hm'
      rcases List.mem_cons.mp hm' with rfl | hm'
      · exact hm.1
      · exact ih hm.2 m' hm'

theorem chars_oneRoot {ms : List Markup} {depth : Nat} {seen : Bool} (us : JsString) :
    OneRoot (depth + 1) seen (us.map .char ++ ms) ↔ OneRoot (depth + 1) seen ms := by
  induction us with
  | nil => exact Iff.rfl
  | cons u us ih => exact ih

/-- The content of an element is passed over. -/
theorem Content.oneRoot {inner ms : List Markup} {nodes : List Node} {depth : Nat} {seen : Bool}
    (h : Content inner nodes) :
    OneRoot (depth + 1) seen (inner ++ ms) ↔ OneRoot (depth + 1) seen ms := by
  induction h generalizing depth ms with
  | nil => exact Iff.rfl
  | comment text _ ih => exact ih
  | cdata text _ ih => exact ih
  | instruction text _ ih => exact ih
  | @text us text ms' nodes _ _ _ ih =>
      rw [List.append_assoc]
      exact (chars_oneRoot us).trans ih
  | @element name raws attrs empty inner ms' children nodes _ _ _ _ ihinner ih =>
      rw [List.append_assoc]
      cases empty with
      | true => exact ih
      | false =>
          rw [enclosed, if_neg (by decide), List.cons_append, List.append_assoc]
          exact ihinner.trans ih

theorem Element.oneRoot {inside ms : List Markup} {root : Node} (h : Element inside root) :
    OneRoot 0 false (inside ++ ms) ↔ OneRoot 0 true ms := by
  obtain ⟨name, raws, attrs, empty, inner, children, rfl, -, -, -, hinner⟩ := h
  cases empty with
  | true => exact and_iff_right rfl
  | false =>
      rw [enclosed, if_neg (by decide), List.cons_append, List.append_assoc]
      exact (and_iff_right rfl).trans hinner.oneRoot

/-- An element is a content of one node. -/
theorem Element.content {inside : List Markup} {root : Node} (h : Element inside root) :
    Content inside [root] := by
  obtain ⟨name, raws, attrs, empty, inner, children, rfl, rfl, hattrs, hempty, hinner⟩ := h
  have := Content.element name hattrs hempty hinner .nil
  rwa [List.append_nil] at this

/-- Inside an element, or before the root, there is more to come than misc. -/
theorem more_of_oneRoot {depth : Nat} {seen : Bool} {ms : List Markup} (h : OneRoot depth seen ms)
    (hopen : depth ≠ 0 ∨ seen = false) : ¬ ∀ m ∈ ms, m.IsMisc := by
  intro hmisc
  induction ms generalizing depth with
  | nil =>
      obtain ⟨rfl, rfl⟩ : depth = 0 ∧ seen = true := by cases depth <;> exact h
      exact hopen.elim (fun hne => hne rfl) Bool.noConfusion
  | cons m ms ih =>
      have hm := hmisc m List.mem_cons_self
      have hrest : OneRoot depth seen ms := by
        cases m with
        | char u => cases depth with
          | zero => exact h.2
          | succ depth => exact h
        | comment t => cases depth with
          | zero => exact h.2
          | succ depth => exact h
        | instruction t => cases depth with
          | zero => exact h.2
          | succ depth => exact h
        | cdata t => exact hm.elim
        | startTag name attrs empty => exact hm.elim
        | endTag name => exact hm.elim
      exact ih hrest hopen fun m' hm' => hmisc m' (List.mem_cons_of_mem _ hm')

/-- The content of an element that begins stands inside it. -/
theorem oneRoot_inside {depth : Nat} {seen : Bool} {ms : List Markup} {name : JsString}
    {raws : List (JsString × JsString)} (h : OneRoot depth seen (.startTag name raws false :: ms)) :
    ∃ depth' seen', OneRoot (depth' + 1) seen' ms := by
  cases depth with
  | zero => exact ⟨0, true, h.2⟩
  | succ depth => exact ⟨depth + 1, seen, h⟩

theorem ClearBefore.drop {l ms : List Markup} (h : ClearBefore (l ++ ms)) : ClearBefore ms :=
  fun l' m r heq => h (l ++ l') m r (by rw [heq, List.append_assoc])

theorem ClearBefore.head {m : Markup} {ms : List Markup} (h : ClearBefore (m :: ms))
    (hmore : ¬ ∀ m' ∈ m :: ms, m'.IsMisc) : m.Clear :=
  (h [] m ms rfl).resolve_right hmore

/-! ## One step along a reading -/

/-- The clear comment that comes next is the one that is read. -/
theorem comment_step {ms : List Markup} (hpre : (units "<!--").isPrefixOf s = true)
    (h : Reads s ms []) (hclear : ClearBefore ms) (hmore : ¬ ∀ m ∈ ms, m.IsMisc) :
    ∃ stop ms', indexOf (units "-->") s = some stop ∧
      ms = .comment ((s.take stop).drop 4) :: ms' ∧ Reads (s.drop (stop + 3)) ms' [] := by
  obtain ⟨m, s', ms', hnext, rfl, hreads⟩ := h.inv (by rintro rfl; cases hpre)
  rw [next_comment hpre] at hnext
  obtain ⟨⟨t, r⟩, hupTo, hp⟩ := Option.map_eq_some_iff.mp hnext
  cases hp
  obtain ⟨stop, hstop, rfl, rfl⟩ :=
    indexOf_comment hupTo hpre (hclear.head hmore)
  exact ⟨stop, ms', hstop, rfl, hreads⟩

theorem cdata_step {ms : List Markup} (hpre : (units "<![CDATA[").isPrefixOf s = true)
    (h : Reads s ms []) :
    ∃ stop ms', indexOf (units "]]>") s = some stop ∧
      ms = .cdata ((s.take stop).drop 9) :: ms' ∧ Reads (s.drop (stop + 3)) ms' [] := by
  obtain ⟨m, s', ms', hnext, rfl, hreads⟩ := h.inv (by rintro rfl; cases hpre)
  rw [next_cdata hpre] at hnext
  obtain ⟨⟨t, r⟩, hupTo, hp⟩ := Option.map_eq_some_iff.mp hnext
  cases hp
  obtain ⟨stop, hstop, rfl, rfl⟩ := indexOf_cdata hupTo hpre
  exact ⟨stop, ms', hstop, rfl, hreads⟩

theorem instruction_step {ms : List Markup} (hpre : (units "<?").isPrefixOf s = true)
    (h : Reads s ms []) (hclear : ClearBefore ms) (hmore : ¬ ∀ m ∈ ms, m.IsMisc) :
    ∃ stop t ms', indexOf (units "?>") s = some stop ∧ ms = .instruction t :: ms' ∧
      Reads (s.drop (stop + 2)) ms' [] := by
  obtain ⟨s₁, rfl⟩ := isPrefixOf_split hpre
  obtain ⟨m, s', ms', hnext, rfl, hreads⟩ := h.inv (by intro he; cases he)
  rw [show units "<?" ++ s₁ = unit '<' :: unit '?' :: s₁ from rfl, next_instruction] at hnext
  obtain ⟨⟨t, r⟩, hupTo, hp⟩ := Option.map_eq_some_iff.mp hnext
  cases hp
  obtain ⟨stop, hstop, rfl⟩ := indexOf_instruction (s := units "<?" ++ s₁) hupTo hpre
    (hclear.head hmore)
  exact ⟨stop, t, ms', hstop, rfl, hreads⟩

theorem endTag_step {name : JsString} {ms : List Markup}
    (hname : ∀ u ∈ name, isNameUnit u = true)
    (h : Reads (units "</" ++ name ++ units ">" ++ s) ms []) :
    ∃ ms', ms = .endTag name :: ms' ∧ Reads s ms' [] := by
  obtain ⟨m, s', ms', hnext, rfl, hreads⟩ := h.inv (by intro he; cases he)
  have hupTo : upTo (units ">") (name ++ (units ">" ++ s)) = some (name, s) := by
    have hskip : indexOf (units ">") (name ++ (units ">" ++ s)) =
        (indexOf (units ">") (units ">" ++ s)).map (name.length + ·) :=
      @indexOf_skip (unit '>') [] name (fun u hu => (isNameUnit_range (hname u hu)).2.1) _
    rw [indexOf_here (by simp [units])] at hskip
    rw [upTo, hskip]
    simp [units, List.drop_append]
  rw [show units "</" ++ name ++ units ">" ++ s =
    unit '<' :: unit '/' :: (name ++ (units ">" ++ s)) by simp [units], next_endTag, hupTo] at hnext
  cases hnext
  exact ⟨ms', rfl, hreads⟩

/-- What reading an element does along a reading of the text that is clear up to the end of
the root. -/
def ReadsElement (child : JsString → Except Err (Node × JsString)) : Prop :=
  ∀ ⦃s node rest ms depth seen⦄, child s = .ok (node, rest) → Reads s ms [] → ClearBefore ms →
    OneRoot depth seen ms → ∃ inside ms', ms = inside ++ ms' ∧ Element inside node ∧
      Reads rest ms' []

theorem readContent_ok {total fuel : Nat} {child : JsString → Except Err (Node × JsString)}
    {name : JsString} {nodes : List Node} {ms : List Markup} (hchild : ReadsElement child)
    (hname : ∀ u ∈ name, isNameUnit u = true)
    (h : readContent total child name fuel s = .ok (nodes, rest)) (hreads : Reads s ms [])
    (hclear : ClearBefore ms) {depth : Nat} {seen : Bool} (hone : OneRoot (depth + 1) seen ms) :
    ∃ inner ms', ms = inner ++ .endTag name :: ms' ∧ Content inner nodes ∧ Reads rest ms' [] := by
  induction fuel generalizing s nodes ms with
  | zero => cases h
  | succ fuel ih =>
      have hmore := more_of_oneRoot hone (.inl (Nat.succ_ne_zero depth))
      rw [readContent] at h
      split at h
      · cases h
      next hne =>
      split at h
      · next hpre =>
          obtain ⟨stop, ms', hstop, rfl, hrest⟩ := comment_step hpre hreads hclear hmore
          rw [hstop] at h
          obtain ⟨⟨nodes', rest'⟩, hgo, hok⟩ := Checked.bind_eq_ok.mp h
          cases hok
          obtain ⟨inner, ms'', rfl, hcontent, hlast⟩ :=
            ih hgo hrest (hclear.drop (l := [_])) hone
          exact ⟨_ :: inner, ms'', rfl, .comment _ hcontent, hlast⟩
      next hcomment =>
      split at h
      · split at h
        · next hpre =>
            obtain ⟨stop, ms', hstop, rfl, hrest⟩ := cdata_step hpre hreads
            rw [hstop] at h
            obtain ⟨⟨nodes', rest'⟩, hgo, hok⟩ := Checked.bind_eq_ok.mp h
            cases hok
            obtain ⟨inner, ms'', rfl, hcontent, hlast⟩ :=
              ih hgo hrest (hclear.drop (l := [_])) hone
            exact ⟨_ :: inner, ms'', rfl, .cdata _ hcontent, hlast⟩
        next hmarkup _ =>
        split at h
        · next hquestion =>
            have hpre : (units "<?").isPrefixOf s = true := by
              obtain ⟨s₁, rfl⟩ := second_cons hmarkup.1 hquestion
              rfl
            obtain ⟨stop, t, ms', hstop, rfl, hrest⟩ := instruction_step hpre hreads hclear hmore
            rw [hstop] at h
            obtain ⟨inner, ms'', rfl, hcontent, hlast⟩ :=
              ih h hrest (hclear.drop (l := [_])) hone
            exact ⟨_ :: inner, ms'', rfl, .instruction _ hcontent, hlast⟩
        · obtain ⟨⟨node, s₁⟩, hnode, h⟩ := Checked.bind_eq_ok.mp h
          obtain ⟨⟨nodes', rest'⟩, hgo, hok⟩ := Checked.bind_eq_ok.mp h
          cases hok
          obtain ⟨inside, ms', rfl, helement, hrest⟩ := hchild hnode hreads hclear hone
          obtain ⟨inner, ms'', rfl, hcontent, hlast⟩ :=
            ih hgo hrest hclear.drop (helement.content.oneRoot.mp hone)
          obtain ⟨name', raws, attrs, empty, inner', children, rfl, rfl, hattrs, hempty, hin⟩ :=
            helement
          exact ⟨_, ms'', (List.append_assoc _ _ _).symm,
            .element name' hattrs hempty hin hcontent, hlast⟩
      next hmarkup =>
      split at h
      · dsimp only at h
        split at h
        · next hclose =>
            obtain ⟨s₁, rfl⟩ := isPrefixOf_split hclose
            cases h
            obtain ⟨ms', rfl, hlast⟩ := endTag_step hname hreads
            refine ⟨[], ms', rfl, .nil, ?_⟩
            rw [List.drop_left]
            exact hlast
        · cases h
      next hslash =>
      · obtain ⟨text, htext, h⟩ := Checked.bind_eq_ok.mp h
        obtain ⟨⟨nodes', rest'⟩, hgo, hok⟩ := Checked.bind_eq_ok.mp h
        cases hok
        have hlt : s.head? ≠ some (unit '<') := fun hhead =>
          hslash ⟨hhead, by_contra fun hnot => hmarkup ⟨hhead, hnot⟩⟩
        have hchars := hreads
        rw [← List.takeWhile_append_dropWhile (p := (· ≠ unit '<')) (l := s)] at hchars
        obtain ⟨ms', rfl, hrest⟩ := hchars.chars fun u hu => by
          simpa using List.mem_takeWhile_imp hu
        obtain ⟨inner, ms'', rfl, hcontent, hlast⟩ :=
          ih hgo hrest hclear.drop ((chars_oneRoot _).mp hone)
        refine ⟨_, ms'', (List.append_assoc _ _ _).symm, .text ?_ htext hcontent, hlast⟩
        obtain ⟨u, s₁, rfl⟩ := List.exists_cons_of_ne_nil hne
        rw [List.takeWhile_cons_of_pos (by simpa using hlt)]
        exact List.cons_ne_nil _ _

theorem parseElement_ok {total levels : Nat} : ReadsElement (parseElement total levels) := by
  induction levels with
  | zero =>
      intro s node rest ms depth seen h
      cases h
  | succ levels ih =>
      intro s node rest ms depth seen h hreads hclear hone
      rw [parseElement] at h
      obtain ⟨⟨⟨name, attrs, selfClosing⟩, s₁⟩, htag, h⟩ := Checked.bind_eq_ok.mp h
      obtain ⟨hname, raws, hattrs, hnext⟩ := startTag_ok htag
      obtain ⟨m, s', ms', hnext', rfl, hrest⟩ := hreads.inv (by
        rintro rfl
        rw [next_nil] at hnext
        cases hnext)
      rw [hnext] at hnext'
      cases hnext'
      dsimp only at h
      split at h
      · next hself =>
          cases h
          refine ⟨[.startTag name raws selfClosing], ms', rfl, ?_, hrest⟩
          exact ⟨name, raws, attrs, selfClosing, [], [], by rw [enclosed, if_pos hself], rfl,
            hattrs, fun _ => rfl, .nil⟩
      · next hself =>
          obtain ⟨⟨children, rest'⟩, hgo, hok⟩ := Checked.bind_eq_ok.mp h
          cases hok
          obtain ⟨depth', seen', hinside⟩ := oneRoot_inside (Bool.eq_false_iff.mpr hself ▸ hone)
          obtain ⟨inner, ms'', rfl, hcontent, hlast⟩ :=
            readContent_ok ih hname hgo hrest (hclear.drop (l := [_])) hinside
          refine ⟨enclosed name raws selfClosing inner, ms'', ?_, ?_, hlast⟩
          · rw [enclosed, if_neg hself]
            simp
          · exact ⟨name, raws, attrs, selfClosing, inner, children, rfl, rfl, hattrs,
              fun hp => absurd hp hself, hcontent⟩

theorem skipWhitespace_reads {ms : List Markup} (hreads : Reads s ms []) :
    ∃ before ms', ms = before ++ ms' ∧ (∀ m ∈ before, m.IsMisc) ∧
      Reads (skipWhitespace s) ms' [] := by
  rw [← List.takeWhile_append_dropWhile (p := isWhite) (l := s)] at hreads
  obtain ⟨ms', rfl, hrest⟩ := hreads.chars fun u hu =>
    (isWhite_range (List.mem_takeWhile_imp hu)).2.2.2.2.2
  refine ⟨_, ms', rfl, fun m hm => ?_, hrest⟩
  obtain ⟨u, hu, rfl⟩ := List.mem_map.mp hm
  exact List.mem_takeWhile_imp hu

/-- The prolog is misc. -/
theorem skipProlog_ok {total fuel : Nat} {ms : List Markup}
    (h : skipProlog total fuel s = .ok rest) (hreads : Reads s ms [])
    (hclear : ClearBefore ms) (hone : OneRoot 0 false ms) :
    ∃ before ms', ms = before ++ ms' ∧ (∀ m ∈ before, m.IsMisc) ∧ Reads rest ms' [] := by
  induction fuel generalizing s ms with
  | zero =>
      cases h
      exact ⟨[], ms, rfl, by simp, hreads⟩
  | succ fuel ih =>
      obtain ⟨white, ms₁, rfl, hwhite, hreads₁⟩ := skipWhitespace_reads hreads
      have hclear₁ : ClearBefore ms₁ := hclear.drop
      have hone₁ := (oneRoot_misc hwhite).mp hone
      have hmore := more_of_oneRoot hone₁ (.inr rfl)
      -- one piece of misc and the rest of the prolog
      have hstep : ∀ {m s' ms'}, m.IsMisc → ms₁ = m :: ms' → Reads s' ms' [] →
          skipProlog total fuel s' = .ok rest → ∃ before ms', white ++ ms₁ = before ++ ms' ∧
            (∀ m ∈ before, m.IsMisc) ∧ Reads rest ms' [] := by
        rintro m s' ms' hm rfl hrest hgo
        have hpiece : ∀ m' ∈ [m], m'.IsMisc := by simpa using hm
        have hone₂ := (oneRoot_misc hpiece).mp hone₁
        obtain ⟨before, ms'', rfl, hbefore, hlast⟩ :=
          ih hgo hrest (hclear₁.drop (l := [m])) hone₂
        refine ⟨white ++ m :: before, ms'', by simp, fun m' hm' => ?_, hlast⟩
        rcases List.mem_append.mp hm' with hm' | hm'
        · exact hwhite m' hm'
        · rcases List.mem_cons.mp hm' with rfl | hm'
          · exact hm
          · exact hbefore m' hm'
      rw [skipProlog] at h
      split at h
      · next hpre =>
          obtain ⟨stop, ms', hstop, hms, hrest⟩ := comment_step hpre hreads₁ hclear₁ hmore
          rw [hstop] at h
          exact hstep (m := .comment _) trivial hms hrest h
      · split at h
        · next hpre =>
            obtain ⟨stop, t, ms', hstop, hms, hrest⟩ := instruction_step hpre hreads₁ hclear₁ hmore
            rw [hstop] at h
            exact hstep (m := .instruction t) trivial hms hrest h
        · cases h
          exact ⟨white, ms₁, rfl, hwhite, hreads₁⟩

/-- Along a reading that is clear as far as it is read, the parsed text is misc, the root
element, and more. -/
theorem parseText_ok {root : Node} {ms : List Markup} (h : parseText s = .ok root)
    (hreads : Reads s ms []) (hclear : ClearBefore ms) (hone : OneRoot 0 false ms) :
    ∃ before inside after, ms = before ++ inside ++ after ∧ (∀ m ∈ before, m.IsMisc) ∧
      Element inside root := by
  obtain ⟨rest, hprolog, h⟩ := Checked.bind_eq_ok.mp h
  split at h
  · cases h
  · obtain ⟨⟨root', rest'⟩, helement, hok⟩ := Checked.bind_eq_ok.mp h
    cases hok
    obtain ⟨before, ms', rfl, hbefore, hrest⟩ := skipProlog_ok hprolog hreads hclear hone
    obtain ⟨inside, after, rfl, hinside, -⟩ := parseElement_ok helement hrest hclear.drop
      ((oneRoot_misc hbefore).mp hone)
    exact ⟨before, inside, after, (List.append_assoc _ _ _).symm, hbefore, hinside⟩

/-! ## Tags and elements -/

variable {raws : List (JsString × JsString)} {attrs : List Attr} {inner ms : List Markup}
  {nodes : List Node}

theorem readings_names (h : List.Forall₂ Reading raws attrs) :
    raws.map Prod.fst = attrs.map Attr.name := by
  induction h with
  | nil => rfl
  | cons hread _ ih => rw [List.map_cons, List.map_cons, hread.1, ih]

theorem readings_bear (attrName id : JsString) (h : List.Forall₂ Reading raws attrs) :
    (raws.any fun raw => raw.1 == attrName && (attrValue raw.2).toOption == some id) =
      bears attrName id attrs := by
  rw [bears]
  induction h with
  | nil => rfl
  | @cons raw a raws attrs hread _ ih =>
      rw [List.any_cons, List.any_cons, ih, hread.1, hread.2]
      rfl

/-- The start tags of a content are the elements of its nodes. -/
theorem Content.tags (h : Content inner nodes) :
    List.Forall₂ Markup.Opens (inner.filter Markup.isStart) (elementsAll nodes) := by
  induction h with
  | nil => exact .nil
  | comment text _ ih => exact ih
  | cdata text _ ih => exact ih
  | instruction text _ ih => exact ih
  | @text us text ms nodes _ _ _ ih =>
      have hchars : (us.map Markup.char).filter Markup.isStart = [] := by
        simp [Markup.isStart]
      rw [List.filter_append, hchars]
      exact ih
  | @element name raws attrs empty inner ms children nodes hattrs hempty _ _ ihinner ih =>
      rw [List.filter_append, elementsAll, Node.elements]
      refine List.rel_append ?_ ih
      refine .cons ⟨raws, empty, rfl, hattrs⟩ ?_
      cases empty with
      | true =>
          rw [hempty rfl]
          exact .nil
      | false =>
          rw [if_neg (by decide), List.filter_append]
          simpa [Markup.isStart] using ihinner

/-- The lookup counts the start tags of a content. -/
theorem Content.lookup (attrName id : JsString) (h : Content inner nodes) :
    (walkAll attrName id nodes).length = inner.countP (Markup.bears attrName id) := by
  induction h with
  | nil => rfl
  | comment text _ ih => exact ih
  | cdata text _ ih => exact ih
  | instruction text _ ih => exact ih
  | @text us text ms nodes _ _ _ ih =>
      have hchars : (us.map Markup.char).countP (Markup.bears attrName id) = 0 := by
        simp [Markup.bears]
      rw [List.countP_append, hchars, Nat.zero_add]
      exact ih
  | @element name raws attrs empty inner ms children nodes hattrs hempty _ _ ihinner ih =>
      have hbears : Markup.bears attrName id (.startTag name raws empty) =
          bears attrName id attrs := readings_bear attrName id hattrs
      have hinside : (walkAll attrName id children).length =
          (if empty then [] else inner ++ [Markup.endTag name]).countP
            (Markup.bears attrName id) := by
        cases empty with
        | true =>
            rw [hempty rfl]
            rfl
        | false =>
            rw [if_neg (by decide), List.countP_append, ihinner]
            rfl
      rw [walkAll, walk, List.length_append, List.length_append, ih, List.countP_append, enclosed,
        List.countP_cons, hbears, hinside]
      cases bears attrName id attrs with
      | true => exact congrArg (· + _) (Nat.add_comm _ _)
      | false => exact congrArg (· + _) (Nat.zero_add _)

theorem misc_tags (h : ∀ m ∈ ms, m.IsMisc) : ms.filter Markup.isStart = [] := by
  refine List.filter_eq_nil_iff.mpr fun m hm hstart => ?_
  cases m with
  | startTag name attrs empty => exact h _ hm
  | _ => cases hstart

theorem misc_lookup (attrName id : JsString) (h : ∀ m ∈ ms, m.IsMisc) :
    ms.countP (Markup.bears attrName id) = 0 := by
  refine List.countP_eq_zero.mpr fun m hm hbears => ?_
  cases m with
  | startTag name attrs empty => exact h _ hm
  | _ => cases hbears

theorem opens_distinct {es : List (JsString × List Attr)} (h : List.Forall₂ Markup.Opens ms es) :
    (∀ m ∈ ms, m.Distinct) ↔ ∀ e ∈ es, (e.2.map Attr.name).Nodup := by
  induction h with
  | nil => simp
  | @cons m e ms es hopens _ ih =>
      obtain ⟨raws, empty, rfl, hattrs⟩ := hopens
      rw [List.forall_mem_cons, List.forall_mem_cons, ih, ← readings_names hattrs]
      rfl

theorem distinct_tags : (∀ m ∈ ms, m.Distinct) ↔ ∀ m ∈ ms.filter Markup.isStart, m.Distinct := by
  refine ⟨fun h m hm => h m (List.mem_filter.mp hm).1, fun h m hm => ?_⟩
  cases m with
  | startTag name attrs empty => exact h _ (List.mem_filter.mpr ⟨hm, rfl⟩)
  | _ => trivial

/-! ## What is accounted for -/

/-- Misc, an element and misc: the start tags and the lookup are those of the tree. -/
theorem document_tags {before inside after : List Markup} {root : Node}
    (hmisc : ∀ m ∈ before ++ after, m.IsMisc) (hinside : Element inside root) :
    List.Forall₂ Markup.Opens ((before ++ inside ++ after).filter Markup.isStart) root.elements ∧
      ∀ attrName id, (walk attrName id root).length =
        (before ++ inside ++ after).countP (Markup.bears attrName id) := by
  have hbefore : ∀ m ∈ before, m.IsMisc := fun m hm => hmisc m (List.mem_append_left _ hm)
  have hafter : ∀ m ∈ after, m.IsMisc := fun m hm => hmisc m (List.mem_append_right _ hm)
  constructor
  · rw [List.filter_append, List.filter_append, misc_tags hbefore, misc_tags hafter,
      List.nil_append, List.append_nil]
    simpa only [elementsAll, List.append_nil] using hinside.content.tags
  · intro attrName id
    rw [List.countP_append, List.countP_append, misc_lookup _ _ hbefore, misc_lookup _ _ hafter,
      Nat.zero_add, Nat.add_zero]
    simpa only [walkAll, List.append_nil] using hinside.content.lookup attrName id

theorem Accounts.whole {root : Node} (h : Accounts s root) : Whole s := by
  obtain ⟨before, inside, after, hreads, hmisc, hinside⟩ := h.document
  refine ⟨_, hreads, ?_, ?_⟩
  · rw [List.append_assoc, oneRoot_misc fun m hm => hmisc m (List.mem_append_left _ hm),
      hinside.oneRoot]
    have hafter := @oneRoot_misc true after [] fun m hm => hmisc m (List.mem_append_right _ hm)
    rw [List.append_nil] at hafter
    exact hafter.mpr ⟨rfl, rfl⟩
  · exact distinct_tags.mpr ((opens_distinct (h.tags _ hreads)).mpr h.distinct)

theorem Whole.accounts {root : Node} (h : Whole s) (hparse : parseText s = .ok root)
    (hclear : ∀ ms, Reads s ms [] → ClearBefore ms) : Accounts s root := by
  obtain ⟨ms, hreads, honeRoot, hdistinct⟩ := h
  obtain ⟨before, inside, after, rfl, hbefore, hinside⟩ :=
    parseText_ok hparse hreads (hclear ms hreads) honeRoot
  rw [List.append_assoc, oneRoot_misc hbefore, hinside.oneRoot] at honeRoot
  have hmisc : ∀ m ∈ before ++ after, m.IsMisc := fun m hm =>
    (List.mem_append.mp hm).elim (hbefore m) (misc_of_oneRoot honeRoot m)
  obtain ⟨htags, hlookup⟩ := document_tags hmisc hinside
  refine ⟨⟨before, inside, after, hreads, hmisc, hinside⟩, ?_, ?_, ?_⟩
  · intro ms hms
    rw [hms.unique hreads]
    exact htags
  · exact (opens_distinct htags).mp (distinct_tags.mp hdistinct)
  · intro ms attrName id hms
    rw [hms.unique hreads]
    exact hlookup attrName id

theorem parse_text {xml : Input} {root : Node} (h : parse xml = .ok root) :
    ∃ s, xml.content = some s ∧ parseText (normalize s) = .ok root := by
  rw [parse] at h
  split at h
  · cases h
  · next s hs =>
      refine ⟨s, hs, ?_⟩
      split at h
      · cases h
      · split at h
        · cases h
        · dsimp only at h
          generalize (if s.head? = some 0xFEFF then s.drop 1 else s) = text at h
          split at h
          · cases h
          · split at h
            · cases h
            · exact h

/-- Where the tree of a parsed text accounts for it, and the lookup sees every start tag,
the text is over behind its root element and the misc there and no tag repeats an
attribute. And where no comment or instruction has a shorter reading before that end, it is
so exactly then. -/
theorem parse_accounts {xml : Input} {root : Node} {s : JsString} (hs : xml.content = some s)
    (h : parse xml = .ok root) :
    (Accounts (normalize s) root → Whole (normalize s)) ∧
      ((∀ ms, Reads (normalize s) ms [] → ClearBefore ms) →
        (Accounts (normalize s) root ↔ Whole (normalize s))) := by
  obtain ⟨s', hs', hparse⟩ := parse_text h
  obtain rfl : s = s' := Option.some.inj (hs.symm.trans hs')
  exact ⟨Accounts.whole, fun hclear =>
    ⟨Accounts.whole, fun hwhole => hwhole.accounts hparse hclear⟩⟩

def quotedOnce : JsString := units "<a b='1'/><!--> -->"

def quotedRoot : Node := .element (units "a") [⟨units "b", units "1"⟩] []

theorem parse_quotedOnce : parse (.text quotedOnce) = .ok quotedRoot := by
  rfl

def quotedMarkup : List Markup :=
  [.startTag (units "a") [(units "b", units "1")] true, .comment (units "> ")]

theorem quotedOnce_reads : Reads (normalize quotedOnce) quotedMarkup [] := by
  have hfirst : next (normalize quotedOnce) =
      some (.startTag (units "a") [(units "b", units "1")] true, units "<!--> -->") := by
    decide +kernel
  have hsecond : next (units "<!--> -->") = some (.comment (units "> "), []) := by decide +kernel
  exact .cons hfirst (.cons hsecond (.nil []))

/-- A comment behind the root that has a shorter reading. -/
theorem quotedOnce_clear : ∀ ms, Reads (normalize quotedOnce) ms [] → ClearBefore ms := by
  intro ms hms l m r heq
  rw [hms.unique quotedOnce_reads] at heq
  match l, heq with
  | [], heq =>
      cases heq
      exact .inl trivial
  | [_], heq =>
      cases heq
      exact .inr fun m' hm' => (List.mem_singleton.mp hm') ▸ trivial
  | _ :: _ :: l, heq =>
      have hlen := congrArg List.length heq
      simp [quotedMarkup] at hlen

theorem parse_accounts_quotedOnce : Accounts (normalize quotedOnce) quotedRoot := by
  refine ((@parse_accounts (.text quotedOnce) quotedRoot quotedOnce rfl parse_quotedOnce).2
    quotedOnce_clear).mpr ⟨_, quotedOnce_reads, ⟨rfl, trivial, rfl, rfl⟩, fun m hm => ?_⟩
  rcases List.mem_cons.mp hm with rfl | hm
  · exact List.nodup_singleton _
  · exact (List.mem_singleton.mp hm) ▸ trivial

/-! ## An element behind the root -/

def twoRoots : JsString := units "<a ID=\"x\"/><b ID=\"x\"/>"

def firstRoot : Node := .element (units "a") [⟨units "ID", units "x"⟩] []

theorem parse_twoRoots : parse (.text twoRoots) = .ok firstRoot := by
  rfl

theorem elementById_twoRoots : elementById (.text twoRoots) (units "x") none = .ok firstRoot := by
  rw [elementById, parse_twoRoots]
  rfl

/-- The lookup takes the first of two elements that bear the identifier: the other one
is not in the tree. -/
theorem second_root_unseen :
    parse (.text twoRoots) = .ok firstRoot ∧ ¬ Accounts (normalize twoRoots) firstRoot ∧
      elementById (.text twoRoots) (units "x") none = .ok firstRoot := by
  refine ⟨parse_twoRoots, fun h => ?_, elementById_twoRoots⟩
  have hfirst : next (normalize twoRoots) =
      some (.startTag (units "a") [(units "ID", units "x")] true, units "<b ID=\"x\"/>") := by
    decide +kernel
  have hsecond : next (units "<b ID=\"x\"/>") =
      some (.startTag (units "b") [(units "ID", units "x")] true, []) := by
    decide +kernel
  have htags := h.tags _ (.cons hfirst (.cons hsecond (.nil [])))
  exact absurd htags.length_eq (by decide)

end Blamejs.XmlC14n
