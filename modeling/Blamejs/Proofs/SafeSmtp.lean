import Blamejs.Ref.SafeSmtp

/-!
# Dot transparency

A stuffed line that began with a dot begins with two, so no line of a stuffed body is the
terminator, and one dot less of each gives the body back. What goes to the wire has no other line
ends than CRLF, and is read the same way by every scanner.
-/

namespace Blamejs.SafeSmtp

/-- The dot that is written before a line that begins with one. -/
def lead (line : Bytes) : Bytes := if line.head? = some DOT then [DOT] else []

/-! ## Stuffing -/

theorem stuffLoop_cons (prev : Option UInt8) (b : UInt8) (rest : Bytes) :
    stuffLoop prev (b :: rest) =
      b :: ((if prev = some CR ∧ b = LF then lead rest else []) ++ stuffLoop (some b) rest) := by
  rw [stuffLoop, lead]
  by_cases hline : prev = some CR ∧ b = LF
  · by_cases hdot : rest.head? = some DOT
    · rw [if_pos ⟨hline.1, hline.2, hdot⟩, if_pos hline, if_pos hdot]
      rfl
    · rw [if_neg fun h => hdot h.2.2, if_pos hline, if_neg hdot]
      rfl
  · rw [if_neg fun h => hline ⟨h.1, h.2.1⟩, if_neg hline]
    rfl

theorem stuffLoop_first (b : UInt8) (rest : Bytes) :
    stuffLoop none (b :: rest) = b :: stuffLoop (some b) rest := by
  rw [stuffLoop_cons, if_neg (by simp)]
  rfl

/-- Without a CR before, it does not matter what is before. -/
theorem stuffLoop_prev (prev prev' : Option UInt8) (h : prev ≠ some CR) (h' : prev' ≠ some CR)
    (buf : Bytes) : stuffLoop prev buf = stuffLoop prev' buf := by
  cases buf with
  | nil => rfl
  | cons b rest =>
      rw [stuffLoop_cons, stuffLoop_cons, if_neg fun hb => h hb.1, if_neg fun hb => h' hb.1]

theorem stuffLoop_of_dots {prev : Option UInt8} {buf : Bytes} (h : dotsLoop prev buf = 0) :
    stuffLoop prev buf = buf := by
  induction buf generalizing prev with
  | nil => rfl
  | cons b rest ih =>
      rw [dotsLoop] at h
      have hrest : dotsLoop (some b) rest = 0 := by omega
      have hb : ¬ (prev = some CR ∧ b = LF ∧ rest.head? = some DOT) := by
        intro hdot
        rw [if_pos hdot] at h
        omega
      rw [stuffLoop, if_neg hb, ih hrest]

theorem dotStuff_eq (buf : Bytes) : dotStuff buf = lead buf ++ stuffLoop none buf := by
  cases buf with
  | nil => rfl
  | cons b rest =>
      rw [dotStuff, stuffLoop_first, lead, List.head?_cons]
      by_cases hdot : b = DOT
      · rw [if_neg (by rw [if_pos hdot]; omega), if_pos hdot, if_pos (by rw [hdot]), hdot]
        rfl
      · have hhead : ¬ some b = some DOT := fun h => hdot (Option.some.inj h)
        rw [if_neg hdot, if_neg hdot, if_neg hhead, Nat.zero_add, List.nil_append]
        split
        · next hzero => rw [stuffLoop_of_dots hzero]
        · rfl

theorem head?_stuffLoop (prev : Option UInt8) (buf : Bytes) :
    (stuffLoop prev buf).head? = buf.head? := by
  cases buf with
  | nil => rfl
  | cons b rest => rw [stuffLoop_cons]; rfl

theorem unstuffLoop_cons (prev : Option UInt8) (b : UInt8) (rest : Bytes) :
    unstuffLoop prev (b :: rest) = b :: if prev = some CR ∧ b = LF ∧ rest.head? = some DOT ∧
      rest.tail ≠ [] ∧ rest.tail.head? ≠ some CR then unstuffLoop (some DOT) rest.tail
      else unstuffLoop (some b) rest := by
  cases rest with
  | nil => simp [unstuffLoop]
  | cons d rest =>
      rw [unstuffLoop, List.head?_cons, List.tail_cons]
      by_cases hdot : d = DOT
      · subst hdot
        simp only [true_and]
        split <;> rfl
      · rw [if_neg fun h => hdot h.2.2.1, if_neg fun h => hdot (Option.some.inj h.2.2.1)]

theorem unstuffLoop_prev (prev prev' : Option UInt8) (h : prev ≠ some CR) (h' : prev' ≠ some CR)
    (buf : Bytes) : unstuffLoop prev buf = unstuffLoop prev' buf := by
  cases buf with
  | nil => simp [unstuffLoop]
  | cons b rest =>
      rw [unstuffLoop_cons, unstuffLoop_cons, if_neg fun hb => h hb.1, if_neg fun hb => h' hb.1]

/-- Inside a line, and over every line end, unstuffing undoes stuffing. -/
theorem unstuffLoop_stuffLoop (prev : Option UInt8) (buf : Bytes) :
    unstuffLoop prev (stuffLoop prev buf) = buf := by
  induction buf generalizing prev with
  | nil => simp [stuffLoop, unstuffLoop]
  | cons b rest ih =>
      rw [stuffLoop]
      split
      · next hline =>
          obtain ⟨hprev, rfl, hdot⟩ := hline
          have hhead : (stuffLoop (some LF) rest).head? = some DOT := by
            rw [head?_stuffLoop, hdot]
          have hne : stuffLoop (some LF) rest ≠ [] := by
            intro hnil
            rw [hnil] at hhead
            cases hhead
          rw [unstuffLoop_cons, if_pos ⟨hprev, rfl, rfl, hne, by
            rw [List.tail_cons, hhead]; decide⟩, List.tail_cons,
            unstuffLoop_prev _ (some LF) (by decide) (by decide), ih]
      · next hline =>
          rw [unstuffLoop_cons, if_neg, ih]
          rintro ⟨hprev, hb, hhead, -⟩
          rw [head?_stuffLoop] at hhead
          exact hline ⟨hprev, hb, hhead⟩

theorem dotUnstuff_dotStuff (buf : Bytes) : dotUnstuff (dotStuff buf) = buf := by
  rw [dotStuff_eq, lead]
  have hhead := head?_stuffLoop none buf
  split
  · next hdot =>
      rw [hdot] at hhead
      obtain ⟨t, ht⟩ : ∃ t, stuffLoop none buf = DOT :: t := by
        cases hs : stuffLoop none buf with
        | nil => rw [hs] at hhead; cases hhead
        | cons b t => rw [hs] at hhead; exact ⟨t, by rw [Option.some.inj hhead]⟩
      rw [dotUnstuff, if_pos (by rw [ht]; rfl), List.singleton_append, List.tail_cons,
        unstuffLoop_prev _ none (by decide) (by decide), unstuffLoop_stuffLoop]
  · next hdot =>
      rw [dotUnstuff, if_neg, List.nil_append, unstuffLoop_stuffLoop]
      intro htake
      have hfirst := congrArg List.head? htake
      rw [List.nil_append, List.head?_take, if_neg (by decide), hhead] at hfirst
      exact hdot hfirst

/-! ## The terminator -/

theorem findLoop_of_ne {b : UInt8} (h : b ≠ CR) (i : Nat) (rest : Bytes) :
    findLoop i (b :: rest) = findLoop (i + 1) rest := by
  rw [findLoop, if_neg]
  intro htake
  rw [List.take_succ_cons, List.cons.injEq] at htake
  exact h htake.1

/-- Only after the last line end can a stuffed body be read on as a terminator. -/
theorem eq_lf_of_terminator {buf more after : Bytes} (hne : buf ≠ [])
    (h : stuffLoop (some CR) buf ++ more = LF :: DOT :: CR :: after) : buf = [LF] := by
  obtain ⟨b, rest, rfl⟩ := List.exists_cons_of_ne_nil hne
  rw [stuffLoop_cons, List.cons_append, List.cons.injEq] at h
  obtain ⟨rfl, h⟩ := h
  rw [if_pos ⟨rfl, rfl⟩] at h
  cases rest with
  | nil => rfl
  | cons c rest =>
      rw [stuffLoop_cons, lead, List.head?_cons] at h
      by_cases hdot : c = DOT
      · rw [if_pos (by rw [hdot]), List.singleton_append, List.cons_append, List.cons_append,
          List.cons.injEq, List.cons.injEq] at h
        exact absurd (hdot.symm.trans h.2.1) (by decide)
      · rw [if_neg fun hc => hdot (Option.some.inj hc), List.nil_append, List.cons_append,
          List.cons.injEq] at h
        exact absurd h.1 hdot

theorem findLoop_stuffLoop (rest : Bytes) {buf : Bytes} (hend : [CR, LF] <:+ buf)
    (prev : Option UInt8) (i : Nat) :
    findLoop i (stuffLoop prev buf ++ ([DOT, CR, LF] ++ rest)) =
      some (i + (stuffLoop prev buf).length) := by
  induction buf generalizing prev i with
  | nil => exact absurd (List.suffix_nil.mp hend) (by simp)
  | cons b buf ih =>
      rw [stuffLoop_cons]
      by_cases hcr : b = CR
      · subst hcr
        rw [if_neg fun h => absurd h.2 (by decide), List.nil_append, List.cons_append, findLoop]
        have hne : buf ≠ [] := by
          rintro rfl
          exact absurd hend (by decide)
        split
        · next htake =>
            have hread := List.take_append_drop 4
              (stuffLoop (some CR) buf ++ ([DOT, CR, LF] ++ rest))
            rw [List.take_succ_cons, List.cons.injEq] at htake
            rw [htake.2] at hread
            rw [eq_lf_of_terminator hne hread.symm]
            rfl
        · next hmiss =>
            rcases List.suffix_cons_iff.mp hend with hall | htail
            · obtain ⟨-, rfl⟩ := List.cons.inj hall
              exact absurd rfl hmiss
            · rw [ih htail, List.length_cons]
              congr 1
              omega
      · have htail : [CR, LF] <:+ buf := by
          rcases List.suffix_cons_iff.mp hend with hall | htail
          · exact absurd (List.cons.inj hall).1.symm hcr
          · exact htail
        rw [List.cons_append, findLoop_of_ne hcr, List.append_assoc]
        have hlead : (if prev = some CR ∧ b = LF then lead buf else []) = [] ∨
            (if prev = some CR ∧ b = LF then lead buf else []) = [DOT] := by
          rw [lead]
          split
          · split
            · exact .inr rfl
            · exact .inl rfl
          · exact .inl rfl
        rcases hlead with hnone | hdot
        · rw [hnone, List.nil_append, List.nil_append, ih htail, List.length_cons]
          congr 1
          omega
        · rw [hdot, List.singleton_append, findLoop_of_ne (by decide), ih htail,
            List.length_cons, List.length_append, List.length_singleton]
          congr 1
          omega

/-- The terminator of a stuffed body is the one that was sent. -/
theorem findDotTerminator_dotStuff (rest : Bytes) {buf : Bytes}
    (hend : buf = [] ∨ [CR, LF] <:+ buf) :
    findDotTerminator (dotStuff buf ++ [DOT, CR, LF] ++ rest) true =
      some (dotStuff buf).length := by
  rw [List.append_assoc]
  rcases hend with rfl | hend
  · rfl
  · obtain ⟨b, t, rfl⟩ : ∃ b t, buf = b :: t := by
      refine List.exists_cons_of_ne_nil ?_
      rintro rfl
      exact absurd hend (by decide)
    have hcons := stuffLoop_cons none b t
    have hfind := findLoop_stuffLoop rest hend none
    rw [dotStuff_eq, lead, List.head?_cons, findDotTerminator]
    by_cases hdot : b = DOT
    · subst hdot
      rw [if_pos rfl, if_neg, List.append_assoc, List.singleton_append,
        findLoop_of_ne (by decide), hfind, List.length_append, List.length_singleton]
      rw [hcons]
      rintro ⟨-, htake⟩
      exact absurd (List.cons.inj (List.cons.inj htake).2).1 (by decide)
    · rw [if_neg fun h => hdot (Option.some.inj h), List.nil_append, if_neg, hfind, Nat.zero_add]
      rw [hcons]
      rintro ⟨-, htake⟩
      exact hdot (List.cons.inj htake).1

/-! ## Line endings -/

/-- A line end is one byte or two. -/
theorem eol_induction {motive : Bytes → Prop} (nil : motive [])
    (cons : ∀ b rest, motive rest → motive rest.tail → motive (b :: rest)) (buf : Bytes) :
    motive buf := by
  have hboth : motive buf ∧ motive buf.tail := by
    induction buf with
    | nil => exact ⟨nil, nil⟩
    | cons b rest ih => exact ⟨cons b rest ih.1 ih.2, ih.1⟩
  exact hboth.1

/-- What is left after a CR, and the LF behind it. -/
def afterCr (rest : Bytes) : Bytes := if rest.head? = some LF then rest.tail else rest

theorem afterCr_induction {motive : Bytes → Prop} {rest : Bytes} (h : motive rest)
    (htail : motive rest.tail) : motive (afterCr rest) := by
  rw [afterCr]
  split
  · exact htail
  · exact h

theorem canonLoop_cons (b : UInt8) (rest : Bytes) : canonLoop (b :: rest) =
    if b = CR then CR :: LF :: canonLoop (afterCr rest)
    else if b = LF then CR :: LF :: canonLoop rest
    else b :: canonLoop rest := by
  cases rest with
  | nil => rfl
  | cons c rest => by_cases hlf : c = LF <;> simp [canonLoop, afterCr, hlf]

theorem wireLoop_cons (ls : Bool) (b : UInt8) (rest : Bytes) : wireLoop ls (b :: rest) =
    if b = CR then CR :: LF :: wireLoop true (afterCr rest)
    else if b = LF then CR :: LF :: wireLoop true rest
    else if ls ∧ b = DOT then DOT :: b :: wireLoop false rest
    else b :: wireLoop false rest := by
  cases rest with
  | nil => rfl
  | cons c rest => by_cases hlf : c = LF <;> simp [wireLoop, afterCr, hlf]

theorem wireLength_cons (ls : Bool) (b : UInt8) (rest : Bytes) : wireLength ls (b :: rest) =
    if b = CR then 2 + wireLength true (afterCr rest)
    else if b = LF then 2 + wireLength true rest
    else (if ls ∧ b = DOT then 1 else 0) + 1 + wireLength false rest := by
  cases rest with
  | nil => rfl
  | cons c rest => by_cases hlf : c = LF <;> simp [wireLength, afterCr, hlf]

/-- What is written has the length that was counted. -/
theorem wireLength_eq (buf : Bytes) : ∀ ls, wireLength ls buf = (wireLoop ls buf).length := by
  induction buf using eol_induction with
  | nil => exact fun _ => rfl
  | cons b rest ih ihtail =>
      intro ls
      have hafter := afterCr_induction (motive := fun t =>
        wireLength true t = (wireLoop true t).length) (ih true) (ihtail true)
      rw [wireLength_cons, wireLoop_cons]
      split
      · rw [hafter, List.length_cons, List.length_cons]
        omega
      · split
        · rw [ih, List.length_cons, List.length_cons]
          omega
        · split
          · rw [ih, List.length_cons, List.length_cons]
            omega
          · rw [ih, List.length_cons]
            omega

/-- What needs no octet more is canonical as it is. -/
theorem canonLoop_of_extra (buf : Bytes) : ∀ prev : Option UInt8, prev ≠ some CR →
    extraLoop prev buf = 0 → canonLoop buf = buf := by
  induction buf using eol_induction with
  | nil => exact fun _ _ _ => rfl
  | cons b rest ih ihtail =>
      intro prev hprev hextra
      rw [extraLoop] at hextra
      obtain ⟨hb, hrest⟩ := Nat.add_eq_zero_iff.mp hextra
      rw [canonLoop_cons]
      by_cases hcr : b = CR
      · subst hcr
        rw [if_neg (by decide), if_pos rfl] at hb
        split at hb
        · cases hb
        · next hlf =>
            obtain ⟨t, rfl⟩ := List.head?_eq_some_iff.mp (not_not.mp hlf)
            rw [extraLoop] at hrest
            have ht := ihtail (some LF) (by decide) (Nat.add_eq_zero_iff.mp hrest).2
            rw [List.tail_cons] at ht
            rw [if_pos rfl, afterCr, List.head?_cons, if_pos rfl, List.tail_cons, ht]
      · by_cases hlf : b = LF
        · rw [if_pos hlf, if_pos hprev] at hb
          cases hb
        · rw [if_neg hcr, if_neg hlf, ih (some b) (fun h => hcr (Option.some.inj h)) hrest]

theorem canonicalizeEol_eq (buf : Bytes) : canonicalizeEol buf = canonLoop buf := by
  rw [canonicalizeEol]
  split
  · next hextra => rw [canonLoop_of_extra buf none (by simp) hextra]
  · rfl

/-- Nothing gets shorter, and what is as long as it was is what it was. -/
theorem wireLoop_length (buf : Bytes) : ∀ ls, buf.length ≤ (wireLoop ls buf).length ∧
    ((wireLoop ls buf).length = buf.length → wireLoop ls buf = buf) := by
  induction buf using eol_induction with
  | nil => exact fun _ => ⟨Nat.le_refl _, fun _ => rfl⟩
  | cons b rest ih ihtail =>
      intro ls
      rw [wireLoop_cons]
      by_cases hcr : b = CR
      · subst hcr
        rw [if_pos rfl, afterCr]
        split
        · next hlf =>
            obtain ⟨t, rfl⟩ := List.head?_eq_some_iff.mp hlf
            obtain ⟨hle, hsame⟩ := ihtail true
            rw [List.tail_cons] at hle hsame ⊢
            simp only [List.length_cons]
            exact ⟨by omega, fun hlen => by rw [hsame (by omega)]⟩
        · have hle := (ih true).1
          simp only [List.length_cons]
          exact ⟨by omega, fun hlen => by omega⟩
      · rw [if_neg hcr]
        split
        · have hle := (ih true).1
          simp only [List.length_cons]
          exact ⟨by omega, fun hlen => by omega⟩
        · obtain ⟨hle, hsame⟩ := ih false
          split
          · simp only [List.length_cons]
            exact ⟨by omega, fun hlen => by omega⟩
          · simp only [List.length_cons]
            exact ⟨by omega, fun hlen => by rw [hsame (by omega)]⟩

theorem dotStuffForWire_eq (buf : Bytes) : dotStuffForWire buf = wireLoop true buf := by
  rw [dotStuffForWire, wireLength_eq]
  split
  · next hlen => rw [(wireLoop_length buf true).2 hlen]
  · rfl

/-- To stuff while the line ends are made canonical is to stuff afterwards. -/
theorem wireLoop_eq (buf : Bytes) : ∀ ls : Bool, wireLoop ls buf =
    (if ls then lead (canonLoop buf) else []) ++ stuffLoop none (canonLoop buf) := by
  induction buf using eol_induction with
  | nil => intro ls; cases ls <;> rfl
  | cons b rest ih ihtail =>
      intro ls
      have hline (t : Bytes)
          (h : wireLoop true t = lead (canonLoop t) ++ stuffLoop none (canonLoop t)) :
          CR :: LF :: wireLoop true t =
            (if ls then lead (CR :: LF :: canonLoop t) else []) ++
              stuffLoop none (CR :: LF :: canonLoop t) := by
        have hlead : (if ls then lead (CR :: LF :: canonLoop t) else []) = [] := by
          cases ls <;> rfl
        rw [hlead, h, stuffLoop_first, stuffLoop_cons, if_pos ⟨rfl, rfl⟩,
          stuffLoop_prev (some LF) none (by decide) (by decide)]
        rfl
      rw [wireLoop_cons, canonLoop_cons]
      by_cases hcr : b = CR
      · rw [if_pos hcr, if_pos hcr]
        exact hline _ (afterCr_induction (motive := fun t =>
          wireLoop true t = lead (canonLoop t) ++ stuffLoop none (canonLoop t))
          (ih true) (ihtail true))
      · by_cases hlf : b = LF
        · rw [if_neg hcr, if_neg hcr, if_pos hlf, if_pos hlf]
          exact hline _ (ih true)
        · have hloop : wireLoop false rest = stuffLoop (some b) (canonLoop rest) := by
            rw [ih false, stuffLoop_prev (some b) none
              (fun h => hcr (Option.some.inj h)) (by simp)]
            rfl
          rw [if_neg hcr, if_neg hcr, if_neg hlf, if_neg hlf, hloop, stuffLoop_first,
            lead, List.head?_cons]
          cases ls with
          | false => rfl
          | true => by_cases hdot : b = DOT <;> simp [hdot]

/-! ## The wire -/

/-- A canonical body, at the start of a line or in one: the line ends are CRLF, and a line that
begins with a dot begins with two. -/
inductive Wire : Bool → Bytes → Prop
  | nil (ls : Bool) : Wire ls []
  | eol (ls : Bool) {t : Bytes} : Wire true t → Wire ls (CR :: LF :: t)
  | byte {ls : Bool} {b : UInt8} {t : Bytes} :
      b ≠ CR → b ≠ LF → (ls = true → b ≠ DOT) → Wire false t → Wire ls (b :: t)
  | dots {t : Bytes} : Wire false t → Wire true (DOT :: DOT :: t)

theorem wire_wireLoop (buf : Bytes) : ∀ ls, Wire ls (wireLoop ls buf) := by
  induction buf using eol_induction with
  | nil => exact .nil
  | cons b rest ih ihtail =>
      intro ls
      rw [wireLoop_cons]
      split
      · exact .eol ls (afterCr_induction (motive := fun t => Wire true (wireLoop true t))
          (ih true) (ihtail true))
      · next hcr =>
          split
          · exact .eol ls (ih true)
          · next hlf =>
              split
              · next hdot =>
                  obtain ⟨rfl, rfl⟩ := hdot
                  exact .dots (ih false)
              · next hdot => exact .byte hcr hlf (fun hls hb => hdot ⟨hls, hb⟩) (ih false)

/-- Every CR and every LF is part of a CRLF. -/
def OnlyCrlf (buf : Bytes) : Prop :=
  ∀ before b after, buf = before ++ b :: after →
    (b = CR → after.head? = some LF) ∧ (b = LF → before.getLast? = some CR)

/-- No line is a single dot. A line begins at the start or after a CRLF, and ends before a CRLF or
at the end. -/
def NoDotLine (buf : Bytes) : Prop :=
  ∀ before after, buf = before ++ DOT :: after → before = [] ∨ [CR, LF] <:+ before →
    after ≠ [] ∧ ¬ [CR, LF] <+: after

/-- What stands around a byte of a canonical body. -/
structure Around (ls : Bool) (before : Bytes) (b : UInt8) (after : Bytes) : Prop where
  cr : b = CR → after.head? = some LF
  lf : b = LF → before.getLast? = some CR
  dot : b = DOT → after.head? = some DOT ∨
    (before = [] → ls = false) ∧ before.getLast? ≠ some CR ∧ before.getLast? ≠ some LF

theorem Around.append {ls : Bool} {before : Bytes} {b : UInt8} {after : Bytes}
    (h : Around true before b after) {p : Bytes} (hp : p ≠ []) :
    Around ls (p ++ before) b after := by
  refine ⟨h.cr, fun hb => ?_, fun hb => ?_⟩
  · rw [List.getLast?_append, h.lf hb]
    rfl
  · rcases h.dot hb with hdot | ⟨hne, hcr, hlf⟩
    · exact .inl hdot
    · have hlast : (p ++ before).getLast? = before.getLast? := by
        cases hl : before.getLast? with
        | none => exact absurd (hne (List.getLast?_eq_none_iff.mp hl)) (by simp)
        | some x => rw [List.getLast?_append, hl]; rfl
      rw [hlast]
      exact .inr ⟨fun hnil => absurd (List.append_eq_nil_iff.mp hnil).1 hp, hcr, hlf⟩

theorem Around.append_byte {ls : Bool} {before : Bytes} {b : UInt8} {after : Bytes}
    (h : Around false before b after) {p : Bytes} {c : UInt8} (hp : p.getLast? = some c)
    (hcr : c ≠ CR) (hlf : c ≠ LF) : Around ls (p ++ before) b after := by
  refine ⟨h.cr, fun hb => ?_, fun hb => ?_⟩
  · rw [List.getLast?_append, h.lf hb]
    rfl
  · rcases h.dot hb with hdot | ⟨-, hcr', hlf'⟩
    · exact .inl hdot
    · refine .inr ⟨fun hnil => ?_, ?_⟩
      · rw [(List.append_eq_nil_iff.mp hnil).1] at hp
        cases hp
      · rw [List.getLast?_append, hp]
        cases hl : before.getLast? with
        | none => exact ⟨fun h => hcr (Option.some.inj h), fun h => hlf (Option.some.inj h)⟩
        | some x => rw [hl] at hcr' hlf'; exact ⟨hcr', hlf'⟩

theorem around_of_wire {ls : Bool} {buf : Bytes} (h : Wire ls buf) :
    ∀ before b after, buf = before ++ b :: after → Around ls before b after := by
  induction h with
  | nil => exact fun before b after heq => absurd heq (by simp)
  | eol ls _ ih =>
      intro before b after heq
      rcases List.cons_eq_append_iff.mp heq with ⟨rfl, hb⟩ | ⟨before, rfl, htail⟩
      · obtain ⟨rfl, rfl⟩ := List.cons.inj hb
        exact ⟨fun _ => rfl, fun h => absurd h (by decide), fun h => absurd h (by decide)⟩
      · rcases List.cons_eq_append_iff.mp htail with ⟨rfl, hb⟩ | ⟨before, rfl, hrest⟩
        · obtain ⟨rfl, rfl⟩ := List.cons.inj hb
          exact ⟨fun h => absurd h (by decide), fun _ => rfl, fun h => absurd h (by decide)⟩
        · exact (ih before b after hrest).append (p := [CR, LF]) (by simp)
  | @byte ls c t hcr hlf hdot _ ih =>
      intro before b after heq
      rcases List.cons_eq_append_iff.mp heq with ⟨rfl, hb⟩ | ⟨before, rfl, htail⟩
      · obtain ⟨rfl, rfl⟩ := List.cons.inj hb
        refine ⟨fun h => absurd h hcr, fun h => absurd h hlf, fun h => .inr ⟨fun _ => ?_, ?_⟩⟩
        · exact Bool.eq_false_iff.mpr fun hls => hdot hls h
        · exact ⟨by simp, by simp⟩
      · exact (ih before b after htail).append_byte (p := [c]) rfl hcr hlf
  | dots _ ih =>
      intro before b after heq
      rcases List.cons_eq_append_iff.mp heq with ⟨rfl, hb⟩ | ⟨before, rfl, htail⟩
      · obtain ⟨rfl, rfl⟩ := List.cons.inj hb
        exact ⟨fun h => absurd h (by decide), fun h => absurd h (by decide), fun _ => .inl rfl⟩
      · rcases List.cons_eq_append_iff.mp htail with ⟨rfl, hb⟩ | ⟨before, rfl, hrest⟩
        · obtain ⟨rfl, rfl⟩ := List.cons.inj hb
          exact ⟨fun h => absurd h (by decide), fun h => absurd h (by decide),
            fun _ => .inr ⟨by simp, by decide, by decide⟩⟩
        · exact (ih before b after hrest).append_byte (p := [DOT, DOT]) rfl (by decide) (by decide)

theorem onlyCrlf_of_wire {ls : Bool} {buf : Bytes} (h : Wire ls buf) : OnlyCrlf buf := by
  intro before b after heq
  have haround := around_of_wire h before b after heq
  exact ⟨haround.cr, haround.lf⟩

theorem noDotLine_of_wire {buf : Bytes} (h : Wire true buf) : NoDotLine buf := by
  intro before after heq hstart
  have hdot : after.head? = some DOT := by
    rcases (around_of_wire h before DOT after heq).dot rfl with hdot | ⟨hne, -, hlf⟩
    · exact hdot
    · rcases hstart with rfl | ⟨t, rfl⟩
      · exact absurd (hne rfl) (by simp)
      · exact absurd (by simp) hlf
  obtain ⟨t, rfl⟩ := List.head?_eq_some_iff.mp hdot
  refine ⟨by simp, fun ⟨u, hu⟩ => ?_⟩
  exact absurd (List.cons.inj hu).1 (by decide)

/-! ## Smuggling -/

/-- A buffer is flagged for one of its dots. -/
theorem smugglingLoop_iff (flags : Flags) (before buf : Bytes) :
    smugglingLoop flags before buf = true ↔ ∃ mid rest, buf = mid ++ DOT :: rest ∧
      smugglingAt flags (mid.reverse ++ before) rest = true := by
  induction buf generalizing before with
  | nil => simp [smugglingLoop]
  | cons b buf ih =>
      rw [smugglingLoop, Bool.or_eq_true, Bool.and_eq_true, decide_eq_true_eq, ih]
      constructor
      · rintro (⟨rfl, h⟩ | ⟨mid, rest, rfl, h⟩)
        · exact ⟨[], buf, rfl, h⟩
        · refine ⟨b :: mid, rest, rfl, ?_⟩
          rw [List.reverse_cons, List.append_assoc]
          exact h
      · rintro ⟨mid, rest, heq, h⟩
        rcases List.cons_eq_append_iff.mp heq with ⟨rfl, hb⟩ | ⟨mid, rfl, rfl⟩
        · obtain ⟨rfl, rfl⟩ := List.cons.inj hb
          exact .inl ⟨rfl, h⟩
        · rw [List.reverse_cons, List.append_assoc] at h
          exact .inr ⟨mid, rest, rfl, h⟩

theorem detectBodySmuggling_iff (buf : Bytes) (flags : Flags) :
    detectBodySmuggling buf flags = true ↔ ∃ before after, buf = before ++ DOT :: after ∧
      smugglingAt flags before.reverse after = true := by
  rw [detectBodySmuggling, smugglingLoop_iff]
  simp only [List.append_nil]

/-- A dot before another dot is not on a line of its own. -/
theorem smugglingAt_dot (flags : Flags) (before rest : Bytes) :
    smugglingAt flags before (DOT :: rest) = false := by
  have hafter (b : Bool) : afterCanonical flags b (DOT :: rest) = none := by
    cases rest <;> rfl
  rw [smugglingAt]
  cases beforeCanonical flags before with
  | none => rfl
  | some b => simp only [hafter]

/-- A dot inside a line is not on a line of its own either. -/
theorem smugglingAt_inside (flags : Flags) {p : UInt8} (hcr : p ≠ CR) (hlf : p ≠ LF)
    (before after : Bytes) : smugglingAt flags (p :: before) after = false := by
  have hbefore : beforeCanonical flags (p :: before) = none := by
    cases before with
    | nil => rw [beforeCanonical, if_neg hlf, if_neg hcr]
    | cons q before => rw [beforeCanonical, if_neg hlf, if_neg hcr]
  rw [smugglingAt, hbefore]

theorem detectBodySmuggling_of_wire {buf : Bytes} (h : Wire true buf) (flags : Flags) :
    detectBodySmuggling buf flags = false := by
  refine Bool.eq_false_iff.mpr fun hflag => ?_
  obtain ⟨before, after, heq, hat⟩ := (detectBodySmuggling_iff buf flags).mp hflag
  rcases (around_of_wire h before DOT after heq).dot rfl with hdot | ⟨hne, hcr, hlf⟩
  · obtain ⟨t, rfl⟩ := List.head?_eq_some_iff.mp hdot
    rw [smugglingAt_dot] at hat
    cases hat
  · cases hlast : before.getLast? with
    | none => exact absurd (hne (List.getLast?_eq_none_iff.mp hlast)) (by simp)
    | some p =>
        obtain ⟨t, rfl⟩ := List.getLast?_eq_some_iff.mp hlast
        rw [hlast] at hcr hlf
        rw [List.reverse_append, List.reverse_singleton, List.singleton_append,
          smugglingAt_inside flags (fun h => hcr (congrArg some h))
            fun h => hlf (congrArg some h)] at hat
        cases hat

/-- Dot transparency: the terminator of a stuffed body is found, and the body is read back; and
what goes to the wire is the stuffed body with canonical line ends, in which no scanner finds
anything. -/
theorem dot_transparent :
    (∀ body rest : Bytes, body = [] ∨ [CR, LF] <:+ body →
      findDotTerminator (dotStuff body ++ [DOT, CR, LF] ++ rest) true =
        some (dotStuff body).length ∧
      dotUnstuff ((dotStuff body ++ [DOT, CR, LF] ++ rest).take (dotStuff body).length) = body) ∧
    ∀ body : Bytes, dotStuffForWire body = dotStuff (canonicalizeEol body) ∧
      OnlyCrlf (dotStuffForWire body) ∧ NoDotLine (dotStuffForWire body) ∧
      ∀ flags, detectBodySmuggling (dotStuffForWire body) flags = false := by
  refine ⟨fun body rest hend => ⟨findDotTerminator_dotStuff rest hend, ?_⟩, fun body => ?_⟩
  · rw [List.append_assoc, List.take_left, dotUnstuff_dotStuff]
  · have hwire := wire_wireLoop body true
    rw [dotStuffForWire_eq]
    refine ⟨?_, onlyCrlf_of_wire hwire, noDotLine_of_wire hwire, detectBodySmuggling_of_wire hwire⟩
    rw [dotStuff_eq, canonicalizeEol_eq, wireLoop_eq]
    rfl

/-- A body that is one dot on a line. -/
theorem dot_transparent_dot :
    findDotTerminator (dotStuff [DOT, CR, LF] ++ [DOT, CR, LF] ++ []) true =
      some (dotStuff [DOT, CR, LF]).length :=
  (dot_transparent.1 [DOT, CR, LF] [] (.inr (by decide))).1

end Blamejs.SafeSmtp
