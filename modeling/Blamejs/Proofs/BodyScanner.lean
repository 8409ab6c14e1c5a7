import Blamejs.Proofs.SafeSmtp
import Mathlib.Data.List.Induction

/-!
# The body scanner and the whole body

A shape of five bytes that ends in a chunk begins in the four bytes before it or in the chunk, so
a push sees what is new. What it may get wrong is an old dot: when an empty chunk has made it
forget the byte before its window, a line end whose CR is that byte looks like a bare LF, and the
terminator behind it like a smuggled one.
-/

namespace Blamejs.SafeSmtp

/-- The flags of a whole body with more to come. -/
def whole : Flags := ⟨true, false, true⟩

def terminator : Bytes := [CR, LF, DOT, CR, LF]

/-- An empty chunk, after a terminator, that is not the last one. -/
def Forgets (chunks : List Bytes) : Prop :=
  ∃ pre c post, chunks = pre ++ [] :: c :: post ∧ terminator <:+ pre.flatten

/-! ## One dot -/

/-- Two bytes before a dot decide. -/
theorem smugglingAt_two {flags flags' : Flags} (h : flags.moreComing = flags'.moreComing)
    (p q : UInt8) (before before' after : Bytes) :
    smugglingAt flags (p :: q :: before) after = smugglingAt flags' (p :: q :: before') after := by
  have hafter (b : Bool) : afterCanonical flags b after = afterCanonical flags' b after := by
    rcases after with _ | ⟨a, _ | ⟨a', rest⟩⟩
    · rfl
    · rw [afterCanonical, afterCanonical, h]
    · rfl
  rw [smugglingAt, smugglingAt, beforeCanonical, beforeCanonical]
  simp only [hafter]

/-- One byte and the flag for a CR before it decide. -/
theorem smugglingAt_one {flags flags' : Flags} (h : flags.moreComing = flags'.moreComing)
    (p q : UInt8) (hq : flags.precededByCr = decide (q = CR)) (before after : Bytes) :
    smugglingAt flags [p] after = smugglingAt flags' (p :: q :: before) after := by
  rw [@smugglingAt_two flags' flags h.symm p q before []]
  rw [smugglingAt, smugglingAt, beforeCanonical, beforeCanonical, hq]

/-- Two bytes after a dot decide. -/
theorem smugglingAt_append_two (flags : Flags) {after : Bytes} (h : 2 ≤ after.length)
    (before more : Bytes) :
    smugglingAt flags before (after ++ more) = smugglingAt flags before after := by
  rcases after with _ | ⟨a, _ | ⟨b, after⟩⟩
  · exact absurd h (by simp)
  · exact absurd h (by simp)
  · rfl

/-- A dot that was flagged stays so. -/
theorem smugglingAt_append {flags : Flags} (hmore : flags.moreComing = true) {before after : Bytes}
    (h : smugglingAt flags before after = true) (more : Bytes) :
    smugglingAt flags before (after ++ more) = true := by
  rcases after with _ | ⟨a, _ | ⟨b, after⟩⟩
  · rw [smugglingAt] at h
    cases hb : beforeCanonical flags before with
    | none => simp [hb] at h
    | some b => simp [hb, afterCanonical] at h
  · cases more with
    | nil => exact h
    | cons m more =>
        rw [smugglingAt] at h ⊢
        cases hb : beforeCanonical flags before with
        | none => simp [hb] at h
        | some b =>
            by_cases hlf : a = LF
            · simp [hb, afterCanonical, hlf] at h ⊢
            · by_cases hcr : a = CR
              · cases b <;> simp_all [afterCanonical]
              · simp [hb, afterCanonical, hlf, hcr] at h
  · exact h

theorem detectBodySmuggling_append {flags : Flags} (hmore : flags.moreComing = true) {buf : Bytes}
    (h : detectBodySmuggling buf flags = true) (more : Bytes) :
    detectBodySmuggling (buf ++ more) flags = true := by
  obtain ⟨before, after, rfl, hat⟩ := (detectBodySmuggling_iff buf flags).mp h
  exact (detectBodySmuggling_iff _ flags).mpr ⟨before, after ++ more, by simp,
    smugglingAt_append hmore hat more⟩

/-! ## One window -/

/-- What is before a window, and the window. -/
structure Window (old tail : Bytes) : Prop where
  le : tail.length ≤ OVERLAP
  full : old ≠ [] → tail.length = OVERLAP

variable {old tail chunk : Bytes}

/-- What a longer body is flagged for was flagged before, or is seen in the window. -/
theorem detect_window (hw : Window old tail) {precededByCr : Bool}
    (hfirst : old = [] → precededByCr = false)
    (h : detectBodySmuggling (old ++ tail ++ chunk) whole = true) :
    detectBodySmuggling (old ++ tail) whole = true ∨
      detectBodySmuggling (tail ++ chunk) ⟨old = [], precededByCr, true⟩ = true := by
  obtain ⟨before, after, heq, hat⟩ := (detectBodySmuggling_iff _ whole).mp h
  have hlen := congrArg List.length heq
  simp only [List.length_append, List.length_cons] at hlen
  by_cases hold : chunk.length + 2 ≤ after.length
  · left
    rcases List.append_eq_append_iff.mp heq with ⟨t, hbefore, -⟩ | ⟨t, hwhole, hafter⟩
    · have := congrArg List.length hbefore
      simp only [List.length_append] at this
      omega
    · rcases List.cons_eq_append_iff.mp hafter with ⟨rfl, hchunk⟩ | ⟨t, rfl, rfl⟩
      · have := congrArg List.length hchunk
        rw [List.length_cons] at this
        omega
      · rw [List.length_append] at hold
        rw [smugglingAt_append_two _ (by omega)] at hat
        exact (detectBodySmuggling_iff _ whole).mpr ⟨before, t, hwhole, hat⟩
  · right
    by_cases hnil : old = []
    · subst hnil
      have hflags : (⟨decide (([] : Bytes) = []), precededByCr, true⟩ : Flags) = whole := by
        rw [hfirst rfl]
        rfl
      rw [hflags]
      exact h
    · have hfull := hw.full hnil
      have hover : OVERLAP = 4 := rfl
      rw [List.append_assoc] at heq
      obtain ⟨mid, hbefore, hwindow⟩ : ∃ mid, before = old ++ mid ∧
          tail ++ chunk = mid ++ DOT :: after := by
        rcases List.append_eq_append_iff.mp heq with ⟨t, hbefore, hwindow⟩ | ⟨t, hbefore, -⟩
        · exact ⟨t, hbefore, hwindow⟩
        · have := congrArg List.length hbefore
          simp only [List.length_append] at this
          omega
      have hmid := congrArg List.length hbefore
      rw [List.length_append] at hmid
      refine (detectBodySmuggling_iff _ _).mpr ⟨mid, after, hwindow, ?_⟩
      obtain ⟨p, q, t, hpq⟩ : ∃ p q t, mid.reverse = p :: q :: t := by
        rcases hr : mid.reverse with _ | ⟨p, _ | ⟨q, t⟩⟩
        · have := congrArg List.length hr
          simp only [List.length_reverse, List.length_nil] at this
          omega
        · have := congrArg List.length hr
          simp only [List.length_reverse, List.length_cons, List.length_nil] at this
          omega
        · exact ⟨p, q, t, rfl⟩
      rw [hbefore, List.reverse_append, hpq] at hat
      rw [hpq]
      exact (smugglingAt_two (by rfl) p q t (t ++ old.reverse) after).trans hat

/-- What is seen in a window with the byte before it is in the body. -/
theorem detect_of_window
    (h : detectBodySmuggling (tail ++ chunk) ⟨old = [], old.getLast? = some CR, true⟩ = true) :
    detectBodySmuggling (old ++ tail ++ chunk) whole = true := by
  obtain ⟨mid, rest, hwindow, hat⟩ := (detectBodySmuggling_iff _ _).mp h
  refine (detectBodySmuggling_iff _ _).mpr
    ⟨old ++ mid, rest, by rw [List.append_assoc, hwindow, List.append_assoc], ?_⟩
  rw [List.reverse_append]
  cases hlast : old.getLast? with
  | none =>
      rw [List.getLast?_eq_none_iff.mp hlast] at hat ⊢
      rw [List.reverse_nil, List.append_nil]
      exact hat
  | some y =>
      obtain ⟨o, rfl⟩ := List.getLast?_eq_some_iff.mp hlast
      rw [List.reverse_append, List.reverse_singleton, List.singleton_append]
      rcases hr : mid.reverse with _ | ⟨p, _ | ⟨q, t⟩⟩
      · rw [hr, smugglingAt, beforeCanonical, if_neg (by simp)] at hat
        by_cases hcr : y = CR
        · subst hcr
          rw [if_pos (by simp)] at hat
          rw [List.nil_append, smugglingAt]
          cases o.reverse <;> exact hat
        · rw [if_neg (by simp [hcr])] at hat
          cases hat
      · rw [hr] at hat
        exact (smugglingAt_one (by rfl) p y (by simp) o.reverse rest).symm.trans hat
      · rw [hr] at hat
        exact (smugglingAt_two (by rfl) p q (t ++ y :: o.reverse) t rest).trans hat

/-- The terminator with the CR out of sight. -/
theorem detect_of_forgot (hw : Window old tail) (hlast : old.getLast? = some CR)
    (h : detectBodySmuggling (tail ++ chunk) ⟨old = [], false, true⟩ = true) :
    detectBodySmuggling (old ++ tail ++ chunk) whole = true ∨ terminator <:+ old ++ tail := by
  obtain ⟨o, rfl⟩ := List.getLast?_eq_some_iff.mp hlast
  obtain ⟨mid, rest, hwindow, hat⟩ := (detectBodySmuggling_iff _ _).mp h
  have hfull := hw.full (by simp)
  have hdetect (hat : smugglingAt whole (mid.reverse ++ (o ++ [CR]).reverse) rest = true) :
      detectBodySmuggling (o ++ [CR] ++ tail ++ chunk) whole = true := by
    refine (detectBodySmuggling_iff _ _).mpr
      ⟨o ++ [CR] ++ mid, rest, by rw [List.append_assoc, hwindow, ← List.append_assoc], ?_⟩
    rw [List.reverse_append]
    exact hat
  rw [List.reverse_append, List.reverse_singleton, List.singleton_append] at hdetect
  rcases hr : mid.reverse with _ | ⟨p, _ | ⟨q, t⟩⟩
  · rw [hr, smugglingAt, beforeCanonical, if_neg (by simp), if_neg (by simp)] at hat
    cases hat
  · have hmid : mid = [p] := by
      rw [← List.reverse_reverse mid, hr]
      rfl
    subst hmid
    rw [hr] at hat hdetect
    rcases tail with _ | ⟨t₀, _ | ⟨t₁, _ | ⟨a, _ | ⟨b, _ | ⟨c, u⟩⟩⟩⟩⟩ <;>
      simp [OVERLAP] at hfull
    obtain ⟨rfl, htail⟩ := List.cons.inj hwindow
    obtain ⟨rfl, rfl⟩ := List.cons.inj htail
    by_cases hlf : t₀ = LF
    · subst hlf
      by_cases ha : a = LF
      · exact .inl (hdetect (by rw [ha]; rfl))
      · by_cases hcr : a = CR
        · by_cases hb : b = LF
          · exact .inr ⟨o, by rw [hcr, hb, List.append_assoc]; rfl⟩
          · refine .inl (hdetect ?_)
            simp [smugglingAt, beforeCanonical, afterCanonical, hcr, hb]
        · simp [smugglingAt, beforeCanonical, afterCanonical, ha, hcr] at hat
    · refine .inl (hdetect ?_)
      rw [smugglingAt, beforeCanonical, if_neg hlf] at hat
      rw [List.singleton_append, smugglingAt, beforeCanonical, if_neg hlf]
      exact hat
  · rw [hr] at hat hdetect
    exact .inl (hdetect ((smugglingAt_two (by rfl) p q _ _ _).trans hat))

/-- A terminator whose CR is out of sight is taken for a smuggled one. -/
theorem forgot_of_terminator (hw : Window old tail) (h : terminator <:+ old ++ tail)
    (chunk : Bytes) : old.getLast? = some CR ∧
      detectBodySmuggling (tail ++ chunk) ⟨old = [], false, true⟩ = true := by
  obtain ⟨o, ho⟩ := h
  have hlen := congrArg List.length ho
  rw [List.length_append, List.length_append] at hlen
  have hle := hw.le
  have hterm : terminator.length = 5 := rfl
  have hover : OVERLAP = 4 := rfl
  have hne : old ≠ [] := by
    rintro rfl
    rw [List.length_nil] at hlen
    omega
  have hfull := hw.full hne
  have hsplit : o ++ [CR] = old ∧ [LF, DOT, CR, LF] = tail := by
    refine List.append_inj' ?_ (by rw [hfull]; rfl)
    rw [← ho, List.append_assoc]
    rfl
  obtain ⟨rfl, rfl⟩ := hsplit
  refine ⟨by simp, (detectBodySmuggling_iff _ _).mpr ⟨[LF], CR :: LF :: chunk, rfl, rfl⟩⟩

/-! ## The terminator -/

theorem length_of_findLoop {i t : Nat} {buf : Bytes} (h : findLoop i buf = some t) :
    5 ≤ buf.length := by
  induction buf generalizing i with
  | nil => cases h
  | cons b rest ih =>
      rw [findLoop] at h
      split at h
      · next htake =>
          have := congrArg List.length htake
          rw [List.length_take] at this
          simp only [List.length_cons, List.length_nil] at this ⊢
          omega
      · have := ih h
        rw [List.length_cons]
        omega

theorem findLoop_append {i t : Nat} {buf : Bytes} (h : findLoop i buf = some t) (more : Bytes) :
    findLoop i (buf ++ more) = some t := by
  have hlen := length_of_findLoop h
  induction buf generalizing i with
  | nil => cases h
  | cons b rest ih =>
      have htake : (b :: (rest ++ more)).take 5 = (b :: rest).take 5 :=
        @List.take_append_of_le_length _ (b :: rest) more 5 hlen
      rw [List.cons_append, findLoop, htake]
      rw [findLoop] at h
      split at h
      · next hmatch => rw [if_pos hmatch, h]
      · next hmiss => rw [if_neg hmiss, ih h (length_of_findLoop h)]

theorem findLoop_add (k i : Nat) (buf : Bytes) :
    findLoop (k + i) buf = (findLoop i buf).map (k + ·) := by
  induction buf generalizing i with
  | nil => rfl
  | cons b rest ih =>
      rw [findLoop, findLoop]
      split
      · rfl
      · exact ih (i + 1)

/-- What ends in a chunk begins in its window. -/
theorem findLoop_window {i : Nat} (htail : 4 ≤ tail.length)
    (h : findLoop i (old ++ tail) = none) (chunk : Bytes) :
    findLoop i (old ++ tail ++ chunk) = findLoop (old.length + i) (tail ++ chunk) := by
  induction old generalizing i with
  | nil => rw [List.length_nil, Nat.zero_add, List.nil_append]
  | cons b old ih =>
      have htake : (b :: (old ++ tail ++ chunk)).take 5 = (b :: (old ++ tail)).take 5 := by
        refine @List.take_append_of_le_length _ (b :: (old ++ tail)) chunk 5 ?_
        rw [List.length_cons, List.length_append]
        omega
      rw [List.cons_append, findLoop] at h
      split at h
      · cases h
      · next hmiss =>
          rw [List.cons_append, List.cons_append, findLoop, htake, if_neg hmiss, ih h,
            List.length_cons]
          congr 1
          omega

theorem take_three_append {buf : Bytes} (h : 3 ≤ buf.length) (more : Bytes) :
    (buf ++ more).take 3 = buf.take 3 :=
  List.take_append_of_le_length h

theorem findDotTerminator_append {t : Nat} {buf : Bytes} (h : findDotTerminator buf true = some t)
    (more : Bytes) : findDotTerminator (buf ++ more) true = some t := by
  rw [findDotTerminator] at h ⊢
  split at h
  · next hstart =>
      have hlen := congrArg List.length hstart.2
      rw [List.length_take] at hlen
      simp only [List.length_cons, List.length_nil] at hlen
      rw [take_three_append (by omega), if_pos hstart, h]
  · next hstart =>
      have hlen := length_of_findLoop h
      rw [take_three_append (by omega), if_neg hstart, findLoop_append h]

/-- The terminator of a longer body was there before, or is in the window. -/
theorem find_window (hw : Window old tail) (chunk : Bytes) :
    (findDotTerminator (old ++ tail) true).or
        ((findDotTerminator (tail ++ chunk) (old = [])).map (old.length + ·)) =
      findDotTerminator (old ++ tail ++ chunk) true := by
  cases hfind : findDotTerminator (old ++ tail) true with
  | some t => rw [findDotTerminator_append hfind]; rfl
  | none =>
      rw [Option.none_or]
      by_cases hnil : old = []
      · subst hnil
        simp
      · have hfull : tail.length = 4 := hw.full hnil
        rw [findDotTerminator] at hfind
        split at hfind
        · cases hfind
        · next hstart =>
            have hwindow := findLoop_window (by omega) hfind chunk
            have hlen : 3 ≤ (old ++ tail).length := by
              rw [List.length_append]
              omega
            rw [findDotTerminator, findDotTerminator, take_three_append hlen, if_neg hstart,
              hwindow, findLoop_add, if_neg (by simp [hnil])]

/-! ## All chunks -/

/-- A scanner after some chunks. -/
structure Tracks (chunks : List Bytes) (old : Bytes) (s : Scanner) : Prop where
  window : Window old s.tail
  bytes : chunks.flatten = old ++ s.tail
  consumed : s.consumed = chunks.flatten.length
  beforeTail : s.beforeTail = if chunks.getLast? = some [] then none else old.getLast?
  terminatorAt : s.terminatorAt = findDotTerminator chunks.flatten true
  sawSmuggling : s.sawSmuggling = true ↔
    detectBodySmuggling chunks.flatten whole = true ∨ Forgets chunks

theorem forgets_append (chunks : List Bytes) (c : Bytes) : Forgets (chunks ++ [c]) ↔
    Forgets chunks ∨ chunks.getLast? = some [] ∧ terminator <:+ chunks.flatten := by
  constructor
  · rintro ⟨pre, c', post, heq, hterm⟩
    rcases List.eq_nil_or_concat post with rfl | ⟨post, last, rfl⟩
    · have hsplit : chunks = pre ++ [[]] ∧ [c] = [c'] := by
        refine List.append_inj' ?_ rfl
        rw [heq, List.append_assoc]
        rfl
      rw [hsplit.1]
      exact .inr ⟨by simp, by simpa using hterm⟩
    · have hsplit : chunks ++ [c] = pre ++ [] :: c' :: post ++ [last] := by
        rw [heq]
        simp
      exact .inl ⟨pre, c', post, (List.append_inj' hsplit rfl).1, hterm⟩
  · rintro (⟨pre, c', post, rfl, hterm⟩ | ⟨hlast, hterm⟩)
    · exact ⟨pre, c', post ++ [c], by simp, hterm⟩
    · obtain ⟨pre, rfl⟩ := List.getLast?_eq_some_iff.mp hlast
      exact ⟨pre, c, [], by simp, by simpa using hterm⟩

/-- What a push flags, with the byte before its window or without it. -/
theorem push_smuggling (hw : Window old tail) (lost : Prop) [Decidable lost] (chunk : Bytes) :
    (detectBodySmuggling (old ++ tail) whole = true ∨ detectBodySmuggling (tail ++ chunk)
      ⟨old = [], (if lost then none else old.getLast?) = some CR, true⟩ = true) ↔
    detectBodySmuggling (old ++ tail ++ chunk) whole = true ∨
      lost ∧ terminator <:+ old ++ tail := by
  have hold (h : detectBodySmuggling (old ++ tail) whole = true) :
      detectBodySmuggling (old ++ tail ++ chunk) whole = true :=
    detectBodySmuggling_append rfl h chunk
  have hback : detectBodySmuggling (old ++ tail ++ chunk) whole = true →
      detectBodySmuggling (old ++ tail) whole = true ∨ detectBodySmuggling (tail ++ chunk)
        ⟨old = [], (if lost then none else old.getLast?) = some CR, true⟩ = true := by
    refine detect_window hw ?_
    rintro rfl
    simp
  by_cases hlost : lost
  · simp only [hlost, if_true, true_and, reduceCtorEq, decide_false] at hback ⊢
    constructor
    · rintro (h | h)
      · exact .inl (hold h)
      · by_cases hcr : old.getLast? = some CR
        · exact detect_of_forgot hw hcr h
        · exact .inl (detect_of_window (by simpa [hcr] using h))
    · rintro (h | h)
      · exact hback h
      · exact .inr (forgot_of_terminator hw h chunk).2
  · simp only [hlost, if_false, false_and, or_false] at hback ⊢
    constructor
    · rintro (h | h)
      · exact hold h
      · exact detect_of_window h
    · exact hback

theorem tracks_push {chunks : List Bytes} {s : Scanner} (h : Tracks chunks old s) (c : Bytes) :
    ∃ old', Tracks (chunks ++ [c]) old' (s.push c) := by
  have hstart : s.consumed - s.tail.length = old.length := by
    rw [h.consumed, h.bytes, List.length_append]
    omega
  have hzero : decide (s.consumed - s.tail.length = 0) = decide (old = []) := by
    rw [hstart]
    exact decide_eq_decide.mpr List.length_eq_zero_iff
  have hterminator : (s.push c).terminatorAt = findDotTerminator (chunks ++ [c]).flatten true := by
    rw [Scanner.push, h.terminatorAt, hzero, hstart, h.bytes, find_window h.window,
      List.flatten_append, h.bytes, List.flatten_singleton]
  have hsmuggling : (s.push c).sawSmuggling = true ↔
      detectBodySmuggling (chunks ++ [c]).flatten whole = true ∨ Forgets (chunks ++ [c]) := by
    have hpush := push_smuggling h.window (chunks.getLast? = some []) c
    rw [forgets_append, List.flatten_append, List.flatten_singleton, h.bytes, Scanner.push]
    rw [Bool.or_eq_true, h.sawSmuggling, hzero, h.beforeTail, h.bytes]
    tauto
  have hconsumed : (s.push c).consumed = (chunks ++ [c]).flatten.length := by
    rw [List.flatten_append, List.length_append, List.flatten_singleton, ← h.consumed]
    rfl
  have hbytes : (chunks ++ [c]).flatten = old ++ (s.tail ++ c) := by
    rw [List.flatten_append, List.flatten_singleton, h.bytes, List.append_assoc]
  have hbefore : (s.push c).beforeTail = if OVERLAP < (s.tail ++ c).length then
      (s.tail ++ c)[(s.tail ++ c).length - OVERLAP - 1]? else none := rfl
  have hlast : (chunks ++ [c]).getLast? = some c := by simp
  by_cases hshort : (s.tail ++ c).length ≤ OVERLAP
  · have htail : (s.push c).tail = s.tail ++ c := if_pos hshort
    have hempty (hne : old ≠ []) : c = [] := by
      have hfull := h.window.full hne
      rw [List.length_append, hfull] at hshort
      exact List.length_eq_zero_iff.mp (by omega)
    rw [if_neg (by omega)] at hbefore
    refine ⟨old, ⟨htail ▸ hshort, fun hne => ?_⟩, htail ▸ hbytes, hconsumed, ?_, hterminator,
      hsmuggling⟩
    · rw [htail, hempty hne, List.append_nil, h.window.full hne]
    · rw [hbefore, hlast]
      by_cases hnil : old = []
      · rw [hnil]
        split <;> rfl
      · rw [if_pos (by rw [hempty hnil])]
  · have htail : (s.push c).tail = (s.tail ++ c).drop ((s.tail ++ c).length - OVERLAP) :=
      if_neg hshort
    have hlen : (s.push c).tail.length = OVERLAP := by
      rw [htail, List.length_drop]
      omega
    have hne : c ≠ [] := by
      rintro rfl
      rw [List.append_nil] at hshort
      exact hshort h.window.le
    rw [if_pos (by omega)] at hbefore
    refine ⟨old ++ (s.tail ++ c).take ((s.tail ++ c).length - OVERLAP),
      ⟨Nat.le_of_eq hlen, fun _ => hlen⟩, ?_, hconsumed, ?_, hterminator, hsmuggling⟩
    · rw [htail, List.append_assoc, List.take_append_drop, hbytes]
    · rw [hbefore, hlast, if_neg fun heq => hne (Option.some.inj heq), List.getLast?_append,
        List.getLast?_take, if_neg (by omega)]
      rw [List.getElem?_eq_getElem (by omega)]
      rfl

theorem tracks_scan (chunks : List Bytes) : ∃ old, Tracks chunks old (scan chunks) := by
  induction chunks using List.reverseRecOn with
  | nil =>
      refine ⟨[], ⟨Nat.zero_le _, fun h => absurd rfl h⟩, rfl, rfl, rfl, rfl, ?_⟩
      refine ⟨fun h => (by cases h), fun h => ?_⟩
      rcases h with h | ⟨pre, c, post, heq, -⟩
      · cases h
      · exact absurd heq (by simp)
  | append_singleton chunks c ih =>
      obtain ⟨old, h⟩ := ih
      rw [scan, List.foldl_append]
      exact tracks_push h c

/-- Where the terminator is does not depend on the chunks. -/
theorem scan_terminatorAt (chunks : List Bytes) :
    (scan chunks).seen.terminatorAt = findDotTerminator chunks.flatten true := by
  obtain ⟨old, h⟩ := tracks_scan chunks
  exact h.terminatorAt

/-- The scanner reports what is to be said of the whole body, unless there is no smuggling in it
and an empty chunk that is not the last one came after a terminator. -/
theorem scan_exact (chunks : List Bytes) :
    (scan chunks).seen = ⟨detectBodySmuggling chunks.flatten whole,
      findDotTerminator chunks.flatten true⟩ ↔
    detectBodySmuggling chunks.flatten whole = true ∨ ¬ Forgets chunks := by
  obtain ⟨old, h⟩ := tracks_scan chunks
  have hsaw := h.sawSmuggling
  rw [Scanner.seen, Seen.mk.injEq, h.terminatorAt, Bool.eq_iff_iff]
  tauto

/-- An empty chunk behind a body that has ended, and another. -/
theorem scan_flags_terminator :
    (scan [[0x61, CR, LF, DOT, CR, LF], [], []]).seen ≠
      ⟨detectBodySmuggling [[0x61, CR, LF, DOT, CR, LF], [], []].flatten whole,
        findDotTerminator [[0x61, CR, LF, DOT, CR, LF], [], []].flatten true⟩ := by
  decide

end Blamejs.SafeSmtp
