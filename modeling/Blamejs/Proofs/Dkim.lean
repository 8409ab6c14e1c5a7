import Blamejs.Ref.Dkim

/-!
# The forms a message is signed in

A text is its lines, and each walk over the text is what one line does to it, so the forms
of the code meet those of the lines. What a relaxed form does to blanks is the same for a
body and for a field; the first keeps the blanks that begin a line.
-/

namespace Blamejs.Dkim

open MailText

/-! ## Lines -/

theorem wireText_cons (l : Text) {ls : List Text} (h : ls ≠ []) :
    wireText (l :: ls) = l ++ cr :: lf :: wireText ls := by
  cases ls with
  | nil => exact absurd rfl h
  | cons m ls =>
      rw [wireText, List.intercalate_cons_cons, List.append_assoc]
      rfl

theorem wireText_singleton (l : Text) : wireText [l] = l := List.intercalate_singleton

/-- What follows a piece of a line: nothing, or the end of the line. -/
theorem normalizeCrlf_line {l : Text} (h : lf ∉ l) (r : Text) :
    normalizeCrlf (l ++ cr :: lf :: r) = l ++ cr :: lf :: normalizeCrlf r := by
  induction l with
  | nil =>
      rw [List.nil_append, List.nil_append, normalizeCrlf, if_pos ⟨rfl, rfl⟩, normalizeCrlf,
        if_neg fun h' => absurd h'.1 (by decide), if_pos rfl]
  | cons u l ih =>
      have hu : u ≠ lf := fun h' => h (h' ▸ List.mem_cons_self)
      have hl : lf ∉ l := fun h' => h (List.mem_cons_of_mem _ h')
      have hnext : (l ++ cr :: lf :: r).head? ≠ some lf := by
        cases l with
        | nil => simp [cr, lf]
        | cons v l =>
            intro h'
            exact hl (Option.some.inj h' ▸ List.mem_cons_self)
      rw [List.cons_append, normalizeCrlf, if_neg fun h' => hnext h'.2, if_neg hu, ih hl]
      rfl

theorem normalizeCrlf_of_line {l : Text} (h : lf ∉ l) : normalizeCrlf l = l := by
  induction l with
  | nil => rfl
  | cons u l ih =>
      have hu : u ≠ lf := fun h' => h (h' ▸ List.mem_cons_self)
      have hl : lf ∉ l := fun h' => h (List.mem_cons_of_mem _ h')
      have hnext : l.head? ≠ some lf := fun h' => hl (List.mem_of_mem_head? h')
      rw [normalizeCrlf, if_neg fun h' => hnext h'.2, if_neg hu, ih hl]

theorem areLines_cons {l m : Text} {ls : List Text} (h : AreLines (l :: m :: ls)) :
    lf ∉ l ∧ AreLines (m :: ls) :=
  ⟨h.2 l List.mem_cons_self, List.cons_ne_nil _ _, fun k hk => h.2 k (List.mem_cons_of_mem _ hk)⟩

theorem normalizeCrlf_wireText : ∀ {ls : List Text}, AreLines ls →
    normalizeCrlf (wireText ls) = wireText ls
  | [], h => absurd rfl h.1
  | [l], h => by
      rw [wireText_singleton, normalizeCrlf_of_line (h.2 l List.mem_cons_self)]
  | l :: m :: ls, h => by
      obtain ⟨hl, hls⟩ := areLines_cons h
      rw [wireText_cons l hls.1, normalizeCrlf_line hl, normalizeCrlf_wireText hls]

theorem splitCrlf_line {l : Text} (h : lf ∉ l) (r : Text) :
    splitCrlf (l ++ cr :: lf :: r) = l :: splitCrlf r := by
  induction l with
  | nil => rw [List.nil_append, splitCrlf, if_pos ⟨rfl, rfl⟩]
  | cons u l ih =>
      have hl : lf ∉ l := fun h' => h (List.mem_cons_of_mem _ h')
      cases l with
      | nil =>
          rw [List.cons_append, List.nil_append, splitCrlf,
            if_neg fun h' => absurd h'.2 (by decide), ← List.nil_append (cr :: lf :: r), ih hl]
          rfl
      | cons v l =>
          have hv : v ≠ lf := fun h' => hl (h' ▸ List.mem_cons_self)
          rw [List.cons_append, List.cons_append, splitCrlf, if_neg fun h' => hv h'.2,
            ← List.cons_append, ih hl]
          rfl

theorem splitCrlf_of_line {l : Text} (h : lf ∉ l) : splitCrlf l = [l] := by
  induction l with
  | nil => rfl
  | cons u l ih =>
      have hl : lf ∉ l := fun h' => h (List.mem_cons_of_mem _ h')
      cases l with
      | nil => rfl
      | cons v l =>
          have hv : v ≠ lf := fun h' => hl (h' ▸ List.mem_cons_self)
          rw [splitCrlf, if_neg fun h' => hv h'.2, ih hl]
          rfl

theorem splitCrlf_wireText : ∀ {ls : List Text}, AreLines ls → splitCrlf (wireText ls) = ls
  | [], h => absurd rfl h.1
  | [l], h => by rw [wireText_singleton, splitCrlf_of_line (h.2 l List.mem_cons_self)]
  | l :: m :: ls, h => by
      obtain ⟨hl, hls⟩ := areLines_cons h
      rw [wireText_cons l hls.1, splitCrlf_line hl, splitCrlf_wireText hls]

/-- Every text has lines once its line ends are CRLF. -/
theorem exists_lines (s : Text) : ∃ ls, AreLines ls ∧ normalizeCrlf s = wireText ls := by
  induction s with
  | nil => exact ⟨[[]], ⟨by decide, by simp⟩, rfl⟩
  | cons u s ih =>
      obtain ⟨ls, hls, heq⟩ := ih
      rw [normalizeCrlf, heq]
      split
      · exact ⟨ls, hls, rfl⟩
      · split
        · refine ⟨[] :: ls, ⟨List.cons_ne_nil _ _, ?_⟩, (wireText_cons [] hls.1).symm⟩
          exact List.forall_mem_cons.mpr ⟨List.not_mem_nil, hls.2⟩
        · next hu =>
            cases ls with
            | nil => exact absurd rfl hls.1
            | cons l ls =>
                obtain ⟨hl, hrest⟩ := List.forall_mem_cons.mp hls.2
                refine ⟨(u :: l) :: ls, ⟨List.cons_ne_nil _ _, List.forall_mem_cons.mpr
                  ⟨?_, hrest⟩⟩, ?_⟩
                · rw [List.mem_cons, not_or]
                  exact ⟨Ne.symm hu, hl⟩
                · cases ls with
                  | nil => rw [wireText_singleton, wireText_singleton]
                  | cons m ls =>
                      rw [wireText_cons _ (List.cons_ne_nil _ _),
                        wireText_cons _ (List.cons_ne_nil _ _)]
                      rfl

/-! ## Blanks -/

theorem spaced_of_isBlank {u : UInt8} (h : isBlank u = true) : spaced u = sp := if_pos h

theorem spaced_of_not {u : UInt8} (h : isBlank u = false) : spaced u = u :=
  if_neg (by rw [h]; exact Bool.false_ne_true)

theorem ne_sp_of_not {u : UInt8} (h : isBlank u = false) : u ≠ sp := by
  rintro rfl
  exact absurd h (by decide)

/-- The walk that replaces the runs of blanks, after a character that it wrote. -/
theorem destutter'_spaced (a : UInt8) (s : Text) :
    (s.map spaced).destutter' Apart a = a :: collapseFrom (a == sp) s := by
  induction s generalizing a with
  | nil => rfl
  | cons u s ih =>
      rw [List.map_cons, List.destutter', collapseFrom]
      cases hu : isBlank u with
      | true =>
          rw [spaced_of_isBlank hu, if_pos rfl]
          by_cases ha : a = sp
          · rw [if_neg fun h => h ⟨ha, rfl⟩, ih, ha]
            rfl
          · rw [if_pos (show Apart a sp from fun h => ha h.1), ih, beq_eq_false_iff_ne.mpr ha]
            rfl
      | false =>
          rw [spaced_of_not hu, if_neg Bool.false_ne_true,
            if_pos (show Apart a u from fun h => ne_sp_of_not hu h.2), ih,
            beq_eq_false_iff_ne.mpr (ne_sp_of_not hu)]

theorem collapse_eq (s : Text) : collapse s = reduceBlanks s := by
  cases s with
  | nil => rfl
  | cons u s =>
      rw [reduceBlanks, List.map_cons, List.destutter_cons', destutter'_spaced, collapse,
        collapseFrom]
      cases hu : isBlank u with
      | true => rw [spaced_of_isBlank hu]; rfl
      | false =>
          rw [spaced_of_not hu, beq_eq_false_iff_ne.mpr (ne_sp_of_not hu)]
          rfl

/-- Text whose blanks are single spaces. -/
def Reduced (s : Text) : Prop := s.IsChain Apart ∧ tab ∉ s

theorem map_spaced_of_no_tab {s : Text} (h : tab ∉ s) : s.map spaced = s := by
  refine (List.map_congr_left fun u hu => ?_).trans (List.map_id s)
  cases hb : isBlank u with
  | false => exact spaced_of_not hb
  | true =>
      rw [isBlank, Bool.or_eq_true, beq_iff_eq, beq_iff_eq] at hb
      rcases hb with rfl | rfl
      · rfl
      · exact absurd hu h

theorem reduceBlanks_of_reduced {s : Text} (h : Reduced s) : reduceBlanks s = s := by
  rw [reduceBlanks, map_spaced_of_no_tab h.2]
  exact List.destutter_of_isChain _ s h.1

theorem mem_reduceBlanks {s : Text} {u : UInt8} (h : u ∈ reduceBlanks s) : ∃ v ∈ s, spaced v = u :=
  List.mem_map.mp ((List.destutter_sublist Apart _).subset h)

theorem reduced_reduceBlanks (s : Text) : Reduced (reduceBlanks s) := by
  refine ⟨List.isChain_destutter Apart _, fun h => ?_⟩
  obtain ⟨v, -, hv⟩ := mem_reduceBlanks h
  unfold spaced at hv
  split at hv
  · exact absurd hv (by decide)
  · next hb => exact hb (hv ▸ by decide)

theorem lf_notMem_reduceBlanks {s : Text} (h : lf ∉ s) : lf ∉ reduceBlanks s := by
  intro hmem
  obtain ⟨v, hv, heq⟩ := mem_reduceBlanks hmem
  unfold spaced at heq
  split at heq
  · exact absurd heq (by decide)
  · exact h (heq ▸ hv)

theorem Reduced.beginning {s t : Text} (h : Reduced s) (hp : t <+: s) : Reduced t := by
  obtain ⟨r, rfl⟩ := hp
  exact ⟨(List.isChain_append.mp h.1).1, fun ht => h.2 (List.mem_append_left r ht)⟩

theorem Reduced.ending {s t : Text} (h : Reduced s) (hs : t <:+ s) : Reduced t := by
  obtain ⟨r, rfl⟩ := hs
  exact ⟨(List.isChain_append.mp h.1).2.1, fun ht => h.2 (List.mem_append_right r ht)⟩

theorem stripEnd_begins (s : Text) : stripEnd s <+: s := List.rdropWhile_prefix isBlank s

theorem relaxedLine_idem (l : Text) : relaxedLine (relaxedLine l) = relaxedLine l := by
  have hred : Reduced (relaxedLine l) :=
    (reduced_reduceBlanks l).beginning (stripEnd_begins _)
  have hstrip : stripEnd (relaxedLine l) = relaxedLine l := List.rdropWhile_idempotent _ _
  rw [relaxedLine, reduceBlanks_of_reduced hred, hstrip]

theorem lf_notMem_relaxedLine {l : Text} (h : lf ∉ l) : lf ∉ relaxedLine l := fun hmem =>
  lf_notMem_reduceBlanks h ((stripEnd_begins _).subset hmem)

/-! ## Ends of texts -/

theorem ended_eq {ls : List Text} (h : ls ≠ []) : ended ls = wireText ls ++ crlf := by
  induction ls with
  | nil => exact absurd rfl h
  | cons l ls ih =>
      cases ls with
      | nil => rw [wireText_singleton, ended, List.flatMap_singleton]
      | cons m ls =>
          have hne : m :: ls ≠ [] := List.cons_ne_nil _ _
          rw [wireText_cons l hne, ended, List.flatMap_cons, ← ended, ih hne, crlf]
          simp

theorem ended_eq_wireText (ls : List Text) : ended ls = wireText (ls ++ [[]]) := by
  induction ls with
  | nil => rfl
  | cons l ls ih =>
      rw [List.cons_append, wireText_cons l (by simp), ← ih, ended, List.flatMap_cons, crlf]
      simp [ended, crlf]

theorem areLines_ended {ls : List Text} (h : ∀ l ∈ ls, lf ∉ l) : AreLines (ls ++ [[]]) := by
  refine ⟨by simp, fun l hl => ?_⟩
  rcases List.mem_append.mp hl with hl | hl
  · exact h l hl
  · rw [List.mem_singleton.mp hl]
    exact List.not_mem_nil

theorem withoutEmptyEnd_ended (ls : List Text) :
    withoutEmptyEnd (withoutEmptyEnd ls ++ [[]]) = withoutEmptyEnd ls := by
  rw [withoutEmptyEnd, List.rdropWhile_concat, if_pos (decide_eq_true rfl)]
  exact List.rdropWhile_idempotent _ _

theorem withoutEmptyEnd_begins (ls : List Text) : withoutEmptyEnd ls <+: ls :=
  List.rdropWhile_prefix _ ls

/-! ## Bodies -/

variable {body : Text} {ls : List Text}

theorem eq_of_normalizeCrlf_nil (hls : AreLines ls) (h : wireText ls = []) : ls = [[]] := by
  rw [← splitCrlf_wireText hls, h]
  rfl

theorem relaxedBody_nil : relaxedBody [[]] = [] := rfl

/-- The relaxed form the code computes: that of the lines, and a line end where they leave
nothing. -/
theorem canonBodyRelaxed_eq (hls : AreLines ls) (h : normalizeCrlf body = wireText ls) :
    canonBodyRelaxed body = if relaxedBody ls = [] then crlf else relaxedBody ls := by
  have hempty : relaxedBody ls = [] ↔ withoutEmptyEnd (ls.map relaxedLine) = [] := by
    rw [relaxedBody]
    constructor
    · intro hnil
      by_contra hne
      rw [ended_eq hne] at hnil
      exact absurd (List.append_eq_nil_iff.mp hnil).2 (by decide)
    · intro hnil
      rw [hnil]
      rfl
  have hmap : (fun line => stripTrailingHspace (collapse line)) = relaxedLine := by
    funext line
    rw [collapse_eq]
    rfl
  rw [canonBodyRelaxed]
  split
  · next hbody =>
      rw [hbody] at h
      rw [eq_of_normalizeCrlf_nil hls h.symm, relaxedBody_nil, if_pos rfl]
  · dsimp only
    rw [h, splitCrlf_wireText hls, hmap]
    change (if withoutEmptyEnd (ls.map relaxedLine) = [] then _ else _) = _
    by_cases hnil : withoutEmptyEnd (ls.map relaxedLine) = []
    · rw [if_pos hnil, if_pos (hempty.mpr hnil)]
    · rw [if_neg hnil, if_neg (mt hempty.mp hnil), relaxedBody, ended_eq hnil]
      rfl

theorem canonBodyRelaxed_iff (hls : AreLines ls) (h : normalizeCrlf body = wireText ls) :
    canonBodyRelaxed body = relaxedBody ls ↔ ∃ l ∈ ls, relaxedLine l ≠ [] := by
  have hempty : relaxedBody ls = [] ↔ ∀ l ∈ ls, relaxedLine l = [] := by
    constructor
    · intro hnil
      have hkept : withoutEmptyEnd (ls.map relaxedLine) = [] := by
        by_contra hne
        rw [relaxedBody, ended_eq hne] at hnil
        exact absurd (List.append_eq_nil_iff.mp hnil).2 (by decide)
      rw [withoutEmptyEnd, List.rdropWhile_eq_nil_iff] at hkept
      exact fun l hl => of_decide_eq_true (hkept _ (List.mem_map_of_mem hl))
    · intro hall
      have hkept : withoutEmptyEnd (ls.map relaxedLine) = [] := by
        rw [withoutEmptyEnd, List.rdropWhile_eq_nil_iff]
        intro l hl
        obtain ⟨k, hk, rfl⟩ := List.mem_map.mp hl
        exact decide_eq_true (hall k hk)
      rw [relaxedBody, hkept]
      rfl
  rw [canonBodyRelaxed_eq hls h]
  split
  · next hnil =>
      rw [hnil]
      refine ⟨fun h => absurd h (by decide), fun ⟨l, hl, hne⟩ => absurd (hempty.mp hnil l hl) hne⟩
  · next hne =>
      refine ⟨fun _ => ?_, fun _ => rfl⟩
      by_contra hall
      exact hne (hempty.mpr fun l hl => by_contra fun hl' => hall ⟨l, hl, hl'⟩)

theorem canonBodyRelaxed_idem (body : Text) :
    canonBodyRelaxed (canonBodyRelaxed body) = canonBodyRelaxed body := by
  obtain ⟨ls, hls, h⟩ := exists_lines body
  rw [canonBodyRelaxed_eq hls h]
  split
  · decide
  · next hne =>
      have hfree : ∀ l ∈ withoutEmptyEnd (ls.map relaxedLine), lf ∉ l := by
        intro l hl
        obtain ⟨k, hk, rfl⟩ := List.mem_map.mp ((withoutEmptyEnd_begins _).subset hl)
        exact lf_notMem_relaxedLine (hls.2 k hk)
      have hagain := areLines_ended hfree
      have hsame : relaxedBody (withoutEmptyEnd (ls.map relaxedLine) ++ [[]]) = relaxedBody ls := by
        have hmap : (withoutEmptyEnd (ls.map relaxedLine)).map relaxedLine =
            withoutEmptyEnd (ls.map relaxedLine) := by
          refine (List.map_congr_left fun l hl => ?_).trans (List.map_id _)
          obtain ⟨k, -, rfl⟩ := List.mem_map.mp ((withoutEmptyEnd_begins _).subset hl)
          exact relaxedLine_idem k
        rw [relaxedBody, List.map_append, hmap, relaxedBody]
        exact congrArg ended (withoutEmptyEnd_ended _)
      have htext : relaxedBody ls = wireText (withoutEmptyEnd (ls.map relaxedLine) ++ [[]]) :=
        ended_eq_wireText _
      rw [canonBodyRelaxed_eq hagain (htext ▸ normalizeCrlf_wireText hagain), hsame, if_neg hne]

/-! ### The simple form -/

/-- A run of line ends. -/
def lineEnds (n : Nat) : Text := (List.replicate n crlf).flatten

theorem lineEnds_succ (n : Nat) : lineEnds (n + 1) = lineEnds n ++ crlf := by
  rw [lineEnds, List.replicate_succ', List.flatten_append, List.flatten_singleton, ← lineEnds]

/-- Of a run of line ends one is left. -/
theorem trimCrlf_run {core : Text} (hcore : core.getLast? ≠ some lf) (n : Nat) :
    trimCrlf (core ++ lineEnds n) = if n = 0 then core else core ++ crlf := by
  have hlast : ¬crlf <:+ core := by
    rintro ⟨t, rfl⟩
    exact hcore (by simp [crlf])
  induction n with
  | zero =>
      change trimCrlf (core ++ []) = core
      rw [List.append_nil, trimCrlf, if_neg]
      exact fun h => hlast ((List.suffix_append crlf crlf).trans h)
  | succ n ih =>
      rw [if_neg (Nat.succ_ne_zero n), trimCrlf, lineEnds_succ, ← List.append_assoc]
      cases n with
      | zero =>
          change (if crlf ++ crlf <:+ core ++ [] ++ crlf then _ else core ++ [] ++ crlf) = _
          rw [List.append_nil, if_neg]
          rintro ⟨t, ht⟩
          rw [← List.append_assoc] at ht
          exact hlast ⟨t, List.append_cancel_right ht⟩
      | succ n =>
          have hsuf : crlf ++ crlf <:+ core ++ lineEnds (n + 1) ++ crlf :=
            ⟨core ++ lineEnds n, by simp [lineEnds_succ]⟩
          have hlen : (core ++ lineEnds (n + 1) ++ crlf).length =
              (core ++ lineEnds (n + 1)).length + 2 := List.length_append
          have htake : (core ++ lineEnds (n + 1) ++ crlf).take
              ((core ++ lineEnds (n + 1) ++ crlf).length - 2) = core ++ lineEnds (n + 1) :=
            List.take_left' (by omega)
          rw [if_pos hsuf, htake, ih, if_neg (Nat.succ_ne_zero n)]

theorem wireText_empties {es : List Text} (hes : ∀ e ∈ es, e = []) (k : Text) :
    wireText (k :: es) = k ++ lineEnds es.length := by
  induction es generalizing k with
  | nil =>
      rw [wireText_singleton]
      exact (List.append_nil k).symm
  | cons e es ih =>
      obtain ⟨he, hrest⟩ := List.forall_mem_cons.mp hes
      rw [wireText_cons k (List.cons_ne_nil _ _), ih hrest, he]
      rfl

theorem wireText_append_empties {es : List Text} (hes : ∀ e ∈ es, e = []) :
    ∀ {ks : List Text}, ks ≠ [] → wireText (ks ++ es) = wireText ks ++ lineEnds es.length
  | [], h => absurd rfl h
  | [k], _ => by rw [wireText_singleton, List.singleton_append, wireText_empties hes]
  | k :: m :: ks, _ => by
      rw [List.cons_append, wireText_cons k (by simp),
        wireText_append_empties hes (List.cons_ne_nil m ks), wireText_cons k (by simp)]
      simp

/-- A text as the lines that are kept and the line ends after them. -/
theorem wireText_kept (hls : AreLines ls) :
    ∃ n, wireText ls = wireText (withoutEmptyEnd ls) ++ lineEnds n := by
  have hsplit : withoutEmptyEnd ls ++ ls.rtakeWhile (· = []) = ls :=
    List.rdropWhile_append_rtakeWhile
  have hes : ∀ e ∈ ls.rtakeWhile (· = []), e = [] := fun e he =>
    of_decide_eq_true (p := e = []) (List.mem_rtakeWhile_imp (p := fun e => decide (e = [])) he)
  by_cases hk : withoutEmptyEnd ls = []
  · rw [hk, List.nil_append] at hsplit
    rw [hsplit] at hes
    rw [hk]
    cases ls with
    | nil => exact absurd rfl hls.1
    | cons e es =>
        obtain ⟨he, hrest⟩ := List.forall_mem_cons.mp hes
        exact ⟨es.length, by rw [wireText_empties hrest, he]; rfl⟩
  · refine ⟨(ls.rtakeWhile (· = [])).length, ?_⟩
    rw [← wireText_append_empties hes hk, hsplit]

theorem exists_wireText_concat (l : Text) : ∀ ks : List Text, ∃ x, wireText (ks ++ [l]) = x ++ l
  | [] => ⟨[], wireText_singleton l⟩
  | k :: ks => by
      obtain ⟨x, hx⟩ := exists_wireText_concat l ks
      refine ⟨k ++ cr :: lf :: x, ?_⟩
      rw [List.cons_append, wireText_cons k (by simp), hx]
      simp

theorem wireText_last (hls : AreLines ls) :
    (wireText (withoutEmptyEnd ls)).getLast? ≠ some lf := by
  by_cases hk : withoutEmptyEnd ls = []
  · rw [hk]
    decide
  · have hlast : ¬decide ((withoutEmptyEnd ls).getLast hk = []) = true :=
      List.rdropWhile_last_not _ _ hk
    have hmem : (withoutEmptyEnd ls).getLast hk ∈ ls :=
      (withoutEmptyEnd_begins ls).subset (List.getLast_mem hk)
    obtain ⟨x, hx⟩ := exists_wireText_concat ((withoutEmptyEnd ls).getLast hk)
      (withoutEmptyEnd ls).dropLast
    rw [List.dropLast_concat_getLast] at hx
    have hne : (withoutEmptyEnd ls).getLast hk ≠ [] := fun h => hlast (decide_eq_true h)
    rw [hx, List.getLast?_append_of_ne_nil _ hne]
    intro h
    exact hls.2 _ hmem (List.mem_of_getLast? h)

theorem canonBodySimple_eq (hls : AreLines ls) (h : normalizeCrlf body = wireText ls) :
    canonBodySimple body = simpleBody ls := by
  have hsimple : simpleBody ls = wireText (withoutEmptyEnd ls) ++ crlf := by
    rw [simpleBody]
    split
    · next hnil => rw [hnil]; rfl
    · next hne => exact ended_eq hne
  obtain ⟨n, hn⟩ := wireText_kept hls
  have hlast := wireText_last hls
  have hno : ¬crlf <:+ wireText (withoutEmptyEnd ls) := by
    rintro ⟨t, ht⟩
    exact hlast (by simp [← ht, crlf])
  rw [canonBodySimple]
  split
  · next hbody =>
      rw [hbody] at h
      rw [eq_of_normalizeCrlf_nil hls h.symm]
      rfl
  · dsimp only
    rw [h, hn, trimCrlf_run hlast, hsimple]
    by_cases h0 : n = 0
    · rw [if_pos h0, if_neg hno]
    · rw [if_neg h0, if_pos (List.suffix_append _ _)]

theorem canonBodySimple_idem (body : Text) :
    canonBodySimple (canonBodySimple body) = canonBodySimple body := by
  obtain ⟨ls, hls, h⟩ := exists_lines body
  rw [canonBodySimple_eq hls h, simpleBody]
  split
  · next hnil =>
      have hlines : AreLines [[], []] := ⟨by decide, by decide⟩
      exact canonBodySimple_eq hlines rfl
  · next hne =>
      have hagain := areLines_ended fun l hl => hls.2 l ((withoutEmptyEnd_begins ls).subset hl)
      rw [canonBodySimple_eq hagain (ended_eq_wireText _ ▸ normalizeCrlf_wireText hagain),
        simpleBody, withoutEmptyEnd_ended, if_neg hne]

/-! ## Fields -/

/-- Passing over a line: what is left of the text may be unfolded on its own. -/
theorem collapse_unfold_line {l t t' : Text} (hl : lf ∉ l) (ht : t.head? ≠ some lf)
    (heq : ∀ a skip, (skip = true → a = true) →
      collapseFrom a (unfoldFrom skip t) = collapseFrom a t') :
    ∀ a skip, (skip = true → a = true) →
      collapseFrom a (unfoldFrom skip (l ++ t)) = collapseFrom a (l ++ t') := by
  induction l with
  | nil => exact heq
  | cons u l ih =>
      intro a skip hskip
      have hu : u ≠ lf := fun h' => hl (h' ▸ List.mem_cons_self)
      have hl' : lf ∉ l := fun h' => hl (List.mem_cons_of_mem _ h')
      have hnext : (l ++ t).head? ≠ some lf := by
        cases l with
        | nil => exact ht
        | cons v l => exact fun h' => hl' (Option.some.inj h' ▸ List.mem_cons_self)
      rw [List.cons_append, List.cons_append, unfoldFrom, collapseFrom]
      split
      · next hb =>
          rw [if_pos hb.2, if_pos (hskip hb.1), hskip hb.1]
          exact ih hl' true true fun _ => rfl
      · rw [if_neg fun h' => hnext h'.2.1, if_neg fun h' => hu h'.1, collapseFrom]
        have hfalse : ∀ {p : Prop}, false = true → p := fun h => absurd h Bool.false_ne_true
        rw [ih hl' true false hfalse, ih hl' false false hfalse]

/-- A folded value, unfolded, has the blanks of its lines one after another. -/
theorem collapse_unfold : ∀ {ls : List Text}, AreFolded ls → ∀ a skip,
    (skip = true → a = true) →
      collapseFrom a (unfoldFrom skip (wireText ls)) = collapseFrom a ls.flatten
  | [], h => absurd rfl h.1.1
  | [l], h => by
      have hnil : ∀ a skip, (skip = true → a = true) →
          collapseFrom a (unfoldFrom skip []) = collapseFrom a [] := fun _ _ _ => rfl
      have hl := collapse_unfold_line (h.1.2 l List.mem_cons_self) (by decide) hnil
      rw [List.append_nil] at hl
      rwa [wireText_singleton, List.flatten_singleton]
  | l :: m :: ls, h => by
      obtain ⟨hl, hls⟩ := areLines_cons h.1
      obtain ⟨hm, hrest⟩ := List.forall_mem_cons.mp h.2
      rw [wireText_cons l hls.1, List.flatten_cons]
      refine collapse_unfold_line hl (fun h => absurd (Option.some.inj h) (by decide)) ?_
      intro a skip _
      have ih := @collapse_unfold (m :: ls) ⟨hls, hrest⟩ true true fun _ => rfl
      obtain ⟨b, m, rfl⟩ : ∃ b m', m = b :: m' := by
        cases m with
        | nil => cases hm
        | cons b m => exact ⟨b, m, rfl⟩
      have hb : isBlank b = true := hm
      have hbegin : beginsBlank (wireText ((b :: m) :: ls)) = true := by
        cases ls with
        | nil => rw [wireText_singleton]; exact hb
        | cons k ls => rw [wireText_cons _ (List.cons_ne_nil _ _)]; exact hb
      have hcr : ¬(skip = true ∧ isBlank cr = true) := fun h => absurd h.2 (by decide)
      rw [unfoldFrom, if_neg hcr, if_pos ⟨rfl, rfl, hbegin⟩, unfoldFrom,
        if_neg fun h => absurd h.1 Bool.false_ne_true, if_neg fun h => absurd h.1 (by decide),
        if_pos ⟨rfl, hbegin⟩, collapseFrom, if_pos (by decide), ih]
      rw [List.flatten_cons, List.cons_append, collapseFrom, collapseFrom, if_pos hb, if_pos hb,
        if_pos rfl]

/-- Blanks at the two ends of reduced text are one space each. -/
theorem dropWhile_reduced {s : Text} (h : Reduced s) :
    s.dropWhile isBlank = if s.head? = some sp then s.tail else s := by
  cases s with
  | nil => rfl
  | cons u s =>
      cases hu : isBlank u with
      | false =>
          rw [List.dropWhile_cons_of_neg (by rw [hu]; exact Bool.false_ne_true), if_neg]
          exact fun h' => ne_sp_of_not hu (Option.some.inj h')
      | true =>
          have husp : u = sp := by
            rw [isBlank, Bool.or_eq_true, beq_iff_eq, beq_iff_eq] at hu
            exact hu.resolve_right fun h' => h.2 (h' ▸ List.mem_cons_self)
          rw [List.dropWhile_cons_of_pos hu, husp, List.head?_cons, if_pos rfl, List.tail_cons]
          cases s with
          | nil => rfl
          | cons v s =>
              refine List.dropWhile_cons_of_neg fun hv => ?_
              rw [isBlank, Bool.or_eq_true, beq_iff_eq, beq_iff_eq] at hv
              rcases hv with rfl | rfl
              · exact (List.isChain_cons_cons.mp h.1).1 ⟨husp, rfl⟩
              · exact h.2 (List.mem_cons_of_mem _ List.mem_cons_self)

theorem reduced_reverse {s : Text} (h : Reduced s) : Reduced s.reverse := by
  refine ⟨List.isChain_reverse.mpr (h.1.imp fun a b hab hba => hab hba.symm), fun ht => ?_⟩
  exact h.2 (List.mem_reverse.mp ht)

theorem stripEnd_reduced {s : Text} (h : Reduced s) :
    stripEnd s = if s.getLast? = some sp then s.dropLast else s := by
  rw [stripEnd, List.rdropWhile, dropWhile_reduced (reduced_reverse h), List.head?_reverse]
  split
  · rw [List.tail_reverse, List.reverse_reverse]
  · rw [List.reverse_reverse]

theorem trimOne_reduced {s : Text} (h : Reduced s) :
    trimOne s = stripEnd (s.dropWhile isBlank) := by
  have hsuf : Reduced (s.dropWhile isBlank) := h.ending (List.dropWhile_suffix _)
  rw [stripEnd_reduced hsuf, dropWhile_reduced h, trimOne]

/-- What is left of a value in the relaxed form. -/
def relaxedValue (value : List Text) : Text :=
  stripEnd ((reduceBlanks value.flatten).dropWhile isBlank)

theorem canonHeaderRelaxed_eq (name : Text) (h : AreFolded ls) :
    canonHeaderRelaxed name (wireText ls) =
      lower name ++ [colon] ++ relaxedValue ls ++ crlf := by
  have hvalue : collapse (unfoldHeaderContinuations (wireText ls)) = reduceBlanks ls.flatten :=
    (collapse_unfold h false false id).trans (collapse_eq _)
  rw [canonHeaderRelaxed, hvalue, trimOne_reduced (reduced_reduceBlanks _)]
  rfl

theorem lowerUnit_spaced {u : UInt8} (h : lowerUnit (spaced u) = lowerUnit u) : spaced u = u := by
  unfold spaced at h ⊢
  split at h
  · next hb =>
      rw [if_pos hb]
      rw [isBlank, Bool.or_eq_true, beq_iff_eq, beq_iff_eq] at hb
      rcases hb with rfl | rfl
      · rfl
      · exact absurd h (by decide)
  · next hb => rw [if_neg hb]

/-- Reducing a name shows in its small letters, too. -/
theorem lower_reduced_iff (name : Text) :
    lower name = lower (stripEnd (reduceBlanks name)) ↔ stripEnd (reduceBlanks name) = name := by
  refine ⟨fun h => ?_, fun h => by rw [h]⟩
  have hsub : (stripEnd (reduceBlanks name)).Sublist (name.map spaced) :=
    (stripEnd_begins _).sublist.trans (List.destutter_sublist Apart _)
  have hlen : (stripEnd (reduceBlanks name)).length = (name.map spaced).length := by
    have := congrArg List.length h
    rw [lower, lower, List.length_map, List.length_map] at this
    rw [List.length_map, this]
  have heq := hsub.eq_of_length hlen
  rw [heq] at h ⊢
  rw [lower, lower, List.map_map] at h
  refine (List.map_congr_left fun u hu => ?_).trans (List.map_id name)
  exact lowerUnit_spaced (List.map_inj_left.mp h u hu).symm

theorem canonHeaderRelaxed_iff (name : Text) (h : AreFolded ls) :
    canonHeaderRelaxed name (wireText ls) = relaxedField name ls ↔
      stripEnd (reduceBlanks name) = name := by
  rw [canonHeaderRelaxed_eq name h, relaxedField, ← relaxedValue, List.append_cancel_right_eq,
    List.append_cancel_right_eq, List.append_cancel_right_eq, lower_reduced_iff]

/-! ## Fields as they are read -/

/-- What the parser reads as one field. -/
structure IsField (name : Text) (value : List Text) : Prop where
  folded : AreFolded value
  noColon : colon ∉ name
  noEnd : lf ∉ name
  begins : beginsBlank name = false

theorem wireText_concat (l : Text) : ∀ {ks : List Text}, ks ≠ [] →
    wireText (ks ++ [l]) = wireText ks ++ crlf ++ l
  | [], h => absurd rfl h
  | [k], _ => by
      rw [List.singleton_append, wireText_cons k (List.cons_ne_nil _ _), wireText_singleton,
        wireText_singleton, crlf]
      simp
  | k :: m :: ks, _ => by
      rw [List.cons_append, wireText_cons k (by simp),
        wireText_concat l (List.cons_ne_nil m ks), wireText_cons k (by simp)]
      simp

/-- A field that is read keeps to that form. -/
def Reads (h : Header) : Prop := ∃ value, IsField h.name value ∧ h.value = wireText value

theorem reads_parseLine {out : List Header} {line : Text} (hline : lf ∉ line)
    (hout : ∀ h ∈ out, Reads h) : ∀ h ∈ parseLine out line, Reads h := by
  unfold parseLine
  split
  · exact hout
  · split
    · next hb =>
        cases out with
        | nil => exact hout
        | cons h earlier =>
            obtain ⟨⟨value, hfield, hvalue⟩, hrest⟩ := List.forall_mem_cons.mp hout
            refine List.forall_mem_cons.mpr ⟨⟨value ++ [line], ⟨⟨⟨by simp, ?_⟩, ?_⟩,
              hfield.noColon, hfield.noEnd, hfield.begins⟩, ?_⟩, hrest⟩
            · intro l hl
              rcases List.mem_append.mp hl with hl | hl
              · exact hfield.folded.1.2 l hl
              · rwa [List.mem_singleton.mp hl]
            · rw [List.tail_append_of_ne_nil hfield.folded.1.1]
              intro l hl
              rcases List.mem_append.mp hl with hl | hl
              · exact hfield.folded.2 l hl
              · rwa [List.mem_singleton.mp hl]
            · change h.value ++ crlf ++ line = _
              rw [wireText_concat line hfield.folded.1.1, hvalue]
    · next hb =>
        split
        · next hcolon =>
            refine List.forall_mem_cons.mpr ⟨⟨[(line.dropWhile (· != colon)).tail],
              ⟨⟨⟨List.cons_ne_nil _ _, ?_⟩, by simp⟩, ?_, ?_, ?_⟩, (wireText_singleton _).symm⟩,
              hout⟩
            · intro l hl
              rw [List.mem_singleton.mp hl]
              exact fun h => hline ((List.dropWhile_suffix _).subset (List.mem_of_mem_tail h))
            · intro h
              exact absurd (List.mem_takeWhile_imp h) (by decide)
            · exact fun h => hline ((List.takeWhile_prefix _).subset h)
            · cases line with
              | nil => rfl
              | cons u line =>
                  change beginsBlank ((u :: line).takeWhile (· != colon)) = false
                  rw [List.takeWhile_cons]
                  split
                  · exact Bool.eq_false_iff.mpr hb
                  · rfl
        · exact hout

theorem reads_foldl {lines : List Text} (hlines : ∀ l ∈ lines, lf ∉ l) :
    ∀ {out : List Header}, (∀ h ∈ out, Reads h) → ∀ h ∈ lines.foldl parseLine out, Reads h := by
  induction lines with
  | nil => exact fun hout => hout
  | cons l lines ih =>
      obtain ⟨hl, hrest⟩ := List.forall_mem_cons.mp hlines
      exact fun hout => ih hrest (reads_parseLine hl hout)

theorem reads_parseHeaders {lines : List Text} (h : AreLines lines) :
    ∀ f ∈ parseHeaders (wireText lines), Reads f := by
  intro f hf
  rw [parseHeaders, splitCrlf_wireText h] at hf
  exact reads_foldl h.2 (fun _ h => absurd h List.not_mem_nil) f (List.mem_reverse.mp hf)

/-- A written field is read as it is. -/
theorem parseHeaders_field {name : Text} {value : List Text} (h : IsField name value) :
    parseHeaders (name ++ [colon] ++ wireText value ++ crlf) = [⟨name, wireText value⟩] := by
  have hcont : ∀ (rest : List Text), (∀ l ∈ rest, beginsBlank l = true) →
      ∀ (ks : List Text), ks ≠ [] →
        rest.foldl parseLine [⟨name, wireText ks⟩] = [⟨name, wireText (ks ++ rest)⟩] := by
    intro rest hrest
    induction rest with
    | nil =>
        intro ks _
        rw [List.append_nil]
        rfl
    | cons l rest ih =>
        intro ks hks
        obtain ⟨hl, htail⟩ := List.forall_mem_cons.mp hrest
        have hne : l ≠ [] := by
          rintro rfl
          cases hl
        have hstep : parseLine [⟨name, wireText ks⟩] l = [⟨name, wireText (ks ++ [l])⟩] := by
          rw [parseLine, if_neg hne, if_pos hl, wireText_concat l hks]
        rw [List.foldl_cons, hstep, ih htail _ (by simp), List.append_assoc]
        rfl
  cases value with
  | nil => exact absurd rfl h.folded.1.1
  | cons l rest =>
      have hlines : AreLines ((name ++ [colon] ++ l) :: rest ++ [[]]) := by
        refine areLines_ended ?_
        obtain ⟨hl, hrest⟩ := List.forall_mem_cons.mp h.folded.1.2
        refine List.forall_mem_cons.mpr ⟨?_, hrest⟩
        rw [List.mem_append, List.mem_append, not_or, not_or]
        exact ⟨⟨h.noEnd, by decide⟩, hl⟩
      have htext : name ++ [colon] ++ wireText (l :: rest) ++ crlf =
          wireText ((name ++ [colon] ++ l) :: rest ++ [[]]) := by
        rw [wireText_concat [] (List.cons_ne_nil _ _), List.append_nil]
        cases rest with
        | nil => rw [wireText_singleton, wireText_singleton]
        | cons m rest =>
            rw [wireText_cons _ (List.cons_ne_nil _ _), wireText_cons _ (List.cons_ne_nil _ _)]
            simp
      have hfirst : parseLine [] (name ++ [colon] ++ l) = [⟨name, wireText [l]⟩] := by
        have hne : name ++ [colon] ++ l ≠ [] := by simp
        have hb : ¬beginsBlank (name ++ [colon] ++ l) = true := by
          cases hname : name with
          | nil => exact fun h' => Bool.false_ne_true h'
          | cons u name' =>
              have := h.begins
              rw [hname] at this
              exact Bool.eq_false_iff.mp this
        have hall : ∀ u ∈ name, (u != colon) = true := fun u hu =>
          bne_iff_ne.mpr fun h' => h.noColon (h' ▸ hu)
        rw [wireText_singleton, parseLine, if_neg hne, if_neg hb, if_pos (by simp),
          List.append_assoc, List.takeWhile_append_of_pos hall, List.dropWhile_append_of_pos hall]
        simp
      rw [parseHeaders, htext, splitCrlf_wireText hlines, List.cons_append, List.foldl_cons, hfirst,
        List.foldl_append, hcont rest h.folded.2 [l] (List.cons_ne_nil _ _)]
      rfl

theorem lowerUnit_facts (u : UInt8) : lowerUnit (lowerUnit u) = lowerUnit u ∧
    (lowerUnit u = colon → u = colon) ∧ (lowerUnit u = lf → u = lf) ∧
    isBlank (lowerUnit u) = isBlank u := by
  have hall : ∀ n : Fin 256, lowerUnit (lowerUnit (UInt8.ofNat n)) = lowerUnit (UInt8.ofNat n) ∧
      (lowerUnit (UInt8.ofNat n) = colon → UInt8.ofNat n = colon) ∧
      (lowerUnit (UInt8.ofNat n) = lf → UInt8.ofNat n = lf) ∧
      isBlank (lowerUnit (UInt8.ofNat n)) = isBlank (UInt8.ofNat n) := by decide +kernel
  have := hall ⟨u.toNat, u.toNat_lt⟩
  rwa [UInt8.ofNat_toNat] at this

theorem lower_idem (s : Text) : lower (lower s) = lower s := by
  rw [lower, lower, List.map_map]
  exact List.map_congr_left fun u _ => (lowerUnit_facts u).1

theorem relaxedValue_idem (value : List Text) :
    relaxedValue [relaxedValue value] = relaxedValue value := by
  have hred : Reduced (relaxedValue value) :=
    ((reduced_reduceBlanks value.flatten).ending (List.dropWhile_suffix _)).beginning
      (stripEnd_begins _)
  have hstrip : stripEnd (relaxedValue value) = relaxedValue value :=
    List.rdropWhile_idempotent _ _
  have hdrop : (relaxedValue value).dropWhile isBlank = relaxedValue value := by
    obtain ⟨t, ht⟩ := stripEnd_begins ((reduceBlanks value.flatten).dropWhile isBlank)
    rw [← relaxedValue] at ht
    cases hv : relaxedValue value with
    | nil => rfl
    | cons u v =>
        rw [hv] at ht
        refine List.dropWhile_cons_of_neg fun hu => ?_
        have hhead := List.head?_dropWhile_not isBlank (reduceBlanks value.flatten)
        rw [← ht, List.cons_append, List.head?_cons] at hhead
        exact Bool.false_ne_true (hhead.symm.trans hu)
  rw [relaxedValue, List.flatten_singleton, reduceBlanks_of_reduced hred, hdrop, hstrip]

theorem isField_relaxed {name : Text} {value : List Text} (h : IsField name value) :
    IsField (lower name) [relaxedValue value] := by
  refine ⟨⟨⟨List.cons_ne_nil _ _, fun l hl => ?_⟩, by simp⟩, ?_, ?_, ?_⟩
  · rw [List.mem_singleton.mp hl]
    intro hmem
    have hred := (List.dropWhile_suffix _).subset ((stripEnd_begins _).subset hmem)
    refine lf_notMem_reduceBlanks (fun hflat => ?_) hred
    obtain ⟨k, hk, hmem⟩ := List.mem_flatten.mp hflat
    exact h.folded.1.2 k hk hmem
  · intro hmem
    obtain ⟨u, hu, heq⟩ := List.mem_map.mp hmem
    exact h.noColon ((lowerUnit_facts u).2.1 heq ▸ hu)
  · intro hmem
    obtain ⟨u, hu, heq⟩ := List.mem_map.mp hmem
    exact h.noEnd ((lowerUnit_facts u).2.2.1 heq ▸ hu)
  · cases name with
    | nil => rfl
    | cons u name => exact (lowerUnit_facts u).2.2.2.trans h.begins

/-- The relaxed form of a field is a field, and its own relaxed form. -/
theorem canonHeaderRelaxed_idem {h : Header} (hr : Reads h) :
    ∃ h', parseHeaders (canonHeaderRelaxed h.name h.value) = [h'] ∧
      canonHeaderRelaxed h'.name h'.value = canonHeaderRelaxed h.name h.value := by
  obtain ⟨value, hfield, hvalue⟩ := hr
  have hagain := isField_relaxed hfield
  refine ⟨⟨lower h.name, wireText [relaxedValue value]⟩, ?_, ?_⟩
  · have hread := parseHeaders_field hagain
    rw [wireText_singleton] at hread ⊢
    rwa [hvalue, canonHeaderRelaxed_eq h.name hfield.folded]
  · change canonHeaderRelaxed (lower h.name) (wireText [relaxedValue value]) = _
    rw [hvalue, canonHeaderRelaxed_eq _ hagain.folded, canonHeaderRelaxed_eq _ hfield.folded,
      relaxedValue_idem, lower_idem]

theorem canonHeaderSimple_idem {h : Header} (hr : Reads h) :
    parseHeaders (canonHeaderSimple h.name h.value) = [h] := by
  obtain ⟨value, hfield, hvalue⟩ := hr
  rw [canonHeaderSimple, hvalue, parseHeaders_field hfield, ← hvalue]

/-! ## Messages -/

theorem normalizeCrlf_append (x r : Text) :
    normalizeCrlf (x ++ cr :: lf :: r) = normalizeCrlf x ++ cr :: lf :: normalizeCrlf r := by
  induction x with
  | nil => exact normalizeCrlf_line List.not_mem_nil r
  | cons u x ih =>
      have hhead : (u = cr ∧ (x ++ cr :: lf :: r).head? = some lf) ↔
          (u = cr ∧ x.head? = some lf) := by
        cases x with
        | nil => simp [cr, lf]
        | cons v x => rfl
      rw [List.cons_append, normalizeCrlf, normalizeCrlf, ih]
      simp only [hhead]
      split
      · rfl
      · split
        · rfl
        · rfl

theorem length_le_normalizeCrlf : ∀ s : Text, s.length ≤ (normalizeCrlf s).length
  | [] => Nat.le_refl _
  | [u] => by
      rw [normalizeCrlf, if_neg fun h' => absurd h'.2 (by decide)]
      split
      · exact Nat.le_succ 1
      · exact Nat.le_refl 1
  | u :: v :: s => by
      have hs := length_le_normalizeCrlf s
      have hvs := length_le_normalizeCrlf (v :: s)
      rw [normalizeCrlf]
      split
      · next h =>
          obtain rfl := Option.some.inj h.2
          rw [normalizeCrlf, if_neg fun h' => absurd h'.1 (by decide), if_pos rfl]
          simp only [List.length_cons]
          omega
      · split
        · simp only [List.length_cons] at hvs ⊢
          omega
        · simp only [List.length_cons] at hvs ⊢
          omega

theorem normalizeCrlf_idem (s : Text) : normalizeCrlf (normalizeCrlf s) = normalizeCrlf s := by
  obtain ⟨ls, hls, h⟩ := exists_lines s
  rw [h, normalizeCrlf_wireText hls]

theorem normalizeCrlf_parts {x r : Text}
    (h : normalizeCrlf (x ++ cr :: lf :: r) = x ++ cr :: lf :: r) :
    normalizeCrlf x = x ∧ normalizeCrlf r = r := by
  rw [normalizeCrlf_append] at h
  have hx := length_le_normalizeCrlf x
  have hr := length_le_normalizeCrlf r
  have hlen := congrArg List.length h
  simp only [List.length_append, List.length_cons] at hlen
  obtain ⟨h1, h2⟩ := List.append_inj h (by omega)
  exact ⟨h1, List.tail_eq_of_cons_eq (List.tail_eq_of_cons_eq h2)⟩

theorem indexOfSeparator_spec : ∀ {s : Text} {k : Nat}, indexOfSeparator s = some k →
    ∃ pre post, s = pre ++ cr :: lf :: cr :: lf :: post ∧ pre.length = k
  | [], _, h => by cases h
  | u :: s, k, h => by
      rw [indexOfSeparator] at h
      split at h
      · next hpre =>
          obtain rfl := Option.some.inj h
          obtain ⟨post, hpost⟩ := List.isPrefixOf_iff_prefix.mp hpre
          exact ⟨[], post, hpost.symm, rfl⟩
      · obtain ⟨j, hj, rfl⟩ := Option.map_eq_some_iff.mp h
        obtain ⟨pre, post, rfl, rfl⟩ := indexOfSeparator_spec hj
        exact ⟨u :: pre, post, rfl, rfl⟩

/-- The fields and the body of a message have CRLF line ends. -/
theorem splitHeadersBody_normal {rfc822 headers body : Text}
    (h : splitHeadersBody rfc822 = some (headers, body)) :
    normalizeCrlf headers = headers ∧ normalizeCrlf body = body := by
  obtain ⟨k, hk, heq⟩ := Option.map_eq_some_iff.mp h
  obtain ⟨pre, post, htext, hlen⟩ := indexOfSeparator_spec hk
  have hidem := normalizeCrlf_idem rfc822
  rw [htext] at hidem heq
  obtain ⟨hpre, hrest⟩ := normalizeCrlf_parts hidem
  obtain ⟨-, hpost⟩ := normalizeCrlf_parts (x := []) hrest
  obtain ⟨hheaders, hbody⟩ := Prod.mk.inj heq
  have htake : (pre ++ cr :: lf :: cr :: lf :: post).take (k + 2) = pre ++ cr :: lf :: [] := by
    rw [show pre ++ cr :: lf :: cr :: lf :: post = pre ++ [cr, lf] ++ cr :: lf :: post by simp]
    exact List.take_left' (by simp [hlen])
  have hdrop : (pre ++ cr :: lf :: cr :: lf :: post).drop (k + 4) = post := by
    rw [show pre ++ cr :: lf :: cr :: lf :: post = pre ++ [cr, lf, cr, lf] ++ post by simp]
    exact List.drop_left' (by simp [hlen])
  rw [htake] at hheaders
  rw [hdrop] at hbody
  refine ⟨?_, hbody ▸ hpost⟩
  rw [← hheaders, normalizeCrlf_append, hpre]
  rfl

/-! ## The choice of a form -/

theorem bodyHashInput_none (body : Text) (canonBody : Option Text) :
    bodyHashInput body canonBody none =
      if canonBody = some (ascii "simple") then canonBodySimple body
      else canonBodyRelaxed body := by
  rw [bodyHashInput]
  exact List.take_length

theorem forms_differ : canonBodyRelaxed (ascii "a ") ≠ canonBodySimple (ascii "a ") := by
  have hlines : AreLines [ascii "a "] := ⟨by decide, by decide⟩
  rw [canonBodySimple_eq hlines rfl]
  decide

/-- The second half of a tag is there exactly when there is a slash. -/
theorem getElem?_splitOn {c : Text} : (c.splitOn slash)[1]? = none ↔ slash ∉ c := by
  constructor
  · intro h hmem
    obtain ⟨x, y, rfl⟩ := List.append_of_mem hmem
    have hx := List.splitOn_ne_nil slash x
    rw [List.splitOn_append_cons_self] at h
    have hlen := List.getElem?_eq_none_iff.mp h
    rw [List.length_append] at hlen
    have := List.length_pos_iff.mpr hx
    have := List.length_pos_iff.mpr (List.splitOn_ne_nil slash y)
    omega
  · intro h
    rw [List.splitOn_eq_singleton h]
    rfl

theorem bodyHash_iff (c : Option Text) :
    (∀ body, bodyHashInput body (canonicalizationOf c).2 none =
      if bodyAlgorithm c = ascii "simple" then canonBodySimple body
      else canonBodyRelaxed body) ↔ c.getD [] = [] ∨ slash ∈ c.getD [] := by
  by_cases hempty : c.getD [] = []
  · have hcode : (canonicalizationOf c).2 = some (ascii "simple") := by
      rw [canonicalizationOf, if_pos hempty]
      decide
    have hspec : bodyAlgorithm c = ascii "simple" := by
      rw [bodyAlgorithm, hempty]
      decide
    refine ⟨fun _ => Or.inl hempty, fun _ body => ?_⟩
    rw [bodyHashInput_none, hcode, hspec, if_pos rfl, if_pos rfl]
  · have hcode : (canonicalizationOf c).2 = ((c.getD []).splitOn slash)[1]? := by
      rw [canonicalizationOf, if_neg hempty]
    cases hhalf : ((c.getD []).splitOn slash)[1]? with
    | none =>
        refine ⟨fun h => ?_, fun h => ?_⟩
        · have := h (ascii "a ")
          rw [bodyHashInput_none, hcode, bodyAlgorithm, hhalf, if_neg (by simp), Option.getD_none,
            if_pos rfl] at this
          exact absurd this forms_differ
        · exact absurd (h.resolve_left hempty) (getElem?_splitOn.mp hhalf)
    | some half =>
        have hmem : slash ∈ c.getD [] := by
          by_contra h
          rw [getElem?_splitOn.mpr h] at hhalf
          cases hhalf
        refine ⟨fun _ => Or.inr hmem, fun _ body => ?_⟩
        rw [bodyHashInput_none, hcode, bodyAlgorithm, hhalf, Option.getD_some]
        simp only [Option.some.injEq]

/-- The forms the code computes against those of the lines. Every body has lines once its
ends are CRLF, as the bodies and the fields of a message are. The relaxed body is the form
of its lines exactly when one of them has text, the simple body always is; the relaxed field
is the form of its value exactly when its name has no blanks to reduce or to strip; and the
body is hashed in the form that a `c=` tag means exactly when the tag is absent or has a
slash. Every form is its own form. -/
theorem canonical_forms (body name : Text) (value : List Text) (rfc822 : Text) (c : Option Text) :
    (∃ ls, AreLines ls ∧ normalizeCrlf body = wireText ls) ∧
    (∀ ls, AreLines ls → normalizeCrlf body = wireText ls →
      (canonBodyRelaxed body = relaxedBody ls ↔ ∃ l ∈ ls, relaxedLine l ≠ []) ∧
        canonBodySimple body = simpleBody ls) ∧
    (AreFolded value →
      (canonHeaderRelaxed name (wireText value) = relaxedField name value ↔
        stripEnd (reduceBlanks name) = name)) ∧
    (∀ headers content, splitHeadersBody rfc822 = some (headers, content) →
      normalizeCrlf content = content ∧ ∀ h ∈ parseHeaders headers,
        (∃ value, AreFolded value ∧ h.value = wireText value) ∧
        (∃ h', parseHeaders (canonHeaderRelaxed h.name h.value) = [h'] ∧
          canonHeaderRelaxed h'.name h'.value = canonHeaderRelaxed h.name h.value) ∧
        parseHeaders (canonHeaderSimple h.name h.value) = [h]) ∧
    ((∀ content, bodyHashInput content (canonicalizationOf c).2 none =
        if bodyAlgorithm c = ascii "simple" then canonBodySimple content
        else canonBodyRelaxed content) ↔ c.getD [] = [] ∨ slash ∈ c.getD []) ∧
    canonBodyRelaxed (canonBodyRelaxed body) = canonBodyRelaxed body ∧
    canonBodySimple (canonBodySimple body) = canonBodySimple body := by
  refine ⟨exists_lines body, fun ls hls h => ⟨canonBodyRelaxed_iff hls h, canonBodySimple_eq hls h⟩,
    fun h => canonHeaderRelaxed_iff name h, ?_, bodyHash_iff c, canonBodyRelaxed_idem body,
    canonBodySimple_idem body⟩
  intro headers content hsplit
  obtain ⟨hheaders, hbody⟩ := splitHeadersBody_normal hsplit
  refine ⟨hbody, fun h hh => ?_⟩
  obtain ⟨lines, hlines, heq⟩ := exists_lines headers
  rw [hheaders] at heq
  rw [heq] at hh
  have hr := reads_parseHeaders hlines h hh
  obtain ⟨value, hfield, hvalue⟩ := id hr
  exact ⟨⟨value, hfield.folded, hvalue⟩, canonHeaderRelaxed_idem hr, canonHeaderSimple_idem hr⟩

theorem canonical_forms_line : canonBodyRelaxed (ascii "a \r\n") = relaxedBody [ascii "a ", []] ∧
    canonHeaderRelaxed (ascii "To") (ascii " b") = relaxedField (ascii "To") [ascii " b"] := by
  obtain ⟨-, hbody, hfield, -⟩ := canonical_forms (ascii "a \r\n") (ascii "To") [ascii " b"] [] none
  have hlines : AreLines [ascii "a ", []] := ⟨by decide, by decide⟩
  have hfolded : AreFolded [ascii " b"] := ⟨⟨by decide, by decide⟩, by decide⟩
  refine ⟨((hbody _ hlines (by decide)).1).mpr ⟨ascii "a ", by decide, by decide⟩, ?_⟩
  have := (hfield hfolded).mpr (by decide)
  rwa [wireText_singleton] at this

/-- The three places where the code leaves the forms: a body with no text, a name with a blank
before the colon, and a tag that names only the algorithm of the fields. -/
theorem forms_left : canonBodyRelaxed [] ≠ relaxedBody [[]] ∧
    canonHeaderRelaxed (ascii "To ") (ascii " b") ≠ relaxedField (ascii "To ") [ascii " b"] ∧
    bodyAlgorithm (some (ascii "relaxed")) = ascii "simple" ∧
    bodyHashInput (ascii "a ") (canonicalizationOf (some (ascii "relaxed"))).2 none ≠
      canonBodySimple (ascii "a ") := by
  refine ⟨by decide, by decide, by decide, ?_⟩
  rw [bodyHashInput_none]
  exact forms_differ

end Blamejs.Dkim
