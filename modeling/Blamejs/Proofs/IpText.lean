import Blamejs.Ref.SsrfGuard
import Mathlib.Data.List.Forall2
import Mathlib.Data.List.Induction

/-!
# Literals of IPv6 as `_ipv6ToBytes` reads and `_ipv6BytesToString` writes them

`Plain` is the text of groups that are all hexadecimal. Every literal without its zone is
plain, or it becomes so when its IPv4 tail is written as two groups, which is what
`_expandIpv6` does first. On plain texts both readings agree, and the canonical text of eight
groups is plain, whichever run of zeros it leaves out.
-/

namespace Blamejs.SsrfGuard

open Blamejs.Js IpAddress

variable {p q s : JsString} {ps qs : List JsString} {g n : Nat} {gs hs : List Nat} {u : UInt16}

/-! ## Pieces between colons -/

/-- Pieces with a colon between them. -/
abbrev joined (ps : List JsString) : JsString := [colon].intercalate ps

theorem joined_cons (p : JsString) (h : ps ≠ []) : joined (p :: ps) = p ++ colon :: joined ps := by
  rw [joined, List.intercalate_cons_of_ne_nil h, List.append_assoc]
  rfl

theorem joined_single (p : JsString) : joined [p] = p := List.intercalate_singleton

theorem joined_append (hps : ps ≠ []) (hqs : qs ≠ []) :
    joined (ps ++ qs) = joined ps ++ colon :: joined qs := by
  induction ps with
  | nil => exact absurd rfl hps
  | cons p ps ih =>
      cases ps with
      | nil =>
          rw [List.singleton_append, joined_cons p hqs, joined, joined, List.intercalate_singleton]
      | cons p' ps =>
          rw [List.cons_append, joined_cons p (by simp), ih (by simp), joined_cons p (by simp),
            List.append_assoc]
          rfl

/-- Not empty, and without a colon. -/
def Piece (p : JsString) : Prop := p ≠ [] ∧ colon ∉ p

theorem head_joined (hps : ∀ p ∈ ps, Piece p) : (joined ps).head? ≠ some colon := by
  cases ps with
  | nil => simp [joined]
  | cons p ps =>
      obtain ⟨hne, hcolon⟩ := hps p List.mem_cons_self
      obtain ⟨u, t, rfl⟩ := List.exists_cons_of_ne_nil hne
      have hu : u ≠ colon := fun heq => hcolon (heq ▸ List.mem_cons_self)
      cases ps with
      | nil => simpa [joined] using hu
      | cons q ps =>
          rw [joined_cons _ (List.cons_ne_nil q ps)]
          simpa using hu

theorem joined_ne_nil (hps : ∀ p ∈ ps, Piece p) (h : ps ≠ []) : joined ps ≠ [] := by
  cases ps with
  | nil => exact absurd rfl h
  | cons p ps =>
      have hp := (hps p List.mem_cons_self).1
      cases ps with
      | nil => simpa [joined] using hp
      | cons q ps =>
          rw [joined_cons _ (List.cons_ne_nil q ps)]
          simp

theorem pieces_joined (hps : ∀ p ∈ ps, Piece p) : pieces (joined ps) = ps := by
  cases ps with
  | nil => rfl
  | cons p ps =>
      rw [pieces, if_neg (joined_ne_nil hps (List.cons_ne_nil p ps))]
      exact List.splitOn_intercalate colon (fun q hq => (hps q hq).2) (List.cons_ne_nil p ps)

theorem joined_pieces (s : JsString) : joined (pieces s) = s := by
  rw [pieces]
  split
  · next h =>
      rw [h]
      rfl
  · exact List.intercalate_splitOn colon

/-! ## The first double colon -/

theorem cutDouble_cons (hu : u ≠ colon) (s : JsString) :
    cutDouble (u :: s) = (cutDouble s).map fun (l, r) => (u :: l, r) := by
  cases s with
  | nil => rfl
  | cons v s => rw [cutDouble, if_neg fun h => hu h.1]

theorem cutDouble_colon (h : s.head? ≠ some colon) :
    cutDouble (colon :: s) = (cutDouble s).map fun (l, r) => (colon :: l, r) := by
  cases s with
  | nil => rfl
  | cons v s => rw [cutDouble, if_neg fun heq => h (by rw [heq.2]; rfl)]

theorem cutDouble_double (s : JsString) : cutDouble (colon :: colon :: s) = some ([], s) := by
  rw [cutDouble, if_pos ⟨rfl, rfl⟩]

theorem cutDouble_append (hp : colon ∉ p) (s : JsString) :
    cutDouble (p ++ s) = (cutDouble s).map fun (l, r) => (p ++ l, r) := by
  induction p with
  | nil => simp
  | cons u p ih =>
      have hu : u ≠ colon := fun heq => hp (heq ▸ List.mem_cons_self)
      rw [List.cons_append, cutDouble_cons hu, ih fun h => hp (List.mem_cons_of_mem u h),
        Option.map_map]
      rfl

theorem cutDouble_joined (hps : ∀ p ∈ ps, Piece p) : cutDouble (joined ps) = none := by
  induction ps with
  | nil => rfl
  | cons p ps ih =>
      obtain ⟨hp, hrest⟩ := List.forall_mem_cons.mp hps
      cases ps with
      | nil =>
          have h := cutDouble_append hp.2 []
          rw [List.append_nil] at h
          rw [joined, List.intercalate_singleton, h]
          rfl
      | cons q ps =>
          rw [joined_cons p (List.cons_ne_nil q ps), cutDouble_append hp.2,
            cutDouble_colon (head_joined hrest), ih hrest]
          rfl

theorem cutDouble_joined_double (hps : ∀ p ∈ ps, Piece p) (s : JsString) :
    cutDouble (joined ps ++ colon :: colon :: s) = some (joined ps, s) := by
  induction ps with
  | nil => exact cutDouble_double s
  | cons p ps ih =>
      obtain ⟨hp, hrest⟩ := List.forall_mem_cons.mp hps
      cases ps with
      | nil =>
          rw [joined, List.intercalate_singleton, cutDouble_append hp.2, cutDouble_double]
          simp
      | cons q ps =>
          have hhead : (joined (q :: ps) ++ colon :: colon :: s).head? ≠ some colon := by
            obtain ⟨v, t, hjoined⟩ :=
              List.exists_cons_of_ne_nil (joined_ne_nil hrest (List.cons_ne_nil q ps))
            have hv := head_joined hrest
            rw [hjoined] at hv ⊢
            exact hv
          rw [joined_cons p (List.cons_ne_nil q ps), List.append_assoc, List.cons_append,
            cutDouble_append hp.2, cutDouble_colon hhead, ih hrest]
          rfl

theorem cutDouble_some {l r : JsString} (h : cutDouble s = some (l, r)) :
    s = l ++ colon :: colon :: r := by
  fun_induction cutDouble s generalizing l r with
  | case1 u v s heq =>
      cases h
      rw [heq.1, heq.2]
      rfl
  | case2 u v s _ ih =>
      obtain ⟨⟨l', r'⟩, hcut, heq⟩ := Option.map_eq_some_iff.mp h
      cases heq
      rw [ih hcut]
      rfl
  | case3 => cases h

/-! ## Groups -/

theorem hexGroup_some (h : hexGroup p = some g) :
    p ≠ [] ∧ p.length ≤ 4 ∧ (∀ u ∈ p, digitValue u < 16) ∧ g = hexNumber p := by
  rw [hexGroup] at h
  split at h
  · next hp =>
      cases h
      exact ⟨hp.1, hp.2.1, fun u hu => by simpa using List.all_eq_true.mp hp.2.2 u hu, rfl⟩
  · cases h

/-- Each piece is the text of its group. -/
abbrev Hex (ps : List JsString) (gs : List Nat) : Prop :=
  List.Forall₂ (fun p g => hexGroup p = some g) ps gs

theorem Hex.digits (h : Hex ps gs) : ∀ p ∈ ps, ∀ u ∈ p, digitValue u < 16 := by
  induction h with
  | nil => simp
  | cons hp _ ih => exact List.forall_mem_cons.mpr ⟨(hexGroup_some hp).2.2.1, ih⟩

theorem Hex.piece (h : Hex ps gs) : ∀ p ∈ ps, Piece p := by
  induction h with
  | nil => simp
  | cons hp _ ih =>
      obtain ⟨hne, -, hdigits, -⟩ := hexGroup_some hp
      refine List.forall_mem_cons.mpr ⟨⟨hne, fun hmem => ?_⟩, ih⟩
      exact absurd (hdigits _ hmem) (by decide)

theorem hexGroups_iff : hexGroups ps = some gs ↔ Hex ps gs := by
  induction ps generalizing gs with
  | nil => simp [hexGroups, eq_comm]
  | cons p ps ih =>
      rw [hexGroups, Hex, List.forall₂_cons_left_iff]
      constructor
      · intro h
        obtain ⟨g, hg, h⟩ := Option.bind_eq_some_iff.mp h
        obtain ⟨gs', hgs, h⟩ := Option.bind_eq_some_iff.mp h
        cases h
        exact ⟨g, gs', hg, ih.mp hgs, rfl⟩
      · rintro ⟨g, gs', hg, hgs, rfl⟩
        rw [hg, ih.mpr hgs]
        rfl

theorem readIpv4_of_no_dot (h : dot ∉ s) : readIpv4 s = none := by
  rw [readIpv4, List.splitOn_eq_singleton h]

theorem dot_not_hex (h : ∀ u ∈ p, digitValue u < 16) : dot ∉ p :=
  fun hmem => absurd (h _ hmem) (by decide)

theorem groups_of_hex (h : Hex ps gs) : groups ps = some gs := by
  induction h with
  | nil => rfl
  | @cons p g ps gs hp hps ih =>
      cases ps with
      | nil =>
          cases hps
          have hnone := readIpv4_of_no_dot (dot_not_hex (hexGroup_some hp).2.2.1)
          rw [groups, hnone]
          exact hexGroups_iff.mpr (.cons hp .nil)
      | cons q ps =>
          rw [groups, hp, ih]
          · rfl
          · simp

/-- The last piece may be an IPv4 literal. -/
theorem groups_some (h : groups ps = some gs) :
    Hex ps gs ∨ ∃ qs hs p n, ps = qs ++ [p] ∧ Hex qs hs ∧ readIpv4 p = some n ∧
      gs = hs ++ [n / 65536, n % 65536] := by
  induction ps generalizing gs with
  | nil =>
      cases h
      exact Or.inl .nil
  | cons p ps ih =>
      cases ps with
      | nil =>
          rw [groups] at h
          split at h
          · next n hn =>
              cases h
              exact Or.inr ⟨[], [], p, n, rfl, .nil, hn, rfl⟩
          · exact Or.inl (hexGroups_iff.mp h)
      | cons q ps =>
          rw [groups] at h
          · obtain ⟨g, hg, h⟩ := Option.bind_eq_some_iff.mp h
            obtain ⟨gs', hgs, h⟩ := Option.bind_eq_some_iff.mp h
            cases h
            rcases ih hgs with hhex | ⟨qs, hs, r, n, heq, hhex, hn, rfl⟩
            · exact Or.inl (.cons hg hhex)
            · exact Or.inr ⟨p :: qs, g :: hs, r, n, by rw [heq]; rfl, .cons hg hhex, hn, rfl⟩
          · simp

/-! ## The groups of hexadecimal text -/

theorem hexNumber_append (p : JsString) (u : UInt16) :
    hexNumber (p ++ [u]) = 16 * hexNumber p + digitValue u := by
  rw [hexNumber, List.foldl_append]
  rfl

theorem hexNumber_lt (h : ∀ u ∈ p, digitValue u < 16) : hexNumber p < 16 ^ p.length := by
  induction p using List.reverseRecOn with
  | nil => decide
  | append_singleton p u ih =>
      have hu := h u (by simp)
      have hp := ih fun v hv => h v (by simp [hv])
      rw [hexNumber_append, List.length_append, List.length_singleton, Nat.pow_succ]
      omega

theorem hexGroup_lt (h : hexGroup p = some g) : g < 65536 := by
  obtain ⟨-, hlen, hdigits, rfl⟩ := hexGroup_some h
  have hlt := hexNumber_lt hdigits
  have hle : 16 ^ p.length ≤ 16 ^ 4 := Nat.pow_le_pow_right (by decide) hlen
  omega

theorem Hex.lt (h : Hex ps gs) : ∀ g ∈ gs, g < 65536 := by
  induction h with
  | nil => simp
  | cons hp _ ih => exact List.forall_mem_cons.mpr ⟨hexGroup_lt hp, ih⟩

theorem hexText_eq (h : 16 ≤ n) : hexText n = hexText (n / 16) ++ hexText (n % 16) := by
  have hsplit := @Nat.toDigits_append_toDigits 16 (n / 16) (n % 16) (by decide) (by omega)
    (Nat.mod_lt n (by decide))
  have hn : 16 * (n / 16) + n % 16 = n := Nat.div_add_mod n 16
  rw [hexText, hexText, hexText, ← List.map_append, hsplit, hn]

theorem hexText_digit (h : n < 16) : hexText n = [unit n.digitChar] := by
  rw [hexText, Nat.toDigits_of_lt_base h]
  rfl

/-- A small letter or a digit. -/
def smallDigit (u : UInt16) : Bool :=
  (0x30 ≤ u.toNat && u.toNat ≤ 0x39) || (0x61 ≤ u.toNat && u.toNat ≤ 0x66)

theorem digit_facts : ∀ n < 16, digitValue (unit n.digitChar) = n ∧
    smallDigit (unit n.digitChar) = true := by decide

theorem hexText_facts (n : Nat) :
    hexNumber (hexText n) = n ∧ ∀ u ∈ hexText n, smallDigit u = true := by
  induction n using Nat.strongRecOn with
  | ind n ih =>
      by_cases h : n < 16
      · obtain ⟨hvalue, hsmall⟩ := digit_facts n h
        rw [hexText_digit h]
        exact ⟨by simp [hexNumber, hvalue], by simpa using hsmall⟩
      · obtain ⟨hvalue, hsmall⟩ := ih (n / 16) (by omega)
        obtain ⟨hlast, hdigit⟩ := digit_facts (n % 16) (Nat.mod_lt n (by decide))
        rw [hexText_eq (by omega), hexText_digit (Nat.mod_lt n (by decide))]
        refine ⟨?_, ?_⟩
        · rw [hexNumber_append, hvalue, hlast]
          exact Nat.div_add_mod n 16
        · intro u hu
          rcases List.mem_append.mp hu with hu | hu
          · exact hsmall u hu
          · rw [List.mem_singleton.mp hu]
            exact hdigit

theorem digit_of_small (h : smallDigit u = true) : digitValue u < 16 := by
  simp only [smallDigit, Bool.or_eq_true, Bool.and_eq_true, decide_eq_true_eq] at h
  rw [digitValue]
  split
  · omega
  · split
    · omega
    · omega

theorem hexGroup_hexText (h : n < 65536) : hexGroup (hexText n) = some n := by
  obtain ⟨hvalue, hsmall⟩ := hexText_facts n
  have hne : hexText n ≠ [] := by simp [hexText]
  have hlen : (hexText n).length ≤ 4 := by
    rw [hexText, List.length_map]
    exact (Nat.length_toDigits_le_iff (by decide) (by decide)).mpr (by omega)
  have hall : (hexText n).all (fun u => digitValue u < 16) = true := by
    rw [List.all_eq_true]
    intro u hu
    exact decide_eq_true (digit_of_small (hsmall u hu))
  rw [hexGroup, if_pos ⟨hne, hlen, hall⟩, hvalue]

/-! ## Plain texts -/

/-- The text of eight groups that are all hexadecimal. -/
inductive Plain : JsString → List Nat → Prop where
  | full {ps : List JsString} {gs : List Nat} (hps : Hex ps gs) (hlen : gs.length = 8) :
      Plain (joined ps) gs
  | short {ps qs : List JsString} {gs hs : List Nat} (hps : Hex ps gs) (hqs : Hex qs hs)
      (hlen : gs.length + hs.length ≤ 7) :
      Plain (joined ps ++ colon :: colon :: joined qs)
        (gs ++ List.replicate (8 - gs.length - hs.length) 0 ++ hs)

theorem Plain.length (h : Plain s gs) : gs.length = 8 := by
  cases h with
  | full hps hlen => exact hlen
  | short hps hqs hlen =>
      rw [List.length_append, List.length_append, List.length_replicate]
      omega

theorem Plain.lt (h : Plain s gs) : ∀ g ∈ gs, g < 65536 := by
  cases h with
  | full hps hlen => exact hps.lt
  | short hps hqs hlen =>
      intro g hg
      rcases List.mem_append.mp hg with hg | hg
      · rcases List.mem_append.mp hg with hg | hg
        · exact hps.lt g hg
        · rw [List.eq_of_mem_replicate hg]
          decide
      · exact hqs.lt g hg

theorem readBody_of_plain (h : Plain s gs) : readBody s = some gs := by
  cases h with
  | full hps hlen =>
      rw [readBody, cutDouble_joined hps.piece, pieces_joined hps.piece, groups_of_hex hps]
      simp [hlen]
  | short hps hqs hlen =>
      rw [readBody, cutDouble_joined_double hps.piece]
      show (do
        let gl ← hexGroups (pieces (joined _))
        let gr ← groups (pieces (joined _))
        if gl.length + gr.length ≤ 7 then
          some (gl ++ List.replicate (8 - gl.length - gr.length) 0 ++ gr)
        else none) = _
      rw [pieces_joined hps.piece, pieces_joined hqs.piece, hexGroups_iff.mpr hps,
        groups_of_hex hqs]
      exact if_pos hlen

/-- The IPv4 tail of a literal as two groups. -/
abbrev tailText (n : Nat) : JsString := hexText (n / 65536) ++ colon :: hexText (n % 65536)

theorem octet_some (h : octet p = some g) :
    g ≤ 255 ∧ natText g = p ∧ digitsValue p = g := by
  rw [octet] at h
  split at h
  · next hp =>
      cases h
      exact ⟨hp.1, hp.2, rfl⟩
  · cases h

theorem readIpv4_some (h : readIpv4 s = some n) : ∃ a b c d, a ≤ 255 ∧ b ≤ 255 ∧ c ≤ 255 ∧
    d ≤ 255 ∧ n = a * 2 ^ 24 + b * 2 ^ 16 + c * 2 ^ 8 + d ∧ s = dotted a b c d := by
  rw [readIpv4] at h
  split at h
  · next a b c d hsplit =>
      obtain ⟨a', ha, h⟩ := Option.bind_eq_some_iff.mp h
      obtain ⟨b', hb, h⟩ := Option.bind_eq_some_iff.mp h
      obtain ⟨c', hc, h⟩ := Option.bind_eq_some_iff.mp h
      obtain ⟨d', hd, h⟩ := Option.bind_eq_some_iff.mp h
      cases h
      obtain ⟨hale, rfl, -⟩ := octet_some ha
      obtain ⟨hble, rfl, -⟩ := octet_some hb
      obtain ⟨hcle, rfl, -⟩ := octet_some hc
      obtain ⟨hdle, rfl, -⟩ := octet_some hd
      refine ⟨a', b', c', d', hale, hble, hcle, hdle, rfl, ?_⟩
      have hback := @List.intercalate_splitOn _ s _ _ dot
      rw [hsplit] at hback
      rw [← hback, dotted]
      simp [List.intercalate_cons_of_ne_nil]
  · cases h

theorem hex_tail (hn : n < 2 ^ 32) : Hex [hexText (n / 65536), hexText (n % 65536)]
    [n / 65536, n % 65536] :=
  .cons (hexGroup_hexText (by omega)) (.cons (hexGroup_hexText (Nat.mod_lt n (by decide))) .nil)

theorem plain_of_readBody (h : readBody s = some gs) : Plain s gs ∨
    ∃ front p n, s = front ++ colon :: p ∧ readIpv4 p = some n ∧
      Plain (front ++ colon :: tailText n) gs := by
  rw [readBody] at h
  split at h
  · next hcut =>
      obtain ⟨hgroups, hlen⟩ := Option.filter_eq_some_iff.mp h
      have hlen : gs.length = 8 := by simpa using hlen
      have hs := joined_pieces s
      rcases groups_some hgroups with hhex | ⟨qs, hs', p, n, hqs, hhex, hn, rfl⟩
      · left
        rw [← hs]
        exact .full hhex hlen
      · right
        obtain ⟨a, b, c, d, ha, hb, hc, hd, heq, -⟩ := readIpv4_some hn
        have hqne : qs ≠ [] := by
          rintro rfl
          cases hhex
          simp at hlen
        refine ⟨joined qs, p, n, ?_, hn, ?_⟩
        · rw [← hs, hqs, joined_append hqne (List.cons_ne_nil p []), joined, joined,
            List.intercalate_singleton]
        · have hjoin : joined qs ++ colon :: tailText n =
              joined (qs ++ [hexText (n / 65536), hexText (n % 65536)]) := by
            rw [joined_append hqne (by simp), joined_cons _ (by simp), joined_single]
          rw [hjoin]
          exact .full (List.rel_append hhex (hex_tail (by omega))) hlen
  · next l r hcut =>
      obtain ⟨gl, hgl, h⟩ := Option.bind_eq_some_iff.mp h
      obtain ⟨gr, hgr, h⟩ := Option.bind_eq_some_iff.mp h
      split at h
      · next hlen =>
          cases h
          have hl := joined_pieces l
          have hr := joined_pieces r
          have hs := cutDouble_some hcut
          have hleft := hexGroups_iff.mp hgl
          rcases groups_some hgr with hhex | ⟨qs, hs', p, n, hqs, hhex, hn, rfl⟩
          · left
            rw [hs, ← hl, ← hr]
            exact .short hleft hhex hlen
          · right
            obtain ⟨a, b, c, d, ha, hb, hc, hd, heq, -⟩ := readIpv4_some hn
            have htail : Hex (qs ++ [hexText (n / 65536), hexText (n % 65536)])
                (hs' ++ [n / 65536, n % 65536]) := List.rel_append hhex (hex_tail (by omega))
            have hplain := Plain.short hleft htail hlen
            rw [hl] at hplain
            by_cases hqne : qs = []
            · subst hqne
              refine ⟨l ++ [colon], p, n, ?_, hn, ?_⟩
              · rw [hs, ← hr, hqs]
                simp [joined]
              · rw [List.nil_append, joined_cons _ (by simp), joined_single] at hplain
                rw [List.append_assoc]
                exact hplain
            · refine ⟨l ++ colon :: colon :: joined qs, p, n, ?_, hn, ?_⟩
              · rw [hs, ← hr, hqs, joined_append hqne (List.cons_ne_nil p [])]
                simp [joined]
              · rw [joined_append hqne (by simp), joined_cons _ (by simp), joined_single] at hplain
                rw [List.append_assoc]
                exact hplain
      · cases h

/-! ## What is in a plain text -/

theorem mem_intercalate {sep : UInt16} (h : u ∈ [sep].intercalate ps) :
    u = sep ∨ ∃ p ∈ ps, u ∈ p := by
  induction ps with
  | nil => cases h
  | cons p ps ih =>
      cases ps with
      | nil =>
          rw [List.intercalate_singleton] at h
          exact Or.inr ⟨p, List.mem_cons_self, h⟩
      | cons q ps =>
          rw [List.intercalate_cons_of_ne_nil (List.cons_ne_nil q ps)] at h
          rcases List.mem_append.mp h with h | h
          · rcases List.mem_append.mp h with h | h
            · exact Or.inr ⟨p, List.mem_cons_self, h⟩
            · exact Or.inl (List.mem_singleton.mp h)
          · exact (ih h).imp_right fun ⟨r, hr, hu⟩ => ⟨r, List.mem_cons_of_mem p hr, hu⟩

theorem mem_joined (h : u ∈ joined ps) : u = colon ∨ ∃ p ∈ ps, u ∈ p := mem_intercalate h

theorem Hex.mem (h : Hex ps gs) (hu : u ∈ joined ps) : u = colon ∨ digitValue u < 16 := by
  rcases mem_joined hu with hu | ⟨p, hp, hu⟩
  · exact Or.inl hu
  · exact Or.inr (h.digits p hp u hu)

theorem Plain.mem (h : Plain s gs) (hu : u ∈ s) : u = colon ∨ digitValue u < 16 := by
  cases h with
  | full hps hlen => exact hps.mem hu
  | short hps hqs hlen =>
      rcases List.mem_append.mp hu with hu | hu
      · exact hps.mem hu
      · rcases List.mem_cons.mp hu with hu | hu
        · exact Or.inl hu
        · rcases List.mem_cons.mp hu with hu | hu
          · exact Or.inl hu
          · exact hqs.mem hu

theorem ascii_of_digit (h : digitValue u < 36) : u.toNat < 0x80 := by
  rw [digitValue] at h
  split at h
  · omega
  · split at h
    · omega
    · split at h
      · omega
      · omega

theorem Plain.ascii (h : Plain s gs) (hu : u ∈ s) : u.toNat < 0x80 := by
  rcases h.mem hu with rfl | hdigit
  · decide
  · exact ascii_of_digit (by omega)

theorem Plain.dot_not_mem (h : Plain s gs) : dot ∉ s := by
  intro hu
  rcases h.mem hu with heq | hdigit
  · exact absurd heq (by decide)
  · exact absurd hdigit (by decide)

theorem Plain.percent_not_mem (h : Plain s gs) : percent ∉ s := by
  intro hu
  rcases h.mem hu with heq | hdigit
  · exact absurd heq (by decide)
  · exact absurd hdigit (by decide)

/-! ## Lower case -/

theorem digitValue_smallUnit (u : UInt16) : digitValue (smallUnit u) = digitValue u := by
  rw [smallUnit]
  split
  · next h =>
      have hto : (UInt16.ofNat (u.toNat + 0x20)).toNat = u.toNat + 0x20 := by
        rw [UInt16.toNat_ofNat', Nat.mod_eq_of_lt (by omega)]
      rw [digitValue, digitValue, hto]
      repeat' split
      all_goals omega
  · rfl

theorem smallUnit_small (h : smallDigit u = true) : smallUnit u = u := by
  simp only [smallDigit, Bool.or_eq_true, Bool.and_eq_true, decide_eq_true_eq] at h
  rw [smallUnit, if_neg (by omega)]

theorem hexNumber_small (p : JsString) : hexNumber (p.map smallUnit) = hexNumber p := by
  rw [hexNumber, hexNumber, List.foldl_map]
  simp only [digitValue_smallUnit]

theorem hexGroup_small (p : JsString) : hexGroup (p.map smallUnit) = hexGroup p := by
  rw [hexGroup, hexGroup, hexNumber_small]
  simp only [List.length_map, List.all_map, Function.comp_def, digitValue_smallUnit, ne_eq,
    List.map_eq_nil_iff]

theorem joined_small (ps : List JsString) :
    (joined ps).map smallUnit = joined (ps.map (List.map smallUnit)) := by
  induction ps with
  | nil => rfl
  | cons p ps ih =>
      cases ps with
      | nil => rw [joined_single, List.map_singleton, joined_single]
      | cons q ps =>
          have hcolon : smallUnit colon = colon := by decide
          rw [joined_cons p (List.cons_ne_nil q ps), List.map_append, List.map_cons, ih, hcolon]
          exact (joined_cons (p.map smallUnit) (List.cons_ne_nil _ _)).symm

theorem Hex.small (h : Hex ps gs) : Hex (ps.map (List.map smallUnit)) gs := by
  induction h with
  | nil => exact .nil
  | cons hp _ ih => exact .cons ((hexGroup_small _).trans hp) ih

theorem Plain.small (h : Plain s gs) : Plain (s.map smallUnit) gs := by
  cases h with
  | full hps hlen =>
      rw [joined_small]
      exact .full hps.small hlen
  | short hps hqs hlen =>
      rw [List.map_append, joined_small, List.map_cons, List.map_cons, joined_small]
      exact .short hps.small hqs.small hlen

theorem tailText_small (n : Nat) : (tailText n).map smallUnit = tailText n := by
  have h : ∀ m, (hexText m).map smallUnit = hexText m := fun m =>
    (List.map_congr_left fun u hu => smallUnit_small ((hexText_facts m).2 u hu)).trans
      (List.map_id' _)
  rw [tailText, List.map_append, List.map_cons, h, h]
  rfl

/-! ## IPv4 literals -/

theorem natText_digits {m : Nat} : ∀ u ∈ natText m, 48 ≤ u.toNat ∧ u.toNat ≤ 57 := by
  intro u hu
  have := isDigitUnit_of_mem_natText hu
  simpa [isDigitUnit] using this

theorem dot_not_mem_natText (m : Nat) : dot ∉ natText m :=
  fun h => absurd (natText_digits _ h) (by decide)

theorem splitOn_dotted (a b c d : Nat) :
    (dotted a b c d).splitOn dot = [natText a, natText b, natText c, natText d] := by
  rw [dotted]
  simp only [List.append_assoc, List.cons_append, List.nil_append]
  rw [List.splitOn_append_cons_self_of_not_mem (dot_not_mem_natText a),
    List.splitOn_append_cons_self_of_not_mem (dot_not_mem_natText b),
    List.splitOn_append_cons_self_of_not_mem (dot_not_mem_natText c),
    List.splitOn_eq_singleton (dot_not_mem_natText d)]

theorem octet_natText {m : Nat} (h : m ≤ 255) : octet (natText m) = some m := by
  rw [octet, digitsValue_natText, if_pos ⟨h, rfl⟩]

theorem readIpv4_dotted {a b c d : Nat} (ha : a ≤ 255) (hb : b ≤ 255) (hc : c ≤ 255)
    (hd : d ≤ 255) :
    readIpv4 (dotted a b c d) = some (a * 2 ^ 24 + b * 2 ^ 16 + c * 2 ^ 8 + d) := by
  rw [readIpv4, splitOn_dotted]
  simp only [octet_natText ha, octet_natText hb, octet_natText hc, octet_natText hd]
  rfl

theorem ipv4ToInt_dotted {a b c d : Nat} (ha : a ≤ 255) (hb : b ≤ 255) (hc : c ≤ 255)
    (hd : d ≤ 255) :
    ipv4ToInt (dotted a b c d) = some (a * 2 ^ 24 + b * 2 ^ 16 + c * 2 ^ 8 + d) := by
  have hpart : ∀ m ≤ 255, (natText m ≠ [] && (natText m).length ≤ 3 &&
      (natText m).all isDigitUnit && digitsValue (natText m) ≤ 255) = true := by
    intro m hm
    have hlen : (natText m).length ≤ 3 := by
      rw [natText, List.length_map]
      exact (Nat.length_toDigits_le_iff (by decide) (by decide)).mpr (by omega)
    have hall : (natText m).all isDigitUnit = true :=
      List.all_eq_true.mpr fun u hu => isDigitUnit_of_mem_natText hu
    simp [natText_ne_nil, hlen, hall, hm]
  rw [ipv4ToInt, splitOn_dotted]
  dsimp only
  rw [if_pos]
  · simp only [digitsValue_natText]
  · simp only [List.all_cons, List.all_nil, hpart a ha, hpart b hb, hpart c hc, hpart d hd,
      Bool.and_true]

theorem ipv4ToInt_of_read (h : readIpv4 s = some n) : ipv4ToInt s = some n := by
  obtain ⟨a, b, c, d, ha, hb, hc, hd, rfl, rfl⟩ := readIpv4_some h
  exact ipv4ToInt_dotted ha hb hc hd

theorem readIpv4_lt (h : readIpv4 s = some n) : n < 2 ^ 32 := by
  obtain ⟨a, b, c, d, ha, hb, hc, hd, rfl, -⟩ := readIpv4_some h
  omega

theorem mem_dotted {a b c d : Nat} (h : u ∈ dotted a b c d) :
    u = dot ∨ (48 ≤ u.toNat ∧ u.toNat ≤ 57) := by
  simp only [dotted, List.mem_append, List.mem_singleton] at h
  rcases h with (((((h | h) | h) | h) | h) | h) | h
  all_goals first
    | exact Or.inl h
    | exact Or.inr (natText_digits u h)

theorem ipv4_units (h : readIpv4 s = some n) :
    ∀ u ∈ s, u = dot ∨ (48 ≤ u.toNat ∧ u.toNat ≤ 57) := by
  obtain ⟨a, b, c, d, -, -, -, -, -, rfl⟩ := readIpv4_some h
  exact fun u hu => mem_dotted hu

theorem ipv4_dot (h : readIpv4 s = some n) : dot ∈ s := by
  obtain ⟨a, b, c, d, -, -, -, -, -, rfl⟩ := readIpv4_some h
  simp [dotted]

theorem ipv4_colon (h : readIpv4 s = some n) : colon ∉ s := by
  intro hmem
  rcases ipv4_units h _ hmem with heq | hdigit
  · exact absurd heq (by decide)
  · exact absurd hdigit (by decide)

theorem ipv4_small (h : readIpv4 s = some n) : s.map smallUnit = s := by
  refine (List.map_congr_left fun u hu => ?_).trans (List.map_id' s)
  rcases ipv4_units h u hu with rfl | hdigit
  · decide
  · rw [smallUnit, if_neg (by omega)]

/-! ## `_expandIpv6` -/

theorem cutLastColon_append (front : JsString) (hp : colon ∉ p) :
    cutLastColon (front ++ colon :: p) = (front ++ [colon], p) := by
  have htail : ((front ++ colon :: p).reverse.takeWhile (· ≠ colon)).reverse = p := by
    have hall : ∀ u ∈ p.reverse, (decide (u ≠ colon)) = true := by
      intro u hu
      have hne : u ≠ colon := fun heq => hp (heq ▸ List.mem_reverse.mp hu)
      simpa using hne
    rw [List.reverse_append, List.reverse_cons, List.append_assoc,
      List.takeWhile_append_of_pos hall]
    simp
  rw [cutLastColon]
  simp only [htail]
  have hlen : (front ++ colon :: p).length - p.length = (front ++ [colon]).length := by
    simp only [List.length_append, List.length_cons, List.length_nil]
    omega
  have hsplit : front ++ colon :: p = (front ++ [colon]) ++ p := by simp
  rw [hlen, hsplit, List.take_left]

theorem mem_cutLastColon (h : u ∈ (cutLastColon s).2) : u ∈ s := by
  rw [cutLastColon] at h
  have := List.takeWhile_subset _ (List.mem_reverse.mp h)
  exact List.mem_reverse.mp this

theorem expandTail_plain (h : dot ∉ s) : expandTail s = s := by
  rw [expandTail]
  dsimp only
  rw [if_neg fun hdot => h (mem_cutLastColon hdot.2)]

theorem expandTail_dotted {front : JsString} (h : readIpv4 p = some n) :
    expandTail (front ++ colon :: p) = front ++ colon :: tailText n := by
  have hlt := readIpv4_lt h
  have hhigh : n / 2 ^ 16 % 2 ^ 16 = n / 65536 := Nat.mod_eq_of_lt (by omega)
  rw [expandTail, cutLastColon_append front (ipv4_colon h)]
  dsimp only
  rw [if_pos ⟨by simp, ipv4_dot h⟩, ipv4ToInt_of_read h, Option.getD_some, hhigh]
  simp

theorem parseHex_group (h : hexGroup p = some g) : parseHex p = g := by
  obtain ⟨-, -, hdigits, rfl⟩ := hexGroup_some h
  rw [parseHex, List.takeWhile_eq_self_iff.mpr]
  intro u hu
  exact decide_eq_true (hdigits u hu)

theorem Hex.map_parseHex (h : Hex ps gs) : ps.map parseHex = gs := by
  induction h with
  | nil => rfl
  | cons hp _ ih => rw [List.map_cons, ih, parseHex_group hp]

/-- The groups of `_expandIpv6` behind the lower case and the tail. -/
def expandedGroups (lower : JsString) : List JsString :=
  let (left, right) := match cutDouble lower with
    | none => (pieces lower, [])
    | some (l, r) => (pieces l, pieces r)
  left ++ List.replicate (8 - left.length - right.length) (units "0") ++ right

theorem expandedGroups_plain (h : Plain s gs) : (expandedGroups s).map parseHex = gs := by
  cases h with
  | full hps hlen =>
      have hcount := hps.length_eq
      rw [expandedGroups, cutDouble_joined hps.piece]
      dsimp only
      rw [pieces_joined hps.piece, List.append_nil, hcount, hlen]
      simp [hps.map_parseHex]
  | @short ps qs gs hs hps hqs hlen =>
      have hcount := hps.length_eq
      have hcount' := hqs.length_eq
      have hzero : parseHex (units "0") = 0 := by decide
      rw [expandedGroups, cutDouble_joined_double hps.piece]
      dsimp only
      rw [pieces_joined hps.piece, pieces_joined hqs.piece, hcount, hcount', List.map_append,
        List.map_append, List.map_replicate, hzero, hps.map_parseHex, hqs.map_parseHex]

theorem bytes_of_expanded {T : CaseTable} {ip : JsString}
    (h : Plain (expandTail (toLowerCase T (ip.takeWhile (· ≠ percent)))) gs) :
    ipv6ToBytes T ip = bytesOf gs := by
  have hmap := expandedGroups_plain h
  have hlen : (expandIpv6 T ip).length = 8 := by
    rw [← h.length, ← hmap, List.length_map]
    rfl
  have heq : (expandIpv6 T ip).map parseHex = gs := hmap
  rw [ipv6ToBytes, List.take_of_length_le (Nat.le_of_eq hlen), bytesOf, ← heq, List.flatMap_map]
  refine List.flatMap_congr fun p hp => ?_
  have hlt : parseHex p < 65536 := h.lt _ (heq ▸ List.mem_map_of_mem hp)
  rw [Nat.mod_eq_of_lt (by omega)]
  rfl

/-- `_ipv6ToBytes` reads every literal. -/
theorem ipv6ToBytes_of_read {T : CaseTable} (hT : T.Ascii) (h : readIpv6 s = some gs) :
    ipv6ToBytes T s = bytesOf gs := by
  have hbody : readBody (s.takeWhile (· ≠ percent)) = some gs := by
    rw [readIpv6] at h
    split at h
    · next hzone =>
        rw [List.takeWhile_eq_self_iff.mpr]
        · exact h
        · exact List.dropWhile_eq_nil_iff.mp hzone
    · split at h
      · exact h
      · cases h
  refine bytes_of_expanded ?_
  generalize s.takeWhile (· ≠ percent) = body at hbody ⊢
  rcases plain_of_readBody hbody with hplain | ⟨front, p, n, rfl, hp, hplain⟩
  · rw [toLowerCase_ascii hT fun u hu => hplain.ascii hu,
      expandTail_plain hplain.small.dot_not_mem]
    exact hplain.small
  · have hascii : ∀ u ∈ front ++ colon :: p, u.toNat < 0x80 := by
      intro u hu
      rcases List.mem_append.mp hu with hu | hu
      · exact hplain.ascii (List.mem_append_left _ hu)
      · rcases List.mem_cons.mp hu with rfl | hu
        · decide
        · rcases ipv4_units hp u hu with rfl | hdigit
          · decide
          · omega
    have hsmall := hplain.small
    rw [List.map_append, List.map_cons, tailText_small] at hsmall
    rw [toLowerCase_ascii hT hascii, List.map_append, List.map_cons, ipv4_small hp]
    have hcolon : smallUnit colon = colon := by decide
    rw [hcolon] at hsmall ⊢
    rw [expandTail_dotted hp]
    exact hsmall

end Blamejs.SsrfGuard
