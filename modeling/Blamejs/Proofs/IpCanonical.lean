import Blamejs.Proofs.IpText

/-!
# The canonical text of an address

`_ipv6BytesToString` leaves out a run of zero groups. Which one it is does not matter for
reading the text back, only that it is a run of zeros: `bestRun_zeros`. So the canonical
text of an address is a literal of it, except that an IPv4-mapped address is written as the
IPv4 address it carries.
-/

namespace Blamejs.SsrfGuard

open Blamejs.Js IpAddress

variable {s host : JsString} {gs : List Nat} {n : Nat} {x : Address} {T : CaseTable}

/-! ## Bytes and groups -/

theorem groupsOf_bytesOf (h : ∀ g ∈ gs, g < 65536) : groupsOf (bytesOf gs) = gs := by
  induction gs with
  | nil => rfl
  | cons g gs ih =>
      obtain ⟨hg, hgs⟩ := List.forall_mem_cons.mp h
      show (g / 2 ^ 8 * 2 ^ 8 + g % 2 ^ 8) % 2 ^ 16 :: groupsOf (bytesOf gs) = g :: gs
      have hmod : g % 2 ^ 16 = g := Nat.mod_eq_of_lt hg
      rw [ih hgs, Nat.div_add_mod', hmod]

/-! ## The run that is left out -/

/-- Zeros from a group on. -/
def Zeros (gs : List Nat) (start len : Nat) : Prop :=
  ∀ j, start ≤ j → j < start + len → gs[j]? = some 0

/-- What the loop knows before group `g`. -/
structure Known (gs : List Nat) (g : Nat) (r : Runs) : Prop where
  best : ∀ b, r.best = some b → b + r.bestLen ≤ g ∧ Zeros gs b r.bestLen
  cur : ∀ c, r.cur = some c → c + r.curLen = g ∧ Zeros gs c r.curLen

theorem Zeros.snoc {start len : Nat} (h : Zeros gs start len) (hnext : gs[start + len]? = some 0) :
    Zeros gs start (len + 1) := by
  intro j hj hlt
  by_cases heq : j = start + len
  · rw [heq, hnext]
  · exact h j hj (by omega)

theorem Known.read {g group : Nat} {r : Runs} (h : Known gs g r) (hgroup : gs[g]? = some group) :
    Known gs (g + 1) (r.read g group) := by
  rw [Runs.read]
  split
  · next hzero =>
      rw [hzero] at hgroup
      cases hcur : r.cur with
      | none =>
          have hone : Zeros gs g 1 := by
            intro j hj hlt
            rw [Nat.le_antisymm (by omega) hj, hgroup]
          dsimp only
          split
          · constructor
            · rintro b ⟨⟩
              exact ⟨Nat.le_refl _, hone⟩
            · rintro c ⟨⟩
              exact ⟨rfl, hone⟩
          · constructor
            · intro b hb
              obtain ⟨hle, hzeros⟩ := h.best b hb
              exact ⟨Nat.le_succ_of_le hle, hzeros⟩
            · rintro c ⟨⟩
              exact ⟨rfl, hone⟩
      | some c =>
          obtain ⟨hlen, hzeros⟩ := h.cur c hcur
          have hmore : Zeros gs c (r.curLen + 1) := hzeros.snoc (by rw [hlen, hgroup])
          dsimp only
          split
          · constructor
            · rintro b ⟨⟩
              exact ⟨by dsimp only; omega, hmore⟩
            · rintro c ⟨⟩
              exact ⟨by dsimp only; omega, hmore⟩
          · constructor
            · intro b hb
              obtain ⟨hle, hzeros⟩ := h.best b hb
              exact ⟨Nat.le_succ_of_le hle, hzeros⟩
            · rintro c ⟨⟩
              exact ⟨by dsimp only; omega, hmore⟩
  · constructor
    · intro b hb
      obtain ⟨hle, hzeros⟩ := h.best b hb
      exact ⟨Nat.le_succ_of_le hle, hzeros⟩
    · rintro c ⟨⟩

theorem Known.readRuns {g : Nat} {r : Runs} {rest : List Nat} (h : Known gs g r)
    (hrest : gs.drop g = rest) : Known gs (g + rest.length) (readRuns r g rest) := by
  induction rest generalizing g r with
  | nil => exact h
  | cons group rest ih =>
      have hgroup : gs[g]? = some group := by
        rw [← List.head?_drop, hrest]
        rfl
      have hdrop : gs.drop (g + 1) = rest := by
        rw [← List.tail_drop, hrest]
        rfl
      have hread := ih (h.read hgroup) hdrop
      rw [List.length_cons, Nat.add_comm rest.length, ← Nat.add_assoc]
      exact hread

theorem bestRun_zeros {b len : Nat} (h : bestRun gs = (some b, len)) :
    2 ≤ len ∧ b + len ≤ gs.length ∧ Zeros gs b len := by
  have hstart : Known gs 0 ⟨none, 0, none, 0⟩ :=
    ⟨fun b hb => (by cases hb), fun c hc => (by cases hc)⟩
  have hend : Known gs (0 + gs.length) (readRuns ⟨none, 0, none, 0⟩ 0 gs) := hstart.readRuns rfl
  rw [bestRun] at h
  split at h
  · cases h
  · next hlen =>
      rw [Prod.mk.injEq] at h
      obtain ⟨hle, hzeros⟩ := hend.best b h.1
      rw [h.2] at hle hzeros hlen
      exact ⟨by omega, by omega, hzeros⟩

theorem Zeros.split {b len : Nat} (h : Zeros gs b len) :
    gs = gs.take b ++ List.replicate len 0 ++ gs.drop (b + len) := by
  have hzeros : (gs.drop b).take len = List.replicate len 0 := by
    refine List.ext_getElem? fun i => ?_
    by_cases hi : i < len
    · rw [List.getElem?_take_of_lt hi, List.getElem?_drop, h _ (by omega) (by omega),
        List.getElem?_replicate, if_pos hi]
    · rw [List.getElem?_eq_none (by rw [List.length_take, List.length_drop]; omega),
        List.getElem?_eq_none (by rw [List.length_replicate]; omega)]
  rw [← hzeros, List.append_assoc, ← List.drop_drop, List.take_append_drop, List.take_append_drop]

/-! ## The parts -/

variable {best : Option Nat} {bestLen k : Nat}

theorem parts_skip (skip : Nat) (gs : List Nat) :
    parts best bestLen k skip gs = parts best bestLen (k + skip) 0 (gs.drop skip) := by
  induction gs generalizing k skip with
  | nil => rw [List.drop_nil, parts, parts]
  | cons g gs ih =>
      cases skip with
      | zero => rfl
      | succ skip =>
          rw [parts, if_pos (Nat.succ_ne_zero skip), Nat.add_sub_cancel, ih, List.drop_succ_cons,
            Nat.add_assoc, Nat.add_comm 1]

theorem parts_plain (h : ∀ j ≥ k, best ≠ some j) (gs : List Nat) :
    parts best bestLen k 0 gs = gs.map hexText := by
  induction gs generalizing k with
  | nil => rw [parts, List.map_nil]
  | cons g gs ih =>
      rw [parts, if_neg (by simp), if_neg (h k (Nat.le_refl k)),
        ih fun j hj => h j (Nat.le_trans (Nat.le_succ k) hj), List.map_cons]

theorem parts_run {b : Nat} (hk : k ≤ b) (hb : b - k < gs.length) (hlen : 1 ≤ bestLen) :
    parts (some b) bestLen k 0 gs = (gs.take (b - k)).map hexText ++
      [] :: ((if b + bestLen - 1 = 7 then [[]] else []) ++
        (gs.drop (b - k + bestLen)).map hexText) := by
  induction gs generalizing k with
  | nil => exact absurd hb (Nat.not_lt_zero _)
  | cons g gs ih =>
      by_cases heq : b = k
      · subst heq
        have hrest : parts (some b) bestLen (b + 1 + (bestLen - 1)) 0 (gs.drop (bestLen - 1)) =
            (gs.drop (bestLen - 1)).map hexText :=
          parts_plain (fun j hj h => by cases h; omega) _
        rw [parts, if_neg (by simp), if_pos rfl, parts_skip, hrest, Nat.sub_self, Nat.zero_add]
        obtain ⟨len, rfl⟩ := Nat.exists_eq_add_one_of_ne_zero (Nat.ne_of_gt hlen)
        rfl
      · have hsub : b - k = b - (k + 1) + 1 := by omega
        rw [parts, if_neg (by simp), if_neg (fun h => heq (by cases h; rfl)),
          ih (by omega) (by rw [List.length_cons] at hb; omega), hsub]
        rw [List.take_succ_cons, List.map_cons, Nat.add_right_comm, List.drop_succ_cons]
        rfl

theorem hex_map (h : ∀ g ∈ gs, g < 65536) : Hex (gs.map hexText) gs := by
  induction gs with
  | nil => exact .nil
  | cons g gs ih =>
      obtain ⟨hg, hgs⟩ := List.forall_mem_cons.mp h
      exact .cons (hexGroup_hexText hg) (ih hgs)

/-- The parts with an empty one for the run, and another one when it is at the end. -/
theorem joined_run (ls rs : List JsString) :
    (if ls = [] then [colon] else []) ++
      joined (ls ++ [] :: ((if rs = [] then [[]] else []) ++ rs)) =
        joined ls ++ colon :: colon :: joined rs := by
  have hright : joined ([] :: ((if rs = [] then [[]] else []) ++ rs)) = colon :: joined rs := by
    cases rs with
    | nil => rfl
    | cons r rs =>
        rw [if_neg (List.cons_ne_nil r rs), List.nil_append, joined_cons _ (by simp)]
        rfl
  cases ls with
  | nil =>
      rw [if_pos rfl, List.nil_append, hright]
      rfl
  | cons l ls =>
      rw [if_neg (List.cons_ne_nil l ls), joined_append (List.cons_ne_nil l ls) (by simp), hright]
      rfl

theorem ipv6BytesToString_plain (hlen : gs.length = 8) (hlt : ∀ g ∈ gs, g < 65536) :
    Plain (ipv6BytesToString (bytesOf gs)) gs := by
  rw [ipv6BytesToString, groupsOf_bytesOf hlt]
  dsimp only
  rcases hrun : bestRun gs with ⟨best, len⟩
  cases best with
  | none =>
      rw [if_neg (by simp), parts_plain (fun j _ h => by cases h)]
      exact .full (hex_map hlt) hlen
  | some b =>
      obtain ⟨htwo, hle, hzeros⟩ := bestRun_zeros hrun
      have hsplit := hzeros.split
      have hparts := @parts_run gs len 0 b (Nat.zero_le b) (by omega) (by omega)
      rw [Nat.sub_zero] at hparts
      have hend : (b + len - 1 = 7) ↔ (gs.drop (b + len)).map hexText = [] := by
        rw [List.map_eq_nil_iff, List.drop_eq_nil_iff]
        omega
      have hbegin : (b = 0) ↔ (gs.take b).map hexText = [] := by
        rw [List.map_eq_nil_iff, ← List.length_eq_zero_iff, List.length_take]
        omega
      have hjoined := joined_run ((gs.take b).map hexText) ((gs.drop (b + len)).map hexText)
      have htext : (if (some b : Option Nat) = some 0 then
          colon :: joined (parts (some b) len 0 0 gs) else joined (parts (some b) len 0 0 gs)) =
            joined ((gs.take b).map hexText) ++
              colon :: colon :: joined ((gs.drop (b + len)).map hexText) := by
        rw [hparts, ← hjoined]
        simp only [Option.some.injEq, hend, hbegin]
        split
        · rfl
        · rfl
      rw [htext]
      have htake : (gs.take b).length = b := by rw [List.length_take]; omega
      have hdrop : (gs.drop (b + len)).length = 8 - b - len := by rw [List.length_drop]; omega
      have hplain := @Plain.short _ _ (gs.take b) (gs.drop (b + len))
        (hex_map fun g hg => hlt g (List.mem_of_mem_take hg))
        (hex_map fun g hg => hlt g (List.mem_of_mem_drop hg)) (by omega)
      rw [htake, hdrop] at hplain
      have hfill : 8 - b - (8 - b - len) = len := by omega
      rw [hfill, ← hsplit] at hplain
      exact hplain

/-! ## Eight groups -/

theorem readBody_groups (h : readBody s = some gs) : gs.length = 8 ∧ ∀ g ∈ gs, g < 65536 := by
  rcases plain_of_readBody h with hplain | ⟨front, p, n, -, -, hplain⟩
  · exact ⟨hplain.length, hplain.lt⟩
  · exact ⟨hplain.length, hplain.lt⟩

theorem readIpv6_groups (h : readIpv6 s = some gs) : gs.length = 8 ∧ ∀ g ∈ gs, g < 65536 := by
  rw [readIpv6] at h
  split at h
  · exact readBody_groups h
  · split at h
    · exact readBody_groups h
    · cases h

theorem exists_eight (hlen : gs.length = 8) (hlt : ∀ g ∈ gs, g < 65536) :
    ∃ a b c d e f g h, gs = [a, b, c, d, e, f, g, h] ∧ a < 65536 ∧ b < 65536 ∧ c < 65536 ∧
      d < 65536 ∧ e < 65536 ∧ f < 65536 ∧ g < 65536 ∧ h < 65536 := by
  match gs, hlen with
  | [a, b, c, d, e, f, g, h], _ =>
      simp only [List.forall_mem_cons] at hlt
      obtain ⟨ha, hb, hc, hd, he, hf, hg, hh, -⟩ := hlt
      exact ⟨a, b, c, d, e, f, g, h, rfl, ha, hb, hc, hd, he, hf, hg, hh⟩

/-- The eight groups of a number. -/
def groupsAt (n : Nat) : List Nat :=
  [n / 2 ^ 112 % 65536, n / 2 ^ 96 % 65536, n / 2 ^ 80 % 65536, n / 2 ^ 64 % 65536,
    n / 2 ^ 48 % 65536, n / 2 ^ 32 % 65536, n / 2 ^ 16 % 65536, n % 65536]

theorem groupsAt_value (hlen : gs.length = 8) (hlt : ∀ g ∈ gs, g < 65536) :
    groupsAt (groupsValue gs) = gs := by
  obtain ⟨a, b, c, d, e, f, g, h, rfl, ha, hb, hc, hd, he, hf, hg, hh⟩ := exists_eight hlen hlt
  simp only [groupsAt, groupsValue, List.foldl_cons, List.foldl_nil, List.cons.injEq, and_true]
  omega

/-! ## The canonical text -/

/-- An IPv4 address as text. -/
def dottedOf (n : Nat) : JsString :=
  dotted (n / 2 ^ 24 % 256) (n / 2 ^ 16 % 256) (n / 2 ^ 8 % 256) (n % 256)

theorem readIpv4_dottedOf (h : n < 2 ^ 32) : readIpv4 (dottedOf n) = some n := by
  rw [dottedOf, readIpv4_dotted (by omega) (by omega) (by omega) (by omega)]
  congr 1
  omega

/-- The text that hosts and entries are compared by. -/
def canonText : Address → JsString
  | .v4 n => dottedOf n
  | .v6 n =>
      if n / 2 ^ 32 = 0xFFFF then dottedOf (n % 2 ^ 32)
      else ipv6BytesToString (bytesOf (groupsAt n))

theorem mapped_iff (hlen : gs.length = 8) (hlt : ∀ g ∈ gs, g < 65536) :
    ipv6PrefixMatch ipv6V4MappedPrefix 96 (bytesOf gs) = true ↔
      groupsValue gs / 2 ^ 32 = 0xFFFF := by
  obtain ⟨a, b, c, d, e, f, g, h, rfl, ha, hb, hc, hd, he, hf, hg, hh⟩ := exists_eight hlen hlt
  simp [ipv6PrefixMatch, ipv6V4MappedPrefix, bytesOf, groupsValue]
  omega

theorem sixToFour_iff (hlen : gs.length = 8) (hlt : ∀ g ∈ gs, g < 65536) :
    ipv6PrefixMatch ipv66to4Prefix 16 (bytesOf gs) = true ↔
      groupsValue gs / 2 ^ 112 = 0x2002 := by
  obtain ⟨a, b, c, d, e, f, g, h, rfl, ha, hb, hc, hd, he, hf, hg, hh⟩ := exists_eight hlen hlt
  simp [ipv6PrefixMatch, ipv66to4Prefix, bytesOf, groupsValue]
  omega

theorem nat64_iff (hlen : gs.length = 8) (hlt : ∀ g ∈ gs, g < 65536) :
    ipv6PrefixMatch ipv6Nat64Prefix 96 (bytesOf gs) = true ↔
      groupsValue gs / 2 ^ 32 = 0x64FF9B * 2 ^ 64 := by
  obtain ⟨a, b, c, d, e, f, g, h, rfl, ha, hb, hc, hd, he, hf, hg, hh⟩ := exists_eight hlen hlt
  simp [ipv6PrefixMatch, ipv6Nat64Prefix, bytesOf, groupsValue]
  omega

theorem dottedAt_last (hlen : gs.length = 8) (hlt : ∀ g ∈ gs, g < 65536) :
    dottedAt (bytesOf gs) 12 = dottedOf (groupsValue gs % 2 ^ 32) := by
  obtain ⟨a, b, c, d, e, f, g, h, rfl, ha, hb, hc, hd, he, hf, hg, hh⟩ := exists_eight hlen hlt
  simp only [dottedAt, bytesOf, dottedOf, groupsValue, List.foldl_cons, List.foldl_nil]
  show dotted (g / 2 ^ 8) (g % 2 ^ 8) (h / 2 ^ 8) (h % 2 ^ 8) = _
  congr 1 <;> omega

theorem dottedAt_second (hlen : gs.length = 8) (hlt : ∀ g ∈ gs, g < 65536) :
    dottedAt (bytesOf gs) 2 = dottedOf (groupsValue gs / 2 ^ 80 % 2 ^ 32) := by
  obtain ⟨a, b, c, d, e, f, g, h, rfl, ha, hb, hc, hd, he, hf, hg, hh⟩ := exists_eight hlen hlt
  simp only [dottedAt, bytesOf, dottedOf, groupsValue, List.foldl_cons, List.foldl_nil]
  show dotted (b / 2 ^ 8) (b % 2 ^ 8) (c / 2 ^ 8) (c % 2 ^ 8) = _
  congr 1 <;> omega

theorem read_v4 (h : read s = some (.v4 n)) : readIpv4 s = some n := by
  rw [IpAddress.read] at h
  split at h
  · next m hm =>
      cases h
      exact hm
  · obtain ⟨gs, -, heq⟩ := Option.map_eq_some_iff.mp h
    cases heq

theorem read_v6 (h : read s = some (.v6 n)) : ∃ gs, readIpv6 s = some gs ∧ n = groupsValue gs := by
  rw [IpAddress.read] at h
  split at h
  · cases h
  · obtain ⟨gs, hgs, heq⟩ := Option.map_eq_some_iff.mp h
    cases heq
    exact ⟨gs, hgs, rfl⟩

theorem isIP_v4 (h : read s = some (.v4 n)) : isIP s = 4 := by
  rw [isIP, h]

theorem isIP_v6 (h : read s = some (.v6 n)) : isIP s = 6 := by
  rw [isIP, h]

/-- A literal without dots and zone is read as one of IPv6. -/
theorem read_plain (h : Plain s gs) : read s = some (.v6 (groupsValue gs)) := by
  have hzone : s.dropWhile (· ≠ percent) = [] := by
    refine List.dropWhile_eq_nil_iff.mpr fun u hu => ?_
    have hne : u ≠ percent := fun heq => h.percent_not_mem (heq ▸ hu)
    simpa using hne
  have hread : readIpv6 s = some gs := by
    rw [readIpv6, hzone]
    exact readBody_of_plain h
  rw [IpAddress.read, readIpv4_of_no_dot h.dot_not_mem, hread]
  rfl

theorem canonText_read (hT : T.Ascii) (h : read (stripBrackets host) = some x) :
    canonicalizeHost T host = canonText x := by
  have hne : host ≠ [] := by
    rintro rfl
    revert h
    show read [] = some x → _
    rw [show read [] = none from by decide]
    intro h
    cases h
  rw [canonicalizeHost, if_neg hne]
  cases x with
  | v4 n =>
      have hread := read_v4 h
      have hlt := readIpv4_lt hread
      rw [if_pos (isIP_v4 h), ipv4ToBytes, ipv4ToInt_of_read hread]
      rfl
  | v6 n =>
      obtain ⟨gs, hgs, rfl⟩ := read_v6 h
      obtain ⟨hlen, hlt⟩ := readIpv6_groups hgs
      have hsix := isIP_v6 h
      rw [if_neg (by rw [hsix]; decide), if_pos hsix, ipv6ToBytes_of_read hT hgs, canonText,
        groupsAt_value hlen hlt]
      dsimp only
      rw [dottedAt_last hlen hlt]
      simp only [mapped_iff hlen hlt]

end Blamejs.SsrfGuard
