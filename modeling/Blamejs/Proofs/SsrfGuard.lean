import Blamejs.Lib.Checked
import Blamejs.Proofs.IpCanonical

/-!
# What an egress allowlist lets through

A deny entry covers addresses, and the code compares texts. Whatever an address counts as,
one of the spellings of its host is a literal of just that (`spelling_reads`), and the
canonical text of it is among them too (`spelling_canon`), so an entry that covers the address
matches one of the spellings: a block by the leading bits of the bytes, a single address by
its canonical text.
-/

namespace Blamejs.SsrfGuard

open Blamejs.Js IpAddress

variable {T : CaseTable} {P : Platform} {s host entry : JsString} {gs hs : List Nat} {n m : Nat}
variable {x y a : Address}

/-! ## Leading bits -/

/-- A mask without the low bits does not see them. -/
theorem land_mask {k : Nat} (h : n / 2 ^ k = m / 2 ^ k) (c w : Nat) :
    n &&& c * 2 ^ k % 2 ^ w = m &&& c * 2 ^ k % 2 ^ w := by
  refine Nat.eq_of_testBit_eq fun i => ?_
  rw [Nat.testBit_and, Nat.testBit_and, Nat.testBit_mod_two_pow, Nat.testBit_mul_two_pow]
  by_cases hi : k ≤ i
  · have hbit : ∀ v : Nat, v.testBit i = (v / 2 ^ k).testBit (i - k) := by
      intro v
      rw [Nat.testBit_div_two_pow, Nat.sub_add_cancel hi]
    rw [hbit n, hbit m, h]
  · simp [hi]

/-- Numbers with the same leading bits have the same fewer leading bits. -/
theorem div_pow_of_le {d e : Nat} (hle : d ≤ e) (h : n / 2 ^ d = m / 2 ^ d) :
    n / 2 ^ e = m / 2 ^ e := by
  obtain ⟨k, rfl⟩ := Nat.exists_eq_add_of_le hle
  rw [Nat.pow_add, ← Nat.div_div_eq_div_mul, ← Nat.div_div_eq_div_mul, h]

def bytesValue (bs : List Nat) : Nat := bs.foldl (fun n b => 256 * n + b) 0

theorem bytesValue_snoc (bs : List Nat) (b : Nat) :
    bytesValue (bs ++ [b]) = 256 * bytesValue bs + b := by
  rw [bytesValue, List.foldl_append]
  rfl

theorem bytesValue_take {bs : List Nat} (hlt : ∀ b ∈ bs, b < 256) (k : Nat) :
    bytesValue bs / 256 ^ (bs.length - k) = bytesValue (bs.take k) := by
  induction bs using List.reverseRecOn with
  | nil => simp [bytesValue]
  | append_singleton bs b ih =>
      have hb := hlt b (by simp)
      have hbs := ih fun c hc => hlt c (by simp [hc])
      rw [List.length_append, List.length_singleton]
      by_cases hk : k ≤ bs.length
      · rw [Nat.succ_sub hk, Nat.pow_succ, Nat.mul_comm, ← Nat.div_div_eq_div_mul, bytesValue_snoc,
          List.take_append_of_le_length hk, ← hbs]
        congr 1
        omega
      · rw [Nat.sub_eq_zero_of_le (by omega), Nat.pow_zero, Nat.div_one,
          List.take_of_length_le (by simp; omega)]

theorem bytesValue_inj {bs cs : List Nat} (hbs : ∀ b ∈ bs, b < 256) (hcs : ∀ c ∈ cs, c < 256)
    (hlen : bs.length = cs.length) (h : bytesValue bs = bytesValue cs) : bs = cs := by
  induction bs using List.reverseRecOn generalizing cs with
  | nil => exact (List.length_eq_zero_iff.mp hlen.symm).symm
  | append_singleton bs b ih =>
      have hne : cs ≠ [] := by
        rintro rfl
        simp at hlen
      obtain ⟨cs', c, rfl⟩ : ∃ cs' c, cs = cs' ++ [c] :=
        ⟨cs.dropLast, cs.getLast hne, (List.dropLast_append_getLast hne).symm⟩
      have hb := hbs b (by simp)
      have hc := hcs c (by simp)
      rw [bytesValue_snoc, bytesValue_snoc] at h
      have hfront : bs = cs' := ih (fun d hd => hbs d (List.mem_append_left _ hd))
        (fun d hd => hcs d (List.mem_append_left _ hd)) (by simpa using hlen) (by omega)
      have hlast : b = c := by rw [hfront] at h; omega
      rw [hfront, hlast]

theorem bytesValue_bytesOf (gs : List Nat) : bytesValue (bytesOf gs) = groupsValue gs := by
  rw [bytesValue, bytesOf, groupsValue, List.foldl_flatMap]
  congr 1
  funext n g
  show 256 * (256 * n + g / 2 ^ 8) + g % 2 ^ 8 = 65536 * n + g
  omega

theorem length_bytesOf (gs : List Nat) : (bytesOf gs).length = 2 * gs.length := by
  induction gs with
  | nil => rfl
  | cons g gs ih =>
      show (bytesOf gs).length + 1 + 1 = 2 * (gs.length + 1)
      omega

theorem bytesOf_lt (hlt : ∀ g ∈ gs, g < 65536) : ∀ b ∈ bytesOf gs, b < 256 := by
  intro b hb
  obtain ⟨g, hg, hb⟩ := List.mem_flatMap.mp hb
  have := hlt g hg
  rcases List.mem_cons.mp hb with rfl | hb
  · omega
  · rw [List.mem_singleton.mp hb]
    exact Nat.mod_lt _ (by decide)

/-- Buffers of numbers with the same leading bits match. -/
theorem prefixMatch_of_number (hgs : gs.length = 8) (hlt : ∀ g ∈ gs, g < 65536)
    (hhs : hs.length = 8) (hlt' : ∀ g ∈ hs, g < 65536) {bits : Nat} (hbits : bits ≤ 128)
    (h : groupsValue gs / 2 ^ (128 - bits) = groupsValue hs / 2 ^ (128 - bits)) :
    ipv6PrefixMatch (bytesOf hs) bits (bytesOf gs) = true := by
  rw [← bytesValue_bytesOf, ← bytesValue_bytesOf] at h
  have hlen := length_bytesOf gs
  have hlen' := length_bytesOf hs
  have hbyte := bytesOf_lt hlt
  have hbyte' := bytesOf_lt hlt'
  rw [hgs] at hlen
  rw [hhs] at hlen'
  generalize bytesOf gs = bs at *
  generalize bytesOf hs = cs at *
  -- whole bytes
  have hdiv : ∀ d, 128 - bits ≤ d → bytesValue bs / 2 ^ d = bytesValue cs / 2 ^ d :=
    fun d hd => div_pow_of_le hd h
  have htake : ∀ k, 128 - bits ≤ 8 * (16 - k) → bs.take k = cs.take k := by
    intro k hk
    have hvalue := hdiv (8 * (16 - k)) hk
    rw [Nat.pow_mul] at hvalue
    have hleft := bytesValue_take hbyte k
    have hright := bytesValue_take hbyte' k
    rw [hlen] at hleft
    rw [hlen'] at hright
    refine bytesValue_inj (fun b hb => hbyte b (List.mem_of_mem_take hb))
      (fun b hb => hbyte' b (List.mem_of_mem_take hb)) (by simp [hlen, hlen']) ?_
    rw [← hleft, ← hright]
    exact hvalue
  have hwhole : bs.take (bits / 8) = cs.take (bits / 8) := htake _ (by omega)
  rw [ipv6PrefixMatch, hwhole, beq_self_eq_true, Bool.true_and]
  by_cases hzero : bits % 8 = 0
  · simp [hzero]
  · -- the bits of the byte behind them
    have hk : bits / 8 < 16 := by omega
    have hleft := bytesValue_take hbyte (bits / 8 + 1)
    have hright := bytesValue_take hbyte' (bits / 8 + 1)
    have hget : bs[bits / 8]? = some (bs.getD (bits / 8) 0) := by
      rw [List.getD_eq_getElem?_getD, List.getElem?_eq_getElem (by omega)]
      rfl
    have hget' : cs[bits / 8]? = some (cs.getD (bits / 8) 0) := by
      rw [List.getD_eq_getElem?_getD, List.getElem?_eq_getElem (by omega)]
      rfl
    rw [hlen, List.take_add_one, hget, Option.toList_some, bytesValue_snoc] at hleft
    rw [hlen', List.take_add_one, hget', Option.toList_some, bytesValue_snoc, ← hwhole] at hright
    have hvalue := hdiv (8 * (16 - (bits / 8 + 1)) + (8 - bits % 8)) (by omega)
    rw [Nat.pow_add, ← Nat.div_div_eq_div_mul, ← Nat.div_div_eq_div_mul, Nat.pow_mul] at hvalue
    have hleft' : bytesValue bs / (2 ^ 8) ^ (16 - (bits / 8 + 1)) =
      256 * bytesValue (bs.take (bits / 8)) + bs.getD (bits / 8) 0 := hleft
    have hright' : bytesValue cs / (2 ^ 8) ^ (16 - (bits / 8 + 1)) =
      256 * bytesValue (bs.take (bits / 8)) + cs.getD (bits / 8) 0 := hright
    rw [hleft', hright'] at hvalue
    have hpow : 256 = 2 ^ (8 - bits % 8) * 2 ^ (bits % 8) := by
      rw [← Nat.pow_add]
      have : 8 - bits % 8 + bits % 8 = 8 := by omega
      rw [this]
    have hpos : 0 < 2 ^ (8 - bits % 8) := Nat.two_pow_pos _
    rw [hpow, Nat.mul_assoc, Nat.mul_add_div hpos, Nat.mul_add_div hpos] at hvalue
    have hlast := land_mask (Nat.add_left_cancel hvalue) 0xFF 8
    rw [Bool.or_eq_true, beq_iff_eq]
    exact Or.inr hlast

theorem cidrIpv4Match_of_number {network ip : JsString} {bits : Nat}
    (hnetwork : readIpv4 network = some n) (hip : readIpv4 ip = some m) (hbits : bits ≤ 32)
    (h : m / 2 ^ (32 - bits) = n / 2 ^ (32 - bits)) : cidrIpv4Match network bits ip = true := by
  rw [cidrIpv4Match, if_neg (Nat.not_lt.mpr hbits)]
  split
  · rfl
  · rw [ipv4ToInt_of_read hnetwork, ipv4ToInt_of_read hip, Option.getD_some, Option.getD_some,
      beq_iff_eq]
    exact land_mask h 0xFFFFFFFF 32

/-! ## Texts without a slash -/

theorem cutSlash_none (h : unit '/' ∉ s) : cutSlash s = none := by
  have hnil : s.dropWhile (· ≠ unit '/') = [] := by
    refine List.dropWhile_eq_nil_iff.mpr fun u hu => ?_
    have hne : u ≠ unit '/' := fun heq => h (heq ▸ hu)
    simpa using hne
  rw [cutSlash, hnil]

theorem cutSlash_append {text : JsString} (h : unit '/' ∉ s) :
    cutSlash (s ++ [unit '/'] ++ text) = some (s, text) := by
  have hall : ∀ u ∈ s, decide (u ≠ unit '/') = true := by
    intro u hu
    have hne : u ≠ unit '/' := fun heq => h (heq ▸ hu)
    simpa using hne
  rw [cutSlash, List.append_assoc, List.dropWhile_append_of_pos hall,
    List.takeWhile_append_of_pos hall]
  simp

theorem slash_of_cutSlash (h : cutSlash s = none) : unit '/' ∉ s := by
  intro hmem
  rw [cutSlash] at h
  split at h
  · next hnil =>
      have := List.dropWhile_eq_nil_iff.mp hnil _ hmem
      simp at this
  · cases h

theorem slash_dottedOf (n : Nat) : unit '/' ∉ dottedOf n := by
  intro h
  rcases mem_dotted h with heq | hdigit
  · exact absurd heq (by decide)
  · exact absurd hdigit (by decide)

theorem slash_plain (h : Plain s gs) : unit '/' ∉ s := by
  intro hu
  rcases h.mem hu with heq | hdigit
  · exact absurd heq (by decide)
  · exact absurd hdigit (by decide)

/-! ## The spellings of a host -/

/-- An address that a literal says. -/
def Said (x : Address) : Prop := ∃ s, read s = some x

theorem Said.v4_lt (h : Said (.v4 n)) : n < 2 ^ 32 := by
  obtain ⟨s, hs⟩ := h
  exact readIpv4_lt (read_v4 hs)

theorem Said.groups (h : Said (.v6 n)) : ∃ gs, gs.length = 8 ∧ (∀ g ∈ gs, g < 65536) ∧
    n = groupsValue gs := by
  obtain ⟨s, hs⟩ := h
  obtain ⟨gs, hgs, rfl⟩ := read_v6 hs
  obtain ⟨hlen, hlt⟩ := readIpv6_groups hgs
  exact ⟨gs, hlen, hlt, rfl⟩

theorem read_dottedOf (h : n < 2 ^ 32) : read (dottedOf n) = some (.v4 n) := by
  rw [IpAddress.read, readIpv4_dottedOf h]

/-- The `::ffff:` form of an IPv4 address. -/
abbrev mappedText (n : Nat) : JsString := units "::ffff:" ++ dottedOf n

theorem colon_dottedOf (n : Nat) : colon ∉ dottedOf n := by
  intro h
  rcases mem_dotted h with heq | hdigit
  · exact absurd heq (by decide)
  · exact absurd hdigit (by decide)

theorem readBody_mapped (h : n < 2 ^ 32) :
    readBody (mappedText n) = some [0, 0, 0, 0, 0, 0xFFFF, n / 65536, n % 65536] := by
  have htext : mappedText n = colon :: colon :: (units "ffff" ++ colon :: dottedOf n) := rfl
  have hpieces : pieces (units "ffff" ++ colon :: dottedOf n) = [units "ffff", dottedOf n] := by
    rw [pieces, if_neg (by simp), List.splitOn_append_cons_self_of_not_mem (by decide),
      List.splitOn_eq_singleton (colon_dottedOf n)]
  have hgroups : groups [units "ffff", dottedOf n] = some [0xFFFF, n / 65536, n % 65536] := by
    have hffff : hexGroup (units "ffff") = some 0xFFFF := by decide
    rw [groups, hffff, groups, readIpv4_dottedOf h]
    · rfl
    · simp
  rw [readBody, htext, cutDouble_double]
  dsimp only
  rw [hpieces, hgroups]
  rfl

theorem read_mappedText (h : n < 2 ^ 32) :
    read (mappedText n) = some (.v6 (0xFFFF * 2 ^ 32 + n)) := by
  have hno : readIpv4 (mappedText n) = none := by
    cases hread : readIpv4 (mappedText n) with
    | none => rfl
    | some m => exact absurd (List.mem_append_left (dottedOf n) (by decide)) (ipv4_colon hread)
  have hpercent : ∀ u ∈ mappedText n, decide (u ≠ percent) = true := by
    intro u hu
    rcases List.mem_append.mp hu with hu | hu
    · exact List.all_eq_true.mp (by decide : (units "::ffff:").all (· ≠ percent) = true) u hu
    · rcases mem_dotted hu with rfl | hdigit
      · decide
      · refine decide_eq_true fun heq => ?_
        rw [heq] at hdigit
        exact absurd hdigit (by decide)
  have hsix : readIpv6 (mappedText n) = some [0, 0, 0, 0, 0, 0xFFFF, n / 65536, n % 65536] := by
    rw [readIpv6, List.dropWhile_eq_nil_iff.mpr hpercent]
    exact readBody_mapped h
  rw [IpAddress.read, hno, hsix, Option.map_some, groupsValue]
  simp only [List.foldl_cons, List.foldl_nil]
  congr 2
  omega

/-- The spellings of the host of an address. -/
abbrev spellings (T : CaseTable) (x : Address) : List JsString := hostSpellings T (canonText x) true

theorem spellings_v4 (h : n < 2 ^ 32) :
    hostSpellings T (dottedOf n) true = [dottedOf n, mappedText n] := by
  have hip := isIP_v4 (read_dottedOf h)
  rw [hostSpellings, if_neg (by simp), if_neg (by rw [hip]; decide), if_pos hip]

theorem canonText_mapped (h : n / 2 ^ 32 = 0xFFFF) : canonText (.v6 n) = dottedOf (n % 2 ^ 32) :=
  if_pos h

/-- An IPv6 address that is not IPv4-mapped is written as one. -/
theorem canonText_plain (hlen : gs.length = 8) (hlt : ∀ g ∈ gs, g < 65536)
    (h : ¬groupsValue gs / 2 ^ 32 = 0xFFFF) : Plain (canonText (.v6 (groupsValue gs))) gs := by
  rw [canonText, if_neg h, groupsAt_value hlen hlt]
  exact ipv6BytesToString_plain hlen hlt

theorem carried_mapped (h : n / 2 ^ 32 = 0xFFFF) : carried (.v6 n) = some (.v4 (n % 2 ^ 32)) :=
  if_pos h

theorem bytes_plain (hT : T.Ascii) (h : Plain s gs) : ipv6ToBytes T s = bytesOf gs := by
  refine ipv6ToBytes_of_read hT ?_
  have hread := read_plain h
  obtain ⟨gs', hgs', -⟩ := read_v6 hread
  have hbody : readIpv6 s = readBody s := by
    rw [readIpv6, List.dropWhile_eq_nil_iff.mpr]
    intro u hu
    have hne : u ≠ percent := fun heq => h.percent_not_mem (heq ▸ hu)
    simpa using hne
  rw [hbody]
  exact readBody_of_plain h

/-- `_wrappedIpv4` finds the address that a 6to4 or NAT64 address carries. -/
theorem wrappedIpv4_carried (hlen : gs.length = 8) (hlt : ∀ g ∈ gs, g < 65536)
    (h : ¬groupsValue gs / 2 ^ 32 = 0xFFFF) (hy : carried (.v6 (groupsValue gs)) = some y) :
    ∃ m, m < 2 ^ 32 ∧ y = .v4 m ∧ wrappedIpv4 (bytesOf gs) = some (dottedOf m) := by
  rw [carried, if_neg h] at hy
  rw [wrappedIpv4]
  simp only [sixToFour_iff hlen hlt, nat64_iff hlen hlt, dottedAt_second hlen hlt,
    dottedAt_last hlen hlt]
  split at hy
  · next hsix =>
      cases hy
      exact ⟨_, Nat.mod_lt _ (by decide), rfl, if_pos hsix⟩
  · next hsix =>
      split at hy
      · next hnat =>
          cases hy
          exact ⟨_, Nat.mod_lt _ (by decide), rfl, by rw [if_neg hsix, if_pos hnat]⟩
      · cases hy

theorem spelling_self : canonText x ∈ spellings T x := by
  rw [spellings, hostSpellings]
  split
  · exact List.mem_cons_self
  · split
    · split
      · exact List.mem_cons_self
      · exact List.mem_cons_self
    · split
      · exact List.mem_cons_self
      · exact List.mem_cons_self

theorem spelling_carried (hT : T.Ascii) (hx : Said x) (hy : carried x = some y) :
    ∃ m, m < 2 ^ 32 ∧ y = .v4 m ∧ dottedOf m ∈ spellings T x := by
  cases x with
  | v4 n => cases hy
  | v6 n =>
      by_cases hmapped : n / 2 ^ 32 = 0xFFFF
      · rw [carried_mapped hmapped] at hy
        cases hy
        refine ⟨_, Nat.mod_lt _ (by decide), rfl, ?_⟩
        rw [← canonText_mapped hmapped]
        exact spelling_self
      · obtain ⟨gs, hlen, hlt, rfl⟩ := hx.groups
        obtain ⟨m, hm, rfl, hwrapped⟩ := wrappedIpv4_carried hlen hlt hmapped hy
        have hplain := canonText_plain hlen hlt hmapped
        have hip := isIP_v6 (read_plain hplain)
        refine ⟨m, hm, rfl, ?_⟩
        rw [spellings, hostSpellings, if_neg (by simp), if_pos hip, bytes_plain hT hplain, hwrapped]
        simp

/-- The canonical text of what an address counts as is a spelling of its host. -/
theorem spelling_canon (hT : T.Ascii) (hx : Said x) (hcounts : Counts x y) :
    canonText y ∈ spellings T x := by
  rcases hcounts with rfl | hy
  · exact spelling_self
  · obtain ⟨m, -, rfl, hmem⟩ := spelling_carried hT hx hy
    exact hmem

/-- Some spelling is a literal of just what the address counts as. -/
theorem spelling_reads (hT : T.Ascii) (hx : Said x) (hcounts : Counts x y) :
    ∃ form ∈ spellings T x, read form = some y := by
  rcases hcounts with rfl | hy
  · cases y with
    | v4 n => exact ⟨_, spelling_self, read_dottedOf hx.v4_lt⟩
    | v6 n =>
        by_cases hmapped : n / 2 ^ 32 = 0xFFFF
        · have hlow : n % 2 ^ 32 < 2 ^ 32 := Nat.mod_lt _ (by decide)
          refine ⟨mappedText (n % 2 ^ 32), ?_, ?_⟩
          · rw [spellings, canonText_mapped hmapped, spellings_v4 hlow]
            simp
          · rw [read_mappedText hlow]
            congr 2
            omega
        · obtain ⟨gs, hlen, hlt, rfl⟩ := hx.groups
          exact ⟨_, spelling_self, read_plain (canonText_plain hlen hlt hmapped)⟩
  · obtain ⟨m, hm, rfl, hmem⟩ := spelling_carried hT hx hy
    exact ⟨_, hmem, read_dottedOf hm⟩

/-! ## Entries -/

/-- A host name without trailing dots and in lower case. -/
def hostName (T : CaseTable) (s : JsString) : JsString :=
  ((toLowerCase T (stripBrackets s)).reverse.dropWhile (· = unit '.')).reverse

/-- What a deny entry covers: a block or an address covers a host of which it covers
something that its address counts as; an entry of IPv4-mapped addresses covers the IPv4
addresses in them too; a name covers the host of the same name, whatever the case and
trailing dots. -/
inductive Covers (T : CaseTable) (entry host : JsString) : Prop where
  | block {network text : JsString} {a x y : Address} (hcut : cutSlash entry = some (network, text))
      (hnetwork : read network = some a) (hhost : read (stripBrackets host) = some x)
      (hcounts : Counts x y) (hin : InBlock a (digitsValue text) y)
  | address {a x : Address} (hcut : cutSlash entry = none)
      (hentry : read (stripBrackets entry) = some a)
      (hhost : read (stripBrackets host) = some x) (hcounts : Counts x a)
  | mappedBlock {network text : JsString} {n : Nat} {x y : Address}
      (hcut : cutSlash entry = some (network, text)) (hnetwork : read network = some (.v6 n))
      (hmapped : n / 2 ^ 32 = 0xFFFF) (hlong : 96 ≤ digitsValue text)
      (hhost : read (stripBrackets host) = some x) (hcounts : Counts x y)
      (hin : InBlock (.v4 (n % 2 ^ 32)) (digitsValue text - 96) y)
  | mappedAddress {n : Nat} {x : Address} (hcut : cutSlash entry = none)
      (hentry : read (stripBrackets entry) = some (.v6 n)) (hmapped : n / 2 ^ 32 = 0xFFFF)
      (hhost : read (stripBrackets host) = some x) (hcounts : Counts x (.v4 (n % 2 ^ 32)))
  | name (hcut : cutSlash entry = none) (hentry : read (stripBrackets entry) = none)
      (hhost : read (stripBrackets host) = none) (hname : hostName T entry = hostName T host)

theorem parseDecimal_digits {text : JsString} (hne : text ≠ [])
    (hdigits : ∀ u ∈ text, isDigitUnit u = true) : parseDecimal text = some (digitsValue text) := by
  rw [parseDecimal, List.takeWhile_eq_self_iff.mpr hdigits]
  exact if_neg hne

theorem digitsValue_snoc (text : JsString) (u : UInt16) :
    digitsValue (text ++ [u]) = 10 * digitsValue text + (u.toNat - 48) := by
  rw [digitsValue, List.foldl_append]
  rfl

theorem natText_digit {u : UInt16} (h : isDigitUnit u = true) :
    u.toNat - 48 < 10 ∧ natText (u.toNat - 48) = [u] := by
  have hall : ∀ d < 10, natText d = [UInt16.ofNat (48 + d)] := by decide
  rw [isDigitUnit, Bool.and_eq_true, decide_eq_true_eq, decide_eq_true_eq] at h
  have hlt : u.toNat - 48 < 10 := by omega
  refine ⟨hlt, ?_⟩
  rw [hall _ hlt, Nat.add_sub_cancel' h.1, UInt16.ofNat_toNat]

/-- A numeral without a zero in front is the one its number is written as. -/
theorem natText_digitsValue {text : JsString} (hne : text ≠ [])
    (hdigits : ∀ u ∈ text, isDigitUnit u = true)
    (hlead : text.length ≤ 1 ∨ text.head? ≠ some (unit '0')) :
    natText (digitsValue text) = text := by
  induction text using List.reverseRecOn with
  | nil => exact (hne rfl).elim
  | append_singleton front u ih =>
      obtain ⟨hlt, hdigit⟩ := natText_digit (hdigits u (by simp))
      rw [digitsValue_snoc]
      by_cases hfront : front = []
      · subst hfront
        rw [show digitsValue [] = 0 from rfl, Nat.mul_zero, Nat.zero_add, hdigit, List.nil_append]
      · have hhead : front.head? ≠ some (unit '0') := by
          rcases hlead with hlen | hhead
          · rw [List.length_append, List.length_singleton] at hlen
            exact (hfront (List.eq_nil_of_length_eq_zero (by omega))).elim
          · rwa [List.head?_append_of_ne_nil _ hfront] at hhead
        have hih := ih hfront (fun v hv => hdigits v (List.mem_append_left _ hv)) (.inr hhead)
        have hpos : 0 < digitsValue front := by
          rcases Nat.eq_zero_or_pos (digitsValue front) with hzero | hpos
          · rw [hzero] at hih
            rw [← hih] at hhead
            exact (hhead rfl).elim
          · exact hpos
        rw [natText, ← Nat.toDigits_append_toDigits (by decide) hpos hlt, List.map_append,
          ← natText, ← natText, hih, hdigit]

theorem cidrContains_of {cidr network text form : JsString} {bits : Nat} (hT : T.Ascii)
    (hcut : cutSlash cidr = some (network, text)) (hbits : parseDecimal text = some bits)
    (hnetwork : read network = some a) (hform : read form = some y)
    (hwidth : bits ≤ if isIP network = 4 then 32 else 128) (hin : InBlock a bits y) :
    cidrContains T cidr form = true := by
  rw [cidrContains, hcut]
  dsimp only
  cases a with
  | v4 n =>
      cases y with
      | v4 m =>
          have hip := isIP_v4 hnetwork
          have hip' := isIP_v4 hform
          rw [if_neg (by rw [hip, hip']; decide), hbits]
          rw [if_pos hip] at hwidth
          dsimp only
          rw [if_pos hip]
          exact cidrIpv4Match_of_number (read_v4 hnetwork) (read_v4 hform) hwidth hin
      | v6 m => exact hin.elim
  | v6 n =>
      cases y with
      | v4 m => exact hin.elim
      | v6 m =>
          have hip := isIP_v6 hnetwork
          have hip' := isIP_v6 hform
          obtain ⟨gs, hgs, rfl⟩ := read_v6 hform
          obtain ⟨hs, hhs, rfl⟩ := read_v6 hnetwork
          obtain ⟨hlen, hlt⟩ := readIpv6_groups hgs
          obtain ⟨hlen', hlt'⟩ := readIpv6_groups hhs
          have hno : ¬isIP network = 4 := by rw [hip]; decide
          rw [if_neg (by rw [hip, hip']; decide), hbits]
          rw [if_neg hno] at hwidth
          dsimp only
          rw [if_neg hno, cidrIpv6Match, if_neg (Nat.not_lt.mpr hwidth), ipv6ToBytes_of_read hT hgs,
            ipv6ToBytes_of_read hT hhs]
          exact prefixMatch_of_number hlen hlt hlen' hlt' hwidth hin

/-- The entry as `_listMatches` sees it matches a spelling. -/
def Matches (T : CaseTable) (e form : JsString) : Prop :=
  (if (cutSlash e).isSome then cidrContains T e form else e == form) = true

theorem matches_cidr {e network text form : JsString} (hcut : cutSlash e = some (network, text))
    (h : cidrContains T e form = true) : Matches T e form := by
  rw [Matches, hcut, Option.isSome_some, if_pos rfl]
  exact h

theorem matches_text {e : JsString} (h : unit '/' ∉ e) : Matches T e e := by
  rw [Matches, cutSlash_none h, Option.isSome_none, if_neg (by decide)]
  exact beq_self_eq_true e

theorem slash_canonText (hx : Said x) : unit '/' ∉ canonText x := by
  cases x with
  | v4 n => exact slash_dottedOf n
  | v6 n =>
      by_cases hmapped : n / 2 ^ 32 = 0xFFFF
      · rw [canonText_mapped hmapped]
        exact slash_dottedOf _
      · obtain ⟨gs, hlen, hlt, rfl⟩ := hx.groups
        exact slash_plain (canonText_plain hlen hlt hmapped)

/-- Low bits of numbers with the same leading bits. -/
theorem low_bits {k : Nat} (hk : k ≤ 32) (h : m / 2 ^ k = n / 2 ^ k) :
    m % 2 ^ 32 / 2 ^ k = n % 2 ^ 32 / 2 ^ k := by
  have hpow : 2 ^ 32 = 2 ^ k * 2 ^ (32 - k) := by
    rw [← Nat.pow_add, Nat.add_sub_cancel' hk]
  rw [hpow, Nat.mod_mul_right_div_self, Nat.mod_mul_right_div_self, h]

/-- A block of IPv4-mapped addresses, written as one of IPv4. -/
theorem mapped_block_matches (hT : T.Ascii) {k bits : Nat} (hbits : 96 ≤ bits) (hwidth : bits ≤ 128)
    (hnet : n / 2 ^ 32 = 0xFFFF) (hsame : m / 2 ^ (128 - bits) = n / 2 ^ (128 - bits))
    (hk : k = bits - 96) :
    Matches T (dottedOf (n % 2 ^ 32) ++ [unit '/'] ++ natText k) (canonText (.v6 m)) := by
  subst hk
  have hlow : ∀ v : Nat, v % 2 ^ 32 < 2 ^ 32 := fun v => Nat.mod_lt v (by decide)
  have hhost : m / 2 ^ 32 = 0xFFFF := by rw [div_pow_of_le (by omega) hsame, hnet]
  have hcut : cutSlash (dottedOf (n % 2 ^ 32) ++ [unit '/'] ++ natText (bits - 96)) =
      some (dottedOf (n % 2 ^ 32), natText (bits - 96)) := cutSlash_append (slash_dottedOf _)
  have hread : parseDecimal (natText (bits - 96)) = some (bits - 96) := by
    rw [parseDecimal_digits (natText_ne_nil _) (fun u hu => isDigitUnit_of_mem_natText hu),
      digitsValue_natText]
  refine matches_cidr hcut ?_
  rw [canonText_mapped hhost]
  refine cidrContains_of hT hcut hread (read_dottedOf (hlow n)) (read_dottedOf (hlow m)) ?_ ?_
  · rw [if_pos (isIP_v4 (read_dottedOf (hlow n)))]
    omega
  · have hsub : 32 - (bits - 96) = 128 - bits := by omega
    show _ / 2 ^ (32 - (bits - 96)) = _ / 2 ^ (32 - (bits - 96))
    rw [hsub]
    exact low_bits (by omega) hsame

theorem block_matches (hT : T.Ascii) {network text : JsString}
    (hcut : cutSlash entry = some (network, text)) (hnetwork : read network = some a)
    (hne : text ≠ []) (hdigits : ∀ u ∈ text, isDigitUnit u = true)
    (hwidth : digitsValue text ≤ if isIP network = 4 then 32 else 128) (hx : Said x)
    (hcounts : Counts x y) (hin : InBlock a (digitsValue text) y) :
    ∃ form ∈ spellings T x, Matches T (canonicalListEntry T entry) form := by
  have hkept : ∃ form ∈ spellings T x, Matches T entry form := by
    obtain ⟨form, hmem, hform⟩ := spelling_reads hT hx hcounts
    exact ⟨form, hmem, matches_cidr hcut (cidrContains_of hT hcut
      (parseDecimal_digits hne hdigits) hnetwork hform hwidth hin)⟩
  rw [canonicalListEntry, hcut]
  dsimp only
  split
  · exact hkept
  · next hsix =>
      split
      · exact hkept
      · next hbits =>
          split
          · exact hkept
          · next hmapped =>
              -- an IPv4-mapped block of 96 bits or more, written as one of IPv4
              have hip : isIP network = 6 := by
                by_contra hip
                exact hsix (Or.inl hip)
              cases a with
              | v4 n =>
                  rw [isIP_v4 hnetwork] at hip
                  cases hip
              | v6 n =>
                  cases y with
                  | v4 m => exact hin.elim
                  | v6 m =>
                      obtain ⟨gs, hgs, rfl⟩ := read_v6 hnetwork
                      obtain ⟨hlen, hlt⟩ := readIpv6_groups hgs
                      rw [ipv6ToBytes_of_read hT hgs] at hmapped ⊢
                      have hnet : groupsValue gs / 2 ^ 32 = 0xFFFF :=
                        (mapped_iff hlen hlt).mp (by simpa using hmapped)
                      have hself : x = .v6 m := by
                        rcases hcounts with heq | hcarried
                        · exact heq.symm
                        · obtain ⟨k, -, heq, -⟩ := spelling_carried hT hx hcarried
                          cases heq
                      subst hself
                      rw [dottedAt_last hlen hlt]
                      exact ⟨_, spelling_self, mapped_block_matches hT (by omega) (by omega) hnet
                        hin rfl⟩

/-! ## Deny lists -/

theorem mem_stripBrackets {u : UInt16} (h : u ∈ stripBrackets s) : u ∈ s := by
  have hlast : ∀ tail : JsString,
      u ∈ (if tail.getLast? = some (unit ']') then tail.dropLast else tail) → u ∈ tail := by
    intro tail h
    split at h
    · exact List.dropLast_subset tail h
    · exact h
  have htail := hlast _ h
  split at htail
  · exact List.drop_subset 1 s htail
  · exact htail

theorem canonicalizeHost_name (h : read (stripBrackets host) = none) :
    canonicalizeHost T host = hostName T host := by
  have hip : isIP (stripBrackets host) = 0 := by rw [isIP, h]
  rw [canonicalizeHost]
  split
  · next hempty =>
      subst hempty
      rfl
  · rw [if_neg (by rw [hip]; decide), if_neg (by rw [hip]; decide), hostName]

theorem slash_hostName (hslash : T.Documented [unit '/']) (h : unit '/' ∉ s) :
    unit '/' ∉ hostName T s := by
  intro hmem
  have hlower := (List.dropWhile_sublist _).subset (List.mem_reverse.mp hmem)
  rw [List.mem_reverse, mem_toLowerCase hslash List.mem_cons_self] at hlower
  exact h (mem_stripBrackets hlower)

theorem listEntryFine_natText {network text : JsString} (hfine : listEntryFine P entry = true)
    (hcut : cutSlash entry = some (network, text)) : natText (digitsValue text) = text := by
  rw [listEntryFine, hcut] at hfine
  simp only [Bool.and_eq_true, Bool.or_eq_true, decide_eq_true_eq, List.all_eq_true] at hfine
  exact natText_digitsValue hfine.1.1.1.2 hfine.1.1.2 hfine.1.2

theorem listEntryFine_cidr {network text : JsString} (hfine : listEntryFine P entry = true)
    (hcut : cutSlash entry = some (network, text)) : text ≠ [] ∧
      (∀ u ∈ text, isDigitUnit u = true) ∧
        digitsValue text ≤ if isIP network = 4 then 32 else 128 := by
  rw [listEntryFine, hcut] at hfine
  simp only [Bool.and_eq_true, decide_eq_true_eq, List.all_eq_true] at hfine
  exact ⟨hfine.1.1.1.2, hfine.1.1.2, hfine.2⟩

/-- A block of IPv4-mapped addresses matches what counts as an IPv4 address in it. -/
theorem mappedBlock_matches {network text : JsString} (hT : P.cases.Ascii)
    (hfine : listEntryFine P entry = true) (hcut : cutSlash entry = some (network, text))
    (hnetwork : read network = some (.v6 n)) (hmapped : n / 2 ^ 32 = 0xFFFF)
    (hlong : 96 ≤ digitsValue text) (hx : Said x) (hcounts : Counts x y)
    (hin : InBlock (.v4 (n % 2 ^ 32)) (digitsValue text - 96) y) :
    ∃ form ∈ spellings P.cases x, Matches P.cases (canonicalListEntry P.cases entry) form := by
  obtain ⟨-, -, hwidth⟩ := listEntryFine_cidr hfine hcut
  have hip := isIP_v6 hnetwork
  rw [if_neg (by rw [hip]; decide)] at hwidth
  obtain ⟨gs, hgs, rfl⟩ := read_v6 hnetwork
  obtain ⟨hlen, hlt⟩ := readIpv6_groups hgs
  have hentry : canonicalListEntry P.cases entry =
      dottedOf (groupsValue gs % 2 ^ 32) ++ [unit '/'] ++ natText (digitsValue text - 96) := by
    rw [canonicalListEntry, hcut]
    dsimp only
    rw [if_neg, if_neg, ipv6ToBytes_of_read hT hgs, (mapped_iff hlen hlt).mpr hmapped,
      dottedAt_last hlen hlt]
    · rfl
    · omega
    · rw [hip, listEntryFine_natText hfine hcut]
      simp
  have hlow : groupsValue gs % 2 ^ 32 < 2 ^ 32 := Nat.mod_lt _ (by decide)
  have hread : parseDecimal (natText (digitsValue text - 96)) = some (digitsValue text - 96) := by
    rw [parseDecimal_digits (natText_ne_nil _) (fun u hu => isDigitUnit_of_mem_natText hu),
      digitsValue_natText]
  obtain ⟨form, hmem, hform⟩ := spelling_reads hT hx hcounts
  refine ⟨form, hmem, ?_⟩
  rw [hentry]
  refine matches_cidr (cutSlash_append (slash_dottedOf _)) (cidrContains_of hT
    (cutSlash_append (slash_dottedOf _)) hread (read_dottedOf hlow) hform ?_ hin)
  rw [if_pos (isIP_v4 (read_dottedOf hlow))]
  omega

/-- A fine entry that covers a host matches one of its spellings. -/
theorem covers_matches (hT : P.cases.Ascii) (hslash : P.cases.Documented [unit '/'])
    (hfine : listEntryFine P entry = true) (hcovers : Covers P.cases entry host) :
    ∃ form ∈ hostSpellings P.cases (canonicalizeHost P.cases host) true,
      Matches P.cases (canonicalListEntry P.cases entry) form := by
  cases hcovers with
  | block hcut hnetwork hhost hcounts hin =>
      obtain ⟨hne, hdigits, hwidth⟩ := listEntryFine_cidr hfine hcut
      rw [canonText_read hT hhost]
      exact block_matches hT hcut hnetwork hne hdigits hwidth ⟨_, hhost⟩ hcounts hin
  | @address a x hcut hentry hhost hcounts =>
      have he : canonicalListEntry P.cases entry = canonText a := by
        rw [canonicalListEntry, hcut]
        exact canonText_read hT hentry
      rw [canonText_read hT hhost, he]
      exact ⟨_, spelling_canon hT ⟨_, hhost⟩ hcounts, matches_text (slash_canonText ⟨_, hentry⟩)⟩
  | mappedBlock hcut hnetwork hmapped hlong hhost hcounts hin =>
      rw [canonText_read hT hhost]
      exact mappedBlock_matches hT hfine hcut hnetwork hmapped hlong ⟨_, hhost⟩ hcounts hin
  | @mappedAddress n x hcut hentry hmapped hhost hcounts =>
      have he : canonicalListEntry P.cases entry = canonText (.v4 (n % 2 ^ 32)) := by
        rw [canonicalListEntry, hcut]
        exact (canonText_read hT hentry).trans (canonText_mapped hmapped)
      rw [canonText_read hT hhost, he]
      exact ⟨_, spelling_canon hT ⟨_, hhost⟩ hcounts, matches_text (slash_dottedOf _)⟩
  | name hcut hentry hhost hname =>
      have he : canonicalListEntry P.cases entry = canonicalizeHost P.cases host := by
        rw [canonicalListEntry, hcut]
        show canonicalizeHost P.cases entry = _
        rw [canonicalizeHost_name hentry, canonicalizeHost_name hhost, hname]
      have hself : canonicalizeHost P.cases host ∈
          hostSpellings P.cases (canonicalizeHost P.cases host) true := by
        rw [hostSpellings]
        repeat' split
        all_goals exact List.mem_cons_self
      refine ⟨_, hself, ?_⟩
      rw [he, canonicalizeHost_name hhost, ← hname]
      exact matches_text (slash_hostName hslash (slash_of_cutSlash hcut))

theorem listMatches_covered (hT : P.cases.Ascii) (hslash : P.cases.Documented [unit '/'])
    {deny denyList : List JsString} (hchecked : checkedList P deny = .ok denyList)
    (hentry : entry ∈ deny) (hcovers : Covers P.cases entry host) :
    listMatches P.cases denyList host true = true := by
  rw [checkedList] at hchecked
  split at hchecked
  · next hall =>
      cases hchecked
      have hfine := List.all_eq_true.mp hall entry hentry
      obtain ⟨form, hform, hmatches⟩ := covers_matches hT hslash hfine hcovers
      rw [listMatches, List.any_eq_true]
      exact ⟨_, List.mem_map_of_mem hentry, List.any_eq_true.mpr ⟨form, hform, hmatches⟩⟩
  · cases hchecked

/-! ## Cloud metadata -/

theorem isCloudMetadataAddr_v4 {ip : JsString} (h : read ip = some (.v4 n))
    (hn : .v4 n ∈ metadata) : isCloudMetadataAddr T ip = true := by
  have hip := isIP_v4 h
  rw [isCloudMetadataAddr, if_neg (by rw [hip]; decide), if_pos hip, ipv4ToBytes,
    ipv4ToInt_of_read (read_v4 h)]
  simp only [metadata, List.mem_cons, Address.v4.injEq, reduceCtorEq, List.not_mem_nil,
    or_false] at hn
  rcases hn with rfl | rfl
  · decide
  · decide

theorem isCloudMetadataAddr_v6 {ip : JsString} (hT : T.Ascii) (h : read ip = some (.v6 n))
    (hn : .v6 n ∈ metadata) : isCloudMetadataAddr T ip = true := by
  have hip := isIP_v6 h
  obtain ⟨gs, hgs, rfl⟩ := read_v6 h
  obtain ⟨hlen, hlt⟩ := readIpv6_groups hgs
  rw [isCloudMetadataAddr, if_neg (by rw [hip]; decide), if_neg (by rw [hip]; decide),
    ipv6ToBytes_of_read hT hgs]
  simp only [metadata, List.mem_cons, Address.v6.injEq, reduceCtorEq, List.not_mem_nil,
    or_false, false_or] at hn
  have hback := groupsAt_value hlen hlt
  rw [hn] at hback
  rw [← hback]
  decide

theorem classifyIpv4_metadata (h : .v4 n ∈ metadata) :
    classifyIpv4 T (dottedOf n) = some .cloudMetadata := by
  have hlt : n < 2 ^ 32 := by
    simp only [metadata, List.mem_cons, Address.v4.injEq, reduceCtorEq, List.not_mem_nil,
      or_false] at h
    omega
  have hread := read_dottedOf hlt
  rw [classifyIpv4, if_neg (by rw [isIP_v4 hread]; decide),
    if_pos (isCloudMetadataAddr_v4 hread h)]

/-- No table of `classify` has an address that carries an IPv4 address. -/
theorem ipv6Tables_carried (hlen : gs.length = 8) (hlt : ∀ g ∈ gs, g < 65536)
    (h : carried (.v6 (groupsValue gs)) = some y) :
    (ipv6Tables.find? fun (_, prefixBytes, bits) =>
      ipv6PrefixMatch prefixBytes bits (bytesOf gs)) = none := by
  obtain ⟨a, b, c, d, e, f, g, i, rfl, ha, hb, hc, hd, he, hf, hg, hi⟩ := exists_eight hlen hlt
  have hcases : (a = 0 ∧ b = 0 ∧ c = 0 ∧ d = 0 ∧ e = 0 ∧ f = 0xFFFF) ∨ a = 0x2002 ∨
      (a = 0x64 ∧ b = 0xFF9B) := by
    simp only [groupsValue, List.foldl_cons, List.foldl_nil] at h
    rw [carried] at h
    split at h
    · left
      omega
    · split at h
      · right
        left
        omega
      · split at h
        · right
          right
          omega
        · cases h
  rcases hcases with ⟨rfl, rfl, rfl, rfl, rfl, rfl⟩ | rfl | ⟨rfl, rfl⟩
  all_goals simp [ipv6Tables, ipv6PrefixMatch, bytesOf, byteMask]

/-- `classify` knows the addresses of the metadata services, also where they are carried. -/
theorem classify_metadata {ip : JsString} (hT : T.Ascii) (h : read ip = some x)
    (hcounts : Counts x y) (hy : y ∈ metadata) : classify T ip = some .cloudMetadata := by
  have hzero : ¬isIP ip = 0 := by
    cases x with
    | v4 n =>
        rw [isIP_v4 h]
        decide
    | v6 n =>
        rw [isIP_v6 h]
        decide
  rw [classify, if_neg hzero]
  rcases hcounts with rfl | hcarried
  · have haddr : isCloudMetadataAddr T ip = true := by
      cases y with
      | v4 n => exact isCloudMetadataAddr_v4 h hy
      | v6 n => exact isCloudMetadataAddr_v6 hT h hy
    rw [if_pos haddr]
  · cases x with
    | v4 n => cases hcarried
    | v6 n =>
        split
        · rfl
        · have hip := isIP_v6 h
          obtain ⟨gs, hgs, rfl⟩ := read_v6 h
          obtain ⟨hlen, hlt⟩ := readIpv6_groups hgs
          rw [if_neg (by rw [hip]; decide), ipv6ToBytes_of_read hT hgs]
          dsimp only
          rw [ipv6Tables_carried hlen hlt hcarried]
          dsimp only
          by_cases hmapped : groupsValue gs / 2 ^ 32 = 0xFFFF
          · rw [carried_mapped hmapped] at hcarried
            cases hcarried
            have hwrapped : wrappedIpv4 (bytesOf gs) = none := by
              rw [wrappedIpv4, if_neg, if_neg]
              · rw [nat64_iff hlen hlt]
                omega
              · rw [sixToFour_iff hlen hlt]
                omega
            rw [hwrapped]
            dsimp only
            rw [if_pos ((mapped_iff hlen hlt).mpr hmapped), dottedAt_last hlen hlt]
            exact classifyIpv4_metadata hy
          · obtain ⟨m, hm, rfl, hwrapped⟩ := wrappedIpv4_carried hlen hlt hmapped hcarried
            rw [hwrapped]
            dsimp only
            rw [classifyIpv4_metadata hy]
            rfl

theorem checkUrl_metadata {url : JsString} {ips : List JsString} (hT : P.cases.Ascii)
    (h : checkUrl P url = .ok ips) {ip : JsString} (hip : ip ∈ ips) (hx : read ip = some x)
    (hcounts : Counts x y) : y ∉ metadata := by
  intro hy
  rw [checkUrl] at h
  split at h
  · cases h
  · dsimp only at h
    split at h
    · cases h
    · split at h
      · cases h
      · next ips' _ =>
          split at h
          · cases h
          · next hnone =>
              cases h
              refine hnone (List.any_eq_true.mpr ⟨ip, hip, ?_⟩)
              exact decide_eq_true (classify_metadata hT hx hcounts hy)

/-! ## The allowlist -/

/-- What an allowlist lets through is covered by none of its deny entries, neither the host
of the URL nor an address it is resolved to, and is no address of a metadata service. -/
theorem allowlist_denies (hT : P.cases.Ascii) (hslash : P.cases.Documented [unit '/'])
    {allow deny : List JsString} {l : Allowlist} {url : JsString} {ips : List JsString}
    (hcreate : createAllowlist P allow deny = .ok l) (hassert : l.assertUrl P url = .ok ips) :
    ∃ parsed, P.parse url = some parsed ∧
      (∀ entry ∈ deny, ¬Covers P.cases entry parsed.hostname ∧
        ∀ ip ∈ ips, ¬Covers P.cases entry ip) ∧
      ∀ ip ∈ ips, ∀ x y, read ip = some x → Counts x y → y ∉ metadata := by
  have hdeny : checkedList P deny = .ok l.denyList := by
    rw [createAllowlist] at hcreate
    obtain ⟨allowList, hallow, hcreate⟩ := Checked.bind_eq_ok.mp hcreate
    obtain ⟨denyList, hdeny, hcreate⟩ := Checked.bind_eq_ok.mp hcreate
    split at hcreate
    · cases hcreate
    · cases hcreate
      exact hdeny
  rw [Allowlist.assertUrl] at hassert
  split at hassert
  · cases hassert
  · next parsed hparsed =>
      split at hassert
      · cases hassert
      · split at hassert
        · cases hassert
        · next hhost =>
            obtain ⟨ips', hips, hassert⟩ := Checked.bind_eq_ok.mp hassert
            split at hassert
            · cases hassert
            · next hlist =>
                cases hassert
                refine ⟨parsed, hparsed, fun entry hentry => ⟨fun hcovers => ?_, ?_⟩, ?_⟩
                · exact hhost (listMatches_covered hT hslash hdeny hentry hcovers)
                · intro ip hip hcovers
                  refine hlist (List.any_eq_true.mpr ⟨ip, hip, ?_⟩)
                  exact listMatches_covered hT hslash hdeny hentry hcovers
                · intro ip hip x y hx hcounts
                  exact checkUrl_metadata hT hips hip hx hcounts

/-- A partner whose name the resolver knows. -/
def partner : Platform where
  cases := asciiCases
  parse url :=
    if url = units "https://a.example/" ∨ url = units "http://a.example/" then
      some ⟨units "a.example", url⟩
    else none
  safeParse _ := some (units "a.example")
  lookup _ := some [units "::ffff:203.0.113.7"]

theorem allowlist_denies_partner : ∃ parsed,
    partner.parse (units "https://a.example/") = some parsed ∧
    (∀ entry ∈ [units "203.0.113.8/30"], ¬Covers partner.cases entry parsed.hostname ∧
      ∀ ip ∈ [units "::ffff:203.0.113.7"], ¬Covers partner.cases entry ip) ∧
    ∀ ip ∈ [units "::ffff:203.0.113.7"], ∀ x y, read ip = some x → Counts x y → y ∉ metadata := by
  have hcreate : createAllowlist partner [units "a.example"] [units "203.0.113.8/30"] =
      .ok ⟨[units "a.example"], [units "203.0.113.8/30"]⟩ := by decide
  have hassert : Allowlist.assertUrl ⟨[units "a.example"], [units "203.0.113.8/30"]⟩ partner
      (units "https://a.example/") = .ok [units "::ffff:203.0.113.7"] := by decide +kernel
  exact allowlist_denies (fun _ _ => rfl) (asciiCases_documented (by decide)) hcreate hassert

end Blamejs.SsrfGuard
