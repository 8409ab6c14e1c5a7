import Blamejs.Ref.IpUtils
import Blamejs.Proofs.SsrfGuard

/-!
# IPv6 texts name the same addresses everywhere

What both readings of a literal do is settled on plain texts, to which a dotted quad at the end
is reduced by both in the same way. Both writings give literals, so each reading takes either
back to the bytes.
-/

namespace Blamejs.IpUtils

open Blamejs.Js IpAddress SsrfGuard

variable {s p : JsString} {ps : List JsString} {gs : List Nat} {g n : Nat}

/-! ## Groups -/

theorem isHexUnit_of_digit {u : UInt16} (h : digitValue u < 16) : isHexUnit u = true := by
  have hall : ∀ m < 0x80, digitValue (UInt16.ofNat m) < 16 → isHexUnit (UInt16.ofNat m) = true := by
    decide +kernel
  have hu := hall u.toNat (ascii_of_digit (by omega))
  rw [UInt16.ofNat_toNat] at hu
  exact hu h

theorem hexNumber_zeros (k : Nat) (p : JsString) :
    hexNumber (List.replicate k (unit '0') ++ p) = hexNumber p := by
  induction k with
  | zero => rfl
  | succ k ih => exact ih

theorem hexBytes_padGroup (h : hexGroup p = some g) (rest : JsString) :
    hexBytes (padGroup p ++ rest) = g / 2 ^ 8 :: g % 2 ^ 8 :: hexBytes rest := by
  obtain ⟨-, hlen, hdigits, rfl⟩ := hexGroup_some h
  have hvalue : hexNumber (padGroup p) = hexNumber p := by
    rw [padGroup, hexNumber_zeros, hexNumber_small]
  have hpad : (padGroup p).length = 4 := by
    rw [padGroup, List.length_append, List.length_replicate, List.length_map]
    omega
  have hall : ∀ u ∈ padGroup p, digitValue u < 16 := by
    intro u hu
    rcases List.mem_append.mp hu with hu | hu
    · rw [List.eq_of_mem_replicate hu]
      decide
    · obtain ⟨v, hv, rfl⟩ := List.mem_map.mp hu
      rw [digitValue_smallUnit]
      exact hdigits v hv
  rw [← hvalue]
  generalize padGroup p = q at hpad hall ⊢
  obtain ⟨a, b, c, d, rfl⟩ := List.length_eq_four.mp hpad
  simp only [List.forall_mem_cons] at hall
  obtain ⟨ha, hb, hc, hd, -⟩ := hall
  simp only [List.cons_append, List.nil_append, hexBytes, hexNumber, List.foldl_cons,
    List.foldl_nil, List.cons.injEq, and_true]
  omega

theorem hexBytes_groups (h : Hex ps gs) : hexBytes (ps.flatMap padGroup) = bytesOf gs := by
  induction h with
  | nil => rfl
  | cons hp _ ih =>
      rw [List.flatMap_cons, hexBytes_padGroup hp, ih]
      rfl

theorem groupOk_of_hex (h : Hex ps gs) : ps.all groupOk = true := by
  induction h with
  | nil => rfl
  | cons hp _ ih =>
      obtain ⟨hne, hlen, hdigits, -⟩ := hexGroup_some hp
      rw [List.all_cons, ih, Bool.and_true, groupOk]
      simp only [ne_eq, hne, not_false_eq_true, decide_true, hlen, Bool.true_and, List.all_eq_true]
      exact fun u hu => isHexUnit_of_digit (hdigits u hu)

/-- Plain texts have their groups filled in. -/
theorem fillGroups_plain (h : Plain s gs) : ∃ ps, fillGroups s = some ps ∧ Hex ps gs := by
  cases h with
  | @full ps gs hps hlen =>
      refine ⟨ps, ?_, hps⟩
      rw [fillGroups, cutDouble_joined hps.piece]
      dsimp only
      rw [pieces_joined hps.piece, if_pos (hps.length_eq.trans hlen)]
  | @short ps qs gs hs hps hqs hlen =>
      refine ⟨ps ++ List.replicate (8 - ps.length - qs.length) (units "0") ++ qs, ?_, ?_⟩
      · have hcount := hps.length_eq
        have hcount' := hqs.length_eq
        rw [fillGroups, cutDouble_joined_double hps.piece]
        dsimp only
        rw [cutDouble_joined hqs.piece, if_neg (by decide), pieces_joined hps.piece,
          pieces_joined hqs.piece, if_neg (by omega)]
      · rw [hps.length_eq, hqs.length_eq]
        refine List.rel_append (List.rel_append hps ?_) hqs
        generalize 8 - gs.length - hs.length = k
        induction k with
        | zero => exact .nil
        | succ k ih => exact .cons (by decide) ih

theorem expandIpv6Hex_plain {t : JsString} (hfold : foldDual s = some t) (h : Plain t gs) :
    (expandIpv6Hex s).map hexBytes = some (bytesOf gs) := by
  obtain ⟨ps, hfill, hps⟩ := fillGroups_plain h
  have hhex : expandIpv6Hex s = some (ps.flatMap padGroup) := by
    rw [expandIpv6Hex, hfold, Option.bind_eq_bind, Option.bind_some, hfill]
    exact if_pos (groupOk_of_hex hps)
  rw [hhex, Option.map_some, hexBytes_groups hps]

/-! ## Dotted quads -/

theorem foldDual_plain (h : dot ∉ s) : foldDual s = some s := by
  have hquad : quadShape (cutLastColon s).2 = false := by
    rw [quadShape, List.splitOn_eq_singleton fun hmem => h (mem_cutLastColon hmem)]
    rfl
  rw [foldDual]
  dsimp only
  rw [hquad, Bool.and_false, Bool.false_and, if_neg Bool.false_ne_true]

theorem octetShape_natText {m : Nat} (h : m ≤ 255) : octetShape (natText m) = true := by
  have hall : ∀ m < 256, octetShape (natText m) = true := by decide +kernel
  exact hall m (by omega)

theorem foldDual_dotted {front : JsString} (hp : readIpv4 p = some n)
    (hfront : ∀ u ∈ front, u ∉ lineEnds) :
    foldDual (front ++ colon :: p) = some (front ++ colon :: tailText n) := by
  obtain ⟨a, b, c, d, ha, hb, hc, hd, rfl, rfl⟩ := readIpv4_some hp
  have hsplit := splitOn_dotted a b c d
  have hoctet : ∀ q ∈ [natText a, natText b, natText c, natText d], octetShape q = true := by
    simp only [List.forall_mem_cons]
    exact ⟨octetShape_natText ha, octetShape_natText hb, octetShape_natText hc,
      octetShape_natText hd, by simp⟩
  have hip : isIPv4 (dotted a b c d) = true := by
    rw [isIPv4, hsplit, List.all_eq_true.mpr hoctet]
    rfl
  have hquad : quadShape (dotted a b c d) = true := by
    rw [quadShape, hsplit]
    refine Bool.and_eq_true_iff.mpr ⟨rfl, List.all_eq_true.mpr fun q hq => ?_⟩
    have := hoctet q hq
    simp only [octetShape, Bool.and_eq_true, decide_eq_true_eq] at this ⊢
    exact ⟨⟨List.length_pos_iff.mpr this.1.1.1.1, this.1.1.1.2⟩, this.1.1.2⟩
  have hends : (front ++ [colon]).all (· ∉ lineEnds) = true := by
    refine List.all_eq_true.mpr fun u hu => decide_eq_true ?_
    rcases List.mem_append.mp hu with hu | hu
    · exact hfront u hu
    · rw [List.mem_singleton.mp hu]
      decide
  have hgroups : quadGroups (dotted a b c d) =
      tailText (a * 2 ^ 24 + b * 2 ^ 16 + c * 2 ^ 8 + d) := by
    rw [quadGroups, hsplit]
    simp only [List.map_cons, List.map_nil, digitsValue_natText]
    show hexText (a * 2 ^ 8 + b) ++ [colon] ++ hexText (c * 2 ^ 8 + d) = _
    rw [tailText, show (a * 2 ^ 24 + b * 2 ^ 16 + c * 2 ^ 8 + d) / 65536 = a * 2 ^ 8 + b by omega,
      show (a * 2 ^ 24 + b * 2 ^ 16 + c * 2 ^ 8 + d) % 65536 = c * 2 ^ 8 + d by omega,
      List.append_assoc]
    rfl
  rw [foldDual, cutLastColon_append front (ipv4_colon hp)]
  dsimp only
  rw [hquad, hends, if_pos (by simp), if_pos hip, hgroups, List.append_assoc]
  rfl

/-- A literal without a zone. -/
theorem expandIpv6Hex_read (h : readBody s = some gs) :
    (expandIpv6Hex s).map hexBytes = some (bytesOf gs) := by
  rcases plain_of_readBody h with hplain | ⟨front, p, n, rfl, hp, hplain⟩
  · exact expandIpv6Hex_plain (foldDual_plain hplain.dot_not_mem) hplain
  · refine expandIpv6Hex_plain (foldDual_dotted hp fun u hu => ?_) hplain
    rcases hplain.mem (List.mem_append_left _ hu) with rfl | hdigit
    · decide
    · intro hmem
      have hall : lineEnds.all (fun u => decide (16 ≤ digitValue u)) = true := by decide
      have := of_decide_eq_true (List.all_eq_true.mp hall u hmem)
      omega

/-! ## Units of a literal -/

/-- What a literal is made of. -/
def literalUnit (u : UInt16) : Bool := zoneUnit u || u = percent

theorem digitValue_decimal {u : UInt16} (h : 48 ≤ u.toNat ∧ u.toNat ≤ 57) : digitValue u < 16 := by
  have hall : ∀ m < 58, 48 ≤ m → digitValue (UInt16.ofNat m) < 16 := by decide +kernel
  have := hall u.toNat (by omega) h.1
  rwa [UInt16.ofNat_toNat] at this

theorem zoneUnit_digit {u : UInt16} (h : digitValue u < 16) : zoneUnit u = true := by
  simp only [zoneUnit, Bool.or_eq_true, decide_eq_true_eq]
  exact Or.inl (Or.inl (Or.inl (by omega)))

theorem units_readBody (h : readBody s = some gs) : ∀ u ∈ s, u ≠ percent ∧ zoneUnit u = true := by
  have hdigit : ∀ {u : UInt16}, u = colon ∨ digitValue u < 16 →
      u ≠ percent ∧ zoneUnit u = true := by
    rintro u (rfl | hu)
    · decide
    · exact ⟨fun heq => absurd (heq ▸ hu) (by decide), zoneUnit_digit hu⟩
  intro u hu
  rcases plain_of_readBody h with hplain | ⟨front, p, n, rfl, hp, hplain⟩
  · exact hdigit (hplain.mem hu)
  · rcases List.mem_append.mp hu with hu | hu
    · exact hdigit (hplain.mem (List.mem_append_left _ hu))
    · rcases List.mem_cons.mp hu with rfl | hu
      · decide
      · rcases ipv4_units hp u hu with rfl | hrange
        · decide
        · exact hdigit (Or.inr (digitValue_decimal hrange))

theorem readIpv6_body (h : readBody s = some gs) : readIpv6 s = some gs := by
  have hzone : s.dropWhile (· ≠ percent) = [] :=
    List.dropWhile_eq_nil_iff.mpr fun u hu => decide_eq_true (units_readBody h u hu).1
  rw [readIpv6, hzone]
  exact h

theorem units_read {x : Address} (h : read s = some x) : ∀ u ∈ s, literalUnit u = true := by
  intro u hu
  cases x with
  | v4 n =>
      rcases ipv4_units (read_v4 h) u hu with rfl | hrange
      · decide
      · exact Bool.or_eq_true_iff.mpr (Or.inl (zoneUnit_digit (digitValue_decimal hrange)))
  | v6 n =>
      obtain ⟨gs, hgs, -⟩ := read_v6 h
      rw [readIpv6] at hgs
      have hcut := @List.takeWhile_append_dropWhile _ (fun u => decide (u ≠ percent)) s
      have hhead := List.head?_dropWhile_not (fun u => decide (u ≠ percent)) s
      rw [← hcut] at hu
      split at hgs
      · next hnil =>
          rw [hcut] at hu
          exact Bool.or_eq_true_iff.mpr (Or.inl (units_readBody hgs u hu).2)
      · next v zone hdrop =>
          split at hgs
          · next hzone =>
              rw [hdrop] at hu
              rcases List.mem_append.mp hu with hu | hu
              · exact Bool.or_eq_true_iff.mpr (Or.inl (units_readBody hgs u hu).2)
              · rcases List.mem_cons.mp hu with rfl | hu
                · rw [hdrop] at hhead
                  exact Bool.or_eq_true_iff.mpr (Or.inr (by simpa using hhead))
                · exact Bool.or_eq_true_iff.mpr (Or.inl (List.all_eq_true.mp hzone.2 u hu))
          · cases hgs

theorem stripBrackets_read {x : Address} (h : read s = some x) : stripBrackets s = s := by
  have hunits := units_read h
  have hopen : s.head? ≠ some (unit '[') := fun hhead =>
    absurd (hunits _ (List.mem_of_mem_head? hhead)) (by decide)
  have hclose : s.getLast? ≠ some (unit ']') := fun hlast =>
    absurd (hunits _ (List.mem_of_mem_getLast? hlast)) (by decide)
  rw [stripBrackets, if_neg hopen]
  exact if_neg hclose

theorem slash_read {x : Address} (h : read s = some x) : unit '/' ∉ s :=
  fun hmem => absurd (units_read h _ hmem) (by decide)

/-! ## `_formatIpv6` -/

/-- No run is open, or found, without a group in it. -/
structure Started (r : Runs) : Prop where
  cur : r.cur = none → r.curLen = 0
  best : r.best = none → r.bestLen = 0

theorem formatRun_read {r : Runs} (h : Started r) (i group : Nat) :
    formatRun r i group = r.read i group ∧ Started (r.read i group) := by
  have hsome : ∀ {a k : Nat}, some a = none → k = 0 := by
    intro a k hnone
    cases hnone
  rw [formatRun, Runs.read]
  split
  · cases hcur : r.cur with
    | none =>
        rw [h.cur hcur]
        dsimp only [Option.getD_none]
        rw [Nat.zero_add]
        split
        · exact ⟨rfl, hsome, hsome⟩
        · exact ⟨rfl, hsome, h.best⟩
    | some c =>
        dsimp only [Option.getD_some]
        split
        · exact ⟨rfl, hsome, hsome⟩
        · exact ⟨rfl, hsome, h.best⟩
  · exact ⟨rfl, fun _ => rfl, h.best⟩

theorem formatRuns_read {r : Runs} (h : Started r) (i : Nat) (groups : List Nat) :
    formatRuns r i groups = readRuns r i groups ∧ Started (readRuns r i groups) := by
  induction groups generalizing r i with
  | nil => exact ⟨rfl, h⟩
  | cons group rest ih =>
      obtain ⟨heq, hnext⟩ := formatRun_read h i group
      rw [formatRuns, readRuns, heq]
      exact ih hnext (i + 1)

theorem readBody_formatIpv6 (hlen : gs.length = 8) (hlt : ∀ g ∈ gs, g < 65536) :
    readBody (formatIpv6 (bytesOf gs)) = some gs := by
  rw [formatIpv6, groupsOf_bytesOf hlt]
  dsimp only
  split
  · next hmapped =>
      have htail := dottedAt_last hlen hlt
      obtain ⟨a, b, c, d, e, f, g, h, rfl, ha, hb, hc, hd, he, hf, hg, hh⟩ := exists_eight hlen hlt
      simp only [List.take_succ_cons, List.take_zero, List.all_cons, List.all_nil, Bool.and_true,
        Bool.and_eq_true, decide_eq_true_eq, List.getD_cons_succ, List.getD_cons_zero] at hmapped
      obtain ⟨⟨rfl, rfl, rfl, rfl, rfl⟩, rfl⟩ := hmapped
      have hvalue : groupsValue [0, 0, 0, 0, 0, 0xFFFF, g, h] % 2 ^ 32 = g * 65536 + h := by
        simp only [groupsValue, List.foldl_cons, List.foldl_nil]
        omega
      rw [htail, hvalue]
      refine (readBody_mapped (by omega)).trans ?_
      rw [show (g * 65536 + h) / 65536 = g by omega, show (g * 65536 + h) % 65536 = h by omega]
  · obtain ⟨hruns, hstarted⟩ := formatRuns_read (r := ⟨none, 0, none, 0⟩)
      ⟨fun _ => rfl, fun _ => rfl⟩ 0 gs
    rw [hruns]
    refine readBody_of_plain ?_
    split
    · exact .full (hex_map hlt) hlen
    · next hlong =>
        cases hbest : (readRuns ⟨none, 0, none, 0⟩ 0 gs).best with
        | none =>
            rw [hstarted.best hbest] at hlong
            exact absurd (by decide) hlong
        | some b =>
            have hrun : bestRun gs = (some b, (readRuns ⟨none, 0, none, 0⟩ 0 gs).bestLen) := by
              rw [bestRun, if_neg hlong, hbest]
            obtain ⟨htwo, hle, hzeros⟩ := bestRun_zeros hrun
            generalize (readRuns ⟨none, 0, none, 0⟩ 0 gs).bestLen = len at *
            have hsplit := hzeros.split
            have htake : (gs.take b).length = b := by rw [List.length_take]; omega
            have hdrop : (gs.drop (b + len)).length = 8 - b - len := by
              rw [List.length_drop]
              omega
            have hplain := @Plain.short _ _ (gs.take b) (gs.drop (b + len))
              (hex_map fun g hg => hlt g (List.mem_of_mem_take hg))
              (hex_map fun g hg => hlt g (List.mem_of_mem_drop hg)) (by omega)
            rw [htake, hdrop, show 8 - b - (8 - b - len) = len by omega, ← hsplit] at hplain
            rw [Option.getD_some, ← List.map_take, ← List.map_drop, List.append_assoc]
            exact hplain

/-- Pairs of bytes are groups. -/
theorem exists_groups {k : Nat} {bs : List Nat} (hlen : bs.length = 2 * k)
    (hlt : ∀ b ∈ bs, b < 256) :
    ∃ gs, gs.length = k ∧ (∀ g ∈ gs, g < 65536) ∧ bs = bytesOf gs := by
  induction k generalizing bs with
  | zero => exact ⟨[], rfl, by simp, List.length_eq_zero_iff.mp hlen⟩
  | succ k ih =>
      obtain ⟨a, rest, rfl⟩ := List.exists_cons_of_length_eq_add_one hlen
      rw [List.length_cons] at hlen
      obtain ⟨b, bs, rfl⟩ := List.exists_cons_of_length_pos (show 0 < rest.length by omega)
      rw [List.length_cons] at hlen
      obtain ⟨ha, hrest⟩ := List.forall_mem_cons.mp hlt
      obtain ⟨hb, hbs⟩ := List.forall_mem_cons.mp hrest
      obtain ⟨gs, hgs, hgroups, rfl⟩ := ih (by omega) hbs
      refine ⟨(a * 2 ^ 8 + b) :: gs, by rw [List.length_cons, hgs],
        List.forall_mem_cons.mpr ⟨by omega, hgroups⟩, ?_⟩
      show _ = (a * 2 ^ 8 + b) / 2 ^ 8 :: (a * 2 ^ 8 + b) % 2 ^ 8 :: bytesOf gs
      rw [show (a * 2 ^ 8 + b) / 2 ^ 8 = a by omega, show (a * 2 ^ 8 + b) % 2 ^ 8 = b by omega]

/-! ## Canonical hosts -/

variable {T : CaseTable} {x y : Address} {host : JsString}

/-- The address with IPv4-mapped ones as those they are mapped from. -/
def named : Address → Address
  | .v4 n => .v4 n
  | .v6 n => if n / 2 ^ 32 = 0xFFFF then .v4 (n % 2 ^ 32) else .v6 n

theorem read_canonText (hx : Said x) : read (canonText x) = some (named x) := by
  cases x with
  | v4 n => exact read_dottedOf hx.v4_lt
  | v6 n =>
      rw [named]
      split
      · next hmapped =>
          rw [canonText_mapped hmapped]
          exact read_dottedOf (Nat.mod_lt _ (by decide))
      · next hmapped =>
          obtain ⟨gs, hlen, hlt, rfl⟩ := hx.groups
          exact read_plain (canonText_plain hlen hlt hmapped)

theorem canonText_named (x : Address) : canonText (named x) = canonText x := by
  cases x with
  | v4 n => rfl
  | v6 n =>
      rw [named]
      split
      · next hmapped => exact (canonText_mapped hmapped).symm
      · rfl

theorem canonText_eq_iff (hx : Said x) (hy : Said y) :
    canonText x = canonText y ↔ named x = named y := by
  constructor
  · intro h
    have hread := read_canonText hx
    rw [h, read_canonText hy] at hread
    exact (Option.some.inj hread).symm
  · intro h
    rw [← canonText_named x, h, canonText_named]

theorem canonicalizeHost_canonText (hT : T.Ascii) (hx : Said x) :
    canonicalizeHost T (canonText x) = canonText x := by
  have hread := read_canonText hx
  rw [canonText_read hT ((stripBrackets_read hread).symm ▸ hread), canonText_named]

/-! ## `classify` -/

theorem bytes_read (hT : T.Ascii) (h : read s = some (.v6 n)) :
    ipv6ToBytes T s = bytesOf (groupsAt n) := by
  obtain ⟨gs, hgs, rfl⟩ := read_v6 h
  obtain ⟨hlen, hlt⟩ := readIpv6_groups hgs
  rw [ipv6ToBytes_of_read hT hgs, groupsAt_value hlen hlt]

theorem isCloudMetadataAddr_congr {t : JsString} (hT : T.Ascii) (h : read s = some x)
    (h' : read t = some x) : isCloudMetadataAddr T s = isCloudMetadataAddr T t := by
  cases x with
  | v4 n =>
      rw [isCloudMetadataAddr, isCloudMetadataAddr, isIP_v4 h, isIP_v4 h', ipv4ToBytes, ipv4ToBytes,
        ipv4ToInt_of_read (read_v4 h), ipv4ToInt_of_read (read_v4 h'), if_pos rfl, if_pos rfl]
  | v6 n =>
      rw [isCloudMetadataAddr, isCloudMetadataAddr, isIP_v6 h, isIP_v6 h', bytes_read hT h,
        bytes_read hT h', if_neg (by decide), if_neg (by decide), if_neg (by decide),
        if_neg (by decide)]

theorem classifyIpv4_congr {t : JsString} (hT : T.Ascii) (h : read s = some (.v4 n))
    (h' : read t = some (.v4 n)) : classifyIpv4 T s = classifyIpv4 T t := by
  rw [classifyIpv4, classifyIpv4, isIP_v4 h, isIP_v4 h', isCloudMetadataAddr_congr hT h h',
    ipv4ToInt_of_read (read_v4 h), ipv4ToInt_of_read (read_v4 h')]

/-- `classify` sees the address alone. -/
theorem classify_congr {t : JsString} (hT : T.Ascii) (h : read s = some x) (h' : read t = some x) :
    classify T s = classify T t := by
  cases x with
  | v4 n =>
      unfold classify
      rw [isIP_v4 h, isIP_v4 h', isCloudMetadataAddr_congr hT h h', classifyIpv4_congr hT h h',
        if_pos rfl, if_pos rfl]
  | v6 n =>
      unfold classify
      rw [isIP_v6 h, isIP_v6 h', isCloudMetadataAddr_congr hT h h', bytes_read hT h,
        bytes_read hT h', if_neg (show ¬6 = 4 by decide), if_neg (show ¬6 = 4 by decide)]

/-- An IPv4-mapped address is classified as the one it is mapped from. -/
theorem classify_mapped (hT : T.Ascii) (h : read s = some (.v6 n)) (hmapped : n / 2 ^ 32 = 0xFFFF) :
    classify T s = classify T (dottedOf (n % 2 ^ 32)) := by
  have hfour := isIP_v4 (read_dottedOf (Nat.mod_lt n (show 0 < 2 ^ 32 by decide)))
  have hsix := isIP_v6 h
  have hplain : classify T (dottedOf (n % 2 ^ 32)) = classifyIpv4 T (dottedOf (n % 2 ^ 32)) := by
    rw [classify, if_neg (by rw [hfour]; decide), if_pos hfour]
    split
    · next hcloud => rw [classifyIpv4, if_neg (by rw [hfour]; decide), if_pos hcloud]
    · rfl
  rw [hplain]
  obtain ⟨gs, hgs, rfl⟩ := read_v6 h
  obtain ⟨hlen, hlt⟩ := readIpv6_groups hgs
  have hcloud : isCloudMetadataAddr T s = false := by
    rw [isCloudMetadataAddr, if_neg (by rw [hsix]; decide), if_neg (by rw [hsix]; decide),
      ipv6ToBytes_of_read hT hgs]
    obtain ⟨a, b, c, d, e, f, g, i, rfl, ha, hb, hc, hd, he, hf, hg, hi⟩ := exists_eight hlen hlt
    have hfirst : a = 0 := by
      simp only [groupsValue, List.foldl_cons, List.foldl_nil] at hmapped
      omega
    subst hfirst
    simp [cloudMetadataBytes, bytesOf]
  have hwrapped : wrappedIpv4 (bytesOf gs) = none := by
    rw [wrappedIpv4, if_neg, if_neg]
    · rw [nat64_iff hlen hlt]
      omega
    · rw [sixToFour_iff hlen hlt]
      omega
  rw [classify, if_neg (by rw [hsix]; decide), hcloud, if_neg Bool.false_ne_true,
    if_neg (by rw [hsix]; decide), ipv6ToBytes_of_read hT hgs]
  dsimp only
  rw [ipv6Tables_carried hlen hlt (carried_mapped hmapped)]
  dsimp only
  rw [hwrapped]
  dsimp only
  rw [if_pos ((mapped_iff hlen hlt).mpr hmapped), dottedAt_last hlen hlt]

theorem classify_canonText (hT : T.Ascii) (h : read s = some x) :
    classify T (canonText x) = classify T s := by
  have hread := read_canonText ⟨s, h⟩
  cases x with
  | v4 n => exact classify_congr hT hread h
  | v6 n =>
      by_cases hmapped : n / 2 ^ 32 = 0xFFFF
      · rw [canonText_mapped hmapped, classify_mapped hT h hmapped]
      · rw [named, if_neg hmapped] at hread
        exact classify_congr hT hread h

/-! ## Leading bits -/

/-- A mask of ones over all but the low bits shows the others. -/
theorem div_of_mask {k w m : Nat} (hn : n < 2 ^ w) (hm : m < 2 ^ w)
    (h : n &&& (2 ^ w - 1) * 2 ^ k % 2 ^ w = m &&& (2 ^ w - 1) * 2 ^ k % 2 ^ w) :
    n / 2 ^ k = m / 2 ^ k := by
  refine Nat.eq_of_testBit_eq fun i => ?_
  rw [Nat.testBit_div_two_pow, Nat.testBit_div_two_pow]
  by_cases hi : i + k < w
  · have hbit := congrArg (Nat.testBit · (i + k)) h
    have hmask : ((2 ^ w - 1) * 2 ^ k % 2 ^ w).testBit (i + k) = true := by
      rw [Nat.testBit_mod_two_pow, Nat.testBit_mul_two_pow, Nat.add_sub_cancel,
        Nat.testBit_two_pow_sub_one]
      simp only [Bool.and_eq_true, decide_eq_true_eq]
      omega
    rwa [Nat.testBit_and, Nat.testBit_and, hmask, Bool.and_true, Bool.and_true] at hbit
  · have hpow : 2 ^ w ≤ 2 ^ (i + k) := Nat.pow_le_pow_right (by decide) (by omega)
    rw [Nat.testBit_lt_two_pow (Nat.lt_of_lt_of_le hn hpow),
      Nat.testBit_lt_two_pow (Nat.lt_of_lt_of_le hm hpow)]

/-- Buffers that match are numbers with the same leading bits. -/
theorem number_of_prefixMatch {hs : List Nat} (hgs : gs.length = 8) (hlt : ∀ g ∈ gs, g < 65536)
    (hhs : hs.length = 8) (hlt' : ∀ g ∈ hs, g < 65536) {bits : Nat} (hbits : bits ≤ 128)
    (h : ipv6PrefixMatch (bytesOf hs) bits (bytesOf gs) = true) :
    groupsValue gs / 2 ^ (128 - bits) = groupsValue hs / 2 ^ (128 - bits) := by
  rw [← bytesValue_bytesOf, ← bytesValue_bytesOf]
  have hlen := length_bytesOf gs
  have hlen' := length_bytesOf hs
  have hbyte := bytesOf_lt hlt
  have hbyte' := bytesOf_lt hlt'
  rw [hgs] at hlen
  rw [hhs] at hlen'
  generalize bytesOf gs = bs at *
  generalize bytesOf hs = cs at *
  rw [ipv6PrefixMatch] at h
  obtain ⟨hwhole, hrest⟩ := Bool.and_eq_true_iff.mp h
  have hwhole : bs.take (bits / 8) = cs.take (bits / 8) := beq_iff_eq.mp hwhole
  by_cases hzero : bits % 8 = 0
  · have hleft := bytesValue_take hbyte (bits / 8)
    have hright := bytesValue_take hbyte' (bits / 8)
    rw [hlen] at hleft
    rw [hlen'] at hright
    have hpow : 2 ^ (128 - bits) = 256 ^ (16 - bits / 8) := by
      rw [show 128 - bits = 8 * (16 - bits / 8) by omega, Nat.pow_mul]
    rw [hpow]
    exact hleft.trans ((congrArg bytesValue hwhole).trans hright.symm)
  · -- the bits of the byte behind the whole ones
    have hbit : bs.getD (bits / 8) 0 &&& byteMask (bits % 8) =
        cs.getD (bits / 8) 0 &&& byteMask (bits % 8) := by
      rcases Bool.or_eq_true_iff.mp hrest with hno | hbit
      · exact absurd (of_decide_eq_true hno) hzero
      · exact beq_iff_eq.mp hbit
    have hk : bits / 8 < 16 := by omega
    have hget : bs[bits / 8]? = some (bs.getD (bits / 8) 0) := by
      rw [List.getD_eq_getElem?_getD, List.getElem?_eq_getElem (by omega)]
      rfl
    have hget' : cs[bits / 8]? = some (cs.getD (bits / 8) 0) := by
      rw [List.getD_eq_getElem?_getD, List.getElem?_eq_getElem (by omega)]
      rfl
    have hlast : bs.getD (bits / 8) 0 / 2 ^ (8 - bits % 8) =
        cs.getD (bits / 8) 0 / 2 ^ (8 - bits % 8) :=
      @div_of_mask _ (8 - bits % 8) 8 _ (hbyte _ (List.mem_of_getElem? hget))
        (hbyte' _ (List.mem_of_getElem? hget')) hbit
    have hleft := bytesValue_take hbyte (bits / 8 + 1)
    have hright := bytesValue_take hbyte' (bits / 8 + 1)
    rw [hlen, List.take_add_one, hget, Option.toList_some, bytesValue_snoc] at hleft
    rw [hlen', List.take_add_one, hget', Option.toList_some, bytesValue_snoc, ← hwhole] at hright
    have hpow : 2 ^ (128 - bits) = 256 ^ (16 - (bits / 8 + 1)) * 2 ^ (8 - bits % 8) := by
      rw [show (256 : Nat) = 2 ^ 8 from rfl, ← Nat.pow_mul, ← Nat.pow_add]
      congr 1
      omega
    have hbyteBits : 256 = 2 ^ (8 - bits % 8) * 2 ^ (bits % 8) := by
      rw [← Nat.pow_add, show 8 - bits % 8 + bits % 8 = 8 by omega]
    have hpos : 0 < 2 ^ (8 - bits % 8) := Nat.two_pow_pos _
    rw [hpow, ← Nat.div_div_eq_div_mul, ← Nat.div_div_eq_div_mul, hleft, hright, hbyteBits,
      Nat.mul_assoc, Nat.mul_add_div hpos, Nat.mul_add_div hpos, hlast]

theorem cidrIpv4Match_iff {network ip : JsString} {bits m : Nat}
    (hnetwork : readIpv4 network = some n) (hip : readIpv4 ip = some m) (hbits : bits ≤ 32) :
    cidrIpv4Match network bits ip = true ↔ m / 2 ^ (32 - bits) = n / 2 ^ (32 - bits) := by
  refine ⟨fun h => ?_, cidrIpv4Match_of_number hnetwork hip hbits⟩
  have hn := readIpv4_lt hnetwork
  have hm := readIpv4_lt hip
  rw [cidrIpv4Match, if_neg (Nat.not_lt.mpr hbits)] at h
  split at h
  · next hzero =>
      subst hzero
      rw [Nat.div_eq_of_lt hm, Nat.div_eq_of_lt hn]
  · rw [ipv4ToInt_of_read hnetwork, ipv4ToInt_of_read hip] at h
    exact @div_of_mask _ (32 - bits) 32 _ hm hn (beq_iff_eq.mp h)

/-- A block contains the addresses of its family with its leading bits. -/
theorem cidrContains_iff {network ip text : JsString} (hT : T.Ascii)
    (hnetwork : read network = some x) (hip : read ip = some y) (hne : text ≠ [])
    (hdigits : ∀ u ∈ text, isDigitUnit u = true)
    (hwidth : digitsValue text ≤ if isIP network = 4 then 32 else 128) :
    cidrContains T (network ++ [unit '/'] ++ text) ip = true ↔
      InBlock x (digitsValue text) y := by
  have hcut : cutSlash (network ++ [unit '/'] ++ text) = some (network, text) :=
    cutSlash_append (slash_read hnetwork)
  have hbits := parseDecimal_digits hne hdigits
  refine ⟨fun h => ?_, cidrContains_of hT hcut hbits hnetwork hip hwidth⟩
  rw [cidrContains, hcut] at h
  dsimp only at h
  split at h
  · cases h
  · next hfamily =>
      rw [hbits] at h
      dsimp only at h
      cases x with
      | v4 n =>
          have hfour := isIP_v4 hnetwork
          rw [if_pos hfour] at h hwidth
          cases y with
          | v4 m => exact (cidrIpv4Match_iff (read_v4 hnetwork) (read_v4 hip) hwidth).mp h
          | v6 m =>
              refine absurd (Or.inr (Or.inr ?_)) hfamily
              rw [hfour, isIP_v6 hip]
              decide
      | v6 n =>
          have hsix := isIP_v6 hnetwork
          have hno : ¬isIP network = 4 := by rw [hsix]; decide
          rw [if_neg hno] at h hwidth
          cases y with
          | v4 m =>
              refine absurd (Or.inr (Or.inr ?_)) hfamily
              rw [hsix, isIP_v4 hip]
              decide
          | v6 m =>
              obtain ⟨gs, hgs, rfl⟩ := read_v6 hip
              obtain ⟨hs, hhs, rfl⟩ := read_v6 hnetwork
              obtain ⟨hlen, hlt⟩ := readIpv6_groups hgs
              obtain ⟨hlen', hlt'⟩ := readIpv6_groups hhs
              rw [cidrIpv6Match, if_neg (Nat.not_lt.mpr hwidth), ipv6ToBytes_of_read hT hgs,
                ipv6ToBytes_of_read hT hhs] at h
              exact number_of_prefixMatch hlen hlt hlen' hlt' hwidth h

/-! ## Zones -/

theorem mem_pieces {u : UInt16} (hu : u ∈ s) : u = colon ∨ ∃ p ∈ pieces s, u ∈ p := by
  rw [← joined_pieces s] at hu
  exact mem_joined hu

theorem mem_fillGroups {u : UInt16} (h : fillGroups s = some ps) (hu : u ∈ s) :
    u = colon ∨ ∃ p ∈ ps, u ∈ p := by
  rw [fillGroups] at h
  split at h
  · split at h
    · rw [← Option.some.inj h]
      exact mem_pieces hu
    · cases h
  · next left rest hcut =>
      rw [cutDouble_some hcut] at hu
      split at h
      · cases h
      · split at h
        · cases h
        · rw [← Option.some.inj h]
          rcases List.mem_append.mp hu with hu | hu
          · refine (mem_pieces hu).imp_right fun ⟨p, hp, hup⟩ => ⟨p, ?_, hup⟩
            exact List.mem_append_left _ (List.mem_append_left _ hp)
          · rcases List.mem_cons.mp hu with rfl | hu
            · exact Or.inl rfl
            rcases List.mem_cons.mp hu with rfl | hu
            · exact Or.inl rfl
            exact (mem_pieces hu).imp_right fun ⟨p, hp, hup⟩ =>
              ⟨p, List.mem_append_right _ hp, hup⟩

theorem cutLastColon_join (s : JsString) : (cutLastColon s).1 ++ (cutLastColon s).2 = s := by
  have hsuffix : (cutLastColon s).2 <:+ s := by
    refine ⟨(s.reverse.dropWhile (· ≠ colon)).reverse, ?_⟩
    show _ ++ (s.reverse.takeWhile (· ≠ colon)).reverse = s
    rw [← List.reverse_append, List.takeWhile_append_dropWhile, List.reverse_reverse]
  have hdrop := List.suffix_iff_eq_drop.mp hsuffix
  exact (congrArg ((cutLastColon s).1 ++ ·) hdrop).trans (List.take_append_drop _ _)

theorem percent_isIPv4 (h : isIPv4 s = true) : percent ∉ s := by
  intro hmem
  rw [← @List.intercalate_splitOn _ s _ _ dot] at hmem
  rcases mem_intercalate hmem with heq | ⟨p, hp, hup⟩
  · exact absurd heq (by decide)
  · have hp := List.all_eq_true.mp (Bool.and_eq_true_iff.mp h).2 p hp
    simp only [octetShape, Bool.and_eq_true, List.all_eq_true] at hp
    exact absurd (hp.1.1.2 _ hup) (by decide)

/-- Text with a zone has no groups. -/
theorem percent_expandIpv6Hex (h : (expandIpv6Hex s).isSome = true) : percent ∉ s := by
  intro hmem
  obtain ⟨hex, hhex⟩ := Option.isSome_iff_exists.mp h
  obtain ⟨t, ht, hhex⟩ := Option.bind_eq_some_iff.mp hhex
  obtain ⟨groups, hgroups, hhex⟩ := Option.bind_eq_some_iff.mp hhex
  have hok : groups.all groupOk = true := by
    split at hhex
    · assumption
    · cases hhex
  have hnone : percent ∉ t := by
    intro hpercent
    rcases mem_fillGroups hgroups hpercent with heq | ⟨p, hp, hup⟩
    · exact absurd heq (by decide)
    · have hp := List.all_eq_true.mp hok p hp
      simp only [groupOk, Bool.and_eq_true, List.all_eq_true] at hp
      exact absurd (hp.2 _ hup) (by decide)
  rw [foldDual] at ht
  dsimp only at ht
  split at ht
  · split at ht
    · next hip =>
        rw [← cutLastColon_join s] at hmem
        rcases List.mem_append.mp hmem with hmem | hmem
        · exact hnone (Option.some.inj ht ▸ List.mem_append_left _ hmem)
        · exact percent_isIPv4 hip hmem
    · cases ht
  · exact hnone (Option.some.inj ht ▸ hmem)

/-! ## All of them -/

/-- Both readings and both writings agree on the bytes, but for a zone, which only the readings of
`ssrf-guard` pass over; a canonical host is an address; and a block is what begins like it. -/
theorem addresses_agree (hT : T.Ascii) :
    (∀ s gs, readIpv6 s = some gs → ipv6ToBytes T s = bytesOf gs ∧
      ((expandIpv6Hex s).map hexBytes = some (ipv6ToBytes T s) ↔ percent ∉ s)) ∧
    (∀ bytes : List Nat, bytes.length = 16 → (∀ b ∈ bytes, b < 256) →
      ∀ text ∈ [ipv6BytesToString bytes, formatIpv6 bytes], ipv6ToBytes T text = bytes ∧
        (expandIpv6Hex text).map hexBytes = some bytes) ∧
    (∀ host host' x y, read (stripBrackets host) = some x → read (stripBrackets host') = some y →
      (canonicalizeHost T host = canonicalizeHost T host' ↔ named x = named y)) ∧
    (∀ host x, read (stripBrackets host) = some x →
      canonicalizeHost T (canonicalizeHost T host) = canonicalizeHost T host) ∧
    (∀ s x, read s = some x → classify T (canonicalizeHost T s) = classify T s) ∧
    ∀ network text ip x y, read network = some x → read ip = some y → text ≠ [] →
      (∀ u ∈ text, isDigitUnit u = true) →
      (digitsValue text ≤ if isIP network = 4 then 32 else 128) →
      (cidrContains T (network ++ [unit '/'] ++ text) ip = true ↔
        InBlock x (digitsValue text) y) := by
  have hboth : ∀ {s gs}, readBody s = some gs → ipv6ToBytes T s = bytesOf gs ∧
      (expandIpv6Hex s).map hexBytes = some (bytesOf gs) :=
    fun h => ⟨ipv6ToBytes_of_read hT (readIpv6_body h), expandIpv6Hex_read h⟩
  refine ⟨fun s gs h => ?_, fun bytes hlen hlt text htext => ?_, fun host host' x y h h' => ?_,
    fun host x h => ?_, fun s x h => ?_, fun network text ip x y hnetwork hip hne hdigits hwidth =>
    cidrContains_iff hT hnetwork hip hne hdigits hwidth⟩
  · have hbytes := ipv6ToBytes_of_read hT h
    rw [hbytes]
    refine ⟨rfl, fun heq => ?_, fun hno => ?_⟩
    · refine percent_expandIpv6Hex ?_
      rw [← Option.isSome_map, heq]
      rfl
    · have hzone : s.dropWhile (· ≠ percent) = [] :=
        List.dropWhile_eq_nil_iff.mpr fun u hu => decide_eq_true fun heq => hno (heq ▸ hu)
      rw [readIpv6, hzone] at h
      exact (hboth h).2
  · obtain ⟨gs, hgs, hgroups, rfl⟩ := @exists_groups 8 bytes hlen hlt
    rcases List.mem_cons.mp htext with rfl | htext
    · exact hboth (readBody_of_plain (ipv6BytesToString_plain hgs hgroups))
    · rw [List.mem_singleton.mp htext]
      exact hboth (readBody_formatIpv6 hgs hgroups)
  · rw [canonText_read hT h, canonText_read hT h']
    exact canonText_eq_iff ⟨_, h⟩ ⟨_, h'⟩
  · rw [canonText_read hT h]
    exact canonicalizeHost_canonText hT ⟨_, h⟩
  · rw [canonText_read hT ((stripBrackets_read h).symm ▸ h)]
    exact classify_canonText hT h

theorem addresses_agree_mapped : (expandIpv6Hex (units "::FFFF:127.0.0.1")).map hexBytes =
    some (ipv6ToBytes asciiCases (units "::FFFF:127.0.0.1")) :=
  ((@addresses_agree asciiCases fun _ _ => rfl).1 _ [0, 0, 0, 0, 0, 0xFFFF, 0x7F00, 1]
    (by decide)).2.mpr (by decide)

/-- A literal with a zone has bytes for one reading and none for the other. -/
theorem zone_disagrees : isIP (units "fe80::1%eth0") = 6 ∧
    ipv6ToBytes asciiCases (units "fe80::1%eth0") = bytesOf [0xFE80, 0, 0, 0, 0, 0, 0, 1] ∧
    expandIpv6Hex (units "fe80::1%eth0") = none := by
  decide +kernel

end Blamejs.IpUtils
