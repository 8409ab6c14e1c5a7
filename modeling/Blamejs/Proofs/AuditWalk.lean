import Blamejs.Lib.HashChain
import Blamejs.Proofs.CanonicalContent
import Blamejs.Ref.AuditChain
import Mathlib.Data.Set.Function

/-!
# The walk as a linked chain, and what its last hash commits to

`link` is the check the walk makes of one row, so that a clean walk is a chain
in the sense of `HashChain`: `walkRows_ok_iff`. The bytes a row hash is taken of
are three pieces put next to each other with no framing. The first has a fixed
length, and the second is an object's canonical text, which closes itself; so
the pieces can be told apart, and a hash that never repeats on the bytes two
walks hash pins down both walks.
-/

namespace Blamejs.AuditChain

open Blamejs.Js Blamejs.CanonicalJson Blamejs.Spec HashChain

/-! ## Digests as text -/

theorem hexNibble_hexDigit {n : Nat} (h : n < 16) : hexNibble (hexDigit n) = some n := by
  have : ∀ i : Fin 16, hexNibble (hexDigit i) = some i.val := by decide
  exact this ⟨n, h⟩

@[simp] theorem hexBytes_hexText (bytes : List UInt8) : hexBytes (hexText bytes) = bytes := by
  induction bytes with
  | nil => rfl
  | cons b bytes ih =>
      have hb := b.toNat_lt
      have hval : UInt8.ofNat (16 * (b.toNat / 16) + b.toNat % 16) = b := by
        rw [Nat.div_add_mod, UInt8.ofNat_toNat]
      have htext : hexText (b :: bytes)
          = hexDigit (b.toNat / 16) :: hexDigit (b.toNat % 16) :: hexText bytes := rfl
      rw [htext, hexBytes, hexNibble_hexDigit (by omega),
        hexNibble_hexDigit (Nat.mod_lt _ (by decide))]
      simp only [hval, ih]

theorem hexText_injective : Function.Injective hexText :=
  Function.LeftInverse.injective hexBytes_hexText

theorem length_hexText (bytes : List UInt8) : (hexText bytes).length = 2 * bytes.length := by
  induction bytes with
  | nil => rfl
  | cons b bytes ih =>
      rw [hexText, List.flatMap_cons, List.length_append, ← hexText, ih]
      simp only [List.length_cons, List.length_nil]
      omega

/-- A head that some row's hash yielded. -/
def IsDigest (sha3 : List UInt8 → List UInt8) (h : JsString) : Prop :=
  ∃ data, h = sha3Hash sha3 data

theorem isHex_digest {sha3 : List UInt8 → List UInt8} (hlen : ∀ d, (sha3 d).length = 64)
    {h : JsString} (hd : IsDigest sha3 h) : isHex h sha3HexLen = true := by
  obtain ⟨data, rfl⟩ := hd
  have hlength : (sha3Hash sha3 data).length = 128 := by
    rw [sha3Hash, length_hexText, hlen]
  have hall : ∀ u ∈ sha3Hash sha3 data, (hexNibble u).isSome = true := by
    intro u hu
    obtain ⟨b, -, hu⟩ := List.mem_flatMap.mp hu
    have hb := b.toNat_lt
    rcases List.mem_cons.mp hu with rfl | hu
    · rw [hexNibble_hexDigit (by omega)]
      rfl
    · rw [List.mem_singleton.mp hu, hexNibble_hexDigit (Nat.mod_lt _ (by decide))]
      rfl
  have hne : (sha3Hash sha3 data).isEmpty = false := by
    rw [List.isEmpty_eq_false_iff]
    exact List.ne_nil_of_length_pos (by rw [hlength]; decide)
  rw [isHex, hlength, hne, List.all_eq_true.mpr hall]
  rfl

/-! ## One row -/

/-- The bytes hashed for a row against a head, when the row has them. -/
def rowPreimage (h : JsString) (row : Row) : Option (List UInt8) :=
  match nonceBuffer (row.prop (units "nonce")), canonicalize (walkFields row) [] with
  | .ok nonce, .ok canonical => some (preimage h canonical nonce)
  | _, _ => none

/-- The check `_walkRows` makes of one row, yielding the next head. -/
def link (sha3 : List UInt8 → List UInt8) (h : JsString) (row : Row) : Option JsString :=
  match nonceBuffer (row.prop (units "nonce")) with
  | .error _ => none
  | .ok nonce =>
      match computeRowHash sha3 h (walkFields row) nonce with
      | .error _ => none
      | .ok computed =>
          if row.text? "prevHash" = some h ∧ row.text? "rowHash" = some computed then
            some computed
          else none

theorem computeRowHash_ok {sha3 : List UInt8 → List UInt8} {h e : JsString}
    {fields : List (JsString × Value)} {nonce : List UInt8}
    (hc : computeRowHash sha3 h fields nonce = .ok e) :
    ∃ canonical, canonicalize fields [] = .ok canonical ∧
      e = sha3Hash sha3 (preimage h canonical nonce) := by
  unfold computeRowHash at hc
  split at hc
  · cases hc
  · split at hc
    · cases hc
    · cases hcanon : canonicalize fields [] with
      | error => rw [hcanon] at hc; cases hc
      | ok canonical =>
          rw [hcanon] at hc
          exact ⟨canonical, rfl, by cases hc; rfl⟩

/-- What a row that links says of itself. -/
theorem link_eq_some {sha3 : List UInt8 → List UInt8} {h e : JsString} {row : Row}
    (hl : link sha3 h row = some e) :
    row.text? "prevHash" = some h ∧ row.text? "rowHash" = some e ∧
      ∃ nonce canonical, nonceBuffer (row.prop (units "nonce")) = .ok nonce ∧
        canonicalize (walkFields row) [] = .ok canonical ∧
        e = sha3Hash sha3 (preimage h canonical nonce) := by
  unfold link at hl
  split at hl
  · cases hl
  · next nonce hnonce =>
      split at hl
      · cases hl
      · next computed hcomputed =>
          split at hl
          · next hcond =>
              obtain rfl := Option.some.inj hl
              obtain ⟨canonical, hcanon, he⟩ := computeRowHash_ok hcomputed
              exact ⟨hcond.1, hcond.2, nonce, canonical, hnonce, hcanon, he⟩
          · cases hl

theorem link_isDigest {sha3 : List UInt8 → List UInt8} {h e : JsString} {row : Row}
    (hl : link sha3 h row = some e) : IsDigest sha3 e := by
  obtain ⟨-, -, nonce, canonical, -, -, he⟩ := link_eq_some hl
  exact ⟨_, he⟩

/-! ## The walk -/

theorem walkFrom_ok_iff {sha3 : List UInt8 → List UInt8} {tableName h : JsString} {i : Nat}
    {rows : List Row} {t e : JsString} {n : Nat} :
    walkFrom sha3 tableName 0 i h rows = .ok (.ok t n e) ↔
      t = tableName ∧ n = i + rows.length ∧ follow (link sha3) h rows = some e := by
  induction rows generalizing i h with
  | nil =>
      simp only [walkFrom, Except.ok.injEq, WalkResult.ok.injEq, List.length_nil, Nat.add_zero,
        follow_nil, Option.some.injEq, eq_comm]
  | cons row rest ih =>
      rw [walkFrom, follow_cons, link]
      cases hnonce : nonceBuffer (row.prop (units "nonce")) with
      | error m => split <;> simp [bind, Except.bind]
      | ok nonce =>
          cases hcomputed : computeRowHash sha3 h (walkFields row) nonce with
          | error m => split <;> simp [bind, Except.bind, hcomputed]
          | ok computed =>
              by_cases hprev : row.text? "prevHash" = some h
              · by_cases hhash : row.text? "rowHash" = some computed
                · simp only [hprev, hhash, hcomputed, bind, Except.bind, ne_eq, not_true_eq_false,
                    if_false, if_true, and_self, false_and, ih, Option.bind_some,
                    List.length_cons]
                  rw [show i + 1 + rest.length = i + (rest.length + 1) by omega]
                · simp [hprev, hhash, hcomputed, bind, Except.bind]
              · simp [hprev, hcomputed]

/-- A clean walk without a row limit is a chain of linked rows. -/
theorem walkRows_ok_iff {sha3 : List UInt8 → List UInt8} {tableName h : JsString}
    {rows : List Row} {t e : JsString} {n : Nat} :
    walkRows sha3 rows tableName h 0 = .ok (.ok t n e) ↔
      t = tableName ∧ n = rows.length ∧ follow (link sha3) h rows = some e := by
  rw [walkRows, walkFrom_ok_iff, Nat.zero_add]

/-! ## What the canonical text of a row says -/

/-- A value a row field may hold in JSON: null, a boolean, a finite number or a
string. -/
def JsonScalar : Value → Prop
  | .null | .bool _ | .str _ => True
  | .num x => x.isFinite = true
  | _ => False

theorem nodup_walkFields (row : Row) : ((walkFields row).map Prod.fst).Nodup :=
  row.nodup.sublist (List.filter_sublist.map _)

theorem canonicalize_ok {row : Row} {canonical : JsString}
    (h : canonicalize (walkFields row) [] = .ok canonical) :
    canonical = (Json.obj (sortKeys (readingEntries (walkFields row)))).text := by
  have htext : canonical = (reading (assigned (sortKeys
      ((walkFields row).filter (·.1 ∉ ([] : List JsString)))))).text := by
    simp only [canonicalize, stringify, Option.getD_none, true_or, if_true] at h
    exact emitTop_ok h
  have hkeep : (walkFields row).filter (·.1 ∉ ([] : List JsString)) = walkFields row :=
    List.filter_eq_self.mpr fun _ _ => by simp
  have hassigned : ((sortKeys (walkFields row)).filter (·.1 ≠ units "__proto__"))
      = sortKeys (walkFields row) := by
    refine List.filter_eq_self.mpr fun p hp => ?_
    have hmem := (perm_sortKeys _).mem_iff.mp hp
    rw [walkFields, List.mem_filter] at hmem
    simpa using (of_decide_eq_true hmem.2).1
  rw [htext, hkeep, assigned, hassigned, reading,
    @sortKeys_eq_of_perm _ _ (readingEntries (walkFields row)) ?_
      (readingEntries_perm (perm_sortKeys _))]
  rw [readingEntries_keys]
  exact ((perm_sortKeys _).map _).nodup_iff.mpr (nodup_walkFields row)

theorem nullNonFinite_scalar {v : Value} (h : JsonScalar v) : nullNonFinite v = v := by
  cases v with
  | num x => exact if_pos h
  | _ => first | rfl | exact h.elim

theorem nullEntries_scalar {es : List (JsString × Value)} (h : ∀ p ∈ es, JsonScalar p.2) :
    nullEntries es = es := by
  have hsame : es.map (fun p => (p.1, nullNonFinite p.2)) = es.map id :=
    List.map_congr_left fun p hp => by rw [nullNonFinite_scalar (h p hp), id]
  rw [nullEntries_eq, hsame, List.map_id]

theorem jsonMade_scalar {v : Value} (h : JsonScalar v) : JsonMade v := by
  cases v <;> trivial

/-- Fields written alike are the same fields, in whatever order the two rows
list them. -/
theorem sameFields {r s : Row} (hr : ∀ p ∈ walkFields r, JsonScalar p.2)
    (hs : ∀ p ∈ walkFields s, JsonScalar p.2)
    (h : sortKeys (readingEntries (walkFields r)) = sortKeys (readingEntries (walkFields s))) :
    SameContent (.obj 0 (walkFields r)) (.obj 0 (walkFields s)) := by
  have hmade : ∀ row : Row, (∀ p ∈ walkFields row, JsonScalar p.2) →
      JsonMade (.obj 0 (walkFields row)) := fun row hrow =>
    ⟨nodup_walkFields row, (entriesMade_iff _).mpr fun p hp => jsonMade_scalar (hrow p hp)⟩
  have hreading : reading (.obj 0 (walkFields r)) = reading (.obj 0 (walkFields s)) := by
    rw [reading, reading, h]
  have hsame := (reading_eq_iff _ _ (hmade r hr) (hmade s hs)).mp hreading
  rwa [nullNonFinite, nullNonFinite, nullEntries_scalar hr, nullEntries_scalar hs] at hsame

/-! ## Binding -/

/-- Two rows that agree on everything the chain covers. -/
structure SameRow (r s : Row) : Prop where
  prevHash : r.text? "prevHash" = s.text? "prevHash"
  rowHash : r.text? "rowHash" = s.text? "rowHash"
  nonce : nonceBuffer (r.prop (units "nonce")) = nonceBuffer (s.prop (units "nonce"))
  fields : SameContent (.obj 0 (walkFields r)) (.obj 0 (walkFields s))

/-- The bytes a walk hashes. -/
def hashedBytes (sha3 : List UInt8 → List UInt8) (start : JsString) (rows : List Row) :
    Set (List UInt8) :=
  {data | ∃ p ∈ visits (link sha3) start rows, rowPreimage p.1 p.2 = some data}

/-- One set of bytes is hashed for one head, one object text and one nonce:
where the text ends is not a matter of framing but of the text itself. -/
theorem preimage_inj {h k : JsString} {es fs : List (JsString × Json)} {m n : List UInt8}
    (hlen : (hexBytes h).length = (hexBytes k).length)
    (heq : preimage h (Json.obj es).text m = preimage k (Json.obj fs).text n) :
    hexBytes h = hexBytes k ∧ es = fs ∧ m = n := by
  obtain ⟨hhead, hrest⟩ := List.append_inj heq hlen
  obtain ⟨hes, hmn⟩ := Json.obj_utf8_delimited es trivial trivial hrest
  exact ⟨hhead, hes, hmn⟩

/-- Equal hashes come from equal rows, against equal heads. -/
theorem link_back {sha3 : List UInt8 → List UInt8} (hlen : ∀ d, (sha3 d).length = 64)
    {S : Set (List UInt8)} (hinj : Set.InjOn sha3 S) {h k e : JsString} {r s : Row}
    (hr : ∀ p ∈ walkFields r, JsonScalar p.2) (hs : ∀ p ∈ walkFields s, JsonScalar p.2)
    (hrS : ∀ d, rowPreimage h r = some d → d ∈ S) (hsS : ∀ d, rowPreimage k s = some d → d ∈ S)
    (hheads : h = k ∨ (IsDigest sha3 h ∧ IsDigest sha3 k))
    (hlr : link sha3 h r = some e) (hls : link sha3 k s = some e) : h = k ∧ SameRow r s := by
  obtain ⟨hpr, hhr, m, c, hm, hc, her⟩ := link_eq_some hlr
  obtain ⟨hps, hhs, n, d, hn, hd, hes⟩ := link_eq_some hls
  have hpre : preimage h c m = preimage k d n := by
    refine hinj (hrS _ ?_) (hsS _ ?_) (hexText_injective (her.symm.trans hes))
    · rw [rowPreimage, hm, hc]
    · rw [rowPreimage, hn, hd]
  have hbytes : (hexBytes h).length = (hexBytes k).length := by
    rcases hheads with rfl | ⟨⟨x, rfl⟩, ⟨y, rfl⟩⟩
    · rfl
    · rw [sha3Hash, sha3Hash, hexBytes_hexText, hexBytes_hexText, hlen, hlen]
  rw [canonicalize_ok hc, canonicalize_ok hd] at hpre
  obtain ⟨hhk, hfields, rfl⟩ := preimage_inj hbytes hpre
  have hk : h = k := by
    rcases hheads with rfl | ⟨⟨x, rfl⟩, ⟨y, rfl⟩⟩
    · rfl
    · rw [sha3Hash, sha3Hash, hexBytes_hexText, hexBytes_hexText] at hhk
      rw [sha3Hash, sha3Hash, hhk]
  exact ⟨hk, by rw [hpr, hps, hk], by rw [hhr, hhs], by rw [hm, hn], sameFields hr hs hfields⟩

/-- Two clean walks from one head, of one length and to one last hash, walked
the same rows; and no bytes can be moved between the canonical text of a row
and its nonce. -/
theorem walkRows_binds {sha3 : List UInt8 → List UInt8} (hlen : ∀ d, (sha3 d).length = 64)
    {tableName start last : JsString} {n : Nat} {rs ss : List Row}
    (hinj : Set.InjOn sha3 (hashedBytes sha3 start rs ∪ hashedBytes sha3 start ss))
    (hr : ∀ r ∈ rs, ∀ p ∈ walkFields r, JsonScalar p.2)
    (hs : ∀ s ∈ ss, ∀ p ∈ walkFields s, JsonScalar p.2)
    (hrs : walkRows sha3 rs tableName start 0 = .ok (.ok tableName n last))
    (hss : walkRows sha3 ss tableName start 0 = .ok (.ok tableName n last)) :
    List.Forall₂ SameRow rs ss ∧
      ∀ (r s : Row) (h c d : JsString) (m m' : List UInt8),
        canonicalize (walkFields r) [] = .ok c → canonicalize (walkFields s) [] = .ok d →
        preimage h c m = preimage h d m' → c = d ∧ m = m' := by
  constructor
  · obtain ⟨-, hn, hfr⟩ := walkRows_ok_iff.mp hrs
    obtain ⟨-, hn', hfs⟩ := walkRows_ok_iff.mp hss
    refine (follow_agree (D := IsDigest sha3) (fun _ _ _ => link_isDigest) ?_ (Or.inl rfl) hfr hfs
      (hn.symm.trans hn')).2
    intro p hp q hq e hheads hlp hlq
    exact link_back hlen hinj (hr _ (mem_of_visits hp)) (hs _ (mem_of_visits hq))
      (fun d hd => Or.inl ⟨p, hp, hd⟩) (fun d hd => Or.inr ⟨q, hq, hd⟩) hheads hlp hlq
  · intro r s h c d m m' hc hd heq
    rw [canonicalize_ok hc, canonicalize_ok hd] at heq ⊢
    obtain ⟨-, hfields, hm⟩ := preimage_inj rfl heq
    exact ⟨by rw [hfields], hm⟩

/-! ## Two linked rows -/

/-- The SHA3-512 digest of `bootRow`'s preimage under `zeroHash`. -/
def bootDigest : List UInt8 :=
  [
    241, 216, 242, 80, 248, 85, 217, 152, 70, 170, 148, 214, 51, 212, 146, 218,
    138, 25, 71, 230, 212, 130, 24, 126, 28, 184, 189, 24, 154, 25, 239, 21,
    144, 45, 190, 45, 24, 105, 53, 178, 199, 7, 153, 144, 113, 53, 3, 244,
    142, 28, 100, 166, 215, 245, 41, 205, 177, 216, 225, 153, 112, 111, 155, 7]

/-- The SHA3-512 digest of `loginRow`'s preimage under `bootDigest`. -/
def loginDigest : List UInt8 :=
  [
    153, 211, 175, 4, 104, 33, 143, 9, 125, 127, 102, 170, 24, 225, 246, 159,
    143, 124, 161, 124, 70, 71, 111, 74, 224, 72, 52, 77, 128, 165, 15, 108,
    111, 42, 149, 26, 234, 244, 31, 216, 155, 115, 130, 58, 60, 63, 121, 118,
    40, 129, 89, 194, 13, 213, 84, 76, 222, 242, 87, 205, 110, 89, 27, 62]

def bootRow : Row where
  entries := [(units "action", .str (units "system.boot")),
    (units "monotonicCounter", .num (Double.ofInt 1)), (units "prevHash", .str zeroHash),
    (units "rowHash", .str (hexText bootDigest)), (units "nonce", .buffer [7, 255, 44])]
  nodup := by decide

def loginRow : Row where
  entries := [(units "action", .str (units "auth.login")),
    (units "monotonicCounter", .num (Double.ofInt 2)),
    (units "prevHash", .str (hexText bootDigest)),
    (units "rowHash", .str (hexText loginDigest)), (units "nonce", .buffer [9, 14, 3])]
  nodup := by decide

/-- `bootRow` as a driver with another column order returns it. -/
def bootRowReordered : Row where
  entries := [(units "nonce", .uint8Array [7, 255, 44]),
    (units "monotonicCounter", .num (Double.ofInt 1)), (units "action", .str (units "system.boot")),
    (units "rowHash", .str (hexText bootDigest)), (units "prevHash", .str zeroHash)]
  nodup := by decide

/-- SHA3-512 on the two inputs that are hashed here. -/
def bootSha3 (data : List UInt8) : List UInt8 :=
  if rowPreimage zeroHash bootRow = some data then bootDigest
  else if rowPreimage (hexText bootDigest) loginRow = some data then loginDigest
  else List.replicate 64 0

theorem length_bootSha3 (data : List UInt8) : (bootSha3 data).length = 64 := by
  unfold bootSha3
  split
  · rfl
  · split <;> rfl

/-- The two inputs have different digests. -/
theorem bootSha3_injOn :
    Set.InjOn bootSha3 {data | rowPreimage zeroHash bootRow = some data ∨
      rowPreimage (hexText bootDigest) loginRow = some data} := by
  have hne : bootDigest ≠ loginDigest := by decide
  intro x hx y hy hxy
  rw [bootSha3, bootSha3] at hxy
  by_cases hbx : rowPreimage zeroHash bootRow = some x
  · by_cases hby : rowPreimage zeroHash bootRow = some y
    · exact Option.some.inj (hbx.symm.trans hby)
    · rw [if_pos hbx, if_neg hby, if_pos (hy.resolve_left hby)] at hxy
      exact (hne hxy).elim
  · have hlx := hx.resolve_left hbx
    by_cases hby : rowPreimage zeroHash bootRow = some y
    · rw [if_neg hbx, if_pos hlx, if_pos hby] at hxy
      exact (hne hxy.symm).elim
    · exact Option.some.inj (hlx.symm.trans (hy.resolve_left hby))

theorem hashedBytes_pair {sha3 : List UInt8 → List UInt8} {start next : JsString} {r s : Row}
    (hlink : link sha3 start r = some next) {data : List UInt8}
    (hd : data ∈ hashedBytes sha3 start [r, s]) :
    rowPreimage start r = some data ∨ rowPreimage next s = some data := by
  obtain ⟨p, hp, hpre⟩ := hd
  have hvisit : visits (link sha3) start [r, s] = [(start, r), (next, s)] := by
    rw [visits, hlink, Option.elim_some, visits]
    cases link sha3 next s <;> rfl
  rw [hvisit] at hp
  rcases List.mem_pair.mp hp with rfl | rfl
  · exact .inl hpre
  · exact .inr hpre

theorem loginRow_scalar : ∀ p ∈ walkFields loginRow, JsonScalar p.2 := by
  have hfields : walkFields loginRow = [(units "action", .str (units "auth.login")),
      (units "monotonicCounter", .num (Double.ofInt 2))] := rfl
  rw [hfields]
  simp [JsonScalar, Double.isFinite_ofInt]

/-- One chain of two rows as two drivers return it. -/
theorem walkRows_binds_boot :
    List.Forall₂ SameRow [bootRow, loginRow] [bootRowReordered, loginRow] ∧
      ∀ (r s : Row) (h c d : JsString) (m m' : List UInt8),
        canonicalize (walkFields r) [] = .ok c → canonicalize (walkFields s) [] = .ok d →
        preimage h c m = preimage h d m' → c = d ∧ m = m' := by
  have hpre : rowPreimage zeroHash bootRowReordered = rowPreimage zeroHash bootRow := by
    decide +kernel
  have hlink : link bootSha3 zeroHash bootRow = some (hexText bootDigest) := by decide +kernel
  have hlink' : link bootSha3 zeroHash bootRowReordered = some (hexText bootDigest) := by
    decide +kernel
  have hlast : link bootSha3 (hexText bootDigest) loginRow = some (hexText loginDigest) := by
    decide +kernel
  have hfollow : ∀ {r : Row}, link bootSha3 zeroHash r = some (hexText bootDigest) →
      follow (link bootSha3) zeroHash [r, loginRow] = some (hexText loginDigest) := fun h => by
    rw [follow_cons, h, Option.bind_some, follow_cons, hlast, Option.bind_some, follow_nil]
  refine @walkRows_binds bootSha3 length_bootSha3 (units "audit_log") zeroHash
    (hexText loginDigest) 2 _ _ ?_ ?_ ?_
    (walkRows_ok_iff.mpr ⟨rfl, rfl, hfollow hlink⟩)
    (walkRows_ok_iff.mpr ⟨rfl, rfl, hfollow hlink'⟩)
  · refine bootSha3_injOn.mono (Set.union_subset (fun d hd => ?_) fun d hd => ?_)
    · exact hashedBytes_pair hlink hd
    · exact (hashedBytes_pair hlink' hd).imp_left hpre.symm.trans
  · intro r hr
    have hfields : walkFields bootRow = [(units "action", .str (units "system.boot")),
        (units "monotonicCounter", .num (Double.ofInt 1))] := rfl
    rcases List.mem_pair.mp hr with rfl | rfl
    · rw [hfields]
      simp [JsonScalar, Double.isFinite_ofInt]
    · exact loginRow_scalar
  · intro r hr
    have hfields : walkFields bootRowReordered =
        [(units "monotonicCounter", .num (Double.ofInt 1)),
          (units "action", .str (units "system.boot"))] := rfl
    rcases List.mem_pair.mp hr with rfl | rfl
    · rw [hfields]
      simp [JsonScalar, Double.isFinite_ofInt]
    · exact loginRow_scalar

end Blamejs.AuditChain
