import Blamejs.Lib.Checked
import Blamejs.Lib.Delimited
import Blamejs.Proofs.CanonicalText
import Blamejs.Ref.VaultAad

/-!
# A sealed value opens under its own additional data only

A field is written as two lengths, each in front of what it measures, so a field can be
told from what follows it and the bytes of an object from those of any other. The names
are sorted first, which is what makes their order not count.
-/

namespace Blamejs.VaultAad

open Blamejs.Js CanonicalJson Checked Delimiting

variable {isPoisonedKey : JsString → Bool} {parts parts' : Parts}

/-- The names and the texts of an object. -/
def Parts.texts (parts : Parts) : List (JsString × JsString) :=
  parts.fields.map fun f => (f.1, f.2.text)

/-- The same field names with the same text values, in whatever order. -/
def SameFields (parts parts' : Parts) : Prop := ∀ f, f ∈ parts.texts ↔ f ∈ parts'.texts

/-- Every name and every text is well formed. -/
def WellFormedParts (parts : Parts) : Prop :=
  ∀ f ∈ parts.texts, WellFormed f.1 ∧ WellFormed f.2

/-! ## The bytes of an object -/

/-- A name and a text that fit their length fields. -/
def FieldFits (f : Bytes × Bytes) : Prop := f.1.length < 256 ^ 2 ∧ f.2.length < 256 ^ 4

/-- A field on its own. -/
def fieldCode (f : Bytes × Bytes) : Bytes :=
  beBytes 2 f.1.length ++ f.1 ++ beBytes 4 f.2.length ++ f.2

theorem lengthPrefixed_inj {k : Nat} {a b r r' : Bytes} (ha : a.length < 256 ^ k)
    (hb : b.length < 256 ^ k)
    (h : beBytes k a.length ++ (a ++ r) = beBytes k b.length ++ (b ++ r')) : a = b ∧ r = r' := by
  obtain ⟨hlen, hrest⟩ := List.append_inj h (by simp)
  have hlength : a.length = b.length := by
    rw [← beValue_beBytes ha, ← beValue_beBytes hb, hlen]
  exact List.append_inj hrest hlength

/-- A field can be told from what follows it. -/
theorem fieldCode_inj {f g : Bytes × Bytes} {r r' : Bytes} (hf : FieldFits f) (hg : FieldFits g)
    (h : fieldCode f ++ r = fieldCode g ++ r') : f = g ∧ r = r' := by
  simp only [fieldCode, List.append_assoc] at h
  obtain ⟨hname, hrest⟩ := lengthPrefixed_inj hf.1 hg.1 h
  obtain ⟨htext, hr⟩ := lengthPrefixed_inj hf.2 hg.2 hrest
  exact ⟨Prod.ext hname htext, hr⟩

theorem fieldCode_ne_nil (f : Bytes × Bytes) : fieldCode f ≠ [] := by
  intro h
  have := congrArg List.length h
  simp [fieldCode] at this

theorem flatMap_fieldCode_inj {fs gs : List (Bytes × Bytes)} (hfs : ∀ f ∈ fs, FieldFits f)
    (hgs : ∀ g ∈ gs, FieldFits g) (h : fs.flatMap fieldCode = gs.flatMap fieldCode) : fs = gs := by
  induction fs generalizing gs with
  | nil =>
      cases gs with
      | nil => rfl
      | cons g gs =>
          rw [List.flatMap_nil, List.flatMap_cons] at h
          exact absurd (List.append_eq_nil_iff.mp h.symm).1 (fieldCode_ne_nil g)
  | cons f fs ih =>
      cases gs with
      | nil =>
          rw [List.flatMap_nil, List.flatMap_cons] at h
          exact absurd (List.append_eq_nil_iff.mp h).1 (fieldCode_ne_nil f)
      | cons g gs =>
          rw [List.flatMap_cons, List.flatMap_cons] at h
          obtain ⟨rfl, hrest⟩ :=
            fieldCode_inj (hfs f List.mem_cons_self) (hgs g List.mem_cons_self) h
          rw [ih (fun f hf => hfs f (List.mem_cons_of_mem _ hf))
            (fun g hg => hgs g (List.mem_cons_of_mem _ hg)) hrest]

/-- What a field that is accepted becomes. -/
def fieldUtf8 (f : JsString × JsString) : Bytes × Bytes := (utf8 f.1, utf8 f.2)

theorem map_fieldUtf8_inj {fs gs : List (JsString × JsString)}
    (hfs : ∀ f ∈ fs, WellFormed f.1 ∧ WellFormed f.2)
    (hgs : ∀ g ∈ gs, WellFormed g.1 ∧ WellFormed g.2)
    (h : fs.map fieldUtf8 = gs.map fieldUtf8) : fs = gs := by
  induction fs generalizing gs with
  | nil => exact (List.map_eq_nil_iff.mp h.symm).symm
  | cons f fs ih =>
      cases gs with
      | nil => cases h
      | cons g gs =>
          rw [List.map_cons, List.map_cons, List.cons.injEq, fieldUtf8, fieldUtf8,
            Prod.mk.injEq] at h
          obtain ⟨hf, hfs⟩ := List.forall_mem_cons.mp hfs
          obtain ⟨hg, hgs⟩ := List.forall_mem_cons.mp hgs
          have hname := utf8_injective_of_wellFormed hf.1 hg.1 h.1.1
          have htext := utf8_injective_of_wellFormed hf.2 hg.2 h.1.2
          rw [Prod.ext hname htext, ih hfs hgs h.2]

theorem fieldBytes_ok {field : JsString × Value} {bytes : Bytes}
    (h : fieldBytes isPoisonedKey field = .ok bytes) :
    FieldFits (fieldUtf8 (field.1, field.2.text)) ∧
      bytes = fieldCode (fieldUtf8 (field.1, field.2.text)) := by
  rw [fieldBytes] at h
  split at h
  · cases h
  · have hwrite : (do
        let keyLenBuf ← writeLength 2 (utf8 field.1).length
        let valLenBuf ← writeLength 4 (utf8 field.2.text).length
        Except.ok (keyLenBuf ++ utf8 field.1 ++ valLenBuf ++ utf8 field.2.text)) =
          Except.ok bytes := by
      cases hvalue : field.2 with
      | other typeName => rw [hvalue] at h; cases h
      | str v => rw [hvalue] at h; exact h
      | num v => rw [hvalue] at h; exact h
      | bool v => rw [hvalue] at h; exact h
    obtain ⟨keyLen, hkey, hwrite⟩ := bind_eq_ok.mp hwrite
    obtain ⟨valLen, hval, hwrite⟩ := bind_eq_ok.mp hwrite
    rw [writeLength] at hkey hval
    split at hkey
    next hk =>
      split at hval
      next hv =>
        cases hkey
        cases hval
        cases hwrite
        exact ⟨⟨hk, hv⟩, rfl⟩
      · cases hval
    · cases hkey

theorem mapM_fieldBytes {fields : List (JsString × Value)} {chunks : List Bytes}
    (h : fields.mapM (fieldBytes isPoisonedKey) = .ok chunks) :
    (∀ f ∈ fields, FieldFits (fieldUtf8 (f.1, f.2.text))) ∧
      chunks.flatten = (fields.map fun f => fieldUtf8 (f.1, f.2.text)).flatMap fieldCode := by
  induction fields generalizing chunks with
  | nil =>
      rw [List.mapM_nil] at h
      cases h
      exact ⟨by simp, rfl⟩
  | cons f fields ih =>
      rw [List.mapM_cons] at h
      obtain ⟨bytes, hbytes, h⟩ := bind_eq_ok.mp h
      obtain ⟨rest, hrest, h⟩ := bind_eq_ok.mp h
      cases h
      obtain ⟨hfit, rfl⟩ := fieldBytes_ok hbytes
      obtain ⟨hfits, hflat⟩ := ih hrest
      exact ⟨List.forall_mem_cons.mpr ⟨hfit, hfits⟩, by simp [hflat]⟩

/-- The bytes of an object are those of its names and texts, sorted by name. -/
theorem canonicalize_ok {bytes : Bytes} (h : canonicalize isPoisonedKey parts = .ok bytes) :
    (∀ f ∈ parts.texts, FieldFits (fieldUtf8 f)) ∧
      bytes = aadVersion :: ((sortKeys parts.texts).map fieldUtf8).flatMap fieldCode := by
  rw [canonicalize] at h
  split at h
  · cases h
  obtain ⟨chunks, hchunks, h⟩ := bind_eq_ok.mp h
  cases h
  obtain ⟨hfits, hflat⟩ := mapM_fieldBytes hchunks
  have hsorted : sortKeys parts.texts =
      (sortKeys parts.fields).map fun f => (f.1, f.2.text) := sortKeys_map Value.text parts.fields
  constructor
  · intro f hf
    rw [← (perm_sortKeys parts.texts).mem_iff, hsorted] at hf
    obtain ⟨field, hfield, rfl⟩ := List.mem_map.mp hf
    exact hfits field hfield
  · rw [hflat, hsorted, List.map_map]
    rfl

theorem Parts.nodup_texts (parts : Parts) : (parts.texts.map Prod.fst).Nodup := by
  rw [Parts.texts, List.map_map]
  exact parts.nodup

/-- With distinct names, the same fields are a permutation. -/
theorem SameFields.sortKeys_eq (h : SameFields parts parts') :
    sortKeys parts.texts = sortKeys parts'.texts := by
  have hnodup : ∀ p : Parts, p.texts.Nodup := fun p => .of_map _ p.nodup_texts
  exact sortKeys_eq_of_perm parts.nodup_texts
    ((List.perm_ext_iff_of_nodup (hnodup parts) (hnodup parts')).mpr h)

/-- Two accepted objects have the same bytes exactly when they have the same fields. -/
theorem canonicalize_eq_iff {bytes bytes' : Bytes} (hwf : WellFormedParts parts)
    (hwf' : WellFormedParts parts') (h : canonicalize isPoisonedKey parts = .ok bytes)
    (h' : canonicalize isPoisonedKey parts' = .ok bytes') :
    bytes = bytes' ↔ SameFields parts parts' := by
  obtain ⟨hfits, rfl⟩ := canonicalize_ok h
  obtain ⟨hfits', rfl⟩ := canonicalize_ok h'
  constructor
  · intro heq
    have hfitsSorted : ∀ p : Parts, (∀ f ∈ p.texts, FieldFits (fieldUtf8 f)) →
        ∀ f ∈ (sortKeys p.texts).map fieldUtf8, FieldFits f := by
      intro p hp f hf
      obtain ⟨g, hg, rfl⟩ := List.mem_map.mp hf
      exact hp g ((perm_sortKeys p.texts).mem_iff.mp hg)
    have hcodes := flatMap_fieldCode_inj (hfitsSorted _ hfits) (hfitsSorted _ hfits')
      (List.cons.inj heq).2
    have hwfSorted : ∀ p : Parts, WellFormedParts p →
        ∀ f ∈ sortKeys p.texts, WellFormed f.1 ∧ WellFormed f.2 :=
      fun p hp f hf => hp f ((perm_sortKeys p.texts).mem_iff.mp hf)
    have htexts := map_fieldUtf8_inj (hwfSorted _ hwf) (hwfSorted _ hwf') hcodes
    intro f
    rw [← (perm_sortKeys parts.texts).mem_iff, htexts, (perm_sortKeys parts'.texts).mem_iff]
  · intro hsame
    rw [hsame.sortKeys_eq]

/-! ## Opening a sealed value -/

variable {Key Nonce : Type}

/-- What is taken for granted of the AEAD: a packet opens under the key and the additional
data it was made with, and under no others. -/
structure Ideal (crypto : Crypto Key Nonce) : Prop where
  opens : ∀ nonce pt key aad,
    crypto.decryptPacked (crypto.encryptPacked nonce pt key aad) key aad = some pt
  refuses : ∀ nonce pt key aad key' aad', key' ≠ key ∨ aad' ≠ aad →
    crypto.decryptPacked (crypto.encryptPacked nonce pt key aad) key' aad' = none

/-- A sealed value opens under its own fields in any order, and under no others. -/
theorem unseal_seal (crypto : Crypto Key Nonce) (hideal : Ideal crypto)
    (isPoisonedKey : JsString → Bool) (nonce : Nonce) (plaintext : JsString)
    (hne : plaintext ≠ []) (hwf : WellFormed plaintext)
    (hplain : aadPrefix.isPrefixOf plaintext = false) (a b : Parts) (ha : WellFormedParts a)
    (hb : WellFormedParts b) (accepted : ∃ bytes, canonicalize isPoisonedKey a = .ok bytes)
    (accepted' : ∃ bytes, canonicalize isPoisonedKey b = .ok bytes) :
    ∃ value, sealValue crypto isPoisonedKey nonce plaintext a = .ok value ∧
      (SameFields a b → unsealValue crypto isPoisonedKey value b = .ok plaintext) ∧
      (¬ SameFields a b → unsealValue crypto isPoisonedKey value b = .error .aeadMismatch) := by
  obtain ⟨bytes, hbytes⟩ := accepted
  obtain ⟨bytes', hbytes'⟩ := accepted'
  have hiff := canonicalize_eq_iff ha hb hbytes hbytes'
  have hseal : sealValue crypto isPoisonedKey nonce plaintext a = .ok (aadPrefix ++ toBase64
      (crypto.encryptPacked nonce (utf8 plaintext) (deriveKey crypto bytes) bytes)) := by
    rw [sealValue, if_neg hne, hplain, hbytes]
    rfl
  refine ⟨_, hseal, fun hsame => ?_, fun hother => ?_⟩
  all_goals
    rw [unsealValue, if_neg (by simp), hbytes', List.drop_left, ofBase64_toBase64]
  · rw [← hiff.mpr hsame]
    dsimp only [Bind.bind, Except.bind]
    rw [hideal.opens]
    show Except.ok (utf8Text (utf8 plaintext)) = _
    rw [utf8Text_of_wellFormed hwf]
  · have hne' : bytes' ≠ bytes := fun heq => hother (hiff.mp heq.symm)
    dsimp only [Bind.bind, Except.bind]
    rw [hideal.refuses _ _ _ _ _ _ (.inr hne')]

/-- Bytes that say where they end. -/
def framed (l : Bytes) : Bytes := l.flatMap (fun b => [1, b]) ++ [0]

theorem framed_inj {l l' r r' : Bytes} (h : framed l ++ r = framed l' ++ r') : l = l' ∧ r = r' := by
  induction l generalizing l' with
  | nil =>
      cases l' with
      | nil => exact ⟨rfl, (List.cons.inj h).2⟩
      | cons b l' => exact absurd (List.cons.inj h).1 (by decide)
  | cons b l ih =>
      cases l' with
      | nil => exact absurd (List.cons.inj h).1 (by decide)
      | cons b' l' =>
          have h' := List.cons.inj (List.cons.inj h).2
          obtain ⟨rfl, rfl⟩ := ih h'.2
          exact ⟨by rw [h'.1], rfl⟩

/-- A cipher that writes the key and the additional data in front of the text. -/
def clearCrypto : Crypto Bytes Unit where
  rootHash := [7]
  kdf := id
  encryptPacked _ pt key aad := framed key ++ framed aad ++ pt
  decryptPacked packed key aad :=
    let header := framed key ++ framed aad
    if header.isPrefixOf packed then some (packed.drop header.length) else none

theorem clearCrypto_ideal : Ideal clearCrypto where
  opens nonce pt key aad := by
    simp [clearCrypto]
  refuses nonce pt key aad key' aad' hne := by
    have hno :
        (framed key' ++ framed aad').isPrefixOf (framed key ++ framed aad ++ pt) = false := by
      rw [Bool.eq_false_iff, Ne, List.isPrefixOf_iff_prefix]
      rintro ⟨rest, hrest⟩
      rw [List.append_assoc, List.append_assoc] at hrest
      obtain ⟨hkey, hrest⟩ := framed_inj hrest
      obtain ⟨haad, -⟩ := framed_inj hrest
      exact hne.elim (fun h => h hkey) (fun h => h haad)
    simp only [clearCrypto, hno, Bool.false_eq_true, if_false]

/-- A boolean and a text, and the same with the text of the boolean in the other order. -/
def activeParts : Parts :=
  ⟨[(units "id", .str (units "7")), (units "active", .bool true)], by decide⟩

def activeTexts : Parts :=
  ⟨[(units "active", .str (units "true")), (units "id", .str (units "7"))], by decide⟩

/-- Another row's fields. -/
def otherParts : Parts :=
  ⟨[(units "id", .str (units "8")), (units "active", .bool true)], by decide⟩

theorem unseal_seal_reordered : ∃ value,
    sealValue clearCrypto (fun _ => false) () (units "secret") activeParts = .ok value ∧
      unsealValue clearCrypto (fun _ => false) value activeTexts = .ok (units "secret") ∧
      unsealValue clearCrypto (fun _ => false) value otherParts = .error .aeadMismatch := by
  have hplainText : ∀ p ∈ [activeParts, activeTexts, otherParts], WellFormedParts p := by
    intro p hp f hf
    simp only [List.mem_cons, List.not_mem_nil, or_false] at hp
    rcases hp with rfl | rfl | rfl
    all_goals
      simp only [Parts.texts, activeParts, activeTexts, otherParts, List.map_cons, List.map_nil,
        List.mem_cons, List.not_mem_nil, or_false] at hf
      rcases hf with rfl | rfl
      all_goals exact ⟨by decide, by decide⟩
  have hopens := fun b hb => unseal_seal clearCrypto clearCrypto_ideal (fun _ => false) ()
    (units "secret") (by decide) (by decide) (by decide) activeParts b
    (hplainText _ (by simp)) (hplainText b hb) ⟨_, rfl⟩
  obtain ⟨value, hseal, hsame, -⟩ := hopens activeTexts (by simp) ⟨_, rfl⟩
  obtain ⟨value', hseal', -, hother⟩ := hopens otherParts (by simp) ⟨_, rfl⟩
  obtain rfl := Except.ok.inj (hseal.symm.trans hseal')
  refine ⟨value, hseal, hsame fun f => ?_, hother fun h => ?_⟩
  · simp [Parts.texts, activeParts, activeTexts, Value.text, or_comm]
  · exact absurd ((h (units "id", units "7")).mp (by decide)) (by decide)

end Blamejs.VaultAad
