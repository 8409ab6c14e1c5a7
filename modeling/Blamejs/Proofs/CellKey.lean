import Blamejs.Js.JsonText
import Blamejs.Lib.Delimited
import Blamejs.Proofs.VaultAad
import Blamejs.Ref.CellKey

/-!
# Cells stay readable while one call at a time makes the key

The key of a cell comes from the key of its table and the text of its three identifiers, so
it is the cell's own where no bar stands in the table and in the column. What every process
has cached is the key in the policy as long as that is written once, and it is when no call
reads the policy between another one's empty read and its write.
-/

namespace Blamejs.CellKey

open Blamejs.Js Delimiting Run

variable {Key Nonce : Type} {crypto : Crypto Key Nonce} {policies : Policies} {s s' : St}

/-- What is taken for granted of the key derivation and the cipher. -/
structure Ideal (crypto : Crypto Key Nonce) : Prop where
  kdf_injective : Function.Injective crypto.kdf
  opens : ∀ nonce pt key aad,
    crypto.decryptPacked (crypto.encryptPacked nonce pt key aad) key aad = some pt
  refuses : ∀ nonce pt key aad key' aad', key' ≠ key ∨ aad' ≠ aad →
    crypto.decryptPacked (crypto.encryptPacked nonce pt key aad) key' aad' = none

/-- What `encryptCell` returned for a cell is that text under the same identifiers and nothing
under any others. -/
def Readable (s : St) : Prop :=
  ∀ cell plaintext ciphertext, .encrypted cell plaintext ciphertext ∈ s.log →
    ∀ cell' result, .decrypted cell' ciphertext result ∈ s.log →
      result = if cell' = cell then some plaintext else none

/-! ## The text of a cell -/

/-- Identifiers that can be told apart in the text of a cell. -/
structure Cell.Plain (cell : Cell) : Prop where
  table : unit '|' ∉ cell.table
  column : unit '|' ∉ cell.column
  wellFormed : WellFormed cell.table ∧ WellFormed cell.rowId ∧ WellFormed cell.column

theorem Cell.Plain.wellFormed_text {cell : Cell} (h : cell.Plain) : WellFormed cell.text := by
  have hbar : WellFormed (units "|") := by decide
  exact wellFormed_append (wellFormed_append (wellFormed_append (wellFormed_append
    h.wellFormed.1 hbar) h.wellFormed.2.1) hbar) h.wellFormed.2.2

/-- The first bar ends the text in front of it. -/
theorem bar_first {a b r r' : JsString} (ha : unit '|' ∉ a) (hb : unit '|' ∉ b)
    (h : a ++ unit '|' :: r = b ++ unit '|' :: r') : a = b ∧ r = r' := by
  have hmem : ∀ l : JsString, unit '|' ∉ l → ∀ u ∈ l, (u != unit '|') = true := by
    rintro l hl u hu
    rw [bne_iff_ne]
    rintro rfl
    exact hl hu
  have hleaves : ∀ l : JsString, Leaves (· != unit '|') (unit '|' :: l) := by
    rintro l u hu
    obtain rfl : unit '|' = u := by simpa using hu
    simp
  obtain ⟨rfl, hrest⟩ := span_append (hmem a ha) (hmem b hb) (hleaves r) (hleaves r') h
  exact ⟨rfl, (List.cons.inj hrest).2⟩

theorem Cell.Plain.eq_of_text {a b : Cell} (ha : a.Plain) (hb : b.Plain) (h : a.text = b.text) :
    a = b := by
  have hbar : units "|" = [unit '|'] := rfl
  simp only [Cell.text, hbar, List.append_assoc, List.singleton_append] at h
  obtain ⟨htable, hrest⟩ := bar_first ha.table hb.table h
  have hreverse : a.column.reverse ++ unit '|' :: a.rowId.reverse =
      b.column.reverse ++ unit '|' :: b.rowId.reverse := by
    simpa using congrArg List.reverse hrest
  obtain ⟨hcolumn, hrow⟩ := bar_first (by simpa using ha.column) (by simpa using hb.column)
    hreverse
  obtain ⟨t, r, col⟩ := a
  obtain ⟨t', r', col'⟩ := b
  simp_all

theorem Cell.Plain.eq_of_key (hideal : Ideal crypto) {a b : Cell} (ha : a.Plain) (hb : b.Plain)
    {dek dek' : Dek} (h : kCell crypto dek a = kCell crypto dek' b) : a = b := by
  have hbytes := hideal.kdf_injective h
  obtain ⟨-, hutf8⟩ := List.append_inj hbytes (dek.property.trans dek'.property.symm)
  have hhead : WellFormed (units "breakglass.cell|") := by decide
  have htext := utf8_injective_of_wellFormed (wellFormed_append hhead ha.wellFormed_text)
    (wellFormed_append hhead hb.wellFormed_text) hutf8
  exact ha.eq_of_text hb (List.append_cancel_left htext)

/-- Under one table key a ciphertext is its text for its own cell only. -/
theorem decryptWith_encryptWith (hideal : Ideal crypto) {a b : Cell} (ha : a.Plain)
    (hb : b.Plain) {dek dek' : Dek} (hdek : a = b → dek' = dek) {nonce : Nonce}
    {plaintext : JsString} (hwf : WellFormed plaintext) :
    decryptWith crypto dek' b (encryptWith crypto nonce dek a plaintext) =
      if b = a then some plaintext else none := by
  rw [decryptWith, encryptWith, List.drop_left, ofBase64_toBase64]
  by_cases heq : b = a
  · subst heq
    rw [hdek rfl, hideal.opens, if_pos rfl, Option.map_some, utf8Text_of_wellFormed hwf]
  · have hkey : kCell crypto dek' b ≠ kCell crypto dek a :=
      fun h => heq (Cell.Plain.eq_of_key hideal hb ha h)
    rw [hideal.refuses _ _ _ _ _ _ (.inl hkey), if_neg heq]
    rfl

/-! ## What a log entry rests on -/

/-- An entry comes from the key that is in the policy, or from a call that needed none. -/
inductive Sound (crypto : Crypto Key Nonce) (policies : Policies) (db : JsString → Option Dek) :
    Entry → Prop
  | encrypted {cell : Cell} {plaintext : JsString} {dek : Dek} (nonce : Nonce) :
      cell.Plain → WellFormed plaintext → db cell.table = some dek →
      Sound crypto policies db
        (.encrypted cell plaintext (encryptWith crypto nonce dek cell plaintext))
  | decrypted {cell : Cell} {ciphertext : JsString} {dek : Dek} :
      cell.Plain → db cell.table = some dek →
      Sound crypto policies db
        (.decrypted cell ciphertext (decryptWith crypto dek cell ciphertext))
  | badCiphertext {cell : Cell} {ciphertext : JsString} :
      cellPrefix.isPrefixOf ciphertext = false →
      Sound crypto policies db (.decrypted cell ciphertext none)
  | noPolicy {cell : Cell} {ciphertext : JsString} : policies.get cell.table = none →
      Sound crypto policies db (.decrypted cell ciphertext none)

theorem Sound.mono {db db' : JsString → Option Dek} {e : Entry}
    (h : ∀ t dek, db t = some dek → db' t = some dek) (he : Sound crypto policies db e) :
    Sound crypto policies db' e := by
  cases he with
  | encrypted nonce hplain hwf hdek => exact .encrypted nonce hplain hwf (h _ _ hdek)
  | decrypted hplain hdek => exact .decrypted hplain (h _ _ hdek)
  | badCiphertext hbad => exact .badCiphertext hbad
  | noPolicy hno => exact .noPolicy hno

/-! ## The invariant -/

/-- The call has seen no key and has written none. -/
def Stage.makes : Stage → Prop
  | .got none => True
  | .writing _ => True
  | _ => False

/-- The key that a call has in its hands. -/
def Stage.dek : Stage → Option Dek
  | .got dekSealed => dekSealed
  | .wrote dek => some dek
  | .ready dek => some dek
  | _ => none

/-- The call is past the row of its policy. -/
def Stage.hasRow : Stage → Prop
  | .reading => False
  | _ => True

/-- What a call may be given: `encryptCell` has asked the policy for the column. -/
def Job.Fine (policies : Policies) : Job → Prop
  | .encrypt cell plaintext _ =>
      accepted policies (.encrypt cell plaintext false) = true ∧ WellFormed cell.rowId ∧
        WellFormed plaintext
  | .decrypt cell _ => unit '|' ∉ cell.column ∧ WellFormed cell.rowId ∧ WellFormed cell.column

structure Inv (crypto : Crypto Key Nonce) (policies : Policies) (s : St) : Prop where
  row : ∀ t dek, s.db t = some dek → (policies.get t).isSome
  cache : ∀ p t dek, s.dekCache p t = some dek → s.db t = some dek
  fine : ∀ c p job stage, s.pc c = .run p job stage → job.Fine policies
  hasRow : ∀ c p job stage, s.pc c = .run p job stage → stage.hasRow →
    (policies.get job.cell.table).isSome
  held : ∀ c p job stage dek, s.pc c = .run p job stage → stage.dek = some dek →
    s.db job.cell.table = some dek
  makes : ∀ c p job stage, s.pc c = .run p job stage → stage.makes →
    s.db job.cell.table = none
  alone : ∀ c p job stage d p' job' stage', s.pc c = .run p job stage →
    s.pc d = .run p' job' stage' → stage.makes → stage'.makes →
    job.cell.table = job'.cell.table → c = d
  sound : ∀ e ∈ s.log, Sound crypto policies s.db e

theorem Inv.init : Inv crypto policies St.init where
  row t dek h := by cases h
  cache p t dek h := by cases h
  fine c p job stage h := by cases h
  hasRow c p job stage h := by cases h
  held c p job stage dek h := by cases h
  makes c p job stage h := by cases h
  alone c p job stage d p' job' stage' h := by cases h
  sound e h := by cases h

theorem identifier_plain {t : JsString} (h : t.all isIdentUnit = true) :
    unit '|' ∉ t ∧ WellFormed t := by
  have hunit : ∀ u ∈ t, isIdentUnit u = true := List.all_eq_true.mp h
  refine ⟨fun hmem => absurd (hunit _ hmem) (by decide), wellFormed_of_plain fun u hu => ?_⟩
  have := hunit u hu
  simp only [isIdentUnit, Bool.or_eq_true, Bool.and_eq_true, decide_eq_true_eq, beq_iff_eq] at this
  omega

theorem plain_of_accepted {cell : Cell} {plaintext : JsString} {inMigrate : Bool}
    (h : accepted policies (.encrypt cell plaintext inMigrate) = true)
    (hwf : WellFormed cell.rowId) : cell.Plain := by
  simp only [accepted, Bool.and_eq_true, Option.any_eq_true] at h
  obtain ⟨-, policy, hpolicy, -, hcolumn⟩ := h
  obtain ⟨htable, hcolumns⟩ := policies.identifiers _ _ hpolicy
  obtain ⟨hbar, htableWf⟩ := identifier_plain htable
  obtain ⟨hbar', hcolumnWf⟩ := identifier_plain (hcolumns _ (List.contains_iff_mem.mp hcolumn))
  exact ⟨hbar, hbar', htableWf, hwf, hcolumnWf⟩

/-- Nobody else makes a key for the table. -/
def Alone (s : St) (c : Nat) (table : JsString) : Prop :=
  ∀ d p job stage, d ≠ c → s.pc d = .run p job stage → job.cell.table = table → ¬ stage.makes

/-- What a call may do with itself while the policies stay as they are. -/
structure Moves (crypto : Crypto Key Nonce) (policies : Policies) (s s' : St) (c : Nat) : Prop where
  others : ∀ d, d ≠ c → s'.pc d = s.pc d
  db : s'.db = s.db
  cache : ∀ p t dek, s'.dekCache p t = some dek → s.db t = some dek
  sound : ∀ e ∈ s'.log, Sound crypto policies s.db e
  fine : ∀ p job stage, s'.pc c = .run p job stage → job.Fine policies
  hasRow : ∀ p job stage, s'.pc c = .run p job stage → stage.hasRow →
    (policies.get job.cell.table).isSome
  held : ∀ p job stage dek, s'.pc c = .run p job stage → stage.dek = some dek →
    s.db job.cell.table = some dek
  makes : ∀ p job stage, s'.pc c = .run p job stage → stage.makes →
    s.db job.cell.table = none ∧ Alone s c job.cell.table

theorem Inv.moved (h : Inv crypto policies s) {c : Nat} (hm : Moves crypto policies s s' c) :
    Inv crypto policies s' where
  row := by
    rw [hm.db]
    exact h.row
  cache := by
    rw [hm.db]
    exact hm.cache
  fine d p job stage hd := by
    by_cases heq : d = c
    · subst heq
      exact hm.fine p job stage hd
    · exact h.fine d p job stage (hm.others d heq ▸ hd)
  hasRow d p job stage hd := by
    by_cases heq : d = c
    · subst heq
      exact hm.hasRow p job stage hd
    · exact h.hasRow d p job stage (hm.others d heq ▸ hd)
  held d p job stage dek hd := by
    rw [hm.db]
    by_cases heq : d = c
    · subst heq
      exact hm.held p job stage dek hd
    · exact h.held d p job stage dek (hm.others d heq ▸ hd)
  makes d p job stage hd hmakes := by
    rw [hm.db]
    by_cases heq : d = c
    · subst heq
      exact (hm.makes p job stage hd hmakes).1
    · exact h.makes d p job stage (hm.others d heq ▸ hd) hmakes
  alone d p job stage e p' job' stage' hd he hmakes hmakes' htable := by
    by_cases heqd : d = c
    · subst heqd
      by_contra hne
      exact (hm.makes p job stage hd hmakes).2 e p' job' stage' (Ne.symm hne)
        (hm.others e (Ne.symm hne) ▸ he) htable.symm hmakes'
    · by_cases heqe : e = c
      · subst heqe
        exact absurd hmakes ((hm.makes p' job' stage' he hmakes').2 d p job stage heqd
          (hm.others d heqd ▸ hd) htable)
      · exact h.alone d p job stage e p' job' stage' (hm.others d heqd ▸ hd)
          (hm.others e heqe ▸ he) hmakes hmakes' htable
  sound := by
    rw [hm.db]
    exact hm.sound

theorem setPc_self (s : St) (c : Nat) (pc : Pc) : (s.setPc c pc).pc c = pc := if_pos rfl

theorem setPc_other (s : St) {c d : Nat} (pc : Pc) (h : d ≠ c) : (s.setPc c pc).pc d = s.pc d :=
  if_neg h

/-- A call that ends, or waits for no key, with what it logs. -/
theorem Inv.ended (h : Inv crypto policies s) {c : Nat} {pc : Pc} {log : List Entry}
    (hpc : ∀ p job stage, pc ≠ .run p job stage)
    (hlog : ∀ e ∈ log, Sound crypto policies s.db e) :
    Inv crypto policies { s.setPc c pc with log := log } :=
  have hself : ∀ p job stage, (s.setPc c pc).pc c ≠ .run p job stage := by
    intro p job stage
    rw [setPc_self]
    exact hpc p job stage
  h.moved (c := c) {
    others := fun d hd => setPc_other s pc hd
    db := rfl
    cache := h.cache
    sound := hlog
    fine := fun p job stage hc => absurd hc (hself p job stage)
    hasRow := fun p job stage hc => absurd hc (hself p job stage)
    held := fun p job stage dek hc => absurd hc (hself p job stage)
    makes := fun p job stage hc => absurd hc (hself p job stage) }

/-- A call that goes on to another stage. -/
theorem Inv.staged (h : Inv crypto policies s) {c : Nat} {p : Proc} {job : Job} {stage : Stage}
    {cache : Proc → JsString → Option Dek} (hfine : job.Fine policies)
    (hcache : ∀ q t dek, cache q t = some dek → s.db t = some dek)
    (hrow : stage.hasRow → (policies.get job.cell.table).isSome)
    (hheld : ∀ dek, stage.dek = some dek → s.db job.cell.table = some dek)
    (hmakes : stage.makes → s.db job.cell.table = none ∧ Alone s c job.cell.table) :
    Inv crypto policies ({ s with dekCache := cache }.setPc c (.run p job stage)) := by
  have hself : ∀ p' job' stage',
      ({ s with dekCache := cache }.setPc c (.run p job stage)).pc c = .run p' job' stage' →
        p = p' ∧ job = job' ∧ stage = stage' := by
    intro p' job' stage' heq
    rw [setPc_self, Pc.run.injEq] at heq
    exact heq
  refine h.moved (c := c) ⟨fun d hd => setPc_other _ _ hd, rfl, hcache, h.sound, ?_, ?_, ?_, ?_⟩
  · intro p' job' stage' heq
    obtain ⟨rfl, rfl, rfl⟩ := hself p' job' stage' heq
    exact hfine
  · intro p' job' stage' heq
    obtain ⟨rfl, rfl, rfl⟩ := hself p' job' stage' heq
    exact hrow
  · intro p' job' stage' dek heq
    obtain ⟨rfl, rfl, rfl⟩ := hself p' job' stage' heq
    exact hheld dek
  · intro p' job' stage' heq
    obtain ⟨rfl, rfl, rfl⟩ := hself p' job' stage' heq
    exact hmakes

/-! ## The steps -/

theorem Inv.throws (h : Inv crypto policies s) {c : Nat} {job : Job}
    (hjob : ∀ cell ciphertext, job = .decrypt cell ciphertext →
      Sound crypto policies s.db (.decrypted cell ciphertext none)) :
    Inv crypto policies (s.throws c job) := by
  cases job with
  | encrypt cell plaintext inMigrate => exact h.ended (by simp) h.sound
  | decrypt cell ciphertext =>
      refine h.ended (by simp) fun e he => ?_
      obtain he | he := List.mem_append.mp he
      · exact h.sound e he
      · rw [List.mem_singleton.mp he]
        exact hjob cell ciphertext rfl

theorem Inv.enter (h : Inv crypto policies s) {c : Nat} {p : Proc} {job : Job}
    (hfine : accepted policies job = true → job.Fine policies) :
    Inv crypto policies (s.enter policies c p job) := by
  rw [St.enter]
  split
  next hacc =>
    rw [St.ensureDek]
    cases hdek : s.dekCache p job.cell.table with
    | none => exact h.staged (hfine hacc) h.cache False.elim (by simp [Stage.dek]) False.elim
    | some dek =>
        have hdb := h.cache _ _ _ hdek
        refine h.staged (hfine hacc) h.cache (fun _ => h.row _ _ hdb) ?_ False.elim
        intro dek' heq
        rw [hdb]
        exact heq
  next hacc =>
    refine h.throws fun cell ciphertext hjob => .badCiphertext ?_
    subst hjob
    exact Bool.eq_false_iff.mpr hacc

theorem Inv.finish (h : Inv crypto policies s) {c : Nat} {p : Proc} {job : Job} {dek : Dek}
    {nonce : Nonce} (hfine : job.Fine policies) (hdb : s.db job.cell.table = some dek) :
    Inv crypto policies (s.finish crypto c p job dek nonce) := by
  cases job with
  | encrypt cell plaintext inMigrate =>
      obtain ⟨hacc, hrowId, htext⟩ := hfine
      have hplain := plain_of_accepted hacc hrowId
      refine h.ended ?_ fun e he => ?_
      · intro p' job' stage'
        split <;> simp
      · obtain he | he := List.mem_append.mp he
        · exact h.sound e he
        · rw [List.mem_singleton.mp he]
          exact .encrypted nonce hplain htext hdb
  | decrypt cell ciphertext =>
      obtain ⟨hcolumn, hwf⟩ := hfine
      obtain ⟨policy, hpolicy⟩ := Option.isSome_iff_exists.mp (h.row _ _ hdb)
      obtain ⟨hbar, htable⟩ := identifier_plain (policies.identifiers _ _ hpolicy).1
      have hplain : cell.Plain := ⟨hbar, hcolumn, htable, hwf⟩
      refine h.ended (by simp) fun e he => ?_
      obtain he | he := List.mem_append.mp he
      · exact h.sound e he
      · rw [List.mem_singleton.mp he]
        exact .decrypted hplain hdb

/-- The write of a key, by the one call that makes one for its table. -/
theorem Inv.write (h : Inv crypto policies s) {c : Nat} {p : Proc} {job : Job} {dek : Dek}
    (hc : s.pc c = .run p job (.writing dek)) :
    Inv crypto policies ({ s with
      db := fun t => if t = job.cell.table then some dek else s.db t }.setPc c
        (.run p job (.wrote dek))) := by
  have hnone : s.db job.cell.table = none := h.makes c p job _ hc trivial
  have hgrows : ∀ t d, s.db t = some d →
      (if t = job.cell.table then some dek else s.db t) = some d := by
    intro t d hd
    rw [if_neg]
    · exact hd
    · rintro rfl
      rw [hnone] at hd
      cases hd
  have hpc : ∀ d p' job' stage',
      (if d = c then Pc.run p job (.wrote dek) else s.pc d) = .run p' job' stage' →
      (d = c ∧ job' = job ∧ stage' = .wrote dek) ∨ (d ≠ c ∧ s.pc d = .run p' job' stage') := by
    intro d p' job' stage' heq
    split at heq
    next hd =>
      rw [Pc.run.injEq] at heq
      exact .inl ⟨hd, heq.2.1.symm, heq.2.2.symm⟩
    next hd => exact .inr ⟨hd, heq⟩
  constructor
  · intro t d hd
    change (if t = job.cell.table then some dek else s.db t) = some d at hd
    split at hd
    next ht =>
      rw [ht]
      exact h.hasRow c p job _ hc trivial
    next => exact h.row t d hd
  · exact fun q t d hd => hgrows t d (h.cache q t d hd)
  · intro d p' job' stage' heq
    obtain ⟨-, rfl, -⟩ | ⟨-, heq⟩ := hpc d p' job' stage' heq
    · exact h.fine c p job' _ hc
    · exact h.fine d p' job' stage' heq
  · intro d p' job' stage' heq hrow
    obtain ⟨-, rfl, -⟩ | ⟨-, heq⟩ := hpc d p' job' stage' heq
    · exact h.hasRow c p job' _ hc trivial
    · exact h.hasRow d p' job' stage' heq hrow
  · intro d p' job' stage' dek' heq hdek
    show (if job'.cell.table = job.cell.table then some dek else s.db job'.cell.table) = some dek'
    obtain ⟨-, rfl, rfl⟩ | ⟨-, heq⟩ := hpc d p' job' stage' heq
    · rw [if_pos rfl]
      exact hdek
    · exact hgrows _ _ (h.held d p' job' stage' dek' heq hdek)
  · intro d p' job' stage' heq hmakes
    show (if job'.cell.table = job.cell.table then some dek else s.db job'.cell.table) = none
    obtain ⟨-, -, rfl⟩ | ⟨hne, heq⟩ := hpc d p' job' stage' heq
    · exact hmakes.elim
    · rw [if_neg]
      · exact h.makes d p' job' stage' heq hmakes
      · intro htable
        exact hne (h.alone d p' job' stage' c p job _ heq hc hmakes trivial htable)
  · intro d p' job' stage' e p'' job'' stage'' hd he hmakes hmakes' htable
    obtain ⟨-, -, rfl⟩ | ⟨-, hd⟩ := hpc d p' job' stage' hd
    · exact hmakes.elim
    obtain ⟨-, -, rfl⟩ | ⟨-, he⟩ := hpc e p'' job'' stage'' he
    · exact hmakes'.elim
    exact h.alone d p' job' stage' e p'' job'' stage'' hd he hmakes hmakes' htable
  · exact fun e he => (h.sound e he).mono hgrows

theorem Inv.restart (h : Inv crypto policies s) (p : Proc) :
    Inv crypto policies { s with
      dekCache := fun q => if q = p then fun _ => none else s.dekCache q
      pc := fun c => if (s.pc c).ofProc p then .done else s.pc c } := by
  have hpc : ∀ c q job stage,
      (if (s.pc c).ofProc p then Pc.done else s.pc c) = .run q job stage →
      s.pc c = .run q job stage := by
    intro c q job stage heq
    split at heq
    · cases heq
    · exact heq
  exact {
    row := h.row
    cache := fun q t dek hq => by
      change (if q = p then fun _ => none else s.dekCache q) t = some dek at hq
      split at hq
      · cases hq
      · exact h.cache q t dek hq
    fine := fun c q job stage hc => h.fine c q job stage (hpc c q job stage hc)
    hasRow := fun c q job stage hc => h.hasRow c q job stage (hpc c q job stage hc)
    held := fun c q job stage dek hc => h.held c q job stage dek (hpc c q job stage hc)
    makes := fun c q job stage hc => h.makes c q job stage (hpc c q job stage hc)
    alone := fun c q job stage d q' job' stage' hc hd => h.alone c q job stage d q' job' stage'
      (hpc c q job stage hc) (hpc d q' job' stage' hd)
    sound := h.sound }

/-! ## Runs -/

/-- No call reads a policy between another one's empty read and its write, and the texts that
calls are given are well formed, with no bar in a column that is decrypted. -/
def Orderly (s : St) : Act Nonce → Prop
  | .read c => ∀ p job stage, s.pc c = .run p job stage → Alone s c job.cell.table
  | .encryptCell _ _ cell plaintext => WellFormed cell.rowId ∧ WellFormed plaintext
  | .next _ rowId _ plaintext => WellFormed rowId ∧ WellFormed plaintext
  | .decryptCell _ _ cell _ =>
      unit '|' ∉ cell.column ∧ WellFormed cell.rowId ∧ WellFormed cell.column
  | _ => True

theorem setCache_le (h : Inv crypto policies s) {p : Proc} {table : JsString} {dek : Dek}
    (hdb : s.db table = some dek) (q : Proc) (t : JsString) (dek' : Dek)
    (hq : (s.setCache p table dek).dekCache q t = some dek') : s.db t = some dek' := by
  change (if q = p ∧ t = table then some dek else s.dekCache q t) = some dek' at hq
  split at hq
  next heq =>
    rw [heq.2, hdb]
    exact hq
  next => exact h.cache q t dek' hq

/-- A call that holds the key of the database keeps it in the cache and goes on with it. -/
theorem Inv.ready (h : Inv crypto policies s) {c : Nat} {p : Proc} {job : Job} {stage : Stage}
    {dek : Dek} (hc : s.pc c = .run p job stage) (hdek : stage.dek = some dek)
    (hrow : stage.hasRow) :
    Inv crypto policies
      ((s.setCache p job.cell.table dek).setPc c (.run p job (.ready dek))) := by
  have hdb := h.held c p job stage dek hc hdek
  refine h.staged (h.fine c p job stage hc) (setCache_le h hdb)
    (fun _ => h.hasRow c p job stage hc hrow) (fun dek' heq => ?_) False.elim
  rw [hdb]
  exact heq

theorem Inv.step (h : Inv crypto policies s) {a : Act Nonce} (hok : Orderly s a)
    (hstep : step crypto policies s a = some s') : Inv crypto policies s' := by
  cases a with
  | encryptCell c p cell plaintext =>
      simp only [CellKey.step] at hstep
      split at hstep
      · cases hstep
        exact h.enter fun hacc => ⟨hacc, hok⟩
      · cases hstep
  | decryptCell c p cell ciphertext =>
      simp only [CellKey.step] at hstep
      split at hstep
      · cases hstep
        exact h.enter fun _ => hok
      · cases hstep
  | migrate c p table =>
      simp only [CellKey.step] at hstep
      split at hstep
      · cases hstep
        refine h.ended ?_ h.sound
        intro p' job stage
        split <;> simp
      · cases hstep
  | next c rowId column plaintext =>
      simp only [CellKey.step] at hstep
      split at hstep
      · cases hstep
        exact h.enter fun hacc => ⟨hacc, hok⟩
      · cases hstep
  | migrated c =>
      simp only [CellKey.step] at hstep
      split at hstep
      · cases hstep
        exact h.ended (by simp) h.sound
      · cases hstep
  | read c =>
      simp only [CellKey.step] at hstep
      split at hstep
      next p job hc =>
        cases hstep
        split
        next hrow =>
          have hfine := h.fine c p job _ hc
          refine h.staged hfine h.cache (fun _ => hrow) (fun _ heq => heq) fun hmakes => ?_
          refine ⟨?_, hok p job _ hc⟩
          cases hdb : s.db job.cell.table with
          | none => rfl
          | some dek =>
              rw [hdb] at hmakes
              exact hmakes.elim
        next hrow =>
          refine h.throws fun cell ciphertext hjob => .noPolicy ?_
          subst hjob
          exact Option.not_isSome_iff_eq_none.mp hrow
      · cases hstep
  | resume c dek =>
      simp only [CellKey.step] at hstep
      split at hstep
      next p job sealedDek hc =>
        cases hstep
        exact h.ready hc rfl trivial
      next p job hc =>
        cases hstep
        refine h.staged (h.fine c p job _ hc) h.cache
          (fun _ => h.hasRow c p job _ hc trivial) (by simp [Stage.dek]) fun _ => ?_
        refine ⟨h.makes c p job _ hc trivial, fun d p' job' stage' hne hd htable hmakes => ?_⟩
        exact hne (h.alone d p' job' stage' c p job _ hd hc hmakes trivial htable)
      · cases hstep
  | write c =>
      simp only [CellKey.step] at hstep
      split at hstep
      next p job dek hc =>
        cases hstep
        exact h.write hc
      · cases hstep
  | written c =>
      simp only [CellKey.step] at hstep
      split at hstep
      next p job dek hc =>
        cases hstep
        exact h.ready hc rfl trivial
      · cases hstep
  | finish c nonce =>
      simp only [CellKey.step] at hstep
      split at hstep
      next p job dek hc =>
        cases hstep
        exact h.finish (h.fine c p job _ hc) (h.held c p job _ dek hc rfl)
      · cases hstep
  | restart p =>
      simp only [CellKey.step] at hstep
      cases hstep
      exact h.restart p

theorem Inv.readable (hideal : Ideal crypto) (h : Inv crypto policies s) : Readable s := by
  intro cell plaintext ciphertext hencrypted cell' result hdecrypted
  have hsound := h.sound _ hencrypted
  have hsound' := h.sound _ hdecrypted
  cases hsound with
  | @encrypted _ _ dek nonce hplain hwf hdb =>
      cases hsound' with
      | @decrypted _ _ dek' hplain' hdb' =>
          refine decryptWith_encryptWith hideal hplain hplain' (fun heq => ?_) hwf
          rw [heq, hdb'] at hdb
          exact Option.some.inj hdb
      | badCiphertext hbad =>
          have hbegins : cellPrefix.isPrefixOf
              (encryptWith crypto nonce dek cell plaintext) = true :=
            List.isPrefixOf_iff_prefix.mpr (List.prefix_append _ _)
          rw [hbegins] at hbad
          cases hbad
      | noPolicy hno =>
          rw [if_neg]
          rintro rfl
          have hrow := h.row _ _ hdb
          rw [hno] at hrow
          cases hrow

/-- In every orderly run each ciphertext is its text for its own cell, and nothing for any
other. -/
theorem readable_of_reach (hideal : Ideal crypto)
    (h : Reach (step crypto policies) Orderly St.init s) : Readable s :=
  (h.invariant Inv.init fun _ _ _ hI hok hstep => hI.step hok hstep).readable hideal

/-- A cipher that writes the key and the additional data in front of the text. -/
def clearCrypto : Crypto Bytes Unit where
  sha3Hash := utf8
  kdf := id
  encryptPacked := VaultAad.clearCrypto.encryptPacked
  decryptPacked := VaultAad.clearCrypto.decryptPacked

theorem clearCrypto_ideal : Ideal clearCrypto where
  kdf_injective := Function.injective_id
  opens := VaultAad.clearCrypto_ideal.opens
  refuses := VaultAad.clearCrypto_ideal.refuses

/-- One table with one column under a cryptographic policy. -/
def patients : Policies where
  get table := if table = units "patients" then some ⟨[units "ssn"], true⟩ else none
  identifiers table policy h := by
    split at h
    next ht =>
      cases h
      rw [ht]
      exact ⟨rfl, fun column hcolumn => List.mem_singleton.mp hcolumn ▸ rfl⟩
    next => cases h

def ssnCell : Cell := ⟨units "patients", units "7", units "ssn"⟩

def firstDek : Dek := ⟨List.replicate dekBytes 1, List.length_replicate⟩

def secondDek : Dek := ⟨List.replicate dekBytes 2, List.length_replicate⟩

/-- The ciphertext under the first key. -/
def ssnText : JsString := encryptWith clearCrypto () firstDek ssnCell (units "123")

def otherCell : Cell := ⟨units "patients", units "8", units "ssn"⟩

/-- One process encrypts a cell, and another one reads it; the first one starts again and
migrates the row after it, under which the second one reads the text of the first cell. -/
def quietRun : List (Act Unit) :=
  [.encryptCell 0 0 ssnCell (units "123"), .read 0, .resume 0 firstDek, .write 0, .written 0,
    .finish 0 (), .decryptCell 1 1 ssnCell ssnText, .read 1, .resume 1 firstDek, .finish 1 (),
    .restart 0, .migrate 2 0 (units "patients"), .next 2 (units "8") (units "ssn") (units "456"),
    .read 2, .resume 2 firstDek, .finish 2 (), .migrated 2, .decryptCell 3 1 otherCell ssnText,
    .finish 3 ()]

theorem readable_quiet : ∃ s, exec (step clearCrypto patients) St.init quietRun = some s ∧
    Readable s := by
  obtain ⟨s, hexec⟩ : ∃ s, exec (step clearCrypto patients) St.init quietRun = some s := ⟨_, rfl⟩
  have halone : ∀ (s : St) c, (∀ d p job stage, d ≠ c → s.pc d = .run p job stage → False) →
      ∀ p job stage, s.pc c = .run p job stage → Alone s c job.cell.table :=
    fun s c hno p job stage _ d p' job' stage' hne hd _ _ => hno d p' job' stage' hne hd
  have hmeets : Meets (step clearCrypto patients) Orderly St.init quietRun := by
    refine ⟨⟨by decide, by decide⟩, halone _ _ ?_, trivial, trivial, trivial, trivial,
      ⟨by decide, by decide, by decide⟩, halone _ _ ?_, trivial, trivial, trivial, trivial,
      ⟨by decide, by decide⟩, halone _ _ ?_, trivial, trivial, trivial,
      ⟨by decide, by decide, by decide⟩, trivial, trivial⟩
    · rintro (_ | d) p job stage hne hd
      · exact hne rfl
      · cases hd
    · rintro (_ | _ | d) p job stage hne hd
      · cases hd
      · exact hne rfl
      · cases hd
    · rintro (_ | _ | _ | d) p job stage hne hd
      · cases hd
      · cases hd
      · exact hne rfl
      · cases hd
  exact ⟨s, hexec, readable_of_reach clearCrypto_ideal (reach_of_meets _ hmeets hexec)⟩

/-- Two processes encrypt, and both have read that there is no key; a third one decrypts. -/
def raceRun : List (Act Unit) :=
  [.encryptCell 0 0 ssnCell (units "123"), .encryptCell 1 1 ssnCell (units "456"), .read 0,
    .read 1, .resume 0 firstDek, .resume 1 secondDek, .write 0, .write 1, .written 0,
    .finish 0 (), .decryptCell 2 2 ssnCell ssnText, .read 2, .resume 2 firstDek, .finish 2 ()]

/-- The first process has used the key that the second one wrote over. -/
theorem unreadable_race : ∃ s, Reach (step clearCrypto patients) Always St.init s ∧
    ¬ Readable s := by
  obtain ⟨s, hexec⟩ : ∃ s, exec (step clearCrypto patients) St.init raceRun = some s := ⟨_, rfl⟩
  refine ⟨s, reach_of_exec _ hexec, fun h => ?_⟩
  have hlog : (exec (step clearCrypto patients) St.init raceRun).map St.log =
      some [.encrypted ssnCell (units "123") ssnText,
        .decrypted ssnCell ssnText (decryptWith clearCrypto secondDek ssnCell ssnText)] := rfl
  rw [hexec, Option.map_some, Option.some.injEq] at hlog
  have hkey : kCell clearCrypto secondDek ssnCell ≠ kCell clearCrypto firstDek ssnCell :=
    fun heq => absurd (congrArg List.head? heq) (by decide)
  have hnone : decryptWith clearCrypto secondDek ssnCell ssnText = none := by
    rw [decryptWith, ssnText, encryptWith, List.drop_left, ofBase64_toBase64,
      clearCrypto_ideal.refuses _ _ _ _ _ _ (.inl hkey)]
    rfl
  have hresult := h ssnCell (units "123") ssnText (by rw [hlog]; simp) ssnCell
    (decryptWith clearCrypto secondDek ssnCell ssnText) (by rw [hlog]; simp)
  rw [hnone, if_pos rfl] at hresult
  cases hresult

end Blamejs.CellKey
