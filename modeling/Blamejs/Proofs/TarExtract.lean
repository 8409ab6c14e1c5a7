import Blamejs.Ref.TarExtract

/-!
# What an extraction that is rejected leaves behind

Up to its error the loop adds directories, and files and links at places where nothing was:
`Grown` says so, and it holds as long as nothing lies where a file is written. Whatever is
added keeps the place of every path that is recorded, so the removals of the rollback take
away these places and no others, and the rollback is complete just when it comes to
each of them: it passes over a path that does not lead to something any more, as that of
a link whose target it has removed, and it ends at the first removal that throws.
-/

namespace Blamejs.TarExtract

open Blamejs.Js FileTree

variable {P : Platform} {o : Options} {fs₀ fs fs' F : Fs} {rmFails : Path → Bool}
variable {ws written : List Path} {ps places : List (Place JsString)} {p : Place JsString}

/-! ## The rollback -/

/-- Each path of the rollback leads to something when its turn comes, and its removal
does not throw. -/
def AllFound (rmFails : Path → Bool) : Fs → List Path → Prop
  | _, [] => True
  | fs, path :: rest =>
      existsSync fs path = true ∧
        ∃ fs', rmSync rmFails fs path = some fs' ∧ AllFound rmFails fs' rest

/-- What is removed is what is at the place of the path. -/
theorem rmSync_some {path : Path} (h : rmSync rmFails fs path = some fs') :
    ∃ p, locate fs path = some p ∧ fs' = remove fs p := by
  rw [rmSync] at h
  split at h
  · cases h
  · split at h
    · cases h
    · next p hlocate =>
        split at h
        · cases h
        · cases h
        · cases h
          exact ⟨p, hlocate, rfl⟩

/-- Before the rollback a path had this place, so it has it as long as it has one. -/
theorem rmSync_place {path : Path} (hext : Extends fs F) (hF : locate F path = some p)
    (h : rmSync rmFails fs path = some fs') : fs' = remove fs p := by
  obtain ⟨q, hq, rfl⟩ := rmSync_some h
  have heq : some q = some p := (locate_extends hext hq).symm.trans hF
  cases heq
  rfl

theorem rollback_extends (fs : Fs) (ws : List Path) : Extends (rollback rmFails fs ws) fs := by
  induction ws generalizing fs with
  | nil => exact Extends.refl fs
  | cons path rest ih =>
      rw [rollback]
      split
      · split
        · exact Extends.refl fs
        · next fs' hrm =>
            obtain ⟨p, -, rfl⟩ := rmSync_some hrm
            exact (ih _).trans (remove_extends fs p)
      · exact ih fs

/-- The paths have these places in the file system that the rollback starts from. -/
abbrev Placed (F : Fs) (ws : List Path) (ps : List (Place JsString)) : Prop :=
  List.Forall₂ (fun path p => locate F path = some p) ws ps

/-- Nothing but the places of the paths is removed. -/
theorem rollback_frame (hext : Extends fs F) (hws : Placed F ws ps) (hp : p ∉ ps) :
    rollback rmFails fs ws p = fs p := by
  induction hws generalizing fs with
  | nil => rfl
  | @cons path q ws ps hpath _ ih =>
      have hne : p ≠ q := fun heq => hp (heq ▸ List.mem_cons_self)
      have hrest : p ∉ ps := fun hmem => hp (List.mem_cons_of_mem q hmem)
      rw [rollback]
      split
      · cases hrm : rmSync rmFails fs path with
        | none => rfl
        | some fs' =>
            cases rmSync_place hext hpath hrm
            show rollback rmFails (remove fs q) ws p = fs p
            rw [ih ((remove_extends fs q).trans hext) hrest]
            exact remove_of_ne hne
      · exact ih hext hrest

/-- Every place of the paths is empty after the rollback just when it found them all. -/
theorem rollback_empty (hext : Extends fs F) (hws : Placed F ws ps) (hps : ps.Nodup)
    (hfs : ∀ p ∈ ps, fs p ≠ none) :
    (∀ p ∈ ps, rollback rmFails fs ws p = none) ↔ AllFound rmFails fs ws := by
  induction hws generalizing fs with
  | nil => simp [AllFound]
  | @cons path q ws ps hpath hws ih =>
      obtain ⟨hq, hps⟩ := List.nodup_cons.mp hps
      have hqfs : fs q ≠ none := hfs q List.mem_cons_self
      -- removing its own place leaves what the paths after it still have to find
      have hrest : ∀ p ∈ ps, remove fs q p ≠ none := by
        intro p hp
        rw [remove_of_ne (fun heq : p = q => hq (heq ▸ hp))]
        exact hfs p (List.mem_cons_of_mem q hp)
      have hext' : Extends (remove fs q) F := (remove_extends fs q).trans hext
      rw [AllFound, rollback]
      cases hexists : existsSync fs path with
      | false =>
          -- passed over: what is at its place stays
          rw [if_neg Bool.false_ne_true]
          constructor
          · intro hempty
            have hqempty := hempty q List.mem_cons_self
            rw [rollback_frame hext hws hq] at hqempty
            exact absurd hqempty hqfs
          · rintro ⟨hfalse, -⟩
            cases hfalse
      | true =>
          rw [if_pos rfl]
          cases hrm : rmSync rmFails fs path with
          | none =>
              constructor
              · intro hempty
                exact absurd (hempty q List.mem_cons_self) hqfs
              · rintro ⟨-, fs', hfs', -⟩
                cases hfs'
          | some fs' =>
              cases rmSync_place hext hpath hrm
              constructor
              · intro hempty
                have hfound := (ih hext' hps hrest).mp fun p hp =>
                  hempty p (List.mem_cons_of_mem q hp)
                exact ⟨rfl, _, rfl, hfound⟩
              · rintro ⟨-, fs', hfs', hfound⟩ p hp
                cases hfs'
                rcases List.mem_cons.mp hp with rfl | hp
                · show rollback rmFails (remove fs p) ws p = none
                  rw [rollback_frame hext' hws hq]
                  exact remove_self fs p
                · exact (ih hext' hps hrest).mpr hfound p hp

/-! ## The loop -/

/-- What the loop has made of a file system: `places` are the places of the paths that
were recorded. -/
structure Grown (fs₀ fs : Fs) (written : List Path) (places : List (Place JsString)) : Prop where
  placed : Placed fs written places
  nodup : places.Nodup
  /-- At each of them something was made that is no directory. -/
  made : ∀ p ∈ places, fs₀ p = none ∧ ∃ node, fs p = some node ∧ node ≠ .dir
  rest : ∀ p, p ∉ places → fs p = fs₀ p ∨ (fs₀ p = none ∧ fs p = some .dir)

theorem Grown.start (fs₀ : Fs) : Grown fs₀ fs₀ [] [] where
  placed := .nil
  nodup := List.nodup_nil
  made p hp := by cases hp
  rest _ _ := Or.inl rfl

theorem Placed.extends {ws : List Path} (hext : Extends fs fs') (hws : Placed fs ws ps) :
    Placed fs' ws ps := hws.imp fun _ _ h => locate_extends hext h

theorem Grown.addsDirs (hgrown : Grown fs₀ fs written places) (hdirs : AddsDirs fs fs') :
    Grown fs₀ fs' written places where
  placed := hgrown.placed.extends hdirs.extends
  nodup := hgrown.nodup
  made p hp := by
    obtain ⟨hnone, node, hnode, hdir⟩ := hgrown.made p hp
    exact ⟨hnone, node, hdirs.extends p node hnode, hdir⟩
  rest p hp := by
    rcases hdirs p with heq | ⟨hnone, hdir⟩
    · rw [heq]
      exact hgrown.rest p hp
    · rcases hgrown.rest p hp with heq₀ | ⟨-, hdir₀⟩
      · exact Or.inr ⟨heq₀ ▸ hnone, hdir⟩
      · rw [hnone] at hdir₀
        cases hdir₀

theorem Grown.put {path : Path} {node : Node JsString} (hgrown : Grown fs₀ fs written places)
    (hlocate : locate fs path = some p) (hnew : fs p = none) (hnode : node ≠ .dir) :
    Grown fs₀ (FileTree.put fs p node) (written ++ [path]) (places ++ [p]) where
  placed := by
    have hext : Extends fs (FileTree.put fs p node) := extends_put hnew
    exact List.rel_append (hgrown.placed.extends hext)
      (.cons (locate_extends hext hlocate) .nil)
  nodup := by
    rw [List.nodup_append]
    refine ⟨hgrown.nodup, List.nodup_singleton p, ?_⟩
    rintro q hq r hr rfl
    obtain ⟨-, node, hsome, -⟩ := hgrown.made q hq
    rw [List.mem_singleton.mp hr, hnew] at hsome
    cases hsome
  made q hq := by
    rcases List.mem_append.mp hq with hq | hq
    · obtain ⟨hnone, node', hnode', hdir⟩ := hgrown.made q hq
      exact ⟨hnone, node', extends_put hnew q node' hnode', hdir⟩
    · rw [List.mem_singleton.mp hq]
      refine ⟨?_, node, put_self .., hnode⟩
      by_cases hmem : p ∈ places
      · exact (hgrown.made p hmem).1
      · rcases hgrown.rest p hmem with heq | ⟨hnone, -⟩
        · rw [← heq, hnew]
        · exact hnone
  rest q hq := by
    have hne : q ≠ p := fun heq => hq (by simp [heq])
    rw [put_of_ne hne]
    exact hgrown.rest q fun hmem => hq (List.mem_append_left _ hmem)

theorem mkdirSync_addsDirs (fate : Fate) (fs : Fs) (path : Path) :
    AddsDirs fs (mkdirSync fate fs path).1 := by
  rw [mkdirSync]
  split
  · exact AddsDirs.refl fs
  · exact mkdirs_addsDirs fs [] path

theorem ensureDir_addsDirs (fate : Fate) (fs : Fs) (dir : Path) :
    AddsDirs fs (ensureDir fate fs dir).1 := by
  rw [ensureDir]
  split
  · exact AddsDirs.refl fs
  · exact mkdirSync_addsDirs fate fs dir

/-- A step that did not throw recorded nothing and added directories, or it recorded a path
and made something there that is no directory. -/
inductive Made (fs : Fs) : Fs → Option Path → Prop where
  | dirs {fs' : Fs} (hdirs : AddsDirs fs fs') : Made fs fs' none
  | node {fs' : Fs} {path : Path} {p : Place JsString} {node : Node JsString}
      (hdirs : AddsDirs fs fs') (hlocate : locate fs' path = some p) (hnew : fs' p = none)
      (hnode : node ≠ .dir) : Made fs (put fs' p node) (some path)

theorem createAt_some {path : Path} {node : Node JsString} (h : createAt fs path node = some fs') :
    ∃ p, locate fs path = some p ∧ fs p = none ∧ fs' = put fs p node := by
  rw [createAt] at h
  split at h
  · cases h
  · next p hlocate =>
      split at h
      · next hnone =>
          cases h
          exact ⟨p, hlocate, hnone, rfl⟩
      · cases h

theorem made_of_createAt {path : Path} {node : Node JsString} (hnode : node ≠ .dir)
    (h : createAt fs path node = some fs') : Made fs fs' (some path) := by
  obtain ⟨p, hlocate, hnone, rfl⟩ := createAt_some h
  exact .node (AddsDirs.refl fs) hlocate hnone hnode

theorem made_of_symlinkSync {fate : Fate} {linkname : JsString} {path : Path}
    (h : symlinkSync fate fs linkname path = some fs') : Made fs fs' (some path) := by
  rw [symlinkSync] at h
  split at h
  · cases h
  · exact made_of_createAt (fun heq => by cases heq) h

theorem made_of_linkSync {fate : Fate} {target path : Path}
    (h : linkSync fate fs target path = some fs') : Made fs fs' (some path) := by
  rw [linkSync] at h
  split at h
  · cases h
  · split at h
    · cases h
    · cases h
    · next hnode _ => exact made_of_createAt hnode h

/-- In the state just before a file entry is written nothing lies at its path; and where
its write fails the temporary file is unlinked. -/
def WritesNew (P : Platform) (o : Options) (fs : Fs) (total : Nat) (entry : Entry)
    (fate : Fate) : Prop :=
  classifyEntry entry = .file → ∀ path, P.verify fs entry.name = some path →
    existsSync fs path = false → (ensureDir fate fs path.dropLast).2 = true →
      total + entry.body.length ≤ o.maxTotalDecompressedBytes →
        if (writeSync fate (ensureDir fate fs path.dropLast).1 path entry.body).2 then
          ∀ p, locate (ensureDir fate fs path.dropLast).1 path = some p →
            (ensureDir fate fs path.dropLast).1 p = none
        else fate.tmpStays = none

/-- A write puts the file in its place, or it fails. -/
theorem writeSync_cases (fate : Fate) (fs : Fs) (path : Path) (data : Bytes) :
    writeSync fate fs path data = (unlinkTmp fate fs path data, false) ∨
      ∃ p, locate fs path = some p ∧
        writeSync fate fs path data = (put fs p (.file data), true) := by
  rw [writeSync]
  split
  · exact Or.inl rfl
  · split
    · exact Or.inl rfl
    · next p hlocate =>
        split
        · exact Or.inl rfl
        · exact Or.inr ⟨p, hlocate, rfl⟩

theorem assertEntryTypeAllowed_file {entry : Entry} {type : EntryType}
    (h : assertEntryTypeAllowed o entry = .ok type) (hdir : type ≠ .directory)
    (hlink : ¬(type = .symlink ∨ type = .hardlink)) : classifyEntry entry = .file := by
  rw [assertEntryTypeAllowed] at h
  cases hclass : classifyEntry entry with
  | file => rfl
  | directory =>
      rw [hclass] at h
      cases h
      exact absurd rfl hdir
  | symlink =>
      rw [hclass] at h
      dsimp only at h
      split at h
      · cases h
        exact absurd (Or.inl rfl) hlink
      · cases h
  | hardlink =>
      rw [hclass] at h
      dsimp only at h
      split at h
      · cases h
        exact absurd (Or.inr rfl) hlink
      · cases h
  | device | fifo | unknown =>
      rw [hclass] at h
      cases h

/-- What one entry does to the file system. -/
theorem extractEntry_cases {total : Nat} {entry : Entry} {fate : Fate}
    (hnew : WritesNew P o fs total entry fate) :
    (∃ e fs', extractEntry P o fs total entry fate = (fs', .error e) ∧ AddsDirs fs fs') ∨
      ∃ path total' fs', extractEntry P o fs total entry fate = (fs', .ok (path, total')) ∧
        Made fs fs' path := by
  rw [extractEntry]
  split
  · exact Or.inl ⟨_, _, rfl, AddsDirs.refl fs⟩
  · next type htype =>
      split
      · exact Or.inl ⟨_, _, rfl, AddsDirs.refl fs⟩
      · next path hverify =>
          split
          · -- a directory
            cases hmade : (mkdirSync fate fs path).2 with
            | false => exact Or.inl ⟨_, _, rfl, mkdirSync_addsDirs fate fs path⟩
            | true => exact Or.inr ⟨_, _, _, rfl, .dirs (mkdirSync_addsDirs fate fs path)⟩
          · next hdir =>
              split
              · exact Or.inl ⟨_, _, rfl, AddsDirs.refl fs⟩
              · next hexists =>
                  split
                  · -- a link
                    split
                    · exact Or.inl ⟨_, _, rfl, AddsDirs.refl fs⟩
                    · split
                      · exact Or.inl ⟨_, _, rfl, AddsDirs.refl fs⟩
                      · next fs' hlinked =>
                          refine Or.inr ⟨_, _, _, rfl, ?_⟩
                          split at hlinked
                          · exact made_of_symlinkSync hlinked
                          · exact made_of_linkSync hlinked
                  · next hlink =>
                      -- a file
                      have hfile := assertEntryTypeAllowed_file htype hdir hlink
                      have hwritten := hnew hfile path hverify (by simpa using hexists)
                      have hdirs := ensureDir_addsDirs fate fs path.dropLast
                      dsimp only
                      split
                      · exact Or.inl ⟨_, _, rfl, hdirs⟩
                      · next hmade =>
                          split
                          · exact Or.inl ⟨_, _, rfl, hdirs⟩
                          · next hsize =>
                              have hwritten := hwritten (by simpa using hmade) (by omega)
                              rcases writeSync_cases fate (ensureDir fate fs path.dropLast).1 path
                                entry.body with hfails | ⟨p, hlocate, hwrites⟩
                              · rw [hfails, if_neg Bool.false_ne_true] at hwritten
                                rw [hfails, unlinkTmp, hwritten]
                                exact Or.inl ⟨_, _, rfl, hdirs⟩
                              · rw [hwrites, if_pos rfl] at hwritten
                                rw [hwrites]
                                exact Or.inr ⟨_, _, _, rfl, .node hdirs hlocate
                                  (hwritten p hlocate) (fun heq => by cases heq)⟩

theorem Grown.made_step {path : Option Path} (hgrown : Grown fs₀ fs written places)
    (hmade : Made fs fs' path) :
    ∃ places', Grown fs₀ fs' (written ++ path.toList) places' := by
  cases hmade with
  | dirs hdirs =>
      rw [Option.toList_none, List.append_nil]
      exact ⟨places, hgrown.addsDirs hdirs⟩
  | node hdirs hlocate hnew hnode =>
      exact ⟨_, (hgrown.addsDirs hdirs).put hlocate hnew hnode⟩

/-- `WritesNew` of every entry that the loop comes to. -/
def AllNew (P : Platform) (o : Options) : Fs → Nat → List (Entry × Fate) → Prop
  | _, _, [] => True
  | fs, total, (entry, fate) :: rest =>
      WritesNew P o fs total entry fate ∧
        ∀ fs' path total', extractEntry P o fs total entry fate = (fs', .ok (path, total')) →
          AllNew P o fs' total' rest

theorem extractLoop_grown {total : Nat} {entries : List (Entry × Fate)}
    (hgrown : Grown fs₀ fs written places) (hnew : AllNew P o fs total entries) :
    ∃ places', Grown fs₀ (extractLoop P o fs total written entries).1
      (extractLoop P o fs total written entries).2.1 places' := by
  induction entries generalizing fs total written places with
  | nil => exact ⟨places, hgrown⟩
  | cons entry rest ih =>
      obtain ⟨entry, fate⟩ := entry
      obtain ⟨hentry, hrest⟩ := hnew
      rw [extractLoop]
      rcases @extractEntry_cases P o fs total entry fate hentry with
        ⟨e, fs', heq, hdirs⟩ | ⟨path, total', fs', heq, hmade⟩
      · rw [heq]
        exact ⟨places, hgrown.addsDirs hdirs⟩
      · obtain ⟨places', hgrown'⟩ := hgrown.made_step hmade
        rw [heq]
        exact ih hgrown' (hrest fs' path total' heq)

/-! ## A rejected extraction -/

/-- Nothing that was there is changed, and what is there besides is directories. -/
def NothingLeft (fs₀ fs : Fs) : Prop :=
  (∀ p node, fs₀ p = some node → fs p = some node) ∧
    ∀ p node, fs p = some node → fs₀ p = some node ∨ node = .dir

theorem nothingLeft_of_addsDirs (h : AddsDirs fs₀ fs) : NothingLeft fs₀ fs := by
  refine ⟨h.extends, fun p node hp => ?_⟩
  rcases h p with heq | ⟨-, hdir⟩
  · exact Or.inl (heq ▸ hp)
  · rw [hp] at hdir
    cases hdir
    exact Or.inr rfl

theorem Grown.rollback (hgrown : Grown fs₀ F written places) :
    NothingLeft fs₀ (rollback rmFails F written) ↔ AllFound rmFails F written := by
  have hfull : ∀ p ∈ places, F p ≠ none := by
    intro p hp hnone
    obtain ⟨-, node, hnode, -⟩ := hgrown.made p hp
    rw [hnone] at hnode
    cases hnode
  have hframe : ∀ p, p ∉ places → TarExtract.rollback rmFails F written p = F p :=
    fun p hp => rollback_frame (Extends.refl F) hgrown.placed hp
  rw [← rollback_empty (Extends.refl F) hgrown.placed hgrown.nodup hfull]
  constructor
  · rintro ⟨-, honly⟩ p hp
    obtain ⟨hnone, node, hnode, hdir⟩ := hgrown.made p hp
    cases hleft : TarExtract.rollback rmFails F written p with
    | none => rfl
    | some node' =>
        have heq := (rollback_extends F written p node' hleft).symm.trans hnode
        cases heq
        rcases honly p _ hleft with h | h
        · rw [hnone] at h
          cases h
        · exact absurd h hdir
  · intro hempty
    constructor
    · intro p node hp
      have hmem : p ∉ places := by
        intro hmem
        rw [(hgrown.made p hmem).1] at hp
        cases hp
      rw [hframe p hmem]
      rcases hgrown.rest p hmem with heq | ⟨hnone, -⟩
      · rw [heq, hp]
      · rw [hnone] at hp
        cases hp
    · intro p node hp
      have hmem : p ∉ places := by
        intro hmem
        rw [hempty p hmem] at hp
        cases hp
      rw [hframe p hmem] at hp
      rcases hgrown.rest p hmem with heq | ⟨-, hdir⟩
      · exact Or.inl (heq ▸ hp)
      · rw [hp] at hdir
        cases hdir
        exact Or.inr rfl

/-- The file system that the loop starts from. -/
abbrev started (o : Options) (fs₀ : Fs) (mkdirFails : Bool) : Fs × Bool :=
  ensureDir ⟨mkdirFails, false, false, none⟩ fs₀ o.destination

/-- If the loop is run and throws, the rollback finds everything that was recorded. -/
def RollbackFinds (P : Platform) (o : Options) (fs₀ : Fs) (mkdirFails : Bool)
    (entries : List (Entry × Fate)) (rmFails : Path → Bool) : Prop :=
  (started o fs₀ mkdirFails).2 = true → o.guardRefuses = false → ∀ fs written e,
    extractLoop P o (started o fs₀ mkdirFails).1 0 [] entries = (fs, written, some e) →
      AllFound rmFails fs written

theorem extract_leaves_nothing {mkdirFails : Bool} {entries : List (Entry × Fate)} {e : Err}
    (hrejects : (extract P o fs₀ mkdirFails entries rmFails).2 = .error e)
    (hnew : (started o fs₀ mkdirFails).2 = true → o.guardRefuses = false →
      AllNew P o (started o fs₀ mkdirFails).1 0 entries) :
    NothingLeft fs₀ (extract P o fs₀ mkdirFails entries rmFails).1 ↔
      RollbackFinds P o fs₀ mkdirFails entries rmFails := by
  have hdirs : AddsDirs fs₀ (started o fs₀ mkdirFails).1 :=
    ensureDir_addsDirs ⟨mkdirFails, false, false, none⟩ fs₀ o.destination
  rw [extract] at hrejects ⊢
  dsimp only at hrejects ⊢
  split at hrejects
  · next hmade =>
      -- rejected before the loop, as with the guard
      rw [if_pos hmade]
      refine iff_of_true (nothingLeft_of_addsDirs hdirs) fun hstarted => ?_
      rw [hstarted] at hmade
      cases hmade
  · next hmade =>
      rw [if_neg hmade]
      split at hrejects
      · next hguard =>
          rw [if_pos hguard]
          refine iff_of_true (nothingLeft_of_addsDirs hdirs) fun _ hrun => ?_
          rw [hrun] at hguard
          cases hguard
      · next hguard =>
          rw [if_neg hguard]
          obtain ⟨places, hgrown⟩ := extractLoop_grown ((Grown.start fs₀).addsDirs hdirs)
            (hnew (by simpa using hmade) (by simpa using hguard))
          rcases hloop : extractLoop P o (started o fs₀ mkdirFails).1 0 [] entries with
            ⟨F, written, e'⟩
          rw [hloop] at hrejects hgrown
          cases e' with
          | none => cases hrejects
          | some e' =>
              show NothingLeft fs₀ (rollback rmFails F written) ↔ _
              rw [hgrown.rollback]
              constructor
              · rintro hfound - - fs written' e'' heq
                rw [hloop] at heq
                cases heq
                exact hfound
              · intro hfinds
                exact hfinds (by simpa using hmade) (by simpa using hguard) F written e' hloop

section runs

/-- Every name is taken below the destination. -/
def below (destination : Path) : Platform := ⟨fun _ name => some (destination ++ [name])⟩

def links : Options := ⟨[units "d"], true, true, 1024, false⟩

def emptyDir : Fs := put (fun _ => none) [units "d"] .dir

def fileEntry : Entry := ⟨units "a", [], unit '0', false, false, [1]⟩

def linkEntry : Entry := ⟨units "l", units "a", unit '2', false, false, []⟩

def deviceEntry : Entry := ⟨units "x", [], unit '3', false, false, []⟩

def works : Fate := ⟨false, false, false, none⟩

theorem extract_leaves_nothing_file :
    NothingLeft emptyDir (extract (below [units "d"]) links emptyDir false
      [(fileEntry, works), (deviceEntry, works)] fun _ => false).1 := by
  have hnew : AllNew (below [units "d"]) links (started links emptyDir false).1 0
      [(fileEntry, works), (deviceEntry, works)] := by
    constructor
    · intro _ path hpath _ _ _
      cases hpath
      rintro p hp
      cases hp
      rfl
    · intro fs' path total' _
      refine ⟨fun hfile => absurd hfile (by decide), ?_⟩
      intro fs'' path' total'' h
      cases h
  refine (extract_leaves_nothing (e := .entryTypeRefused) rfl fun _ _ => hnew).mpr ?_
  intro _ _ fs written e h
  cases h
  exact ⟨by decide, _, rfl, trivial⟩

/-- Once the file is removed the link to it leads to nothing and is passed over. -/
theorem link_left :
    ¬∀ (P : Platform) (o : Options) (fs₀ : Fs) (mkdirFails : Bool)
      (entries : List (Entry × Fate)) (rmFails : Path → Bool) (e : Err),
      (extract P o fs₀ mkdirFails entries rmFails).2 = .error e →
        NothingLeft fs₀ (extract P o fs₀ mkdirFails entries rmFails).1 := by
  intro h
  obtain ⟨-, honly⟩ := h (below [units "d"]) links emptyDir false
    [(fileEntry, works), (linkEntry, works), (deviceEntry, works)] (fun _ => false)
    .entryTypeRefused rfl
  have hleft : emptyDir [units "d", units "l"] = some (targetOf (units "a")) ∨
      targetOf (units "a") = .dir := honly _ _ (by decide)
  revert hleft
  decide

end runs

end Blamejs.TarExtract
