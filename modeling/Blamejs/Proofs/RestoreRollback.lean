import Blamejs.Ref.RestoreRollback

/-!
# What a run of swaps, rollbacks and purges keeps

A rename only changes where a directory is, so the directories themselves are a constant of
every call but `purge`: `Inv` is that, with every place holding one directory. It holds in
every run. The order `purge` goes by is another matter: `list` takes the time of a point
from its marker and, without one, from the directory, so `Ordered` needs each swap that
leaves a point to leave its marker too (`Recorded`).
-/

namespace Blamejs.RestoreRollback

open Run

variable {D : Type}

/-! ## Renames -/

theorem existsSync_iff {fs : Disk D} {l : Loc} :
    fs.existsSync l = true ↔ ∃ d, (l, d) ∈ fs.dirs := by
  rw [Disk.existsSync, List.contains_iff_mem, List.mem_map]
  constructor
  · rintro ⟨⟨_, d⟩, hd, rfl⟩
    exact ⟨d, hd⟩
  · rintro ⟨d, hd⟩
    exact ⟨(l, d), hd, rfl⟩

theorem renameWithRetry_some {fs fs' : Disk D} {works : Bool} {src dst : Loc}
    (h : fs.renameWithRetry works src dst = some fs') :
    works = true ∧ fs.existsSync src = true ∧ fs.existsSync dst = false ∧
      fs' = { fs with dirs := fs.dirs.map fun e => (if e.1 = src then dst else e.1, e.2) } := by
  rw [Disk.renameWithRetry] at h
  split at h
  · next hcond =>
      rw [Bool.and_eq_true, Bool.and_eq_true, Bool.not_eq_true'] at hcond
      exact ⟨hcond.1.1, hcond.1.2, hcond.2, (Option.some_inj.mp h).symm⟩
  · cases h

theorem renameWithRetry_works {fs : Disk D} {src dst : Loc} (hsrc : fs.existsSync src = true)
    (hdst : fs.existsSync dst = false) :
    fs.renameWithRetry true src dst =
      some { fs with dirs := fs.dirs.map fun e => (if e.1 = src then dst else e.1, e.2) } := by
  rw [Disk.renameWithRetry, hsrc, hdst]
  rfl

/-- A directory is after a rename where it was, or at the target instead of the source. -/
theorem mem_renamed {fs fs' : Disk D} {works : Bool} {src dst l : Loc} {d : D}
    (h : fs.renameWithRetry works src dst = some fs') :
    (l, d) ∈ fs'.dirs ↔ (l = dst ∧ (src, d) ∈ fs.dirs) ∨ (l ≠ src ∧ (l, d) ∈ fs.dirs) := by
  obtain ⟨-, hsrc, hdst, rfl⟩ := renameWithRetry_some h
  have hne : src ≠ dst := by
    rintro rfl
    rw [hsrc] at hdst
    cases hdst
  simp only [List.mem_map, Prod.mk.injEq]
  constructor
  · rintro ⟨⟨l', d'⟩, he, hl, rfl⟩
    dsimp only at hl
    split at hl
    · next hsame => exact .inl ⟨hl.symm, hsame ▸ he⟩
    · next hother => exact .inr ⟨hl ▸ hother, hl ▸ he⟩
  · rintro (⟨rfl, he⟩ | ⟨hl, he⟩)
    · exact ⟨_, he, if_pos rfl, rfl⟩
    · exact ⟨_, he, if_neg hl, rfl⟩

/-- Renaming back undoes a rename. -/
theorem renameWithRetry_back {fs fs' : Disk D} {works : Bool} {src dst : Loc}
    (h : fs.renameWithRetry works src dst = some fs') :
    fs'.renameWithRetry true dst src = some fs := by
  obtain ⟨-, hsrc, hdst, hfs'⟩ := renameWithRetry_some h
  have hne : dst ≠ src := by
    rintro rfl
    rw [hsrc] at hdst
    cases hdst
  obtain ⟨d, hd⟩ := existsSync_iff.mp hsrc
  have hthere : fs'.existsSync dst = true :=
    existsSync_iff.mpr ⟨d, (mem_renamed h).mpr (.inl ⟨rfl, hd⟩)⟩
  have hgone : fs'.existsSync src = false := by
    rw [Bool.eq_false_iff]
    intro hex
    obtain ⟨d', hd'⟩ := existsSync_iff.mp hex
    rcases (mem_renamed h).mp hd' with ⟨hsame, -⟩ | ⟨hother, -⟩
    · exact hne hsame.symm
    · exact hother rfl
  rw [renameWithRetry_works hthere hgone, hfs']
  have hdirs : (fs.dirs.map fun e => (if e.1 = src then dst else e.1, e.2)).map
      (fun e => (if e.1 = dst then src else e.1, e.2)) = fs.dirs := by
    rw [List.map_map]
    refine (List.map_congr_left fun e he => ?_).trans (List.map_id _)
    obtain ⟨l, d⟩ := e
    by_cases hl : l = src
    · simp [hl]
    · have hl' : l ≠ dst := by
        rintro rfl
        rw [existsSync_iff.mpr ⟨d, he⟩] at hdst
        cases hdst
      simp [hl, hl']
  rw [hdirs]

/-! ## One directory in one place -/

/-- The directories of a disk, each in a place of its own. -/
structure Holds (dirs : List D) (fs : Disk D) : Prop where
  all : fs.dirs.map Prod.snd = dirs
  apart : (fs.dirs.map Prod.fst).Nodup

theorem Holds.renamed {dirs : List D} {fs fs' : Disk D} {works : Bool} {src dst : Loc}
    (h : Holds dirs fs) (hrename : fs.renameWithRetry works src dst = some fs') :
    Holds dirs fs' := by
  obtain ⟨-, -, hdst, rfl⟩ := renameWithRetry_some hrename
  refine ⟨by rw [← h.all, List.map_map]; rfl, ?_⟩
  have hmap : (fs.dirs.map fun e => (if e.1 = src then dst else e.1, e.2)).map Prod.fst =
      (fs.dirs.map Prod.fst).map fun l => if l = src then dst else l := by
    rw [List.map_map, List.map_map]
    rfl
  have hfree : ∀ l ∈ fs.dirs.map Prod.fst, l ≠ dst := by
    rintro l hl rfl
    rw [Disk.existsSync, Bool.eq_false_iff] at hdst
    exact hdst (List.contains_iff_mem.mpr hl)
  rw [hmap]
  refine h.apart.map_on fun a ha b hb hab => ?_
  by_cases hsa : a = src <;> by_cases hsb : b = src
  · rw [hsa, hsb]
  · rw [if_pos hsa, if_neg hsb] at hab
    exact absurd hab.symm (hfree b hb)
  · rw [if_neg hsa, if_pos hsb] at hab
    exact absurd hab (hfree a ha)
  · rwa [if_neg hsa, if_neg hsb] at hab

@[simp] theorem writeMarker_dirs (fs : Disk D) (stamp now : Nat) (outcome : Option Bool) :
    (fs.writeMarker stamp now outcome).dirs = fs.dirs := by
  cases outcome with
  | none => rfl
  | some readable =>
      rw [Disk.writeMarker]
      split <;> rfl

/-- `dataDir`, when there is one, moved to `dst`. -/
def MovesAside (works : Bool) (dst : Loc) (fs moved : Disk D) : Prop :=
  (if fs.existsSync .dataDir then fs.renameWithRetry works .dataDir dst else some fs) = some moved

/-- `dataDir` moved back from `dst`, when it was moved there from `fs`. -/
def undo (works : Bool) (dst : Loc) (fs moved : Disk D) : Disk D :=
  if fs.existsSync .dataDir then (moved.renameWithRetry works dst .dataDir).getD moved else moved

/-- What a `swap` does: nothing; a move and an attempt to undo it; or both moves and the
marker. -/
theorem swap_cases (staging stamp now : Nat) (io : SwapIo) (fs : Disk D) :
    (∃ e, swap staging stamp now io fs = (.error e, fs)) ∨
    (∃ moved, fs.existsSync (.staging staging) = true ∧
      MovesAside io.moves (.point stamp) fs moved ∧
      moved.renameWithRetry io.places (.staging staging) .dataDir = none ∧
      swap staging stamp now io fs =
        (.error .renameStagingFailed, undo io.undoes (.point stamp) fs moved)) ∨
    (∃ moved placed, fs.existsSync (.staging staging) = true ∧
      MovesAside io.moves (.point stamp) fs moved ∧
      moved.renameWithRetry io.places (.staging staging) .dataDir = some placed ∧
      (fs.marker stamp).isSome = false ∧
      swap staging stamp now io fs =
        (.ok ⟨if fs.existsSync .dataDir then some stamp else none, stamp⟩,
          placed.writeMarker stamp now io.marker)) := by
  rw [swap]
  split
  · exact .inl ⟨_, rfl⟩
  next hstaging =>
    rw [Bool.not_eq_false] at hstaging
    split
    · exact .inl ⟨_, rfl⟩
    · next hcollision =>
        dsimp only
        split
        · exact .inl ⟨_, rfl⟩
        · next moved hmove =>
            split
            · next hplace => exact .inr (.inl ⟨moved, hstaging, hmove, hplace, rfl⟩)
            · next placed hplace =>
                have hfree : (fs.marker stamp).isSome = false :=
                  Bool.eq_false_iff.mpr fun h => hcollision (.inr h)
                exact .inr (.inr ⟨moved, placed, hstaging, hmove, hplace, hfree, rfl⟩)

/-- What a `rollback` does: nothing; a move and an attempt to undo it; or both moves, the
marker being removed. -/
theorem rollback_cases (target stamp : Nat) (io : RollbackIo) (fs : Disk D) :
    (∃ e, rollback target stamp io fs = (.error e, fs)) ∨
    (∃ moved, MovesAside io.moves (.discarded stamp) fs moved ∧
      moved.renameWithRetry io.places (.point target) .dataDir = none ∧
      rollback target stamp io fs =
        (.error .rollbackRenameFailed, undo io.undoes (.discarded stamp) fs moved)) ∨
    (∃ moved placed, MovesAside io.moves (.discarded stamp) fs moved ∧
      moved.renameWithRetry io.places (.point target) .dataDir = some placed ∧
      rollback target stamp io fs =
        (.ok ⟨target, if fs.existsSync .dataDir then some stamp else none⟩,
          { placed with markers := placed.markers.filter fun m => m.1 != target })) := by
  rw [rollback]
  split
  · exact .inl ⟨_, rfl⟩
  dsimp only
  split
  · exact .inl ⟨_, rfl⟩
  · next moved hmove =>
      split
      · next hplace => exact .inr (.inl ⟨moved, hmove, hplace, rfl⟩)
      · next placed hplace => exact .inr (.inr ⟨moved, placed, hmove, hplace, rfl⟩)

theorem Holds.moved {dirs : List D} {fs moved : Disk D} {works : Bool} {dst : Loc}
    (h : Holds dirs fs) (hmove : MovesAside works dst fs moved) : Holds dirs moved := by
  rw [MovesAside] at hmove
  split at hmove
  · exact h.renamed hmove
  · exact Option.some_inj.mp hmove ▸ h

theorem Holds.undone {dirs : List D} {fs moved : Disk D} {works : Bool} {dst : Loc}
    (h : Holds dirs moved) : Holds dirs (undo works dst fs moved) := by
  rw [undo]
  split
  · cases hrename : moved.renameWithRetry works dst .dataDir with
    | none => exact h
    | some back => exact h.renamed hrename
  · exact h

/-- Whatever fails in a `swap`, it holds the directories it started with. -/
theorem Holds.swap {dirs : List D} {fs : Disk D} {staging stamp now : Nat} {io : SwapIo}
    (h : Holds dirs fs) : Holds dirs (swap staging stamp now io fs).2 := by
  rcases swap_cases staging stamp now io fs with
    ⟨e, hr⟩ | ⟨moved, -, hmove, -, hr⟩ | ⟨moved, placed, -, hmove, hplace, -, hr⟩ <;> rw [hr]
  · exact h
  · exact (h.moved hmove).undone
  · have hplaced := (h.moved hmove).renamed hplace
    exact ⟨by rw [writeMarker_dirs]; exact hplaced.all,
      by rw [writeMarker_dirs]; exact hplaced.apart⟩

/-- Whatever fails in a `rollback`, it holds the directories it started with. -/
theorem Holds.rollback {dirs : List D} {fs : Disk D} {target stamp : Nat} {io : RollbackIo}
    (h : Holds dirs fs) : Holds dirs (rollback target stamp io fs).2 := by
  rcases rollback_cases target stamp io fs with
    ⟨e, hr⟩ | ⟨moved, hmove, -, hr⟩ | ⟨moved, placed, hmove, hplace, hr⟩ <;> rw [hr]
  · exact h
  · exact (h.moved hmove).undone
  · have hplaced := (h.moved hmove).renamed hplace
    exact ⟨hplaced.all, hplaced.apart⟩

/-! ## What is put back -/

/-- Undoing a move that works puts everything back. -/
theorem undo_back {fs moved : Disk D} {works : Bool} {dst : Loc}
    (hmove : MovesAside works dst fs moved) : undo true dst fs moved = fs := by
  rw [MovesAside] at hmove
  rw [undo]
  split at hmove
  · next hex => rw [if_pos hex, renameWithRetry_back hmove]; rfl
  · next hex => rw [if_neg hex]; exact (Option.some_inj.mp hmove).symm

/-- A `swap` that throws leaves the disk as it was, unless its undo fails. -/
theorem swap_throws {fs : Disk D} {staging stamp now : Nat} {io : SwapIo} {e : Failure}
    (h : (swap staging stamp now io fs).1 = .error e) (hundo : io.undoes = true) :
    (swap staging stamp now io fs).2 = fs := by
  rcases swap_cases staging stamp now io fs with
    ⟨e', hr⟩ | ⟨moved, -, hmove, -, hr⟩ | ⟨moved, placed, -, -, -, -, hr⟩ <;> rw [hr] at h ⊢
  · rw [hundo]
    exact undo_back hmove
  · cases h

/-- A `rollback` that throws leaves the disk as it was, unless its undo fails. -/
theorem rollback_throws {fs : Disk D} {target stamp : Nat} {io : RollbackIo} {e : Failure}
    (h : (rollback target stamp io fs).1 = .error e) (hundo : io.undoes = true) :
    (rollback target stamp io fs).2 = fs := by
  rcases rollback_cases target stamp io fs with
    ⟨e', hr⟩ | ⟨moved, hmove, -, hr⟩ | ⟨moved, placed, -, -, hr⟩ <;> rw [hr] at h ⊢
  · rw [hundo]
    exact undo_back hmove
  · cases h

/-! ## Runs -/

section

variable {s s' : St D} {c : Call D} {live : Option D}

/-- Every directory that was ever there is on the disk, in one place, or was purged. -/
structure Inv (s : St D) : Prop where
  apart : (s.disk.dirs.map Prod.fst).Nodup
  parted : (s.disk.dirs.map Prod.snd ++ s.purged).Perm s.seen
  seen : s.seen.Nodup

theorem Inv.init : Inv (St.init live) := by
  cases live with
  | none => exact ⟨List.nodup_nil, .refl _, List.nodup_nil⟩
  | some d => exact ⟨List.nodup_singleton _, .refl _, List.nodup_singleton _⟩

/-- A call that holds the directories keeps the invariant. -/
theorem Inv.held (h : Inv s) {fs : Disk D} {swaps stamps : List Nat}
    (hheld : Holds (s.disk.dirs.map Prod.snd) fs) :
    Inv { s with disk := fs, swaps := swaps, stamps := stamps } :=
  ⟨hheld.apart, by dsimp only; rw [hheld.all]; exact h.parted, h.seen⟩

theorem purge_dirs (keep : Nat) (mtime : D → Nat) (fs : Disk D) :
    (purge keep mtime fs).dirs =
      fs.dirs.filter fun e => !(e.1.isDiscarded || e.1.isOneOf (toDelete keep mtime fs)) := by
  rw [purge, Disk.sweep, List.filter_filter]
  refine List.filter_congr fun e _ => ?_
  rw [Bool.not_or, Bool.and_comm]

theorem Inv.step [DecidableEq D] (h : Inv s) (hstep : step s c = some s') : Inv s' := by
  have hheld : Holds (s.disk.dirs.map Prod.snd) s.disk := ⟨rfl, h.apart⟩
  cases c with
  | stage path dir =>
      rw [RestoreRollback.step] at hstep
      split at hstep
      · cases hstep
      · next hfresh =>
          obtain ⟨hdir, hpath⟩ := not_or.mp hfresh
          obtain rfl := Option.some_inj.mp hstep
          refine ⟨List.nodup_cons.mpr ⟨fun hm => hpath ?_, h.apart⟩, h.parted.cons dir,
            List.nodup_cons.mpr ⟨hdir, h.seen⟩⟩
          exact List.contains_iff_mem.mpr hm
  | swap staging stamp now io =>
      rw [RestoreRollback.step] at hstep
      split at hstep
      · cases hstep
      · obtain rfl := Option.some_inj.mp hstep
        exact h.held hheld.swap
  | rollback target stamp io =>
      rw [RestoreRollback.step] at hstep
      split at hstep
      · cases hstep
      · obtain rfl := Option.some_inj.mp hstep
        exact h.held hheld.rollback
  | purge keep mtime =>
      obtain rfl := Option.some_inj.mp hstep
      refine ⟨?_, ?_, h.seen⟩
      · dsimp only
        rw [purge_dirs]
        exact h.apart.sublist (List.filter_sublist.map _)
      · dsimp only
        rw [purge_dirs, ← List.append_assoc, ← List.map_append]
        refine ((List.Perm.map Prod.snd ?_).append_right s.purged).trans h.parted
        refine List.perm_append_comm.trans ?_
        exact List.filter_append_perm _ _

/-- A directory is in one place or was purged. -/
def Placed (s : St D) : Prop := ∀ d ∈ s.seen, d ∈ s.purged ∨ ∃! l, (l, d) ∈ s.disk.dirs

theorem Inv.placed (h : Inv s) : Placed s := by
  intro d hd
  rcases List.mem_append.mp (h.parted.mem_iff.mpr hd) with hdisk | hpurged
  · obtain ⟨⟨l, _⟩, hl, rfl⟩ := List.mem_map.mp hdisk
    refine .inr ⟨l, hl, fun l' hl' => ?_⟩
    have hnodup := (h.parted.nodup_iff.mpr h.seen).of_append_left
    have := List.inj_on_of_nodup_map hnodup hl' hl rfl
    exact congrArg Prod.fst this
  · exact .inl hpurged

/-- In every run, whatever renames and marker writes fail. -/
theorem placed_of_reach [DecidableEq D] (h : Reach step Always (St.init live) s) : Placed s :=
  (h.invariant Inv.init fun _ _ _ hI _ hstep => hI.step hstep).placed

/-! ## The order of the points -/

/-- The time in the marker of a point. -/
def Disk.markedAt (fs : Disk D) (stamp : Nat) : Nat := ((fs.marker stamp).map (·.swappedAt)).getD 0

/-- The rollback points there are, the most recently swapped first. -/
def recent (fs : Disk D) (swaps : List Nat) : List Nat :=
  swaps.filter fun t => fs.existsSync (.point t)

/-- A `swap` that leaves a rollback point leaves a marker that can be read back, with a
later time than those of the other points. -/
def Recorded (s : St D) : Call D → Prop
  | .swap staging _ now io =>
      s.disk.existsSync (.staging staging) = true → s.disk.existsSync .dataDir = true →
        io.moves = true →
          (io.places = false ∧ io.undoes = true) ∨
            (io.places = true ∧ io.marker = some true ∧
              ∀ t ∈ recent s.disk s.swaps, s.disk.markedAt t < now)
  | _ => True

/-- The markers say in which order the points were made. -/
structure Ordered (fs : Disk D) (swaps stamps : List Nat) : Prop where
  marked : ∀ t, fs.existsSync (.point t) = true →
    t ∈ swaps ∧ ∃ m, fs.marker t = some m ∧ m.readable = true
  desc : (recent fs swaps).Pairwise fun t u => fs.markedAt u < fs.markedAt t
  nodup : swaps.Nodup
  used : ∀ t ∈ swaps, t ∈ stamps

theorem Ordered.init : Ordered (St.init live).disk (St.init live).swaps (St.init live).stamps where
  marked := by
    intro t ht
    obtain ⟨d, hd⟩ := existsSync_iff.mp ht
    cases live with
    | none => cases hd
    | some live => cases List.mem_singleton.mp hd
  desc := .nil
  nodup := .nil
  used := fun t ht => by cases ht

/-- Points may go, as long as those that stay keep their markers. -/
theorem Ordered.shrink {fs fs' : Disk D} {swaps stamps stamps' : List Nat}
    (h : Ordered fs swaps stamps)
    (hpoints : ∀ t, fs'.existsSync (.point t) = true →
      fs.existsSync (.point t) = true ∧ fs'.marker t = fs.marker t)
    (hstamps : ∀ t ∈ stamps, t ∈ stamps') : Ordered fs' swaps stamps' where
  marked := by
    intro t ht
    obtain ⟨hex, hmarker⟩ := hpoints t ht
    rw [hmarker]
    exact h.marked t hex
  desc := by
    have hsub : (recent fs' swaps).Sublist (recent fs swaps) :=
      List.monotone_filter_right swaps fun t ht => (hpoints t ht).1
    refine (h.desc.sublist hsub).imp_of_mem fun {t u} ht hu hlt => ?_
    rw [Disk.markedAt, Disk.markedAt, (hpoints t (List.mem_filter.mp ht).2).2,
      (hpoints u (List.mem_filter.mp hu).2).2]
    exact hlt
  nodup := h.nodup
  used := fun t ht => hstamps t (h.used t ht)

theorem existsSync_renamed {fs fs' : Disk D} {works : Bool} {src dst l : Loc}
    (h : fs.renameWithRetry works src dst = some fs') (hsrc : l ≠ src) (hdst : l ≠ dst) :
    fs'.existsSync l = fs.existsSync l := by
  rw [Bool.eq_iff_iff, existsSync_iff, existsSync_iff]
  refine exists_congr fun d => ?_
  rw [mem_renamed h]
  exact ⟨fun h => h.elim (fun h => absurd h.1 hdst) And.right, fun h => .inr ⟨hsrc, h⟩⟩

theorem marker_renamed {fs fs' : Disk D} {works : Bool} {src dst : Loc}
    (h : fs.renameWithRetry works src dst = some fs') : fs'.marker = fs.marker := by
  obtain ⟨-, -, -, rfl⟩ := renameWithRetry_some h
  rfl

/-- Moving `dataDir` aside touches no point but the one it is moved to, and no marker. -/
theorem MovesAside.points {fs moved : Disk D} {works : Bool} {dst : Loc}
    (h : MovesAside works dst fs moved) :
    moved.marker = fs.marker ∧
      ∀ t, Loc.point t ≠ dst → moved.existsSync (.point t) = fs.existsSync (.point t) := by
  rw [MovesAside] at h
  split at h
  · exact ⟨marker_renamed h, fun t ht => existsSync_renamed h (by simp) ht⟩
  · obtain rfl := Option.some_inj.mp h
    exact ⟨rfl, fun _ _ => rfl⟩

theorem undo_points {fs moved : Disk D} {works : Bool} {dst : Loc} :
    (undo works dst fs moved).marker = moved.marker ∧
      ∀ t, Loc.point t ≠ dst →
        (undo works dst fs moved).existsSync (.point t) = moved.existsSync (.point t) := by
  rw [undo]
  split
  · cases hrename : moved.renameWithRetry works dst .dataDir with
    | none => exact ⟨rfl, fun _ _ => rfl⟩
    | some back =>
        exact ⟨marker_renamed hrename, fun t ht => existsSync_renamed hrename ht (by simp)⟩
  · exact ⟨rfl, fun _ _ => rfl⟩

theorem lookup_filter {l : List (Nat × Marker)} {q : Nat → Bool} {t : Nat} (ht : q t = true) :
    (l.filter fun m => q m.1).lookup t = l.lookup t := by
  induction l with
  | nil => rfl
  | cons e l ih =>
      obtain ⟨u, m⟩ := e
      rw [List.filter_cons]
      by_cases hu : t = u
      · subst hu
        rw [if_pos ht, List.lookup_cons_self, List.lookup_cons_self]
      · have hne : (t == u) = false := beq_eq_false_iff_ne.mpr hu
        split
        · rw [List.lookup_cons, List.lookup_cons, hne]
          exact ih
        · rw [List.lookup_cons, hne]
          exact ih

theorem Ordered.rollback {fs : Disk D} {swaps stamps stamps' : List Nat} {target stamp : Nat}
    {io : RollbackIo} (h : Ordered fs swaps stamps) (hstamps : ∀ t ∈ stamps, t ∈ stamps') :
    Ordered (rollback target stamp io fs).2 swaps stamps' := by
  rcases rollback_cases target stamp io fs with
    ⟨e, hr⟩ | ⟨moved, hmove, -, hr⟩ | ⟨moved, placed, hmove, hplace, hr⟩ <;> rw [hr]
  · exact h.shrink (fun t ht => ⟨ht, rfl⟩) hstamps
  · obtain ⟨hmarker, hpoints⟩ := hmove.points
    obtain ⟨hmarker', hpoints'⟩ := @undo_points D fs moved io.undoes (.discarded stamp)
    refine h.shrink (fun t ht => ?_) hstamps
    dsimp only at ht ⊢
    rw [hpoints' t (by simp), hpoints t (by simp)] at ht
    exact ⟨ht, by rw [hmarker', hmarker]⟩
  · obtain ⟨hmarker, hpoints⟩ := hmove.points
    refine h.shrink (fun t ht => ?_) hstamps
    have hplaced : placed.existsSync (.point t) = true := ht
    have hne : t ≠ target := by
      rintro rfl
      obtain ⟨d, hd⟩ := existsSync_iff.mp hplaced
      rcases (mem_renamed hplace).mp hd with ⟨hloc, -⟩ | ⟨hloc, -⟩
      · cases hloc
      · exact hloc rfl
    rw [existsSync_renamed hplace (by simpa using hne) (by simp), hpoints t (by simp)] at hplaced
    refine ⟨hplaced, ?_⟩
    have hlookup := @lookup_filter placed.markers (· != target) t (by simpa using hne)
    exact hlookup.trans (congrFun ((marker_renamed hplace).trans hmarker) t)

theorem Ordered.purge {fs : Disk D} {swaps stamps : List Nat} {keep : Nat} {mtime : D → Nat}
    (h : Ordered fs swaps stamps) : Ordered (purge keep mtime fs) swaps stamps := by
  refine h.shrink (fun t ht => ?_) fun _ ht => ht
  obtain ⟨d, hd⟩ := existsSync_iff.mp ht
  rw [purge_dirs, List.mem_filter] at hd
  obtain ⟨hdisk, hkept⟩ := hd
  have hstays : (!(toDelete keep mtime fs).contains t) = true := by
    simpa [Loc.isDiscarded, Loc.isOneOf] using hkept
  exact ⟨existsSync_iff.mpr ⟨d, hdisk⟩,
    @lookup_filter fs.markers (fun u => !(toDelete keep mtime fs).contains u) t hstays⟩

/-- A new point is put before the others. -/
theorem Ordered.grow {fs fs' : Disk D} {swaps stamps : List Nat} {stamp now : Nat}
    (h : Ordered fs swaps stamps) (hfresh : stamp ∉ stamps)
    (hpoints : ∀ t, t ≠ stamp → fs'.existsSync (.point t) = fs.existsSync (.point t) ∧
      fs'.marker t = fs.marker t)
    (hmarker : fs'.marker stamp = some ⟨now, true⟩) (hthere : fs'.existsSync (.point stamp) = true)
    (hlater : ∀ t ∈ recent fs swaps, fs.markedAt t < now) :
    Ordered fs' (stamp :: swaps) (stamp :: stamps) := by
  have hnew : stamp ∉ swaps := fun hm => hfresh (h.used _ hm)
  have hsame : recent fs' swaps = recent fs swaps := by
    refine List.filter_congr fun t ht => ?_
    exact (hpoints t fun heq => hnew (heq ▸ ht)).1
  have hkept : ∀ t ∈ recent fs swaps, fs'.markedAt t = fs.markedAt t := by
    intro t ht
    have hne : t ≠ stamp := fun heq => hnew (heq ▸ (List.mem_filter.mp ht).1)
    rw [Disk.markedAt, Disk.markedAt, (hpoints t hne).2]
  have hnow : fs'.markedAt stamp = now := by
    rw [Disk.markedAt, hmarker]
    rfl
  refine ⟨fun t ht => ?_, ?_, List.nodup_cons.mpr ⟨hnew, h.nodup⟩, ?_⟩
  · by_cases heq : t = stamp
    · subst heq
      exact ⟨List.mem_cons_self, _, hmarker, rfl⟩
    · obtain ⟨hex, hmarker⟩ := hpoints t heq
      rw [hex] at ht
      obtain ⟨hmem, m, hm, hread⟩ := h.marked t ht
      exact ⟨List.mem_cons_of_mem _ hmem, m, hmarker.trans hm, hread⟩
  · have hcons : recent fs' (stamp :: swaps) = stamp :: recent fs' swaps :=
      List.filter_cons_of_pos hthere
    rw [hcons, hsame]
    refine List.pairwise_cons.mpr ⟨fun t ht => ?_, ?_⟩
    · rw [hkept t ht, hnow]
      exact hlater t ht
    · refine h.desc.imp_of_mem fun {t u} ht hu hlt => ?_
      rw [hkept t ht, hkept u hu]
      exact hlt
  · intro t ht
    rcases List.mem_cons.mp ht with rfl | ht
    · exact List.mem_cons_self
    · exact List.mem_cons_of_mem _ (h.used t ht)

/-- A timestamp that was not used names no point yet. -/
theorem Ordered.no_point {fs : Disk D} {swaps stamps : List Nat} {stamp : Nat}
    (h : Ordered fs swaps stamps) (hfresh : stamp ∉ stamps) :
    fs.existsSync (.point stamp) = false := by
  rw [Bool.eq_false_iff]
  exact fun hex => hfresh (h.used _ (h.marked _ hex).1)

theorem Ordered.swap {s : St D} {staging stamp now : Nat} {io : SwapIo}
    (h : Ordered s.disk s.swaps s.stamps) (hfresh : stamp ∉ s.stamps)
    (hok : Recorded s (.swap staging stamp now io)) {fs : Disk D}
    (hfs : (swap staging stamp now io s.disk).2 = fs) :
    Ordered fs (if fs.existsSync (.point stamp) then stamp :: s.swaps else s.swaps)
      (stamp :: s.stamps) := by
  have hnone := h.no_point hfresh
  have hsame : Ordered s.disk (if s.disk.existsSync (.point stamp) then stamp :: s.swaps
      else s.swaps) (stamp :: s.stamps) := by
    rw [hnone]
    exact h.shrink (fun t ht => ⟨ht, rfl⟩) fun _ ht => List.mem_cons_of_mem _ ht
  rcases swap_cases staging stamp now io s.disk with
    ⟨e, hr⟩ | ⟨moved, hstaging, hmove, hplace, hr⟩ |
      ⟨moved, placed, hstaging, hmove, hplace, hfree, hr⟩ <;>
    rw [hr] at hfs <;> subst hfs
  · exact hsame
  · cases hdata : s.disk.existsSync .dataDir with
    | false =>
        rw [MovesAside, hdata] at hmove
        obtain rfl := Option.some_inj.mp hmove
        dsimp only
        rw [undo, hdata]
        exact hsame
    | true =>
        have hrename := hmove
        rw [MovesAside, hdata] at hrename
        rcases hok hstaging hdata (renameWithRetry_some hrename).1 with ⟨-, hundo⟩ | ⟨hplaces, -⟩
        · dsimp only
          rw [hundo, undo_back hmove]
          exact hsame
        · -- the staging directory is there and `dataDir` is not, so the rename works
          have hthere : moved.existsSync (.staging staging) = true := by
            rw [existsSync_renamed hrename (by simp) (by simp)]
            exact hstaging
          have hgone : moved.existsSync .dataDir = false := by
            rw [Bool.eq_false_iff]
            intro hex
            obtain ⟨d, hd⟩ := existsSync_iff.mp hex
            rcases (mem_renamed hrename).mp hd with ⟨hloc, -⟩ | ⟨hloc, -⟩
            · cases hloc
            · exact hloc rfl
          rw [hplaces, renameWithRetry_works hthere hgone] at hplace
          cases hplace
  · obtain ⟨hmarker, hpoints⟩ := hmove.points
    have hplaced : ∀ t, t ≠ stamp →
        placed.existsSync (.point t) = s.disk.existsSync (.point t) := fun t ht => by
      rw [existsSync_renamed hplace (by simp) (by simp), hpoints t (by simpa using ht)]
    have hmarker' : placed.marker = s.disk.marker := (marker_renamed hplace).trans hmarker
    have hwritten : ∀ l, (placed.writeMarker stamp now io.marker).existsSync l =
        placed.existsSync l := fun l => by
      rw [Disk.existsSync, Disk.existsSync, writeMarker_dirs]
    have hothers : ∀ t, t ≠ stamp →
        (placed.writeMarker stamp now io.marker).marker t = s.disk.marker t := by
      intro t ht
      rw [← hmarker']
      cases io.marker with
      | none => rfl
      | some readable =>
          rw [Disk.writeMarker]
          split
          · rfl
          · rw [Disk.marker, List.lookup_cons, beq_eq_false_iff_ne.mpr ht]
            rfl
    dsimp only
    cases hdata : s.disk.existsSync .dataDir with
    | false =>
        rw [MovesAside, hdata] at hmove
        obtain rfl := Option.some_inj.mp hmove
        rw [hwritten, existsSync_renamed hplace (by simp) (by simp), hnone]
        refine h.shrink (fun t ht => ?_) fun _ ht => List.mem_cons_of_mem _ ht
        have hne : t ≠ stamp := by
          rintro rfl
          rw [hwritten, existsSync_renamed hplace (by simp) (by simp), hnone] at ht
          cases ht
        rw [hwritten, hplaced t hne] at ht
        exact ⟨ht, hothers t hne⟩
    | true =>
        rw [MovesAside, hdata] at hmove
        obtain ⟨hworks, hex, -, -⟩ := renameWithRetry_some hmove
        obtain ⟨d, hd⟩ := existsSync_iff.mp hex
        have hthere : placed.existsSync (.point stamp) = true := by
          rw [existsSync_renamed hplace (by simp) (by simp)]
          exact existsSync_iff.mpr ⟨d, (mem_renamed hmove).mpr (.inl ⟨rfl, hd⟩)⟩
        obtain ⟨hwrites, hlater⟩ : io.marker = some true ∧
            ∀ t ∈ recent s.disk s.swaps, s.disk.markedAt t < now := by
          rcases hok hstaging hdata hworks with ⟨hplaces, -⟩ | ⟨-, hrest⟩
          · rw [hplaces] at hplace
            cases (renameWithRetry_some hplace).1
          · exact hrest
        rw [hwritten, hthere]
        refine h.grow hfresh (fun t ht => ⟨(hwritten _).trans (hplaced t ht), hothers t ht⟩) ?_
          ((hwritten _).trans hthere) hlater
        have hempty : (placed.marker stamp).isSome = false := by rw [hmarker', hfree]
        rw [hwrites, Disk.writeMarker, hempty, Disk.marker]
        exact List.lookup_cons_self

theorem Ordered.step [DecidableEq D] (h : Ordered s.disk s.swaps s.stamps) (hok : Recorded s c)
    (hstep : step s c = some s') : Ordered s'.disk s'.swaps s'.stamps := by
  cases c with
  | stage path dir =>
      rw [RestoreRollback.step] at hstep
      split at hstep
      · cases hstep
      · obtain rfl := Option.some_inj.mp hstep
        refine h.shrink (fun t ht => ?_) fun _ ht => ht
        obtain ⟨d, hd⟩ := existsSync_iff.mp ht
        rcases List.mem_cons.mp hd with hnew | hold
        · cases hnew
        · exact ⟨existsSync_iff.mpr ⟨d, hold⟩, rfl⟩
  | swap staging stamp now io =>
      rw [RestoreRollback.step] at hstep
      split at hstep
      · cases hstep
      · next hfresh =>
          obtain rfl := Option.some_inj.mp hstep
          exact h.swap hfresh hok rfl
  | rollback target stamp io =>
      rw [RestoreRollback.step] at hstep
      split at hstep
      · cases hstep
      · obtain rfl := Option.some_inj.mp hstep
        exact h.rollback fun _ ht => List.mem_cons_of_mem _ ht
  | purge keep mtime =>
      obtain rfl := Option.some_inj.mp hstep
      exact h.purge

/-! ## What `purge` keeps -/

def Loc.stamp : Loc → Option Nat
  | .point stamp => some stamp
  | _ => none

theorem entryOf_some {mtime : D → Nat} {fs : Disk D} {x : Loc × D} {e : Entry} :
    entryOf mtime fs x = some e ↔
      x.1 = .point e.rollbackPath ∧ e.swappedAt = listedAt mtime fs e.rollbackPath x.2 := by
  obtain ⟨l, d⟩ := x
  cases l with
  | point stamp =>
      rw [entryOf, Option.some_inj]
      constructor
      · rintro rfl
        exact ⟨rfl, rfl⟩
      · rintro ⟨hloc, hat⟩
        obtain rfl := Loc.point.inj hloc
        rw [← hat]
  | dataDir => exact ⟨fun h => (by cases h), fun h => (by cases h.1)⟩
  | staging path => exact ⟨fun h => (by cases h), fun h => (by cases h.1)⟩
  | discarded stamp => exact ⟨fun h => (by cases h), fun h => (by cases h.1)⟩

theorem listed_paths (mtime : D → Nat) (fs : Disk D) :
    (fs.dirs.filterMap (entryOf mtime fs)).map (·.rollbackPath) =
      (fs.dirs.map Prod.fst).filterMap Loc.stamp := by
  rw [List.map_filterMap, List.filterMap_map]
  refine List.filterMap_congr fun x _ => ?_
  obtain ⟨l, d⟩ := x
  cases l <;> rfl

theorem mem_stamps {ls : List Loc} {t : Nat} : t ∈ ls.filterMap Loc.stamp ↔ .point t ∈ ls := by
  rw [List.mem_filterMap]
  constructor
  · rintro ⟨l, hl, hstamp⟩
    cases l with
    | point stamp => cases hstamp; exact hl
    | dataDir => cases hstamp
    | staging path => cases hstamp
    | discarded stamp => cases hstamp
  · exact fun h => ⟨_, h, rfl⟩

/-- With the markers in order, `list` is the points by their swaps, the last one first. -/
theorem list_recent {fs : Disk D} {swaps stamps : List Nat} (h : Ordered fs swaps stamps)
    (hapart : (fs.dirs.map Prod.fst).Nodup) (mtime : D → Nat) :
    (list mtime fs).map (·.rollbackPath) = recent fs swaps := by
  have hperm : ((list mtime fs).map (·.rollbackPath)).Perm (recent fs swaps) := by
    refine ((List.mergeSort_perm _ _).map _).trans ?_
    rw [listed_paths]
    refine (List.perm_ext_iff_of_nodup ?_ (h.nodup.filter _)).mpr fun t => ?_
    · refine hapart.filterMap fun a b c ha hb => ?_
      cases a <;> cases ha
      cases b <;> cases hb
      rfl
    · rw [mem_stamps]
      constructor
      · intro hloc
        have hex : fs.existsSync (.point t) = true := List.contains_iff_mem.mpr hloc
        exact List.mem_filter.mpr ⟨(h.marked t hex).1, hex⟩
      · intro ht
        exact List.contains_iff_mem.mp (List.mem_filter.mp ht).2
  have hlisted : ∀ e ∈ list mtime fs, e.swappedAt = fs.markedAt e.rollbackPath := by
    intro e he
    obtain ⟨⟨l, d⟩, hx, hentry⟩ := List.mem_filterMap.mp (List.mem_mergeSort.mp he)
    obtain ⟨rfl, hat⟩ := entryOf_some.mp hentry
    obtain ⟨-, m, hm, hread⟩ := h.marked _ (existsSync_iff.mpr ⟨d, hx⟩)
    rw [hat, listedAt, hm, Disk.markedAt, hm]
    exact if_pos hread
  have hsorted : ((list mtime fs).map (·.rollbackPath)).Pairwise
      fun t u => fs.markedAt u ≤ fs.markedAt t := by
    rw [List.pairwise_map]
    have hpairs := @List.pairwise_mergeSort Entry (fun a b => decide (b.swappedAt ≤ a.swappedAt))
      (fun a b c hab hbc =>
        decide_eq_true (le_trans (of_decide_eq_true hbc) (of_decide_eq_true hab)))
      (fun a b => by
        rw [Bool.or_eq_true, decide_eq_true_eq, decide_eq_true_eq]
        exact le_total _ _)
      (fs.dirs.filterMap (entryOf mtime fs))
    refine List.Pairwise.imp_of_mem (fun {a b} ha hb hle => ?_) hpairs
    rw [← hlisted a ha, ← hlisted b hb]
    exact of_decide_eq_true hle
  refine hperm.eq_of_pairwise (fun t u ht hu htu hut => ?_) hsorted (h.desc.imp Nat.le_of_lt)
  have hnodup : ((recent fs swaps).map fs.markedAt).Nodup := by
    rw [List.Nodup, List.pairwise_map]
    exact h.desc.imp fun hlt => (Nat.ne_of_lt hlt).symm
  exact List.inj_on_of_nodup_map hnodup (hperm.mem_iff.mp ht) hu (Nat.le_antisymm hut htu)

theorem sweep_points {fs : Disk D} {t : Nat} {d : D} :
    (.point t, d) ∈ fs.sweep.dirs ↔ (.point t, d) ∈ fs.dirs := by
  rw [Disk.sweep, List.mem_filter]
  exact and_iff_left rfl

theorem toDelete_recent {fs : Disk D} {swaps stamps : List Nat} (h : Ordered fs swaps stamps)
    (hapart : (fs.dirs.map Prod.fst).Nodup) (keep : Nat) (mtime : D → Nat) :
    toDelete keep mtime fs = (recent fs swaps).drop keep := by
  have hexists : ∀ t, fs.sweep.existsSync (.point t) = fs.existsSync (.point t) := fun t => by
    rw [Bool.eq_iff_iff, existsSync_iff, existsSync_iff]
    exact exists_congr fun d => sweep_points
  have hsweep : Ordered fs.sweep swaps stamps :=
    h.shrink (fun t ht => ⟨hexists t ▸ ht, rfl⟩) fun _ ht => ht
  have hrecent : recent fs.sweep swaps = recent fs swaps :=
    List.filter_congr fun t _ => hexists t
  rw [toDelete, List.map_drop, list_recent hsweep (hapart.sublist (List.filter_sublist.map _)),
    hrecent]

/-- `purge` leaves the points alone that were swapped most recently. -/
theorem purge_keeps {fs : Disk D} {swaps stamps : List Nat} (h : Ordered fs swaps stamps)
    (hapart : (fs.dirs.map Prod.fst).Nodup) {keep t : Nat} {mtime : D → Nat} {d : D}
    (ht : t ∈ (recent fs swaps).take keep) (hd : (.point t, d) ∈ fs.dirs) :
    (.point t, d) ∈ (purge keep mtime fs).dirs := by
  have hnot : t ∉ (recent fs swaps).drop keep := fun hdrop =>
    List.disjoint_take_drop (h.nodup.filter _) (Nat.le_refl keep) ht hdrop
  rw [purge_dirs, toDelete_recent h hapart]
  refine List.mem_filter.mpr ⟨hd, ?_⟩
  simpa [Loc.isDiscarded, Loc.isOneOf] using hnot

/-- What the calls promise in a state: nothing is lost, a call that throws has put back what
it moved unless the undo failed, and `purge` keeps the points swapped last. -/
structure Safe (s : St D) : Prop where
  placed : Placed s
  swap_back : ∀ staging stamp now io e, (swap staging stamp now io s.disk).1 = .error e →
    io.undoes = true → (swap staging stamp now io s.disk).2 = s.disk
  rollback_back : ∀ target stamp io e, (rollback target stamp io s.disk).1 = .error e →
    io.undoes = true → (rollback target stamp io s.disk).2 = s.disk
  keeps : ∀ keep mtime, ∀ t ∈ (recent s.disk s.swaps).take keep, ∀ d,
    (.point t, d) ∈ s.disk.dirs → (.point t, d) ∈ (purge keep mtime s.disk).dirs

/-- In every run whose swaps leave their markers. -/
theorem safe_of_reach [DecidableEq D] (h : Reach step Recorded (St.init live) s) : Safe s where
  placed := placed_of_reach h.always
  swap_back := fun _ _ _ _ _ => swap_throws
  rollback_back := fun _ _ _ _ => rollback_throws
  keeps := by
    have hinv : Inv s := h.always.invariant Inv.init fun _ _ _ hI _ hstep => hI.step hstep
    have hordered : Ordered s.disk s.swaps s.stamps :=
      @Reach.invariant _ _ step Recorded (St.init live) s
        (fun s => Ordered s.disk s.swaps s.stamps) Ordered.init
        (fun _ _ _ hI hok hstep => hI.step hok hstep) h
    exact fun keep mtime t ht d hd => purge_keeps hordered hinv.apart ht hd

end

/-- Two swaps, the second of which fails to write its marker when `marker` is `none`. -/
def twoSwaps (marker : Option Bool) : List (Call Nat) :=
  [.stage 0 1, .swap 0 10 11 ⟨true, true, true, some true⟩,
    .stage 0 2, .swap 0 20 21 ⟨true, true, true, marker⟩]

theorem safe_twoSwaps : ∃ s, exec step (St.init (some 0)) (twoSwaps (some true)) = some s ∧
    recent s.disk s.swaps = [20, 10] ∧ Safe s := by
  obtain ⟨s, hexec⟩ : ∃ s, exec step (St.init (some 0)) (twoSwaps (some true)) = some s := ⟨_, rfl⟩
  have hmeets : Meets step Recorded (St.init (some 0)) (twoSwaps (some true)) :=
    ⟨trivial, fun _ _ _ => .inr ⟨rfl, rfl, by decide⟩, trivial,
      fun _ _ _ => .inr ⟨rfl, rfl, by decide⟩, trivial⟩
  have hrecent : (exec step (St.init (some 0)) (twoSwaps (some true))).map
      (fun s => recent s.disk s.swaps) = some [20, 10] := rfl
  rw [hexec] at hrecent
  exact ⟨s, hexec, Option.some.inj hrecent, safe_of_reach (reach_of_meets _ hmeets hexec)⟩

/-- The disk after them, when it does. -/
def unmarked : Disk Nat :=
  ⟨[(.dataDir, 2), (.point 20, 1), (.point 10, 0)], [(10, ⟨11, true⟩)]⟩

/-- The point without a marker is taken for as old as its directory, and goes first. -/
theorem purges_latest : ∃ s : St Nat, Reach step Always (St.init (some 0)) s ∧ ¬ Safe s := by
  obtain ⟨s, hexec⟩ : ∃ s, exec step (St.init (some 0)) (twoSwaps none) = some s := ⟨_, rfl⟩
  refine ⟨s, reach_of_exec _ hexec, fun h => ?_⟩
  have hs : exec step (St.init (some 0)) (twoSwaps none) =
      some ⟨unmarked, [2, 1, 0], [], [20, 10], [20, 10]⟩ := rfl
  obtain rfl := Option.some.inj (hexec.symm.trans hs)
  have hkept := h.keeps 1 (fun _ => 5) 20 (by decide) 1 (by decide)
  have hlist : list (fun _ => 5) unmarked.sweep = [⟨10, 11⟩, ⟨20, 5⟩] := by
    show ([⟨20, 5⟩, ⟨10, 11⟩] : List Entry).mergeSort _ = _
    simp [List.mergeSort, List.MergeSort.Internal.splitInTwo]
  have hdelete : 20 ∈ toDelete 1 (fun _ => 5) unmarked := by
    rw [toDelete, hlist]
    decide
  rw [purge_dirs, List.mem_filter] at hkept
  simp [Loc.isDiscarded, Loc.isOneOf, hdelete] at hkept

end Blamejs.RestoreRollback
