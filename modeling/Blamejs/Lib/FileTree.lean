import Mathlib.Data.List.Basic
import Mathlib.Logic.Function.Basic
import Mathlib.Tactic.Common

/-!
# A tree of files with symbolic links

A file system as what lies at each place, a place being the names on the way from the
root. A path is walked from the root: a symbolic link on the way is replaced by its
target, one at the end only if it is to be followed. The bound on the steps stands for
the one on links.

What only adds to a file system keeps every place that a path led to: on the way a walk
meets only what is there, and it does not look at what lies at its end unless it follows
it.
-/

namespace FileTree

variable {N : Type*}

inductive Node (N : Type*) where
  | dir
  | file (content : List UInt8)
  /-- A target from the root, or from where the link lies. -/
  | link (absolute : Bool) (target : List (Option N))
  deriving DecidableEq

abbrev Place (N : Type*) := List N

abbrev Fs (N : Type*) := Place N → Option (Node N)

/-- A step of a target: a name, or one up. -/
def down (names : List N) : List (Option N) := names.map some

/-- Where a path leads: its end need not be there, everything before it must. -/
def walk (fs : Fs N) (follow : Bool) : Nat → Place N → List (Option N) → Option (Place N)
  | 0, _, _ => none
  | _ + 1, place, [] => some place
  | fuel + 1, place, none :: rest => walk fs follow fuel place.dropLast rest
  | fuel + 1, place, some name :: rest =>
      match fs (place ++ [name]) with
      | none => if rest.isEmpty then some (place ++ [name]) else none
      | some .dir =>
          if rest.isEmpty then some (place ++ [name])
          else walk fs follow fuel (place ++ [name]) rest
      | some (.file _) => if rest.isEmpty then some (place ++ [name]) else none
      | some (.link absolute target) =>
          if rest.isEmpty && !follow then some (place ++ [name])
          else walk fs follow fuel (if absolute then [] else place) (target ++ rest)

/-- The bound on the steps of a walk. -/
def maxSteps : Nat := 4096

/-- The place of a path, a link at its end not followed. -/
def locate (fs : Fs N) (path : Place N) : Option (Place N) := walk fs false maxSteps [] (down path)

/-- The place a path leads to, a link at its end followed. -/
def resolve (fs : Fs N) (path : Place N) : Option (Place N) := walk fs true maxSteps [] (down path)

/-- Something is where a path leads. -/
def present (fs : Fs N) (path : Place N) : Bool := ((resolve fs path).bind fs).isSome

/-- The second file system has everything the first has. -/
def Extends (fs fs' : Fs N) : Prop := ∀ p node, fs p = some node → fs' p = some node

variable {fs fs' fs'' : Fs N} {path place p q : Place N} {steps : List (Option N)} {fuel : Nat}

theorem Extends.refl (fs : Fs N) : Extends fs fs := fun _ _ h => h

theorem Extends.trans (h : Extends fs fs') (h' : Extends fs' fs'') : Extends fs fs'' :=
  fun p node hp => h' p node (h p node hp)

/-- A walk that does not follow its end leads to the same place in a larger file system. -/
theorem walk_extends (hext : Extends fs fs') (h : walk fs false fuel place steps = some p) :
    walk fs' false fuel place steps = some p := by
  induction fuel generalizing place steps with
  | zero => cases h
  | succ fuel ih =>
      cases steps with
      | nil => exact h
      | cons step rest =>
          cases step with
          | none =>
              rw [walk] at h ⊢
              exact ih h
          | some name =>
              rw [walk] at h
              cases hnode : fs (place ++ [name]) with
              | none =>
                  simp only [hnode] at h
                  split at h
                  · next hempty =>
                      -- the end of the path, whatever lies there now
                      cases h
                      have hrest : rest = [] := by simpa using hempty
                      subst hrest
                      rw [walk]
                      cases fs' (place ++ [name]) with
                      | none => rfl
                      | some node =>
                          cases node <;> rfl
                  · cases h
              | some node =>
                  rw [walk, hext _ _ hnode]
                  rw [hnode] at h
                  cases node with
                  | dir =>
                      dsimp only at h ⊢
                      split at h
                      · next hend => rw [if_pos hend]; exact h
                      · next hend => rw [if_neg hend]; exact ih h
                  | file content => exact h
                  | link absolute target =>
                      dsimp only at h ⊢
                      split at h
                      · next hend => rw [if_pos hend]; exact h
                      · next hend => rw [if_neg hend]; exact ih h

theorem locate_extends (hext : Extends fs fs') (h : locate fs path = some p) :
    locate fs' path = some p := walk_extends hext h

/-! ## Changes -/

section changes

variable [DecidableEq N]

/-- Something is put at a place. -/
def put (fs : Fs N) (p : Place N) (node : Node N) : Fs N := Function.update fs p (some node)

/-- What is at a place is taken away. -/
def remove (fs : Fs N) (p : Place N) : Fs N := Function.update fs p none

@[simp] theorem put_self (fs : Fs N) (p : Place N) (node : Node N) : put fs p node p = some node :=
  Function.update_self ..

theorem put_of_ne {node : Node N} (h : q ≠ p) : put fs p node q = fs q :=
  Function.update_of_ne h _ _

@[simp] theorem remove_self (fs : Fs N) (p : Place N) : remove fs p p = none :=
  Function.update_self ..

theorem remove_of_ne (h : q ≠ p) : remove fs p q = fs q := Function.update_of_ne h _ _

theorem extends_put {node : Node N} (h : fs p = none) : Extends fs (put fs p node) := by
  intro q node' hq
  rw [put_of_ne (fun heq => by rw [heq, h] at hq; cases hq)]
  exact hq

theorem remove_extends (fs : Fs N) (p : Place N) : Extends (remove fs p) fs := by
  intro q node hq
  by_cases heq : q = p
  · rw [heq, remove_self] at hq
    cases hq
  · rwa [remove_of_ne heq] at hq

/-- The directories on the way of a path are made where they are missing; whether all of
them are there then. -/
def mkdirs (fs : Fs N) : Place N → List N → Fs N × Bool
  | _, [] => (fs, true)
  | place, name :: rest =>
      match fs (place ++ [name]) with
      | none => mkdirs (put fs (place ++ [name]) .dir) (place ++ [name]) rest
      | some .dir => mkdirs fs (place ++ [name]) rest
      | some (.file _) => (fs, false)
      | some (.link _ _) =>
          match walk fs true maxSteps place [some name] with
          | none => (fs, false)
          | some q => if fs q = some .dir then mkdirs fs q rest else (fs, false)

/-- Only directories were added. -/
def AddsDirs (fs fs' : Fs N) : Prop :=
  ∀ p, fs' p = fs p ∨ (fs p = none ∧ fs' p = some .dir)

theorem AddsDirs.refl (fs : Fs N) : AddsDirs fs fs := fun _ => Or.inl rfl

theorem AddsDirs.extends (h : AddsDirs fs fs') : Extends fs fs' := by
  intro p node hp
  rcases h p with heq | ⟨hnone, -⟩
  · rw [heq, hp]
  · rw [hnone] at hp
    cases hp

theorem AddsDirs.trans (h : AddsDirs fs fs') (h' : AddsDirs fs' fs'') : AddsDirs fs fs'' := by
  intro p
  rcases h' p with heq' | ⟨hnone', hdir'⟩
  · rw [heq']
    exact h p
  · rcases h p with heq | ⟨-, hdir⟩
    · exact Or.inr ⟨heq ▸ hnone', hdir'⟩
    · rw [hnone'] at hdir
      cases hdir

theorem mkdirs_addsDirs (fs : Fs N) (place : Place N) (names : List N) :
    AddsDirs fs (mkdirs fs place names).1 := by
  induction names generalizing fs place with
  | nil => exact AddsDirs.refl fs
  | cons name rest ih =>
      rw [mkdirs]
      split
      · next hnone =>
          refine AddsDirs.trans (fun p => ?_) (ih _ _)
          by_cases heq : p = place ++ [name]
          · rw [heq]
            exact Or.inr ⟨hnone, put_self ..⟩
          · exact Or.inl (put_of_ne heq)
      · exact ih _ _
      · exact AddsDirs.refl fs
      · split
        · exact AddsDirs.refl fs
        · split
          · exact ih _ _
          · exact AddsDirs.refl fs

end changes

end FileTree
