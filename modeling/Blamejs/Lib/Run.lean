import Mathlib.Tactic.Common

/-!
# Runs of a step function

A system that several parties drive is a step function on the whole state: an
action names who moves and everything the environment chooses, and `none` says
that the move is not open in that state. `exec` plays a list of actions.
`Reach` is the set of states some run leads to when every step of it meets a
condition on the action and the state it is taken in; with the condition that
always holds, `Reach step Always`, it is the reachable states.

The one rule everything else uses is `Reach.invariant`: what holds at the start
and survives every step that meets the condition holds wherever such a run
leads. `simulate` is its form for two systems, which also compares what each takes
from outside.
-/

namespace Run

variable {S A : Type*}

/-- The state after a list of actions, when each is open in its turn. -/
def exec (step : S → A → Option S) : S → List A → Option S
  | s, [] => some s
  | s, a :: as => (step s a).bind fun s' => exec step s' as

/-- The condition every step meets. -/
def Always (_ : S) (_ : A) : Prop := True

/-- The states the runs from `s₀` lead to whose steps all meet `ok`. -/
inductive Reach (step : S → A → Option S) (ok : S → A → Prop) (s₀ : S) : S → Prop
  | start : Reach step ok s₀ s₀
  | next {s s' : S} {a : A} :
      Reach step ok s₀ s → ok s a → step s a = some s' → Reach step ok s₀ s'

variable {step : S → A → Option S} {ok ok' : S → A → Prop} {s₀ s s' : S}

/-- The invariant rule. -/
theorem Reach.invariant {I : S → Prop} (h₀ : I s₀)
    (hstep : ∀ s a s', I s → ok s a → step s a = some s' → I s')
    (h : Reach step ok s₀ s) : I s := by
  induction h with
  | start => exact h₀
  | next _ hok hs ih => exact hstep _ _ _ ih hok hs

/-- The invariant rule with an invariant already known of every state on the way. -/
theorem Reach.invariant_of {I J : S → Prop} (hJ : ∀ s, Reach step ok s₀ s → J s) (h₀ : I s₀)
    (hstep : ∀ s a s', J s → J s' → I s → ok s a → step s a = some s' → I s')
    (h : Reach step ok s₀ s) : I s := by
  induction h with
  | start => exact h₀
  | next hr hok hs ih => exact hstep _ _ _ (hJ _ hr) (hJ _ (.next hr hok hs)) ih hok hs

theorem Reach.mono (himp : ∀ s a, ok s a → ok' s a) (h : Reach step ok s₀ s) :
    Reach step ok' s₀ s := by
  induction h with
  | start => exact .start
  | next _ hok hs ih => exact .next ih (himp _ _ hok) hs

theorem Reach.always (h : Reach step ok s₀ s) : Reach step Always s₀ s :=
  h.mono fun _ _ _ => trivial

theorem Reach.trans (h : Reach step ok s₀ s) (h' : Reach step ok s s') :
    Reach step ok s₀ s' := by
  induction h' with
  | start => exact h
  | next _ hok hs ih => exact .next ih hok hs

/-- A played list of actions is a run. -/
theorem reach_of_exec (as : List A) (h : exec step s as = some s') : Reach step Always s s' := by
  induction as generalizing s with
  | nil =>
      rw [exec, Option.some.injEq] at h
      exact h ▸ .start
  | cons a as ih =>
      rw [exec, Option.bind_eq_some_iff] at h
      obtain ⟨m, hm, hrest⟩ := h
      exact (Reach.next .start trivial hm).trans (ih hrest)

/-- Each step of a played list meets the condition in its turn. -/
def Meets (step : S → A → Option S) (ok : S → A → Prop) : S → List A → Prop
  | _, [] => True
  | s, a :: as =>
      ok s a ∧ match step s a with
        | some s' => Meets step ok s' as
        | none => True

theorem reach_of_meets (as : List A) (hmeets : Meets step ok s as) (h : exec step s as = some s') :
    Reach step ok s s' := by
  induction as generalizing s with
  | nil =>
      rw [exec, Option.some.injEq] at h
      exact h ▸ .start
  | cons a as ih =>
      rw [exec, Option.bind_eq_some_iff] at h
      obtain ⟨m, hm, hrest⟩ := h
      rw [Meets, hm] at hmeets
      exact (Reach.next .start hmeets.1 hm).trans (ih hmeets.2 hrest)

theorem exec_append (as bs : List A) :
    exec step s (as ++ bs) = (exec step s as).bind fun s' => exec step s' bs := by
  induction as generalizing s with
  | nil => rfl
  | cons a as ih =>
      rw [List.cons_append, exec, exec, Option.bind_assoc]
      exact congrArg _ (funext fun _ => ih)

/-- The simulation rule: when every step of one system is answered by steps of
another that take the same from outside and keep the two related, a run of the one
is a run of the other on the same inputs. -/
theorem simulate {T B E : Type*} {stepT : T → B → Option T} {input : A → Option E}
    {inputT : B → Option E} {R : S → T → Prop}
    (hstep : ∀ s a s' t, R s t → ok s a → step s a = some s' →
      ∃ bs t', exec stepT t bs = some t' ∧ bs.filterMap inputT = (input a).toList ∧ R s' t')
    (as : List A) {t : T} (hR : R s t) (hmeets : Meets step ok s as)
    (h : exec step s as = some s') :
    ∃ bs t', exec stepT t bs = some t' ∧ bs.filterMap inputT = as.filterMap input ∧ R s' t' := by
  induction as generalizing s t with
  | nil =>
      rw [exec, Option.some.injEq] at h
      exact ⟨[], t, rfl, rfl, h ▸ hR⟩
  | cons a as ih =>
      rw [exec, Option.bind_eq_some_iff] at h
      obtain ⟨m, hm, hrest⟩ := h
      rw [Meets, hm] at hmeets
      obtain ⟨bs, u, hbs, hin, hRu⟩ := hstep _ _ _ _ hR hmeets.1 hm
      obtain ⟨cs, t', hcs, hrestin, hRt⟩ := ih hRu hmeets.2 hrest
      refine ⟨bs ++ cs, t', ?_, ?_, hRt⟩
      · rw [exec_append, hbs]
        exact hcs
      · rw [List.filterMap_append, hin, hrestin]
        cases hi : input a with
        | none => rw [List.filterMap_cons_none hi]; rfl
        | some i => rw [List.filterMap_cons_some hi]; rfl

/-- The step function with the steps that do not meet `ok` closed off. -/
def guarded (step : S → A → Option S) (ok : S → A → Bool) (s : S) (a : A) : Option S :=
  if ok s a then step s a else none

theorem reach_of_guarded {ok : S → A → Bool} (h : Reach (guarded step ok) Always s s') :
    Reach step (fun s a => ok s a = true) s s' := by
  induction h with
  | start => exact .start
  | next _ _ hs ih =>
      rw [guarded] at hs
      split at hs
      · next hok => exact .next ih hok hs
      · cases hs

/-- A played list of actions whose steps all meet a condition is such a run. -/
theorem reach_of_exec_guarded {ok : S → A → Bool} (as : List A)
    (h : exec (guarded step ok) s as = some s') : Reach step (fun s a => ok s a = true) s s' :=
  reach_of_guarded (reach_of_exec as h)

end Run
