import Mathlib.Tactic.Common

/-!
# Parsers that are fed in pieces

A parser reads one item off the front of a buffer, asks for more, or refuses. When
what it decides is not changed by what comes behind, it does not matter how a stream
is cut: draining one piece and then what is left with the next gives the items of
both together.
-/

namespace Incremental

/-- What a parser makes of a buffer. -/
inductive Parsed (β φ ε : Type) where
  | more
  | item (f : φ) (rest : List β)
  | refuse (e : ε)

/-- A parser that reads something with every item, and whose decisions stand. -/
structure Parser (β φ ε : Type) where
  parse : List β → Parsed β φ ε
  shorter : ∀ {buf f rest}, parse buf = .item f rest → rest.length < buf.length
  item_append : ∀ {buf f rest} (more), parse buf = .item f rest →
    parse (buf ++ more) = .item f (rest ++ more)
  refuse_append : ∀ {buf e} (more), parse buf = .refuse e → parse (buf ++ more) = .refuse e

/-- The items of a buffer, what is left of it, and the refusal where there is one. -/
structure Drained (β φ ε : Type) where
  items : List φ
  rest : List β
  refusal : Option ε

variable {β φ ε : Type} {P : Parser β φ ε}

/-- With fuel for every unit of the buffer. -/
def drainLoop (parse : List β → Parsed β φ ε) : Nat → List β → Drained β φ ε
  | 0, buf => ⟨[], buf, none⟩
  | fuel + 1, buf =>
      match parse buf with
      | .more => ⟨[], buf, none⟩
      | .refuse e => ⟨[], buf, some e⟩
      | .item f rest =>
          let d := drainLoop parse fuel rest
          { d with items := f :: d.items }

def drain (parse : List β → Parsed β φ ε) (buf : List β) : Drained β φ ε :=
  drainLoop parse (buf.length + 1) buf

theorem drainLoop_fuel {n m : Nat} {buf : List β} (hn : buf.length < n) (hm : buf.length < m) :
    drainLoop P.parse n buf = drainLoop P.parse m buf := by
  induction n generalizing m buf with
  | zero => exact absurd hn (Nat.not_lt_zero _)
  | succ n ih =>
      obtain ⟨m, rfl⟩ : ∃ k, m = k + 1 := ⟨m - 1, by omega⟩
      simp only [drainLoop]
      split
      · rfl
      · rfl
      · next f rest hparse =>
          have := P.shorter hparse
          rw [ih (m := m) (by omega) (by omega)]

theorem drain_more {buf : List β} (h : P.parse buf = .more) :
    drain P.parse buf = ⟨[], buf, none⟩ := by
  simp only [drain, drainLoop, h]

theorem drain_refuse {buf : List β} {e : ε} (h : P.parse buf = .refuse e) :
    drain P.parse buf = ⟨[], buf, some e⟩ := by
  simp only [drain, drainLoop, h]

theorem drain_item {buf rest : List β} {f : φ} (h : P.parse buf = .item f rest) :
    drain P.parse buf = { drain P.parse rest with items := f :: (drain P.parse rest).items } := by
  have := P.shorter h
  rw [drain, drainLoop, h]
  dsimp only
  rw [drain, drainLoop_fuel (by omega) (Nat.lt_succ_self rest.length)]

/-- The cases of a drain, one item after the other. -/
theorem drain_induction {motive : List β → Prop} (more : ∀ buf, P.parse buf = .more → motive buf)
    (refuse : ∀ buf e, P.parse buf = .refuse e → motive buf)
    (item : ∀ buf f rest, P.parse buf = .item f rest → motive rest → motive buf) (buf : List β) :
    motive buf := by
  induction hlen : buf.length using Nat.strongRecOn generalizing buf with
  | _ n ih =>
      cases h : P.parse buf with
      | more => exact more buf h
      | refuse e => exact refuse buf e h
      | item f rest => exact item buf f rest h (ih _ (hlen ▸ P.shorter h) rest rfl)

/-- A stream that is cut in two. -/
theorem drain_append (buf more : List β) : drain P.parse (buf ++ more) =
    if (drain P.parse buf).refusal.isSome then
      { drain P.parse buf with rest := (drain P.parse buf).rest ++ more }
    else
      let d := drain P.parse ((drain P.parse buf).rest ++ more)
      { d with items := (drain P.parse buf).items ++ d.items } := by
  induction buf using drain_induction (P := P) with
  | more buf h => rw [drain_more h]; rfl
  | refuse buf e h => rw [drain_refuse h, drain_refuse (P.refuse_append more h)]; rfl
  | item buf f rest h ih =>
      rw [drain_item h, drain_item (P.item_append more h), ih]
      dsimp only
      split <;> rfl

end Incremental
