import Blamejs.Ref.Cbor
import Blamejs.Lib.Checked
import Mathlib.Data.List.Induction

/-!
# What the decoder's steps can do

One inversion lemma for each reading step, from the bytes up to a whole data
item: `decodeItem_ok` says in which of four ways an item is read, and everything
else about accepted input is derived from it. The last section shows that the
model's fuel never runs out.
-/

namespace Blamejs.Cbor

open Blamejs.Js Checked

theorem bind_ok {α β : Type} (a : α) (f : α → Except Failure β) :
    (Except.ok a >>= f) = f a := rfl

theorem pure_ok {α : Type} (a : α) : (pure a : Except Failure α) = .ok a := rfl

theorem fail_ne_ok {α : Type} {code message : String} {a : α} : fail code message ≠ .ok a := by
  intro h
  cases h

theorem isOk_iff {α : Type} {x : Except Failure α} : x.isOk = true ↔ ∃ a, x = .ok a := by
  cases x with
  | error e => simp [Except.isOk, Except.toBool]
  | ok a => simp [Except.isOk, Except.toBool]

/-! ## Bytes and arguments -/

theorem takeBytes_ok {n : Nat} {st taken rest : List UInt8} :
    takeBytes n st = .ok (taken, rest) ↔ st = taken ++ rest ∧ taken.length = n := by
  unfold takeBytes
  split
  · next h =>
      refine ⟨fun h => (fail_ne_ok h).elim, ?_⟩
      rintro ⟨rfl, hlen⟩
      rw [List.length_append] at h
      omega
  · next h =>
      rw [Except.ok.injEq, List.splitAt_eq, Prod.mk.injEq]
      constructor
      · rintro ⟨rfl, rfl⟩
        exact ⟨(List.take_append_drop n st).symm, by rw [List.length_take]; omega⟩
      · rintro ⟨rfl, rfl⟩
        exact ⟨List.take_left, List.drop_left⟩

theorem beValue_lt (bytes : List UInt8) : beValue bytes < 256 ^ bytes.length := by
  induction bytes using List.reverseRecOn with
  | nil => decide
  | append_singleton bytes b ih =>
      have hb := b.toNat_lt
      rw [beValue] at ih ⊢
      rw [List.foldl_append, List.foldl_cons, List.foldl_nil, List.length_append,
        List.length_singleton, Nat.pow_succ]
      omega

/-- An argument is read off the bytes after the head and fits 64 bits. -/
theorem readArgument_ok {ai n : Nat} {st rest : List UInt8}
    (h : readArgument ai st = .ok (n, rest)) : n < 2 ^ 64 ∧ ∃ lead, st = lead ++ rest := by
  have hread : ∀ {k}, k ≤ 8 → (takeBytes k st).map (fun p => (beValue p.1, p.2)) = .ok (n, rest) →
      n < 2 ^ 64 ∧ ∃ lead, st = lead ++ rest := by
    intro k hk h
    obtain ⟨⟨taken, rest'⟩, htake, heq⟩ := map_eq_ok.mp h
    cases heq
    obtain ⟨hst, hlen⟩ := takeBytes_ok.mp htake
    refine ⟨?_, taken, hst⟩
    calc beValue taken < 256 ^ taken.length := beValue_lt taken
      _ ≤ 256 ^ 8 := Nat.pow_le_pow_right (by decide) (by omega)
      _ = 2 ^ 64 := by decide
  unfold readArgument at h
  split_ifs at h
  · cases h
    exact ⟨by omega, [], rfl⟩
  · exact hread (by decide) h
  · exact hread (by decide) h
  · exact hread (by decide) h
  · exact hread (by decide) h
  · exact (fail_ne_ok h).elim
  · exact (fail_ne_ok h).elim

theorem readLength_ok {ai n : Nat} {st rest : List UInt8}
    (h : readLength ai st = .ok (n, rest)) :
    readArgument ai st = .ok (n, rest) ∧ n ≤ Double.maxSafe := by
  obtain ⟨⟨n', rest'⟩, hread, hcheck⟩ := bind_eq_ok.mp h
  dsimp only at hcheck
  split_ifs at hcheck
  · exact (fail_ne_ok hcheck).elim
  · next hle =>
      cases hcheck
      exact ⟨hread, Nat.le_of_not_lt hle⟩

theorem length_le_of_readLength {ai n : Nat} {st rest : List UInt8}
    (h : readLength ai st = .ok (n, rest)) : rest.length ≤ st.length := by
  obtain ⟨-, lead, rfl⟩ := readArgument_ok (readLength_ok h).1
  rw [List.length_append]
  omega

/-! ## Scalars -/

/-- A primitive whose size CBOR can write down. -/
def Short : Value → Prop
  | .bigint z => -2 ^ 64 ≤ z ∧ z < 2 ^ 64
  | .text s => (utf8 s).length < 2 ^ 64
  | _ => True

/-- An integer, a string, a simple value or a float; one head byte and what it
announces. -/
def readScalar (ib : UInt8) (st : List UInt8) : Except Failure (Value × List UInt8) :=
  decodeItem ⟨0, []⟩ 1 0 (ib :: st)

def IsScalarHead (ib : UInt8) : Prop :=
  ib.toNat / 32 ≠ 4 ∧ ib.toNat / 32 ≠ 5 ∧ ib.toNat / 32 ≠ 6

theorem decodeText_ok {bytes : List UInt8} {s : JsString} (h : decodeText bytes = .ok s) :
    textDecode bytes = some s := by
  unfold decodeText at h
  split at h
  · next heq =>
      cases h
      exact heq
  · exact (fail_ne_ok h).elim

theorem length_utf8_le_of_textDecode {bytes : List UInt8} {s : JsString}
    (h : textDecode bytes = some s) : (utf8 s).length ≤ bytes.length := by
  rcases utf8_of_textDecode h with rfl | rfl
  · exact Nat.le_refl _
  · have : utf8 (0xFEFF :: s) = utf8 [0xFEFF] ++ utf8 s := by
      rw [utf8, scalars_single (by decide)]
      rfl
    rw [this, List.length_append]
    omega

/-- Below an array, a map or a tag the depth and the limits do not matter. -/
theorem decodeItem_scalar {limits : Limits} {fuel depth : Nat} {ib : UInt8} {st : List UInt8}
    (hdepth : depth ≤ limits.maxDepth) (hib : IsScalarHead ib) :
    decodeItem limits (fuel + 1) depth (ib :: st) = readScalar ib st := by
  obtain ⟨h4, h5, h6⟩ := hib
  rw [readScalar, decodeItem, decodeItem, if_neg (Nat.not_lt.mpr hdepth), if_neg (Nat.lt_irrefl _)]
  simp only []
  split <;> first | rfl | contradiction

theorem decodeSimpleOrFloat_ok {ai : Nat} {st rest : List UInt8} {v : Value}
    (h : decodeSimpleOrFloat ai st = .ok (v, rest)) : Short v ∧ rest.length ≤ st.length := by
  have hfloat : ∀ {k} {read : Nat → Double},
      (takeBytes k st).map (fun p => (Value.num (read (beValue p.1)), p.2)) = .ok (v, rest) →
      Short v ∧ rest.length ≤ st.length := by
    intro k read h
    obtain ⟨⟨taken, rest'⟩, htake, heq⟩ := map_eq_ok.mp h
    obtain ⟨rfl, -⟩ := takeBytes_ok.mp htake
    cases heq
    exact ⟨trivial, by simp⟩
  have hsimple : ∀ {w}, Short w → Except.ok (ε := Failure) (w, st) = .ok (v, rest) →
      Short v ∧ rest.length ≤ st.length := by
    intro w hw h
    cases h
    exact ⟨hw, Nat.le_refl _⟩
  unfold decodeSimpleOrFloat at h
  split_ifs at h
  · exact hsimple (w := .bool false) trivial h
  · exact hsimple (w := .bool true) trivial h
  · exact hsimple (w := .null) trivial h
  · exact hsimple (w := .undefined) trivial h
  · exact hfloat h
  · exact hfloat h
  · exact hfloat h
  · exact (fail_ne_ok h).elim
  · exact (fail_ne_ok h).elim

theorem readScalar_ok {ib : UInt8} {st rest : List UInt8} {v : Value} (hib : IsScalarHead ib)
    (h : readScalar ib st = .ok (v, rest)) : Short v ∧ rest.length ≤ st.length := by
  obtain ⟨h4, h5, h6⟩ := hib
  rw [readScalar, decodeItem, if_neg (Nat.lt_irrefl _)] at h
  simp only [] at h
  split at h
  · obtain ⟨⟨n, st'⟩, hread, heq⟩ := bind_eq_ok.mp h
    obtain ⟨hn, lead, rfl⟩ := readArgument_ok hread
    cases heq
    refine ⟨?_, by simp⟩
    unfold ofArgument
    split
    · trivial
    · show _ ∧ _
      omega
  · obtain ⟨⟨n, st'⟩, hread, heq⟩ := bind_eq_ok.mp h
    obtain ⟨hn, lead, rfl⟩ := readArgument_ok hread
    cases heq
    refine ⟨?_, by simp⟩
    unfold ofNegArgument
    split
    · trivial
    · show _ ∧ _
      omega
  · obtain ⟨⟨n, st'⟩, hread, heq⟩ := bind_eq_ok.mp h
    have hle := length_le_of_readLength hread
    obtain ⟨⟨bytes, st''⟩, htake, hpure⟩ := bind_eq_ok.mp heq
    obtain ⟨rfl, -⟩ := takeBytes_ok.mp htake
    cases hpure
    rw [List.length_append] at hle
    exact ⟨trivial, by dsimp only; omega⟩
  · obtain ⟨⟨n, st'⟩, hread, heq⟩ := bind_eq_ok.mp h
    have hle := length_le_of_readLength hread
    have hn := (readLength_ok hread).2
    obtain ⟨⟨bytes, st''⟩, htake, hdecode⟩ := bind_eq_ok.mp heq
    obtain ⟨rfl, hlen⟩ := takeBytes_ok.mp htake
    obtain ⟨s, htext, hpure⟩ := bind_eq_ok.mp hdecode
    cases hpure
    rw [List.length_append] at hle
    have hutf : (utf8 s).length ≤ bytes.length :=
      length_utf8_le_of_textDecode (decodeText_ok htext)
    refine ⟨?_, by dsimp only; omega⟩
    show (utf8 s).length < 2 ^ 64
    rw [Double.maxSafe] at hn
    omega
  · contradiction
  · contradiction
  · contradiction
  · exact decodeSimpleOrFloat_ok h

/-! ## Items -/

/-- The four ways a data item is read. -/
inductive Reads (limits : Limits) (fuel depth : Nat) (ib : UInt8) (st rest : List UInt8) :
    Value → Prop
  | scalar {v : Value} (hib : IsScalarHead ib) (h : readScalar ib st = .ok (v, rest)) :
      Reads limits fuel depth ib st rest v
  | array {n : Nat} {st' : List UInt8} {items : List Value} (hib : ib.toNat / 32 = 4)
      (hlen : readLength (ib.toNat % 32) st = .ok (n, st'))
      (h : decodeItems limits fuel (depth + 1) n st' = .ok (items, rest)) :
      Reads limits fuel depth ib st rest (.array items)
  | map {n : Nat} {st' : List UInt8} {m : List (Value × Value)} (hib : ib.toNat / 32 = 5)
      (hlen : readLength (ib.toNat % 32) st = .ok (n, st'))
      (h : decodeEntries limits fuel (depth + 1) n [] [] st' = .ok (m, rest)) :
      Reads limits fuel depth ib st rest (.map m)
  | tag {n : Nat} {st' : List UInt8} {v : Value} (hib : ib.toNat / 32 = 6)
      (hlen : readLength (ib.toNat % 32) st = .ok (n, st')) (htag : n ∈ limits.allowedTags)
      (h : decodeItem limits fuel (depth + 1) st' = .ok (v, rest)) :
      Reads limits fuel depth ib st rest (.tag n v)

theorem decodeItem_ok {limits : Limits} {fuel depth : Nat} {st rest : List UInt8} {v : Value}
    (h : decodeItem limits fuel depth st = .ok (v, rest)) :
    ∃ fuel' ib st', fuel = fuel' + 1 ∧ st = ib :: st' ∧ depth ≤ limits.maxDepth ∧
      Reads limits fuel' depth ib st' rest v := by
  cases fuel with
  | zero =>
      rw [decodeItem] at h
      cases h
  | succ fuel =>
      by_cases hdepth : limits.maxDepth < depth
      · rw [decodeItem.eq_def] at h
        simp only [if_pos hdepth] at h
        exact (fail_ne_ok h).elim
      · have hdepth' := Nat.le_of_not_lt hdepth
        cases st with
        | nil =>
            rw [decodeItem.eq_def] at h
            simp only [if_neg hdepth] at h
            exact (fail_ne_ok h).elim
        | cons ib st =>
            refine ⟨fuel, ib, st, rfl, rfl, hdepth', ?_⟩
            by_cases hib : IsScalarHead ib
            · rw [decodeItem_scalar hdepth' hib] at h
              exact .scalar hib h
            · rw [decodeItem, if_neg hdepth] at h
              simp only [] at h
              split at h
              · next hmajor => exact absurd (by rw [IsScalarHead, hmajor]; decide) hib
              · next hmajor => exact absurd (by rw [IsScalarHead, hmajor]; decide) hib
              · next hmajor => exact absurd (by rw [IsScalarHead, hmajor]; decide) hib
              · next hmajor => exact absurd (by rw [IsScalarHead, hmajor]; decide) hib
              · next hmajor =>
                  obtain ⟨⟨n, st'⟩, hlen, h⟩ := bind_eq_ok.mp h
                  obtain ⟨⟨items, st''⟩, hitems, heq⟩ := bind_eq_ok.mp h
                  cases heq
                  exact .array hmajor hlen hitems
              · next hmajor =>
                  obtain ⟨⟨n, st'⟩, hlen, h⟩ := bind_eq_ok.mp h
                  obtain ⟨⟨m, st''⟩, hentries, heq⟩ := bind_eq_ok.mp h
                  cases heq
                  exact .map hmajor hlen hentries
              · next hmajor =>
                  obtain ⟨⟨n, st'⟩, hlen, h⟩ := bind_eq_ok.mp h
                  dsimp only at h
                  split_ifs at h with htag
                  · obtain ⟨⟨w, st''⟩, hitem, heq⟩ := bind_eq_ok.mp h
                    cases heq
                    exact .tag hmajor hlen htag hitem
                  · exact (fail_ne_ok h).elim
              · next h4 h5 h6 => exact absurd ⟨h4, h5, h6⟩ hib

theorem decodeItems_ok {limits : Limits} {fuel depth count : Nat} {st rest : List UInt8}
    {vs : List Value}
    (h : decodeItems limits fuel depth (count + 1) st = .ok (vs, rest)) :
    ∃ fuel' v st' ws, fuel = fuel' + 1 ∧ vs = v :: ws ∧
      decodeItem limits fuel' depth st = .ok (v, st') ∧
      decodeItems limits fuel' depth count st' = .ok (ws, rest) := by
  cases fuel with
  | zero =>
      rw [decodeItems] at h
      cases h
  | succ fuel =>
      rw [decodeItems] at h
      obtain ⟨⟨v, st'⟩, hitem, h⟩ := bind_eq_ok.mp h
      obtain ⟨⟨ws, st''⟩, hitems, heq⟩ := bind_eq_ok.mp h
      cases heq
      exact ⟨fuel, v, st', ws, rfl, rfl, hitem, hitems⟩

theorem decodeEntries_ok {limits : Limits} {fuel depth count : Nat} {seen : List (List UInt8)}
    {m m' : List (Value × Value)} {st rest : List UInt8}
    (h : decodeEntries limits fuel depth (count + 1) seen m st = .ok (m', rest)) :
    ∃ fuel' key st' val st'' id, fuel = fuel' + 1 ∧
      decodeItem limits fuel' depth st = .ok (key, st') ∧
      id = keyId key (st.take (st.length - st'.length)) ∧ id ∉ seen ∧
      decodeItem limits fuel' depth st' = .ok (val, st'') ∧
      decodeEntries limits fuel' depth count (id :: seen) (mapSet m key val) st''
        = .ok (m', rest) := by
  cases fuel with
  | zero =>
      rw [decodeEntries] at h
      cases h
  | succ fuel =>
      rw [decodeEntries] at h
      obtain ⟨⟨key, st'⟩, hkey, h⟩ := bind_eq_ok.mp h
      dsimp only at h
      split_ifs at h with hseen
      · exact (fail_ne_ok h).elim
      · obtain ⟨⟨val, st''⟩, hval, h⟩ := bind_eq_ok.mp h
        exact ⟨fuel, key, st', val, st'', _, rfl, hkey, rfl, hseen, hval, h⟩

theorem decode_ok {opts : DecodeOpts} {buf : List UInt8} {v : Value}
    (h : decode opts buf = .ok v) :
    buf.length ≤ opts.byteLimit ∧
      decodeItem opts.limits (decodeFuel buf.length) 0 buf = .ok (v, []) := by
  unfold decode at h
  by_cases hmax : opts.byteLimit < buf.length
  · rw [if_pos hmax] at h
    exact (fail_ne_ok h).elim
  · rw [if_neg hmax] at h
    obtain ⟨⟨w, rest⟩, hitem, hcheck⟩ := bind_eq_ok.mp h
    refine ⟨Nat.le_of_not_lt hmax, ?_⟩
    rw [hitem]
    dsimp only at hcheck
    by_cases hrest : rest = []
    · rw [if_neg (not_not.mpr hrest)] at hcheck
      subst hrest
      by_cases hdet : opts.requireDeterministic = true
      · rw [if_pos hdet] at hcheck
        obtain ⟨bytes, -, hcompare⟩ := bind_eq_ok.mp hcheck
        split at hcompare
        · exact (fail_ne_ok hcompare).elim
        · cases hcompare
          rfl
      · rw [if_neg hdet] at hcheck
        cases hcheck
        rfl
    · rw [if_pos hrest] at hcheck
      exact (fail_ne_ok hcheck).elim

/-! ## The fuel suffices -/

theorem length_le_of_decodeItems {limits : Limits} {fuel depth count : Nat}
    {st rest : List UInt8} {vs : List Value}
    (hitem : ∀ fuel' < fuel, ∀ {st rest v}, decodeItem limits fuel' depth st = .ok (v, rest) →
      rest.length < st.length)
    (h : decodeItems limits fuel depth count st = .ok (vs, rest)) : rest.length ≤ st.length := by
  induction count generalizing fuel st vs with
  | zero =>
      rw [decodeItems] at h
      cases h
      exact Nat.le_refl _
  | succ count ih =>
      obtain ⟨fuel', v, st', ws, rfl, -, hv, hws⟩ := decodeItems_ok h
      have hlt := hitem fuel' (Nat.lt_succ_self _) hv
      have hle := ih (fun f hf => hitem f (Nat.lt_succ_of_lt hf)) hws
      omega

theorem length_le_of_decodeEntries {limits : Limits} {fuel depth count : Nat}
    {seen : List (List UInt8)} {m m' : List (Value × Value)} {st rest : List UInt8}
    (hitem : ∀ fuel' < fuel, ∀ {st rest v}, decodeItem limits fuel' depth st = .ok (v, rest) →
      rest.length < st.length)
    (h : decodeEntries limits fuel depth count seen m st = .ok (m', rest)) :
    rest.length ≤ st.length := by
  induction count generalizing fuel seen m st with
  | zero =>
      rw [decodeEntries] at h
      cases h
      exact Nat.le_refl _
  | succ count ih =>
      obtain ⟨fuel', key, st', val, st'', id, rfl, hkey, -, -, hval, hentries⟩ :=
        decodeEntries_ok h
      have hlt := hitem fuel' (Nat.lt_succ_self _) hkey
      have hlt' := hitem fuel' (Nat.lt_succ_self _) hval
      have hle := ih (fun f hf => hitem f (Nat.lt_succ_of_lt hf)) hentries
      omega

theorem length_lt_of_decodeItem {limits : Limits} {fuel depth : Nat} {st rest : List UInt8}
    {v : Value} (h : decodeItem limits fuel depth st = .ok (v, rest)) :
    rest.length < st.length := by
  induction fuel using Nat.strong_induction_on generalizing depth st rest v with
  | _ fuel ih =>
      obtain ⟨fuel, ib, st, rfl, rfl, -, hreads⟩ := decodeItem_ok h
      have hitem : ∀ fuel' < fuel, ∀ {st rest v},
          decodeItem limits fuel' (depth + 1) st = .ok (v, rest) → rest.length < st.length :=
        fun fuel' hlt _ _ _ h => ih fuel' (Nat.lt_succ_of_lt hlt) h
      clear h
      rw [List.length_cons]
      cases hreads with
      | scalar hib h =>
          exact Nat.lt_succ_of_le (readScalar_ok hib h).2
      | array hib hlen h =>
          have hle := length_le_of_decodeItems hitem h
          have := length_le_of_readLength hlen
          omega
      | map hib hlen h =>
          have hle := length_le_of_decodeEntries hitem h
          have := length_le_of_readLength hlen
          omega
      | tag hib hlen htag h =>
          have hlt := ih fuel (Nat.lt_succ_self _) h
          have := length_le_of_readLength hlen
          omega

/-- Not a failure of the model. -/
def Fueled {α : Type} (x : Except Failure α) : Prop := x ≠ .error .outOfFuel

theorem fueled_ok {α : Type} {a : α} : Fueled (.ok a) := by
  intro h
  cases h

theorem fueled_fail {α : Type} {code message : String} :
    Fueled (fail code message : Except Failure α) := by
  intro h
  cases h

theorem Fueled.bind {α β : Type} {x : Except Failure α} {f : α → Except Failure β}
    (hx : Fueled x) (hf : ∀ a, x = .ok a → Fueled (f a)) : Fueled (x >>= f) := by
  cases x with
  | error e =>
      intro h
      cases h
      exact hx rfl
  | ok a => exact hf a rfl

theorem Fueled.map {α β : Type} {x : Except Failure α} {f : α → β} (hx : Fueled x) :
    Fueled (x.map f) := by
  cases x with
  | error e =>
      intro h
      cases h
      exact hx rfl
  | ok a => exact fueled_ok

theorem fueled_takeBytes (n : Nat) (st : List UInt8) : Fueled (takeBytes n st) := by
  unfold takeBytes
  split
  · exact fueled_fail
  · exact fueled_ok

theorem fueled_readArgument (ai : Nat) (st : List UInt8) : Fueled (readArgument ai st) := by
  unfold readArgument
  split_ifs
  · exact fueled_ok
  · exact (fueled_takeBytes _ _).map
  · exact (fueled_takeBytes _ _).map
  · exact (fueled_takeBytes _ _).map
  · exact (fueled_takeBytes _ _).map
  · exact fueled_fail
  · exact fueled_fail

theorem fueled_readLength (ai : Nat) (st : List UInt8) : Fueled (readLength ai st) := by
  refine (fueled_readArgument ai st).bind fun a _ => ?_
  dsimp only
  split
  · exact fueled_fail
  · exact fueled_ok

theorem fueled_decodeText (bytes : List UInt8) : Fueled (decodeText bytes) := by
  unfold decodeText
  split
  · exact fueled_ok
  · exact fueled_fail

theorem fueled_decodeSimpleOrFloat (ai : Nat) (st : List UInt8) :
    Fueled (decodeSimpleOrFloat ai st) := by
  unfold decodeSimpleOrFloat
  split_ifs
  · exact fueled_ok
  · exact fueled_ok
  · exact fueled_ok
  · exact fueled_ok
  · exact (fueled_takeBytes _ _).map
  · exact (fueled_takeBytes _ _).map
  · exact (fueled_takeBytes _ _).map
  · exact fueled_fail
  · exact fueled_fail

theorem fueled_decodeItems {limits : Limits} {fuel depth count : Nat} {st : List UInt8}
    (hitem : ∀ fuel' < fuel, ∀ st : List UInt8, 2 * st.length + 1 ≤ fuel' →
      Fueled (decodeItem limits fuel' depth st))
    (hfuel : 2 * st.length + 2 ≤ fuel) : Fueled (decodeItems limits fuel depth count st) := by
  induction count generalizing fuel st with
  | zero =>
      rw [decodeItems]
      exact fueled_ok
  | succ count ih =>
      cases fuel with
      | zero => omega
      | succ fuel =>
          rw [decodeItems]
          refine (hitem fuel (Nat.lt_succ_self _) st (by omega)).bind fun a ha => ?_
          have hlt := length_lt_of_decodeItem ha
          refine Fueled.bind ?_ fun _ _ => fueled_ok
          exact ih (fun f hf => hitem f (Nat.lt_succ_of_lt hf)) (by omega)

theorem fueled_decodeEntries {limits : Limits} {fuel depth count : Nat}
    {seen : List (List UInt8)} {m : List (Value × Value)} {st : List UInt8}
    (hitem : ∀ fuel' < fuel, ∀ st : List UInt8, 2 * st.length + 1 ≤ fuel' →
      Fueled (decodeItem limits fuel' depth st))
    (hfuel : 2 * st.length + 2 ≤ fuel) :
    Fueled (decodeEntries limits fuel depth count seen m st) := by
  induction count generalizing fuel seen m st with
  | zero =>
      rw [decodeEntries]
      exact fueled_ok
  | succ count ih =>
      cases fuel with
      | zero => omega
      | succ fuel =>
          rw [decodeEntries]
          refine (hitem fuel (Nat.lt_succ_self _) st (by omega)).bind fun a ha => ?_
          have hlt := length_lt_of_decodeItem ha
          dsimp only
          split
          · exact fueled_fail
          · refine (hitem fuel (Nat.lt_succ_self _) a.2 (by omega)).bind fun b hb => ?_
            have hlt' := length_lt_of_decodeItem hb
            exact ih (fun f hf => hitem f (Nat.lt_succ_of_lt hf)) (by omega)

theorem fueled_decodeItem {limits : Limits} {fuel depth : Nat} {st : List UInt8}
    (hfuel : 2 * st.length + 1 ≤ fuel) : Fueled (decodeItem limits fuel depth st) := by
  induction fuel using Nat.strong_induction_on generalizing depth st with
  | _ fuel ih =>
      obtain ⟨fuel, rfl⟩ : ∃ f, fuel = f + 1 := ⟨fuel - 1, by omega⟩
      have hitem : ∀ fuel' < fuel, ∀ st : List UInt8, 2 * st.length + 1 ≤ fuel' →
          Fueled (decodeItem limits fuel' (depth + 1) st) :=
        fun fuel' hlt st h => ih fuel' (Nat.lt_succ_of_lt hlt) h
      cases st with
      | nil =>
          rw [decodeItem.eq_def]
          dsimp only
          split
          · exact fueled_fail
          · exact fueled_fail
      | cons ib st =>
          rw [List.length_cons] at hfuel
          rw [decodeItem]
          split
          · exact fueled_fail
          · split
            · exact (fueled_readArgument _ _).bind fun _ _ => fueled_ok
            · exact (fueled_readArgument _ _).bind fun _ _ => fueled_ok
            · refine (fueled_readLength _ _).bind fun _ _ => ?_
              exact (fueled_takeBytes _ _).bind fun _ _ => fueled_ok
            · refine (fueled_readLength _ _).bind fun _ _ => ?_
              refine (fueled_takeBytes _ _).bind fun _ _ => ?_
              exact (fueled_decodeText _).bind fun _ _ => fueled_ok
            · refine (fueled_readLength _ _).bind fun a ha => ?_
              have hle := length_le_of_readLength ha
              refine Fueled.bind ?_ fun _ _ => fueled_ok
              exact fueled_decodeItems hitem (by omega)
            · refine (fueled_readLength _ _).bind fun a ha => ?_
              have hle := length_le_of_readLength ha
              refine Fueled.bind ?_ fun _ _ => fueled_ok
              exact fueled_decodeEntries hitem (by omega)
            · refine (fueled_readLength _ _).bind fun a ha => ?_
              have hle := length_le_of_readLength ha
              dsimp only
              split
              · exact fueled_fail
              · refine Fueled.bind ?_ fun _ _ => fueled_ok
                exact ih fuel (Nat.lt_succ_self _) (by omega)
            · exact fueled_decodeSimpleOrFloat _ _

theorem fueled_head (major n : Nat) : Fueled (head major n) := by
  unfold head
  dsimp only
  split_ifs
  · exact fueled_ok
  · exact fueled_ok
  · exact fueled_ok
  · exact fueled_ok
  · exact fueled_ok
  · exact fueled_fail

theorem fueled_encodeInt (z : Int) : Fueled (encodeInt z) := by
  unfold encodeInt
  split
  · exact fueled_head _ _
  · exact fueled_head _ _

theorem fueled_encodeNumber (allowNonFinite : Bool) (x : Double) :
    Fueled (encodeNumber allowNonFinite x) := by
  unfold encodeNumber
  split_ifs
  · exact fueled_encodeInt _
  · exact fueled_fail
  · exact fueled_ok

theorem fueled_assembleMap (entries : List (List UInt8 × List UInt8)) :
    Fueled (assembleMap entries) := by
  unfold assembleMap
  dsimp only
  split
  · exact fueled_fail
  · exact (fueled_head _ _).map

mutual

theorem fueled_encodeValue (allowNonFinite : Bool) (depth : Nat) (v : Value) :
    Fueled (encodeValue allowNonFinite depth v) := by
  rw [encodeValue.eq_def]
  split
  · exact fueled_fail
  · match v with
    | .null | .undefined | .bool _ => exact fueled_ok
    | .boxed v => exact fueled_encodeValue allowNonFinite depth v
    | .num x => exact fueled_encodeNumber allowNonFinite x
    | .bigint z => exact fueled_encodeInt z
    | .text s => exact (fueled_head _ _).map
    | .bytes bs => exact (fueled_head _ _).map
    | .array items =>
        refine (fueled_head _ _).bind fun _ _ => ?_
        exact (fueled_encodeItems _ _ items).bind fun _ _ => fueled_ok
    | .tag n v =>
        refine (fueled_head _ _).bind fun _ _ => ?_
        exact (fueled_encodeValue _ _ v).bind fun _ _ => fueled_ok
    | .date => exact fueled_fail
    | .map entries => exact (fueled_encodeEntries _ _ entries).bind fun _ _ => fueled_assembleMap _
    | .obj entries =>
        exact (fueled_encodeProperties _ _ entries).bind fun _ _ => fueled_assembleMap _
    | .noForm _ => exact fueled_fail
    | .other _ => exact fueled_fail

theorem fueled_encodeItems (allowNonFinite : Bool) (depth : Nat) (items : List Value) :
    Fueled (encodeItems allowNonFinite depth items) := by
  match items with
  | [] =>
      rw [encodeItems]
      exact fueled_ok
  | v :: vs =>
      rw [encodeItems]
      refine (fueled_encodeValue _ _ v).bind fun _ _ => ?_
      exact (fueled_encodeItems _ _ vs).bind fun _ _ => fueled_ok

theorem fueled_encodeEntries (allowNonFinite : Bool) (depth : Nat)
    (entries : List (Value × Value)) : Fueled (encodeEntries allowNonFinite depth entries) := by
  match entries with
  | [] =>
      rw [encodeEntries]
      exact fueled_ok
  | (k, v) :: es =>
      rw [encodeEntries]
      refine (fueled_encodeValue _ _ k).bind fun _ _ => ?_
      refine (fueled_encodeValue _ _ v).bind fun _ _ => ?_
      exact (fueled_encodeEntries _ _ es).bind fun _ _ => fueled_ok

theorem fueled_encodeProperties (allowNonFinite : Bool) (depth : Nat)
    (entries : List (JsString × Value)) :
    Fueled (encodeProperties allowNonFinite depth entries) := by
  match entries with
  | [] =>
      rw [encodeProperties]
      exact fueled_ok
  | (k, v) :: es =>
      rw [encodeProperties]
      refine Fueled.bind (fueled_head _ _).map fun _ _ => ?_
      refine (fueled_encodeValue _ _ v).bind fun _ _ => ?_
      exact (fueled_encodeProperties _ _ es).bind fun _ _ => fueled_ok

end

/-- Decoding always answers with a value or one of the code's own failures. -/
theorem fueled_decode (opts : DecodeOpts) (buf : List UInt8) : Fueled (decode opts buf) := by
  unfold decode
  by_cases hmax : opts.byteLimit < buf.length
  · rw [if_pos hmax]
    exact fueled_fail
  · rw [if_neg hmax]
    refine Fueled.bind (fueled_decodeItem (by rw [decodeFuel]; omega)) fun a _ => ?_
    dsimp only
    split
    · exact fueled_fail
    · split
      · refine (fueled_encodeValue _ _ _).bind fun _ _ => ?_
        split
        · exact fueled_fail
        · exact fueled_ok
      · exact fueled_ok

end Blamejs.Cbor
