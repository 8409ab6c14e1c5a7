import Blamejs.Js.Text

/-!
# Base64 (`Buffer.from(s, "base64")` and `toString("base64")`)

Decoding is lenient: units outside the alphabet are skipped, the URL-safe pair
stands for `+` and `/`, and what cannot make a whole byte is dropped. Callers
that mean to be strict encode again and compare.
-/

namespace Blamejs.Js

def base64Unit (n : Nat) : UInt16 :=
  UInt16.ofNat (if n < 26 then 65 + n else if n < 52 then 71 + n
    else if n < 62 then n - 4 else if n = 62 then 43 else 47)

def base64Value (u : UInt16) : Option Nat :=
  let n := u.toNat
  if 65 ≤ n && n ≤ 90 then some (n - 65)
  else if 97 ≤ n && n ≤ 122 then some (n - 71)
  else if 48 ≤ n && n ≤ 57 then some (n + 4)
  else if n = 43 || n = 45 then some 62
  else if n = 47 || n = 95 then some 63
  else none

/-- `buf.toString("base64")`. -/
def toBase64 : List UInt8 → JsString
  | a :: b :: c :: rest =>
      base64Unit (a.toNat / 4) :: base64Unit (a.toNat % 4 * 16 + b.toNat / 16) ::
        base64Unit (b.toNat % 16 * 4 + c.toNat / 64) :: base64Unit (c.toNat % 64) :: toBase64 rest
  | [a, b] => [base64Unit (a.toNat / 4), base64Unit (a.toNat % 4 * 16 + b.toNat / 16),
      base64Unit (b.toNat % 16 * 4), unit '=']
  | [a] => [base64Unit (a.toNat / 4), base64Unit (a.toNat % 4 * 16), unit '=', unit '=']
  | [] => []

def ofSextets : List Nat → List UInt8
  | a :: b :: c :: d :: rest =>
      UInt8.ofNat (a * 4 + b / 16) :: UInt8.ofNat (b % 16 * 16 + c / 4) ::
        UInt8.ofNat (c % 4 * 64 + d) :: ofSextets rest
  | [a, b, c] => [UInt8.ofNat (a * 4 + b / 16), UInt8.ofNat (b % 16 * 16 + c / 4)]
  | [a, b] => [UInt8.ofNat (a * 4 + b / 16)]
  | _ => []

/-- `Buffer.from(s, "base64")`. -/
def ofBase64 (s : JsString) : List UInt8 := ofSextets (s.filterMap base64Value)

theorem base64Value_base64Unit {n : Nat} (h : n < 64) : base64Value (base64Unit n) = some n := by
  have hall : ∀ n : Fin 64, base64Value (base64Unit n) = some n.val := by decide
  exact hall ⟨n, h⟩

theorem base64Value_pad : base64Value (unit '=') = none := by decide

theorem ofNat_sextets {a : UInt8} {n : Nat} (h : n = a.toNat) : UInt8.ofNat n = a := by
  rw [h, UInt8.ofNat_toNat]

theorem ofBase64_toBase64 (bs : List UInt8) : ofBase64 (toBase64 bs) = bs := by
  induction bs using toBase64.induct with
  | case1 a b c rest ih =>
      have ha := a.toNat_lt
      have hb := b.toNat_lt
      have hc := c.toNat_lt
      rw [ofBase64] at ih ⊢
      rw [toBase64, List.filterMap_cons_some (base64Value_base64Unit (by omega)),
        List.filterMap_cons_some (base64Value_base64Unit (by omega)),
        List.filterMap_cons_some (base64Value_base64Unit (by omega)),
        List.filterMap_cons_some (base64Value_base64Unit (by omega)), ofSextets, ih,
        ofNat_sextets (a := a) (by omega), ofNat_sextets (a := b) (by omega),
        ofNat_sextets (a := c) (by omega)]
  | case2 a b =>
      have ha := a.toNat_lt
      have hb := b.toNat_lt
      rw [ofBase64, toBase64, List.filterMap_cons_some (base64Value_base64Unit (by omega)),
        List.filterMap_cons_some (base64Value_base64Unit (by omega)),
        List.filterMap_cons_some (base64Value_base64Unit (by omega)),
        List.filterMap_cons_none base64Value_pad, List.filterMap_nil, ofSextets,
        ofNat_sextets (a := a) (by omega), ofNat_sextets (a := b) (by omega)]
  | case3 a =>
      have ha := a.toNat_lt
      rw [ofBase64, toBase64, List.filterMap_cons_some (base64Value_base64Unit (by omega)),
        List.filterMap_cons_some (base64Value_base64Unit (by omega)),
        List.filterMap_cons_none base64Value_pad, List.filterMap_cons_none base64Value_pad,
        List.filterMap_nil, ofSextets, ofNat_sextets (a := a) (by omega)]
  | case4 => rfl

/-- Only the alphabet and the padding are ever written. -/
theorem mem_toBase64 {bs : List UInt8} {u : UInt16} (h : u ∈ toBase64 bs) :
    (base64Value u).isSome = true ∨ u = unit '=' := by
  have hunit : ∀ {n}, n < 64 → (base64Value (base64Unit n)).isSome = true ∨
      base64Unit n = unit '=' := by
    intro n hn
    rw [base64Value_base64Unit hn]
    exact Or.inl rfl
  induction bs using toBase64.induct with
  | case1 a b c rest ih =>
      have ha := a.toNat_lt
      have hb := b.toNat_lt
      have hc := c.toNat_lt
      simp only [toBase64, List.mem_cons] at h
      rcases h with rfl | rfl | rfl | rfl | h
      · exact hunit (by omega)
      · exact hunit (by omega)
      · exact hunit (by omega)
      · exact hunit (by omega)
      · exact ih h
  | case2 a b =>
      have ha := a.toNat_lt
      have hb := b.toNat_lt
      simp only [toBase64, List.mem_cons, List.not_mem_nil, or_false] at h
      rcases h with rfl | rfl | rfl | rfl
      · exact hunit (by omega)
      · exact hunit (by omega)
      · exact hunit (by omega)
      · exact Or.inr rfl
  | case3 a =>
      have ha := a.toNat_lt
      simp only [toBase64, List.mem_cons, List.not_mem_nil, or_false] at h
      rcases h with rfl | rfl | rfl | rfl
      · exact hunit (by omega)
      · exact hunit (by omega)
      · exact Or.inr rfl
      · exact Or.inr rfl
  | case4 => exact absurd h List.not_mem_nil

/-! ## The URL-safe form -/

def urlUnit (u : UInt16) : UInt16 :=
  if u = unit '+' then unit '-' else if u = unit '/' then unit '_' else u

/-- `buf.toString("base64url")`. -/
def toBase64Url (bs : List UInt8) : JsString :=
  ((toBase64 bs).filter (· ≠ unit '=')).map urlUnit

theorem base64Value_urlUnit (u : UInt16) : base64Value (urlUnit u) = base64Value u := by
  unfold urlUnit
  split
  · next h => rw [h]; decide
  · split
    · next h => rw [h]; decide
    · rfl

/-- What is no sextet may be left out. -/
theorem ofBase64_filter (p : UInt16 → Bool) (s : JsString)
    (h : ∀ u ∈ s, p u = false → base64Value u = none) : ofBase64 (s.filter p) = ofBase64 s := by
  rw [ofBase64, ofBase64]
  congr 1
  induction s with
  | nil => rfl
  | cons u s ih =>
      have hs := ih fun v hv => h v (List.mem_cons_of_mem _ hv)
      cases hp : p u with
      | true => rw [List.filter_cons_of_pos hp, List.filterMap_cons, List.filterMap_cons, hs]
      | false =>
          rw [List.filter_cons_of_neg (by simp [hp]), hs,
            List.filterMap_cons_none (h u List.mem_cons_self hp)]

theorem ofBase64_map_urlUnit (s : JsString) : ofBase64 (s.map urlUnit) = ofBase64 s := by
  rw [ofBase64, ofBase64, List.filterMap_map]
  congr 2
  funext u
  exact base64Value_urlUnit u

theorem ofBase64_toBase64Url (bs : List UInt8) : ofBase64 (toBase64Url bs) = bs := by
  rw [toBase64Url, ofBase64_map_urlUnit, ofBase64_filter, ofBase64_toBase64]
  intro u _ hu
  obtain rfl : u = unit '=' := by simpa using hu
  exact base64Value_pad

theorem length_toBase64Url (bs : List UInt8) :
    (toBase64Url bs).length = (bs.length * 4 + 2) / 3 := by
  have hkeep : ∀ {n : Nat} {s : JsString}, n < 64 →
      (base64Unit n :: s).filter (· ≠ unit '=') = base64Unit n :: s.filter (· ≠ unit '=') := by
    intro n s hn
    refine List.filter_cons_of_pos (decide_eq_true fun h => ?_)
    have := base64Value_base64Unit hn
    rw [h, base64Value_pad] at this
    cases this
  rw [toBase64Url, List.length_map]
  induction bs using toBase64.induct with
  | case1 a b c rest ih =>
      have ha := a.toNat_lt
      have hb := b.toNat_lt
      have hc := c.toNat_lt
      rw [toBase64, hkeep (by omega), hkeep (by omega), hkeep (by omega), hkeep (by omega)]
      simp only [List.length_cons, ih]
      omega
  | case2 a b =>
      have ha := a.toNat_lt
      have hb := b.toNat_lt
      rw [toBase64, hkeep (by omega), hkeep (by omega), hkeep (by omega)]
      simp
  | case3 a =>
      have ha := a.toNat_lt
      rw [toBase64, hkeep (by omega), hkeep (by omega)]
      simp
  | case4 => rfl

theorem length_ofSextets (l : List Nat) : (ofSextets l).length = l.length * 3 / 4 := by
  induction l using ofSextets.induct with
  | case1 a b c d rest ih =>
      simp only [ofSextets, List.length_cons, ih]
      omega
  | case2 a b c => simp [ofSextets]
  | case3 a b => simp [ofSextets]
  | case4 l h4 h3 h2 =>
      match l, h4, h3, h2 with
      | [], _, _, _ => rfl
      | [a], _, _, _ => simp [ofSextets]
      | [a, b], _, _, h2 => exact absurd rfl (h2 a b)
      | [a, b, c], _, h3, _ => exact absurd rfl (h3 a b c)
      | a :: b :: c :: d :: rest, h4, _, _ => exact absurd rfl (h4 a b c d rest)

theorem length_ofBase64_le (s : JsString) : (ofBase64 s).length ≤ s.length * 3 / 4 := by
  rw [ofBase64, length_ofSextets]
  have := List.length_filterMap_le base64Value s
  omega

/-- Only units of the alphabet are written. -/
theorem isSome_of_mem_toBase64Url {bs : List UInt8} {u : UInt16} (h : u ∈ toBase64Url bs) :
    (base64Value u).isSome = true := by
  obtain ⟨v, hv, rfl⟩ := List.mem_map.mp h
  obtain ⟨hmem, hne⟩ := List.mem_filter.mp hv
  rw [base64Value_urlUnit]
  exact (mem_toBase64 hmem).resolve_right (of_decide_eq_true hne)

end Blamejs.Js
