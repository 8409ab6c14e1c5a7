import Blamejs.Lib.Checked
import Blamejs.Ref.Srs

/-!
# What an SRS0 address reverses to

The tag of `rewrite` is over stamp, domain and local part with `=` between them, and
`reverse` cuts the same text at its first two `=`. So a domain with an `=` comes back cut
in two. `srs1Rewrite` signs the prior forwarder, two `=` and a body with the same key,
and that is the text of a stamp, an empty domain and a local part, if the prior forwarder
looks like a stamp.
-/

namespace Blamejs.Srs

open Blamejs.Js

/-! ## Cutting strings -/

variable {u : UInt16} {s a b : JsString}

theorem splitLast_eq_none : splitLast u s = none ↔ u ∉ s := by
  induction s with
  | nil => simp [splitLast]
  | cons v s ih =>
      rw [splitLast]
      cases hs : splitLast u s with
      | some p =>
          have hmem : u ∈ s := by
            by_contra hno
            rw [ih.mpr hno] at hs
            cases hs
          simp [hmem]
      | none =>
          have hno := ih.mp hs
          by_cases hv : v = u
          · simp [hv]
          · simp [hv, hno, Ne.symm hv]

theorem splitLast_append (hb : u ∉ b) : splitLast u (a ++ u :: b) = some (a, b) := by
  induction a with
  | nil =>
      rw [List.nil_append, splitLast, splitLast_eq_none.mpr hb]
      exact if_pos rfl
  | cons v a ih => rw [List.cons_append, splitLast, ih]

theorem splitLast_eq_some : splitLast u s = some (a, b) ↔ s = a ++ u :: b ∧ u ∉ b := by
  constructor
  · intro h
    induction s generalizing a with
    | nil => cases h
    | cons v s ih =>
        rw [splitLast] at h
        cases hs : splitLast u s with
        | some p =>
            rw [hs] at h
            cases h
            obtain ⟨heq, hb⟩ := ih hs
            exact ⟨by rw [heq, List.cons_append], hb⟩
        | none =>
            rw [hs] at h
            dsimp only at h
            split at h
            · next hv =>
                cases h
                exact ⟨by rw [hv, List.nil_append], splitLast_eq_none.mp hs⟩
            · cases h
  · rintro ⟨rfl, hb⟩
    exact splitLast_append hb

theorem splitAddress_eq_ok {localPart domain : JsString} :
    splitAddress s = .ok (localPart, domain) ↔ s = localPart ++ at_ :: domain ∧ at_ ∉ domain ∧
      localPart ≠ [] ∧ domain ≠ [] ∧ headerUnsafe s = false := by
  rw [splitAddress]
  constructor
  · intro h
    split at h
    · cases h
    · split at h
      · cases h
      · next hsafe =>
          split at h
          · cases h
          · next l d hsplit =>
              split at h
              · cases h
              · next hne =>
                  obtain ⟨rfl, rfl⟩ := Prod.mk.inj (Except.ok.inj h)
                  rw [not_or] at hne
                  obtain ⟨heq, hat⟩ := splitLast_eq_some.mp hsplit
                  exact ⟨heq, hat, hne.1, hne.2, by simpa using hsafe⟩
  · rintro ⟨heq, hat, hlocal, hdomain, hsafe⟩
    have hne : s ≠ [] := by
      rw [heq]
      simp
    rw [if_neg hne, if_neg (by rw [hsafe]; exact Bool.false_ne_true),
      splitLast_eq_some.mpr ⟨heq, hat⟩]
    exact if_neg (by simp [hlocal, hdomain])

theorem headerUnsafe_append : headerUnsafe (a ++ b) = (headerUnsafe a || headerUnsafe b) :=
  List.any_append

theorem headerUnsafe_eq : headerUnsafe (eq_ :: s) = headerUnsafe s := rfl

theorem headerUnsafe_at : headerUnsafe (at_ :: s) = headerUnsafe s := rfl

/-- The first `=` of a string. -/
theorem exists_first (h : u ∈ s) : ∃ a b, s = a ++ u :: b ∧ u ∉ a := by
  obtain ⟨a, b, hs, hno⟩ := List.eq_append_cons_of_mem h
  exact ⟨a, b, hs, hno⟩

theorem srs0Fields_joined {tag ts domain localPart : JsString} (htag : eq_ ∉ tag) (hts : eq_ ∉ ts)
    (hdomain : eq_ ∉ domain) :
    srs0Fields (tag ++ eq_ :: hashInput ts domain localPart) =
      .ok (tag, ts, domain, localPart) := by
  rw [srs0Fields, hashInput, List.splitOn_append_cons_self_of_not_mem htag,
    List.splitOn_append_cons_self_of_not_mem hts,
    List.splitOn_append_cons_self_of_not_mem hdomain]
  have hback := @List.intercalate_splitOn _ localPart _ _ eq_
  cases hparts : localPart.splitOn eq_ with
  | nil => exact absurd hparts (List.splitOn_ne_nil _ _)
  | cons p parts =>
      rw [hparts] at hback
      simp only [hback]

/-- Fields of an address, and that nothing else is in it. -/
theorem srs0Fields_eq_ok {rest tag ts domain localPart : JsString}
    (h : srs0Fields rest = .ok (tag, ts, domain, localPart)) :
    rest = tag ++ eq_ :: hashInput ts domain localPart ∧ eq_ ∉ ts ∧ eq_ ∉ domain := by
  have hcut : ∀ s : JsString, ∀ p q ps, s.splitOn eq_ = p :: q :: ps →
      ∃ t, s = p ++ eq_ :: t ∧ t.splitOn eq_ = q :: ps ∧ eq_ ∉ p := by
    intro s p q ps hs
    by_cases hmem : eq_ ∈ s
    · obtain ⟨a, b, rfl, ha⟩ := exists_first hmem
      rw [List.splitOn_append_cons_self_of_not_mem ha] at hs
      obtain ⟨rfl, hb⟩ := List.cons.inj hs
      exact ⟨b, rfl, hb, ha⟩
    · rw [List.splitOn_eq_singleton hmem] at hs
      cases hs
  rw [srs0Fields] at h
  split at h
  · next tag' ts' domain' p parts hsplit =>
      obtain ⟨t, rfl, ht, -⟩ := hcut _ _ _ _ hsplit
      obtain ⟨t', rfl, ht', hts⟩ := hcut _ _ _ _ ht
      obtain ⟨t'', rfl, ht'', hdomain⟩ := hcut _ _ _ _ ht'
      simp only [Except.ok.injEq, Prod.mk.injEq] at h
      obtain ⟨rfl, rfl, rfl, rfl⟩ := h
      rw [← ht'', List.intercalate_splitOn]
      exact ⟨rfl, hts, hdomain⟩
  · cases h

/-! ## Characters of base 32 -/

theorem mem_base32Char {i : Nat} (h : u ∈ base32Char i) : u ∈ base32 :=
  List.mem_of_mem_drop (List.mem_of_mem_take h)

theorem mem_drain {value bits : Nat} (h : u ∈ (drain value bits).1) : u ∈ base32 := by
  fun_induction drain value bits with
  | case1 bits out left heq ih =>
      rcases List.mem_append.mp h with h | h
      · exact mem_base32Char h
      · rw [heq] at ih
        exact ih h
  | case2 bits hbits => cases h

theorem mem_base32From {value bits : Nat} {bs : Bytes} (h : u ∈ base32From value bits bs) :
    u ∈ base32 := by
  induction bs generalizing value bits with
  | nil =>
      rw [base32From] at h
      split at h
      · exact mem_base32Char h
      · cases h
  | cons b bs ih =>
      rw [base32From] at h
      rcases List.mem_append.mp h with h | h
      · exact mem_drain (show u ∈ (drain ((value * 256 + b.toNat) % 2 ^ 32) (bits + 8)).1 from h)
      · exact ih h

theorem mem_hashTag {P : Platform} {secret input : JsString} (h : u ∈ hashTag P secret input) :
    u ∈ base32 := mem_base32From (List.mem_of_mem_take h)

theorem mem_dayStamp {now : Nat} (h : u ∈ dayStamp now) : u ∈ base32 := by
  rcases List.mem_append.mp h with h | h
  · exact mem_base32Char h
  · exact mem_base32Char h

theorem not_mem_base32 : eq_ ∉ base32 ∧ at_ ∉ base32 := by decide +kernel

theorem base32_safe (h : ∀ u ∈ s, u ∈ base32) : headerUnsafe s = false := by
  have hall : base32.all (fun u => !(u == 13 || u == 10 || u == 0)) = true := by decide +kernel
  have hsafe : ∀ u ∈ base32, ¬ (u = 13 ∨ u = 10 ∨ u = 0) := by
    intro u hu
    simpa [and_assoc] using List.all_eq_true.mp hall u hu
  rw [headerUnsafe, List.any_eq_false]
  intro u hu
  have := hsafe u (h u hu)
  simpa [or_assoc] using this

theorem base32_small (h : u ∈ base32) :
    (0x61 ≤ u.toNat ∧ u.toNat ≤ 0x7A) ∨ (0x30 ≤ u.toNat ∧ u.toNat ≤ 0x39) := by
  have hall : base32.all (fun u => (Nat.ble 0x61 u.toNat && Nat.ble u.toNat 0x7A) ||
    (Nat.ble 0x30 u.toNat && Nat.ble u.toNat 0x39)) = true := by decide +kernel
  simpa using List.all_eq_true.mp hall u h

/-! ## Days -/

theorem base32Char_digit {i : Nat} (h : i < 32) :
    ∃ u, base32Char i = [u] ∧ base32.idxOf? u = some i := by
  have hall : ∀ i < 32, (base32Char i).length = 1 ∧
      ((base32Char i).head?.bind base32.idxOf?) = some i := by decide
  obtain ⟨hlen, hidx⟩ := hall i h
  obtain ⟨u, hu⟩ := List.length_eq_one_iff.mp hlen
  rw [hu] at hidx
  exact ⟨u, hu, hidx⟩

/-- The age of a stamp. -/
theorem dayDiff_dayStamp {t t' : Nat} (h : t ≤ t') :
    dayDiff (dayStamp t) t' = some ((t' / dayMs - t / dayMs) % 1024) := by
  have hle : t / dayMs ≤ t' / dayMs := Nat.div_le_div_right h
  obtain ⟨hi, hhi, hhi'⟩ := @base32Char_digit (t / dayMs % 1024 / 32) (by omega)
  obtain ⟨lo, hlo, hlo'⟩ := @base32Char_digit (t / dayMs % 1024 % 32) (by omega)
  rw [dayStamp, hhi, hlo]
  change (base32.idxOf? hi).bind _ = _
  rw [hhi', Option.bind_some, hlo']
  change some _ = _
  congr 1
  omega

/-- Two characters of base 32. -/
def IsStamp (s : JsString) : Prop := s.length = 2 ∧ ∀ u ∈ s, u ∈ base32

theorem isStamp_of_dayDiff {ts : JsString} {now d : Nat} (h : dayDiff ts now = some d) :
    IsStamp ts := by
  rcases ts with _ | ⟨x, _ | ⟨y, _ | ⟨z, ts⟩⟩⟩
  · cases h
  · cases h
  · obtain ⟨hi, hhi, h⟩ := Option.bind_eq_some_iff.mp h
    obtain ⟨lo, hlo, -⟩ := Option.bind_eq_some_iff.mp h
    have hmem : ∀ {x : UInt16} {i : Nat}, base32.idxOf? x = some i → x ∈ base32 := by
      intro x i hx
      by_contra hno
      rw [List.idxOf?_eq_none_iff.mpr hno] at hx
      cases hx
    exact ⟨rfl, by simp [hmem hhi, hmem hlo]⟩
  · cases h

/-! ## The functions -/

variable {P : Platform} {srs : Srs} {address out r localPart rcptDomain : JsString} {now : Nat}

theorem srs1_false (h : isSrs '0' localPart = true) : isSrs '1' localPart = false := by
  have h := of_decide_eq_true h
  rw [isSrs, h]
  decide

/-- What `rewrite` returns. -/
theorem rewrite_eq_ok (h : srs.rewrite P address now = .ok out) :
    ∃ localPart domain, splitAddress address = .ok (localPart, domain) ∧
      out = (units "SRS0=" ++ srs.tag P (hashInput (dayStamp now) domain localPart) ++
        eq_ :: hashInput (dayStamp now) domain localPart) ++ at_ :: srs.forwarderDomain := by
  obtain ⟨⟨localPart, domain⟩, hsplit, h⟩ := Checked.bind_eq_ok.mp h
  refine ⟨localPart, domain, hsplit, ?_⟩
  dsimp only at h
  split at h
  · cases h
  · split at h
    · cases h
    · cases h
      rfl

/-- What `srs1Rewrite` has signed when it returns. -/
theorem srs1Rewrite_eq_ok (h : srs.srs1Rewrite P address = .ok out) :
    ∃ prior body, chained address = .ok (prior, body) ∧ eq_ ∉ prior := by
  obtain ⟨⟨prior, body⟩, hchained, h⟩ := Checked.bind_eq_ok.mp h
  refine ⟨prior, body, hchained, ?_⟩
  dsimp only at h
  split at h
  · cases h
  · next hne => exact fun hmem => hne (Or.inr hmem)

/-- `reverse` of an SRS0 address. -/
theorem reverse_srs0 (hs : splitAddress s = .ok (localPart, rcptDomain))
    (h0 : isSrs '0' localPart = true) : srs.reverse P s now = .ok r ↔
      toLowerCase P.cases rcptDomain = toLowerCase P.cases srs.forwarderDomain ∧
      ∃ tag ts domain origLocal diff,
        srs0Fields (localPart.drop 5) = .ok (tag, ts, domain, origLocal) ∧
        sameBytes tag (srs.tag P (hashInput ts domain origLocal)) = true ∧
        dayDiff ts now = some diff ∧ diff ≤ srs.expiryDays ∧ r = origLocal ++ at_ :: domain := by
  rw [Srs.reverse, hs]
  change (if (!isSrs '0' localPart && !isSrs '1' localPart) = true then _ else _) = _ ↔ _
  rw [h0, srs1_false h0, if_neg (by decide), if_neg Bool.false_ne_true]
  constructor
  · intro h
    split at h
    · cases h
    · next hrcpt =>
        obtain ⟨⟨tag, ts, domain, origLocal⟩, hfields, h⟩ := Checked.bind_eq_ok.mp h
        refine ⟨not_not.mp hrcpt, tag, ts, domain, origLocal, ?_⟩
        dsimp only at h
        split at h
        · cases h
        · next htag =>
            cases hdiff : dayDiff ts now with
            | none =>
                rw [hdiff] at h
                cases h
            | some diff =>
                rw [hdiff] at h
                dsimp only at h
                split at h
                · cases h
                · next hold =>
                    cases h
                    exact ⟨diff, hfields, by simpa using htag, rfl, Nat.not_lt.mp hold, rfl⟩
  · rintro ⟨hrcpt, tag, ts, domain, origLocal, diff, hfields, htag, hdiff, hold, rfl⟩
    rw [if_neg (not_not.mpr hrcpt)]
    refine Checked.bind_eq_ok.mpr ⟨_, hfields, ?_⟩
    dsimp only
    rw [htag, hdiff]
    exact if_neg (Nat.not_lt.mpr hold)

theorem create_forwarder {o : Opts} (h : create o = .ok srs) : srs.forwarderDomain ≠ [] := by
  rw [create] at h
  split at h
  · cases h
  · split at h
    · cases h
    · next hforwarder =>
        split at h
        · cases h
        · dsimp only at h
          split at h
          · cases h
          · cases h
            exact hforwarder

/-! ## Back again -/

/-- When `reverse` gives back an address that was rewritten at a time. -/
structure Returns (srs : Srs) (address : JsString) (t t' : Nat) : Prop where
  forwarder : at_ ∉ srs.forwarderDomain
  safe : headerUnsafe srs.forwarderDomain = false
  domain : ∀ localPart domain, splitLast at_ address = some (localPart, domain) → eq_ ∉ domain
  days : (t' / dayMs - t / dayMs) % 1024 ≤ srs.expiryDays

section back

variable {o : Opts} {separators : List UInt16} {domain : JsString} {t t' : Nat}

/-- The address that `rewrite` returns, cut by `reverse`. -/
theorem splitAddress_rewritten (hforwarder : srs.forwarderDomain ≠ [])
    (hat : at_ ∉ srs.forwarderDomain) (hsafe : headerUnsafe srs.forwarderDomain = false)
    (hsplit : splitAddress address = .ok (localPart, domain)) :
    splitAddress ((units "SRS0=" ++ srs.tag P (hashInput (dayStamp t) domain localPart) ++
        eq_ :: hashInput (dayStamp t) domain localPart) ++ at_ :: srs.forwarderDomain) =
      .ok (units "SRS0=" ++ srs.tag P (hashInput (dayStamp t) domain localPart) ++
        eq_ :: hashInput (dayStamp t) domain localPart, srs.forwarderDomain) := by
  obtain ⟨haddress, -, -, -, hunsafe⟩ := splitAddress_eq_ok.mp hsplit
  have hprefix : headerUnsafe (units "SRS0=") = false := by decide
  have htag : headerUnsafe (srs.tag P (hashInput (dayStamp t) domain localPart)) = false :=
    base32_safe fun u => mem_hashTag
  have hstamp : headerUnsafe (dayStamp t) = false := base32_safe fun u => mem_dayStamp
  rw [haddress, headerUnsafe_append, headerUnsafe_at, Bool.or_eq_false_iff] at hunsafe
  refine splitAddress_eq_ok.mpr ⟨rfl, hat, by simp [units], hforwarder, ?_⟩
  simp only [headerUnsafe_append, headerUnsafe_eq, headerUnsafe_at, hprefix, htag, hsafe,
    Bool.or_false, Bool.false_or]
  rw [hashInput, headerUnsafe_append, hstamp, headerUnsafe_eq, headerUnsafe_append, hunsafe.2,
    headerUnsafe_eq, hunsafe.1]
  rfl

/-- An address returned by `rewrite` cannot be cut where the forwarder has an `@`. -/
theorem reverse_forwarder (hT : P.cases.Documented separators) (hsep : at_ ∈ separators)
    {front : JsString} (h : srs.reverse P (front ++ at_ :: srs.forwarderDomain) now = .ok r) :
    at_ ∉ srs.forwarderDomain ∧ headerUnsafe srs.forwarderDomain = false := by
  obtain ⟨⟨localPart, rcptDomain⟩, hsplit, h⟩ := Checked.bind_eq_ok.mp h
  obtain ⟨heq, hat, -, -, hunsafe⟩ := splitAddress_eq_ok.mp hsplit
  rw [headerUnsafe_append, Bool.or_eq_false_iff] at hunsafe
  refine ⟨fun hmem => ?_, hunsafe.2⟩
  dsimp only at h
  split at h
  · cases h
  · split at h
    · cases h
    · next hrcpt =>
        have hlower := not_not.mp hrcpt
        have hmem' := (mem_toLowerCase hT hsep).mpr hmem
        rw [← hlower] at hmem'
        exact hat ((mem_toLowerCase hT hsep).mp hmem')

theorem isSrs_rewritten (rest : JsString) : isSrs '0' (units "SRS0=" ++ rest) = true := by
  have htake : (units "SRS0=" ++ rest).take 5 = units "SRS0=" := List.take_left' rfl
  rw [isSrs, htake]
  decide

/-- A rewritten address comes back just if its domain has no `=`, the forwarder is a
domain, and the window is not over. -/
theorem reverse_rewrite (hcreate : create o = .ok srs) (hT : P.cases.Documented separators)
    (hsep : at_ ∈ separators) (hle : t ≤ t') (h : srs.rewrite P address t = .ok out) :
    srs.reverse P out t' = .ok address ↔ Returns srs address t t' := by
  obtain ⟨localPart, domain, hsplit, rfl⟩ := rewrite_eq_ok h
  obtain ⟨haddress, hat, -, -, -⟩ := splitAddress_eq_ok.mp hsplit
  have hlast : splitLast at_ address = some (localPart, domain) :=
    splitLast_eq_some.mpr ⟨haddress, hat⟩
  have htagEq : eq_ ∉ srs.tag P (hashInput (dayStamp t) domain localPart) :=
    fun hmem => not_mem_base32.1 (mem_hashTag hmem)
  have hstampEq : eq_ ∉ dayStamp t := fun hmem => not_mem_base32.1 (mem_dayStamp hmem)
  have hdrop : ∀ rest : JsString, (units "SRS0=" ++ rest).drop 5 = rest :=
    fun rest => List.drop_left' rfl
  by_cases hforwarder : at_ ∉ srs.forwarderDomain ∧ headerUnsafe srs.forwarderDomain = false
  · rw [reverse_srs0 (splitAddress_rewritten (create_forwarder hcreate) hforwarder.1 hforwarder.2
      hsplit) (by rw [List.append_assoc]; exact isSrs_rewritten _), List.append_assoc, hdrop]
    constructor
    · rintro ⟨-, tag, ts, d, l, diff, hfields, -, hdiff, hold, hresult⟩
      by_cases hmem : eq_ ∈ domain
      · -- the first part of the domain comes back as the whole of it
        obtain ⟨d₁, d₂, rfl, hd₁⟩ := exists_first hmem
        have hassoc : hashInput (dayStamp t) (d₁ ++ eq_ :: d₂) localPart =
            hashInput (dayStamp t) d₁ (d₂ ++ eq_ :: localPart) := by simp [hashInput]
        rw [hassoc, srs0Fields_joined (hassoc ▸ htagEq) hstampEq hd₁] at hfields
        simp only [Except.ok.injEq, Prod.mk.injEq] at hfields
        obtain ⟨-, -, rfl, rfl⟩ := hfields
        have hsame := splitLast_eq_some.mpr
          ⟨hresult, fun hat₁ => hat (List.mem_append_left _ hat₁)⟩
        rw [hlast, Option.some.injEq, Prod.mk.injEq] at hsame
        have hlen := congrArg List.length hsame.2
        simp at hlen
      · rw [srs0Fields_joined htagEq hstampEq hmem] at hfields
        simp only [Except.ok.injEq, Prod.mk.injEq] at hfields
        obtain ⟨-, rfl, -, -⟩ := hfields
        rw [dayDiff_dayStamp hle, Option.some.injEq] at hdiff
        refine ⟨hforwarder.1, hforwarder.2, fun l' d' hsplit' => ?_, hdiff ▸ hold⟩
        rw [hlast, Option.some.injEq, Prod.mk.injEq] at hsplit'
        exact hsplit'.2 ▸ hmem
    · rintro ⟨-, -, hdomain, hdays⟩
      have hd := hdomain _ _ hlast
      refine ⟨rfl, _, _, _, _, _, srs0Fields_joined htagEq hstampEq hd, ?_, dayDiff_dayStamp hle,
        hdays, haddress⟩
      exact decide_eq_true rfl
  · constructor
    · exact fun hok => absurd (reverse_forwarder hT hsep hok) hforwarder
    · exact fun hreturns => absurd ⟨hreturns.forwarder, hreturns.safe⟩ hforwarder

end back

/-! ## What was signed -/

/-- The text under the tag of a call. -/
def Call.input : Call → Except Err JsString
  | .rewrite address now => do
      let (localPart, domain) ← splitAddress address
      pure (hashInput (dayStamp now) domain localPart)
  | .srs1Rewrite address => do
      let (prior, body) ← chained address
      pure (srs1Input prior body)

/-- The texts, in small letters, that the calls which returned have signed. -/
def Signed (P : Platform) (srs : Srs) (calls : List Call) (text : JsString) : Prop :=
  ∃ c ∈ calls, ∃ out input, c.result P srs = .ok out ∧ c.input = .ok input ∧
    text = toLowerCase P.cases input

/-- The tag of an address does not verify unless its text was signed. -/
def Unforged (P : Platform) (srs : Srs) (calls : List Call) (s : JsString) : Prop :=
  ∀ localPart rcptDomain tag ts domain origLocal,
    splitAddress s = .ok (localPart, rcptDomain) →
    srs0Fields (localPart.drop 5) = .ok (tag, ts, domain, origLocal) →
    sameBytes tag (srs.tag P (hashInput ts domain origLocal)) = true →
    Signed P srs calls (toLowerCase P.cases (hashInput ts domain origLocal))

/-- No `=` in the domain of a sender, and no prior forwarder that looks like a stamp. -/
def Call.Plain (P : Platform) : Call → Prop
  | .rewrite address _ => ∀ localPart domain,
      splitLast at_ address = some (localPart, domain) → eq_ ∉ domain
  | .srs1Rewrite address => ∀ prior body, chained address = .ok (prior, body) →
      ¬ IsStamp (toLowerCase P.cases prior)

section safe

variable {calls : List Call} {a' b' : JsString}

theorem cut_inj (ha : u ∉ a) (ha' : u ∉ a') (h : a ++ u :: b = a' ++ u :: b') :
    a = a' ∧ b = b' := by
  induction a generalizing a' with
  | nil =>
      cases a' with
      | nil => exact ⟨rfl, (List.cons.inj h).2⟩
      | cons v a' =>
          obtain ⟨rfl, -⟩ := List.cons.inj h
          exact absurd List.mem_cons_self ha'
  | cons v a ih =>
      cases a' with
      | nil =>
          obtain ⟨rfl, -⟩ := List.cons.inj h
          exact absurd List.mem_cons_self ha
      | cons w a' =>
          rw [List.cons_append, List.cons_append, List.cons.injEq] at h
          obtain ⟨rfl, h⟩ := h
          rw [List.mem_cons, not_or] at ha ha'
          obtain ⟨rfl, rfl⟩ := ih ha.2 ha'.2 h
          exact ⟨rfl, rfl⟩

theorem lower_hashInput (hT : P.cases.Documented [at_, eq_]) (ts domain localPart : JsString) :
    toLowerCase P.cases (hashInput ts domain localPart) = hashInput (toLowerCase P.cases ts)
      (toLowerCase P.cases domain) (toLowerCase P.cases localPart) := by
  rw [hashInput, toLowerCase_append hT (by simp), toLowerCase_append hT (by simp), hashInput]

theorem not_mem_lower (hT : P.cases.Documented [at_, eq_]) (h : eq_ ∉ s) :
    eq_ ∉ toLowerCase P.cases s :=
  fun hmem => h ((mem_toLowerCase hT (by simp)).mp hmem)

/-- A text that plain calls have signed and that begins with a stamp is the text of an
address. -/
theorem rewritten_of_signed (hT : P.cases.Documented [at_, eq_])
    (hplain : ∀ c ∈ calls, c.Plain P) {ts domain : JsString} (hts : IsStamp ts)
    (hdomain : eq_ ∉ domain)
    (h : Signed P srs calls (toLowerCase P.cases (hashInput ts domain localPart))) :
    ∃ address now out, Call.rewrite address now ∈ calls ∧
      srs.rewrite P address now = .ok out ∧
      toLowerCase P.cases (localPart ++ at_ :: domain) = toLowerCase P.cases address := by
  obtain ⟨c, hc, out, input, hresult, hinput, htext⟩ := h
  have hstamp : toLowerCase P.cases ts = ts :=
    toLowerCase_small hT fun u hu => base32_small (hts.2 u hu)
  have htsEq : eq_ ∉ ts := fun hmem => not_mem_base32.1 (hts.2 _ hmem)
  rw [lower_hashInput hT, hstamp] at htext
  cases c with
  | rewrite address now =>
      obtain ⟨⟨l, d⟩, hsplit, hinput⟩ := Checked.bind_eq_ok.mp hinput
      cases hinput
      obtain ⟨haddress, hat, -⟩ := splitAddress_eq_ok.mp hsplit
      have hd := hplain _ hc l d (splitLast_eq_some.mpr ⟨haddress, hat⟩)
      have hstampEq : eq_ ∉ toLowerCase P.cases (dayStamp now) :=
        not_mem_lower hT fun hmem => not_mem_base32.1 (mem_dayStamp hmem)
      rw [lower_hashInput hT] at htext
      obtain ⟨-, hrest⟩ := cut_inj htsEq hstampEq htext
      obtain ⟨hdomains, hlocals⟩ :=
        cut_inj (not_mem_lower hT hdomain) (not_mem_lower hT hd) hrest
      refine ⟨address, now, out, hc, hresult, ?_⟩
      rw [haddress, toLowerCase_append hT (by simp), toLowerCase_append hT (by simp), hdomains,
        hlocals]
  | srs1Rewrite address =>
      -- the stamp is the prior forwarder
      obtain ⟨⟨prior, body⟩, hchained, hinput⟩ := Checked.bind_eq_ok.mp hinput
      cases hinput
      obtain ⟨prior', body', hchained', hprior⟩ := srs1Rewrite_eq_ok hresult
      rw [hchained] at hchained'
      cases hchained'
      rw [srs1Input, toLowerCase_append hT (by simp)] at htext
      obtain ⟨hsame, -⟩ := cut_inj htsEq (not_mem_lower hT hprior) htext
      exact absurd (hsame ▸ hts) (hplain _ hc prior body hchained)

/-- What an address of a run of plain calls reverses to was rewritten. -/
theorem reverse_signed (hT : P.cases.Documented [at_, eq_]) (hplain : ∀ c ∈ calls, c.Plain P)
    (hs : splitAddress s = .ok (localPart, rcptDomain)) (h0 : isSrs '0' localPart = true)
    (hunforged : Unforged P srs calls s) (h : srs.reverse P s now = .ok r) :
    ∃ address now out, Call.rewrite address now ∈ calls ∧
      srs.rewrite P address now = .ok out ∧
      toLowerCase P.cases r = toLowerCase P.cases address := by
  obtain ⟨-, tag, ts, domain, origLocal, diff, hfields, htag, hdiff, -, rfl⟩ :=
    (reverse_srs0 hs h0).mp h
  exact rewritten_of_signed hT hplain (isStamp_of_dayDiff hdiff) (srs0Fields_eq_ok hfields).2.2
    (hunforged _ _ _ _ _ _ hs hfields htag)

/-- An address comes back from its rewritten form just if its domain has no `=`, the
forwarder is a domain, and the days of the two times are not further apart than the
window. In every run of calls whose senders have no `=` in their domains and whose
chained addresses have no prior forwarder that looks like a stamp, an SRS0 address with a
tag of the run is refused or reverses, up to the case of letters, to an address that was
rewritten. -/
theorem rewrite_reverse {o : Opts} (hcreate : create o = .ok srs)
    (hT : P.cases.Documented [at_, eq_]) :
    (∀ address t t' out, t ≤ t' → (t' - t) / dayMs ≤ srs.expiryDays →
      srs.rewrite P address t = .ok out →
      (srs.reverse P out t' = .ok address ↔ Returns srs address t t')) ∧
    ∀ calls : List Call, (∀ c ∈ calls, c.Plain P) → ∀ s localPart rcptDomain now r,
      splitAddress s = .ok (localPart, rcptDomain) → isSrs '0' localPart = true →
      Unforged P srs calls s → srs.reverse P s now = .ok r →
      ∃ address now out, Call.rewrite address now ∈ calls ∧
        srs.rewrite P address now = .ok out ∧
        toLowerCase P.cases r = toLowerCase P.cases address :=
  ⟨fun _ _ _ _ hle _ h => reverse_rewrite hcreate hT (by simp) hle h,
    fun _ hplain _ _ _ _ _ hs h0 hunforged h => reverse_signed hT hplain hs h0 hunforged h⟩

end safe

/-! ## A rewriter -/

/-- A sum of the bytes stands for the digest. -/
def sumPlatform : Platform where
  hmac key data :=
    let sum := (key ++ data).foldl (fun n b => (n * 31 + b.toNat) % 2 ^ 32) 7
    [UInt8.ofNat (sum / 2 ^ 24), UInt8.ofNat (sum / 2 ^ 16), UInt8.ofNat (sum / 2 ^ 8),
      UInt8.ofNat sum]
  cases := asciiCases

def forwarderOpts : Opts := ⟨units "0123456789abcdef", units "fwd.example", none⟩

def forwarder : Srs := ⟨units "0123456789abcdef", units "fwd.example", 30⟩

theorem create_forwarderOpts : create forwarderOpts = .ok forwarder := by decide

/-- Alice's address comes back, and where no tag is forged no other does. -/
theorem rewrite_reverse_alice : ∃ out,
    forwarder.rewrite sumPlatform (units "alice@bob.com") 0 = .ok out ∧
      forwarder.reverse sumPlatform out 0 = .ok (units "alice@bob.com") ∧
      ∀ s localPart rcptDomain now r, splitAddress s = .ok (localPart, rcptDomain) →
        isSrs '0' localPart = true →
        Unforged sumPlatform forwarder [.rewrite (units "alice@bob.com") 0] s →
        forwarder.reverse sumPlatform s now = .ok r →
          toLowerCase asciiCases r = units "alice@bob.com" := by
  have hplain : ∀ localPart domain,
      splitLast at_ (units "alice@bob.com") = some (localPart, domain) → eq_ ∉ domain := by
    intro localPart domain h
    have hsplit : splitLast at_ (units "alice@bob.com") = some (units "alice", units "bob.com") :=
      by decide
    rw [hsplit] at h
    cases h
    decide
  have hreturns : Returns forwarder (units "alice@bob.com") 0 0 :=
    ⟨by decide, by decide, hplain, by decide⟩
  have hok : (forwarder.rewrite sumPlatform (units "alice@bob.com") 0).toOption.isSome = true := by
    decide +kernel
  obtain ⟨out, hout⟩ := Option.isSome_iff_exists.mp hok
  have hout := Checked.ok_of_toOption hout
  obtain ⟨hback, hsigned⟩ := @rewrite_reverse sumPlatform forwarder forwarderOpts
    create_forwarderOpts (asciiCases_documented (by decide))
  refine ⟨out, hout, (hback _ 0 0 out (Nat.le_refl 0) (by decide) hout).mpr hreturns,
    fun s localPart rcptDomain now r hs h0 hunforged hr => ?_⟩
  obtain ⟨address, time, out', hcall, -, hsame⟩ := hsigned _
    (fun c hc => by rw [List.mem_singleton.mp hc]; exact hplain) s localPart rcptDomain now r hs h0
    hunforged hr
  obtain ⟨rfl, rfl⟩ := Call.rewrite.inj (List.mem_singleton.mp hcall)
  exact hsame.trans (by decide)

/-- A domain with an `=` comes back cut in two; and the tag of a chained address is that
of an SRS0 address whose domain is empty. -/
theorem equals_in_domain :
    (∃ out, forwarder.rewrite sumPlatform (units "a@b=c.com") 0 = .ok out ∧
      forwarder.reverse sumPlatform out 0 = .ok (units "c.com=a@b") ∧
      units "c.com=a@b" ≠ units "a@b=c.com") ∧
    ∃ out, forwarder.srs1Rewrite sumPlatform (units "SRS0=tag=x@aa") = .ok out ∧
      forwarder.reverse sumPlatform (units "SRS0=" ++ forwarder.tag sumPlatform
        (units "aa==tag=x") ++ units "=aa==tag=x@fwd.example") 0 = .ok (units "tag=x@") := by
  have hfirst : (forwarder.rewrite sumPlatform (units "a@b=c.com") 0).toOption.bind
      (fun out => (forwarder.reverse sumPlatform out 0).toOption) = some (units "c.com=a@b") := by
    decide +kernel
  have hsecond : (forwarder.srs1Rewrite sumPlatform (units "SRS0=tag=x@aa")).toOption.isSome =
      true := by decide +kernel
  have hforged : (forwarder.reverse sumPlatform (units "SRS0=" ++ forwarder.tag sumPlatform
      (units "aa==tag=x") ++ units "=aa==tag=x@fwd.example") 0).toOption =
        some (units "tag=x@") := by
    decide +kernel
  obtain ⟨out, hout, hback⟩ := Option.bind_eq_some_iff.mp hfirst
  obtain ⟨out', hout'⟩ := Option.isSome_iff_exists.mp hsecond
  exact ⟨⟨out, Checked.ok_of_toOption hout, Checked.ok_of_toOption hback, by decide⟩, out',
    Checked.ok_of_toOption hout', Checked.ok_of_toOption hforged⟩

end Blamejs.Srs
