import Blamejs.Proofs.CborRoundTrip
import Mathlib.Data.List.Perm.Basic

/-!
# What a round trip loses

The decoder's `TextDecoder` drops a leading byte-order mark, so a string that
begins with U+FEFF comes back shorter, and nothing else comes back longer: the
total length of the text in a value never grows on the way through. A value that
comes back equal therefore had no such string in it, which is the other half of
`decode_encode_iff`.
-/

namespace Blamejs.Cbor

open Blamejs.Js Checked

mutual

/-- The length of all the text in a value. -/
def weight : Value → Nat
  | .text s => s.length
  | .boxed v => weight v
  | .array items => itemsWeight items
  | .map entries => entriesWeight entries
  | .obj entries => propertiesWeight entries
  | .tag _ v => weight v
  | _ => 0

def itemsWeight : List Value → Nat
  | [] => 0
  | v :: vs => weight v + itemsWeight vs

def entriesWeight : List (Value × Value) → Nat
  | [] => 0
  | (k, v) :: es => weight k + weight v + entriesWeight es

def propertiesWeight : List (JsString × Value) → Nat
  | [] => 0
  | (k, v) :: es => k.length + weight v + propertiesWeight es

end

theorem propertiesWeight_eq (es : List (JsString × Value)) :
    propertiesWeight es = entriesWeight (asEntries es) := by
  induction es with
  | nil => rfl
  | cons e es ih =>
      rw [propertiesWeight, ih]
      rfl

theorem entriesWeight_eq (es : List (Value × Value)) :
    entriesWeight es = (es.map fun e => weight e.1 + weight e.2).sum := by
  induction es with
  | nil => rfl
  | cons e es ih => rw [entriesWeight, ih, List.map_cons, List.sum_cons]

theorem entriesWeight_perm {es fs : List (Value × Value)} (h : es.Perm fs) :
    entriesWeight es = entriesWeight fs := by
  rw [entriesWeight_eq, entriesWeight_eq, (h.map _).sum_nat]

theorem entriesWeight_of_forall₂ {es ws : List (Value × Value)}
    (h : List.Forall₂ (fun e w => weight w.1 = weight e.1 ∧ weight w.2 = weight e.2) es ws) :
    entriesWeight ws = entriesWeight es := by
  induction h with
  | nil => rfl
  | cons he hes ih => rw [entriesWeight, entriesWeight, ih, he.1, he.2]

/-- What returns has its text. -/
theorem weight_of_returns (v : Value) : ∀ w, Returns v w → weight w = weight v := by
  have hentries : ∀ {es ws : List (Value × Value)},
      (∀ e ∈ es, (∀ w, Returns e.1 w → weight w = weight e.1) ∧
        ∀ w, Returns e.2 w → weight w = weight e.2) →
      EntriesReturn es ws → entriesWeight ws = entriesWeight es := by
    intro es ws ih hreturns
    have hboth := (List.forall₂_and_left (p := fun e => e ∈ es) es ws).mpr
      ⟨fun _ he => he, entriesReturn_iff.mp hreturns⟩
    refine entriesWeight_of_forall₂ (hboth.imp ?_)
    intro e w hmem
    obtain ⟨he, hw⟩ := hmem
    exact ⟨(ih e he).1 _ hw.1, (ih e he).2 _ hw.2⟩
  refine PassesUp.value (P := fun v => ∀ w, Returns v w → weight w = weight v)
    ⟨?_, ?_, ?_, ?_, ?_, ?_⟩ v
  · intro v hparts w h
    have hint : ∀ z, weight (ofInteger z) = 0 := by
      intro z
      unfold ofInteger
      split <;> rfl
    match v with
    | .null | .bool _ | .num _ | .text _ | .bytes _ =>
        rw [Returns] at h
        rw [h]
    | .bigint z =>
        rw [Returns] at h
        rw [h, hint]
        rfl
    | .undefined | .date | .noForm _ | .other _ =>
        rw [Returns] at h
        exact h.elim
  · intro v _ w h
    rw [Returns] at h
    exact h.elim
  · intro items ih w h
    rw [Returns] at h
    obtain ⟨ws, rfl, hitems⟩ := h
    have hboth := (List.forall₂_and_left (p := fun v => v ∈ items) items ws).mpr
      ⟨fun _ hv => hv, itemsReturn_iff.mp hitems⟩
    have hsum : ∀ {vs ws}, List.Forall₂ (fun v w => v ∈ items ∧ Returns v w) vs ws →
        itemsWeight ws = itemsWeight vs := by
      intro vs ws h
      induction h with
      | nil => rfl
      | cons hv hvs ih' => rw [itemsWeight, itemsWeight, ih', ih _ hv.1 _ hv.2]
    exact hsum hboth
  · intro es ih w h
    rw [Returns] at h
    obtain ⟨ws, ws', rfl, hperm, hreturns⟩ := h
    exact (entriesWeight_perm hperm).trans (hentries ih hreturns)
  · intro es ih w h
    rw [Returns] at h
    obtain ⟨ws, ws', rfl, hperm, hreturns⟩ := h
    rw [weight, weight, propertiesWeight_eq, entriesWeight_perm hperm]
    exact hentries ih (propertiesReturn_iff.mp hreturns)
  · intro n v ih w h
    rw [Returns] at h
    obtain ⟨v', rfl, hv⟩ := h
    exact ih v' hv

theorem entriesWeight_mapSet (m : List (Value × Value)) (k v : Value) :
    entriesWeight (mapSet m k v) ≤ entriesWeight m + (weight k + weight v) := by
  induction m with
  | nil =>
      show weight k + weight v + 0 ≤ 0 + (weight k + weight v)
      omega
  | cons p m ih =>
      rw [mapSet]
      split
      · rw [entriesWeight, entriesWeight]
        omega
      · rw [entriesWeight, entriesWeight]
        omega

theorem length_withoutBom (s : JsString) :
    (withoutBom s).length ≤ s.length ∧
      ((withoutBom s).length = s.length → s.head? ≠ some 0xFEFF) := by
  cases s with
  | nil => exact ⟨Nat.le_refl _, fun _ => by decide⟩
  | cons u s =>
      rw [withoutBom]
      split
      · refine ⟨Nat.le_succ _, fun h => ?_⟩
        rw [List.length_cons] at h
        omega
      · next hu =>
          refine ⟨Nat.le_refl _, fun _ h => ?_⟩
          rw [List.head?_cons, Option.some.injEq] at h
          exact hu h

/-! ## Reading back never adds text -/

/-- How `w` came out of `v`: with at most its text, and with all of it only when
no string began with U+FEFF; and every tag number was safe. -/
def Lighter (v w : Value) : Prop :=
  weight w ≤ weight v ∧ (weight w = weight v → NoBom v) ∧ Tags (· ≤ Double.maxSafe) v

variable {limits : Limits}

/-- What the decoder makes of the bytes of `v`. -/
def ReadsLighter (limits : Limits) (v : Value) : Prop :=
  Encodable v → ∀ {depth bs fuel d rest w r}, encodeValue false depth v = .ok bs →
    2 * bs.length + 1 ≤ fuel → decodeItem limits fuel d (bs ++ rest) = .ok (w, r) →
    r = rest ∧ Lighter v w

theorem encodeValue_ok {depth : Nat} {v : Value} {bs : List UInt8}
    (h : encodeValue false depth v = .ok bs) : ¬ absoluteMaxDepth < depth := by
  intro hdepth
  rw [encodeValue.eq_def, if_pos hdepth] at h
  exact fail_ne_ok h

theorem headed_eq_ok {major n : Nat} {body bs : List UInt8} (h : headed major n body = .ok bs) :
    n < 2 ^ 64 ∧ bs = headBytes major n ++ body := by
  obtain ⟨lead, hhead, rfl⟩ := map_eq_ok.mp h
  obtain ⟨hn, rfl⟩ := head_eq_ok hhead
  exact ⟨hn, rfl⟩

theorem readsLighter_text (s : JsString) : ReadsLighter limits (.text s) := by
  intro hv depth bs fuel d rest w r henc _ hdec
  have hdepth := encodeValue_ok henc
  rw [encodeValue, if_neg hdepth] at henc
  obtain ⟨hn, rfl⟩ := headed_eq_ok henc
  rw [List.append_assoc] at hdec
  have hlen := le_maxSafe_of_decodeItem (by decide) hn hdec
  obtain ⟨f, ib, st, rfl, -, hd, -⟩ := decodeItem_ok hdec
  have hwell : WellFormed s := everywhere_text.mp hv
  rw [decodeItem_text hd hwell hlen, Except.ok.injEq, Prod.mk.injEq] at hdec
  obtain ⟨rfl, rfl⟩ := hdec
  obtain ⟨hle, heq⟩ := length_withoutBom s
  exact ⟨rfl, hle, fun h => everywhere_text.mpr (heq h), everywhere_text.mpr trivial⟩

theorem lighter_of_eq {v w : Value} (hparts : HasNoParts v) (htext : ∀ s, v ≠ .text s)
    (h : weight w = weight v) : Lighter v w := by
  refine ⟨Nat.le_of_eq h, fun _ => (everywhere_leaf hparts).mpr ?_, (everywhere_leaf hparts).mpr ?_⟩
  · exact bomFree_of_ne htext
  · exact tagNode_leaf hparts

theorem readsLighter_bytes (data : List UInt8) : ReadsLighter limits (.bytes data) := by
  intro hv depth bs fuel d rest w r henc _ hdec
  have hdepth := encodeValue_ok henc
  rw [encodeValue, if_neg hdepth] at henc
  obtain ⟨hn, rfl⟩ := headed_eq_ok henc
  rw [List.append_assoc] at hdec
  have hlen := le_maxSafe_of_decodeItem (by decide) hn hdec
  obtain ⟨f, ib, st, rfl, -, hd, -⟩ := decodeItem_ok hdec
  rw [decodeItem_bytes hd hlen, Except.ok.injEq, Prod.mk.injEq] at hdec
  obtain ⟨rfl, rfl⟩ := hdec
  exact ⟨rfl, lighter_of_eq trivial (fun _ => Value.noConfusion) rfl⟩

theorem headSize_le (n : Nat) : headSize n ≤ 9 := by
  unfold headSize
  split_ifs <;> decide

theorem height_leaf {v : Value} (hparts : HasNoParts v) : height v = 0 := by
  match v with
  | .null | .undefined | .bool _ | .num _ | .bigint _ | .text _ | .bytes _ | .date
  | .noForm _ | .other _ => rfl
  | .boxed _ | .array _ | .map _ | .obj _ | .tag _ _ => exact hparts.elim

theorem size_leaf_le {v : Value} (hparts : HasNoParts v) (htext : ∀ s, v ≠ .text s)
    (hbytes : ∀ data, v ≠ .bytes data) : size v ≤ 9 := by
  match v with
  | .null | .undefined | .bool _ | .date | .noForm _ | .other _ => exact (by decide : 1 ≤ 9)
  | .num x =>
      rw [size, numberSize]
      split_ifs
      · exact headSize_le _
      · decide
      · decide
  | .bigint z => exact headSize_le _
  | .text s => exact absurd rfl (htext s)
  | .bytes data => exact absurd rfl (hbytes data)
  | .boxed _ | .array _ | .map _ | .obj _ | .tag _ _ => exact hparts.elim

theorem readsLighter_leaf {v : Value} (hparts : HasNoParts v) : ReadsLighter limits v := by
  by_cases htext : ∃ s, v = .text s
  · obtain ⟨s, rfl⟩ := htext
    exact readsLighter_text s
  by_cases hbytes : ∃ data, v = .bytes data
  · obtain ⟨data, rfl⟩ := hbytes
    exact readsLighter_bytes data
  · intro hv depth bs fuel d rest w r henc hfuel hdec
    have hfit : FitNode limits v := ⟨(everywhere_leaf hparts).mp hv,
      bomFree_of_ne fun s h => htext ⟨s, h⟩, tagNode_leaf hparts⟩
    have hsize : size v ≤ Double.maxSafe :=
      Nat.le_trans (size_leaf_le hparts (fun s h => htext ⟨s, h⟩) fun data h => hbytes ⟨data, h⟩)
        (by decide)
    have hheight := height_leaf hparts
    obtain ⟨c, hc⟩ := coded_leaf hparts hfit hsize
    have hdepth := encodeValue_ok henc
    rw [hc.encode depth (by omega)] at henc
    obtain rfl := Except.ok.inj henc
    obtain ⟨-, -, -, -, -, hd, -⟩ := decodeItem_ok hdec
    rw [hc.decode fuel d rest (by omega) hfuel, Except.ok.injEq, Prod.mk.injEq] at hdec
    obtain ⟨rfl, rfl⟩ := hdec
    exact ⟨rfl, lighter_of_eq hparts (fun s h => htext ⟨s, h⟩) (weight_of_returns v _ hc.returns)⟩

/-! ## Containers -/

theorem encodeItems_ok {depth : Nat} {items : List Value} {parts : List UInt8}
    (h : encodeItems false depth items = .ok parts) :
    ∃ ps, List.Forall₂ (fun v p => encodeValue false depth v = .ok p) items ps ∧
      parts = ps.flatten := by
  induction items generalizing parts with
  | nil =>
      rw [encodeItems] at h
      cases h
      exact ⟨[], .nil, rfl⟩
  | cons v vs ih =>
      rw [encodeItems] at h
      obtain ⟨p, hv, h⟩ := bind_eq_ok.mp h
      obtain ⟨rest, hvs, heq⟩ := bind_eq_ok.mp h
      cases heq
      obtain ⟨ps, hps, rfl⟩ := ih hvs
      exact ⟨p :: ps, .cons hv hps, rfl⟩

theorem encodeEntries_ok {depth : Nat} {es : List (Value × Value)}
    {ps : List (List UInt8 × List UInt8)} (h : encodeEntries false depth es = .ok ps) :
    List.Forall₂ (fun e p => encodeValue false depth e.1 = .ok p.1 ∧
      encodeValue false depth e.2 = .ok p.2) es ps := by
  induction es generalizing ps with
  | nil =>
      rw [encodeEntries] at h
      cases h
      exact .nil
  | cons e es ih =>
      rw [encodeEntries] at h
      obtain ⟨key, hk, h⟩ := bind_eq_ok.mp h
      obtain ⟨value, hv, h⟩ := bind_eq_ok.mp h
      obtain ⟨rest, hes, heq⟩ := bind_eq_ok.mp h
      cases heq
      exact .cons ⟨hk, hv⟩ (ih hes)

theorem encodeProperties_ok {depth : Nat} {es : List (JsString × Value)}
    {ps : List (List UInt8 × List UInt8)} (h : encodeProperties false depth es = .ok ps) :
    encodeEntries false depth (asEntries es) = .ok ps := by
  rw [← encodeProperties_eq, h]
  cases es with
  | nil => exact Or.inl rfl
  | cons e es =>
      rw [encodeProperties] at h
      obtain ⟨key, hk, h⟩ := bind_eq_ok.mp h
      obtain ⟨value, hv, -⟩ := bind_eq_ok.mp h
      exact Or.inr (Nat.le_of_not_lt (encodeValue_ok hv))

theorem assembleMap_ok {ps : List (List UInt8 × List UInt8)} {bs : List UInt8}
    (h : assembleMap ps = .ok bs) : ∃ sorted, List.Perm sorted ps ∧ ps.length < 2 ^ 64 ∧
      bs = headBytes 5 ps.length ++ sorted.flatMap fun p => p.1 ++ p.2 := by
  have hperm := List.perm_insertionSort entryLE ps
  unfold assembleMap at h
  dsimp only at h
  split at h
  · exact (fail_ne_ok h).elim
  · obtain ⟨hn, rfl⟩ := headed_eq_ok h
    rw [hperm.length_eq] at hn ⊢
    exact ⟨_, hperm, hn, rfl⟩

theorem readsLighter_items {items : List Value} {ps : List (List UInt8)} {depth fuel d : Nat}
    {rest r : List UInt8} {ws : List Value}
    (ih : ∀ v ∈ items, Encodable v ∧ ReadsLighter limits v)
    (henc : List.Forall₂ (fun v p => encodeValue false depth v = .ok p) items ps)
    (hfuel : 2 * ps.flatten.length + 2 ≤ fuel)
    (hdec : decodeItems limits fuel d items.length (ps.flatten ++ rest) = .ok (ws, r)) :
    r = rest ∧ itemsWeight ws ≤ itemsWeight items ∧
      (itemsWeight ws = itemsWeight items → ∀ v ∈ items, NoBom v) ∧
      ∀ v ∈ items, Tags (· ≤ Double.maxSafe) v := by
  induction henc generalizing fuel ws with
  | nil =>
      rw [List.length_nil, decodeItems] at hdec
      cases hdec
      exact ⟨rfl, Nat.le_refl _, fun _ _ hv => (List.not_mem_nil hv).elim,
        fun _ hv => (List.not_mem_nil hv).elim⟩
  | @cons v p vs ps hv hvs ih' =>
      obtain ⟨⟨hencodable, hreads⟩, ihs⟩ := List.forall_mem_cons.mp ih
      rw [List.flatten_cons, List.length_append] at hfuel
      rw [List.length_cons, List.flatten_cons, List.append_assoc] at hdec
      obtain ⟨f, w, st, ws', rfl, rfl, hitem, hitems⟩ := decodeItems_ok hdec
      have hlt := length_lt_of_decodeItem hitem
      obtain ⟨rfl, hle, heq, htags⟩ := hreads hencodable hv (by omega) hitem
      simp only [List.length_append] at hlt
      obtain ⟨rfl, hle', heq', htags'⟩ := ih' ihs (by omega) hitems
      rw [itemsWeight, itemsWeight]
      refine ⟨rfl, by omega, fun h => ?_, List.forall_mem_cons.mpr ⟨htags, htags'⟩⟩
      exact List.forall_mem_cons.mpr ⟨heq (by omega), heq' (by omega)⟩

theorem readsLighter_entries {es : List (Value × Value)} {ps : List (List UInt8 × List UInt8)}
    {depth fuel d : Nat} {rest r : List UInt8} {seen : List (List UInt8)}
    {m m' : List (Value × Value)}
    (ih : ∀ e ∈ es, (Encodable e.1 ∧ ReadsLighter limits e.1) ∧
      Encodable e.2 ∧ ReadsLighter limits e.2)
    (henc : List.Forall₂ (fun e p => encodeValue false depth e.1 = .ok p.1 ∧
      encodeValue false depth e.2 = .ok p.2) es ps)
    (hfuel : 2 * (ps.flatMap fun p => p.1 ++ p.2).length + 2 ≤ fuel)
    (hdec : decodeEntries limits fuel d es.length seen m
      ((ps.flatMap fun p => p.1 ++ p.2) ++ rest) = .ok (m', r)) :
    r = rest ∧ entriesWeight m' ≤ entriesWeight m + entriesWeight es ∧
      (entriesWeight m' = entriesWeight m + entriesWeight es →
        ∀ e ∈ es, NoBom e.1 ∧ NoBom e.2) ∧
      ∀ e ∈ es, Tags (· ≤ Double.maxSafe) e.1 ∧ Tags (· ≤ Double.maxSafe) e.2 := by
  induction henc generalizing fuel seen m with
  | nil =>
      rw [List.length_nil, decodeEntries] at hdec
      cases hdec
      exact ⟨rfl, Nat.le_refl _, fun _ _ he => (List.not_mem_nil he).elim,
        fun _ he => (List.not_mem_nil he).elim⟩
  | @cons e p es ps he hes ih' =>
      obtain ⟨⟨⟨hencKey, hreadsKey⟩, hencVal, hreadsVal⟩, ihs⟩ := List.forall_mem_cons.mp ih
      rw [List.flatMap_cons, List.length_append, List.length_append] at hfuel
      rw [List.length_cons, List.flatMap_cons, List.append_assoc, List.append_assoc] at hdec
      obtain ⟨f, key, st, val, st', id, rfl, hkey, -, -, hval, hentries⟩ := decodeEntries_ok hdec
      have hltKey := length_lt_of_decodeItem hkey
      obtain ⟨rfl, hleKey, heqKey, htagsKey⟩ := hreadsKey hencKey he.1 (by omega) hkey
      have hltVal := length_lt_of_decodeItem hval
      obtain ⟨rfl, hleVal, heqVal, htagsVal⟩ := hreadsVal hencVal he.2 (by omega) hval
      simp only [List.length_append] at hltKey hltVal
      obtain ⟨rfl, hle, heq, htags⟩ := ih' ihs (by omega) hentries
      have hset := entriesWeight_mapSet m key val
      rw [entriesWeight]
      refine ⟨rfl, by omega, fun h => ?_, ?_⟩
      · exact List.forall_mem_cons.mpr
          ⟨⟨heqKey (by omega), heqVal (by omega)⟩, heq (by omega)⟩
      · exact List.forall_mem_cons.mpr ⟨⟨htagsKey, htagsVal⟩, htags⟩

theorem exists_perm_of_forall₂ {α β : Type} {R : α → β → Prop} {l : List α} {l' l'' : List β}
    (h : List.Forall₂ R l l') (hperm : l'.Perm l'') :
    ∃ k, l.Perm k ∧ List.Forall₂ R k l'' := by
  have hcomp : Relation.Comp (List.Forall₂ R) List.Perm l l'' := ⟨l', h, hperm⟩
  rw [List.forall₂_comp_perm_eq_perm_comp_forall₂] at hcomp
  exact hcomp

/-- The entries of a `Map` or of a plain object, sorted as they were written. -/
theorem readsLighter_map {es : List (Value × Value)} {depth fuel d : Nat}
    {bs rest r : List UInt8} {w : Value}
    (ih : ∀ e ∈ es, ReadsLighter limits e.1 ∧ ReadsLighter limits e.2)
    (hencodable : EverywhereEntries EncodableNode es)
    (henc : encodeEntries false depth es >>= assembleMap = .ok bs)
    (hfuel : 2 * bs.length + 1 ≤ fuel)
    (hdec : decodeItem limits fuel d (bs ++ rest) = .ok (w, r)) :
    r = rest ∧ weight w ≤ entriesWeight es ∧
      (weight w = entriesWeight es → ∀ e ∈ es, NoBom e.1 ∧ NoBom e.2) ∧
      ∀ e ∈ es, Tags (· ≤ Double.maxSafe) e.1 ∧ Tags (· ≤ Double.maxSafe) e.2 := by
  obtain ⟨ps, hentries, hassemble⟩ := bind_eq_ok.mp henc
  obtain ⟨sorted, hperm, hn, rfl⟩ := assembleMap_ok hassemble
  have hps := encodeEntries_ok hentries
  obtain ⟨es', hes, hsorted⟩ := exists_perm_of_forall₂ hps hperm.symm
  rw [List.append_assoc] at hdec
  have hlen := le_maxSafe_of_decodeItem (by decide) hn hdec
  obtain ⟨f, ib, st, rfl, -, hd, -⟩ := decodeItem_ok hdec
  rw [decodeItem_map hd hlen] at hdec
  obtain ⟨⟨m, r'⟩, hdecode, heq⟩ := map_eq_ok.mp hdec
  cases heq
  have hcount : ps.length = es'.length := by rw [← hps.length_eq, hes.length_eq]
  rw [hcount] at hdecode
  rw [List.length_append, length_headBytes] at hfuel
  have := headSize_pos ps.length
  have ih' : ∀ e ∈ es', (Encodable e.1 ∧ ReadsLighter limits e.1) ∧
      Encodable e.2 ∧ ReadsLighter limits e.2 := by
    intro e he
    have hmem := hes.mem_iff.mpr he
    obtain ⟨hk, hv⟩ := everywhereEntries_iff.mp hencodable e hmem
    exact ⟨⟨hk, (ih e hmem).1⟩, hv, (ih e hmem).2⟩
  obtain ⟨rfl, hle, hall, htags⟩ := readsLighter_entries ih' hsorted (by omega) hdecode
  rw [entriesWeight, Nat.zero_add, ← entriesWeight_perm hes] at hle hall
  refine ⟨rfl, hle, fun h e he => hall h e (hes.mem_iff.mp he), fun e he => ?_⟩
  exact htags e (hes.mem_iff.mp he)

theorem readsLighter (v : Value) : ReadsLighter limits v := by
  refine PassesUp.value ⟨fun v hparts => readsLighter_leaf hparts, ?_, ?_, ?_, ?_, ?_⟩ v
  · intro v _ hv
    exact hv.1.elim
  · intro items ih hv depth bs fuel d rest w r henc hfuel hdec
    rw [Encodable, Everywhere, everywhereItems_iff] at hv
    have hdepth := encodeValue_ok henc
    rw [encodeValue, if_neg hdepth] at henc
    obtain ⟨lead, hhead, henc⟩ := bind_eq_ok.mp henc
    obtain ⟨parts, hitems, heq⟩ := bind_eq_ok.mp henc
    cases heq
    obtain ⟨hn, rfl⟩ := head_eq_ok hhead
    obtain ⟨ps, hps, rfl⟩ := encodeItems_ok hitems
    rw [List.append_assoc] at hdec
    have hlen := le_maxSafe_of_decodeItem (by decide) hn hdec
    obtain ⟨f, ib, st, rfl, -, hd, -⟩ := decodeItem_ok hdec
    rw [decodeItem_array hd hlen] at hdec
    obtain ⟨⟨ws, r'⟩, hdecode, heq⟩ := map_eq_ok.mp hdec
    cases heq
    rw [List.length_append, length_headBytes] at hfuel
    have := headSize_pos items.length
    obtain ⟨rfl, hle, hall, htags⟩ :=
      readsLighter_items (fun v hmem => ⟨hv.2 v hmem, ih v hmem⟩) hps (by omega) hdecode
    refine ⟨rfl, hle, fun h => ?_, ?_⟩
    · exact ⟨trivial, everywhereItems_iff.mpr (hall h)⟩
    · exact ⟨trivial, everywhereItems_iff.mpr htags⟩
  · intro es ih hv depth bs fuel d rest w r henc hfuel hdec
    have hdepth := encodeValue_ok henc
    rw [encodeValue, if_neg hdepth] at henc
    obtain ⟨rfl, hle, hall, htags⟩ := readsLighter_map ih hv.2 henc hfuel hdec
    refine ⟨rfl, hle, fun h => ?_, ?_⟩
    · exact ⟨trivial, everywhereEntries_iff.mpr (hall h)⟩
    · exact ⟨trivial, everywhereEntries_iff.mpr htags⟩
  · intro es ih hv depth bs fuel d rest w r henc hfuel hdec
    have hdepth := encodeValue_ok henc
    rw [encodeValue, if_neg hdepth] at henc
    obtain ⟨ps, hprops, hassemble⟩ := bind_eq_ok.mp henc
    have hentries : encodeEntries false (depth + 1) (asEntries es) >>= assembleMap = .ok bs :=
      bind_eq_ok.mpr ⟨ps, encodeProperties_ok hprops, hassemble⟩
    obtain ⟨rfl, hle, hall, htags⟩ :=
      readsLighter_map ih (everywhereProperties_iff.mp hv.2) hentries hfuel hdec
    have hweight : weight (.obj es) = entriesWeight (asEntries es) := by
      rw [weight, propertiesWeight_eq]
    rw [← hweight] at hle hall
    refine ⟨rfl, hle, fun h => ?_, ?_⟩
    · exact ⟨trivial, everywhereProperties_iff.mpr (everywhereEntries_iff.mpr (hall h))⟩
    · exact ⟨trivial, everywhereProperties_iff.mpr (everywhereEntries_iff.mpr htags)⟩
  · intro n v ih hv depth bs fuel d rest w r henc hfuel hdec
    have hdepth := encodeValue_ok henc
    rw [encodeValue, if_neg hdepth] at henc
    obtain ⟨lead, hhead, henc⟩ := bind_eq_ok.mp henc
    obtain ⟨body, hbody, heq⟩ := bind_eq_ok.mp henc
    cases heq
    obtain ⟨hn, rfl⟩ := head_eq_ok hhead
    rw [List.append_assoc] at hdec
    have hlen := le_maxSafe_of_decodeItem (by decide) hn hdec
    have htag := mem_allowedTags_of_decodeItem hlen hdec
    obtain ⟨f, ib, st, rfl, -, hd, -⟩ := decodeItem_ok hdec
    rw [List.length_append, length_headBytes] at hfuel
    have := headSize_pos n
    rw [decodeItem_tag hd hlen htag] at hdec
    obtain ⟨⟨v', r'⟩, hdecode, heq⟩ := map_eq_ok.mp hdec
    cases heq
    obtain ⟨rfl, hle, hall, htags⟩ := ih hv.2 hbody (by omega) hdecode
    exact ⟨rfl, hle, fun h => ⟨trivial, hall h⟩, hlen, htags⟩

/-! ## The round trip -/

theorem capInt_le {v : Option Double} {dflt absolute : Nat} (h : dflt ≤ absolute) :
    capInt v dflt absolute ≤ absolute := by
  unfold capInt
  split
  · exact h
  · split
    · exact h
    · exact Nat.min_le_right _ _

theorem decode_eq_ok {opts : DecodeOpts} {buf : List UInt8} {v : Value}
    (hlen : buf.length ≤ opts.byteLimit)
    (hitem : decodeItem opts.limits (decodeFuel buf.length) 0 buf = .ok (v, []))
    (hencode : encode v = .ok buf) : decode opts buf = .ok v := by
  rw [decode]
  dsimp only
  rw [if_neg (Nat.not_lt.mpr hlen), hitem, bind_ok]
  dsimp only
  rw [if_neg (not_not.mpr rfl), hencode, bind_ok, if_neg (not_not.mpr rfl)]
  split
  · rfl
  · rfl

theorem everywhere_fit {v : Value} (hv : Encodable v) (hbom : NoBom v)
    (htags : Tags (· ∈ limits.allowedTags) v) (hsafe : Tags (· ≤ Double.maxSafe) v) :
    Everywhere (FitNode limits) v := by
  have hboth : Tags (fun n => n ∈ limits.allowedTags ∧ n ≤ Double.maxSafe) v :=
    Everywhere.mp (fun _ h h' => h.and h') v htags hsafe
  have hencodable : Everywhere (fun u => EncodableNode u ∧ BomFree u) v :=
    Everywhere.mp (fun _ h h' => ⟨h, h'⟩) v hv hbom
  exact Everywhere.mp (fun _ h h' => ⟨h.1, h.2, h'⟩) v hencodable hboth

/-- An encodable value within the decoder's limits comes back exactly when no
string in it begins with U+FEFF and no tag number is past the safe range. -/
theorem decode_encode_iff {opts : DecodeOpts} {v : Value} (hv : Encodable v)
    (htags : Tags (· ∈ opts.allowedTags) v) (hheight : height v ≤ opts.limits.maxDepth)
    (hsize : size v ≤ opts.byteLimit) :
    (∃ bs w, encode v = .ok bs ∧ decode opts bs = .ok w ∧ Returns v w) ↔
      NoBom v ∧ Tags (· ≤ Double.maxSafe) v := by
  constructor
  · intro h
    obtain ⟨bs, w, henc, hdec, hreturns⟩ := h
    have hitem := (decode_ok hdec).2
    rw [← List.append_nil bs] at hitem
    obtain ⟨-, -, hall, hsafe⟩ := readsLighter v hv henc (by simp [decodeFuel]) hitem
    exact ⟨hall (weight_of_returns v w hreturns), hsafe⟩
  · intro h
    obtain ⟨hbom, hsafe⟩ := h
    have hdepth : opts.limits.maxDepth ≤ absoluteMaxDepth := capInt_le (by decide)
    have hbytes : opts.byteLimit ≤ Double.maxSafe :=
      Nat.le_trans (capInt_le (by decide)) (by decide)
    have hfit : Everywhere (FitNode opts.limits) v := everywhere_fit hv hbom htags hsafe
    obtain ⟨c, hc⟩ := exists_coded hdepth v hfit (Nat.le_trans hsize hbytes) hheight
    have hlen := hc.length
    refine ⟨c.bytes, c.value, hc.encode 0 (by omega), ?_, hc.returns⟩
    have hitem := hc.decode (decodeFuel c.bytes.length) 0 [] (by omega) (by simp [decodeFuel])
    rw [List.append_nil] at hitem
    exact decode_eq_ok (by omega) hitem (hc.reencode 0 (by omega))

/-- The options of a verifier that allows tag 1. -/
def strictOpts : DecodeOpts := ⟨none, none, [1], true⟩

theorem decode_encode_iff_tagged :
    (∃ bs w, encode (.tag 1 (.map [(.text [0x61], .bigint 7)])) = .ok bs ∧
      decode strictOpts bs = .ok w ∧ Returns (.tag 1 (.map [(.text [0x61], .bigint 7)])) w) ↔
      NoBom (.tag 1 (.map [(.text [0x61], .bigint 7)])) ∧
        Tags (· ≤ Double.maxSafe) (.tag 1 (.map [(.text [0x61], .bigint 7)])) := by
  refine decode_encode_iff ?_ ?_ (by decide) (by decide +kernel)
  · refine ⟨trivial, List.pairwise_singleton _ _, ⟨everywhere_text.mpr ?_, ?_⟩, trivial⟩
    · exact (by decide : WellFormed [0x61])
    · exact (by decide : -2 ^ 64 ≤ (7 : Int) ∧ (7 : Int) < 2 ^ 64)
  · exact ⟨List.mem_singleton.mpr rfl, trivial, ⟨trivial, trivial⟩, trivial⟩

/-- The byte-order mark on its own is written as `63efbbbf` and read as the
empty string, which is written as `60`. -/
theorem decode_encode_bom :
    ¬ ∀ (opts : DecodeOpts) (v : Value), opts.requireDeterministic = true → Encodable v →
      Tags (· ∈ opts.allowedTags) v → height v ≤ opts.limits.maxDepth →
      size v ≤ opts.byteLimit →
      ∃ bs w, encode v = .ok bs ∧ decode opts bs = .ok w ∧ Returns v w := by
  intro h
  obtain ⟨bs, w, henc, hdec, -⟩ := h strictOpts (.text [0xFEFF]) rfl
    (everywhere_text.mpr (by decide : WellFormed [0xFEFF])) (everywhere_text.mpr trivial)
    (by decide) (by decide +kernel)
  have hbytes : encode (.text [0xFEFF]) = .ok [0x63, 0xef, 0xbb, 0xbf] := by
    rw [encode, encodeValue, if_neg (Nat.not_lt_zero _), encodeText]
    rfl
  rw [hbytes] at henc
  obtain rfl := Except.ok.inj henc
  have hfail : (decode strictOpts [0x63, 0xef, 0xbb, 0xbf]).isOk = false := by decide +kernel
  rw [isOk_iff.mpr ⟨w, hdec⟩] at hfail
  exact absurd hfail (by decide)

end Blamejs.Cbor
