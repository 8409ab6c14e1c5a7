import Mathlib
import Blamejs.Ref.NonceStore

/-!
# Two backends, one record of spent nonces

An entry that has expired is as good as none to the memory backend's
`checkAndInsert`, which compares the time. To the statement of the cluster
backend it is a row like any other, and to `release`, in either backend, it is an
entry that existed: there the answer depends on whether a purge has come first.
`Prompt` says that no call meets such an entry, nor one of another nonce that the
database takes for the same text, and it is exactly the condition under which both
backends answer as the record of spent values does, in which there is nothing to purge.

That a nonce is not accepted twice while it is spent needs no condition in the map:
only a release deletes an entry that has not expired. In the table it may be a release
of another nonce with the same text.
-/

namespace Blamejs.NonceStore

open Blamejs.Js SpentValues

variable {maxEntries : Nat} {now now' : Rat} {nonce : JsString} {expireAt : Rat}
  {m seen rows : Entries} {spent : Spent JsString Rat} {stored : JsString → JsString}

/-- What a call asks of the record, when its arguments pass. -/
def Call.op : Call → Option (Op JsString Rat)
  | .checkAndInsert nonce expireAt =>
      (validNonce nonce).bind fun nonce => expireAt.map fun expireAt => .spend nonce expireAt
  | .release nonce => (validNonce nonce).map .giveBack
  | .purgeExpired => none
  | .sweep => none

/-- The operations of a sequence of calls. -/
def ops (calls : List (Rat × Call)) : List (Rat × Op JsString Rat) :=
  calls.filterMap fun c => c.2.op.map fun op => (c.1, op)

def Answer.isPurged : Answer → Bool
  | .purged _ => true
  | _ => false

def Answer.told? : Answer → Option Bool
  | .told b => some b
  | _ => none

/-- The answers of a backend about nonces: all but the numbers a purge removed. -/
def answers (backend : Rat → Entries → Call → Answer × Entries) (m : Entries)
    (calls : List (Rat × Call)) : List Answer :=
  (play backend m calls).1.filter fun a => !a.isPurged

/-- The map is not full when a nonce is checked. -/
def Below (maxEntries : Nat) : Entries → List (Rat × Call) → Prop
  | _, [] => True
  | seen, (now, call) :: calls =>
      (∀ nonce expireAt, call = .checkAndInsert nonce expireAt →
        seen.entries.length < maxEntries) ∧
      Below maxEntries (memoryBackend maxEntries now seen call).2 calls

/-- No expired entry of the nonce is still there. -/
def Swept (now : Rat) (m : Entries) (nonce : JsString) : Prop :=
  ∀ t, m.lookup nonce = some t → now < t

/-- No other nonce with the same text in the database is spent. -/
def Alone (stored : JsString → JsString) (now : Rat) (spent : Spent JsString Rat)
    (nonce : JsString) : Prop :=
  ∀ n, n ≠ nonce → stored n = stored nonce → spent.live now n = none

/-- The call meets no expired entry of its nonce that is still there, a check in the
table and a release in either backend, and no row of another nonce. -/
def Timely (stored : JsString → JsString) (now : Rat) (seen rows : Entries)
    (spent : Spent JsString Rat) (call : Call) : Prop :=
  match call.op with
  | some (.spend nonce _) => Swept now rows (stored nonce) ∧ Alone stored now spent nonce
  | some (.giveBack nonce) =>
      Swept now seen nonce ∧ Swept now rows (stored nonce) ∧ Alone stored now spent nonce
  | none => True

/-- What is spent after a call. -/
def after (now : Rat) (spent : Spent JsString Rat) (call : Call) : Spent JsString Rat :=
  match call.op with
  | some op => (spent.step now op).2
  | none => spent

def Prompt (stored : JsString → JsString) (maxEntries : Nat) :
    Entries → Entries → Spent JsString Rat → List (Rat × Call) → Prop
  | _, _, _, [] => True
  | seen, rows, spent, (now, call) :: calls =>
      Timely stored now seen rows spent call ∧
      Prompt stored maxEntries (memoryBackend maxEntries now seen call).2
        (clusterBackend stored now rows call).2 (after now spent call) calls

/-! ## One call -/

/-- The entries that have not expired are those of the record. -/
def Tracks (now : Rat) (m : Entries) (spent : Spent JsString Rat) : Prop :=
  ∀ nonce t, now < t → (m.lookup nonce = some t ↔ spent nonce = some t)

theorem Tracks.mono (h : Tracks now m spent) (hle : now ≤ now') : Tracks now' m spent :=
  fun nonce t hlt => h nonce t (lt_of_le_of_lt hle hlt)

theorem Tracks.live (h : Tracks now m spent) (nonce : JsString) :
    Expiry.live now m nonce = spent.live now nonce := by
  refine Option.ext fun t => ?_
  rw [Expiry.live_eq_some, Spent.live, Option.filter_eq_some_iff, decide_eq_true_eq]
  constructor
  · rintro ⟨hlookup, hlt⟩
    exact ⟨(h nonce t hlt).mp hlookup, hlt⟩
  · rintro ⟨hspent, hlt⟩
    exact ⟨(h nonce t hlt).mpr hspent, hlt⟩

theorem Tracks.insert (h : Tracks now m spent) (nonce : JsString) (expireAt : Rat) :
    Tracks now (m.insert nonce expireAt) (Function.update spent nonce (some expireAt)) := by
  intro k t hlt
  rw [Expiry.lookup_insert]
  by_cases hk : k = nonce
  · subst hk
    simp
  · simpa [hk] using h k t hlt

theorem Tracks.erase (h : Tracks now m spent) (nonce : JsString) :
    Tracks now (m.erase nonce) (Function.update spent nonce none) := by
  intro k t hlt
  rw [Expiry.lookup_erase]
  by_cases hk : k = nonce
  · subst hk
    simp
  · simpa [hk] using h k t hlt

theorem Tracks.purge (h : Tracks now m spent) : Tracks now (Expiry.purge now m) spent := by
  intro k t hlt
  rw [Expiry.lookup_purge, Expiry.live_eq_some, ← h k t hlt]
  exact and_iff_left hlt

theorem lookup_isSome (h : Swept now m nonce) :
    (m.lookup nonce).isSome = (Expiry.live now m nonce).isSome := by
  cases hlookup : m.lookup nonce with
  | none =>
      have hlive : Expiry.live now m nonce = none :=
        Expiry.live_eq_none.mpr fun t ht => by simp [hlookup] at ht
      rw [hlive]
  | some t => rw [Expiry.live_eq_some.mpr ⟨hlookup, h t hlookup⟩]

/-- An expired entry that is still there shows. -/
theorem lookup_isSome_iff :
    (m.lookup nonce).isSome = (Expiry.live now m nonce).isSome ↔ Swept now m nonce := by
  refine ⟨fun heq t ht => ?_, lookup_isSome⟩
  rw [ht] at heq
  obtain ⟨t', hlive⟩ := Option.isSome_iff_exists.mp heq.symm
  obtain ⟨ht', hlt⟩ := Expiry.live_eq_some.mp hlive
  rw [ht] at ht'
  exact Option.some.inj ht' ▸ hlt

/-- The rows that have not expired are those of the record, one for each text. -/
structure Holds (stored : JsString → JsString) (now : Rat) (rows : Entries)
    (spent : Spent JsString Rat) : Prop where
  live : ∀ k t, now < t → (rows.lookup k = some t ↔ ∃ n, stored n = k ∧ spent n = some t)
  one : ∀ n n' t t', stored n = stored n' → spent n = some t → spent n' = some t' →
    now < t → now < t' → n = n'

theorem live_eq_some {t : Rat} :
    spent.live now nonce = some t ↔ spent nonce = some t ∧ now < t := by
  rw [Spent.live, Option.filter_eq_some_iff, decide_eq_true_eq]

theorem Alone.absurd {n : JsString} {t : Rat} (h : Alone stored now spent nonce)
    (htext : stored n = stored nonce) (hspent : spent n = some t) (hlt : now < t) : n = nonce := by
  by_contra hne
  have := h n hne htext
  rw [live_eq_some.mpr ⟨hspent, hlt⟩] at this
  cases this

theorem Holds.mono (h : Holds stored now rows spent) (hle : now ≤ now') :
    Holds stored now' rows spent where
  live k t hlt := h.live k t (lt_of_le_of_lt hle hlt)
  one n n' t t' htext hn hn' hlt hlt' :=
    h.one n n' t t' htext hn hn' (lt_of_le_of_lt hle hlt) (lt_of_le_of_lt hle hlt')

theorem Holds.purge (h : Holds stored now rows spent) :
    Holds stored now (Expiry.purge now rows) spent where
  live k t hlt := by
    rw [Expiry.lookup_purge, Expiry.live_eq_some, ← h.live k t hlt]
    exact and_iff_left hlt
  one := h.one

theorem Holds.insert (h : Holds stored now rows spent) (halone : Alone stored now spent nonce) :
    Holds stored now (rows.insert (stored nonce) expireAt)
      (Function.update spent nonce (some expireAt)) where
  live k t hlt := by
    rw [Expiry.lookup_insert]
    split
    · next hk =>
        refine ⟨fun heq => ⟨nonce, hk.symm, by rw [Function.update_self, heq]⟩, ?_⟩
        rintro ⟨n, htext, hn⟩
        by_cases hne : n = nonce
        · rwa [hne, Function.update_self] at hn
        · rw [Function.update_of_ne hne] at hn
          exact absurd (halone.absurd (htext.trans hk) hn hlt) hne
    · next hk =>
        rw [h.live k t hlt]
        refine exists_congr fun n => and_congr_right fun htext => ?_
        rw [Function.update_of_ne fun hne => hk (by rw [← htext, hne])]
  one n n' t t' htext hn hn' hlt hlt' := by
    by_cases hne : n = nonce
    · by_cases hne' : n' = nonce
      · rw [hne, hne']
      · rw [Function.update_of_ne hne'] at hn'
        exact absurd (halone.absurd (hne ▸ htext.symm) hn' hlt') hne'
    · rw [Function.update_of_ne hne] at hn
      by_cases hne' : n' = nonce
      · exact absurd (halone.absurd (hne' ▸ htext) hn hlt) hne
      · rw [Function.update_of_ne hne'] at hn'
        exact h.one n n' t t' htext hn hn' hlt hlt'

theorem Holds.erase (h : Holds stored now rows spent) (halone : Alone stored now spent nonce) :
    Holds stored now (rows.erase (stored nonce)) (Function.update spent nonce none) where
  live k t hlt := by
    rw [Expiry.lookup_erase]
    split
    · next hk =>
        refine iff_of_false (fun heq => nomatch heq) ?_
        rintro ⟨n, htext, hn⟩
        by_cases hne : n = nonce
        · rw [hne, Function.update_self] at hn
          cases hn
        · rw [Function.update_of_ne hne] at hn
          exact hne (halone.absurd (htext.trans hk) hn hlt)
    · next hk =>
        rw [h.live k t hlt]
        refine exists_congr fun n => and_congr_right fun htext => ?_
        rw [Function.update_of_ne fun hne => hk (by rw [← htext, hne])]
  one n n' t t' htext hn hn' := by
    have hold : ∀ {n : JsString} {t : Rat}, Function.update spent nonce none n = some t →
        spent n = some t := by
      intro n t hn
      by_cases hne : n = nonce
      · rw [hne, Function.update_self] at hn
        cases hn
      · rwa [Function.update_of_ne hne] at hn
    exact h.one n n' t t' htext (hold hn) (hold hn')

/-- A row shows exactly the nonce of the call when it has not expired and no other nonce with
the text is spent. -/
theorem Holds.isSome_iff (h : Holds stored now rows spent) :
    (rows.lookup (stored nonce)).isSome = (spent.live now nonce).isSome ↔
      Swept now rows (stored nonce) ∧ Alone stored now spent nonce := by
  constructor
  · intro heq
    have hspent : ∀ {t}, rows.lookup (stored nonce) = some t →
        ∃ t', spent nonce = some t' ∧ now < t' := by
      intro t ht
      rw [ht] at heq
      obtain ⟨t', hlive⟩ := Option.isSome_iff_exists.mp heq.symm
      exact ⟨t', live_eq_some.mp hlive⟩
    refine ⟨fun t ht => ?_, fun n hne htext => ?_⟩
    · obtain ⟨t', ht', hlt⟩ := hspent ht
      have hrow := (h.live (stored nonce) t' hlt).mpr ⟨nonce, rfl, ht'⟩
      rw [ht] at hrow
      exact Option.some.inj hrow ▸ hlt
    · cases hlive : spent.live now n with
      | none => rfl
      | some t =>
          obtain ⟨hn, hlt⟩ := live_eq_some.mp hlive
          obtain ⟨t', ht', hlt'⟩ := hspent ((h.live (stored nonce) t hlt).mpr ⟨n, htext, hn⟩)
          exact absurd (h.one n nonce t t' htext hn ht' hlt hlt') hne
  · rintro ⟨hswept, halone⟩
    cases hrow : rows.lookup (stored nonce) with
    | none =>
        cases hlive : spent.live now nonce with
        | none => rfl
        | some t =>
            obtain ⟨ht, hlt⟩ := live_eq_some.mp hlive
            rw [(h.live (stored nonce) t hlt).mpr ⟨nonce, rfl, ht⟩] at hrow
            cases hrow
    | some t =>
        have hlt := hswept t hrow
        obtain ⟨n, htext, hn⟩ := (h.live (stored nonce) t hlt).mp hrow
        rw [live_eq_some.mpr ⟨halone.absurd htext hn hlt ▸ hn, hlt⟩]

theorem set_below (h : seen.entries.length < maxEntries) :
    set maxEntries seen nonce expireAt = some (seen.insert nonce expireAt) := by
  unfold set
  split
  · rfl
  · rw [if_neg (by omega)]

theorem memoryCheckAndInsert_below (h : seen.entries.length < maxEntries) :
    memoryCheckAndInsert maxEntries now seen nonce expireAt =
      if (Expiry.live now seen nonce).isSome then (.told false, seen)
      else (.told true, seen.insert nonce expireAt) := by
  have hlive : ((seen.lookup nonce).filter fun existing => existing > now) =
      Expiry.live now seen nonce := rfl
  rw [memoryCheckAndInsert, hlive]
  cases Expiry.live now seen nonce with
  | some t => rfl
  | none =>
      simp only [set_below h]
      rfl

theorem op_spend {call : Call} (h : call.op = some (.spend nonce expireAt)) :
    ∃ n e, call = .checkAndInsert n e ∧ validNonce n = some nonce ∧ e = some expireAt := by
  cases call with
  | checkAndInsert n e =>
      obtain ⟨x, hx, hmap⟩ := Option.bind_eq_some_iff.mp h
      obtain ⟨y, rfl, heq⟩ := Option.map_eq_some_iff.mp hmap
      injection heq with hxn hye
      exact ⟨n, some y, rfl, hxn ▸ hx, hye ▸ rfl⟩
  | release n =>
      obtain ⟨x, -, heq⟩ := Option.map_eq_some_iff.mp h
      cases heq
  | purgeExpired => cases h
  | sweep => cases h

theorem op_giveBack {call : Call} (h : call.op = some (.giveBack nonce)) :
    ∃ n, call = .release n ∧ validNonce n = some nonce := by
  cases call with
  | checkAndInsert n e =>
      obtain ⟨x, -, hmap⟩ := Option.bind_eq_some_iff.mp h
      obtain ⟨y, -, heq⟩ := Option.map_eq_some_iff.mp hmap
      cases heq
  | release n =>
      obtain ⟨x, hx, heq⟩ := Option.map_eq_some_iff.mp h
      injection heq with hxn
      exact ⟨n, rfl, hxn ▸ hx⟩
  | purgeExpired => cases h
  | sweep => cases h

/-- A call that is no operation changes nothing a record shows, and both backends
say the same of it, or only how much was purged. -/
theorem op_none {call : Call} (h : call.op = none) (hseen : Tracks now seen spent)
    (hrows : Holds stored now rows spent) :
    Tracks now (memoryBackend maxEntries now seen call).2 spent ∧
    Holds stored now (clusterBackend stored now rows call).2 spent ∧
    (((memoryBackend maxEntries now seen call).1.isPurged = true ∧
        (clusterBackend stored now rows call).1.isPurged = true) ∨
      ∃ code message, (memoryBackend maxEntries now seen call).1 = .rejected code message ∧
        (clusterBackend stored now rows call).1 = .rejected code message) := by
  cases call with
  | checkAndInsert n e =>
      cases hn : validNonce n with
      | none =>
          simp only [memoryBackend, clusterBackend, hn]
          exact ⟨hseen, hrows, .inr ⟨_, _, rfl, rfl⟩⟩
      | some nonce =>
          cases e with
          | none =>
              simp only [memoryBackend, clusterBackend, hn]
              exact ⟨hseen, hrows, .inr ⟨_, _, rfl, rfl⟩⟩
          | some expireAt => simp [Call.op, hn] at h
  | release n =>
      cases hn : validNonce n with
      | none =>
          simp only [memoryBackend, clusterBackend, hn]
          exact ⟨hseen, hrows, .inr ⟨_, _, rfl, rfl⟩⟩
      | some nonce => simp [Call.op, hn] at h
  | purgeExpired => exact ⟨hseen.purge, hrows.purge, .inl ⟨rfl, rfl⟩⟩
  | sweep => exact ⟨hseen.purge, hrows, .inl ⟨rfl, rfl⟩⟩

theorem memoryCheckAndInsert_tracks (h : Tracks now seen spent)
    (hbelow : seen.entries.length < maxEntries) :
    (memoryCheckAndInsert maxEntries now seen nonce expireAt).1 =
        .told (spent.step now (.spend nonce expireAt)).1 ∧
      Tracks now (memoryCheckAndInsert maxEntries now seen nonce expireAt).2
        (spent.step now (.spend nonce expireAt)).2 := by
  rw [memoryCheckAndInsert_below hbelow, Spent.step, ← h.live nonce]
  split
  · exact ⟨rfl, h⟩
  · exact ⟨rfl, h.insert nonce expireAt⟩

theorem clusterCheckAndInsert_told : (clusterCheckAndInsert rows nonce expireAt).1 =
    .told !(rows.lookup nonce).isSome := by
  unfold clusterCheckAndInsert
  split
  · next h => rw [h]; rfl
  · next h => rw [Bool.eq_false_iff.mpr h]; rfl

theorem spend_told : (spent.step now (.spend nonce expireAt)).1 =
    !(spent.live now nonce).isSome := by
  rw [Spent.step]
  split
  · next h => rw [h]; rfl
  · next h => rw [Bool.eq_false_iff.mpr h]; rfl

/-- The insert statement tells the truth exactly when no other row is in its way. -/
theorem clusterCheckAndInsert_iff (h : Holds stored now rows spent) :
    (!(rows.lookup (stored nonce)).isSome) = (spent.step now (.spend nonce expireAt)).1 ↔
      Swept now rows (stored nonce) ∧ Alone stored now spent nonce := by
  rw [spend_told, Bool.not_inj_iff]
  exact h.isSome_iff

theorem clusterCheckAndInsert_holds (h : Holds stored now rows spent)
    (hswept : Swept now rows (stored nonce)) (halone : Alone stored now spent nonce) :
    Holds stored now (clusterCheckAndInsert rows (stored nonce) expireAt).2
      (spent.step now (.spend nonce expireAt)).2 := by
  rw [clusterCheckAndInsert, Spent.step, h.isSome_iff.mpr ⟨hswept, halone⟩]
  split
  · exact h
  · exact h.insert halone

theorem deleteRow_iff (h : Holds stored now rows spent) :
    (rows.lookup (stored nonce)).isSome = (spent.step now (.giveBack nonce)).1 ↔
      Swept now rows (stored nonce) ∧ Alone stored now spent nonce := h.isSome_iff

theorem deleteNonce_iff (h : Tracks now m spent) :
    (deleteNonce m nonce).1 = .told (spent.step now (.giveBack nonce)).1 ↔ Swept now m nonce := by
  rw [deleteNonce, Spent.step, ← h.live nonce, Answer.told.injEq]
  exact lookup_isSome_iff

theorem deleteNonce_tracks (h : Tracks now m spent) :
    Tracks now (deleteNonce m nonce).2 (spent.step now (.giveBack nonce)).2 := h.erase nonce

/-! ## Sequences -/

/-- The answers about nonces are the same in both backends, and those of the record. -/
def Agree (stored : JsString → JsString) (maxEntries : Nat) (seen rows : Entries)
    (spent : Spent JsString Rat) (calls : List (Rat × Call)) : Prop :=
  answers (memoryBackend maxEntries) seen calls = answers (clusterBackend stored) rows calls ∧
  (answers (memoryBackend maxEntries) seen calls).filterMap Answer.told? =
    spent.answers (ops calls)

theorem answers_cons (backend : Rat → Entries → Call → Answer × Entries) (m : Entries)
    (now : Rat) (call : Call) (calls : List (Rat × Call)) :
    answers backend m ((now, call) :: calls) =
      if (backend now m call).1.isPurged then answers backend (backend now m call).2 calls
      else (backend now m call).1 :: answers backend (backend now m call).2 calls := by
  simp only [answers, play, List.filter_cons]
  cases (backend now m call).1.isPurged <;> rfl

theorem ops_cons (now : Rat) (call : Call) (calls : List (Rat × Call)) :
    ops ((now, call) :: calls) = (call.op.map fun op => (now, op)).toList ++ ops calls := by
  unfold ops
  rw [List.filterMap_cons]
  cases call.op <;> rfl

theorem agree_none {call : Call} {calls : List (Rat × Call)} (h : call.op = none)
    (hseen : Tracks now seen spent) (hrows : Holds stored now rows spent) :
    Agree stored maxEntries seen rows spent ((now, call) :: calls) ↔
      Agree stored maxEntries (memoryBackend maxEntries now seen call).2
        (clusterBackend stored now rows call).2 spent calls := by
  unfold Agree
  rw [answers_cons, answers_cons, ops_cons, h]
  obtain ⟨-, -, ⟨hpurged, hpurged'⟩ | ⟨code, message, hmemory, hcluster⟩⟩ :=
    @op_none maxEntries _ _ _ _ _ _ h hseen hrows
  · rw [if_pos hpurged, if_pos hpurged']
    rfl
  · rw [hmemory, hcluster]
    simp only [Answer.isPurged, Bool.false_eq_true, if_false, List.cons.injEq, true_and]
    rw [List.filterMap_cons_none rfl]
    rfl

theorem agree_told {call : Call} {op : Op JsString Rat} {calls : List (Rat × Call)} {b b' : Bool}
    (h : call.op = some op) (hmemory : (memoryBackend maxEntries now seen call).1 = .told b)
    (hcluster : (clusterBackend stored now rows call).1 = .told b') :
    Agree stored maxEntries seen rows spent ((now, call) :: calls) ↔
      (b = (spent.step now op).1 ∧ b' = (spent.step now op).1) ∧
      Agree stored maxEntries (memoryBackend maxEntries now seen call).2
        (clusterBackend stored now rows call).2 (spent.step now op).2 calls := by
  unfold Agree
  rw [answers_cons, answers_cons, ops_cons, h, hmemory, hcluster]
  simp only [Answer.isPurged, Bool.false_eq_true, if_false, List.filterMap_cons, Answer.told?,
    Option.map_some, Option.toList_some, List.singleton_append, Spent.answers, List.cons.injEq,
    Answer.told.injEq]
  constructor
  · rintro ⟨⟨rfl, hrest⟩, rfl, hspent⟩
    exact ⟨⟨rfl, rfl⟩, hrest, hspent⟩
  · rintro ⟨⟨rfl, rfl⟩, hrest, hspent⟩
    exact ⟨⟨rfl, hrest⟩, rfl, hspent⟩

/-- What a call that is an operation does in both backends. -/
theorem op_some {call : Call} {op : Op JsString Rat} (h : call.op = some op)
    (hbelow : ∀ n e, call = .checkAndInsert n e → seen.entries.length < maxEntries)
    (hseen : Tracks now seen spent) (hrows : Holds stored now rows spent) :
    ∃ b b', (memoryBackend maxEntries now seen call).1 = .told b ∧
      (clusterBackend stored now rows call).1 = .told b' ∧
      (b = (spent.step now op).1 ∧ b' = (spent.step now op).1 ↔
        Timely stored now seen rows spent call) ∧
      Tracks now (memoryBackend maxEntries now seen call).2 (spent.step now op).2 ∧
      (Timely stored now seen rows spent call →
        Holds stored now (clusterBackend stored now rows call).2 (spent.step now op).2) := by
  unfold Timely
  rw [h]
  cases op with
  | spend nonce expireAt =>
      obtain ⟨n, e, rfl, hn, rfl⟩ := op_spend h
      obtain ⟨hanswer, htracks⟩ :=
        @memoryCheckAndInsert_tracks _ _ nonce expireAt _ _ hseen (hbelow n _ rfl)
      simp only [memoryBackend, clusterBackend, hn]
      refine ⟨_, _, hanswer, clusterCheckAndInsert_told, ?_, htracks,
        fun htimely => clusterCheckAndInsert_holds hrows htimely.1 htimely.2⟩
      rw [clusterCheckAndInsert_iff hrows]
      exact and_iff_right rfl
  | giveBack nonce =>
      obtain ⟨n, rfl, hn⟩ := op_giveBack h
      simp only [memoryBackend, clusterBackend, hn]
      refine ⟨_, _, rfl, rfl, ?_, deleteNonce_tracks hseen, fun htimely =>
        hrows.erase htimely.2.2⟩
      rw [deleteRow_iff hrows, ← deleteNonce_iff hseen, deleteNonce, Answer.told.injEq]

/-- What holds of the backends and the calls that are still to come. -/
structure Synced (stored : JsString → JsString) (maxEntries : Nat) (now : Rat)
    (seen rows : Entries) (spent : Spent JsString Rat) (calls : List (Rat × Call)) : Prop where
  map : Tracks now seen spent
  table : Holds stored now rows spent
  times : ∀ c ∈ calls, now ≤ c.1
  sorted : calls.Pairwise fun c d => c.1 ≤ d.1
  below : Below maxEntries seen calls

/-- After a call that is timely, and it is if it gives the right answers. -/
theorem Synced.step {call : Call} {calls : List (Rat × Call)}
    (h : Synced stored maxEntries now seen rows spent ((now', call) :: calls)) :
    (Agree stored maxEntries seen rows spent ((now', call) :: calls) ↔
      Timely stored now' seen rows spent call ∧
        Agree stored maxEntries (memoryBackend maxEntries now' seen call).2
          (clusterBackend stored now' rows call).2 (after now' spent call) calls) ∧
    (Timely stored now' seen rows spent call →
      (∀ b, (clusterBackend stored now' rows call).1 = .told b →
        (memoryBackend maxEntries now' seen call).1 = .told b) ∧
      Synced stored maxEntries now' (memoryBackend maxEntries now' seen call).2
        (clusterBackend stored now' rows call).2 (after now' spent call) calls) := by
  obtain ⟨hlater, hsorted⟩ := List.pairwise_cons.mp h.sorted
  have hle : now ≤ now' := h.times _ List.mem_cons_self
  have hseen := h.map.mono hle
  have hrows := h.table.mono hle
  rw [after]
  cases hop : call.op with
  | none =>
      obtain ⟨hseen', hrows', hanswers⟩ := @op_none maxEntries _ _ _ _ _ _ hop hseen hrows
      have htimely : Timely stored now' seen rows spent call := by simp [Timely, hop]
      refine ⟨(agree_none hop hseen hrows).trans (and_iff_right htimely).symm, fun _ =>
        ⟨fun b hb => ?_, hseen', hrows', hlater, hsorted, h.below.2⟩⟩
      rcases hanswers with ⟨-, hpurged⟩ | ⟨code, message, -, hrejected⟩
      · rw [hb] at hpurged
        cases hpurged
      · rw [hb] at hrejected
        cases hrejected
  | some op =>
      obtain ⟨b, b', hb, hb', hiff, hseen', hrows'⟩ := op_some hop h.below.1 hseen hrows
      refine ⟨(agree_told hop hb hb').trans (and_congr_left fun _ => hiff), fun htimely =>
        ⟨fun b'' hb'' => ?_, hseen', hrows' htimely, hlater, hsorted, h.below.2⟩⟩
      obtain ⟨rfl, rfl⟩ := hiff.mpr htimely
      rw [hb, ← hb', hb'']

theorem agree_iff_prompt (calls : List (Rat × Call))
    (h : Synced stored maxEntries now seen rows spent calls) :
    Agree stored maxEntries seen rows spent calls ↔
      Prompt stored maxEntries seen rows spent calls := by
  induction calls generalizing now seen rows spent with
  | nil => exact iff_of_true ⟨rfl, rfl⟩ trivial
  | cons c calls ih =>
      obtain ⟨now', call⟩ := c
      rw [h.step.1, Prompt]
      exact and_congr_right fun htimely => ih (h.step.2 htimely).2

/-- The calls of a prompt sequence leave the backends in step. -/
theorem Synced.play (calls : List (Rat × Call)) {rest : List (Rat × Call)}
    (h : Synced stored maxEntries now seen rows spent (calls ++ rest))
    (hprompt : Prompt stored maxEntries seen rows spent (calls ++ rest)) :
    ∃ now' spent', Synced stored maxEntries now'
        (NonceStore.play (memoryBackend maxEntries) seen calls).2
        (NonceStore.play (clusterBackend stored) rows calls).2 spent' rest ∧
      Prompt stored maxEntries (NonceStore.play (memoryBackend maxEntries) seen calls).2
        (NonceStore.play (clusterBackend stored) rows calls).2 spent' rest := by
  induction calls generalizing now seen rows spent with
  | nil => exact ⟨now, spent, h, hprompt⟩
  | cons c calls ih =>
      obtain ⟨now', call⟩ := c
      exact ih (h.step.2 hprompt.1).2 hprompt.2

/-! ## Between two inserts -/

/-- A backend never deletes or overwrites an entry that has not expired, a release
of it apart, and never accepts its nonce. -/
structure Keeps (key : JsString → JsString)
    (backend : Rat → Entries → Call → Answer × Entries) : Prop where
  entry : ∀ {now m call k e}, m.lookup k = some e →
    (backend now m call).2.lookup k = some e ∨ e ≤ now ∨
      ∃ n nonce, call = .release n ∧ validNonce n = some nonce ∧ key nonce = k
  refuses : ∀ {now m n nonce e expireAt}, validNonce n = some nonce →
    m.lookup (key nonce) = some e →
    (backend now m (.checkAndInsert n expireAt)).1 = .told true → e ≤ now
  inserts : ∀ {now m n expireAt}, (backend now m (.checkAndInsert n expireAt)).1 = .told true →
    ∃ nonce e, validNonce n = some nonce ∧ expireAt = some e ∧
      (backend now m (.checkAndInsert n expireAt)).2.lookup (key nonce) = some e

theorem lookup_insert_or {k : JsString} {e : Rat} (h : m.lookup nonce = some e) :
    (m.insert k expireAt).lookup nonce = some e ∨ k = nonce := by
  by_cases hk : nonce = k
  · exact .inr hk.symm
  · exact .inl ((AList.lookup_insert_ne hk).trans h)

theorem lookup_purge_or {e : Rat} (h : m.lookup nonce = some e) :
    (Expiry.purge now m).lookup nonce = some e ∨ e ≤ now := by
  rcases lt_or_ge now e with hlt | hle
  · exact .inl (Expiry.lookup_purge.trans (Expiry.live_eq_some.mpr ⟨h, hlt⟩))
  · exact .inr hle

theorem deleteNonce_keeps {key : JsString → JsString} {n : Option JsString} {k : JsString}
    {e : Rat} (hn : validNonce n = some nonce) (h : m.lookup k = some e) :
    (deleteNonce m (key nonce)).2.lookup k = some e ∨ e ≤ now ∨
      ∃ n' nonce', Call.release n = .release n' ∧ validNonce n' = some nonce' ∧
        key nonce' = k := by
  by_cases hk : k = key nonce
  · exact .inr (.inr ⟨n, nonce, rfl, hn, hk.symm⟩)
  · exact .inl ((AList.lookup_erase_ne hk).trans h)

theorem set_eq {m' : Entries} (h : set maxEntries m nonce expireAt = some m') :
    m' = m.insert nonce expireAt := by
  unfold set at h
  split at h
  · exact (Option.some.inj h).symm
  · split at h
    · cases h
    · exact (Option.some.inj h).symm

/-- What `checkAndInsert` of the memory backend does: refuse, insert, or, when the
map is full, insert after a purge or give up. -/
theorem memoryCheckAndInsert_cases :
    ((∃ e, m.lookup nonce = some e ∧ now < e) ∧
      memoryCheckAndInsert maxEntries now m nonce expireAt = (.told false, m)) ∨
    ((∀ e, m.lookup nonce = some e → e ≤ now) ∧
      (memoryCheckAndInsert maxEntries now m nonce expireAt =
          (.told true, m.insert nonce expireAt) ∨
        memoryCheckAndInsert maxEntries now m nonce expireAt =
          (.told true, (Expiry.purge now m).insert nonce expireAt) ∨
        memoryCheckAndInsert maxEntries now m nonce expireAt =
          (.told false, Expiry.purge now m))) := by
  have hlive : ((m.lookup nonce).filter fun existing => existing > now) =
      Expiry.live now m nonce := rfl
  rw [memoryCheckAndInsert, hlive]
  cases hlive : Expiry.live now m nonce with
  | some e => exact .inl ⟨⟨e, Expiry.live_eq_some.mp hlive⟩, rfl⟩
  | none =>
      refine .inr ⟨Expiry.live_eq_none.mp hlive, ?_⟩
      cases hset : set maxEntries m nonce expireAt with
      | some m' => exact .inl (by rw [set_eq hset])
      | none =>
          cases hagain : set maxEntries (Expiry.purge now m) nonce expireAt with
          | some m' => exact .inr (.inl (by simp only; rw [hagain, set_eq hagain]))
          | none => exact .inr (.inr (by simp only; rw [hagain]))

theorem memory_keeps : Keeps id (memoryBackend maxEntries) where
  entry := by
    intro now m call nonce e h
    cases call with
    | checkAndInsert n expireAt =>
        cases hn : validNonce n with
        | none => exact .inl (by simpa [memoryBackend, hn] using h)
        | some k =>
            cases expireAt with
            | none => exact .inl (by simpa [memoryBackend, hn] using h)
            | some t =>
                simp only [memoryBackend, hn]
                obtain ⟨-, heq⟩ | ⟨hexpired, heq | heq | heq⟩ :=
                  @memoryCheckAndInsert_cases maxEntries now k t m <;> rw [heq]
                · exact .inl h
                · rcases @lookup_insert_or _ t _ k _ h with hold | rfl
                  · exact .inl hold
                  · exact .inr (.inl (hexpired e h))
                · rcases @lookup_purge_or now _ _ _ h with hkept | hle
                  · rcases @lookup_insert_or _ t _ k _ hkept with hold | rfl
                    · exact .inl hold
                    · exact .inr (.inl (hexpired e h))
                  · exact .inr (.inl hle)
                · exact (lookup_purge_or h).imp_right .inl
    | release n =>
        cases hn : validNonce n with
        | none => exact .inl (by simpa [memoryBackend, hn] using h)
        | some k =>
            simp only [memoryBackend, hn]
            exact @deleteNonce_keeps _ _ _ id _ _ _ hn h
    | purgeExpired => exact (lookup_purge_or h).imp_right .inl
    | sweep => exact (lookup_purge_or h).imp_right .inl
  refuses := by
    intro now m n nonce e expireAt hn h htrue
    cases expireAt with
    | none => simp [memoryBackend, hn, invalidExpire] at htrue
    | some t =>
        simp only [memoryBackend, hn] at htrue
        obtain ⟨-, heq⟩ | ⟨hexpired, -⟩ :=
          @memoryCheckAndInsert_cases maxEntries now nonce t m
        · rw [heq] at htrue
          simp at htrue
        · exact hexpired e h
  inserts := by
    intro now m n expireAt htrue
    cases hn : validNonce n with
    | none => simp [memoryBackend, hn, invalidNonce] at htrue
    | some nonce =>
        cases expireAt with
        | none => simp [memoryBackend, hn, invalidExpire] at htrue
        | some t =>
            refine ⟨nonce, t, rfl, rfl, ?_⟩
            simp only [memoryBackend, hn] at htrue ⊢
            obtain ⟨-, heq⟩ | ⟨-, heq | heq | heq⟩ :=
              @memoryCheckAndInsert_cases maxEntries now nonce t m <;> rw [heq] at htrue ⊢
            · simp at htrue
            · exact AList.lookup_insert m
            · exact AList.lookup_insert _
            · simp at htrue

theorem cluster_keeps : Keeps stored (clusterBackend stored) where
  entry := by
    intro now m call nonce e h
    cases call with
    | checkAndInsert n expireAt =>
        cases hn : validNonce n with
        | none => exact .inl (by simpa [clusterBackend, hn] using h)
        | some k =>
            cases expireAt with
            | none => exact .inl (by simpa [clusterBackend, hn] using h)
            | some t =>
                refine .inl ?_
                simp only [clusterBackend, hn, clusterCheckAndInsert]
                split
                · exact h
                · next habsent =>
                    refine (AList.lookup_insert_ne fun hk => ?_).trans h
                    subst hk
                    simp [h] at habsent
    | release n =>
        cases hn : validNonce n with
        | none => exact .inl (by simpa [clusterBackend, hn] using h)
        | some k =>
            simp only [clusterBackend, hn]
            exact deleteNonce_keeps hn h
    | purgeExpired => exact (lookup_purge_or h).imp_right .inl
    | sweep => exact .inl h
  refuses := by
    intro now m n nonce e expireAt hn h htrue
    cases expireAt with
    | none => simp [clusterBackend, hn, invalidExpire] at htrue
    | some t => simp [clusterBackend, hn, clusterCheckAndInsert_told, h] at htrue
  inserts := by
    intro now m n expireAt htrue
    cases hn : validNonce n with
    | none => simp [clusterBackend, hn, invalidNonce] at htrue
    | some nonce =>
        cases expireAt with
        | none => simp [clusterBackend, hn, invalidExpire] at htrue
        | some t =>
            refine ⟨nonce, t, rfl, rfl, ?_⟩
            simp only [clusterBackend, hn, clusterCheckAndInsert] at htrue ⊢
            split at htrue
            · simp at htrue
            · next habsent =>
                rw [if_neg habsent]
                exact AList.lookup_insert m

/-- From an insert to the next of the same nonce there is a release of it, or of one with
the same key, or it has expired. -/
def Spaced (key : JsString → JsString) (backend : Rat → Entries → Call → Answer × Entries)
    (m : Entries) : Prop :=
  ∀ first second mid nonce e e',
    ((first, Call.checkAndInsert nonce e) :: mid ++
      [(second, Call.checkAndInsert nonce e')]).Pairwise (fun c d => c.1 ≤ d.1) →
    (backend first m (.checkAndInsert nonce e)).1 = .told true →
    (backend second (play backend (backend first m (.checkAndInsert nonce e)).2 mid).2
      (.checkAndInsert nonce e')).1 = .told true →
    (∃ c ∈ mid, ∃ n, c.2 = .release n ∧ (validNonce n).map key = (validNonce nonce).map key) ∨
      ∃ t, e = some t ∧ t ≤ second

theorem Keeps.run {key : JsString → JsString}
    {backend : Rat → Entries → Call → Answer × Entries} (hkeeps : Keeps key backend) {k : JsString}
    {e : Rat} (mid : List (Rat × Call)) (h : m.lookup k = some e)
    (hbefore : ∀ c ∈ mid, c.1 ≤ now) :
    (play backend m mid).2.lookup k = some e ∨ e ≤ now ∨
      ∃ c ∈ mid, ∃ n, c.2 = .release n ∧ (validNonce n).map key = some k := by
  induction mid generalizing m with
  | nil => exact .inl h
  | cons c mid ih =>
      obtain ⟨at', call⟩ := c
      rcases @Keeps.entry _ _ hkeeps at' _ call _ _ h with hkept | hle | ⟨n, nonce, rfl, hn, hkey⟩
      · rcases ih hkept fun d hd => hbefore d (List.mem_cons_of_mem _ hd) with
          hlast | hle | ⟨d, hd, hrelease⟩
        · exact .inl hlast
        · exact .inr (.inl hle)
        · exact .inr (.inr ⟨d, List.mem_cons_of_mem _ hd, hrelease⟩)
      · exact .inr (.inl (le_trans hle (hbefore _ List.mem_cons_self)))
      · exact .inr (.inr ⟨_, List.mem_cons_self, n, rfl, by rw [hn, Option.map_some, hkey]⟩)

theorem Keeps.spaced {key : JsString → JsString}
    {backend : Rat → Entries → Call → Answer × Entries} (hkeeps : Keeps key backend)
    (m : Entries) : Spaced key backend m := by
  intro first second mid nonce e e' hsorted hfirst hsecond
  obtain ⟨k, t, hk, rfl, hlookup⟩ := hkeeps.inserts hfirst
  have hbefore : ∀ c ∈ mid, c.1 ≤ second := by
    have := (List.pairwise_append.mp (List.pairwise_cons.mp hsorted).2).2.2
    exact fun c hc => this c hc _ List.mem_cons_self
  rcases hkeeps.run mid hlookup hbefore with hkept | hle | ⟨c, hc, n, hn, hnonce⟩
  · exact .inr ⟨t, rfl, hkeeps.refuses hk hkept hsecond⟩
  · exact .inr ⟨t, rfl, hle⟩
  · exact .inl ⟨c, hc, n, hn, by rw [hnonce, hk, Option.map_some]⟩

/-- The same of the table, in a sequence that is prompt: it is a release of the nonce itself. -/
theorem cluster_spaced {pre mid post : List (Rat × Call)} {first second : Rat}
    {n : Option JsString} {e e' : Option Rat}
    (h : Synced stored maxEntries now seen rows spent
      (pre ++ (first, .checkAndInsert n e) :: (mid ++ (second, .checkAndInsert n e') :: post)))
    (hprompt : Prompt stored maxEntries seen rows spent
      (pre ++ (first, .checkAndInsert n e) :: (mid ++ (second, .checkAndInsert n e') :: post)))
    (hfirst : (clusterBackend stored first (play (clusterBackend stored) rows pre).2
      (.checkAndInsert n e)).1 = .told true)
    (hsecond : (clusterBackend stored second (play (clusterBackend stored)
      (clusterBackend stored first (play (clusterBackend stored) rows pre).2
        (.checkAndInsert n e)).2 mid).2 (.checkAndInsert n e')).1 = .told true) :
    (∃ c ∈ mid, ∃ r, c.2 = .release r ∧ validNonce r = validNonce n) ∨
      ∃ t, e = some t ∧ t ≤ second := by
  obtain ⟨now₁, spent₁, h₁, hprompt₁⟩ := h.play pre hprompt
  obtain ⟨hsame₁, h₂⟩ := h₁.step.2 hprompt₁.1
  obtain ⟨now₃, spent₃, h₃, hprompt₃⟩ := h₂.play mid hprompt₁.2
  obtain ⟨hsame₃, -⟩ := h₃.step.2 hprompt₃.1
  have hsorted := h₁.sorted
  rw [← List.cons_append, List.append_cons] at hsorted
  have hkeeps : Keeps id (memoryBackend maxEntries) := memory_keeps
  have hspaced := hkeeps.spaced _ first second mid n e e'
    (List.pairwise_append.mp hsorted).1 (hsame₁ _ hfirst) (hsame₃ _ hsecond)
  simpa only [Option.map_id, id] using hspaced

/-! ## The store -/

theorem ops_filter (calls : List (Rat × Call)) :
    ops (calls.filter fun c => !c.2.purges) = ops calls := by
  unfold ops
  rw [List.filterMap_filter]
  refine List.filterMap_congr fun c _ => ?_
  obtain ⟨now, call⟩ := c
  cases call <;> rfl

/-- From empty backends, below the capacity, both answer as the record of spent
values does exactly when no call meets an expired entry that is still there or a row of
another nonce. The record is asked the same whatever is purged in between. The map accepts
no nonce twice without a release or the expiry in between, and nor does the table in such
sequences. -/
theorem backends_agree (calls : List (Rat × Call)) (hsorted : calls.Pairwise fun c d => c.1 ≤ d.1)
    (hbelow : Below maxEntries ∅ calls) :
    (Agree stored maxEntries ∅ ∅ (fun _ => none) calls ↔
      Prompt stored maxEntries ∅ ∅ (fun _ => none) calls) ∧
    (∀ calls', (calls'.filter fun c => !c.2.purges) = (calls.filter fun c => !c.2.purges) →
      ops calls' = ops calls) ∧
    (∀ m, Spaced id (memoryBackend maxEntries) m ∧ Spaced stored (clusterBackend stored) m) ∧
    (Prompt stored maxEntries ∅ ∅ (fun _ => none) calls →
      ∀ pre first n e mid second e' post,
        calls = pre ++ (first, .checkAndInsert n e) ::
          (mid ++ (second, .checkAndInsert n e') :: post) →
        (clusterBackend stored first (play (clusterBackend stored) ∅ pre).2
          (.checkAndInsert n e)).1 = .told true →
        (clusterBackend stored second (play (clusterBackend stored)
          (clusterBackend stored first (play (clusterBackend stored) ∅ pre).2
            (.checkAndInsert n e)).2 mid).2 (.checkAndInsert n e')).1 = .told true →
        (∃ c ∈ mid, ∃ r, c.2 = .release r ∧ validNonce r = validNonce n) ∨
          ∃ t, e = some t ∧ t ≤ second) := by
  have hsynced : ∃ now, Synced stored maxEntries now ∅ ∅ (fun _ => none) calls := by
    have htracks : ∀ now, Tracks now (∅ : Entries) fun _ => none := fun _ _ _ _ => by simp
    have hholds : ∀ now, Holds stored now (∅ : Entries) fun _ => none := fun _ =>
      ⟨fun _ _ _ => by simp, fun _ _ _ _ _ hn => nomatch hn⟩
    cases calls with
    | nil => exact ⟨0, htracks 0, hholds 0, fun _ hc => (nomatch hc), .nil, trivial⟩
    | cons c calls =>
        refine ⟨c.1, htracks _, hholds _, fun d hd => ?_, hsorted, hbelow⟩
        rcases List.mem_cons.mp hd with rfl | hd
        · exact le_refl _
        · exact (List.pairwise_cons.mp hsorted).1 d hd
  obtain ⟨now, hsynced⟩ := hsynced
  refine ⟨agree_iff_prompt calls hsynced, fun calls' hsame => ?_, fun m =>
    ⟨memory_keeps.spaced m, cluster_keeps.spaced m⟩, ?_⟩
  · rw [← ops_filter calls', hsame, ops_filter]
  · rintro hprompt pre first n e mid second e' post rfl hfirst hsecond
    exact cluster_spaced hsynced hprompt hfirst hsecond

/-- A nonce is checked, checked again while it is spent, released, and checked after
the purge that follows its expiry. -/
def promptCalls : List (Rat × Call) :=
  [(0, .checkAndInsert (some (units "n")) (some 10)),
    (5, .checkAndInsert (some (units "n")) (some 15)), (6, .release (some (units "n"))),
    (7, .checkAndInsert (some (units "n")) (some 17)), (17, .purgeExpired),
    (17, .checkAndInsert (some (units "n")) (some 27))]

theorem swept_of_all (h : (m.lookup nonce).all (fun t => decide (now < t)) = true) :
    Swept now m nonce := by
  intro t ht
  simpa [ht] using h

/-- Nothing is spent but one nonce. -/
def Only (spent : Spent JsString Rat) (nonce : JsString) : Prop := ∀ n, n ≠ nonce → spent n = none

theorem Only.alone (h : Only spent nonce) : Alone stored now spent nonce := fun n hne _ => by
  rw [Spent.live, h n hne, Option.filter_none]

theorem Only.after {call : Call} (h : Only spent (units "n"))
    (hcall : call ∈ promptCalls.map Prod.snd) : Only (after now spent call) (units "n") := by
  intro n hne
  have hcases : call.op = none ∨ call.op = some (.giveBack (units "n")) ∨
      ∃ t, call.op = some (.spend (units "n") t) := by
    simp only [promptCalls, List.map_cons, List.map_nil, List.mem_cons, List.not_mem_nil,
      or_false] at hcall
    rcases hcall with rfl | rfl | rfl | rfl | rfl | rfl
    · exact .inr (.inr ⟨10, rfl⟩)
    · exact .inr (.inr ⟨15, rfl⟩)
    · exact .inr (.inl rfl)
    · exact .inr (.inr ⟨17, rfl⟩)
    · exact .inl rfl
    · exact .inr (.inr ⟨27, rfl⟩)
  rw [NonceStore.after]
  rcases hcases with hop | hop | ⟨t, hop⟩
  · rw [hop]
    exact h n hne
  · rw [hop]
    exact (Function.update_of_ne hne _ _).trans (h n hne)
  · rw [hop]
    dsimp only [Spent.step]
    split
    · exact h n hne
    · exact (Function.update_of_ne hne _ _).trans (h n hne)

theorem backends_agree_prompt : Agree toWellFormed 2 ∅ ∅ (fun _ => none) promptCalls := by
  refine (backends_agree promptCalls ?_ ?_).1.mpr ?_
  · simp only [promptCalls]
    decide
  · exact ⟨fun _ _ _ => by decide, fun _ _ _ => by decide, fun _ _ h => (nomatch h),
      fun _ _ _ => by decide, fun _ _ h => (nomatch h), fun _ _ _ => by decide, trivial⟩
  · have h₀ : Only (fun _ => none) (units "n") := fun _ _ => rfl
    have h₁ := @Only.after 0 _ _ h₀ (.head _)
    have h₂ := @Only.after 5 _ _ h₁ (.tail _ (.head _))
    have h₃ := @Only.after 6 _ _ h₂ (.tail _ (.tail _ (.head _)))
    have h₄ := @Only.after 7 _ _ h₃ (.tail _ (.tail _ (.tail _ (.head _))))
    have h₅ := @Only.after 17 _ _ h₄ (.tail _ (.tail _ (.tail _ (.tail _ (.head _)))))
    exact ⟨⟨swept_of_all (by decide), h₀.alone⟩, ⟨swept_of_all (by decide), h₁.alone⟩,
      ⟨swept_of_all (by decide), swept_of_all (by decide), h₂.alone⟩,
      ⟨swept_of_all (by decide), h₃.alone⟩, trivial, ⟨swept_of_all (by decide), h₅.alone⟩, trivial⟩

/-- The same nonce is checked and released after its expiry, before a purge. -/
def lateCheck : List (Rat × Call) :=
  [(0, .checkAndInsert (some (units "n")) (some 10)),
    (10, .checkAndInsert (some (units "n")) (some 20))]

def lateRelease (purges : List (Rat × Call)) : List (Rat × Call) :=
  [(0, .checkAndInsert (some (units "n")) (some 10))] ++ purges ++
    [(10, .release (some (units "n")))]

/-- Two lone surrogates, which a database has as the one text U+FFFD. -/
def oneText : List (Rat × Call) :=
  [(0, .checkAndInsert (some [0xD800]) (some 10)), (1, .checkAndInsert (some [0xDFFF]) (some 10))]

theorem late_calls_differ :
    Below 2 ∅ lateCheck ∧ Below 2 ∅ (lateRelease []) ∧
    answers (memoryBackend 2) ∅ lateCheck = [.told true, .told true] ∧
    answers (clusterBackend toWellFormed) ∅ lateCheck = [.told true, .told false] ∧
    answers (memoryBackend 2) ∅ (lateRelease []) = [.told true, .told true] ∧
    answers (memoryBackend 2) ∅ (lateRelease [(10, .purgeExpired)]) = [.told true, .told false] ∧
    answers (memoryBackend 2) ∅ oneText = [.told true, .told true] ∧
    answers (clusterBackend toWellFormed) ∅ oneText = [.told true, .told false] :=
  ⟨⟨fun _ _ _ => by decide, fun _ _ _ => by decide, trivial⟩,
    ⟨fun _ _ _ => by decide, fun _ _ h => (nomatch h), trivial⟩,
    by decide, by decide, by decide, by decide, by decide, by decide⟩

end Blamejs.NonceStore
