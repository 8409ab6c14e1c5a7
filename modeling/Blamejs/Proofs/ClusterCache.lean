import Blamejs.Proofs.MemoryCache
import Blamejs.Ref.ClusterCache

/-!
# Both backends update an entry atomically

The memory backend does so because `update` runs to its end. For the cluster
backend the statement that answers is the moment a call takes effect: until then
it has only read. `Matches` says what the first statement of an attempt leaves
behind, and that the row is still as it was read unless another writer has been
there; so a condition on the text that fails is another writer's doing, and five
of those make a call give up.

The condition on the text is not the condition on the live value. A row that has
expired and was not swept is null to the mutator and in the way of the insert; a
row that has gone under a delete, or has come back with the same text and
expired, is not what the mutator decided on. `Timely` is that the second
statement of an attempt does not meet such a row.
-/

namespace Blamejs.ClusterCache

open Blamejs.Js AtomicEntry MemoryCache Run

variable {V D X : Type} {c : Codec V X}

/-! ## The entry in a row -/

theorem Codec.decode_encode (c : Codec V X) (x : Option X) (value : V) :
    c.decode (c.encode x value) = some value := by
  cases x with
  | none =>
      rw [Codec.encode, Codec.decode, if_neg (c.plain value)]
      exact c.parse_stringify value
  | some x =>
      rw [Codec.encode, Codec.decode, if_pos (List.prefix_append _ _), List.drop_left,
        c.unseal_seal]
      exact c.parse_stringify value

/-- A row as an entry. -/
def Codec.view (c : Codec V X) (row : Option Row) : Option (Entry V) :=
  row.bind fun r => (c.decode r.valueJson).map fun value => ⟨value, r.expiresAt⟩

theorem Codec.view_some (c : Codec V X) {r : Row} {value : V}
    (h : c.decode r.valueJson = some value) : c.view (some r) = some ⟨value, r.expiresAt⟩ := by
  show (c.decode r.valueJson).map _ = _
  rw [h]
  rfl

theorem live_some {now : Int} {e : Entry V} (h : now < e.expiresAt) :
    live now (some e) = some e.value := by
  have hfilter : (some e).filter (fun e => now < e.expiresAt) = some e :=
    Option.filter_some_pos (decide_eq_true h)
  rw [live, hfilter]
  rfl

theorem live_expired {now : Int} {e : Entry V} (h : e.expiresAt ≤ now) :
    live now (some e) = none := by
  have hfilter : (some e).filter (fun e => now < e.expiresAt) = none :=
    Option.filter_some_neg (decide_eq_false (Int.not_lt.mpr h))
  rw [live, hfilter]
  rfl

/-- No row, or one that has expired. -/
def Expired (now : Int) (row : Option Row) : Prop := ∀ r, row = some r → r.expiresAt ≤ now

theorem expired_none (now : Int) : Expired now none := fun _ hr =>
  (Option.some_ne_none _ hr.symm).elim

theorem expired_some {now : Int} {r : Row} (h : r.expiresAt ≤ now) : Expired now (some r) := by
  intro r' hr'
  injection hr' with hr'
  exact hr' ▸ h

theorem Expired.live {now : Int} {row : Option Row} (h : Expired now row) :
    live now (c.view row) = none := by
  cases row with
  | none => rfl
  | some r =>
      cases hv : c.decode r.valueJson with
      | none =>
          show AtomicEntry.live now ((c.decode r.valueJson).map _) = none
          rw [hv]
          rfl
      | some value =>
          rw [c.view_some hv]
          exact live_expired (h r rfl)

/-! ## The condition -/

/-- The second statement of an attempt does not meet a row that has expired, nor
a delete one that is live with another text; without a live row the mutator
deletes too. -/
def Timely (s : St V D) : Action V D X → Prop
  | .write w =>
      match s.calls w with
      | .deleting call now oldRaw =>
          (∀ r, s.row = some r → now.val < r.expiresAt → r.valueJson = oldRaw) ∧
            (Expired now.val s.row → call.mutatorFn none = some .delete)
      | .inserting _ _ now _ _ => ∀ r, s.row = some r → now.val < r.expiresAt
      | .updating _ _ now oldRaw _ _ =>
          ∀ r, s.row = some r → r.valueJson = oldRaw → now.val < r.expiresAt
      | _ => True
  | _ => True

/-! ## What an attempt has read -/

/-- The mutator, shown `current`, committed `value`, and `new` is the row for it. -/
def Commits (c : Codec V X) (call : Call V D) (now : Date) (current : Option V) (new : Row)
    (value : V) : Prop :=
  c.decode new.valueJson = some value ∧ ∃ ttlMs at_,
    call.mutatorFn current = some (.commit value ttlMs at_) ∧
      new.expiresAt = storedExpires (effExpires now.val ttlMs at_ call.expiresAt)

/-- Where a call stands and what the cell knows of it: as many writes by others
as attempts have failed, and one more unless the row is as it was read. -/
def Matches (c : Codec V X) (row : Option Row) : Pc V D → Option (Begun V D) → Prop
  | .idle, o => o = none
  | .reading call attempt, o => ∃ now n, o = some ⟨call.toCall, now, n⟩ ∧ attempt ≤ n
  | .deleting call now oldRaw, o => ∃ n, o = some ⟨call.toCall, some now.val, n⟩ ∧
      ∃ value, c.decode oldRaw = some value ∧ call.mutatorFn (some value) = some .delete
  | .inserting call attempt now new value, o => ∃ n, o = some ⟨call.toCall, some now.val, n⟩ ∧
      attempt ≤ n ∧ (attempt + 1 ≤ n ∨ Expired now.val row) ∧ Commits c call now none new value
  | .updating call attempt now oldRaw new value, o =>
      ∃ n, o = some ⟨call.toCall, some now.val, n⟩ ∧ attempt ≤ n ∧
        (attempt + 1 ≤ n ∨ ∃ r, row = some r ∧ r.valueJson = oldRaw) ∧
        ∃ current, c.decode oldRaw = some current ∧ Commits c call now (some current) new value

/-- Another's write. -/
theorem Matches.bump {row : Option Row} (row' : Option Row) {pc : Pc V D} {o : Option (Begun V D)}
    (h : Matches c row pc o) : Matches c row' pc (AtomicEntry.bump o) := by
  cases pc with
  | idle =>
      rw [show o = none from h]
      rfl
  | reading call attempt =>
      obtain ⟨now, n, rfl, hn⟩ := h
      exact ⟨now, n + 1, rfl, Nat.le_succ_of_le hn⟩
  | deleting call now oldRaw =>
      obtain ⟨n, rfl, hd⟩ := h
      exact ⟨n + 1, rfl, hd⟩
  | inserting call attempt now new value =>
      obtain ⟨n, rfl, hn, -, hd⟩ := h
      exact ⟨n + 1, rfl, Nat.le_succ_of_le hn, .inl (Nat.succ_le_succ hn), hd⟩
  | updating call attempt now oldRaw new value =>
      obtain ⟨n, rfl, hn, -, hd⟩ := h
      exact ⟨n + 1, rfl, Nat.le_succ_of_le hn, .inl (Nat.succ_le_succ hn), hd⟩

/-- What an attempt does after it has read is what the mutator decided. -/
def Next.Sound (c : Codec V X) (row : Option Row) (call : Call V D) (now : Date) (n : Nat) :
    Next V D → Prop
  | .answer u => Updates call.mutatorFn now.val call.expiresAt (c.view row) u false (c.view row)
  | .goto pc => Matches c row pc (some ⟨call.toCall, some now.val, n⟩)

theorem decided_expired {call : Call V D} {attempt n : Nat} (hn : attempt ≤ n) (now : Date) (x : X)
    {row : Option Row} (hrow : Expired now.val row) :
    (c.decided call attempt now x none (call.mutatorFn none)).Sound c row call now n := by
  have hlive : live now.val (c.view row) = none := hrow.live
  cases hd : call.mutatorFn none with
  | none => exact .threw (hlive ▸ hd)
  | some decision =>
      cases decision with
      | abort data => exact .aborted (hlive ▸ hd)
      | delete => exact .gone (hlive ▸ hd) hlive
      | commit value ttlMs at_ =>
          exact ⟨n, rfl, hn, .inr hrow, c.decode_encode _ value, ttlMs, at_, hd, rfl⟩

theorem decided_live {call : Call V D} {attempt n : Nat} (hn : attempt ≤ n) (now : Date) (x : X)
    {r : Row} (hr : now.val < r.expiresAt) {current : V}
    (hv : c.decode r.valueJson = some current) :
    (c.decided call attempt now x (some r.valueJson) (call.mutatorFn (some current))).Sound c
      (some r) call now n := by
  have hlive : live now.val (c.view (some r)) = some current := by
    rw [c.view_some hv]
    exact live_some hr
  cases hd : call.mutatorFn (some current) with
  | none => exact .threw (hlive ▸ hd)
  | some decision =>
      cases decision with
      | abort data => exact .aborted (hlive ▸ hd)
      | delete => exact ⟨n, rfl, current, hv, hd⟩
      | commit value ttlMs at_ =>
          exact ⟨n, rfl, hn, .inr ⟨r, rfl, rfl⟩, current, hv, c.decode_encode _ value, ttlMs, at_,
            hd, rfl⟩

theorem read_sound {call : Call V D} {attempt n : Nat} (hn : attempt ≤ n) (now : Date) (x : X)
    {row : Option Row} (hdecodes : ∀ r, row = some r → ∃ value, c.decode r.valueJson = some value) :
    (c.read call attempt now x row).Sound c row call now n := by
  rw [Codec.read]
  cases row with
  | none => exact decided_expired hn now x (expired_none _)
  | some r =>
      by_cases hlive : now.val < r.expiresAt
      · obtain ⟨value, hv⟩ := hdecodes r rfl
        have hfilter : (some r).filter (fun r => now.val < r.expiresAt) = some r :=
          Option.filter_some_pos (decide_eq_true hlive)
        rw [hfilter]
        dsimp only
        rw [hv]
        exact decided_live hn now x hlive hv
      · have hfilter : (some r).filter (fun r => now.val < r.expiresAt) = none :=
          Option.filter_some_neg (decide_eq_false hlive)
        rw [hfilter]
        exact decided_expired hn now x (expired_some (Int.not_lt.mp hlive))

/-! ## The simulation -/

structure Sim (c : Codec V X) (s : St V D) (t : Cell V D) : Prop where
  entry : t.entry = c.view s.row
  answers : t.answers = s.answers
  decodes : ∀ r, s.row = some r → ∃ value, c.decode r.valueJson = some value
  calls : ∀ w, Matches c s.row (s.calls w) (t.calls w)

variable {s s' : St V D} {t : Cell V D}

/-- The cell follows the backend to `s`, taking `inputs` from outside. -/
def Follows (c : Codec V X) (s : St V D) (t : Cell V D) (inputs : List (Input V D)) : Prop :=
  ∃ moves t', exec Cell.step t moves = some t' ∧ moves.filterMap Move.fromOutside = inputs ∧
    Sim c s t'

theorem Sim.stays (h : Sim c s t) : Follows c s t [] := ⟨[], t, rfl, rfl, h⟩

theorem Follows.after {m : Move V D} {t₁ : Cell V D} {inputs : List (Input V D)}
    (hm : t.step m = some t₁) (h : Follows c s t₁ inputs) :
    Follows c s t (m.fromOutside.toList ++ inputs) := by
  obtain ⟨moves, t', hmoves, rfl, hsim⟩ := h
  refine ⟨m :: moves, t', ?_, ?_, hsim⟩
  · rw [exec, hm]
    exact hmoves
  · cases hi : m.fromOutside with
    | none => rw [List.filterMap_cons_none hi]; rfl
    | some i => rw [List.filterMap_cons_some hi]; rfl

theorem step_begin {w : Nat} (call : AtomicEntry.Call V D) (h : t.calls w = none) :
    t.step (.input (.begin w call)) =
      some { t with calls := Function.update t.calls w (some ⟨call, none, 0⟩) } := if_pos h

theorem step_read {w : Nat} {b : Begun V D} (hcall : t.calls w = some b) (now : Int) :
    t.step (.input (.read w now)) =
      some { t with calls := Function.update t.calls w (some { b with now := some now }) } := by
  rw [Cell.step, hcall]
  rfl

theorem step_update {w : Nat} {now : Int} {u : Updated V D} {wrote : Bool}
    {entry : Option (Entry V)} {call : AtomicEntry.Call V D} {n : Nat}
    (hcall : t.calls w = some ⟨call, some now, n⟩)
    (h : Updates call.mutatorFn now call.expiresAt t.entry u wrote entry) :
    t.step (.update w u wrote entry) = some {
      entry := entry
      calls := Function.update (t.after wrote) w none
      answers := t.answers ++ [(w, .settled u)] } :=
  if_pos ⟨⟨call, some now, n⟩, hcall, now, rfl, h⟩

theorem step_giveUp {w : Nat} {b : Begun V D} (hcall : t.calls w = some b)
    (h : maxRetries ≤ b.writes) :
    t.step (.giveUp w) = some { t with
      calls := Function.update t.calls w none
      answers := t.answers ++ [(w, .updateContention)] } := if_pos ⟨b, hcall, h⟩

/-- One call moves on, and the cell with it or not. -/
theorem matches_update {row : Option Row} {calls : Nat → Pc V D} {known : Nat → Option (Begun V D)}
    {w : Nat} {pc : Pc V D} {o : Option (Begun V D)} (hw : Matches c row pc o)
    (hothers : ∀ u, Matches c row (calls u) (known u)) :
    ∀ u, Matches c row (Function.update calls w pc u) (Function.update known w o u) := by
  refine (Function.forall_update_iff calls fun u pc =>
    Matches c row pc (Function.update known w o u)).mpr ⟨?_, fun u hu => ?_⟩
  · rw [Function.update_self]
    exact hw
  · rw [Function.update_of_ne hu]
    exact hothers u

/-- The others, after something that wrote or left the row. -/
theorem matches_after (h : Sim c s t) {wrote : Bool} {row : Option Row}
    (hrow : wrote = true ∨ row = s.row) (w : Nat) :
    Matches c row (s.calls w) (t.after wrote w) := by
  cases wrote with
  | true => exact (h.calls w).bump row
  | false =>
      rcases hrow with htrue | hsame
      · cases htrue
      · subst hsame
        exact h.calls w

/-- The call moves on and the cell does not. -/
theorem Sim.goto (h : Sim c s t) {w : Nat} {pc : Pc V D} (hpc : Matches c s.row pc (t.calls w)) :
    Sim c (s.goto w pc) t := by
  refine ⟨h.entry, h.answers, h.decodes, ?_⟩
  exact (Function.forall_update_iff s.calls fun u pc => Matches c s.row pc (t.calls u)).mpr
    ⟨hpc, fun u _ => h.calls u⟩

/-- The cell looks at a call's clock and the call stays where it is. -/
theorem Sim.look (h : Sim c s t) {w : Nat} {b : Begun V D}
    (hw : Matches c s.row (s.calls w) (some b)) :
    Sim c s { t with calls := Function.update t.calls w (some b) } := by
  refine ⟨h.entry, h.answers, h.decodes, ?_⟩
  exact (Function.forall_update_iff t.calls fun u o => Matches c s.row (s.calls u) o).mpr
    ⟨hw, fun u _ => h.calls u⟩

/-- The call takes effect and answers. -/
theorem Sim.settle (h : Sim c s t) {w : Nat} {call : AtomicEntry.Call V D} {now : Int} {n : Nat}
    (hcall : t.calls w = some ⟨call, some now, n⟩) {u : Updated V D} {wrote : Bool}
    {row : Option Row} (hu : Updates call.mutatorFn now call.expiresAt t.entry u wrote (c.view row))
    (hrow : wrote = true ∨ row = s.row)
    (hdecodes : ∀ r, row = some r → ∃ value, c.decode r.valueJson = some value) :
    Follows c (St.answer { s with row := row } w (.settled u)) t [] := by
  refine Follows.after (step_update hcall hu) (Sim.stays ⟨rfl, ?_, hdecodes, ?_⟩)
  · exact congrArg (· ++ _) h.answers
  · exact matches_update rfl (matches_after h hrow)

/-- A statement that matched no row, another writer having been there. -/
theorem Sim.conflict (h : Sim c s t) {w : Nat} {call : Call V D} {now : Option Int}
    {attempt n : Nat} (hcall : t.calls w = some ⟨call.toCall, now, n⟩) (hn : attempt + 1 ≤ n) :
    Follows c (s.conflict w call attempt) t [] := by
  by_cases hmore : attempt + 1 < maxRetries
  · rw [St.conflict, retry, if_pos hmore]
    have hgoto : Matches c s.row (.reading call (attempt + 1)) (t.calls w) := ⟨now, n, hcall, hn⟩
    exact (h.goto hgoto).stays
  · rw [St.conflict, retry, if_neg hmore]
    refine Follows.after (step_giveUp hcall ((Nat.not_lt.mp hmore).trans hn))
      (Sim.stays ⟨h.entry, ?_, h.decodes, ?_⟩)
    · exact congrArg (· ++ _) h.answers
    · exact matches_update rfl h.calls

theorem filter_or_none {R : Type} (p : R → Bool) (row : Option R) :
    row.filter p = row ∨ row.filter p = none := by
  cases row with
  | none => exact .inl rfl
  | some r =>
      by_cases hp : p r = true
      · exact .inl (Option.filter_some_pos hp)
      · exact .inr (Option.filter_some_neg (Bool.eq_false_iff.mpr hp))

theorem any_row {R : Type} {p : R → Bool} {row : Option R} :
    row.any p = true ↔ ∃ r, row = some r ∧ p r = true := by
  cases row with
  | none => simp
  | some r => simp

theorem not_expired {now : Int} {row : Option Row} (h : ¬ Expired now row) :
    ∃ r, row = some r ∧ now < r.expiresAt := by
  rw [Expired] at h
  push Not at h
  exact h

theorem filter_decodes {row : Option Row} (p : Row → Bool)
    (h : ∀ r, row = some r → ∃ value, c.decode r.valueJson = some value) :
    ∀ r, row.filter p = some r → ∃ value, c.decode r.valueJson = some value := fun r hr =>
  h r (Option.filter_eq_some_iff.mp hr).1

theorem Sim.delete (h : Sim c s t) {w : Nat} {call : Call V D} {n : Nat}
    {now : Date}
    (hcall : t.calls w = some ⟨call.toCall, some now.val, n⟩) {oldRaw : JsString} {value : V}
    (hv : c.decode oldRaw = some value) (hdelete : call.mutatorFn (some value) = some .delete)
    (hsame : ∀ r, s.row = some r → now.val < r.expiresAt → r.valueJson = oldRaw)
    (hnone : Expired now.val s.row → call.mutatorFn none = some .delete) :
    Follows c (St.answer { s with row := s.row.filter fun r => r.valueJson ≠ oldRaw } w
      (.settled .deleted)) t [] := by
  have hdecodes := filter_decodes (fun r => r.valueJson ≠ oldRaw) h.decodes
  by_cases hexpired : Expired now.val s.row
  · have hlive : live now.val t.entry = none := h.entry ▸ hexpired.live
    rcases filter_or_none (fun r => r.valueJson ≠ oldRaw) s.row with hkept | hgone
    · have hu : Updates call.mutatorFn now.val call.expiresAt t.entry .deleted false
          (c.view (s.row.filter fun r => r.valueJson ≠ oldRaw)) := by
        rw [hkept, ← h.entry]
        exact .gone (hlive ▸ hnone hexpired) hlive
      exact h.settle hcall hu (.inr hkept) hdecodes
    · have hu : Updates call.mutatorFn now.val call.expiresAt t.entry .deleted true
          (c.view (s.row.filter fun r => r.valueJson ≠ oldRaw)) := by
        rw [hgone]
        exact .deleted (hlive ▸ hnone hexpired)
      exact h.settle hcall hu (.inl rfl) hdecodes
  · obtain ⟨r, hrow, hr⟩ := not_expired hexpired
    have hraw := hsame r hrow hr
    have hgone : (s.row.filter fun r => r.valueJson ≠ oldRaw) = none := by
      rw [hrow]
      exact Option.filter_some_neg (decide_eq_false (not_not.mpr hraw))
    have hlive : live now.val t.entry = some value := by
      rw [h.entry, hrow, c.view_some (hraw ▸ hv)]
      exact live_some hr
    have hu : Updates call.mutatorFn now.val call.expiresAt t.entry .deleted true
        (c.view (s.row.filter fun r => r.valueJson ≠ oldRaw)) := by
      rw [hgone]
      exact .deleted (hlive ▸ hdelete)
    exact h.settle hcall hu (.inl rfl) hdecodes

/-- The statement that stores the committed value. -/
theorem Sim.commit (h : Sim c s t) {w : Nat} {call : Call V D} {n : Nat}
    {now : Date} (hcall : t.calls w = some ⟨call.toCall, some now.val, n⟩) {current : Option V}
    {new : Row} {value : V} (hcommits : Commits c call now current new value)
    (hlive : live now.val t.entry = current) :
    Follows c (St.answer { s with row := some new } w (.settled (.updated value))) t [] := by
  obtain ⟨hv, ttlMs, at_, hdecision, hexpires⟩ := hcommits
  have hu : Updates call.mutatorFn now.val call.expiresAt t.entry (.updated value) true
      (c.view (some new)) := by
    rw [c.view_some hv, hexpires]
    exact .updated (hlive ▸ hdecision)
  refine h.settle hcall hu (.inl rfl) fun r hr => ?_
  injection hr with hr
  exact ⟨value, hr ▸ hv⟩

theorem Sim.write (h : Sim c s t) {w : Nat} (hok : Timely (X := X) s (.write w))
    (hs : s.write w (s.calls w) = some s') :
    Follows c s' t [] := by
  have hw := h.calls w
  rw [Timely] at hok
  cases hpc : s.calls w with
  | idle =>
      rw [hpc] at hs
      cases hs
  | reading call attempt =>
      rw [hpc] at hs
      cases hs
  | deleting call now oldRaw =>
      rw [hpc] at hs hok hw
      obtain ⟨n, hcall, value, hv, hdelete⟩ := hw
      injection hs with hs
      exact hs ▸ h.delete hcall hv hdelete hok.1 hok.2
  | inserting call attempt now new value =>
      rw [hpc] at hs hok hw
      obtain ⟨n, hcall, -, hread, hcommits⟩ := hw
      rw [St.write] at hs
      split at hs
      · next r hrow =>
          injection hs with hs
          rcases hread with hn | hexpired
          · exact hs ▸ h.conflict hcall hn
          · -- the row the insert meets is live, so it was not there to read
            exact (Int.not_le.mpr (hok r hrow) (hexpired r hrow)).elim
      · next hrow =>
          injection hs with hs
          have hlive : live now.val t.entry = none := by
            rw [h.entry, hrow]
            exact (expired_none _).live
          exact hs ▸ h.commit hcall hcommits hlive
  | updating call attempt now oldRaw new value =>
      rw [hpc] at hs hok hw
      obtain ⟨n, hcall, -, hread, current, hv, hcommits⟩ := hw
      rw [St.write] at hs
      split at hs
      · next hany =>
          injection hs with hs
          obtain ⟨r, hrow, hraw⟩ := any_row.mp hany
          have hraw : r.valueJson = oldRaw := of_decide_eq_true hraw
          have hlive : live now.val t.entry = some current := by
            rw [h.entry, hrow, c.view_some (hraw ▸ hv)]
            exact live_some (hok r hrow hraw)
          exact hs ▸ h.commit hcall hcommits hlive
      · next hany =>
          injection hs with hs
          rcases hread with hn | ⟨r, hrow, hraw⟩
          · exact hs ▸ h.conflict hcall hn
          · exact (hany (any_row.mpr ⟨r, hrow, decide_eq_true hraw⟩)).elim

theorem Statement.decodes {row : Option Row}
    (h : ∀ r, row = some r → ∃ value, c.decode r.valueJson = some value) (st : Statement V X) :
    ∀ r, st.run c row = some r → ∃ value, c.decode r.valueJson = some value := by
  cases st with
  | set value expiresAt x now =>
      intro r hr
      injection hr with hr
      exact ⟨value, hr ▸ c.decode_encode x value⟩
  | del =>
      intro r hr
      cases hr
  | sweep now => exact filter_decodes _ h
  | slide now defaultTtlMs =>
      intro r hr
      obtain ⟨r₀, hrow, heq⟩ := Option.map_eq_some_iff.mp hr
      have hraw : r.valueJson = r₀.valueJson := by
        rw [← heq]
        split
        · rfl
        · rfl
      exact hraw ▸ h r₀ hrow

/-- A statement as the cell sees it. -/
def Statement.toWrite : Statement V X → AtomicEntry.Write V
  | .set value expiresAt _ _ => .set value expiresAt
  | .del => .del
  | .sweep now => .sweep now.val
  | .slide now defaultTtlMs => .slide now.val defaultTtlMs

/-- What an action takes from outside. -/
def Action.fromOutside : Action V D X → Option (Input V D)
  | .begin w call => some (.begin w call.toCall)
  | .read w now _ => some (.read w now.val)
  | .write _ => none
  | .other statement => some (.other statement.toWrite)

theorem Statement.view_run {row : Option Row}
    (h : ∀ r, row = some r → ∃ value, c.decode r.valueJson = some value) (st : Statement V X) :
    c.view (st.run c row) = st.toWrite.run (c.view row) := by
  cases row with
  | none =>
      cases st with
      | set value expiresAt x now => exact c.view_some (c.decode_encode x value)
      | _ => rfl
  | some r =>
      obtain ⟨value, hv⟩ := h r rfl
      rw [c.view_some hv]
      cases st with
      | set value expiresAt x now => exact c.view_some (c.decode_encode x value)
      | del => rfl
      | sweep now =>
          by_cases hr : now.val < r.expiresAt
          · simp [Statement.run, toWrite, Write.run, Option.filter_some, hr, c.view_some hv]
          · simp [Statement.run, toWrite, Write.run, Option.filter_some, hr, Codec.view]
      | slide now defaultTtlMs =>
          by_cases hr : now.val < r.expiresAt
          · simp [Statement.run, toWrite, Write.run, hr, Codec.view, hv]
          · simp [Statement.run, toWrite, Write.run, hr, c.view_some hv]

/-- A statement that finds nothing to write leaves the row. -/
theorem Statement.hits_or {row : Option Row}
    (h : ∀ r, row = some r → ∃ value, c.decode r.valueJson = some value) (st : Statement V X) :
    st.toWrite.hits (c.view row) = true ∨ st.run c row = row := by
  cases row with
  | none =>
      cases st with
      | set value expiresAt x now => exact .inl rfl
      | _ => exact .inr rfl
  | some r =>
      obtain ⟨value, hv⟩ := h r rfl
      rw [c.view_some hv]
      cases st with
      | set value expiresAt x now => exact .inl rfl
      | del => exact .inl rfl
      | sweep now =>
          by_cases hr : now.val < r.expiresAt
          · right
            rw [Statement.run]
            exact Option.filter_some_pos (decide_eq_true hr)
          · exact .inl (decide_eq_true (Int.not_lt.mp hr))
      | slide now defaultTtlMs =>
          by_cases hr : now.val < r.expiresAt
          · exact .inl (decide_eq_true hr)
          · exact .inr (congrArg some (if_neg hr))

/-- Every step of the backend is some of the cell's, on the same inputs. -/
theorem Sim.step (h : Sim c s t) {a : Action V D X} (hok : Timely s a) (hs : step c s a = some s') :
    Follows c s' t a.fromOutside.toList := by
  cases a with
  | begin w call =>
      rw [ClusterCache.step] at hs
      split at hs
      · next hpc =>
          injection hs with hs
          subst hs
          have hw := h.calls w
          rw [hpc] at hw
          refine Follows.after (step_begin call.toCall hw)
            (Sim.stays ⟨h.entry, h.answers, h.decodes, ?_⟩)
          exact matches_update ⟨none, 0, rfl, Nat.le_refl _⟩ h.calls
      · cases hs
  | read w now x =>
      rw [ClusterCache.step] at hs
      split at hs
      · next call attempt hpc =>
          injection hs with hs
          subst hs
          have hw := h.calls w
          rw [hpc] at hw
          obtain ⟨last, n, hcall, hn⟩ := hw
          have hhere : Matches c s.row (s.calls w) (some ⟨call.toCall, some now.val, n⟩) :=
            hpc ▸ ⟨some now.val, n, rfl, hn⟩
          have hlook := h.look hhere
          show Follows c _ t ([.read w now.val] ++ [])
          refine Follows.after (step_read hcall now.val) ?_
          have hnow : (Function.update t.calls w (some ⟨call.toCall, some now.val, n⟩)) w =
              some ⟨call.toCall, some now.val, n⟩ := Function.update_self ..
          have hsound : (c.read call attempt now x s.row).Sound c s.row call now n :=
            read_sound hn now x h.decodes
          cases hnext : c.read call attempt now x s.row with
          | answer u =>
              rw [hnext] at hsound
              have hu : Updates call.mutatorFn now.val call.expiresAt t.entry u false
                  (c.view s.row) := by
                rw [h.entry]
                exact hsound
              exact hlook.settle hnow hu (.inr rfl) h.decodes
          | goto pc =>
              rw [hnext] at hsound
              refine (hlook.goto ?_).stays
              dsimp only
              rw [hnow]
              exact hsound
      · cases hs
  | write w => exact h.write hok hs
  | other st =>
      injection hs with hs
      subst hs
      refine Follows.after (m := .input (.other st.toWrite)) rfl
        (Sim.stays ⟨?_, h.answers, st.decodes h.decodes, ?_⟩)
      · exact (congrArg st.toWrite.run h.entry).trans (st.view_run h.decodes).symm
      · exact matches_after h (h.entry ▸ st.hits_or h.decodes)

theorem init_sim (c : Codec V X) : Sim c (St.init : St V D) Cell.init :=
  ⟨rfl, rfl, fun _ hr => (Option.some_ne_none _ hr.symm).elim, fun _ => rfl⟩

/-! ## The memory backend -/

section Memory

variable {K T : Type} [DecidableEq K] [DecidableEq T]

/-- An entry of the memory backend. -/
def entryOf (cache : Cache K T V) (key : K) : Option (Entry V) :=
  (cache.find key).map fun e => ⟨e.value, storedExpires e.expiresAt⟩

omit [DecidableEq T] in
theorem isExpired_iff (now : Date) (e : MemoryCache.Entry T V) :
    e.isExpired now.val = false ↔ now.val < storedExpires e.expiresAt := by
  rw [MemoryCache.Entry.isExpired, storedExpires]
  cases e.expiresAt with
  | none =>
      have := now.property
      simp
      omega
  | some t => simp

omit [DecidableEq T] in
theorem current_eq (cache : Cache K T V) (key : K) (now : Date) :
    cache.current key now.val = live now.val (entryOf cache key) := by
  rw [Cache.current, entryOf]
  cases cache.find key with
  | none => rfl
  | some e =>
      cases he : e.isExpired now.val with
      | false =>
          rw [Option.map_some, live_some ((isExpired_iff now e).mp he),
            Option.filter_some_pos (by rw [he]; rfl)]
          rfl
      | true =>
          have hle : storedExpires e.expiresAt ≤ now.val := by
            rw [← Int.not_lt, ← isExpired_iff, he]
            exact Bool.noConfusion
          rw [Option.map_some, live_expired hle, Option.filter_some_neg (by rw [he]; rfl)]
          rfl

theorem evictByCounts_unlimited {cfg : Config V} (hentries : cfg.maxEntries = none)
    (hbytes : cfg.maxBytes = none) (cache : Cache K T V) : cache.evictByCounts cfg = cache := by
  have hnever : ∀ {full : Cache K T V → Bool} n, full cache = false →
      evictWhile full n cache = cache := by
    intro full n hfull
    cases n with
    | zero => rfl
    | succ n => rw [evictWhile, hfull]; rfl
  have hover : overEntries cfg cache = false := by
    rw [overEntries, hentries]
    rfl
  have hover' : overBytes cfg cache = false := by
    rw [overBytes, hbytes]
    rfl
  rw [Cache.evictByCounts, hnever _ hover, hnever _ hover']

omit [DecidableEq T] in
theorem find_removed (cache : Cache K T V) (key : K) : (cache.delete key).find key = none := by
  rw [Cache.find, Option.map_eq_none_iff, List.find?_eq_none]
  intro x hx heq
  exact of_decide_eq_true (List.mem_filter.mp hx).2 (of_decide_eq_true heq)

theorem entryOf_set {cfg : Config V} (hentries : cfg.maxEntries = none)
    (hbytes : cfg.maxBytes = none) {value : V} {bytes : Double}
    (hsize : cfg.sizeOf value = some bytes) (cache : Cache K T V) (key : K)
    (expiresAt : Millis) (info : Meta T) :
    (set cfg cache key value expiresAt info).2 = true ∧
      entryOf (set cfg cache key value expiresAt info).1 key =
        some ⟨value, storedExpires expiresAt⟩ := by
  have hset : ∃ c' : Cache K T V, set cfg cache key value expiresAt info = (c', true) ∧
      c'.entries =
        (cache.delete key).entries ++ [(key, newEntry value expiresAt info bytes.orZero)] := by
    refine ⟨⟨(cache.removeKey key).entries ++ [(key, newEntry value expiresAt info bytes.orZero)],
      (cache.removeKey key).totalBytes.add bytes.orZero,
      (info.tags.getD []).foldl (InvertedIndex.add key) (cache.removeKey key).tagIndex⟩, ?_, ?_⟩
    · rw [MemoryCache.set, hsize]
      dsimp only
      rw [evictByCounts_unlimited hentries hbytes]
      rfl
    · exact congrArg (· ++ [(key, newEntry value expiresAt info bytes.orZero)])
        (entries_removeKey cache key)
  obtain ⟨c', heq, hc'⟩ := hset
  rw [heq]
  refine ⟨rfl, ?_⟩
  have hnone := find_removed cache key
  rw [Cache.find, Option.map_eq_none_iff] at hnone
  have hself : [(key, newEntry value expiresAt info bytes.orZero)].find? (fun x => x.1 = key) =
      some (key, newEntry value expiresAt info bytes.orZero) :=
    List.find?_cons_of_pos (decide_eq_true rfl)
  rw [entryOf, Cache.find, hc', List.find?_append, hnone, Option.none_or, hself]
  rfl

/-- Without limits the memory backend's update is one atomic update. -/
theorem memory_updates {cfg : Config V} (hentries : cfg.maxEntries = none)
    (hbytes : cfg.maxBytes = none) (hsize : ∀ value, cfg.sizeOf value ≠ none) (cache : Cache K T V)
    (key : K) (mutatorFn : Option V → Option (Decision V D)) (now : Date) (expiresAt : Millis)
    (info : Meta T) : ∃ wrote, Updates mutatorFn now.val expiresAt (entryOf cache key)
      (update cfg cache key mutatorFn now.val expiresAt info).2 wrote
      (entryOf (update cfg cache key mutatorFn now.val expiresAt info).1 key) := by
  rw [update, current_eq]
  cases hd : mutatorFn (live now.val (entryOf cache key)) with
  | none => exact ⟨false, .threw hd⟩
  | some decision =>
      cases decision with
      | abort data => exact ⟨false, .aborted hd⟩
      | delete =>
          dsimp only
          cases hfind : cache.find key with
          | none =>
              refine ⟨false, .gone hd ?_⟩
              rw [entryOf, hfind]
              rfl
          | some entry =>
              have hgone : entryOf (cache.remove key entry) key = none :=
                congrArg (Option.map _) (find_removed cache key)
              refine ⟨true, ?_⟩
              show Updates mutatorFn now.val expiresAt _ .deleted true
                (entryOf (cache.remove key entry) key)
              rw [hgone]
              exact .deleted hd
      | commit value ttlMs at_ =>
          dsimp only
          obtain ⟨bytes, hbytes'⟩ := Option.ne_none_iff_exists'.mp (hsize value)
          obtain ⟨hreturned, hentry⟩ := entryOf_set hentries hbytes hbytes' cache key
            (effExpires now.val ttlMs at_ expiresAt) info
          rw [hreturned, hentry]
          exact ⟨true, .updated hd⟩

end Memory

/-! ## Whole runs -/

/-- Booleans as JSON. -/
def boolCodec : Codec Bool Unit where
  stringify value := if value then units "true" else units "false"
  parse json :=
    if json = units "true" then some true else if json = units "false" then some false else none
  vaultSeal _ json := json
  vaultUnseal json := some json
  parse_stringify := by decide
  unseal_seal _ _ := rfl
  plain := by decide

def second (n : Fin 10) : Date := ⟨1000 * n.val, by omega⟩

/-- Sets the flag, whatever it was. -/
def raise : Call Bool Unit := ⟨⟨fun _ => some (.commit true none none), some 9000⟩, false⟩

/-- Another node stores the flag between the two statements of the first attempt. -/
def raceRun : List (Action Bool Unit Unit) :=
  [.begin 0 raise, .read 0 (second 1) (), .other (.set false (some 9000) none (second 1)), .write 0,
    .read 0 (second 2) (), .write 0]

/-- The row has expired and no one has swept it; no one else writes. -/
def staleRun : List (Action Bool Unit Unit) :=
  .other (.set false (some 2000) none (second 1)) :: .begin 0 raise ::
    (List.replicate 5 [.read 0 (second 3) (), .write 0]).flatten

/-- What a call decides on a flag that is down; on another it leaves things be. -/
def onDown (decision : Decision Bool Unit) : Call Bool Unit :=
  ⟨⟨fun value => some (if value = some false then decision else .abort ()), some 9000⟩, false⟩

/-- One call is to remove a flag that is down, another to raise it; both have read it. -/
def racingRun : List (Action Bool Unit Unit) :=
  [.other (.set false (some 9000) none (second 1)), .begin 0 (onDown .delete),
    .begin 1 (onDown (.commit true none none)), .read 0 (second 2) (), .read 1 (second 2) (),
    .write 1, .write 0]

end Blamejs.ClusterCache
