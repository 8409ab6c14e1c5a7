import Blamejs.Spec.RespReply
import Mathlib.Tactic.NormNum

/-!
# The receive loop of the redis client

Where the lengths of a stream are whole numbers, all positions are, and `parseFrame`
reads the reply that stands at its offset. A reply is at least three bytes and does not
depend on what comes behind it, so the loop ends and it does not matter how the stream
is cut.
-/

namespace Blamejs.RedisClient

open Blamejs.Js Incremental

/-! ## Positions -/

theorem plus_natCast (a b : Nat) : plus a b = ((a + b : Nat) : Rat) := by
  have hsum : (a : Rat) + b = ((a + b : Nat) : Rat) := by push_cast; rfl
  rw [plus, hsum, if_pos (Rat.den_natCast _)]

theorem plus_neg_natCast {a b : Nat} (h : b ≤ a) : plus a (-(b : Rat)) = ((a - b : Nat) : Rat) := by
  have hsum : (a : Rat) + -(b : Rat) = ((a - b : Nat) : Rat) := by
    rw [Nat.cast_sub h, sub_eq_add_neg]
  rw [plus, hsum, if_pos (Rat.den_natCast _)]

theorem index_natCast (n k : Nat) : index n k = min k n := by
  rw [index, if_neg (not_lt.mpr (Nat.cast_nonneg k)), ← Int.cast_natCast, Rat.floor_intCast,
    Int.toNat_natCast]

theorem slice_natCast {buf : Bytes} {a b : Nat} (ha : a ≤ buf.length) :
    slice buf a b = (buf.drop a).take (b - a) := by
  rw [slice, index_natCast, index_natCast, Nat.min_eq_left ha, ← List.drop_take]
  congr 1
  rw [← List.take_take, List.take_length]

theorem byteAt_natCast (buf : Bytes) (k : Nat) : byteAt buf k = buf[k]? := by
  rw [byteAt, if_pos ⟨Rat.den_natCast _, Nat.cast_nonneg k⟩, Rat.num_natCast, Int.toNat_natCast]

theorem indexOfCrlf_natCast {buf : Bytes} {k : Nat} (h : k ≤ buf.length) :
    indexOfCrlf buf k = (crlfOffset (buf.drop k)).map (k + ·) := by
  rw [indexOfCrlf, index_natCast, Nat.min_eq_left h]

theorem wholeLength_some {x : Rat} {n : Nat} (h : wholeLength x = some n) : x = n := by
  unfold wholeLength at h
  split at h
  · next hwhole =>
      cases h
      have hnum : x = x.num := (Rat.coe_int_num_of_den_eq_one hwhole.1).symm
      have hnonneg : 0 ≤ x.num := Rat.num_nonneg.mpr hwhole.2
      conv_lhs => rw [hnum, ← Int.toNat_of_nonneg hnonneg]
      exact Int.cast_natCast _
  · cases h

/-! ## Replies stand -/

theorem crlfOffset_append {buf : Bytes} {i : Nat} (h : crlfOffset buf = some i) (more : Bytes) :
    crlfOffset (buf ++ more) = some i ∧ i + 2 ≤ buf.length := by
  induction buf generalizing i with
  | nil => cases h
  | cons b buf ih =>
      rw [crlfOffset] at h
      rw [List.cons_append, crlfOffset]
      split at h
      · next hcrlf =>
          cases h
          have hlen : ([b] ++ buf.take 1).length = 2 := congrArg List.length hcrlf
          have hone : 1 ≤ buf.length := by
            simp only [List.length_append, List.length_singleton, List.length_take] at hlen
            omega
          rw [List.take_append_of_le_length hone, if_pos hcrlf, List.length_cons]
          exact ⟨rfl, by omega⟩
      · next hnot =>
          obtain ⟨j, hj, rfl⟩ := Option.map_eq_some_iff.mp h
          obtain ⟨hmore, hle⟩ := ih hj
          have hone : 1 ≤ buf.length := by omega
          rw [List.take_append_of_le_length hone, if_neg hnot, hmore, List.length_cons]
          exact ⟨rfl, by omega⟩

/-- What a reader decides on a buffer stands when more comes behind, and it reads at
least `k` bytes. -/
def Stands {φ : Type} (k : Nat) (p : Bytes → Parsed UInt8 φ Refusal) : Prop :=
  ∀ buf more, match p buf with
    | .more => True
    | .refuse e => p (buf ++ more) = .refuse e
    | .item f rest => p (buf ++ more) = .item f (rest ++ more) ∧ rest.length + k ≤ buf.length

theorem stands_itemsAt {p : Bytes → Parsed UInt8 Frame Refusal} {k : Nat} (hp : Stands k p)
    (n : Nat) : Stands 0 (itemsAt p n) := by
  induction n with
  | zero => exact fun buf more => ⟨rfl, Nat.le_refl _⟩
  | succ n ih =>
      intro buf more
      have hfirst := hp buf more
      simp only [itemsAt]
      cases hf : p buf with
      | more => trivial
      | refuse e =>
          rw [hf] at hfirst
          simp only [hfirst]
      | item f rest =>
          rw [hf] at hfirst
          obtain ⟨hfmore, hflen⟩ := hfirst
          have hrest := ih rest more
          simp only [hfmore]
          cases hfs : itemsAt p n rest with
          | more => trivial
          | refuse e =>
              rw [hfs] at hrest
              simp only [hrest]
          | item fs rest' =>
              rw [hfs] at hrest
              obtain ⟨hfsmore, hfslen⟩ := hrest
              simp only [hfsmore]
              exact ⟨trivial, by omega⟩

theorem stands_bodyAt {sub : Bytes → Parsed UInt8 Frame Refusal} {k : Nat} (hsub : Stands k sub)
    (marker : UInt8) (payload : JsString) : Stands 0 (bodyAt sub marker payload) := by
  intro buf more
  unfold bodyAt
  dsimp only
  by_cases hplus : marker = 0x2B
  · simp [hplus]
  by_cases hminus : marker = 0x2D
  · simp [hminus]
  by_cases hcolon : marker = 0x3A
  · by_cases hfinite : (stringToNumber payload).isFinite = true
    · simp [hcolon, hfinite]
    · simp [hcolon, hfinite]
  simp only [if_neg hplus, if_neg hminus, if_neg hcolon]
  by_cases hbulk : marker = 0x24
  · by_cases hfinite : (stringToNumber payload).isFinite = true
    · by_cases hnull : value (stringToNumber payload) = -1
      · simp [hbulk, hfinite, hnull]
      · cases hwhole : wholeLength (value (stringToNumber payload)) with
        | none => simp [hbulk, hfinite, hnull]
        | some n =>
            by_cases hshort : buf.length < n + 2
            · simp [hbulk, hfinite, hnull, hshort]
            · have hlong : ¬ (buf ++ more).length < n + 2 := by
                rw [List.length_append]
                omega
              simp only [hbulk, hfinite, hnull, hshort, hlong, if_true, if_false]
              rw [List.take_append_of_le_length (by omega),
                List.drop_append_of_le_length (by omega), List.length_drop]
              exact ⟨rfl, by omega⟩
    · simp [hbulk, hfinite]
  simp only [if_neg hbulk]
  by_cases harray : marker = 0x2A
  · by_cases hfinite : (stringToNumber payload).isFinite = true
    · by_cases hnull : value (stringToNumber payload) = -1
      · simp [harray, hfinite, hnull]
      · have hitems := stands_itemsAt hsub (value (stringToNumber payload)).ceil.toNat buf more
        simp only [harray, hfinite, hnull, if_true, if_false]
        cases hfs : itemsAt sub (value (stringToNumber payload)).ceil.toNat buf with
        | more => trivial
        | refuse e =>
            rw [hfs] at hitems
            simp only [hitems]
        | item fs rest =>
            rw [hfs] at hitems
            simp only [hitems.1]
            exact ⟨trivial, hitems.2⟩
    · simp [harray, hfinite]
  · simp [harray]

theorem stands_replyAt (levels : Nat) : Stands 3 (replyAt levels) := by
  induction levels with
  | zero => exact fun buf more => rfl
  | succ levels ih =>
      intro buf more
      cases buf with
      | nil => trivial
      | cons marker buf =>
          rw [replyAt]
          cases hcrlf : crlfOffset buf with
          | none => trivial
          | some i =>
              obtain ⟨hcrlf', hle⟩ := crlfOffset_append hcrlf more
              have hbody := stands_bodyAt ih marker (utf8Text (buf.take i)) (buf.drop (i + 2)) more
              rw [List.cons_append, replyAt, hcrlf']
              dsimp only
              rw [List.take_append_of_le_length (by omega),
                List.drop_append_of_le_length (by omega)]
              cases hres : bodyAt (replyAt levels) marker (utf8Text (buf.take i))
                  (buf.drop (i + 2)) with
              | more => trivial
              | refuse e =>
                  rw [hres] at hbody
                  exact hbody
              | item f rest =>
                  rw [hres, List.length_drop] at hbody
                  exact ⟨hbody.1, by rw [List.length_cons]; omega⟩

/-- The replies of a stream as an incremental parser. -/
def replyParser : Parser UInt8 Frame Refusal where
  parse := reply
  shorter := by
    intro buf f rest h
    have hstands := stands_replyAt (maxRespDepth + 1) buf []
    rw [show replyAt (maxRespDepth + 1) buf = .item f rest from h] at hstands
    have := hstands.2
    omega
  item_append := by
    intro buf f rest more h
    have hstands := stands_replyAt (maxRespDepth + 1) buf more
    rw [show replyAt (maxRespDepth + 1) buf = .item f rest from h] at hstands
    exact hstands.1
  refuse_append := by
    intro buf e more h
    have hstands := stands_replyAt (maxRespDepth + 1) buf more
    rw [show replyAt (maxRespDepth + 1) buf = .refuse e from h] at hstands
    exact hstands

/-! ## The parser on a buffer -/

/-- What `parseFrame` makes of the bytes from an offset on, against the reply there. -/
def Agrees (buf : Bytes) (off : Nat) (found : Except Err Outcome) :
    Parsed UInt8 Frame Refusal → Prop
  | .more => found = .ok .incomplete
  | .refuse (.bad e) => found = .error e
  | .refuse (.length _) => True
  | .item f rest => ∃ k : Nat, rest = buf.drop (off + k) ∧ 3 ≤ k ∧ off + k ≤ buf.length ∧
      found = .ok (.frame f k)

theorem agrees_items {buf : Bytes} {parse : Rat → Except Err Outcome}
    {sub : Bytes → Parsed UInt8 Frame Refusal}
    (h : ∀ off ≤ buf.length, Agrees buf off (parse off) (sub (buf.drop off))) (n : Nat) {off : Nat}
    (hoff : off ≤ buf.length) :
    match itemsAt sub n (buf.drop off) with
    | .more => parseItems parse n off = .ok none
    | .refuse (.bad e) => parseItems parse n off = .error e
    | .refuse (.length _) => True
    | .item fs rest => ∃ k : Nat, rest = buf.drop (off + k) ∧ off + k ≤ buf.length ∧
        parseItems parse n off = .ok (some (fs, ((off + k : Nat) : Rat))) := by
  induction n generalizing off with
  | zero => exact ⟨0, rfl, hoff, rfl⟩
  | succ n ih =>
      have hfirst := h off hoff
      simp only [itemsAt, parseItems]
      cases hf : sub (buf.drop off) with
      | more =>
          rw [hf] at hfirst
          rw [show parse off = .ok .incomplete from hfirst]
      | refuse e =>
          rw [hf] at hfirst
          cases e with
          | bad e => rw [show parse off = .error e from hfirst]
          | length payload => trivial
      | item f rest =>
          rw [hf] at hfirst
          obtain ⟨k, rfl, -, hk, hparse⟩ := hfirst
          have hrest := ih hk
          simp only [hparse, plus_natCast]
          cases hfs : itemsAt sub n (buf.drop (off + k)) with
          | more =>
              rw [hfs] at hrest
              simp only [hrest]
          | refuse e =>
              rw [hfs] at hrest
              cases e with
              | bad e => simp only [hrest]
              | length payload => trivial
          | item fs rest =>
              rw [hfs] at hrest
              obtain ⟨k', rfl, hk', hparse'⟩ := hrest
              simp only [hparse']
              exact ⟨k + k', by rw [Nat.add_assoc], by omega, by rw [Nat.add_assoc]⟩

/-- The parser reads the reply at its offset, where its lengths are whole. -/
theorem agrees_parseFrame (levels : Nat) (buf : Bytes) {off : Nat} (hoff : off ≤ buf.length) :
    Agrees buf off (parseFrame levels buf off) (replyAt levels (buf.drop off)) := by
  induction levels generalizing off with
  | zero => exact rfl
  | succ levels ih =>
      unfold parseFrame
      rw [show plus (off : Rat) 1 = ((off + 1 : Nat) : Rat) from mod_cast plus_natCast off 1]
      by_cases hend : buf.length ≤ off
      · rw [if_pos (by exact_mod_cast hend), List.drop_eq_nil_of_le hend]
        exact rfl
      have hlt : off < buf.length := Nat.not_le.mp hend
      have hcons : buf.drop off = buf[off] :: buf.drop (off + 1) :=
        List.drop_eq_getElem_cons hlt
      rw [if_neg (by exact_mod_cast hend), indexOfCrlf_natCast (Nat.succ_le_of_lt hlt), hcons,
        replyAt]
      cases hcrlf : crlfOffset (buf.drop (off + 1)) with
      | none => exact rfl
      | some i =>
          have hle := (crlfOffset_append hcrlf []).2
          rw [List.length_drop] at hle
          have hslice : slice buf ((off + 1 : Nat) : Rat) ((off + 1 + i : Nat) : Rat) =
              (buf.drop (off + 1)).take i := by
            rw [slice_natCast (Nat.succ_le_of_lt hlt), Nat.add_sub_cancel_left]
          have hhead : ((buf.drop (off + 1)).drop (i + 2)) = buf.drop (off + (i + 3)) := by
            rw [List.drop_drop]
            congr 1
            omega
          have hstart : plus ((off + 1 + i + 2 : Nat) : Rat) (-(off : Rat)) =
              ((i + 3 : Nat) : Rat) := by
            rw [plus_neg_natCast (by omega)]
            congr 1
            omega
          simp only [Option.map_some, hslice, byteAt_natCast, List.getElem?_eq_getElem hlt, hhead,
            hstart]
          generalize utf8Text ((buf.drop (off + 1)).take i) = payload
          have hitem : ∀ f, Agrees buf off (.ok (.frame f ((i + 3 : Nat) : Rat)))
              (.item f (buf.drop (off + (i + 3)))) :=
            fun f => ⟨i + 3, rfl, by omega, by omega, rfl⟩
          unfold bodyAt
          dsimp only
          by_cases hplus : buf[off] = 0x2B
          · simp only [if_pos hplus]
            exact hitem _
          by_cases hminus : buf[off] = 0x2D
          · simp only [if_neg hplus, if_pos hminus]
            exact hitem _
          by_cases hcolon : buf[off] = 0x3A
          · simp only [if_neg hplus, if_neg hminus, if_pos hcolon]
            by_cases hfinite : (stringToNumber payload).isFinite = true
            · simp only [if_pos hfinite]
              exact hitem _
            · simp only [if_neg hfinite]
              exact rfl
          by_cases hbulk : buf[off] = 0x24
          · simp only [if_neg hplus, if_neg hminus, if_neg hcolon, if_pos hbulk]
            by_cases hfinite : (stringToNumber payload).isFinite = true
            · simp only [if_pos hfinite]
              by_cases hnull : value (stringToNumber payload) = -1
              · simp only [if_pos hnull]
                exact hitem _
              · simp only [if_neg hnull]
                cases hwhole : wholeLength (value (stringToNumber payload)) with
                | none => trivial
                | some n =>
                    have hstop : plus ((off + 1 + i + 2 + n : Nat) : Rat) 2 =
                        ((off + 1 + i + 2 + n + 2 : Nat) : Rat) :=
                      mod_cast plus_natCast (off + 1 + i + 2 + n) 2
                    simp only [wholeLength_some hwhole, plus_natCast, hstop, List.length_drop]
                    by_cases hshort : buf.length - (off + (i + 3)) < n + 2
                    · have hgt : ((off + 1 + i + 2 + n + 2 : Nat) : Rat) > buf.length :=
                        Nat.cast_lt.mpr (by omega)
                      rw [if_pos hshort, if_pos hgt]
                      exact rfl
                    · have hle' : ¬ ((off + 1 + i + 2 + n + 2 : Nat) : Rat) > buf.length :=
                        not_lt.mpr (Nat.cast_le.mpr (by omega))
                      rw [if_neg hshort, if_neg hle', slice_natCast (by omega),
                        plus_neg_natCast (by omega)]
                      refine ⟨i + 3 + n + 2, ?_, by omega, by omega, ?_⟩
                      · rw [List.drop_drop]
                        congr 1
                        omega
                      · congr 3
                        · congr 2
                          · omega
                          · congr 1
                            omega
                        · omega
            · simp only [if_neg hfinite]
              exact rfl
          by_cases harray : buf[off] = 0x2A
          · simp only [if_neg hplus, if_neg hminus, if_neg hcolon, if_neg hbulk, if_pos harray]
            by_cases hfinite : (stringToNumber payload).isFinite = true
            · simp only [if_pos hfinite]
              by_cases hnull : value (stringToNumber payload) = -1
              · simp only [if_pos hnull]
                exact hitem _
              · simp only [if_neg hnull]
                have hitems := agrees_items (fun off hoff => ih hoff)
                  (value (stringToNumber payload)).ceil.toNat
                  (show off + (i + 3) ≤ buf.length by omega)
                rw [show off + 1 + i + 2 = off + (i + 3) by omega]
                cases hfs : itemsAt (replyAt levels) (value (stringToNumber payload)).ceil.toNat
                    (buf.drop (off + (i + 3))) with
                | more =>
                    rw [hfs] at hitems
                    simp only [hitems]
                    exact rfl
                | refuse e =>
                    rw [hfs] at hitems
                    cases e with
                    | bad e =>
                        simp only [hitems]
                        exact rfl
                    | length payload => trivial
                | item fs rest =>
                    rw [hfs] at hitems
                    obtain ⟨k, rfl, hk, hparse⟩ := hitems
                    simp only [hparse]
                    refine ⟨i + 3 + k, by rw [Nat.add_assoc], by omega, by omega, ?_⟩
                    rw [plus_neg_natCast (by omega)]
                    congr 3
                    omega
            · simp only [if_neg hfinite]
              exact rfl
          · simp only [if_neg hplus, if_neg hminus, if_neg hcolon, if_neg hbulk, if_neg harray]
            exact rfl

theorem agrees_reply (buf : Bytes) :
    Agrees buf 0 (parseFrame (maxRespDepth + 1) buf 0) (reply buf) := by
  have h := agrees_parseFrame (maxRespDepth + 1) buf (Nat.zero_le _)
  rwa [Nat.cast_zero, List.drop_zero] at h

/-- A frame is at least three bytes, and none that are not there. -/
theorem parseFrame_bounds {buf : Bytes} (h : WholeLengths buf) :
    (∃ e, parseFrame (maxRespDepth + 1) buf 0 = .error e) ∨
    parseFrame (maxRespDepth + 1) buf 0 = .ok .incomplete ∨
    ∃ f, ∃ k : Nat, parseFrame (maxRespDepth + 1) buf 0 = .ok (.frame f k) ∧
      3 ≤ k ∧ k ≤ buf.length := by
  have hagrees := agrees_reply buf
  cases hreply : reply buf with
  | more =>
      rw [hreply] at hagrees
      exact Or.inr (Or.inl hagrees)
  | refuse e =>
      rw [hreply] at hagrees
      cases e with
      | bad e => exact Or.inl ⟨e, hagrees⟩
      | length payload => exact absurd hreply (h payload)
  | item f rest =>
      rw [hreply] at hagrees
      obtain ⟨k, -, hthree, hle, hparse⟩ := hagrees
      exact Or.inr (Or.inr ⟨f, k, hparse, hthree, by omega⟩)

/-! ## The loop -/

variable {α : Type} {onPush : Bool} {c c' : Client α} {ds : List (Value × Receiver α)}

/-- As many rounds as there are bytes are enough, and what is delivered are the replies
of the buffer. -/
theorem receive_drain {rounds : Nat} (hrounds : c.rxBuffer.length < rounds)
    (hlive : c.torn = false) (h : WholeStream c.rxBuffer) :
    ∃ ds c', receive onPush rounds c = some (ds, c') ∧ ds.map Prod.fst = replies c.rxBuffer ∧
      c'.rxBuffer = (drain reply c.rxBuffer).rest ∧
      c'.torn = (drain reply c.rxBuffer).refusal.isSome := by
  induction rounds generalizing c with
  | zero => exact absurd hrounds (Nat.not_lt_zero _)
  | succ rounds ih =>
      have hagrees := agrees_reply c.rxBuffer
      rw [receive, replies]
      by_cases hnil : c.rxBuffer = []
      · rw [if_pos hnil, hnil, show drain reply [] = ⟨[], [], none⟩ from
          @drain_more _ _ _ replyParser [] rfl]
        exact ⟨[], c, rfl, rfl, hnil, hlive⟩
      rw [if_neg hnil]
      cases hreply : reply c.rxBuffer with
      | more =>
          rw [hreply] at hagrees
          rw [show drain reply c.rxBuffer = _ from drain_more (P := replyParser) hreply,
            show parseFrame _ c.rxBuffer 0 = _ from hagrees]
          exact ⟨[], c, rfl, rfl, rfl, hlive⟩
      | refuse e =>
          have hdrain : drain reply c.rxBuffer = _ := drain_refuse (P := replyParser) hreply
          rw [hreply] at hagrees
          cases e with
          | bad e =>
              rw [hdrain, show parseFrame _ c.rxBuffer 0 = _ from hagrees]
              exact ⟨[], _, rfl, rfl, rfl, rfl⟩
          | length payload => exact absurd (congrArg Drained.refusal hdrain) (h payload)
      | item f rest =>
          have hdrain : drain reply c.rxBuffer = _ := drain_item (P := replyParser) hreply
          rw [hreply] at hagrees
          obtain ⟨k, hrest, hthree, hle, hparse⟩ := hagrees
          rw [Nat.zero_add] at hrest hle
          have hslice : slice c.rxBuffer k (c.rxBuffer.length : Rat) = rest := by
            rw [slice_natCast hle, hrest, List.take_of_length_le (by rw [List.length_drop])]
          have hlen : rest.length = c.rxBuffer.length - k := by rw [hrest, List.length_drop]
          have hwhole : WholeStream rest := fun payload => by
            have := h payload
            rwa [hdrain] at this
          simp only [hparse, hslice]
          obtain ⟨ds, c', hrun, hvalues, hbuf, htorn⟩ :=
            ih (c := { c with
              rxBuffer := rest
              pending := (deliver onPush c.pending (frameToValue f)).2 }) (by
                change rest.length < rounds
                omega) hlive hwhole
          rw [hrun, hdrain]
          refine ⟨_, c', rfl, ?_, hbuf, htorn⟩
          rw [List.map_cons, hvalues]
          rfl

/-- More rounds change nothing. -/
theorem receive_mono {n m : Nat} {r : List (Value × Receiver α) × Client α}
    (h : receive onPush n c = some r) (hle : n ≤ m) : receive onPush m c = some r := by
  induction n generalizing c r m with
  | zero => cases h
  | succ n ih =>
      obtain ⟨m, rfl⟩ : ∃ k, m = k + 1 := ⟨m - 1, by omega⟩
      rw [receive] at h ⊢
      split at h
      · next hnil => rwa [if_pos hnil]
      · next hnil =>
          rw [if_neg hnil]
          cases hparse : parseFrame (maxRespDepth + 1) c.rxBuffer 0 with
          | error e =>
              rw [hparse] at h
              exact h
          | ok outcome =>
              rw [hparse] at h
              cases outcome with
              | incomplete => exact h
              | frame f consumed =>
                  dsimp only at h ⊢
                  split at h
                  · cases h
                  · next ds c' hrest =>
                      rw [ih hrest (Nat.le_of_succ_le_succ hle)]
                      exact h

theorem receive_unique {n m : Nat} {r r' : List (Value × Receiver α) × Client α}
    (h : receive onPush n c = some r) (h' : receive onPush m c = some r') : r = r' := by
  have hmax := receive_mono h (Nat.le_max_left n m)
  rw [receive_mono h' (Nat.le_max_right n m)] at hmax
  exact (Option.some.inj hmax).symm

/-! ## Runs -/

/-- A connection that got some bytes: what it has not read of them, and whether it was
torn down. -/
def Got (stream : Bytes) (c : Client α) : Prop :=
  c.torn = (drain reply stream).refusal.isSome ∧
    (c.torn = false → c.rxBuffer = (drain reply stream).rest)

theorem drain_reply_append (stream more : Bytes) : drain reply (stream ++ more) =
    if (drain reply stream).refusal.isSome then
      { drain reply stream with rest := (drain reply stream).rest ++ more }
    else
      let d := drain reply ((drain reply stream).rest ++ more)
      { d with items := (drain reply stream).items ++ d.items } :=
  drain_append (P := replyParser) stream more

theorem wholeStream_of_append {stream more : Bytes} (h : WholeStream (stream ++ more)) :
    WholeStream stream := by
  intro payload heq
  have := h payload
  rw [drain_reply_append, if_pos (heq ▸ rfl)] at this
  exact this heq

/-- Each step is possible, and delivers the replies that its bytes complete. -/
theorem step_delivers {stream : Bytes} (hgot : Got stream c) (a : Action α)
    (hwhole : WholeStream (stream ++ streamOf [a])) :
    (∃ ds c', Step onPush c a ds c') ∧ ∀ ds c', Step onPush c a ds c' →
      Got (stream ++ streamOf [a]) c' ∧
      replies (stream ++ streamOf [a]) = replies stream ++ ds.map Prod.fst := by
  obtain ⟨htorn, hbuf⟩ := hgot
  cases a with
  | send p =>
      rw [show streamOf [Action.send p] = [] from rfl, List.append_nil]
      refine ⟨⟨[], _, .send⟩, fun ds c' hstep => ?_⟩
      cases hstep
      exact ⟨⟨htorn, hbuf⟩, (List.append_nil _).symm⟩
  | data chunk =>
      rw [show streamOf [Action.data chunk] = chunk from List.append_nil chunk] at hwhole ⊢
      cases hc : c.torn with
      | true =>
          rw [hc] at htorn
          refine ⟨⟨[], c, .deaf hc⟩, fun ds c' hstep => ?_⟩
          cases hstep with
          | data rounds live run => rw [hc] at live; cases live
          | deaf torn =>
              rw [Got, replies, drain_reply_append, if_pos htorn.symm, hc]
              exact ⟨⟨htorn, fun hf => (nomatch hf)⟩, (List.append_nil _).symm⟩
      | false =>
          rw [hc] at htorn
          have hnot : ¬ (drain reply stream).refusal.isSome = true := by
            rw [← htorn]
            exact Bool.false_ne_true
          have hdrain := drain_reply_append stream chunk
          rw [if_neg hnot, ← hbuf hc] at hdrain
          have hrest : WholeStream (c.rxBuffer ++ chunk) := fun payload => by
            have := hwhole payload
            rwa [hdrain] at this
          obtain ⟨ds, c', hrun, hvalues, hrxBuffer, htorn'⟩ := @receive_drain _ onPush
            { c with rxBuffer := c.rxBuffer ++ chunk } _ (Nat.lt_succ_self _) hc hrest
          refine ⟨⟨ds, c', .data _ hc hrun⟩, fun ds' c'' hstep => ?_⟩
          cases hstep with
          | deaf torn => rw [hc] at torn; cases torn
          | data rounds live run =>
              obtain ⟨rfl, rfl⟩ := Prod.mk.inj (receive_unique run hrun)
              rw [Got, hdrain, replies, hdrain, hvalues]
              refine ⟨⟨htorn', fun _ => hrxBuffer⟩, ?_⟩
              rw [List.map_append]
              rfl

theorem streamOf_cons (a : Action α) (as : List (Action α)) :
    streamOf (a :: as) = streamOf [a] ++ streamOf as := by
  rw [streamOf, streamOf, streamOf, List.flatMap_cons, List.flatMap_singleton]

/-- A run delivers the replies of its stream, however that is cut. -/
theorem run_delivers {stream : Bytes} (as : List (Action α)) (hgot : Got stream c)
    (hwhole : WholeStream (stream ++ streamOf as)) :
    (∃ ds c', Runs onPush c as ds c') ∧ ∀ ds c', Runs onPush c as ds c' →
      replies (stream ++ streamOf as) = replies stream ++ ds.map Prod.fst := by
  induction as generalizing stream c with
  | nil =>
      refine ⟨⟨[], c, .nil⟩, fun ds c' hrun => ?_⟩
      cases hrun
      rw [show streamOf ([] : List (Action α)) = [] from rfl, List.append_nil]
      exact (List.append_nil _).symm
  | cons a as ih =>
      rw [streamOf_cons, ← List.append_assoc] at hwhole ⊢
      obtain ⟨⟨ds, c₁, hstep⟩, hall⟩ :=
        @step_delivers _ onPush _ _ hgot a (wholeStream_of_append hwhole)
      constructor
      · obtain ⟨⟨ds', c₂, hruns⟩, -⟩ := ih (hall ds c₁ hstep).1 hwhole
        exact ⟨ds ++ ds', c₂, .cons hstep hruns⟩
      · intro ds c' hrun
        cases hrun with
        | cons step rest =>
            obtain ⟨hgot', hvalues⟩ := hall _ _ step
            have hrest := (ih hgot' hwhole).2 _ _ rest
            rw [hrest, hvalues, List.map_append, List.append_assoc]

/-! ## Commands -/

theorem crlfOffset_skip {line : Bytes} (h : ∀ b ∈ line, b ≠ 0x0D) (rest : Bytes) :
    crlfOffset (line ++ (crlf ++ rest)) = some line.length := by
  induction line with
  | nil => rfl
  | cons b line ih =>
      obtain ⟨hb, hline⟩ := List.forall_mem_cons.mp h
      have hnot : [b] ++ (line ++ (crlf ++ rest)).take 1 ≠ crlf := by
        intro heq
        exact hb (List.cons.inj heq).1
      rw [List.cons_append, crlfOffset, if_neg hnot, ih hline]
      rfl

theorem ascii_natText {n : Nat} {b : UInt8} (h : b ∈ ascii (natText n)) :
    48 ≤ b.toNat ∧ b.toNat ≤ 57 := by
  obtain ⟨u, hu, rfl⟩ := List.mem_map.mp h
  have hdigit := isDigitUnit_of_mem_natText hu
  simp only [isDigitUnit, Bool.and_eq_true, decide_eq_true_eq] at hdigit
  rw [UInt8.toNat_ofNat', Nat.mod_eq_of_lt (by omega)]
  exact hdigit

theorem utf8Text_natText (n : Nat) : utf8Text (ascii (natText n)) = natText n := by
  rw [utf8Text_ascii fun b hb => by have := ascii_natText hb; omega, ascii, List.map_map]
  refine (List.map_congr_left fun u hu => ?_).trans (List.map_id _)
  have hdigit := isDigitUnit_of_mem_natText hu
  simp only [isDigitUnit, Bool.and_eq_true, decide_eq_true_eq] at hdigit
  rw [Function.comp_apply, UInt8.toNat_ofNat', Nat.mod_eq_of_lt (by omega), UInt16.ofNat_toNat]
  rfl

theorem value_ofInt {n : Nat} (h : n < 2 ^ 53) : value (Double.ofInt n) = n := by
  have habs : ((n : Int)).natAbs < 2 ^ 53 := h
  have hneg : (Double.ofInt n).neg = false := by simp
  have hU : (Double.unitsPerOne : Rat) ≠ 0 :=
    Nat.cast_ne_zero.mpr (Nat.ne_of_gt Double.unitsPerOne_pos)
  rw [value, Double.scaled, hneg, if_neg Bool.false_ne_true, Double.mag_ofInt habs,
    Int.natAbs_natCast, Nat.cast_mul, Int.cast_mul, Int.cast_natCast, Int.cast_natCast,
    mul_div_cancel_right₀ _ hU]

/-- A length that is written is read. -/
theorem replyAt_length (levels : Nat) (marker : UInt8) (n : Nat) (rest : Bytes) :
    replyAt (levels + 1) (marker :: (ascii (natText n) ++ (crlf ++ rest))) =
      bodyAt (replyAt levels) marker (natText n) rest := by
  have hskip := @crlfOffset_skip (ascii (natText n)) (fun b hb => by
    have := ascii_natText hb
    rintro rfl
    exact absurd this (by decide)) rest
  have hrest : (ascii (natText n) ++ (crlf ++ rest)).drop ((ascii (natText n)).length + 2) =
      rest := by
    rw [← List.append_assoc]
    exact List.drop_left' (by rw [List.length_append]; rfl)
  rw [replyAt, hskip]
  dsimp only
  rw [List.take_left' rfl, utf8Text_natText, hrest]

theorem natText_number {n : Nat} (h : n < 2 ^ 53) :
    (stringToNumber (natText n)).isFinite = true ∧ value (stringToNumber (natText n)) = n ∧
      value (stringToNumber (natText n)) ≠ -1 := by
  have habs : ((n : Int)).natAbs < 2 ^ 53 := h
  have hvalue : value (stringToNumber (natText n)) = n := by
    rw [stringToNumber_natText, value_ofInt h]
  refine ⟨by rw [stringToNumber_natText]; exact Double.isFinite_ofInt habs, hvalue, ?_⟩
  rw [hvalue]
  intro heq
  have hnonneg : (0 : Rat) ≤ n := Nat.cast_nonneg n
  rw [heq] at hnonneg
  exact absurd hnonneg (by decide)

theorem replyAt_bulk (levels : Nat) {bytes : Bytes} (h : bytes.length < 2 ^ 53) (rest : Bytes) :
    replyAt (levels + 1) (bulkBytes bytes ++ rest) = .item (.bulk (some bytes)) rest := by
  obtain ⟨hfinite, hvalue, hnull⟩ := natText_number h
  have hwhole : wholeLength (bytes.length : Rat) = some bytes.length := by
    rw [wholeLength, if_pos ⟨Rat.den_natCast _, Nat.cast_nonneg _⟩, Rat.num_natCast,
      Int.toNat_natCast]
  have hshape : bulkBytes bytes ++ rest =
      0x24 :: (ascii (natText bytes.length) ++ (crlf ++ (bytes ++ (crlf ++ rest)))) := by
    simp [bulkBytes]
  have hlong : ¬ (bytes ++ (crlf ++ rest)).length < bytes.length + 2 := by
    rw [List.length_append, List.length_append, show crlf.length = 2 from rfl]
    omega
  have hrest : (bytes ++ (crlf ++ rest)).drop (bytes.length + 2) = rest := by
    rw [← List.append_assoc]
    exact List.drop_left' (by rw [List.length_append]; rfl)
  rw [hshape, replyAt_length, bodyAt]
  simp only [hfinite, if_true, if_neg hnull]
  simp only [hvalue, hwhole, if_neg hlong, hrest, List.take_left' rfl]
  rfl

theorem itemsAt_bulks (levels : Nat) {parts : List Bytes}
    (h : ∀ bytes ∈ parts, bytes.length < 2 ^ 53) (rest : Bytes) :
    itemsAt (replyAt (levels + 1)) parts.length (parts.flatMap bulkBytes ++ rest) =
      .item (parts.map fun bytes => .bulk (some bytes)) rest := by
  induction parts with
  | nil => rfl
  | cons bytes parts ih =>
      obtain ⟨hbytes, hparts⟩ := List.forall_mem_cons.mp h
      rw [List.flatMap_cons, List.append_assoc, List.length_cons, itemsAt,
        replyAt_bulk levels hbytes]
      dsimp only
      rw [ih hparts]
      rfl

/-- The arguments of a command, in an array and in buffers of the sizes that the language
has. -/
structure Command where
  args : List Arg
  nonempty : args ≠ []
  count : args.length < 2 ^ 32
  sizes : ∀ a ∈ args, ∃ bytes, a.bytes = some bytes ∧ bytes.length < 2 ^ 53

/-- The bytes of the arguments. -/
def Command.parts (c : Command) : List Bytes := c.args.map fun a => a.bytes.getD []

theorem mapM_bytes {args : List Arg}
    (h : ∀ a ∈ args, ∃ bytes, a.bytes = some bytes ∧ bytes.length < 2 ^ 53) :
    args.mapM Arg.bytes = some (args.map fun a => a.bytes.getD []) := by
  induction args with
  | nil => rfl
  | cons a args ih =>
      obtain ⟨⟨bytes, hbytes, -⟩, hargs⟩ := List.forall_mem_cons.mp h
      rw [List.mapM_cons, hbytes, ih hargs, List.map_cons, hbytes]
      rfl

/-- A command is read back as the array of its arguments, to its last byte. -/
theorem parse_encodeCommand (cmd : Command) : ∃ bytes, encodeCommand cmd.args = .ok bytes ∧
    parseFrame (maxRespDepth + 1) bytes 0 =
      .ok (.frame (.array (cmd.parts.map fun part => .bulk (some part))) bytes.length) := by
  have hparts : cmd.args.mapM Arg.bytes = some cmd.parts := mapM_bytes cmd.sizes
  have hlen : cmd.parts.length = cmd.args.length := List.length_map _
  have hsizes : ∀ part ∈ cmd.parts, part.length < 2 ^ 53 := by
    intro part hpart
    obtain ⟨a, ha, rfl⟩ := List.mem_map.mp hpart
    obtain ⟨bytes, hbytes, hsize⟩ := cmd.sizes a ha
    rwa [hbytes]
  have hcount : cmd.args.length < 2 ^ 53 := Nat.lt_trans cmd.count (by decide)
  obtain ⟨hfinite, hvalue, hnull⟩ := natText_number hcount
  have hreply : reply (0x2A :: (ascii (natText cmd.args.length) ++ crlf ++
      cmd.parts.flatMap bulkBytes)) =
        .item (.array (cmd.parts.map fun part => .bulk (some part))) [] := by
    have hitems := itemsAt_bulks (maxRespDepth - 1) hsizes []
    rw [List.append_nil, hlen] at hitems
    rw [reply, List.append_assoc, replyAt_length, bodyAt]
    simp only [hfinite, if_true, if_neg hnull]
    simp only [hvalue]
    rw [show ((cmd.args.length : Rat)).ceil.toNat = cmd.args.length by
      rw [← Int.cast_natCast, Rat.ceil_intCast, Int.toNat_natCast]]
    rw [show replyAt maxRespDepth = replyAt (maxRespDepth - 1 + 1) from rfl, hitems]
    rfl
  refine ⟨_, by rw [encodeCommand, if_neg cmd.nonempty, hparts], ?_⟩
  have hagrees := agrees_reply (0x2A :: (ascii (natText cmd.args.length) ++ crlf ++
    cmd.parts.flatMap bulkBytes))
  rw [hreply] at hagrees
  obtain ⟨k, hrest, -, hle, hparse⟩ := hagrees
  rw [Nat.zero_add] at hrest hle
  have hall := congrArg List.length hrest
  rw [List.length_drop, List.length_nil] at hall
  obtain rfl := Nat.le_antisymm hle (Nat.sub_eq_zero_iff_le.mp hall.symm)
  exact hparse

/-! ## The client -/

/-- Where the lengths are whole numbers, a stream is delivered reply by reply however it
is cut, a frame takes what is there and no less than three bytes, and a command is read
back as it was. -/
theorem redis_replies {α : Type} (onPush : Bool) (pending : List α) (as : List (Action α)) :
    (WholeStream (streamOf as) →
      (∃ ds c, Runs onPush ⟨[], pending, false⟩ as ds c) ∧
      ∀ ds c, Runs onPush ⟨[], pending, false⟩ as ds c →
        ds.map Prod.fst = replies (streamOf as)) ∧
    (∀ buf, WholeLengths buf →
      (∃ e, parseFrame (maxRespDepth + 1) buf 0 = .error e) ∨
      parseFrame (maxRespDepth + 1) buf 0 = .ok .incomplete ∨
      ∃ f, ∃ k : Nat, parseFrame (maxRespDepth + 1) buf 0 = .ok (.frame f k) ∧
        3 ≤ k ∧ k ≤ buf.length) ∧
    ∀ cmd : Command, ∃ bytes, encodeCommand cmd.args = .ok bytes ∧
      parseFrame (maxRespDepth + 1) bytes 0 =
        .ok (.frame (.array (cmd.parts.map fun part => .bulk (some part))) bytes.length) := by
  refine ⟨fun hwhole => ?_, fun buf => parseFrame_bounds, parse_encodeCommand⟩
  have hgot : Got [] (⟨[], pending, false⟩ : Client α) := by
    rw [Got, show drain reply [] = ⟨[], [], none⟩ from
      @drain_more _ _ _ replyParser [] rfl]
    exact ⟨rfl, fun _ => rfl⟩
  obtain ⟨hruns, hall⟩ := @run_delivers _ onPush _ _ as hgot hwhole
  exact ⟨hruns, fun ds c hrun => (hall ds c hrun).symm⟩

/-- A bulk string, cut between two chunks, and an array of an integer and a null. -/
theorem redis_replies_bulk :
    ∃ ds c, Runs false ⟨[], [3], false⟩ [.data (ascii (units "$4\r\nPO")), .send 7,
      .data (ascii (units "NG\r\n*2\r\n:7\r\n$-1\r\n"))] ds c ∧ ds.map Prod.fst =
        replies (ascii (units "$4\r\nPONG\r\n*2\r\n:7\r\n$-1\r\n")) :=
  have hwhole : WholeStream (ascii (units "$4\r\nPONG\r\n*2\r\n:7\r\n$-1\r\n")) :=
    fun payload heq => by
      have hnone : (drain reply
          (ascii (units "$4\r\nPONG\r\n*2\r\n:7\r\n$-1\r\n"))).refusal.isSome = false := by
        decide +kernel
      rw [heq] at hnone
      cases hnone
  have ⟨⟨ds, c, hrun⟩, hall⟩ := (redis_replies false [3] [.data (ascii (units "$4\r\nPO")),
    .send 7, .data (ascii (units "NG\r\n*2\r\n:7\r\n$-1\r\n"))]).1 hwhole
  ⟨ds, c, hrun, hall ds c hrun⟩

theorem deliver_nobody (v : Value) : (deliver false ([] : List Nat) v).2 = [] := by
  have hpush : isPush false v = false := by
    unfold isPush
    split
    · rfl
    · rfl
  rw [deliver, hpush]
  rfl

def consumed? : Except Err Outcome → Option Rat
  | .ok (.frame _ consumed) => some consumed
  | _ => none

/-- A bulk string of -7 bytes is a frame of none, and the loop never gets past it. -/
theorem no_bytes_consumed :
    (∃ f, parseFrame (maxRespDepth + 1) (ascii (units "$-7\r\n")) 0 = .ok (.frame f 0)) ∧
    ∀ rounds, receive (α := Nat) false rounds ⟨ascii (units "$-7\r\n"), [], false⟩ = none := by
  have hparse : ∃ f, parseFrame (maxRespDepth + 1) (ascii (units "$-7\r\n")) 0 =
      .ok (.frame f 0) := by
    have hconsumed : consumed? (parseFrame (maxRespDepth + 1) (ascii (units "$-7\r\n")) 0) =
        some 0 := by decide +kernel
    revert hconsumed
    generalize parseFrame (maxRespDepth + 1) (ascii (units "$-7\r\n")) 0 = found
    intro hconsumed
    match found, hconsumed with
    | .ok (.frame f consumed), hconsumed => exact ⟨f, by rw [Option.some.inj hconsumed]⟩
  refine ⟨hparse, fun rounds => ?_⟩
  obtain ⟨f, hparse⟩ := hparse
  have hrest : slice (ascii (units "$-7\r\n")) 0
      ((ascii (units "$-7\r\n")).length : Rat) = ascii (units "$-7\r\n") := by decide +kernel
  have hne : ascii (units "$-7\r\n") ≠ [] := by decide
  induction rounds with
  | zero => rfl
  | succ rounds ih =>
      rw [receive, if_neg hne, hparse]
      dsimp only
      rw [hrest, deliver_nobody, ih]

end Blamejs.RedisClient
