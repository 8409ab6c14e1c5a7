import Blamejs.Lib.Run
import Blamejs.Proofs.WebSocketFrames

/-!
# The frames a connection writes

Once a Close frame is out the connection is no longer open, and only pings, pongs and
data frames of an open connection are written otherwise: so one Close at most, and
after it no more than the pongs for a peer that is still talking. The sizes are
another matter. What a peer may send is measured when it comes in, and so are the
answers to it; what `close` and `ping` are given is not, nor is the text of a failed
decompression, which goes out as the reason.
-/

namespace Blamejs.WebSocket

open Blamejs.Js Incremental Run

/-! ## Texts of Close frames -/

theorem utf8_ascii_append {s : JsString} (h : ∀ u ∈ s, u.toNat < 0x80) (t : JsString) :
    (utf8 (s ++ t)).length = s.length + (utf8 t).length := by
  induction s with
  | nil => simp
  | cons u s ih =>
      have hu := h u List.mem_cons_self
      have hhigh : isHigh u = false := by
        simp only [isHigh, Bool.and_eq_false_iff, decide_eq_false_iff_not]
        omega
      have hchar : (String.utf8EncodeChar (loneScalar u)).length = 1 := by
        have hplain : (loneScalar u).toNat = u.toNat := by
          rw [loneScalar_toNat, if_neg]
          simp only [isHigh, isLow, Bool.or_eq_true, Bool.and_eq_true, decide_eq_true_eq]
          omega
        rw [String.length_utf8EncodeChar, Char.utf8Size_eq_one_iff, UInt32.le_iff_toNat_le]
        exact Nat.le_of_lt_succ (lt_of_eq_of_lt hplain hu)
      rw [utf8, List.cons_append, scalars_single hhigh, List.flatMap_cons, List.length_append,
        hchar, List.length_cons]
      have := ih fun v hv => h v (List.mem_cons_of_mem _ hv)
      rw [utf8] at this
      omega

theorem length_natText_le {n k : Nat} (hk : 0 < k) (h : n < 10 ^ k) : (natText n).length ≤ k := by
  rw [natText, List.length_map]
  exact (Nat.length_toDigits_le_iff (by decide) hk).mpr h

theorem natText_ascii {n : Nat} : ∀ u ∈ natText n, u.toNat < 0x80 := by
  intro u hu
  have := isDigitUnit_of_mem_natText hu
  simp only [isDigitUnit, Bool.and_eq_true, decide_eq_true_eq] at this
  omega

/-! ## Valid streams -/

/-- A code that may be sent, and text in UTF-8. -/
def ClosePayload (payload : Bytes) : Prop :=
  ∃ code text, isValidCloseCode code = true ∧ payload = beBytes 2 code.toNat ++ text ∧
    (decodeUtf8 text).isSome = true

/-- What holds of each frame that a server may send. -/
structure FrameOk (f : Frame) : Prop where
  plain : ∃ opcode payload rsv1, f = plainFrame opcode payload rsv1 ∧ opcode < 16
  control : 8 ≤ f.opcode → f.fin = true ∧ f.payload.length ≤ 125
  close : f.opcode = opcodeClose → ClosePayload f.payload

/-- After a Close frame only pings and pongs. -/
def ClosesOnce : List Frame → Prop
  | [] => True
  | f :: fs => if f.opcode = opcodeClose then ∀ g ∈ fs, opcodeClose < g.opcode else ClosesOnce fs

structure ServerStream (frames : List Frame) : Prop where
  each : ∀ f ∈ frames, FrameOk f
  once : ClosesOnce frames

def Unclosed (frames : List Frame) : Prop := ∀ f ∈ frames, f.opcode ≠ opcodeClose

theorem ClosesOnce.of_unclosed {frames : List Frame} (h : Unclosed frames) (f : Frame) :
    ClosesOnce (frames ++ [f]) := by
  induction frames with
  | nil => simp [ClosesOnce]
  | cons g frames ih =>
      rw [List.cons_append, ClosesOnce, if_neg (h g List.mem_cons_self)]
      exact ih fun f hf => h f (List.mem_cons_of_mem _ hf)

theorem ClosesOnce.control {frames : List Frame} (h : ClosesOnce frames) {f : Frame}
    (hf : opcodeClose < f.opcode) : ClosesOnce (frames ++ [f]) := by
  induction frames with
  | nil => simp [ClosesOnce]
  | cons g frames ih =>
      rw [List.cons_append, ClosesOnce]
      rw [ClosesOnce] at h
      split at h
      · next hclose =>
          rw [if_pos hclose]
          intro g' hg'
          rcases List.mem_append.mp hg' with hg' | hg'
          · exact h g' hg'
          · exact List.mem_singleton.mp hg' ▸ hf
      · next hclose =>
          rw [if_neg hclose]
          exact ih h

theorem ClosesOnce.countP_le {frames : List Frame} (h : ClosesOnce frames) :
    frames.countP (·.opcode = opcodeClose) ≤ 1 := by
  induction frames with
  | nil => simp
  | cons f frames ih =>
      rw [ClosesOnce] at h
      split at h
      · next hclose =>
          have hzero : frames.countP (·.opcode = opcodeClose) = 0 := by
            refine List.countP_eq_zero.mpr fun g hg => ?_
            have := h g hg
            simp
            omega
          rw [List.countP_cons, hzero]
          split <;> omega
      · next hclose =>
          rw [List.countP_cons_of_neg (by simpa using hclose)]
          exact ih h

theorem ClosesOnce.after {pre post : List Frame} {f : Frame} (h : ClosesOnce (pre ++ f :: post))
    (hf : f.opcode = opcodeClose) : ∀ g ∈ post, opcodeClose < g.opcode := by
  induction pre with
  | nil =>
      rw [List.nil_append, ClosesOnce, if_pos hf] at h
      exact h
  | cons p pre ih =>
      rw [List.cons_append, ClosesOnce] at h
      split at h
      · -- the Close frame itself is not among the frames after another
        have := h f (by simp)
        omega
      · exact ih h

/-! ## What each operation writes -/

variable {w : World} {o : Opts} {c : Conn}

/-- Of a connection: what it wrote is a stream, it wrote no Close frame before it says
so, and then it is not open. -/
structure WireOk (c : Conn) : Prop where
  stream : ServerStream c.written
  unclosed : c.closeSent = false → Unclosed c.written
  notOpen : c.closeSent = true → c.state ≠ .opened

theorem transitionToClosed_fields (c : Conn) (code : Nat) (reason : JsString) (wasClean : Bool)
    (error : Option JsString) :
    (transitionToClosed o c code reason wasClean error).state = .closed ∧
      (transitionToClosed o c code reason wasClean error).written = c.written ∧
      (transitionToClosed o c code reason wasClean error).closeSent = c.closeSent := by
  unfold transitionToClosed
  split
  · next h => exact ⟨h, rfl, rfl⟩
  · exact ⟨rfl, rfl, rfl⟩

theorem WireOk.transition (h : WireOk c) (code : Nat) (reason : JsString) (wasClean : Bool)
    (error : Option JsString) : WireOk (transitionToClosed o c code reason wasClean error) := by
  obtain ⟨hstate, hwritten, hsent⟩ :=
    transitionToClosed_fields (o := o) c code reason wasClean error
  exact ⟨hwritten ▸ h.stream, fun hs => hwritten ▸ h.unclosed (hsent ▸ hs),
    fun _ => by rw [hstate]; decide⟩

/-- A write appends the frame or nothing. -/
theorem sendFrame_cases (writer : Writer) (c : Conn) (opcode : Nat) (payload : Bytes)
    (rsv1 : Bool) :
    (sendFrame w o writer c opcode payload rsv1).closeSent = c.closeSent ∧
    ((sendFrame w o writer c opcode payload rsv1).state = c.state ∧
      (sendFrame w o writer c opcode payload rsv1).written =
        c.written ++ [plainFrame opcode payload rsv1] ∨
    (sendFrame w o writer c opcode payload rsv1).state = .closed ∧
      (sendFrame w o writer c opcode payload rsv1).written = c.written) := by
  unfold sendFrame
  split
  · next h => exact ⟨rfl, Or.inr ⟨h, rfl⟩⟩
  · dsimp only
    split
    · exact ⟨rfl, Or.inl ⟨rfl, rfl⟩⟩
    · obtain ⟨hstate, hwritten, hsent⟩ := transitionToClosed_fields (o := o)
        { c with attempts := c.attempts + 1 } closeAbnormal (units "socket no longer writable")
        false none
      exact ⟨hsent, Or.inr ⟨hstate, hwritten⟩⟩
    · next message _ =>
        obtain ⟨hstate, hwritten, hsent⟩ := transitionToClosed_fields (o := o)
          { c with attempts := c.attempts + 1 } closeAbnormal
          (if message = [] then units "write failed" else message) false (some message)
        exact ⟨hsent, Or.inr ⟨hstate, hwritten⟩⟩

theorem WireOk.send (h : WireOk c) (writer : Writer) {opcode : Nat} {payload : Bytes} {rsv1 : Bool}
    (hok : FrameOk (plainFrame opcode payload rsv1)) (hne : opcode ≠ opcodeClose)
    (hafter : c.closeSent = true → opcodeClose < opcode) :
    WireOk (sendFrame w o writer c opcode payload rsv1) := by
  obtain ⟨hsent, ⟨hstate, hwritten⟩ | ⟨hstate, hwritten⟩⟩ :=
    sendFrame_cases (w := w) (o := o) writer c opcode payload rsv1
  · refine ⟨⟨fun f hf => ?_, ?_⟩, fun hs f hf => ?_, fun hs => hstate ▸ h.notOpen (hsent ▸ hs)⟩
    · rw [hwritten] at hf
      rcases List.mem_append.mp hf with hf | hf
      · exact h.stream.each f hf
      · exact List.mem_singleton.mp hf ▸ hok
    · rw [hwritten]
      cases hcs : c.closeSent with
      | false => exact .of_unclosed (h.unclosed hcs) _
      | true => exact h.stream.once.control (hafter hcs)
    · rw [hwritten] at hf
      rcases List.mem_append.mp hf with hf | hf
      · exact h.unclosed (hsent ▸ hs) f hf
      · exact List.mem_singleton.mp hf ▸ hne
  · exact ⟨hwritten ▸ h.stream, fun hs => hwritten ▸ h.unclosed (hsent ▸ hs),
      fun _ => by rw [hstate]; decide⟩

theorem closePayload_ok {code : Nat} {reason : JsString} (hcode : isValidCloseCode code = true)
    (hreason : (utf8 reason).length ≤ 123) :
    FrameOk (plainFrame opcodeClose (beBytes 2 code ++ utf8 reason) false) := by
  refine ⟨⟨_, _, _, rfl, by decide⟩, fun _ => ⟨rfl, ?_⟩,
    fun _ => ⟨code, utf8 reason, hcode, rfl, ?_⟩⟩
  · simp [plainFrame]
    omega
  · rw [decodeUtf8_utf8]
    rfl

/-- A Close frame while none is out, with the mark that is set behind it. -/
theorem WireOk.sendClose (h : WireOk c) (hunsent : c.closeSent = false) (writer : Writer)
    {code : Nat} {reason : JsString} (hcode : isValidCloseCode code = true)
    (hreason : (utf8 reason).length ≤ 123) :
    ServerStream (sendCloseFrame w o writer c code reason).written := by
  unfold sendCloseFrame
  obtain ⟨-, ⟨-, hwritten⟩ | ⟨-, hwritten⟩⟩ := sendFrame_cases (w := w) (o := o) writer c
    opcodeClose (beBytes 2 code ++ utf8 reason) false
  · rw [hwritten]
    refine ⟨fun f hf => ?_, .of_unclosed (h.unclosed hunsent) _⟩
    rcases List.mem_append.mp hf with hf | hf
    · exact h.stream.each f hf
    · exact List.mem_singleton.mp hf ▸ closePayload_ok hcode hreason
  · rw [hwritten]
    exact h.stream

/-- The end of `abort` and of `finishClose`. -/
theorem WireOk.finish (h : WireOk c) {code : Nat} {reason : JsString} (wasClean : Bool)
    (hcode : isValidCloseCode code = true) (hreason : (utf8 reason).length ≤ 123) :
    WireOk (transitionToClosed o (if c.closeSent then c
      else { sendCloseFrame w o .other c code reason with closeSent := true }) code reason wasClean
        none) := by
  split
  · exact h.transition _ _ _ _
  · next hunsent =>
      have hstream := h.sendClose (w := w) (o := o) (by simpa using hunsent) .other hcode hreason
      obtain ⟨hstate, hwritten, hsent⟩ := transitionToClosed_fields (o := o)
        { sendCloseFrame w o .other c code reason with closeSent := true } code reason wasClean none
      exact ⟨hwritten ▸ hstream, fun hs => (by rw [hsent] at hs; cases hs),
        fun _ => by rw [hstate]; decide⟩

theorem WireOk.abort (h : WireOk c) {code : Nat} {reason : JsString}
    (hcode : isValidCloseCode code = true) (hreason : (utf8 reason).length ≤ 123) :
    WireOk (abort w o c code reason) := by
  unfold WebSocket.abort
  split
  · exact h
  · exact h.finish false hcode hreason

theorem WireOk.finishClose (h : WireOk c) {code : Nat} {reason : JsString}
    (hcode : isValidCloseCode code = true) (hreason : (utf8 reason).length ≤ 123) :
    WireOk (finishClose w o c code reason) := h.finish true hcode hreason

/-! ## Calls and frames -/

/-- A close reason and a ping that fit into a control frame. -/
def CallFits : Call → Prop
  | .close _ reason => (utf8 reason).length ≤ 123
  | .ping payload => payload.length ≤ 125
  | .sendText _ | .sendBinary _ => True

/-- What the listeners call fits, and so does the reason of a failed decompression. -/
structure Fits (w : World) : Prop where
  react : ∀ n, ∀ k ∈ w.react n, CallFits k
  inflate : ∀ data message, w.inflate data = .error message → (utf8 message).length ≤ 88

theorem dataFrame_ok {opcode : Nat} (h : opcode = opcodeText ∨ opcode = opcodeBinary)
    (payload : Bytes) (rsv1 : Bool) : FrameOk (plainFrame opcode payload rsv1) := by
  have hlt : opcode < 8 := by
    rcases h with rfl | rfl <;> decide
  refine ⟨⟨_, _, _, rfl, by omega⟩, fun h8 => absurd h8 ?_, fun hclose => ?_⟩
  · exact Nat.not_le.mpr hlt
  · simp only [plainFrame, opcodeClose] at hclose
    omega

theorem controlFrame_ok {opcode : Nat} {payload : Bytes} (hlt : opcodeClose < opcode)
    (hlt' : opcode < 16) (hlen : payload.length ≤ 125) :
    FrameOk (plainFrame opcode payload false) :=
  ⟨⟨_, _, _, rfl, hlt'⟩, fun _ => ⟨rfl, hlen⟩, fun h => absurd h (Nat.ne_of_gt hlt)⟩

theorem WireOk.sendData (h : WireOk c) (hopen : c.state = .opened) {opcode : Nat}
    (hop : opcode = opcodeText ∨ opcode = opcodeBinary) (payload : Bytes) :
    WireOk (sendDataFrame w o c opcode payload) := by
  have hne : opcode ≠ opcodeClose := by
    rcases hop with rfl | rfl <;> decide
  have hafter : c.closeSent = true → opcodeClose < opcode := fun hs => absurd hopen (h.notOpen hs)
  unfold sendDataFrame
  split
  · split
    · exact h.send .other (dataFrame_ok hop _ true) hne hafter
    · exact h.send .other (dataFrame_ok hop _ false) hne hafter
  · exact h.send .other (dataFrame_ok hop _ false) hne hafter

theorem isValidCloseCode_natCast {code : Int} (h : isValidCloseCode code = true) :
    ((code.toNat : Nat) : Int) = code := by
  refine Int.toNat_of_nonneg ?_
  rcases Bool.or_eq_true _ _ ▸ h with h | h
  · have hpos : ∀ k ∈ assignedCloseCodes, 0 ≤ k := by decide
    exact hpos _ (of_decide_eq_true h)
  · have := of_decide_eq_true (Bool.and_eq_true _ _ ▸ h).1
    omega

theorem WireOk.close (h : WireOk c) (code : Option Int) {reason : JsString}
    (hreason : (utf8 reason).length ≤ 123) : WireOk (close w o c code reason) := by
  unfold WebSocket.close
  dsimp only
  split
  · exact h
  · next hcode =>
      split
      · exact h
      · next hopen =>
          rw [not_not] at hcode hopen
          have hunsent : c.closeSent = false := by
            by_contra hs
            exact h.notOpen (by simpa using hs) hopen
          rw [← isValidCloseCode_natCast hcode] at hcode
          exact ⟨h.sendClose hunsent .close hcode hreason, fun hs => (nomatch hs),
            fun _ hstate => (nomatch hstate)⟩

theorem WireOk.localCall (h : WireOk c) {k : Call} (hk : CallFits k) :
    WireOk (localCall w o c k) := by
  cases k with
  | sendText s =>
      simp only [WebSocket.localCall]
      split
      · exact h
      · next hopen => exact h.sendData (not_not.mp hopen) (Or.inl rfl) _
  | sendBinary data =>
      simp only [WebSocket.localCall]
      split
      · exact h
      · next hopen => exact h.sendData (not_not.mp hopen) (Or.inr rfl) _
  | ping payload =>
      simp only [WebSocket.localCall]
      split
      · exact h
      · exact h.send .other (controlFrame_ok (by decide) (by decide) hk) (by decide)
          fun _ => by decide
  | close code reason => exact h.close code hk

theorem WireOk.emit (hw : Fits w) (h : WireOk c) (e : Event) : WireOk (emit w o c e) := by
  have hcalls : ∀ ks : List Call, (∀ k ∈ ks, CallFits k) → ∀ c : Conn, WireOk c →
      WireOk (ks.foldl (WebSocket.localCall w o) c) := by
    intro ks
    induction ks with
    | nil => exact fun _ c h => h
    | cons k ks ih =>
        intro hks c h
        exact ih (fun k hk => hks k (List.mem_cons_of_mem _ hk)) _
          (h.localCall (hks k List.mem_cons_self))
  exact hcalls _ (hw.react _) _ ⟨h.stream, h.unclosed, h.notOpen⟩

/-- A text of the source is counted character by character: its own bytes are slow to
evaluate. -/
theorem text_short {l : List Char} (h : (utf8 (l.map unit)).length ≤ 123) :
    (utf8 (units (String.ofList l))).length ≤ 123 := by
  rwa [units, String.toList_ofList]

theorem frameFault_short {frame : Frame} {reason : String} (h : frameFault o frame = some reason) :
    (utf8 (units reason)).length ≤ 123 := by
  unfold frameFault at h
  repeat' split at h
  all_goals cases h
  all_goals exact text_short (by decide)

theorem frameFault_none {frame : Frame} (h : frameFault o frame = none)
    (hcontrol : 8 ≤ frame.opcode) : frame.payload.length ≤ 125 ∧ frame.fin = true := by
  unfold frameFault at h
  repeat' split at h
  all_goals cases h
  next hlen hfin =>
    refine ⟨?_, ?_⟩
    · by_contra hlong
      exact hlen ⟨hcontrol, by omega⟩
    · by_contra hnot
      exact hfin ⟨hcontrol, hnot⟩

theorem count_text_short {before after : List Char} {n k : Nat} (hk : 0 < k) (hn : n < 10 ^ k)
    (hascii : ∀ u ∈ before.map unit, u.toNat < 0x80)
    (hlen : before.length + k + (utf8 (after.map unit)).length ≤ 123) :
    (utf8 (units (String.ofList before) ++ natText n ++ units (String.ofList after))).length ≤
      123 := by
  have hdigits := length_natText_le hk hn
  rw [units, units, String.toList_ofList, String.toList_ofList, List.append_assoc,
    utf8_ascii_append hascii, utf8_ascii_append natText_ascii, List.length_map]
  omega

theorem safe_lt {n : Nat} (h : n ≤ Double.maxSafe) : n < 10 ^ 16 :=
  Nat.lt_of_le_of_lt h (by decide)

theorem WireOk.deliver (hw : Fits w) (h : WireOk c) (opcode : Nat) (data : Bytes) :
    WireOk (deliver w o c opcode data) := by
  unfold WebSocket.deliver
  split
  · split
    · exact h.emit hw _
    · exact h.abort (by decide) (text_short (by decide))
  · exact h.emit hw _

theorem WireOk.emitMessage (hw : Fits w) (h : WireOk c) (g : Frag) :
    WireOk (emitMessage w o c g) := by
  have h' : WireOk { c with frag := none } := ⟨h.stream, h.unclosed, h.notOpen⟩
  unfold WebSocket.emitMessage
  dsimp only
  split
  · split
    · next message hinflate =>
        refine h'.abort (by decide) ?_
        rw [utf8_ascii_append (List.all_iff_forall_prop.mp (by decide))]
        have := hw.inflate _ _ hinflate
        have hprefix : (units "permessage-deflate inflate failed: ").length = 35 := by decide
        omega
    · split
      · exact h'.abort (by decide) (text_short (by decide))
      · exact h'.deliver hw _ _
  · exact h'.deliver hw _ _

theorem WireOk.appendFragment (hw : Fits w) (h : WireOk c) (g : Frag) (frame : Frame) :
    WireOk (appendFragment w o c g frame) := by
  unfold WebSocket.appendFragment
  dsimp only
  split
  · exact h.abort (by decide)
      (count_text_short (by decide) (safe_lt o.fragments_safe)
        (List.all_iff_forall_prop.mp (by decide)) (by decide))
  · split
    · exact h.abort (by decide) (text_short (by decide))
    · have h' : ∀ g : Frag, WireOk { c with frag := some g } :=
        fun _ => ⟨h.stream, h.unclosed, h.notOpen⟩
      split
      · exact (h' _).emitMessage hw _
      · exact h' _

theorem textDecode_short {text : Bytes} {reason : JsString} (h : textDecode text = some reason) :
    (utf8 reason).length ≤ text.length := by
  rcases utf8_of_textDecode h with rfl | rfl
  · exact Nat.le_refl _
  · rw [utf8, utf8, scalars_single (by decide), List.flatMap_cons, List.length_append]
    exact Nat.le_add_left _ _

theorem WireOk.handleClose (h : WireOk c) {frame : Frame} (hlen : frame.payload.length ≤ 125) :
    WireOk (handleClose w o c frame) := by
  unfold WebSocket.handleClose
  split
  · exact h.finishClose (by decide) (by decide)
  · exact h.abort (by decide) (text_short (by decide))
  · next b0 b1 text hpayload =>
      rw [hpayload, List.length_cons, List.length_cons] at hlen
      have hcode : beValue [b0, b1] < 10 ^ 5 := by
        have := b0.toNat_lt
        have := b1.toNat_lt
        simp only [beValue, List.foldl_cons, List.foldl_nil]
        omega
      dsimp only
      split
      · exact h.abort (by decide)
          (count_text_short (by decide) hcode (List.all_iff_forall_prop.mp (by decide))
            (by decide))
      · next hvalid =>
          split
          · next reason hreason =>
              have := textDecode_short hreason
              exact h.finishClose (not_not.mp hvalid) (by omega)
          · exact h.abort (by decide) (text_short (by decide))

theorem WireOk.handleFrame (hw : Fits w) (h : WireOk c) (now : Int) {frame : Frame}
    (hop : frame.opcode < 16) : WireOk (handleFrame w o now c frame) := by
  unfold WebSocket.handleFrame
  split
  · next reason hfault => exact h.abort (by decide) (frameFault_short hfault)
  · next hfault =>
      have hcontrol := frameFault_none hfault
      have hfrag : ∀ g : Option Frag, WireOk { c with frag := g } :=
        fun _ => ⟨h.stream, h.unclosed, h.notOpen⟩
      split
      · split
        · exact h.abort (by decide) (text_short (by decide))
        · exact h.appendFragment hw _ _
      · split
        · split
          · exact h.abort (by decide) (text_short (by decide))
          · dsimp only
            split
            · exact (hfrag _).emitMessage hw _
            · exact hfrag _
        · split
          · next hclose => exact h.handleClose (hcontrol (by rw [hclose]; decide)).1
          · split
            · next hping =>
                have hlen := (hcontrol (by rw [hping]; decide)).1
                exact (h.emit hw _).send .other (controlFrame_ok (by decide) (by decide) hlen)
                  (by decide) fun _ => by decide
            · split
              · have h' : WireOk { c with lastPongAt := now } := ⟨h.stream, h.unclosed, h.notOpen⟩
                exact h'.emit hw _
              · refine h.abort (by decide) ?_
                have : (utf8 (units "unknown opcode " ++ natText frame.opcode ++ units "")).length ≤
                    123 :=
                  count_text_short (by decide) (Nat.lt_trans hop (by decide : 16 < 10 ^ 2))
                    (List.all_iff_forall_prop.mp (by decide)) (by decide)
                simpa [units] using this

theorem WireOk.handleFrames (hw : Fits w) (h : WireOk c) (now : Int) {frames : List Frame}
    (hop : ∀ f ∈ frames, f.opcode < 16) : WireOk (handleFrames w o now c frames) := by
  induction frames generalizing c with
  | nil => exact h
  | cons f frames ih =>
      have hf := h.handleFrame (o := o) hw now (hop f List.mem_cons_self)
      unfold WebSocket.handleFrames
      dsimp only
      split
      · exact hf
      · exact ih hf fun g hg => hop g (List.mem_cons_of_mem _ hg)

theorem tryParseFrame_opcode {max : Nat} {buf rest : Bytes} {f : Frame}
    (h : tryParseFrame max buf = .item f rest) : f.opcode < 16 := by
  unfold tryParseFrame frameAt at h
  repeat' split at h
  all_goals cases h
  exact Nat.mod_lt _ (by decide)

theorem drained_opcode {max : Nat} (buf : Bytes) :
    ∀ f ∈ (drained max buf).items, f.opcode < 16 := by
  induction buf using drain_induction (P := frameParser max) with
  | more buf h =>
      rw [drained, show drain (tryParseFrame max) buf = _ from drain_more (P := frameParser max) h]
      exact fun f hf => (nomatch hf)
  | refuse buf e h =>
      rw [drained,
        show drain (tryParseFrame max) buf = _ from drain_refuse (P := frameParser max) h]
      exact fun f hf => (nomatch hf)
  | item buf f rest h ih =>
      rw [drained, show drain (tryParseFrame max) buf = _ from drain_item (P := frameParser max) h]
      intro g hg
      rcases List.mem_cons.mp hg with rfl | hg
      · exact tryParseFrame_opcode h
      · exact ih g hg

theorem drained_refusal {max : Nat} (hmax : max ≤ Double.maxSafe) (buf : Bytes) {e : JsString} :
    (drained max buf).refusal = some e → (utf8 e).length ≤ 123 := by
  induction buf using drain_induction (P := frameParser max) with
  | more buf h =>
      rw [drained, show drain (tryParseFrame max) buf = _ from drain_more (P := frameParser max) h]
      exact fun he => (nomatch he)
  | refuse buf e' h =>
      rw [drained,
        show drain (tryParseFrame max) buf = _ from drain_refuse (P := frameParser max) h]
      rintro ⟨⟩
      have hparse : tryParseFrame max buf = .refuse e := h
      unfold tryParseFrame frameAt at hparse
      repeat' split at hparse
      all_goals cases hparse
      · decide
      · exact count_text_short (by decide) (safe_lt hmax)
          (List.all_iff_forall_prop.mp (by decide)) (by decide)
  | item buf f rest h ih =>
      rw [drained, show drain (tryParseFrame max) buf = _ from drain_item (P := frameParser max) h]
      exact ih

theorem WireOk.onData (hw : Fits w) (h : WireOk c) (now : Int) (chunk : Bytes) :
    WireOk (onData w o now c chunk) := by
  have h' : ∀ rest : Bytes, WireOk { c with buffer := rest } :=
    fun _ => ⟨h.stream, h.unclosed, h.notOpen⟩
  unfold WebSocket.onData
  dsimp only
  split
  · next message hrefusal =>
      exact (h' _).abort (by decide) (drained_refusal o.bytes_safe _ hrefusal)
  · exact (h' _).handleFrames hw now (drained_opcode _)

theorem WireOk.heartbeat (h : WireOk c) (now : Int) : WireOk (heartbeat w o now c) := by
  unfold WebSocket.heartbeat
  split
  · exact h
  · split
    · exact h.abort (by decide) (text_short (by decide))
    · exact h.send .other (controlFrame_ok (by decide) (by decide) (by decide)) (by decide)
        fun _ => by decide

/-! ## Runs -/

/-- What the local side calls in a step fits. -/
def ActionFits : Action → Prop
  | .call k => CallFits k
  | _ => True

theorem step_wire (hw : Fits w) {s s' : St} {a : Action} (h : WireOk s.conn) (ha : ActionFits a)
    (hs : step w o s a = some s') : WireOk s'.conn := by
  cases a with
  | data now chunk => cases hs; exact h.onData hw now chunk
  | call k => cases hs; exact h.localCall ha
  | heartbeat now => cases hs; exact h.heartbeat now
  | timeout =>
      simp only [step] at hs
      split at hs
      · cases hs
      · cases hs
        have h' : WireOk { s.conn with closeTimer := none } := ⟨h.stream, h.unclosed, h.notOpen⟩
        exact h'.transition _ _ _ _
  | socketError message => cases hs; exact h.transition _ _ _ _
  | socketClose => cases hs; exact h.transition _ _ _ _

theorem wireOk_init (now : Int) : WireOk (St.init now).conn :=
  ⟨⟨fun _ hf => (nomatch hf), trivial⟩, fun _ _ hf => (nomatch hf), fun hs => (nomatch hs)⟩

/-- In every run whose close reasons and pings fit into a control frame: the frames are
unmasked and final, as their bytes tell a reader with room for them, the control frames
short, at most one of them a Close frame, which has a code that may be sent and text in
UTF-8, and behind it no data frame comes. -/
theorem written_stream (hw : Fits w) {now : Int} {s : St}
    (h : Reach (step w o) (fun _ a => ActionFits a) (St.init now) s) :
    (∀ f ∈ s.conn.written, f.masked = false ∧ (opcodeClose ≤ f.opcode → f.fin = true ∧
        f.payload.length ≤ 125) ∧ (f.opcode = opcodeClose → ClosePayload f.payload)) ∧
      s.conn.written.countP (·.opcode = opcodeClose) ≤ 1 ∧
      (∀ pre f post, s.conn.written = pre ++ f :: post → f.opcode = opcodeClose →
        ∀ g ∈ post, opcodeClose < g.opcode) ∧
      ∀ max, (∀ f ∈ s.conn.written, f.payload.length ≤ max ∧
          f.payload.length ≤ Double.maxSafe) →
        drained max (s.conn.written.flatMap wireOf) = ⟨s.conn.written, [], none⟩ := by
  have hok : WireOk s.conn := h.invariant (I := fun s => WireOk s.conn) (wireOk_init now)
    fun _ _ _ hI ha hs => step_wire hw hI ha hs
  refine ⟨fun f hf => ?_, hok.stream.once.countP_le, fun pre f post heq hf => ?_,
    fun max hmax => ?_⟩
  · have hframe := hok.stream.each f hf
    obtain ⟨opcode, payload, rsv1, rfl, -⟩ := hframe.plain
    exact ⟨rfl, hframe.control, hframe.close⟩
  · exact ClosesOnce.after (heq ▸ hok.stream.once) hf
  · refine drained_wireOf fun f hf => ?_
    obtain ⟨opcode, payload, rsv1, rfl, hop⟩ := (hok.stream.each f hf).plain
    exact ⟨opcode, payload, rsv1, rfl, hop, hmax _ hf⟩

/-- Every write succeeds, and no listener calls anything. -/
def calmWorld : World := ⟨fun _ _ => .written, fun _ => [], fun _ => .ok [], fun _ => none⟩

theorem calm_fits : Fits calmWorld := ⟨fun _ _ hk => (nomatch hk), fun _ _ h => (nomatch h)⟩

def smallOpts : Opts := ⟨64, 4, false, false, 1000, false, by decide, by decide⟩

/-- A ping, and a close with a reason. -/
def farewell : List Action := [.call (.ping [1, 2]), .call (.close (some 1000) (units "bye"))]

theorem written_stream_farewell : ∃ s,
    exec (step calmWorld smallOpts) (St.init 0) farewell = some s ∧
    s.conn.written.flatMap wireOf =
      [0x89, 2, 1, 2, 0x88, 5, 0x03, 0xE8, 0x62, 0x79, 0x65] ∧
    drained 125 [0x89, 2, 1, 2, 0x88, 5, 0x03, 0xE8, 0x62, 0x79, 0x65] =
      ⟨s.conn.written, [], none⟩ := by
  have hmeets :
      Meets (step calmWorld smallOpts) (fun _ a => ActionFits a) (St.init 0) farewell := by
    refine ⟨?_, ?_, trivial⟩
    · show ([1, 2] : Bytes).length ≤ 125
      decide
    · show (utf8 (units "bye")).length ≤ 123
      decide
  obtain ⟨s, hrun, hwire, hshort⟩ : ∃ s,
      exec (step calmWorld smallOpts) (St.init 0) farewell = some s ∧
      s.conn.written.flatMap wireOf =
        [0x89, 2, 1, 2, 0x88, 5, 0x03, 0xE8, 0x62, 0x79, 0x65] ∧
      ∀ f ∈ s.conn.written, f.payload.length ≤ 125 := ⟨_, rfl, by decide, by decide⟩
  refine ⟨s, hrun, hwire, ?_⟩
  rw [← hwire]
  exact (written_stream calm_fits (reach_of_meets farewell hmeets hrun)).2.2.2 125
    fun f hf => ⟨hshort f hf, Nat.le_trans (hshort f hf) (by decide)⟩

/-- A reason of 124 letters goes out in a Close frame that is too long, and so does a
ping of 126 bytes. -/
theorem written_too_long :
    (∃ s, step calmWorld smallOpts (St.init 0)
        (.call (.close (some 1000) (List.replicate 124 0x61))) = some s ∧
      ∃ f ∈ s.conn.written, f.opcode = opcodeClose ∧ f.payload.length = 126) ∧
    ∃ s, step calmWorld smallOpts (St.init 0) (.call (.ping (List.replicate 126 0))) = some s ∧
      ∃ f ∈ s.conn.written, f.opcode = opcodePing ∧ f.payload.length = 126 := by
  constructor
  · have hlen : (utf8 (List.replicate 124 0x61)).length = 124 := by
      have hascii : ∀ u ∈ List.replicate 124 (0x61 : UInt16), u.toNat < 0x80 := fun u hu =>
        List.eq_of_mem_replicate hu ▸ by decide
      have := utf8_ascii_append hascii []
      rwa [List.append_nil, List.length_replicate] at this
    refine ⟨_, rfl, plainFrame opcodeClose (beBytes 2 1000 ++ utf8 (List.replicate 124 0x61)) false,
      List.mem_singleton_self _, rfl, ?_⟩
    rw [plainFrame, List.length_append, length_beBytes, hlen]
  · exact ⟨_, rfl, _, List.mem_singleton_self _, rfl, List.length_replicate⟩

end Blamejs.WebSocket
