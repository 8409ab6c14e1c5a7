import Mathlib
import Blamejs.Lib.Run
import Blamejs.Proofs.WebSocketFrames
import Blamejs.Spec.MessageStream

/-!
# The events of a connection

Whatever happens to a connection that is not a frame of the peer leaves the message
that is being received as it is, and adds no event but the last, the close. So a
connection follows the reference on the frames that its bytes drain to, and that does
not depend on how they were cut. Two chunks are different. One that arrives after the
close has its first frame handled, because the state is tested after a frame and not
before; and one in which the parser refuses loses the complete frames before, because
`push` throws. A third way out is `close` itself, which sets the state it expects even
where its write has just ended the connection, so that it ends again.
-/

namespace Blamejs.WebSocket

open Blamejs.Js Incremental Run

/-! ## What is no frame of the peer -/

def Event.isData : Event → Bool
  | .text _ | .binary _ | .ping _ | .pong _ => true
  | _ => false

def Event.isClose : Event → Bool
  | .close _ _ _ => true
  | _ => false

/-- The message, ping and pong events. -/
def dataEvents (c : Conn) : List Event := c.events.filter Event.isData

structure Kept (c c' : Conn) : Prop where
  frag : c'.frag = c.frag
  buffer : c'.buffer = c.buffer
  state : c'.state = .closed ↔ c.state = .closed
  events : c'.events = c.events

structure Ended (c c' : Conn) : Prop where
  buffer : c'.buffer = c.buffer
  before : c.state ≠ .closed
  state : c'.state = .closed
  events : ∃ errors code reason wasClean, (∀ e ∈ errors, ∃ message, e = Event.error message) ∧
    c'.events = c.events ++ errors ++ [.close code reason wasClean]

/-- Nothing happened to what is received, or the connection ended, where it may. -/
def Quiet (may : Prop) (c c' : Conn) : Prop := Kept c c' ∨ may ∧ Ended c c'

/-- The socket takes every write. -/
def Lossless (w : World) : Prop := ∀ writer n, w.write writer n = .written

variable {w : World} {o : Opts} {c c' c'' : Conn} {p q : Prop}

theorem Kept.refl (c : Conn) : Kept c c := ⟨rfl, rfl, Iff.rfl, rfl⟩

theorem Kept.trans (h : Kept c c') (h' : Kept c' c'') : Kept c c'' :=
  ⟨h'.frag.trans h.frag, h'.buffer.trans h.buffer, h'.state.trans h.state,
    h'.events.trans h.events⟩

theorem Quiet.refl (c : Conn) : Quiet p c c := Or.inl (.refl c)

theorem Quiet.mono (hpq : p → q) (h : Quiet p c c') : Quiet q c c' := h.imp_right (.imp_left hpq)

theorem Quiet.trans (h : Quiet p c c') (h' : Quiet p c' c'') : Quiet p c c'' := by
  rcases h with h | ⟨hp, h⟩
  · rcases h' with h' | ⟨hp, h'⟩
    · exact Or.inl (h.trans h')
    · refine Or.inr ⟨hp, h'.buffer.trans h.buffer, fun hc => h'.before (h.state.mpr hc),
        h'.state, ?_⟩
      rw [← h.events]
      exact h'.events
  · refine Or.inr ⟨hp, ?_⟩
    rcases h' with h' | ⟨-, h'⟩
    · refine ⟨h'.buffer.trans h.buffer, h.before, h'.state.mpr h.state, ?_⟩
      rw [h'.events]
      exact h.events
    · exact absurd h.state h'.before

theorem quiet_transitionToClosed (c : Conn) (code : Nat) (reason : JsString) (wasClean : Bool)
    (error : Option JsString) :
    Quiet True c (transitionToClosed o c code reason wasClean error) := by
  unfold transitionToClosed
  split
  · exact .refl c
  · next hstate =>
      refine Or.inr ⟨trivial, rfl, hstate, rfl, _, code, reason, wasClean, ?_, rfl⟩
      intro e he
      split at he
      · obtain ⟨message, -, rfl⟩ := List.mem_map.mp he
        exact ⟨message, rfl⟩
      · cases he

theorem closed_transitionToClosed (c : Conn) (code : Nat) (reason : JsString) (wasClean : Bool)
    (error : Option JsString) :
    (transitionToClosed o c code reason wasClean error).state = .closed := by
  unfold transitionToClosed
  split
  · assumption
  · rfl

theorem quiet_sendFrame (writer : Writer) (c : Conn) (opcode : Nat) (payload : Bytes)
    (rsv1 : Bool) : Quiet (¬ Lossless w) c (sendFrame w o writer c opcode payload rsv1) := by
  unfold sendFrame
  split
  · exact .refl c
  · dsimp only
    have hattempt : Quiet (¬ Lossless w) c { c with attempts := c.attempts + 1 } :=
      Or.inl ⟨rfl, rfl, Iff.rfl, rfl⟩
    split
    · exact Or.inl ⟨rfl, rfl, Iff.rfl, rfl⟩
    · next hfate =>
        refine hattempt.trans ((quiet_transitionToClosed _ _ _ _ _).mono fun _ hall => ?_)
        rw [hall] at hfate
        cases hfate
    · next hfate =>
        refine hattempt.trans ((quiet_transitionToClosed _ _ _ _ _).mono fun _ hall => ?_)
        rw [hall] at hfate
        cases hfate

theorem quiet_sendDataFrame (c : Conn) (opcode : Nat) (payload : Bytes) :
    Quiet (¬ Lossless w) c (sendDataFrame w o c opcode payload) := by
  unfold sendDataFrame
  repeat' split
  all_goals exact quiet_sendFrame _ _ _ _ _

theorem quiet_close (hclose : ∀ n, w.write .close n = .written) (c : Conn) (code : Option Int)
    (reason : JsString) : Quiet p c (close w o c code reason) := by
  unfold close
  dsimp only
  split
  · exact .refl c
  · split
    · exact .refl c
    · next hopen =>
        have hne : c.state ≠ .closed := fun hc => hopen (by rw [hc]; decide)
        rw [sendCloseFrame, sendFrame, if_neg hne]
        dsimp only
        rw [hclose]
        exact Or.inl ⟨rfl, rfl, ⟨fun h => (nomatch h), fun h => absurd h hne⟩, rfl⟩

theorem quiet_localCall (hclose : ∀ n, w.write .close n = .written) (c : Conn) (k : Call) :
    Quiet (¬ Lossless w) c (localCall w o c k) := by
  cases k with
  | sendText s =>
      simp only [localCall]
      split
      · exact .refl c
      · exact quiet_sendDataFrame _ _ _
  | sendBinary data =>
      simp only [localCall]
      split
      · exact .refl c
      · exact quiet_sendDataFrame _ _ _
  | ping payload =>
      simp only [localCall]
      split
      · exact .refl c
      · exact quiet_sendFrame _ _ _ _ _
  | close code reason => exact quiet_close hclose c code reason

theorem quiet_emit (hclose : ∀ n, w.write .close n = .written) (c : Conn) (e : Event) :
    Quiet (¬ Lossless w) { c with events := c.events ++ [e] } (emit w o c e) := by
  have hcalls : ∀ (ks : List Call) (c : Conn),
      Quiet (¬ Lossless w) c (ks.foldl (localCall w o) c) := by
    intro ks
    induction ks with
    | nil => exact fun c => .refl c
    | cons k ks ih => exact fun c => (quiet_localCall hclose c k).trans (ih _)
  exact hcalls _ _

/-- The echo of a close frame before the end, where none is out. -/
theorem quiet_echo (c : Conn) (code : Nat) (reason : JsString) :
    Quiet True c (if c.closeSent then c
      else { sendCloseFrame w o .other c code reason with closeSent := true }) := by
  split
  · exact .refl c
  · have hsend : Quiet (¬ Lossless w) c (sendCloseFrame w o .other c code reason) :=
      quiet_sendFrame _ _ _ _ _
    exact (hsend.mono fun _ => trivial).trans (Or.inl ⟨rfl, rfl, Iff.rfl, rfl⟩)

theorem quiet_abort (c : Conn) (code : Nat) (reason : JsString) :
    Quiet True c (abort w o c code reason) ∧ (abort w o c code reason).state = .closed := by
  unfold abort
  split
  · next hclosed => exact ⟨.refl c, hclosed⟩
  · exact ⟨(quiet_echo c code reason).trans (quiet_transitionToClosed _ _ _ _ _),
      closed_transitionToClosed _ _ _ _ _⟩

theorem quiet_finishClose (c : Conn) (code : Nat) (reason : JsString) :
    Quiet True c (finishClose w o c code reason) ∧
      (finishClose w o c code reason).state = .closed :=
  ⟨(quiet_echo c code reason).trans (quiet_transitionToClosed _ _ _ _ _),
    closed_transitionToClosed _ _ _ _ _⟩

/-! ## What is a frame of the peer -/

/-- The connection does with a frame what the reference says. -/
def Handled (w : World) (c : Conn) (r : Option (Option Frag × Option Event)) (c' : Conn) : Prop :=
  match r with
  | none => c'.state = .closed ∧ ∃ frag, Quiet True { c with frag := frag } c'
  | some (frag, e) =>
      Quiet (¬ Lossless w) { c with frag := frag, events := c.events ++ e.toList } c'

/-- What was received before does not matter once it is replaced. -/
theorem Handled.of_frag {r : Option (Option Frag × Option Event)} (frag : Option Frag)
    (h : Handled w { c with frag := frag } r c') : Handled w c r c' := by
  cases r with
  | none => exact h
  | some r => exact h

theorem handled_abort (c : Conn) (code : Nat) (reason : JsString) :
    Handled w c none (abort w o c code reason) :=
  ⟨(quiet_abort c code reason).2, c.frag, (quiet_abort c code reason).1⟩

section world

variable (hclose : ∀ n, w.write .close n = .written)

include hclose

theorem handled_emit (c : Conn) (e : Event) :
    Handled w c (some (c.frag, some e)) (emit w o c e) := quiet_emit hclose c e

theorem handled_deliver (c : Conn) (opcode : Nat) (data : Bytes) :
    Handled w c ((messageEvent opcode data).map fun e => (c.frag, some e))
      (deliver w o c opcode data) := by
  unfold deliver messageEvent
  split
  · cases hstr : textDecode data with
    | none => exact handled_abort c _ _
    | some str => exact handled_emit hclose c _
  · exact handled_emit hclose c _

theorem handled_emitMessage (c : Conn) (g : Frag) :
    Handled w c ((complete o w.inflate g).map fun e => (none, some e)) (emitMessage w o c g) := by
  refine Handled.of_frag none ?_
  unfold emitMessage complete
  dsimp only
  split
  · cases hinflate : w.inflate g.chunks.flatten with
    | error message => exact handled_abort _ _ _
    | ok data =>
        dsimp only
        split
        · exact handled_abort _ _ _
        · exact handled_deliver hclose _ _ _
  · exact handled_deliver hclose _ _ _

theorem handled_settle (c : Conn) (g : Frag) (fin : Bool) :
    Handled w c (settle o w.inflate g fin)
      (if fin then emitMessage w o { c with frag := some g } g else { c with frag := some g }) := by
  unfold settle
  split
  · exact (handled_emitMessage hclose { c with frag := some g } g).of_frag (some g)
  · refine Or.inl ⟨rfl, rfl, Iff.rfl, ?_⟩
    exact (List.append_nil _).symm

theorem handled_appendFragment (c : Conn) (g : Frag) (frame : Frame) :
    Handled w c ((extend o g frame).bind fun g => settle o w.inflate g frame.fin)
      (appendFragment w o c g frame) := by
  unfold appendFragment extend
  dsimp only
  by_cases hcount : g.chunks.length ≥ o.maxFragments
  · rw [if_pos hcount, if_pos (Or.inl hcount)]
    exact handled_abort c _ _
  · by_cases hlen : g.len + frame.payload.length > o.maxMessageBytes
    · rw [if_neg hcount, if_pos hlen, if_pos (Or.inr hlen)]
      exact handled_abort c _ _
    · rw [if_neg hcount, if_neg hlen, if_neg (not_or.mpr ⟨hcount, hlen⟩)]
      exact handled_settle hclose c _ _

omit hclose in
theorem handled_handleClose (c : Conn) (frame : Frame) :
    Handled w c none (handleClose w o c frame) := by
  have hfinish : ∀ code reason, Handled w c none (finishClose w o c code reason) :=
    fun code reason => ⟨(quiet_finishClose c code reason).2, c.frag,
      (quiet_finishClose c code reason).1⟩
  unfold handleClose
  split
  · exact hfinish _ _
  · exact handled_abort c _ _
  · dsimp only
    split
    · exact handled_abort c _ _
    · split
      · exact hfinish _ _
      · exact handled_abort c _ _

theorem handled_handleFrame (now : Int) (c : Conn) (frame : Frame) :
    Handled w c (receive o w.inflate c.frag frame) (handleFrame w o now c frame) := by
  unfold handleFrame receive
  cases hfault : frameFault o frame with
  | some reason => exact handled_abort c _ _
  | none =>
      dsimp only [Option.isSome_none]
      rw [if_neg (by decide)]
      split
      · cases hfrag : c.frag with
        | none => exact handled_abort c _ _
        | some g => exact handled_appendFragment hclose c g frame
      · split
        · cases hfrag : c.frag with
          | some g => exact handled_abort c _ _
          | none => exact handled_settle hclose c (opening frame) frame.fin
        · split
          · exact handled_handleClose c frame
          · split
            · exact (quiet_emit hclose c _).trans (quiet_sendFrame _ _ _ _ _)
            · split
              · have htime : Quiet (¬ Lossless w)
                    { c with events := c.events ++ [.pong frame.payload] }
                    { c with lastPongAt := now, events := c.events ++ [.pong frame.payload] } :=
                  Or.inl ⟨rfl, rfl, Iff.rfl, rfl⟩
                exact htime.trans (quiet_emit hclose { c with lastPongAt := now } _)
              · exact handled_abort c _ _

end world

/-! ## Runs -/

/-- The close is the last event, and the only one. -/
structure EndsOnce (c : Conn) : Prop where
  live : c.state ≠ .closed → ∀ e ∈ c.events, e.isClose = false
  dead : c.state = .closed → ∃ events code reason wasClean,
    c.events = events ++ [.close code reason wasClean] ∧ ∀ e ∈ events, e.isClose = false

theorem EndsOnce.quiet (h : EndsOnce c) (hq : Quiet p c c') : EndsOnce c' := by
  rcases hq with hq | ⟨-, hq⟩
  · refine ⟨fun hc => ?_, fun hc => ?_⟩
    · rw [hq.events]
      exact h.live fun hc' => hc (hq.state.mpr hc')
    · rw [hq.events]
      exact h.dead (hq.state.mp hc)
  · refine ⟨fun hc => absurd hq.state hc, fun _ => ?_⟩
    obtain ⟨errors, code, reason, wasClean, herrors, hevents⟩ := hq.events
    refine ⟨c.events ++ errors, code, reason, wasClean, hevents, fun e he => ?_⟩
    rcases List.mem_append.mp he with he | he
    · exact h.live hq.before e he
    · obtain ⟨message, rfl⟩ := herrors e he
      rfl

theorem Quiet.dataEvents (h : Quiet p c c') : dataEvents c' = dataEvents c := by
  rcases h with h | ⟨-, h⟩
  · rw [WebSocket.dataEvents, h.events]
    rfl
  · obtain ⟨errors, code, reason, wasClean, herrors, hevents⟩ := h.events
    have hnone : errors.filter Event.isData = [] := by
      refine List.filter_eq_nil_iff.mpr fun e he => ?_
      obtain ⟨message, rfl⟩ := herrors e he
      exact Bool.false_ne_true
    rw [WebSocket.dataEvents, hevents, List.filter_append, List.filter_append, hnone]
    simp [WebSocket.dataEvents, Event.isData]

theorem messageEvent_isData {opcode : Nat} {data : Bytes} {e : Event}
    (h : messageEvent opcode data = some e) : e.isData = true := by
  unfold messageEvent at h
  split at h
  · obtain ⟨str, -, rfl⟩ := Option.map_eq_some_iff.mp h
    rfl
  · cases h
    rfl

theorem settle_isData {inflate : Bytes → Except JsString Bytes} {g : Frag} {fin : Bool}
    {frag : Option Frag} {e : Event} (h : settle o inflate g fin = some (frag, some e)) :
    e.isData = true := by
  obtain ⟨-, -, he⟩ | ⟨-, -, e', he', hcomplete⟩ := settle_some o inflate h
  · cases he
  · obtain rfl := Option.some.inj he'
    unfold complete at hcomplete
    split at hcomplete
    · split at hcomplete
      · cases hcomplete
      · split at hcomplete
        · cases hcomplete
        · exact messageEvent_isData hcomplete
    · exact messageEvent_isData hcomplete

theorem receive_isData {inflate : Bytes → Except JsString Bytes} {frag frag' : Option Frag}
    {frame : Frame} {e : Event} (h : receive o inflate frag frame = some (frag', some e)) :
    e.isData = true := by
  unfold receive at h
  split at h; · cases h
  split at h
  · obtain ⟨g, -, hsettle⟩ := Option.bind_eq_some_iff.mp h
    exact settle_isData hsettle
  · split at h
    · split at h
      · cases h
      · exact settle_isData h
    · split at h; · cases h
      split at h
      · cases h
        rfl
      · split at h
        · cases h
          rfl
        · cases h

theorem isClose_of_isData {e : Event} (h : e.isData = true) : e.isClose = false := by
  cases e with
  | close => cases h
  | _ => rfl

/-- After the frames `frames` of the peer: an open connection is where the reference
is, and the events of a closed one are the first of the reference's; all of them,
where nothing else may have closed it. -/
structure Follows (w : World) (o : Opts) (exact : Prop) (frames : List Frame) (c : Conn) :
    Prop where
  once : EndsOnce c
  live : c.state ≠ .closed → After o w.inflate frames c.frag (dataEvents c)
  dead : c.state = .closed → ∀ rest, dataEvents c <+: reference o w.inflate none (frames ++ rest)
  whole : exact → c.state = .closed → ∀ rest,
    reference o w.inflate none (frames ++ rest) = dataEvents c

variable {exact : Prop} {frames done : List Frame}

theorem Follows.quiet (h : Follows w o exact done c) (hq : Quiet p c c') (hp : exact → ¬ p) :
    Follows w o exact done c' where
  once := h.once.quiet hq
  live hc := by
    rcases hq with hk | ⟨-, he⟩
    · rw [hk.frag, Quiet.dataEvents (p := p) (Or.inl hk)]
      exact h.live fun hc' => hc (hk.state.mpr hc')
    · exact absurd he.state hc
  dead hc rest := by
    rw [hq.dataEvents]
    rcases hq with hk | ⟨-, he⟩
    · exact h.dead (hk.state.mp hc) rest
    · rw [h.live he.before rest]
      exact List.prefix_append _ _
  whole hexact hc rest := by
    rw [hq.dataEvents]
    rcases hq with hk | ⟨hp', -⟩
    · exact h.whole hexact (hk.state.mp hc) rest
    · exact absurd hp' (hp hexact)

/-- What comes behind a closed connection does not change it. -/
theorem Follows.more (h : Follows w o exact done c) (hc : c.state = .closed) (more : List Frame) :
    Follows w o exact (done ++ more) c where
  once := h.once
  live hlive := absurd hc hlive
  dead hc rest := List.append_assoc done more rest ▸ h.dead hc (more ++ rest)
  whole hexact hc rest := List.append_assoc done more rest ▸ h.whole hexact hc (more ++ rest)

/-- The step for one frame. -/
theorem Follows.handled {frame : Frame} (h : Follows w o exact done c) (hlive : c.state ≠ .closed)
    (hexact : exact → Lossless w) (hh : Handled w c (receive o w.inflate c.frag frame) c') :
    Follows w o exact (done ++ [frame]) c' := by
  cases hreceive : receive o w.inflate c.frag frame with
  | none =>
      rw [hreceive] at hh
      obtain ⟨hclosed, frag, hq⟩ := hh
      have hevents : dataEvents c' = dataEvents c := hq.dataEvents
      have hstop : ∀ rest, reference o w.inflate none (done ++ [frame] ++ rest) = dataEvents c := by
        intro rest
        rw [List.append_assoc]
        exact (h.live hlive).stop hreceive rest
      refine ⟨?_, fun hc => absurd hclosed hc, fun _ rest => ?_, fun _ _ rest => ?_⟩
      · have hbase : EndsOnce { c with frag := frag } := ⟨h.once.live, h.once.dead⟩
        exact hbase.quiet hq
      · rw [hstop]
        exact hevents ▸ List.prefix_refl _
      · rw [hstop, hevents]
  | some r =>
      obtain ⟨frag, e⟩ := r
      rw [hreceive] at hh
      have hbase : Follows w o exact (done ++ [frame])
          { c with frag := frag, events := c.events ++ e.toList } := by
        have hdata : ∀ e' ∈ e.toList, e'.isData = true := by
          intro e' he'
          rw [Option.mem_toList.mp he'] at hreceive
          exact receive_isData hreceive
        have hevents : dataEvents { c with frag := frag, events := c.events ++ e.toList } =
            dataEvents c ++ e.toList := by
          rw [dataEvents, List.filter_append, List.filter_eq_self.mpr hdata]
          rfl
        refine ⟨⟨fun _ e' he' => ?_, fun hc => absurd hc hlive⟩, fun _ => ?_,
          fun hc => absurd hc hlive, fun _ hc => absurd hc hlive⟩
        · rcases List.mem_append.mp he' with he' | he'
          · exact h.once.live hlive e' he'
          · exact isClose_of_isData (hdata e' he')
        · rw [hevents]
          exact (h.live hlive).next hreceive
      exact hbase.quiet hh fun he hl => hl (hexact he)

/-- The loop over the frames of a chunk. -/
theorem Follows.handleFrames (hclose : ∀ n, w.write .close n = .written)
    (h : Follows w o exact done c) (hlive : c.state ≠ .closed) (hexact : exact → Lossless w)
    (now : Int) (frames : List Frame) :
    Follows w o exact (done ++ frames) (handleFrames w o now c frames) := by
  induction frames generalizing c done with
  | nil =>
      rw [List.append_nil]
      exact h
  | cons frame frames ih =>
      have hstep := h.handled hlive hexact (handled_handleFrame (o := o) hclose now c frame)
      have hsplit : done ++ frame :: frames = done ++ [frame] ++ frames := by simp
      rw [WebSocket.handleFrames, hsplit]
      split
      · next hc => exact hstep.more hc frames
      · next hc => exact ih hstep hc

theorem Quiet.buffer (h : Quiet p c c') : c'.buffer = c.buffer :=
  h.elim (fun h => h.buffer) fun h => h.2.buffer

theorem handleFrames_buffer (hclose : ∀ n, w.write .close n = .written) (now : Int)
    (frames : List Frame) (c : Conn) : (handleFrames w o now c frames).buffer = c.buffer := by
  induction frames generalizing c with
  | nil => rfl
  | cons frame frames ih =>
      have hframe : (handleFrame w o now c frame).buffer = c.buffer := by
        have hh := handled_handleFrame (o := o) hclose now c frame
        cases hr : receive o w.inflate c.frag frame with
        | none =>
            rw [hr] at hh
            obtain ⟨-, frag, hq⟩ := hh
            exact hq.buffer
        | some r =>
            obtain ⟨frag, e⟩ := r
            rw [hr] at hh
            have hq : Quiet (¬ Lossless w)
                { c with frag := frag, events := c.events ++ e.toList } _ := hh
            exact hq.buffer
      rw [handleFrames]
      split
      · exact hframe
      · rw [ih, hframe]

/-- The events of a connection that has read all frames so far. -/
theorem Follows.now (h : Follows w o exact done c) :
    dataEvents c <+: reference o w.inflate none done ∧
      (exact → reference o w.inflate none done = dataEvents c) := by
  by_cases hc : c.state = .closed
  · have hdead := h.dead hc []
    rw [List.append_nil] at hdead
    refine ⟨hdead, fun hexact => ?_⟩
    have hwhole := h.whole hexact hc []
    rwa [List.append_nil] at hwhole
  · have hlive := h.live hc []
    rw [List.append_nil, reference, List.append_nil] at hlive
    rw [hlive]
    exact ⟨List.prefix_refl _, fun _ => rfl⟩

/-- No chunk that arrives after the close completes a frame, and none in which the
parser refuses completes one before. -/
def Timely (o : Opts) (s : St) : Action → Prop
  | .data _ chunk =>
      let d := drained o.maxMessageBytes (s.conn.buffer ++ chunk)
      s.conn.state = .closed ∨ d.refusal.isSome = true → d.items = []
  | _ => True

/-- Nothing but the peer's frames closes the connection. -/
def Undisturbed (o : Opts) (s : St) : Action → Prop
  | .data _ _ | .call _ => True
  | .heartbeat now => now - s.conn.lastPongAt ≤ o.pongTimeoutMs
  | .timeout | .socketError _ | .socketClose => False

/-- The invariant of a run; after a refusal the connection is closed, and no more
frames come. -/
structure Keeps (w : World) (o : Opts) (exact : Prop) (s : St) : Prop where
  reading : (drained o.maxMessageBytes s.received).refusal = none →
    Follows w o exact (drained o.maxMessageBytes s.received).items s.conn ∧
      s.conn.buffer = (drained o.maxMessageBytes s.received).rest
  refused : (drained o.maxMessageBytes s.received).refusal.isSome = true →
    EndsOnce s.conn ∧ s.conn.state = .closed
  events : dataEvents s.conn <+:
    reference o w.inflate none (drained o.maxMessageBytes s.received).items
  whole : exact → reference o w.inflate none (drained o.maxMessageBytes s.received).items =
    dataEvents s.conn

theorem keeps_init (now : Int) : Keeps w o exact (St.init now) := by
  have hinit : Follows w o exact [] (St.init now).conn :=
    ⟨⟨fun _ _ he => (nomatch he), fun hc => (nomatch hc)⟩, fun _ _ => rfl,
      fun hc => (nomatch hc), fun _ hc => (nomatch hc)⟩
  exact ⟨fun _ => ⟨hinit, rfl⟩, fun h => (nomatch h), hinit.now.1, hinit.now.2⟩

/-- A step that is no chunk. -/
theorem Keeps.quiet {s : St} {c' : Conn} (h : Keeps w o exact s) (hq : Quiet p s.conn c')
    (hp : exact → ¬ p) : Keeps w o exact { s with conn := c' } where
  reading hr := ⟨(h.reading hr).1.quiet hq hp, hq.buffer.trans (h.reading hr).2⟩
  refused hr :=
    ⟨(h.refused hr).1.quiet hq,
      hq.elim (fun hk => hk.state.mpr (h.refused hr).2) fun he => he.2.state⟩
  events := by
    rw [hq.dataEvents]
    exact h.events
  whole := by
    rw [hq.dataEvents]
    exact h.whole

/-- A chunk that completes no frame on a closed connection. -/
theorem onData_closed {now : Int} {chunk : Bytes} (hc : c.state = .closed)
    (hitems : (drained o.maxMessageBytes (c.buffer ++ chunk)).items = []) :
    onData w o now c chunk =
      { c with buffer := (drained o.maxMessageBytes (c.buffer ++ chunk)).rest } := by
  unfold onData
  dsimp only
  rw [hitems]
  split
  · rw [abort, if_pos hc]
  · rfl

theorem EndsOnce.withBuffer (h : EndsOnce c) (buffer : Bytes) :
    EndsOnce { c with buffer := buffer } := ⟨h.live, h.dead⟩

theorem Follows.withBuffer (h : Follows w o exact done c) (buffer : Bytes) :
    Follows w o exact done { c with buffer := buffer } :=
  ⟨h.once.withBuffer buffer, h.live, h.dead, h.whole⟩

/-- A chunk behind a refusal. -/
theorem Keeps.dataRefused {s : St} (h : Keeps w o exact s) {now : Int} {chunk : Bytes}
    (hr : (drained o.maxMessageBytes s.received).refusal.isSome = true)
    (htimely : Timely o s (.data now chunk)) :
    Keeps w o exact ⟨onData w o now s.conn chunk, s.received ++ chunk⟩ := by
  have happend : drained o.maxMessageBytes (s.received ++ chunk) = _ :=
    drain_append (P := frameParser o.maxMessageBytes) s.received chunk
  obtain ⟨honce, hclosed⟩ := h.refused hr
  rw [onData_closed hclosed (htimely (Or.inl hclosed))]
  rw [show (drain (frameParser o.maxMessageBytes).parse s.received).refusal.isSome = true from hr,
    if_pos rfl] at happend
  refine ⟨fun hr' => ?_, fun _ => ⟨honce.withBuffer _, hclosed⟩, ?_, ?_⟩
  · rw [happend] at hr'
    have hnone : (drained o.maxMessageBytes s.received).refusal = none := hr'
    rw [hnone] at hr
    cases hr
  · rw [happend]
    exact h.events
  · rw [happend]
    exact h.whole

/-- A chunk, with what it drains to behind what was left. -/
theorem Keeps.data {s : St} (hclose : ∀ n, w.write .close n = .written) (h : Keeps w o exact s)
    (hexact : exact → Lossless w) {now : Int} {chunk : Bytes}
    (htimely : Timely o s (.data now chunk)) :
    Keeps w o exact ⟨onData w o now s.conn chunk, s.received ++ chunk⟩ := by
  cases hr : (drained o.maxMessageBytes s.received).refusal with
  | some e => exact h.dataRefused (by rw [hr]; rfl) htimely
  | none =>
      obtain ⟨hfollows, hbuffer⟩ := h.reading hr
      have happend : drained o.maxMessageBytes (s.received ++ chunk) =
          { drained o.maxMessageBytes (s.conn.buffer ++ chunk) with
            items := (drained o.maxMessageBytes s.received).items ++
              (drained o.maxMessageBytes (s.conn.buffer ++ chunk)).items } := by
        have := drain_append (P := frameParser o.maxMessageBytes) s.received chunk
        rw [show (drain (frameParser o.maxMessageBytes).parse s.received).refusal = none from hr,
          if_neg (by decide)] at this
        rw [hbuffer]
        exact this
      by_cases hc : s.conn.state = .closed
      · have hitems := htimely (Or.inl hc)
        rw [onData_closed hc hitems]
        rw [hitems, List.append_nil] at happend
        refine ⟨fun _ => ?_, fun _ => ⟨hfollows.once.withBuffer _, hc⟩, ?_, ?_⟩
        · rw [happend]
          exact ⟨hfollows.withBuffer _, rfl⟩
        · rw [happend]
          exact h.events
        · rw [happend]
          exact h.whole
      · unfold onData
        dsimp only
        cases hrefusal : (drained o.maxMessageBytes (s.conn.buffer ++ chunk)).refusal with
        | some message =>
            have hitems := htimely (Or.inr (by rw [hrefusal]; rfl))
            rw [hitems, List.append_nil] at happend
            obtain ⟨hq, hclosed⟩ := quiet_abort (w := w) (o := o)
              { s.conn with buffer := (drained o.maxMessageBytes (s.conn.buffer ++ chunk)).rest }
              closeMessageTooBig message
            have hevents : dataEvents _ = dataEvents s.conn := hq.dataEvents
            refine ⟨fun hr' => ?_, fun _ => ⟨(hfollows.once.withBuffer _).quiet hq, hclosed⟩,
              ?_, ?_⟩
            · rw [happend, hrefusal] at hr'
              cases hr'
            · rw [happend, hevents]
              exact h.events
            · rw [happend, hevents]
              exact h.whole
        | none =>
            have hloop := (hfollows.withBuffer
              (drained o.maxMessageBytes (s.conn.buffer ++ chunk)).rest).handleFrames hclose hc
                hexact now (drained o.maxMessageBytes (s.conn.buffer ++ chunk)).items
            refine ⟨fun _ => ?_, fun hr' => ?_, ?_, ?_⟩
            · rw [happend]
              exact ⟨hloop, handleFrames_buffer hclose _ _ _⟩
            · rw [happend, hrefusal] at hr'
              cases hr'
            · rw [happend]
              exact hloop.now.1
            · rw [happend]
              exact hloop.now.2

theorem step_keeps {s s' : St} {a : Action} (hclose : ∀ n, w.write .close n = .written)
    (h : Keeps w o exact s) (hexact : exact → Lossless w ∧ Undisturbed o s a)
    (htimely : Timely o s a) (hs : step w o s a = some s') : Keeps w o exact s' := by
  cases a with
  | data now chunk =>
      cases hs
      exact h.data hclose (fun he => (hexact he).1) htimely
  | call k =>
      cases hs
      exact h.quiet (quiet_localCall hclose _ k) fun he hl => hl (hexact he).1
  | heartbeat now =>
      cases hs
      refine h.quiet (p := ¬ (Lossless w ∧ Undisturbed o s (.heartbeat now))) ?_
        fun he hl => hl (hexact he)
      unfold heartbeat
      split
      · exact .refl _
      · split
        · next hlate =>
            refine (quiet_abort _ _ _).1.mono fun _ hcalm => ?_
            exact absurd hcalm.2 (not_le.mpr hlate)
        · exact (quiet_sendFrame _ _ _ _ _).mono fun hl hcalm => hl hcalm.1
  | timeout =>
      simp only [step] at hs
      split at hs
      · cases hs
      · cases hs
        have htimer : Quiet True s.conn { s.conn with closeTimer := none } :=
          Or.inl ⟨rfl, rfl, Iff.rfl, rfl⟩
        exact h.quiet (htimer.trans (quiet_transitionToClosed _ _ _ _ _))
          fun he => absurd (hexact he).2 id
  | socketError message =>
      cases hs
      exact h.quiet (quiet_transitionToClosed _ _ _ _ _) fun he => absurd (hexact he).2 id
  | socketClose =>
      cases hs
      exact h.quiet (quiet_transitionToClosed _ _ _ _ _) fun he => absurd (hexact he).2 id

theorem reach_keeps {ok : St → Action → Prop} {now : Int} {s : St}
    (hclose : ∀ n, w.write .close n = .written)
    (hok : ∀ s a, ok s a → Timely o s a ∧ (exact → Lossless w ∧ Undisturbed o s a))
    (h : Reach (step w o) ok (St.init now) s) : Keeps w o exact s :=
  h.invariant (I := Keeps w o exact) (keeps_init now) fun s a _ hI ha hs =>
    step_keeps hclose hI (hok s a ha).2 (hok s a ha).1 hs

theorem Keeps.endsOnce {s : St} (h : Keeps w o exact s) : EndsOnce s.conn := by
  cases hr : (drained o.maxMessageBytes s.received).refusal with
  | none => exact (h.reading hr).1.once
  | some e => exact (h.refused (by rw [hr]; rfl)).1

/-- The whole stream in one chunk. -/
theorem unchunked_keeps {w' : World} (hall : Lossless w') (now : Int) {stream : Bytes}
    (hrefusal : (drained o.maxMessageBytes stream).refusal.isSome = true →
      (drained o.maxMessageBytes stream).items = []) :
    Keeps w' o True ⟨onData w' o now (Conn.init now) stream, stream⟩ := by
  refine @Keeps.data _ _ _ _ (hall .close) (keeps_init now) (fun _ => hall) now stream ?_
  rintro (hc | hr)
  · cases hc
  · exact hrefusal hr

/-- In every run in which no chunk behind the close completes a frame, none in which
the parser refuses completes one before, and the socket takes the writes of `close`:
the events of the peer's frames are the first of the reference's, and all of them
where nothing else closes the connection, so that they are those of the whole stream
in one chunk; each message event is the message of its frames; and the close is the
last event, once the connection is closed, and the only one. -/
theorem connection_events {ok : St → Action → Prop} {now : Int} {s : St}
    (hclose : ∀ n, w.write .close n = .written) (htimely : ∀ s a, ok s a → Timely o s a)
    (h : Reach (step w o) ok (St.init now) s) :
    let frames := (drained o.maxMessageBytes s.received).items
    dataEvents s.conn <+: reference o w.inflate none frames ∧
    (Lossless w → (∀ s a, ok s a → Undisturbed o s a) →
      dataEvents s.conn = reference o w.inflate none frames ∧
      ∀ w' : World, Lossless w' → w'.inflate = w.inflate →
        ((drained o.maxMessageBytes s.received).refusal.isSome = true → frames = []) →
        ∀ now', dataEvents s.conn = dataEvents (onData w' o now' (Conn.init now') s.received)) ∧
    (∀ before e after, dataEvents s.conn = before ++ e :: after → e.isMessage = true →
      ∃ pre first body post, frames = pre ++ first :: body ++ post ∧ Message e first body ∧
        reference o w.inflate none (pre ++ first :: body) = before ++ [e]) ∧
    (s.conn.state ≠ .closed → ∀ e ∈ s.conn.events, e.isClose = false) ∧
    (s.conn.state = .closed → ∃ events code reason wasClean,
      s.conn.events = events ++ [.close code reason wasClean] ∧
        ∀ e ∈ events, e.isClose = false) := by
  have hkeeps : Keeps w o False s :=
    reach_keeps hclose (fun s a ha => ⟨htimely s a ha, False.elim⟩) h
  refine ⟨hkeeps.events, fun hall hcalm => ?_, fun before e after heq he => ?_,
    hkeeps.endsOnce.live, hkeeps.endsOnce.dead⟩
  · have hwhole : Keeps w o True s :=
      reach_keeps hclose (fun s a ha => ⟨htimely s a ha, fun _ => ⟨hall, hcalm s a ha⟩⟩) h
    refine ⟨(hwhole.whole trivial).symm, fun w' hall' hinflate hrefusal now' => ?_⟩
    have honce := (unchunked_keeps hall' now' hrefusal).whole trivial
    rw [hinflate] at honce
    rw [← hwhole.whole trivial]
    exact honce
  · obtain ⟨more, hmore⟩ := hkeeps.events
    rw [heq, List.append_assoc, List.cons_append] at hmore
    exact reference_message hmore.symm he

/-- The listener of the first event closes. -/
def closingWorld : World where
  write _ _ := .written
  react n := if n = 0 then [.close none []] else []
  inflate _ := .ok []
  deflate _ := none

theorem bytes_safe_tiny : 64 ≤ Double.maxSafe := by decide

theorem fragments_safe_tiny : 4 ≤ Double.maxSafe := by decide

def tinyOpts : Opts := ⟨64, 4, false, false, 1000, false, bytes_safe_tiny, fragments_safe_tiny⟩

/-- A binary message in two frames, with a ping between them. -/
def pingBetween : Bytes :=
  [0x02, 0x81, 0, 0, 0, 0, 7, 0x89, 0x80, 0, 0, 0, 0, 0x80, 0x81, 0, 0, 0, 0, 9]

def pingBetweenRun : List Action :=
  [.data 0 (pingBetween.take 5), .data 0 ((pingBetween.drop 5).take 9),
    .data 0 (pingBetween.drop 14)]

theorem connection_events_between : ∃ s,
    exec (step closingWorld tinyOpts) (St.init 0) pingBetweenRun = some s ∧
    s.conn.state = .closing ∧ dataEvents s.conn = [.ping [], .binary [7, 9]] ∧
    dataEvents s.conn = dataEvents (onData closingWorld tinyOpts 0 (Conn.init 0) pingBetween) ∧
    ∃ pre first body post, (drained 64 pingBetween).items = pre ++ first :: body ++ post ∧
      Message (.binary [7, 9]) first body := by
  have hmeets : Meets (step closingWorld tinyOpts)
      (fun s a => Timely tinyOpts s a ∧ Undisturbed tinyOpts s a) (St.init 0) pingBetweenRun := by
    exact ⟨⟨fun h => absurd h (by decide), trivial⟩, ⟨fun h => absurd h (by decide), trivial⟩,
      ⟨fun h => absurd h (by decide), trivial⟩, trivial⟩
  obtain ⟨s, hrun, hstate, hreceived, hevents⟩ : ∃ s,
      exec (step closingWorld tinyOpts) (St.init 0) pingBetweenRun = some s ∧
      s.conn.state = .closing ∧ s.received = pingBetween ∧
      dataEvents s.conn = [.ping [], .binary [7, 9]] := ⟨_, rfl, rfl, by decide, by decide⟩
  have hall := connection_events (fun _ => rfl) (fun _ _ h => h.1) (reach_of_meets _ hmeets hrun)
  rw [hreceived] at hall
  obtain ⟨-, hwhole, hmessage, -⟩ := hall
  obtain ⟨pre, first, body, post, hframes, hm, -⟩ :=
    hmessage [.ping []] (.binary [7, 9]) [] hevents rfl
  exact ⟨s, hrun, hstate, hevents,
    (hwhole (fun _ _ => rfl) fun _ _ h => h.2).2 closingWorld (fun _ _ => rfl) rfl
      (fun h => absurd h (by decide)) 0, pre, first, body, post, hframes, hm⟩

/-- A ping, and the header of a frame that is too large. -/
def pingThenLarge : Bytes := [0x89, 0x80, 0, 0, 0, 0, 0x82, 0xFE, 1, 0, 0, 0, 0, 0]

/-- The socket has ended; nobody knows yet. -/
def endedWorld : World := { closingWorld with write := fun _ _ => .unwritable }

/-- In one chunk the ping is lost, in two it is not; a ping behind a close frame is
still reported; and a close on an ended socket is reported twice. -/
theorem events_depend_on_chunks :
    (∃ s, exec (step closingWorld tinyOpts) (St.init 0) [.data 0 pingThenLarge] = some s ∧
      dataEvents s.conn = []) ∧
    (∃ s, exec (step closingWorld tinyOpts) (St.init 0)
        [.data 0 (pingThenLarge.take 6), .data 0 (pingThenLarge.drop 6)] = some s ∧
      dataEvents s.conn = [.ping []]) ∧
    (∃ s, exec (step closingWorld tinyOpts) (St.init 0)
        [.data 0 [0x88, 0x80, 0, 0, 0, 0], .data 0 [0x89, 0x80, 0, 0, 0, 0]] = some s ∧
      s.conn.events = [.close 1000 [] true, .ping []]) ∧
    ∃ s, exec (step endedWorld tinyOpts) (St.init 0) [.call (.close none []), .timeout] = some s ∧
      s.conn.events = [.close 1006 (units "socket no longer writable") false,
        .close 1000 [] false] :=
  ⟨⟨_, rfl, by decide⟩, ⟨_, rfl, by decide⟩, ⟨_, rfl, by decide⟩, _, rfl, by decide⟩

end Blamejs.WebSocket
