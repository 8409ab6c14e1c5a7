import Blamejs.Ref.WebSocket

/-!
# The events of a stream of frames

What a peer's frames say, told without a connection: a message is an opening data
frame and its continuations up to the final one, with control frames allowed between
them, and a stream has events up to the first frame that ends the connection.
`reference` is the list of these events; a connection is compared with it.
-/

namespace Blamejs.WebSocket

open Blamejs.Js

variable (o : Opts) (inflate : Bytes → Except JsString Bytes)

/-! ## The reference -/

def messageEvent (opcode : Nat) (data : Bytes) : Option Event :=
  if opcode = opcodeText then (textDecode data).map .text else some (.binary data)

/-- The event of a complete message; none where it ends the connection. -/
def complete (g : Frag) : Option Event :=
  if g.compressed then
    match inflate g.chunks.flatten with
    | .error _ => none
    | .ok data => if data.length > o.maxMessageBytes then none else messageEvent g.opcode data
  else messageEvent g.opcode g.chunks.flatten

def extend (g : Frag) (frame : Frame) : Option Frag :=
  if g.chunks.length ≥ o.maxFragments ∨ g.len + frame.payload.length > o.maxMessageBytes then none
  else some
    { g with chunks := g.chunks ++ [frame.payload], len := g.len + frame.payload.length }

/-- What is received after a fragment, and the event. -/
def settle (g : Frag) (fin : Bool) : Option (Option Frag × Option Event) :=
  if fin then (complete o inflate g).map fun e => (none, some e) else some (some g, none)

def opening (frame : Frame) : Frag :=
  ⟨frame.opcode, [frame.payload], frame.payload.length, frame.rsv1⟩

/-- What a frame makes of the message that is being received, and the event; none
where it ends the connection. -/
def receive (frag : Option Frag) (frame : Frame) : Option (Option Frag × Option Event) :=
  if (frameFault o frame).isSome then none
  else if frame.opcode = opcodeContinuation then
    (frag.bind fun g => extend o g frame).bind fun g => settle o inflate g frame.fin
  else if frame.opcode = opcodeText ∨ frame.opcode = opcodeBinary then
    if frag.isSome then none else settle o inflate (opening frame) frame.fin
  else if frame.opcode = opcodeClose then none
  else if frame.opcode = opcodePing then some (frag, some (.ping frame.payload))
  else if frame.opcode = opcodePong then some (frag, some (.pong frame.payload))
  else none

def reference : Option Frag → List Frame → List Event
  | _, [] => []
  | frag, frame :: frames =>
      match receive o inflate frag frame with
      | none => []
      | some (frag', e) => e.toList ++ reference frag' frames

/-! ## Messages -/

def Event.isMessage : Event → Bool
  | .text _ | .binary _ => true
  | _ => false

/-- The frames of a message among those from its opening on. -/
def fragments (first : Frame) (body : List Frame) : List Frame :=
  first :: body.filter (·.opcode = opcodeContinuation)

def carried (first : Frame) (body : List Frame) : Bytes :=
  ((fragments first body).map Frame.payload).flatten

/-- An opening data frame, with only continuations and control frames behind it. -/
structure Opens (first : Frame) (body : List Frame) : Prop where
  data : first.opcode = opcodeText ∨ first.opcode = opcodeBinary
  between : ∀ f ∈ body, f.opcode = opcodeContinuation ∨ opcodeClose < f.opcode

/-- The text is the characters that were sent, unless they begin with a byte-order
mark. -/
structure Reads (data : Bytes) (str : JsString) : Prop where
  decoded : textDecode data = some str
  exact : ∀ sent, WellFormed sent → utf8 sent = data → (str = sent ↔ sent.head? ≠ some 0xFEFF)

/-- The message of an opening frame and the frames up to its last fragment. -/
structure Message (e : Event) (first : Frame) (body : List Frame) : Prop extends
    Opens first body where
  final : ∃ k, (fragments first body).map Frame.fin = List.replicate k false ++ [true]
  last : ∃ f, (first :: body).getLast? = some f ∧ (fragments first body).getLast? = some f
  carries : first.rsv1 = false →
    if first.opcode = opcodeText then ∃ str, e = .text str ∧ Reads (carried first body) str
    else e = .binary (carried first body)

/-- What has been received of a message. -/
structure Collected (g : Frag) (first : Frame) (body : List Frame) : Prop extends
    Opens first body where
  pending : ∃ k, (fragments first body).map Frame.fin = List.replicate k false
  opcode : g.opcode = first.opcode
  compressed : g.compressed = first.rsv1
  chunks : g.chunks = (fragments first body).map Frame.payload

theorem reads_of_textDecode {data : Bytes} {str : JsString} (h : textDecode data = some str) :
    Reads data str := by
  refine ⟨h, fun sent hwf hsent => ?_⟩
  rw [← hsent, textDecode_utf8 hwf] at h
  rw [← Option.some.inj h]
  cases sent with
  | nil => simp [withoutBom]
  | cons u rest =>
      by_cases hu : u = 0xFEFF
      · simp [withoutBom, hu]
      · simp [withoutBom, hu]

/-! ## Every message event is a message -/

section collected

variable {first f : Frame} {body : List Frame} {g : Frag}

theorem fragments_snoc (h : f.opcode = opcodeContinuation) :
    fragments first (body ++ [f]) = fragments first body ++ [f] := by
  simp [fragments, h]

theorem fragments_control (h : opcodeClose < f.opcode) :
    fragments first (body ++ [f]) = fragments first body := by
  have hne : f.opcode ≠ opcodeContinuation := Nat.ne_of_gt (Nat.lt_of_le_of_lt (Nat.zero_le _) h)
  simp [fragments, hne]

theorem Opens.snoc (h : Opens first body)
    (hf : f.opcode = opcodeContinuation ∨ opcodeClose < f.opcode) : Opens first (body ++ [f]) := by
  refine ⟨h.data, fun f' hf' => ?_⟩
  rcases List.mem_append.mp hf' with hf' | hf'
  · exact h.between f' hf'
  · exact List.mem_singleton.mp hf' ▸ hf

theorem Collected.control (h : Collected g first body) (hf : opcodeClose < f.opcode) :
    Collected g first (body ++ [f]) where
  toOpens := h.toOpens.snoc (Or.inr hf)
  pending := by rw [fragments_control hf]; exact h.pending
  opcode := h.opcode
  compressed := h.compressed
  chunks := by rw [fragments_control hf]; exact h.chunks

theorem Collected.fragment (h : Collected g first body) (hf : f.opcode = opcodeContinuation)
    (hfin : f.fin = false) (len : Nat) :
    Collected { g with chunks := g.chunks ++ [f.payload], len := len } first (body ++ [f]) where
  toOpens := h.toOpens.snoc (Or.inl hf)
  pending := by
    obtain ⟨k, hk⟩ := h.pending
    refine ⟨k + 1, ?_⟩
    rw [fragments_snoc hf, List.map_append, hk, List.replicate_succ', List.map_singleton, hfin]
  opcode := h.opcode
  compressed := h.compressed
  chunks := by rw [fragments_snoc hf, List.map_append, h.chunks, List.map_singleton]

theorem collected_opening (hdata : f.opcode = opcodeText ∨ f.opcode = opcodeBinary)
    (hfin : f.fin = false) : Collected (opening f) f [] where
  data := hdata
  between _ h := nomatch h
  pending := ⟨1, by simp [fragments, hfin]⟩
  opcode := rfl
  compressed := rfl
  chunks := by simp [fragments, opening]

theorem messageEvent_carries {opcode : Nat} {data : Bytes} {e : Event}
    (h : messageEvent opcode data = some e) :
    if opcode = opcodeText then ∃ str, e = .text str ∧ Reads data str else e = .binary data := by
  unfold messageEvent at h
  split at h
  · next htext =>
      obtain ⟨str, hstr, rfl⟩ := Option.map_eq_some_iff.mp h
      rw [if_pos htext]
      exact ⟨str, rfl, reads_of_textDecode hstr⟩
  · next htext =>
      rw [if_neg htext]
      exact (Option.some.inj h).symm

theorem message_of_complete {e : Event} (h : complete o inflate g = some e)
    (hopens : Opens first body)
    (hfinal : ∃ k, (fragments first body).map Frame.fin = List.replicate k false ++ [true])
    (hlast : ∃ f, (first :: body).getLast? = some f ∧ (fragments first body).getLast? = some f)
    (hopcode : g.opcode = first.opcode) (hcompressed : g.compressed = first.rsv1)
    (hchunks : g.chunks = (fragments first body).map Frame.payload) : Message e first body := by
  refine ⟨hopens, hfinal, hlast, fun hplain => ?_⟩
  rw [complete, hcompressed, hplain, if_neg (by decide), hchunks, hopcode] at h
  exact messageEvent_carries h

/-- What is being received is among the frames so far. -/
def Gathered (frames : List Frame) (frag : Option Frag) : Prop :=
  ∀ g, frag = some g → ∃ pre first body, frames = pre ++ first :: body ∧ Collected g first body

theorem settle_some {g : Frag} {fin : Bool} {frag' : Option Frag} {e : Option Event}
    (h : settle o inflate g fin = some (frag', e)) :
    (fin = false ∧ frag' = some g ∧ e = none) ∨
      fin = true ∧ frag' = none ∧ ∃ e', e = some e' ∧ complete o inflate g = some e' := by
  unfold settle at h
  split at h
  · next hfin =>
      obtain ⟨e', he', heq⟩ := Option.map_eq_some_iff.mp h
      obtain ⟨rfl, rfl⟩ := Prod.mk.inj heq
      exact Or.inr ⟨hfin, rfl, e', rfl, he'⟩
  · next hfin =>
      obtain ⟨rfl, rfl⟩ := Prod.mk.inj (Option.some.inj h)
      exact Or.inl ⟨by simpa using hfin, rfl, rfl⟩

end collected

variable {o inflate}

/-- The step of a stream: what is received stays gathered, and a message that comes
out is one. -/
theorem receive_gathered {frames : List Frame} {frag frag' : Option Frag} {f : Frame}
    {e : Option Event} (hgathered : Gathered frames frag)
    (h : receive o inflate frag f = some (frag', e)) :
    Gathered (frames ++ [f]) frag' ∧ ∀ e', e = some e' → e'.isMessage = true →
      ∃ pre first body, frames ++ [f] = pre ++ first :: body ∧ Message e' first body := by
  -- a control frame that leaves the message as it is
  have hcontrol : opcodeClose < f.opcode → Gathered (frames ++ [f]) frag := by
    intro hf g hg
    obtain ⟨pre, first, body, rfl, hcol⟩ := hgathered g hg
    exact ⟨pre, first, body ++ [f], by simp, hcol.control hf⟩
  unfold receive at h
  split at h; · cases h
  split at h
  · next hcont =>
      obtain ⟨g', hg', hsettle⟩ := Option.bind_eq_some_iff.mp h
      obtain ⟨g, rfl, hextend⟩ := Option.bind_eq_some_iff.mp hg'
      obtain ⟨pre, first, body, rfl, hcol⟩ := hgathered g rfl
      unfold extend at hextend
      split at hextend; · cases hextend
      obtain rfl := Option.some.inj hextend
      obtain ⟨hfin, rfl, rfl⟩ | ⟨hfin, rfl, e', rfl, hcomplete⟩ := settle_some o inflate hsettle
      · refine ⟨fun g' hg' => ?_, fun _ he' => (nomatch he')⟩
        obtain rfl := Option.some.inj hg'
        exact ⟨pre, first, body ++ [f], by simp, hcol.fragment hcont hfin _⟩
      · refine ⟨fun _ hg' => (nomatch hg'), fun e'' he'' _ => ?_⟩
        obtain rfl := Option.some.inj he''
        refine ⟨pre, first, body ++ [f], by simp, ?_⟩
        obtain ⟨k, hk⟩ := hcol.pending
        refine message_of_complete o inflate hcomplete (hcol.toOpens.snoc (Or.inl hcont)) ⟨k, ?_⟩
          ⟨f, ?_, ?_⟩ hcol.opcode hcol.compressed ?_
        · rw [fragments_snoc hcont, List.map_append, hk, List.map_singleton, hfin]
        · rw [← List.cons_append, List.getLast?_concat]
        · rw [fragments_snoc hcont, List.getLast?_concat]
        · rw [fragments_snoc hcont, List.map_append, ← hcol.chunks, List.map_singleton]
  · split at h
    · next hdata =>
        split at h; · cases h
        obtain ⟨hfin, rfl, rfl⟩ | ⟨hfin, rfl, e', rfl, hcomplete⟩ := settle_some o inflate h
        · refine ⟨fun g' hg' => ?_, fun _ he' => (nomatch he')⟩
          obtain rfl := Option.some.inj hg'
          exact ⟨frames, f, [], rfl, collected_opening hdata hfin⟩
        · refine ⟨fun _ hg' => (nomatch hg'), fun e'' he'' _ => ?_⟩
          obtain rfl := Option.some.inj he''
          refine ⟨frames, f, [], rfl, ?_⟩
          exact message_of_complete o inflate hcomplete ⟨hdata, fun _ h => (nomatch h)⟩
            ⟨0, by simp [fragments, hfin]⟩ ⟨f, rfl, rfl⟩ rfl rfl rfl
    · split at h; · cases h
      split at h
      · next hping =>
          obtain ⟨rfl, rfl⟩ := Prod.mk.inj (Option.some.inj h)
          refine ⟨hcontrol (by rw [hping]; decide), fun e' he' hmessage => ?_⟩
          obtain rfl := Option.some.inj he'
          cases hmessage
      · split at h
        · next hpong =>
            obtain ⟨rfl, rfl⟩ := Prod.mk.inj (Option.some.inj h)
            refine ⟨hcontrol (by rw [hpong]; decide), fun e' he' hmessage => ?_⟩
            obtain rfl := Option.some.inj he'
            cases hmessage
        · cases h

/-- After the frames `frames` the stream is at `frag`, with the events `events`. -/
def After (o : Opts) (inflate : Bytes → Except JsString Bytes) (frames : List Frame)
    (frag : Option Frag) (events : List Event) : Prop :=
  ∀ rest, reference o inflate none (frames ++ rest) = events ++ reference o inflate frag rest

theorem After.next {frames : List Frame} {frag frag' : Option Frag} {events : List Event}
    {f : Frame} {e : Option Event} (h : After o inflate frames frag events)
    (hf : receive o inflate frag f = some (frag', e)) :
    After o inflate (frames ++ [f]) frag' (events ++ e.toList) := by
  intro rest
  rw [List.append_assoc, List.singleton_append, h, reference, hf, List.append_assoc]

theorem After.stop {frames : List Frame} {frag : Option Frag} {events : List Event} {f : Frame}
    (h : After o inflate frames frag events) (hf : receive o inflate frag f = none)
    (rest : List Frame) : reference o inflate none (frames ++ f :: rest) = events := by
  rw [h, reference, hf, List.append_nil]

/-- The frames of a message event, and that it is the event they end in. -/
theorem reference_message {frames : List Frame} {before after : List Event} {e : Event}
    (h : reference o inflate none frames = before ++ e :: after) (he : e.isMessage = true) :
    ∃ pre first body post, frames = pre ++ first :: body ++ post ∧ Message e first body ∧
      reference o inflate none (pre ++ first :: body) = before ++ [e] := by
  have hrun : ∀ rest done frag events before, After o inflate done frag events →
      Gathered done frag → reference o inflate frag rest = before ++ e :: after →
      ∃ pre first body post, done ++ rest = pre ++ first :: body ++ post ∧
        Message e first body ∧
        reference o inflate none (pre ++ first :: body) = events ++ before ++ [e] := by
    intro rest
    induction rest with
    | nil =>
        intro done frag events before _ _ h
        simp [reference] at h
    | cons f rest ih =>
        intro done frag events before hafter hgathered h
        rw [reference] at h
        split at h
        · simp at h
        · next frag' oe hreceive =>
            obtain ⟨hgathered', hmessage⟩ := receive_gathered hgathered hreceive
            have hafter' := hafter.next hreceive
            cases oe with
            | none =>
                obtain ⟨pre, first, body, post, heq, hm, href⟩ :=
                  ih _ frag' (events ++ []) before hafter' hgathered' h
                exact ⟨pre, first, body, post, by rw [← heq]; simp, hm, by rw [href]; simp⟩
            | some e' =>
                cases before with
                | nil =>
                    obtain ⟨rfl, -⟩ := List.cons.inj h
                    obtain ⟨pre, first, body, heq, hm⟩ := hmessage _ rfl he
                    refine ⟨pre, first, body, rest, by rw [← heq]; simp, hm, ?_⟩
                    have hevents := hafter' []
                    rw [heq] at hevents
                    simpa [reference] using hevents
                | cons b before =>
                    obtain ⟨rfl, htail⟩ := List.cons.inj h
                    obtain ⟨pre, first, body, post, heq, hm, href⟩ :=
                      ih _ frag' (events ++ [e']) before hafter' hgathered' htail
                    exact ⟨pre, first, body, post, by rw [← heq]; simp, hm, by rw [href]; simp⟩
  have := hrun frames [] none [] before (fun _ => rfl) (fun _ hg => (nomatch hg)) h
  simpa using this

end Blamejs.WebSocket
