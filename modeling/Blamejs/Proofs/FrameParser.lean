import Blamejs.Ref.FrameParser
import Blamejs.Proofs.WebSocketFrames

/-!
# Frames out of chunks

The parser keeps what it could not read yet, so pushes of chunks read what one push of them all
reads, and a length beyond the limit is refused once its header is there.
-/

namespace Blamejs.WebSocket

open Blamejs.Js Incremental

variable {max : Nat}

/-! ## A stream of frames -/

/-- What is serialized: an opcode, a payload and the options. -/
structure Sent where
  opcode : Nat
  payload : Bytes
  opts : SerializeOpts

def Sent.wire (s : Sent) : Bytes := serializeFrameWith s.opcode s.payload s.opts

def Sent.frame (s : Sent) : Frame := readFrame s.opcode s.payload s.opts

/-- A payload that a buffer holds, up to the limit of the parser. -/
def Sent.Fits (max : Nat) (s : Sent) : Prop :=
  s.payload.length ≤ max ∧ s.payload.length ≤ Double.maxSafe

/-- A stream of frames drains to them and to what follows. -/
theorem drained_serialized {sent : List Sent} (h : ∀ s ∈ sent, s.Fits max) (rest : Bytes) :
    drained max (sent.flatMap Sent.wire ++ rest) =
      { drained max rest with items := sent.map Sent.frame ++ (drained max rest).items } := by
  induction sent with
  | nil => rfl
  | cons s sent ih =>
      obtain ⟨⟨hmax, hsafe⟩, hrest⟩ := List.forall_mem_cons.mp h
      have hitem := parse_serialized s.opcode s.opts hmax hsafe (sent.flatMap Sent.wire ++ rest)
      rw [List.flatMap_cons, List.append_assoc]
      refine (drain_item (P := frameParser max) hitem).trans ?_
      rw [show drain (frameParser max).parse (sent.flatMap Sent.wire ++ rest) = _ from ih hrest]
      rfl

/-! ## Chunks -/

/-- What is left of a stream that was not refused asks for more. -/
theorem rest_asks {P : Parser UInt8 Frame JsString} (buf : Bytes)
    (h : (drain P.parse buf).refusal = none) : P.parse (drain P.parse buf).rest = .more := by
  induction buf using drain_induction (P := P) with
  | more buf hmore => rw [drain_more hmore]; exact hmore
  | refuse buf e hrefuse => rw [drain_refuse hrefuse] at h; cases h
  | item buf f rest hitem ih =>
      rw [drain_item hitem] at h ⊢
      exact ih h

namespace FrameParser

variable {p : FrameParser} {chunks : List Bytes}

/-- A cut stream: what the first chunk drains to, and the rest with what it left. -/
theorem drained_cons (p : FrameParser) (chunk : Bytes) (chunks : List Bytes) :
    drained p.maxFrameBytes (p.buffer ++ (chunk :: chunks).flatten) =
      if (drained p.maxFrameBytes (p.buffer ++ chunk)).refusal.isSome then
        { drained p.maxFrameBytes (p.buffer ++ chunk) with
          rest := (drained p.maxFrameBytes (p.buffer ++ chunk)).rest ++ chunks.flatten }
      else
        { drained p.maxFrameBytes
            ((drained p.maxFrameBytes (p.buffer ++ chunk)).rest ++ chunks.flatten) with
          items := (drained p.maxFrameBytes (p.buffer ++ chunk)).items ++ (drained p.maxFrameBytes
            ((drained p.maxFrameBytes (p.buffer ++ chunk)).rest ++ chunks.flatten)).items } := by
  rw [List.flatten_cons, ← List.append_assoc]
  exact drain_append (P := frameParser p.maxFrameBytes) _ _

theorem feed_drained {frames : List Frame} {rest : Bytes}
    (hmore : tryParseFrame p.maxFrameBytes p.buffer = .more)
    (h : drained p.maxFrameBytes (p.buffer ++ chunks.flatten) = ⟨frames, rest, none⟩) :
    p.feed chunks = ({ p with buffer := rest }, .ok frames) := by
  induction chunks generalizing p frames with
  | nil =>
      rw [List.flatten_nil, List.append_nil] at h
      have hstop := (drain_more (P := frameParser p.maxFrameBytes) hmore).symm.trans h
      cases hstop
      rfl
  | cons chunk chunks ih =>
      rw [drained_cons] at h
      cases hr : (drained p.maxFrameBytes (p.buffer ++ chunk)).refusal with
      | some e =>
          rw [hr, if_pos Option.isSome_some] at h
          have := congrArg Drained.refusal h
          rw [hr] at this
          cases this
      | none =>
          rw [hr, if_neg (by decide)] at h
          have hasks := rest_asks (P := frameParser p.maxFrameBytes) (p.buffer ++ chunk) hr
          obtain ⟨hitems, hrest, hnone⟩ := Drained.mk.inj h
          have hdrained : drained p.maxFrameBytes
              ((drained p.maxFrameBytes (p.buffer ++ chunk)).rest ++ chunks.flatten) =
                ⟨(drained p.maxFrameBytes ((drained p.maxFrameBytes (p.buffer ++ chunk)).rest ++
                  chunks.flatten)).items, rest, none⟩ := by
            rw [← hrest]
            exact congrArg (Drained.mk _ _) hnone
          have hnext := @ih { p with buffer := (drained p.maxFrameBytes (p.buffer ++ chunk)).rest }
            _ hasks hdrained
          have hpush : p.push chunk =
              ({ p with buffer := (drained p.maxFrameBytes (p.buffer ++ chunk)).rest },
                .ok (drained p.maxFrameBytes (p.buffer ++ chunk)).items) := by
            rw [push, hr]
          rw [feed, hpush]
          dsimp only
          rw [hnext, ← hitems]
          rfl

theorem feed_refused {d : Drained UInt8 Frame JsString} {e : JsString}
    (hmore : tryParseFrame p.maxFrameBytes p.buffer = .more)
    (h : drained p.maxFrameBytes (p.buffer ++ chunks.flatten) = d) (he : d.refusal = some e) :
    (p.feed chunks).2 = .error e := by
  induction chunks generalizing p d with
  | nil =>
      rw [List.flatten_nil, List.append_nil] at h
      have hstop := (drain_more (P := frameParser p.maxFrameBytes) hmore).symm.trans h
      rw [← hstop] at he
      cases he
  | cons chunk chunks ih =>
      rw [drained_cons] at h
      cases hr : (drained p.maxFrameBytes (p.buffer ++ chunk)).refusal with
      | some e' =>
          rw [hr, if_pos Option.isSome_some] at h
          rw [← h] at he
          obtain rfl := Option.some.inj (hr.symm.trans he)
          rw [feed, push, hr]
      | none =>
          rw [hr, if_neg (by decide)] at h
          have hasks := rest_asks (P := frameParser p.maxFrameBytes) (p.buffer ++ chunk) hr
          rw [← h] at he
          have hnext := @ih { p with buffer := (drained p.maxFrameBytes (p.buffer ++ chunk)).rest }
            _ hasks rfl he
          rw [feed, push, hr]
          dsimp only
          rw [hnext]
          rfl

end FrameParser

/-- A header that is not complete asks for more. -/
theorem parse_incomplete {b0 b1 : UInt8} {t pre : Bytes}
    (hheader : (b0 :: b1 :: t).length = headerLen b1) (hpre : pre <+: b0 :: b1 :: t)
    (hne : pre ≠ b0 :: b1 :: t) : tryParseFrame max pre = .more := by
  have hlt : pre.length < headerLen b1 :=
    hheader ▸ Nat.lt_of_le_of_ne hpre.length_le fun h => hne (hpre.eq_of_length h)
  obtain ⟨r, hr⟩ := hpre
  unfold tryParseFrame
  split
  · next c0 c1 rest =>
      obtain ⟨-, h1⟩ := List.cons_eq_cons.mp hr
      obtain ⟨rfl, -⟩ := List.cons_eq_cons.mp h1
      rw [frameAt, if_pos hlt]
  · rfl

/-- A complete header that declares too much is refused, and nothing of a payload is asked. -/
theorem parse_oversized {b0 b1 : UInt8} {t : Bytes}
    (hheader : (b0 :: b1 :: t).length = headerLen b1)
    (hover : max < payloadLen b1 (b0 :: b1 :: t)) :
    ∃ e, tryParseFrame max (b0 :: b1 :: t) = .refuse e := by
  change ∃ e, frameAt max b0 b1 (b0 :: b1 :: t) = .refuse e
  rw [frameAt, if_neg (by omega)]
  by_cases hlong : tooLong b1 (b0 :: b1 :: t)
  · exact ⟨_, if_pos hlong⟩
  · exact ⟨_, (if_neg hlong).trans (if_pos hover)⟩

/-- Frames, serialized with any options and fed in chunks of any sizes, are the frames that
the parser returns, with nothing left over. A header after them that declares more than the
limit throws in the chunk that completes it, whatever follows; before that the parser keeps
what it has of it. -/
theorem frames_fed (maxFrameBytes : Option Nat) {sent : List Sent}
    (hsent : ∀ s ∈ sent, s.Fits (FrameParser.new maxFrameBytes).maxFrameBytes) :
    (∀ chunks, chunks.flatten = sent.flatMap Sent.wire →
      (FrameParser.new maxFrameBytes).feed chunks =
        (FrameParser.new maxFrameBytes, .ok (sent.map Sent.frame))) ∧
    ∀ (b0 b1 : UInt8) (t : Bytes), (b0 :: b1 :: t).length = headerLen b1 →
      (FrameParser.new maxFrameBytes).maxFrameBytes < payloadLen b1 (b0 :: b1 :: t) →
      (∀ chunks more, chunks.flatten = sent.flatMap Sent.wire ++ (b0 :: b1 :: t ++ more) →
        ∃ e, ((FrameParser.new maxFrameBytes).feed chunks).2 = .error e) ∧
      ∀ chunks pre, pre <+: b0 :: b1 :: t → pre ≠ b0 :: b1 :: t →
        chunks.flatten = sent.flatMap Sent.wire ++ pre →
        (FrameParser.new maxFrameBytes).feed chunks =
          ({ FrameParser.new maxFrameBytes with buffer := pre }, .ok (sent.map Sent.frame)) := by
  have hstart : tryParseFrame (FrameParser.new maxFrameBytes).maxFrameBytes
      (FrameParser.new maxFrameBytes).buffer = .more := rfl
  have hstream : ∀ chunks pre, tryParseFrame (FrameParser.new maxFrameBytes).maxFrameBytes pre =
      .more → chunks.flatten = sent.flatMap Sent.wire ++ pre →
      (FrameParser.new maxFrameBytes).feed chunks =
        ({ FrameParser.new maxFrameBytes with buffer := pre }, .ok (sent.map Sent.frame)) := by
    intro chunks pre hpre hchunks
    have hrest := drain_more (P := frameParser (FrameParser.new maxFrameBytes).maxFrameBytes) hpre
    refine FrameParser.feed_drained hstart ?_
    rw [hchunks]
    refine (drained_serialized hsent pre).trans ?_
    rw [show drained _ pre = ⟨[], pre, none⟩ from hrest, List.append_nil]
  refine ⟨fun chunks hchunks => ?_, fun b0 b1 t hheader hover => ⟨fun chunks more hchunks => ?_,
    fun chunks pre hpre hne hchunks => ?_⟩⟩
  · exact hstream chunks [] rfl (hchunks.trans (List.append_nil _).symm)
  · obtain ⟨e, he⟩ := parse_oversized hheader hover
    have hparse : (frameParser (FrameParser.new maxFrameBytes).maxFrameBytes).parse
        (b0 :: b1 :: t) = .refuse e := he
    have hrefuse := drain_refuse (Parser.refuse_append _ more hparse)
    refine ⟨e, FrameParser.feed_refused hstart rfl ?_⟩
    rw [hchunks]
    change (drained _ (sent.flatMap Sent.wire ++ (b0 :: b1 :: t ++ more))).refusal = some e
    rw [drained_serialized hsent, show drained _ (b0 :: b1 :: t ++ more) = _ from hrefuse]
  · exact hstream chunks pre (parse_incomplete hheader hpre hne) hchunks

/-- A masked greeting and an empty ping, two bytes at a time. -/
def greeting : List Sent :=
  [⟨1, [0x68, 0x69], ⟨true, false, some ⟨[9, 8, 7, 6], rfl⟩⟩⟩, ⟨9, [], ⟨true, false, none⟩⟩]

theorem frames_fed_greeting :
    (FrameParser.new (some 64)).feed [[0x81, 0x82], [9, 8], [7, 6], [0x61, 0x61], [0x89, 0]] =
      (FrameParser.new (some 64), .ok (greeting.map Sent.frame)) ∧
    ∃ e, ((FrameParser.new (some 64)).feed
      [[0x81, 0x82], [9, 8], [7, 6], [0x61, 0x61], [0x89, 0], [0x82], [0x41]]).2 = .error e := by
  have hsent : ∀ s ∈ greeting, s.Fits (FrameParser.new (some 64)).maxFrameBytes := by
    have hone : ∀ s ∈ greeting, s.payload.length ≤ 2 := by decide
    exact fun s hs => ⟨Nat.le_trans (hone s hs) (by decide), Nat.le_trans (hone s hs) (by decide)⟩
  obtain ⟨hfed, hover⟩ := frames_fed (some 64) hsent
  exact ⟨hfed _ (by decide), (hover 0x82 0x41 [] (by decide) (by decide)).1 _ [] (by decide)⟩

end Blamejs.WebSocket
