import Blamejs.Proofs.FrameWritten

/-!
# The frame parser

Every field of a frame lies where the first two bytes say, so what the parser decides
from them it decides whatever follows: that makes it an incremental parser, and a
stream drains to the same frames however it is cut. What `serializeFrame` writes
drains to the frame it was made from.
-/

namespace Blamejs.WebSocket

open Blamejs.Js Incremental

theorem field_append {buf more : Bytes} {off len : Nat} (h : off + len ≤ buf.length) :
    field (buf ++ more) off len = field buf off len := by
  rw [field, field, List.drop_append_of_le_length (by omega),
    List.take_append_of_le_length (by simp; omega)]

variable {max : Nat}

theorem le_headerLen (b1 : UInt8) : 2 ≤ lengthEnd b1 ∧ lengthEnd b1 ≤ headerLen b1 := by
  unfold headerLen lengthEnd
  repeat' split
  all_goals omega

variable {b0 b1 : UInt8} {buf rest : Bytes} {f : Frame} {e : JsString}

section header

variable (more : Bytes) (hlen : ¬ buf.length < headerLen b1)

include hlen

theorem tooLong_append : tooLong b1 (buf ++ more) ↔ tooLong b1 buf := by
  unfold tooLong
  refine and_congr_right fun h127 => ?_
  have hlong : lengthEnd b1 = 10 := by
    rw [lengthEnd, if_neg (by omega), if_pos h127]
  have hheader := le_headerLen b1
  rw [field_append (by omega)]

theorem payloadLen_append : payloadLen b1 (buf ++ more) = payloadLen b1 buf := by
  have hheader := le_headerLen b1
  unfold payloadLen
  rw [field_append (by omega)]

theorem frameOf_append (hpayload : ¬ buf.length < headerLen b1 + payloadLen b1 buf) :
    frameOf b0 b1 (buf ++ more) = frameOf b0 b1 buf := by
  unfold frameOf
  rw [payloadLen_append more hlen, field_append (by omega)]
  by_cases hmask : 128 ≤ b1.toNat
  · have hmasked : headerLen b1 = lengthEnd b1 + 4 := if_pos hmask
    rw [field_append (by omega)]
  · simp only [hmask, if_false]

end header

/-- What is decided of the front of a buffer stands when more bytes come. -/
theorem frameAt_append (more : Bytes) :
    (∀ f rest, frameAt max b0 b1 buf = .item f rest →
      frameAt max b0 b1 (buf ++ more) = .item f (rest ++ more)) ∧
    ∀ e, frameAt max b0 b1 buf = .refuse e → frameAt max b0 b1 (buf ++ more) = .refuse e := by
  unfold frameAt
  by_cases hlen : buf.length < headerLen b1
  · simp [hlen]
  have hlen' : ¬ (buf ++ more).length < headerLen b1 := by
    rw [List.length_append]
    omega
  simp only [hlen, hlen', if_false, tooLong_append more hlen, payloadLen_append more hlen]
  by_cases hlong : tooLong b1 buf
  · simp [hlong]
  by_cases hmax : payloadLen b1 buf > max
  · simp [hlong, hmax]
  by_cases hpayload : buf.length < headerLen b1 + payloadLen b1 buf
  · simp [hlong, hmax, hpayload]
  have hpayload' : ¬ (buf ++ more).length < headerLen b1 + payloadLen b1 buf := by
    rw [List.length_append]
    omega
  simp only [hlong, hmax, hpayload, hpayload', if_false, frameOf_append more hlen hpayload,
    List.drop_append_of_le_length (Nat.not_lt.mp hpayload)]
  refine ⟨fun f rest h => ?_, fun _ h => nomatch h⟩
  obtain ⟨rfl, rfl⟩ := Parsed.item.inj h
  rfl

theorem frameAt_shorter (h : frameAt max b0 b1 buf = .item f rest) : rest.length < buf.length := by
  have hheader := le_headerLen b1
  unfold frameAt at h
  split at h; · cases h
  split at h; · cases h
  split at h; · cases h
  split at h; · cases h
  obtain ⟨-, rfl⟩ := Parsed.item.inj h
  rw [List.length_drop]
  omega

/-- The parser of a connection. -/
def frameParser (max : Nat) : Parser UInt8 Frame JsString where
  parse := tryParseFrame max
  shorter {buf f rest} h := by
    unfold tryParseFrame at h
    split at h
    · exact frameAt_shorter h
    · cases h
  item_append {buf f rest} more h := by
    unfold tryParseFrame at h
    split at h
    · exact (frameAt_append more).1 f rest h
    · cases h
  refuse_append {buf e} more h := by
    unfold tryParseFrame at h
    split at h
    · exact (frameAt_append more).2 e h
    · cases h

/-- A stream of bytes drained by the parser. -/
abbrev drained (max : Nat) (buf : Bytes) : Drained UInt8 Frame JsString :=
  drain (tryParseFrame max) buf

/-! ## Written frames -/

/-- A frame as the connection writes it. -/
def plainFrame (opcode : Nat) (payload : Bytes) (rsv1 : Bool) : Frame :=
  ⟨true, rsv1, false, false, opcode, false, payload⟩

def wireOf (f : Frame) : Bytes := serializeFrame f.opcode f.payload f.fin f.rsv1

/-- The two serializers agree on frames that are not masked. -/
theorem serializeFrame_eq (opcode : Nat) (payload : Bytes) (fin rsv1 : Bool) :
    serializeFrame opcode payload fin rsv1 =
      serializeFrameWith opcode payload ⟨fin, rsv1, none⟩ := by
  rw [serializeFrame, serializeFrameWith]
  dsimp only
  rcases lenBytes_cases payload.length with
    ⟨hshort, hl, hx⟩ | ⟨hlong, hmid, hl, hx⟩ | ⟨hlong, hl, hx⟩
  · rw [if_pos hshort, hl, hx]
    simp
  · rw [if_neg (by omega), if_pos hmid, hl, hx]
    simp
  · rw [if_neg (by omega), if_neg (by omega), hl, hx]
    simp

/-- A written frame is read back, whatever follows it. -/
theorem parse_wireOf {opcode : Nat} {payload : Bytes} {rsv1 : Bool} (hopcode : opcode < 16)
    (hmax : payload.length ≤ max) (hsafe : payload.length ≤ Double.maxSafe) (rest : Bytes) :
    tryParseFrame max (wireOf (plainFrame opcode payload rsv1) ++ rest) =
      .item (plainFrame opcode payload rsv1) rest := by
  have hread : readFrame opcode payload ⟨true, rsv1, none⟩ = plainFrame opcode payload rsv1 := by
    rw [readFrame, Nat.mod_eq_of_lt hopcode]
    rfl
  rw [wireOf, serializeFrame_eq]
  exact (parse_serialized opcode ⟨true, rsv1, none⟩ hmax hsafe rest).trans (by rw [hread])

/-- A stream of written frames is read back as these frames. -/
theorem drained_wireOf {frames : List Frame} (h : ∀ f ∈ frames, ∃ opcode payload rsv1,
      f = plainFrame opcode payload rsv1 ∧ opcode < 16 ∧ payload.length ≤ max ∧
        payload.length ≤ Double.maxSafe) :
    drained max (frames.flatMap wireOf) = ⟨frames, [], none⟩ := by
  induction frames with
  | nil => exact drain_more (P := frameParser max) rfl
  | cons f frames ih =>
      obtain ⟨opcode, payload, rsv1, rfl, hopcode, hmax, hsafe⟩ := h f List.mem_cons_self
      have hrest := ih fun f hf => h f (List.mem_cons_of_mem _ hf)
      have hitem := @parse_wireOf _ _ _ rsv1 hopcode hmax hsafe (frames.flatMap wireOf)
      rw [List.flatMap_cons]
      refine (drain_item (P := frameParser max) hitem).trans ?_
      exact congrArg (fun d => { d with items := plainFrame opcode payload rsv1 :: d.items }) hrest

end Blamejs.WebSocket
