import Blamejs.Ref.FrameParser

/-!
# A written frame

What the serializer writes, masked or not, is read back as the frame it stands for, whatever
follows it: the length is found where the second byte says, and a mask undoes itself.
-/

namespace Blamejs.WebSocket

open Blamejs.Js Incremental

/-- The bytes after the first two, up to a length. -/
theorem field_between {b0 b1 : UInt8} {ext tail : Bytes} {len : Nat} (h : ext.length = len) :
    field (b0 :: b1 :: (ext ++ tail)) 2 len = ext := by
  simp [field, ← h]

theorem beBytes_high (n : Nat) : beBytes 8 n = beBytes 4 (n / 2 ^ 32) ++ beBytes 4 n := by
  simp [beBytes, Nat.div_div_eq_div_mul]

/-- A frame as the parser reports it. -/
def readFrame (opcode : Nat) (payload : Bytes) (opts : SerializeOpts) : Frame :=
  ⟨opts.fin, opts.rsv1, false, false, opcode % 16, opts.mask.isSome, payload⟩

theorem length_unmask (key payload : Bytes) : (unmask key payload).length = payload.length :=
  List.length_mapIdx

theorem unmask_unmask (key payload : Bytes) : unmask key (unmask key payload) = payload := by
  refine List.ext_getElem (by rw [length_unmask, length_unmask]) fun i _ _ => ?_
  simp only [unmask, List.getElem_mapIdx, UInt8.xor_assoc, UInt8.xor_self, UInt8.xor_zero]

theorem first_byte (opcode : Nat) (fin rsv1 : Bool) :
    let b0 := UInt8.ofNat ((if fin then 0x80 else 0) + (if rsv1 then 0x40 else 0) + opcode % 16)
    (128 ≤ b0.toNat ↔ fin = true) ∧ (b0.toNat / 64 % 2 = 1 ↔ rsv1 = true) ∧
      b0.toNat / 32 % 2 = 0 ∧ b0.toNat / 16 % 2 = 0 ∧ b0.toNat % 16 = opcode % 16 := by
  dsimp only
  rw [UInt8.toNat_ofNat']
  cases fin <;> cases rsv1 <;> simp <;> omega

theorem second_byte (masked : Bool) {lenByte : Nat} (h : lenByte < 128) :
    let b1 := UInt8.ofNat ((if masked then 0x80 else 0) + lenByte)
    (128 ≤ b1.toNat ↔ masked = true) ∧ b1.toNat % 128 = lenByte := by
  dsimp only
  rw [UInt8.toNat_ofNat']
  cases masked <;> simp <;> omega

variable {max : Nat}

/-- The bytes of a mask, none where there is none. -/
def maskBytes (mask : Option MaskKey) : Bytes := mask.elim [] Subtype.val

def wireBody (mask : Option MaskKey) (payload : Bytes) : Bytes :=
  mask.elim payload fun key => unmask key.val payload

theorem length_wireBody (mask : Option MaskKey) (payload : Bytes) :
    (wireBody mask payload).length = payload.length := by
  cases mask with
  | none => rfl
  | some key => exact length_unmask key.val payload

/-- A frame whose length and mask stand in the bytes after the first two. -/
theorem frameAt_written {opcode : Nat} {opts : SerializeOpts} {ext payload rest buf : Bytes}
    {b0 b1 : UInt8} (hmax : payload.length ≤ max) (hext : ext.length + 2 = lengthEnd b1)
    (hmask : 128 ≤ b1.toNat ↔ opts.mask.isSome = true)
    (hb0 : b0 = UInt8.ofNat
      ((if opts.fin then 0x80 else 0) + (if opts.rsv1 then 0x40 else 0) + opcode % 16))
    (hbuf : buf =
      b0 :: b1 :: (ext ++ (maskBytes opts.mask ++ (wireBody opts.mask payload ++ rest))))
    (hlong : ¬ tooLong b1 buf) (hlen : payloadLen b1 buf = payload.length) :
    frameAt max b0 b1 buf = .item (readFrame opcode payload opts) rest := by
  have hheader : headerLen b1 = ext.length + 2 + (maskBytes opts.mask).length := by
    rw [headerLen, ← hext]
    cases hm : opts.mask with
    | none => rw [if_neg fun h => by rw [hm] at hmask; exact absurd (hmask.mp h) (by decide)]; rfl
    | some key =>
        rw [if_pos (hmask.mpr (by rw [hm]; rfl))]
        exact congrArg _ key.property.symm
  have hdrop : buf.drop (ext.length + 2) =
      maskBytes opts.mask ++ (wireBody opts.mask payload ++ rest) := by
    simp [hbuf]
  have hbody : buf.drop (headerLen b1) = wireBody opts.mask payload ++ rest := by
    rw [hheader, ← List.drop_drop, hdrop, List.drop_left]
  have hsize : buf.length = headerLen b1 + payload.length + rest.length := by
    rw [hheader, hbuf]
    simp only [List.length_cons, List.length_append, length_wireBody]
    omega
  have hpayload : field buf (headerLen b1) payload.length = wireBody opts.mask payload := by
    rw [field, hbody]
    exact List.take_left' (length_wireBody _ _)
  have hrest : buf.drop (headerLen b1 + payload.length) = rest := by
    rw [← List.drop_drop, hbody]
    exact List.drop_left' (length_wireBody _ _)
  have hplain : (if 128 ≤ b1.toNat then unmask (field buf (lengthEnd b1) 4)
      (wireBody opts.mask payload) else wireBody opts.mask payload) = payload := by
    cases hm : opts.mask with
    | none =>
        rw [hm] at hmask
        rw [if_neg fun h => absurd (hmask.mp h) (by decide)]
        rfl
    | some key =>
        have hkey : field buf (lengthEnd b1) 4 = key.val := by
          rw [field, ← hext, hdrop, hm]
          exact List.take_left' key.property
        rw [hm] at hmask
        rw [if_pos (hmask.mpr rfl), hkey]
        exact unmask_unmask _ _
  have hframe : frameOf b0 b1 buf = readFrame opcode payload opts := by
    obtain ⟨hfin, hrsv1, hrsv2, hrsv3, hop⟩ := first_byte opcode opts.fin opts.rsv1
    rw [← hb0] at hfin hrsv1 hrsv2 hrsv3 hop
    unfold frameOf readFrame
    dsimp only
    rw [hlen, hpayload, hplain]
    simp [hfin, hrsv1, hrsv2, hrsv3, hop, hmask]
  rw [frameAt, if_neg (by omega), if_neg hlong, hlen, if_neg (by omega), if_neg (by omega), hframe,
    hrest]

theorem serialized_eq (opcode : Nat) (payload : Bytes) (opts : SerializeOpts) (rest : Bytes) :
    serializeFrameWith opcode payload opts ++ rest =
      UInt8.ofNat ((if opts.fin then 0x80 else 0) + (if opts.rsv1 then 0x40 else 0) +
          opcode % 16) ::
      UInt8.ofNat ((if opts.mask.isSome then 0x80 else 0) + lenByteOf payload.length) ::
      (extendedLen payload.length ++
        (maskBytes opts.mask ++ (wireBody opts.mask payload ++ rest))) := by
  unfold serializeFrameWith
  cases opts.mask with
  | none => simp [maskBytes, wireBody]
  | some key => simp [maskBytes, wireBody]

theorem lenByteOf_lt (len : Nat) : lenByteOf len < 128 := by
  unfold lenByteOf
  repeat' split
  all_goals omega

theorem beBytes_low (n : Nat) : beBytes 4 (n % 0x100000000) = beBytes 4 n := by
  have hbyte : ∀ a b : Nat, a % 256 = b % 256 → UInt8.ofNat a = UInt8.ofNat b := by
    intro a b h
    rw [← UInt8.toNat_inj, UInt8.toNat_ofNat', UInt8.toNat_ofNat']
    exact h
  simp only [beBytes, List.nil_append, List.cons_append, List.cons.injEq, and_true]
  exact ⟨hbyte _ _ (by omega), hbyte _ _ (by omega), hbyte _ _ (by omega), hbyte _ _ (by omega)⟩

/-- How a length is written: in seven bits, in two bytes or in eight. -/
theorem lenBytes_cases (len : Nat) :
    (len < 126 ∧ lenByteOf len = len ∧ extendedLen len = []) ∨
    (126 ≤ len ∧ len < 0x10000 ∧ lenByteOf len = 126 ∧ extendedLen len = beBytes 2 len) ∨
    (0x10000 ≤ len ∧ lenByteOf len = 127 ∧ extendedLen len = beBytes 8 len) := by
  by_cases hshort : len < 126
  · have hl : lenByteOf len = len := if_pos hshort
    refine .inl ⟨hshort, hl, ?_⟩
    rw [extendedLen, hl, if_neg (by omega), if_neg (by omega)]
  · by_cases hmid : len < 0x10000
    · have hl : lenByteOf len = 126 := by rw [lenByteOf, if_neg hshort, if_pos hmid]
      exact .inr (.inl ⟨by omega, hmid, hl, by rw [extendedLen, if_pos hl]⟩)
    · have hl : lenByteOf len = 127 := by rw [lenByteOf, if_neg hshort, if_neg hmid]
      refine .inr (.inr ⟨by omega, hl, ?_⟩)
      rw [extendedLen, hl, if_neg (by decide), if_pos rfl, beBytes_low]
      exact (beBytes_high len).symm

/-- The length is found where the second byte says. -/
theorem length_written {b0 b1 : UInt8} {len : Nat} (hb1 : b1.toNat % 128 = lenByteOf len)
    (hsafe : len ≤ Double.maxSafe) (tail : Bytes) :
    (extendedLen len).length + 2 = lengthEnd b1 ∧
      ¬tooLong b1 (b0 :: b1 :: (extendedLen len ++ tail)) ∧
      payloadLen b1 (b0 :: b1 :: (extendedLen len ++ tail)) = len := by
  unfold Double.maxSafe at hsafe
  rcases lenBytes_cases len with ⟨hshort, hl, hx⟩ | ⟨-, hmid, hl, hx⟩ | ⟨-, hl, hx⟩
  · rw [hl] at hb1
    rw [hx, lengthEnd, if_neg (by omega), if_neg (by omega), tooLong, payloadLen,
      if_pos (by omega)]
    exact ⟨rfl, fun h => by omega, hb1⟩
  · rw [hl] at hb1
    have hend : lengthEnd b1 = 4 := if_pos hb1
    rw [hx, hend, length_beBytes, tooLong, payloadLen, if_neg (by omega), hend]
    refine ⟨rfl, fun h => by omega, ?_⟩
    exact (congrArg beValue (field_between (length_beBytes 2 len))).trans
      (beValue_beBytes (k := 2) (by omega))
  · rw [hl] at hb1
    have hend : lengthEnd b1 = 10 := by rw [lengthEnd, if_neg (by omega), if_pos hb1]
    have hhigh : field (b0 :: b1 :: (beBytes 8 len ++ tail)) 2 4 = beBytes 4 (len / 2 ^ 32) := by
      rw [beBytes_high, List.append_assoc]
      exact field_between (length_beBytes 4 _)
    rw [hx, hend, length_beBytes, tooLong, payloadLen, if_neg (by omega), hend, hhigh,
      beValue_beBytes (by omega)]
    refine ⟨rfl, fun h => by omega, ?_⟩
    exact (congrArg beValue (field_between (length_beBytes 8 len))).trans
      (beValue_beBytes (k := 8) (by omega))

/-- The frame that a serialization holds is read back, whatever follows it. -/
theorem parse_serialized (opcode : Nat) {payload : Bytes} (opts : SerializeOpts)
    (hmax : payload.length ≤ max) (hsafe : payload.length ≤ Double.maxSafe) (rest : Bytes) :
    tryParseFrame max (serializeFrameWith opcode payload opts ++ rest) =
      .item (readFrame opcode payload opts) rest := by
  rw [serialized_eq]
  obtain ⟨hmask, hlenByte⟩ := second_byte opts.mask.isSome (lenByteOf_lt payload.length)
  obtain ⟨hext, hlong, hlen⟩ := length_written hlenByte hsafe
    (maskBytes opts.mask ++ (wireBody opts.mask payload ++ rest))
  exact frameAt_written hmax hext hmask rfl rfl hlong hlen

end Blamejs.WebSocket
