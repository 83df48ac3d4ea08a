import Mathlib.Algebra.Order.Ring.Nat
import Mathlib.Data.List.Induction

/-! The part record codec: `magic (4, LE) ++ body_len (4, LE) ++ crc32 (4, LE) ++ body`. A truncated
frame at the end of a buffer ends the iteration; any other damage is an error. -/

namespace Ehdb

open List

namespace L0

/-- The error kinds of `ehdb_core`. -/
inductive EhdbError where
  | invalidIdentifier (value : String)
  | invalidState (value : String)
  | alreadyExists (value : String)
  | notFound (value : String)
  | storage (value : String)
  deriving DecidableEq

abbrev Result (α : Type) := Except EhdbError α

abbrev Bytes := List UInt8

end L0

export L0 (EhdbError Result Bytes)

namespace L0

def frameMagic : Nat := 0xE5DB0001

def frameHeaderLen : Nat := 12

def maxFrameBodyBytes : Nat := 64 * 1024 * 1024

def crc32Bit (crc : UInt32) : UInt32 :=
  let mask := 0 - (crc &&& 1)
  (crc >>> 1) ^^^ (0xEDB88320 &&& mask)

def crc32Byte (crc : UInt32) (byte : UInt8) : UInt32 :=
  Nat.repeat crc32Bit 8 (crc ^^^ byte.toUInt32)

def crc32 (data : Bytes) : UInt32 :=
  ~~~(data.foldl crc32Byte 0xFFFFFFFF)

def toLeBytes (n : Nat) : Bytes :=
  [.ofNat n, .ofNat (n / 256), .ofNat (n / 65536), .ofNat (n / 16777216)]

def fromLeBytes : Bytes → Nat
  | [] => 0
  | b :: rest => b.toNat + 256 * fromLeBytes rest

@[simp]
theorem toLeBytes_length (n : Nat) : (toLeBytes n).length = 4 := rfl

theorem fromLeBytes_toLeBytes {n} (h : n < 2 ^ 32) : fromLeBytes (toLeBytes n) = n := by
  simp only [toLeBytes, fromLeBytes, UInt8.toNat_ofNat']
  omega

def encodeFrame (body : Bytes) : Result Bytes :=
  if body.length > maxFrameBodyBytes then
    .error (.invalidState s!"l0 frame body {body.length} exceeds cap {maxFrameBodyBytes}")
  else
    .ok (toLeBytes frameMagic ++ toLeBytes body.length ++ toLeBytes (crc32 body).toNat ++ body)

def frameBytes (body : Bytes) : Bytes :=
  toLeBytes frameMagic ++ toLeBytes body.length ++ toLeBytes (crc32 body).toNat ++ body

variable {body : Bytes}

theorem encodeFrame_eq_ok {framed} (h : encodeFrame body = .ok framed) :
    body.length ≤ maxFrameBodyBytes ∧ framed = frameBytes body := by
  unfold encodeFrame at h
  split at h
  · contradiction
  · rename_i small
    exact ⟨by omega, by rw [← Except.ok.inj h, frameBytes]⟩

@[simp]
theorem frameBytes_length (body : Bytes) :
    (frameBytes body).length = frameHeaderLen + body.length := by
  simp only [frameBytes, length_append, toLeBytes_length, frameHeaderLen]

theorem frameBytes_ne_nil (body : Bytes) : frameBytes body ≠ [] := by
  simp [frameBytes, toLeBytes]

/-- A decoded frame: where its magic stands, its body and its length on disk. -/
structure DecodedFrame where
  offset : Nat
  body : Bytes
  frameLen : Nat
  deriving DecidableEq

variable (bytes : Bytes)

def slice (lo hi : Nat) : Bytes :=
  (bytes.take hi).drop lo

def readFrameAt (offset : Nat) : Result (Option DecodedFrame) :=
  let start := offset
  -- a truncated header at the end is a torn tail
  if start + frameHeaderLen > bytes.length then
    .ok none
  else
    let magic := fromLeBytes (slice bytes start (start + 4))
    let bodyLen := fromLeBytes (slice bytes (start + 4) (start + 8))
    let crc := fromLeBytes (slice bytes (start + 8) (start + 12))
    if magic ≠ frameMagic then
      .error (.storage s!"l0 part: bad frame magic at offset {offset}")
    else if bodyLen > maxFrameBodyBytes then
      .error (.storage s!"l0 part: frame body {bodyLen} exceeds cap at offset {offset}")
    else
      let bodyStart := start + frameHeaderLen
      let bodyEnd := bodyStart + bodyLen
      if bodyEnd > bytes.length then
        .ok none
      else
        let body := slice bytes bodyStart bodyEnd
        if (crc32 body).toNat ≠ crc then
          .error (.storage s!"l0 part: frame CRC mismatch at offset {offset}")
        else
          .ok (some { offset := offset, body := body, frameLen := frameHeaderLen + bodyLen })

/-- The loop of `iterFramesFrom`. Every frame is at least a header long, so `fuel` beyond the
buffer's length is never used up. -/
def iterFramesLoop (bytes : Bytes) : Nat → Nat → Result (List DecodedFrame)
  | 0, _ => .ok []
  | fuel + 1, offset =>
    match readFrameAt bytes offset with
    | .error e => .error e
    | .ok none => .ok []
    | .ok (some frame) =>
      match iterFramesLoop bytes fuel (frame.offset + frame.frameLen) with
      | .error e => .error e
      | .ok frames => .ok (frame :: frames)

def iterFramesFrom (startOffset : Nat) : Result (List DecodedFrame) :=
  iterFramesLoop bytes (bytes.length + 1) startOffset

/-- Every frame of a buffer that must hold whole frames only: trailing bytes are corruption. -/
def iterFramesExact (startOffset : Nat) : Result (List DecodedFrame) :=
  match iterFramesFrom bytes startOffset with
  | .error e => .error e
  | .ok frames =>
    let finish := (frames.getLast?.map fun f => f.offset + f.frameLen).getD startOffset
    if finish ≠ bytes.length then
      .error (.storage (s!"l0 part: {bytes.length - finish} trailing bytes at offset {finish} " ++
        "do not form a frame in a sealed part (corruption, not a torn tail)"))
    else
      .ok frames

theorem slice_within (before after : Bytes) {bytes middle lo hi}
    (split : bytes = before ++ middle ++ after) (start : lo = before.length)
    (stop : hi = before.length + middle.length) : slice bytes lo hi = middle := by
  rw [split, start, stop, slice, ← length_append, take_left, drop_left]

theorem readFrameAt_frameBytes (h : body.length ≤ maxFrameBodyBytes) (before after : Bytes) :
    readFrameAt (before ++ frameBytes body ++ after) before.length =
      .ok (some ⟨before.length, body, frameHeaderLen + body.length⟩) := by
  have magic : slice (before ++ frameBytes body ++ after) before.length (before.length + 4)
      = toLeBytes frameMagic :=
    slice_within before (toLeBytes body.length ++ toLeBytes (crc32 body).toNat ++ body ++ after)
      (by simp [frameBytes]) rfl rfl
  have bodyLen : slice (before ++ frameBytes body ++ after) (before.length + 4)
      (before.length + 8) = toLeBytes body.length :=
    slice_within (before ++ toLeBytes frameMagic) (toLeBytes (crc32 body).toNat ++ body ++ after)
      (by simp [frameBytes]) (by simp) (by simp)
  have crc : slice (before ++ frameBytes body ++ after) (before.length + 8)
      (before.length + 12) = toLeBytes (crc32 body).toNat :=
    slice_within (before ++ toLeBytes frameMagic ++ toLeBytes body.length)
      (body ++ after) (by simp [frameBytes]) (by simp) (by simp)
  have payload : slice (before ++ frameBytes body ++ after) (before.length + frameHeaderLen)
      (before.length + frameHeaderLen + body.length) = body :=
    slice_within (before ++ toLeBytes frameMagic ++ toLeBytes body.length ++
      toLeBytes (crc32 body).toNat) after
      (by simp [frameBytes]) (by simp [frameHeaderLen]) (by simp [frameHeaderLen])
  have lenWord : fromLeBytes (toLeBytes body.length) = body.length :=
    fromLeBytes_toLeBytes (by unfold maxFrameBodyBytes at h; omega)
  have crcWord : fromLeBytes (toLeBytes (crc32 body).toNat) = (crc32 body).toNat :=
    fromLeBytes_toLeBytes (crc32 body).toNat_lt
  have magicWord : fromLeBytes (toLeBytes frameMagic) = frameMagic :=
    fromLeBytes_toLeBytes (by decide)
  have room : before.length + frameHeaderLen + body.length ≤
      (before ++ frameBytes body ++ after).length := by
    simp only [length_append, frameBytes_length]; omega
  unfold readFrameAt
  simp only [magic, bodyLen, crc, lenWord, crcWord, magicWord, payload]
  rw [if_neg (by omega), if_neg (by simp), if_neg (by omega), if_neg (by omega), if_neg (by simp)]

/-- What is left of a frame that was not written to its end. -/
def Torn : Prop :=
  ∃ body : Bytes, body.length ≤ maxFrameBodyBytes ∧ bytes <+: frameBytes body ∧
    bytes ≠ frameBytes body

theorem torn_nil : Torn [] := ⟨[], Nat.zero_le _, nil_prefix, (frameBytes_ne_nil []).symm⟩

theorem readFrameAt_torn {torn} (h : Torn torn) (before : Bytes) :
    readFrameAt (before ++ torn) before.length = .ok none := by
  obtain ⟨body, small, ⟨rest, whole⟩, short⟩ := h
  have longer : torn.length < frameHeaderLen + body.length := by
    rw [← frameBytes_length, ← whole, length_append]
    have : rest ≠ [] := by
      rintro rfl
      exact short (by simpa using whole)
    have := length_pos_iff.2 this
    omega
  unfold readFrameAt
  dsimp only
  split
  · rfl
  rename_i room
  -- the header is there in full
  have header : toLeBytes frameMagic ++ toLeBytes body.length ++ toLeBytes (crc32 body).toNat =
      torn.take frameHeaderLen := by
    have le : frameHeaderLen ≤ torn.length := by simpa using room
    have := congrArg (take frameHeaderLen) whole
    rw [take_append_of_le_length le, frameBytes] at this
    exact (this.trans (take_left' rfl)).symm
  have split : before ++ torn = before ++ toLeBytes frameMagic ++ toLeBytes body.length ++
      toLeBytes (crc32 body).toNat ++ torn.drop frameHeaderLen := by
    conv_lhs => rw [← take_append_drop frameHeaderLen torn, ← header]
    simp
  have magic : slice (before ++ torn) before.length (before.length + 4) = toLeBytes frameMagic :=
    slice_within before (toLeBytes body.length ++ toLeBytes (crc32 body).toNat ++
      torn.drop frameHeaderLen) (by simpa using split) rfl rfl
  have bodyLen : slice (before ++ torn) (before.length + 4) (before.length + 8) =
      toLeBytes body.length :=
    slice_within (before ++ toLeBytes frameMagic) (toLeBytes (crc32 body).toNat ++
      torn.drop frameHeaderLen) (by simpa using split) (by simp) (by simp)
  have magicWord : fromLeBytes (toLeBytes frameMagic) = frameMagic :=
    fromLeBytes_toLeBytes (by decide)
  have lenWord : fromLeBytes (toLeBytes body.length) = body.length :=
    fromLeBytes_toLeBytes (by unfold maxFrameBodyBytes at small; omega)
  simp only [magic, bodyLen, magicWord, lenWord]
  rw [if_neg (by simp), if_neg (by omega), if_pos]
  rw [length_append]
  omega

/-- The frames of `bodies` laid out one after the other from `offset`. -/
def framesOf (offset : Nat) : List Bytes → List DecodedFrame
  | [] => []
  | body :: rest =>
    ⟨offset, body, frameHeaderLen + body.length⟩ ::
      framesOf (offset + frameHeaderLen + body.length) rest

theorem framesOf_append (offset : Nat) (front back : List Bytes) : framesOf offset (front ++ back) =
      framesOf offset front ++ framesOf (offset + (front.flatMap frameBytes).length) back := by
  induction front generalizing offset with
  | nil => simp [framesOf]
  | cons body rest ih =>
    simp [framesOf, ih, Nat.add_assoc]

theorem framesOf_end (offset : Nat) (bodies : List Bytes) :
    ((framesOf offset bodies).getLast?.map fun f => f.offset + f.frameLen).getD offset =
      offset + (bodies.flatMap frameBytes).length := by
  induction bodies using reverseRecOn with
  | nil => simp [framesOf]
  | append_singleton front body _ =>
    simp [framesOf_append, framesOf, Nat.add_assoc]

variable {bodies : List Bytes} {torn : Bytes}

section Iterating

variable (small : ∀ body ∈ bodies, body.length ≤ maxFrameBodyBytes)
include small

theorem iterFramesLoop_frames (short : Torn torn) (before : Bytes) (fuel : Nat)
    (enough : bodies.length < fuel) :
    iterFramesLoop (before ++ bodies.flatMap frameBytes ++ torn) fuel before.length =
      .ok (framesOf before.length bodies) := by
  induction bodies generalizing before fuel with
  | nil =>
    obtain ⟨fuel, rfl⟩ : ∃ n, fuel = n + 1 := ⟨fuel - 1, by simp at enough; omega⟩
    simp [iterFramesLoop, readFrameAt_torn short, framesOf]
  | cons body rest ih =>
    obtain ⟨fuel, rfl⟩ : ∃ n, fuel = n + 1 := ⟨fuel - 1, by simp at enough; omega⟩
    have headSmall := small body (by simp)
    have next := ih (fun b hb => small b (by simp [hb])) (before ++ frameBytes body) fuel
      (by simp at enough; omega)
    have nextOffset : (before ++ frameBytes body).length =
        before.length + (frameHeaderLen + body.length) := by simp
    rw [nextOffset] at next
    have here := readFrameAt_frameBytes headSmall before (rest.flatMap frameBytes ++ torn)
    simp only [append_assoc] at here next
    simp only [flatMap_cons, append_assoc, iterFramesLoop, here, next, framesOf]
    rw [Nat.add_assoc]

/-- Decoding from a frame boundary gives the whole frames from there on. -/
theorem iterFramesFrom_frames (short : Torn torn) (before : Bytes) :
    iterFramesFrom (before ++ bodies.flatMap frameBytes ++ torn) before.length =
      .ok (framesOf before.length bodies) := by
  refine iterFramesLoop_frames small short before _ (Nat.lt_succ_of_le ?_)
  have count : bodies.length ≤ (bodies.flatMap frameBytes).length := by
    clear small
    induction bodies with
    | nil => simp
    | cons body rest ih =>
      simp only [flatMap_cons, length_append, length_cons, frameBytes_length, frameHeaderLen]
      omega
  simp only [length_append]
  omega

theorem iterFramesExact_frames (before : Bytes) :
    iterFramesExact (before ++ bodies.flatMap frameBytes) before.length =
      .ok (framesOf before.length bodies) := by
  have finish := framesOf_end before.length bodies
  have decoded := iterFramesFrom_frames small torn_nil before
  rw [append_nil] at decoded
  simp only [iterFramesExact, decoded]
  rw [finish, if_neg (by simp)]

end Iterating

end L0

end Ehdb
