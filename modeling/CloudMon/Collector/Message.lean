import CloudMon.Basic

/-!
# Message

A monitoring message is a key and a payload, sent as two frames of one ZeroMQ
multipart message. Two things happen to the bytes on the way. The key is copied
out as a C string, so it ends at its first NUL; and the payload's length is kept
in an `unsigned int`, so what is passed on is cut to its length modulo 2^32.

`receive` asks the socket whether more frames follow by having four bytes written
into an eight-byte variable that nothing else has written. The upper half is a
parameter here.
-/

namespace CloudMon

/-- One frame of a multipart message, and whether another one follows it. -/
structure Frame where
  bytes : Bytes
  more : Bool
deriving DecidableEq

/-- `data` is the `data_len` bytes the pointer leads to. -/
structure Message where
  key : Bytes
  data : Bytes
deriving DecidableEq

/-- A payload, as far as its `unsigned int` length reaches. -/
def clip (b : Bytes) : Bytes := b.take (b.length % 2 ^ 32)

theorem clip_of_lt {b : Bytes} (h : b.length < 2 ^ 32) : clip b = b := by
  unfold clip
  rw [Nat.mod_eq_of_lt h, List.take_length]

theorem clip_clip (b : Bytes) : clip (clip b) = clip b := by
  refine clip_of_lt ?_
  have hmod : b.length % 2 ^ 32 < 2 ^ 32 := Nat.mod_lt _ (by decide)
  have hlen : (clip b).length ≤ b.length % 2 ^ 32 := List.length_take_le _ _
  omega

namespace Message

/-- The constructor: a C string for a key, and any bytes. -/
def new (setKey setData : Bytes) : Message where
  key := cString setKey
  data := clip setData

def send (m : Message) : List Frame := [⟨m.key, true⟩, ⟨m.data, false⟩]

/-- Whether the `int64_t` is non-zero once the socket option has written its lower half. -/
def rcvMore (upper : UInt32) (more : Bool) : Bool := more || upper != 0

/-- What a call of `receive` comes to, given the frames that can be read. -/
inductive Received where
  | message (next : Message) (rest : List Frame)
  /-- Still waiting in `zmq_msg_recv`. -/
  | blocked
  /-- `assert(more)` failed. -/
  | aborted
deriving DecidableEq

def receive (upper : UInt32) : List Frame → Received
  | [] => .blocked
  | key :: rest =>
    if rcvMore upper key.more then
      match rest with
      | [] => .blocked
      | data :: rest => .message ⟨cString key.bytes, clip data.bytes⟩ rest
    else .aborted

/-- A message of two frames is received as one, whatever the variable held. -/
theorem receive_pair (upper : UInt32) (key data : Bytes) :
    receive upper [⟨key, true⟩, ⟨data, false⟩] = .message ⟨cString key, clip data⟩ [] := rfl

/-- What was constructed, sent and received is what was constructed. -/
theorem receive_send (upper : UInt32) (setKey setData : Bytes) :
    receive upper (new setKey setData).send = .message (new setKey setData) [] := by
  rw [send, receive_pair, new, clip_clip, cString_of_not_mem (zero_not_mem_cString setKey)]

end Message

end CloudMon
