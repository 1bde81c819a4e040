import CloudMon.Collector.Receiver

/-!
# A receiver's loop over whatever arrives

`Receiver.turn` is enough where every message has two frames, which is what
`Message::send` makes. A socket that is bound to a port receives what anybody
sends, and ZeroMQ delivers a multipart message with its frames whole and in order
but says nothing about how many there are. To the loop it is one stream of frames:
a call of `receive` takes the next two of them, wherever the stream happens to be.

Every call has its own uninitialised `more`, so every turn here has its own upper
half. A call that is still waiting is no turn.
-/

namespace CloudMon

variable {ο : Type}

/-- A multipart message: one frame or more. -/
structure Multipart where
  first : Bytes
  others : List Bytes
deriving DecidableEq

/-- Frames as they are read: all but the last say that another one follows. -/
def flagged : List Bytes → List Frame
  | [] => []
  | [b] => [⟨b, false⟩]
  | b :: c :: rest => ⟨b, true⟩ :: flagged (c :: rest)

def Multipart.frames (msg : Multipart) : List Frame := flagged (msg.first :: msg.others)

/-- The frames of messages, one after the other. -/
def stream (msgs : List Multipart) : List Frame := msgs.flatMap Multipart.frames

/-- Where a receiver's loop can be, and what it has forwarded by then. -/
inductive Loops (mp : Msgpack ο) (role : Role) (inbound : List Multipart) :
    Receiver → List Message → Prop where
  | start : Loops mp role inbound { pending := stream inbound } []
  | turn {r : Receiver} {forwarded : List Message} {next : Message} {rest : List Frame}
      (upper : UInt32) : Loops mp role inbound r forwarded → r.stopped = false →
      Message.receive upper r.pending = .message next rest →
      Loops mp role inbound (loopBody mp next rest role).receiver
        (forwarded ++ (loopBody mp next rest role).forwarded.toList)

end CloudMon
