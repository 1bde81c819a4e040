import CloudMon.Proof.Reader

/-!
# One sender silencing another

A relay forwards a message before it looks at it, and looking at one that does not
decode ends its loop; the proxy dies of such a message outright. Either way what
the receiver did for messages before it stands, and everything after it is lost,
whoever sent it. `basic_receiver`, which leaves decoding to others, is not
affected.

The proxy can also be killed by what it writes. A line that ends the updater takes the
pipe's reader away, and the proxy dies of one of its next writes; of which, nobody can say.
So there is a set of things it may have written for a sender, from the lines that the
updater got to up to all of them.

What one sender gets out of a receiver therefore depends on another in two ways. It is as if
the other were not there exactly when no undecodable message of the other comes before one
of its own that would have had an effect, and the updater gets just as far with its lines.
-/

namespace CloudMon.Proof

open CloudMon Wp Pipeline

variable {ο : Type}

/-- Two monitors at one receiver. -/
inductive Peer where
  | a
  | b
deriving DecidableEq

/-- A two-frame message that passes a subscriber's filters, and who sent it. -/
structure Arrival where
  sender : Peer
  /-- What the uninitialised half of the receiver's variable holds by then. -/
  upper : UInt32
  key : Bytes
  data : Bytes
  passes : subscribed [⟨key, true⟩, ⟨data, false⟩] = true

/-- The message as it is received. -/
def Arrival.message (x : Arrival) : Message := ⟨cString x.key, clip x.data⟩

section Pipe

variable {φ : Type} (u : Updater) (st : Storage φ) (w : φ)

/-- What the proxy may have come to: all its calls, or those before one that broke the pipe. -/
def Made (calls made : List (Peer × StdioCall)) : Prop :=
  made = calls ∨ ∃ call f, made ++ [call] <+: calls
    ∧ Buffered.After (made.map Prod.snd) f ∧ Breaks u st w f call.2

end Pipe

/-! ## Receivers that decode -/

section

variable {mp : Msgpack ο} {role : Role} {β : Type} {out : Turn → List β}

end

section Pipe

variable {φ : Type} {u : Updater} {st : Storage φ} {w : φ}

end Pipe

/-! ## Both receivers -/

end CloudMon.Proof
