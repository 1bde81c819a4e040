import CloudMon.Collector.Format
import CloudMon.Collector.Message

/-!
# The three receivers

`intermediate_receiver`, `basic_receiver` and `WhisperRRDProxy` each loop over
`Message::receive`. The first two pass every message on; the first and the third
decode it. They differ in the order, and in what a payload that does not decode
does to the loop: the relay has forwarded it by then and stops afterwards, the
proxy dies of it, and `basic_receiver` never looks. What the proxy's own writes can do
to it depends on who reads them, and is left to `Reader`.

msgpack is not part of this repository. It comes as a parameter: the two packers
the monitor calls, `unpack`, and the two conversions. `none` is an exception.
-/

namespace CloudMon

structure Msgpack (ο : Type) where
  packString : Bytes → Bytes
  packAggregate : AggregateDomainStats → Bytes
  unpack : Bytes → Option ο
  toString : ο → Option Bytes
  toAggregate : ο → Option AggregateDomainStats

variable {ο : Type}

/-- The key of a termination message. -/
def termInstance : Bytes := bytes "monitor.term_instance"

/-- The start of an aggregate's key. -/
def serversPrefix : Bytes := bytes "monitor.servers."

/-- What all subscribers ask for: a first frame that starts with one of the two filters. -/
def subscribed : List Frame → Bool
  | [] => false
  | key :: _ => serversPrefix.isPrefixOf key.bytes || termInstance.isPrefixOf key.bytes

theorem subscribed_send (m : Message) :
    subscribed m.send = (serversPrefix.isPrefixOf m.key || termInstance.isPrefixOf m.key) := rfl

/-- Whether unpacking and converting a message goes through, by the type its key stands for. -/
def decodes (mp : Msgpack ο) (next : Message) : Bool :=
  match mp.unpack next.data with
  | none => false
  | some msg =>
    if next.key = termInstance then (mp.toString msg).isSome else (mp.toAggregate msg).isSome

/-- `WhisperRRDProxy::update_immediate`: the lines written to the updater. -/
def updateImmediate (mp : Msgpack ο) (key : Bytes) (msg : ο) : Option (List Bytes) :=
  if key = termInstance then
    (mp.toString msg).map fun whichInstance => [cString key ++ bytes " " ++ cString whichInstance]
  else (mp.toAggregate msg).map getWhisperUpdates

/-- What the proxy makes of a message. -/
def proxyLines (mp : Msgpack ο) (next : Message) : Option (List Bytes) :=
  (mp.unpack next.data).bind (updateImmediate mp next.key)

theorem proxyLines_isSome (mp : Msgpack ο) (next : Message) :
    (proxyLines mp next).isSome = decodes mp next := by
  unfold proxyLines decodes updateImmediate
  cases mp.unpack next.data with
  | none => rfl
  | some msg =>
      rw [Option.bind_some]
      split <;> rw [Option.isSome_map]

/-- A receiver's loop between two turns: the frames not read yet, and whether it has ended. -/
structure Receiver where
  pending : List Frame := []
  stopped : Bool := false
deriving DecidableEq

inductive Role where
  | intermediateReceiver
  | basicReceiver
  | whisperProxy
deriving DecidableEq

/-- What one turn of a loop leaves, forwards and writes. -/
structure Turn where
  receiver : Receiver
  forwarded : Option Message := none
  lines : List Bytes := []
deriving DecidableEq

/--
The body of the loop, once `receive` has a message and `rest` is left to read. Writing the
lines succeeds here.
-/
def loopBody (mp : Msgpack ο) (next : Message) (rest : List Frame) : Role → Turn
  | .intermediateReceiver =>
    { receiver := { pending := rest, stopped := !decodes mp next }, forwarded := some next }
  | .basicReceiver => { receiver := { pending := rest }, forwarded := some next }
  | .whisperProxy =>
    match proxyLines mp next with
    | none => { receiver := { pending := rest, stopped := true } }
    | some lines => { receiver := { pending := rest }, lines := lines }

/-- One turn of a receiver's loop on what has arrived. A loop that has ended takes no more turns. -/
def Receiver.turn (mp : Msgpack ο) (role : Role) (upper : UInt32) (r : Receiver)
    (arrived : List Frame) : Turn :=
  if r.stopped then { receiver := r }
  else
    match Message.receive upper (r.pending ++ arrived) with
    | .blocked => { receiver := { r with pending := r.pending ++ arrived } }
    | .aborted => { receiver := { r with stopped := true } }
    | .message next rest => loopBody mp next rest role

end CloudMon
