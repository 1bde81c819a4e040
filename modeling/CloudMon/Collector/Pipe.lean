import CloudMon.Collector.System
import CloudMon.Lib.Buffered

/-!
# The proxy's pipe

What the proxy has from `popen` is a stdio stream, and a stdio stream on a pipe is fully
buffered. `update_immediate` flushes behind each line of an aggregate and not behind a
termination, so what it has written and what the updater can read are two things.

They come apart for good when the collector dies: nothing in it handles the SIGINT that
`sm_ctl stop` sends, and an exception in the proxy's thread aborts the process. Only the
destructor, whose `pclose` flushes, writes out what is left.
-/

namespace CloudMon

variable {μ ο δ : Type}

/-- The calls on the stream. -/
abbrev StdioCall := Buffered.Call UInt8

/-- `WhisperRRDProxy::update_immediate`, call by call. -/
def updateImmediateCalls (mp : Msgpack ο) (key : Bytes) (msg : ο) : Option (List StdioCall) :=
  if key = termInstance then
    (mp.toString msg).map fun whichInstance =>
      [.print (cString key ++ bytes " " ++ cString whichInstance ++ [10])]
  else
    (mp.toAggregate msg).map fun agg =>
      (getWhisperUpdates agg).flatMap fun update => [.print (cString update ++ [10]), .flush]

/-- The calls for a message; `none` is the exception that ends the process. -/
def proxyCalls (mp : Msgpack ο) (next : Message) : Option (List StdioCall) :=
  (mp.unpack next.data).bind (updateImmediateCalls mp next.key)

/-- The destructor: `pclose` flushes before it closes. -/
def destroyCalls : List StdioCall := [.flush]

/-- The calls a receiver's turn makes. Only the proxy has a stream. -/
def turnCalls (mp : Msgpack ο) (role : Role) (upper : UInt32) (r : Receiver)
    (arrived : List Frame) : List StdioCall :=
  if r.stopped then []
  else
    match Message.receive upper (r.pending ++ arrived), role with
    | .message next _, .whisperProxy => (proxyCalls mp next).getD []
    | _, _ => []

variable [DecidableEq μ]

/-- The systems some run leads to, with the calls the proxy has made on its stream by then. -/
inductive PipedRuns (net : Network μ ο) (gethostname : μ → Option Bytes) (tov : μ → Double) :
    System μ δ → List StdioCall → Prop where
  | init : PipedRuns net gethostname tov (System.init gethostname tov) []
  | update {s s' : System μ δ} {cs : List StdioCall} : PipedRuns net gethostname tov s cs →
      Update net s s' → PipedRuns net gethostname tov s' cs
  | turn {s : System μ δ} {cs : List StdioCall} (sender : Sender μ) (m : μ) (frames : List Frame)
      (rest : List (μ × List Frame)) (upper : UInt32) : PipedRuns net gethostname tov s cs →
      s.links sender = (m, frames) :: rest → (s.receivers (net.target sender)).stopped = false →
      PipedRuns net gethostname tov (s.afterTurn net sender m frames rest upper)
        (cs ++ turnCalls net.mp (net.role (net.target sender)) upper
          (s.receivers (net.target sender)) frames)

end CloudMon
