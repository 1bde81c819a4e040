import CloudMon.Collector.Faults
import CloudMon.Collector.Reader

/-!
# One collector after the other

A collector dies when `sm_ctl stop` sends it SIGINT, or when it writes into a pipe that has
lost its reader, and `sm_ctl start` starts a new one. That has a pipe of its own and runs an
updater of its own. What the old one had in its pipe's buffer is lost; what it has handed to
its own updater is still read, to the end or to an exception.

Nobody waits for that. The old updaters may be at work beside the new one, on the same
files, so what an updater finds outside is not what any one of the others has left there:
each has answers of its own.

Killed by `sm_ctl` a collector dies between two messages here. A signal that strikes while
the lines of an aggregate are being printed can leave a piece of one in the pipe.
-/

namespace CloudMon

variable {μ ο δ φ : Type}

/-- A collector that has died. -/
structure Collector (φ : Type) where
  /-- What its updater finds outside. -/
  storage : Storage φ
  world : φ
  /-- Its stream, as it was left. -/
  stream : Buffered.Stream UInt8

/-- What its updater makes of what it has been handed. -/
def Collector.session (u : Updater) (c : Collector φ) : Option PyError × Session φ :=
  u.session c.storage c.world c.stream.handed

/-- The collectors there have been, and the one that runs. -/
structure Collectors (μ φ : Type) where
  past : List (Collector φ)
  storage : Storage φ
  world : φ
  /-- The calls the one that runs has made on its stream. -/
  calls : List StdioCall
  /-- How many messages of each monitor's a broken pipe has cut short. -/
  cut : μ → Nat

/-- All of them, had the last one died now and left its stream like this. -/
def Collectors.all (c : Collectors μ φ) (stream : Buffered.Stream UInt8) : List (Collector φ) :=
  c.past ++ [⟨c.storage, c.world, stream⟩]

/-- The one that runs has made some more calls. -/
def Collectors.made (c : Collectors μ φ) (calls : List StdioCall) : Collectors μ φ :=
  { c with calls := c.calls ++ calls }

/-- A new one has been started. -/
def Collectors.next (c : Collectors μ φ) (stream : Buffered.Stream UInt8) (st : Storage φ)
    (w : φ) (cut : μ → Nat) : Collectors μ φ :=
  ⟨c.all stream, st, w, [], cut⟩

variable [DecidableEq μ]

/--
The systems some run leads to, what has gone wrong on the way, and the collectors. Each that
dies is started again at once; until it really is, it takes no turn.
-/
inductive CollectorRuns (net : Network μ ο) (gethostname : μ → Option Bytes) (tov : μ → Double)
    (u : Updater) : System μ δ → Faults μ → Collectors μ φ → Prop where
  | init (st : Storage φ) (w : φ) :
      CollectorRuns net gethostname tov u (System.init gethostname tov) .none
        ⟨[], st, w, [], fun _ => 0⟩
  | update {s s' : System μ δ} {f : Faults μ} {c : Collectors μ φ} :
      CollectorRuns net gethostname tov u s f c → Update net s s' →
      CollectorRuns net gethostname tov u s' f c
  | turn {s : System μ δ} {f : Faults μ} {c : Collectors μ φ} (sender : Sender μ) (m : μ)
      (frames : List Frame) (rest : List (μ × List Frame)) (upper : UInt32) :
      CollectorRuns net gethostname tov u s f c → s.links sender = (m, frames) :: rest →
      (s.receivers (net.target sender)).stopped = false →
      CollectorRuns net gethostname tov u (s.afterTurn net sender m frames rest upper) f
        (c.made (turnCalls net.mp (net.role (net.target sender)) upper
          (s.receivers (net.target sender)) frames))
  | mishap {s s' : System μ δ} {f f' : Faults μ} {c : Collectors μ φ} :
      CollectorRuns net gethostname tov u s f c → Mishap net gethostname s f s' f' →
      CollectorRuns net gethostname tov u s' f' c
  | killed {s : System μ δ} {f : Faults μ} {c : Collectors μ φ} (stream : Buffered.Stream UInt8)
      (st : Storage φ) (w : φ) :
      CollectorRuns net gethostname tov u s f c → Buffered.After c.calls stream →
      CollectorRuns net gethostname tov u (s.afterCollector net) f (c.next stream st w c.cut)
  | broken {s : System μ δ} {f : Faults μ} {c : Collectors μ φ} (m : μ) (frames : List Frame)
      (rest : List (μ × List Frame)) (upper : UInt32) (made : List StdioCall) (call : StdioCall)
      (stream : Buffered.Stream UInt8) (st : Storage φ) (w : φ) :
      CollectorRuns net gethostname tov u s f c →
      s.links (.relay net.hops) = (m, frames) :: rest →
      (s.receivers (net.hops + 1)).stopped = false →
      made ++ [call] <+: turnCalls net.mp .whisperProxy upper (s.receivers (net.hops + 1)) frames →
      Buffered.After (c.calls ++ made) stream → Breaks u c.storage c.world stream call →
      CollectorRuns net gethostname tov u ((s.afterBreak net m rest made).afterCollector net) f
        (c.next stream st w (Function.update c.cut m (c.cut m + 1)))

end CloudMon
