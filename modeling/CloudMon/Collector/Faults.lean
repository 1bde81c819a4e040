import CloudMon.Collector.System

/-!
# What goes wrong around the program

A publisher's socket may drop what it is given: a message no subscriber has asked for yet,
one for which there is no room left, and all that are unsent when it is closed, as the
monitor sets its socket not to linger. What a socket drops is a whole multipart message,
never single frames of one. So in this system any message on any connection may be lost,
at any time.

And processes are killed and started again, with `sm_ctl` or by hand. A new monitor knows
nothing of the old one; an update that is under way when `sm_ctl` sends its SIGINT is
finished first. A new relay or collector waits for the first frame of a message; what the
old one had in its sockets is lost, message by message.

Nothing in the program notices a loss or a restart, let alone makes up for it. The pipe is
left out of this system: what a collector's death does to what it has printed, and what
becomes of its updater, is the subject of `Restarts`.
-/

namespace CloudMon

variable {μ ο δ : Type} [DecidableEq μ]

/-- A message has been lost on `sender`'s connection; `rest` is still there. -/
def System.afterLoss (s : System μ δ) (sender : Sender μ) (rest : List (μ × List Frame)) :
    System μ δ :=
  { s with links := Function.update s.links sender rest }

/-- Monitor `m` has been started again; what it has sent has been sent. -/
def System.afterRestart (s : System μ δ) (m : μ) (gethostname : Option Bytes) (tov : Double) :
    System μ δ :=
  { s with
    monitors := Function.update s.monitors m
      { pub := Publisher.init gethostname tov, alive := true, sent := (s.monitors m).sent } }

omit [DecidableEq μ] in
/-- Receiver `k` has been started again. -/
def System.afterReceiver (s : System μ δ) (k : Nat) : System μ δ :=
  { s with receivers := Function.update s.receivers k {} }

omit [DecidableEq μ] in
/-- The collector has been started again: the basic receiver and its proxy are one process. -/
def System.afterCollector (net : Network μ ο) (s : System μ δ) : System μ δ :=
  (s.afterReceiver net.hops).afterReceiver (net.hops + 1)

/-- How much has gone wrong, monitor by monitor. -/
structure Faults (μ : Type) where
  /-- How many of its messages have been lost. -/
  lost : μ → Nat
  /-- How often it has been started again. -/
  restarts : μ → Nat

/-- Nothing has gone wrong yet. -/
def Faults.none : Faults μ := ⟨fun _ => 0, fun _ => 0⟩

/-- A step in which something goes wrong outside the collector. -/
inductive Mishap (net : Network μ ο) (gethostname : μ → Option Bytes) (s : System μ δ)
    (f : Faults μ) : System μ δ → Faults μ → Prop where
  | loss (sender : Sender μ) (m : μ) (frames : List Frame) (before after : List (μ × List Frame)) :
      s.links sender = before ++ (m, frames) :: after →
      Mishap net gethostname s f (s.afterLoss sender (before ++ after))
        { f with lost := Function.update f.lost m (f.lost m + 1) }
  | restart (m : μ) (tov : Double) :
      Mishap net gethostname s f (s.afterRestart m (gethostname m) tov)
        { f with restarts := Function.update f.restarts m (f.restarts m + 1) }
  | relay (k : Nat) : k < net.hops → Mishap net gethostname s f (s.afterReceiver k) f

/-- The systems some run leads to, and what has gone wrong on the way. -/
inductive FaultyRuns (net : Network μ ο) (gethostname : μ → Option Bytes) (tov : μ → Double) :
    System μ δ → Faults μ → Prop where
  | init : FaultyRuns net gethostname tov (System.init gethostname tov) .none
  | update {s s' : System μ δ} {f : Faults μ} : FaultyRuns net gethostname tov s f →
      Update net s s' → FaultyRuns net gethostname tov s' f
  | deliver {s s' : System μ δ} {f : Faults μ} : FaultyRuns net gethostname tov s f →
      Deliver net s s' → FaultyRuns net gethostname tov s' f
  | mishap {s s' : System μ δ} {f f' : Faults μ} : FaultyRuns net gethostname tov s f →
      Mishap net gethostname s f s' f' → FaultyRuns net gethostname tov s' f'
  | collector {s : System μ δ} {f : Faults μ} : FaultyRuns net gethostname tov s f →
      FaultyRuns net gethostname tov (s.afterCollector net) f

end CloudMon
