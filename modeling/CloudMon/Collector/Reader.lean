import CloudMon.Collector.Pipe
import CloudMon.Collector.Stdin

/-!
# The other end of the pipe

The updater catches nothing, so the first line that raises an exception ends it, and then
nobody reads the pipe. The collector does not notice until it writes again: that write raises
SIGPIPE, which nothing in it handles, and the process dies where it is. An aggregate whose
lines were being printed is cut short, what is in the buffer is lost, and with the proxy's
thread the one goes that passes messages on.

How soon the updater gets to its last line is up to the two processes. So from the moment
on at which that line has been handed to it whole, every write may be the one that breaks.
-/

namespace CloudMon

variable {μ ο δ φ : Type}

/-- Among the whole lines the updater has been handed is one that ends it. -/
def Updater.Ends (u : Updater) (st : Storage φ) (w : φ) (handed : Bytes) : Prop :=
  ∃ lines rest err sess, handed = piped lines ++ rest
    ∧ u.mainLoop st (piped lines) ⟨w, []⟩ = .error err sess

/-- The call may break the pipe: it has something to write, and the updater may be gone. -/
structure Breaks (u : Updater) (st : Storage φ) (w : φ) (f : Buffered.Stream UInt8)
    (call : StdioCall) : Prop where
  writes : f.kept ++ Buffered.text [call] ≠ []
  ended : u.Ends st w f.handed

/-- The lines that some calls have printed. -/
def printedLines (calls : List StdioCall) : List Bytes :=
  (Buffered.prints calls).map List.dropLast

variable [DecidableEq μ]

/-- The collector has died at `m`'s message, of which the calls `made` were made. -/
def System.afterBreak (net : Network μ ο) (s : System μ δ) (m : μ) (rest : List (μ × List Frame))
    (made : List StdioCall) : System μ δ :=
  { s with
    links := Function.update s.links (.relay net.hops) rest
    receivers := Function.update (Function.update s.receivers net.hops { stopped := true })
      (net.hops + 1) { stopped := true }
    written := s.written ++ (printedLines made).map fun line => (m, line) }

/--
The systems some run leads to when the updater reads along, with the calls the proxy has made
on its stream by then. A turn is one whose writes have all found a reader.
-/
inductive ReadRuns (net : Network μ ο) (gethostname : μ → Option Bytes) (tov : μ → Double)
    (u : Updater) (st : Storage φ) (w : φ) : System μ δ → List StdioCall → Prop where
  | init : ReadRuns net gethostname tov u st w (System.init gethostname tov) []
  | update {s s' : System μ δ} {cs : List StdioCall} :
      ReadRuns net gethostname tov u st w s cs → Update net s s' →
      ReadRuns net gethostname tov u st w s' cs
  | turn {s : System μ δ} {cs : List StdioCall} (sender : Sender μ) (m : μ) (frames : List Frame)
      (rest : List (μ × List Frame)) (upper : UInt32) :
      ReadRuns net gethostname tov u st w s cs →
      s.links sender = (m, frames) :: rest → (s.receivers (net.target sender)).stopped = false →
      ReadRuns net gethostname tov u st w (s.afterTurn net sender m frames rest upper)
        (cs ++ turnCalls net.mp (net.role (net.target sender)) upper
          (s.receivers (net.target sender)) frames)
  | broken {s : System μ δ} {cs : List StdioCall} (m : μ) (frames : List Frame)
      (rest : List (μ × List Frame)) (upper : UInt32) (made : List StdioCall) (call : StdioCall)
      (f : Buffered.Stream UInt8) :
      ReadRuns net gethostname tov u st w s cs →
      s.links (.relay net.hops) = (m, frames) :: rest →
      (s.receivers (net.hops + 1)).stopped = false →
      made ++ [call] <+: turnCalls net.mp .whisperProxy upper (s.receivers (net.hops + 1)) frames →
      Buffered.After (cs ++ made) f → Breaks u st w f call →
      ReadRuns net gethostname tov u st w (s.afterBreak net m rest made) (cs ++ made)

end CloudMon
