import CloudMon.Collector.Receiver
import CloudMon.Lib.Pipeline

/-!
# Monitors, relays and the updater

The whole system: any monitors, a chain of intermediate receivers, the basic
receiver at its end and the proxy behind that. Receiver `k` is the `k`-th of the
chain, so `hops` is the basic receiver and `hops + 1` the proxy; a monitor is
connected to any receiver but the proxy.

Every sender has one connection, a first-in first-out queue of multipart messages
that its subscriber asked for. The two steps are a monitor's `update`, on whatever
hypervisor it finds, and a receiver's turn on the first message of any of its
connections. Queue entries and written lines carry the name of the monitor they
stem from, which no part of the program sees.

In these runs what the proxy writes finds a reader. A turn that is cut short because the
updater has ended, and the whole process with it, is the subject of `Reader`.
-/

namespace CloudMon

variable {μ ο δ : Type}

inductive Sender (μ : Type) where
  | monitor (m : μ)
  | relay (k : Nat)
deriving DecidableEq

structure Network (μ ο : Type) where
  mp : Msgpack ο
  /-- How many intermediate receivers there are. -/
  hops : Nat
  /-- Which receiver each monitor is connected to. -/
  entry : μ → Nat
  entry_le : ∀ m, entry m ≤ hops

namespace Network

def role (net : Network μ ο) (k : Nat) : Role :=
  if k < net.hops then .intermediateReceiver
  else if k = net.hops then .basicReceiver
  else .whisperProxy

/-- Which receiver a sender's connection leads to. -/
def target (net : Network μ ο) : Sender μ → Nat
  | .monitor m => net.entry m
  | .relay k => k + 1

end Network

structure Monitor (δ : Type) where
  pub : Publisher δ
  alive : Bool
  /-- Everything it has published so far. -/
  sent : List Publication

structure System (μ δ : Type) where
  monitors : μ → Monitor δ
  links : Sender μ → List (μ × List Frame)
  receivers : Nat → Receiver
  written : List (μ × Bytes)

/-- The publications in a trail. -/
def published (trail : List Event) : List Publication :=
  trail.filterMap fun
    | .sent p => some p
    | _ => none

/-- The message the publisher makes of a publication. -/
def toMessage (mp : Msgpack ο) : Publication → Message
  | .aggregate key agg => Message.new key (mp.packAggregate agg)
  | .termInstance ident => Message.new termInstance (mp.packString ident)

/-- A payload short enough for `Message`, that unpacking gives back. -/
def Sendable (mp : Msgpack ο) : Publication → Prop
  | .aggregate _ agg => (mp.packAggregate agg).length < 2 ^ 32
    ∧ (mp.unpack (mp.packAggregate agg)).bind mp.toAggregate = some agg
  | .termInstance ident => (mp.packString ident).length < 2 ^ 32
    ∧ (mp.unpack (mp.packString ident)).bind mp.toString = some ident

/-- What a subscriber is sent of some messages. -/
def transmitted (messages : List Message) : List (List Frame) :=
  (messages.map Message.send).filter subscribed

/-- Monitors that have just been started, and nothing under way. -/
def System.init (gethostname : μ → Option Bytes) (tov : μ → Double) : System μ δ where
  monitors m := { pub := Publisher.init (gethostname m) (tov m), alive := true, sent := [] }
  links _ := []
  receivers _ := {}
  written := []

variable [DecidableEq μ]

/-- Monitor `m` has run `update`, ended in `u`, and published what is in its trail. -/
def System.afterUpdate (net : Network μ ο) (s : System μ δ) (m : μ) {ω : Type}
    (u : MonitorState ω δ) (alive : Bool) : System μ δ :=
  { s with
    monitors := Function.update s.monitors m
      { pub := u.pub, alive := alive, sent := (s.monitors m).sent ++ published u.events }
    links := Function.update s.links (.monitor m) (s.links (.monitor m)
      ++ (transmitted ((published u.events).map (toMessage net.mp))).map
        fun frames => (m, frames)) }

/--
The receiver of `sender`'s connection has taken a turn on its first message, `m`'s `frames`,
and whatever it wrote has gone through.
-/
def System.afterTurn (net : Network μ ο) (s : System μ δ) (sender : Sender μ) (m : μ)
    (frames : List Frame) (rest : List (μ × List Frame)) (upper : UInt32) : System μ δ :=
  let k := net.target sender
  let turn := (s.receivers k).turn net.mp (net.role k) upper frames
  let links := Function.update s.links sender rest
  { s with
    links := Function.update links (.relay k) (links (.relay k)
      ++ (transmitted turn.forwarded.toList).map fun frames => (m, frames))
    receivers := Function.update s.receivers k turn.receiver
    written := s.written ++ turn.lines.map fun line => (m, line) }

/-- A step of the system in which a message is delivered. -/
inductive Deliver (net : Network μ ο) (s : System μ δ) : System μ δ → Prop where
  | turn (sender : Sender μ) (m : μ) (frames : List Frame) (rest : List (μ × List Frame))
      (upper : UInt32) : s.links sender = (m, frames) :: rest →
      (s.receivers (net.target sender)).stopped = false →
      Deliver net s (s.afterTurn net sender m frames rest upper)

/-- A step in which a monitor updates; an update that throws ends its monitor. -/
inductive Update (net : Network μ ο) (s : System μ δ) : System μ δ → Prop where
  | returned (m : μ) {ω : Type} (slotFirst : Bool) (h : Host ω δ) (w : ω) (u : MonitorState ω δ) :
      (s.monitors m).alive = true →
      LibvirtDomainStatPublisher.update slotFirst h ((s.monitors m).pub.inWorld w) = .ok ⟨⟩ u →
      (∀ p ∈ published u.events, Sendable net.mp p) →
      Update net s (s.afterUpdate net m u true)
  | threw (m : μ) {ω : Type} (slotFirst : Bool) (h : Host ω δ) (w : ω) (e : Fault)
      (u : MonitorState ω δ) :
      (s.monitors m).alive = true →
      LibvirtDomainStatPublisher.update slotFirst h ((s.monitors m).pub.inWorld w) = .error e u →
      (∀ p ∈ published u.events, Sendable net.mp p) →
      Update net s (s.afterUpdate net m u false)

/-- The systems some run leads to. -/
inductive Runs (net : Network μ ο) (gethostname : μ → Option Bytes) (tov : μ → Double) :
    System μ δ → Prop where
  | init : Runs net gethostname tov (System.init gethostname tov)
  | update {s s' : System μ δ} : Runs net gethostname tov s → Update net s s' →
      Runs net gethostname tov s'
  | deliver {s s' : System μ δ} : Runs net gethostname tov s → Deliver net s s' →
      Runs net gethostname tov s'

end CloudMon
