import CloudMon.Monitor.Tracker

/-!
# ActiveDomainWatcher and LibvirtDomainStatPublisher

The watcher remembers which domain ids it saw last (`active`); the publisher
keeps one tracker per domain (`trackers`). Nothing but the watcher's two
handlers keeps them in step: `poll` calls them from inside two set-difference
loops and only afterwards assigns `active`.

A run leaves a trail of `Event`s: the lines the program prints when a domain
comes or goes, the two warnings it prints when the collections disagree, and
what it publishes. The properties of whole runs are properties of that trail.
-/

namespace CloudMon

open Std (ExtTreeMap ExtTreeSet)

variable {ω δ : Type}

/-- Statistics of all domains of one host at one time. -/
structure AggregateDomainStats where
  tov : Double
  hostname : Bytes
  domainStats : List DomainStats
deriving DecidableEq

/-- What goes out on the publisher's socket, before it is packed. -/
inductive Publication where
  | aggregate (key : Bytes) (agg : AggregateDomainStats)
  | termInstance (ident : Bytes)
deriving DecidableEq

inductive Event where
  /-- "domain ID .. seems to have disappeared": the remove handler is called next. -/
  | disappeared (id : DomId)
  /-- "new domain with ID .. has appeared": the add handler is called next. -/
  | appeared (id : DomId)
  /-- "monitoring domain ID .. (..)": a tracker was constructed. -/
  | monitoring (id : DomId) (uuid : Bytes)
  /-- "adding domain tracker with id .., but I already had an old one?" -/
  | alreadyTracked (id : DomId)
  /-- "hypervisor removed domain with id .., but I wasn't tracking it?" -/
  | notTracked (id : DomId)
  | sent (p : Publication)
deriving DecidableEq

/-- A `DomainStatTracker *`. -/
inductive TrackerPtr (δ : Type) where
  | null
  | live (t : DomainStatTracker δ)
  | dangling
deriving DecidableEq

structure Publisher (δ : Type) where
  active : ExtTreeSet DomId
  trackers : ExtTreeMap DomId (TrackerPtr δ)
  aggStats : AggregateDomainStats

/-- The hostname the constructor settles on. -/
def mHostname (gethostname : Option Bytes) : Bytes :=
  match gethostname with
  | none => bytes "unknown-host"
  | some buf => cString buf

/-- A new publisher; `tov` is whatever the aggregate's uninitialised double holds. -/
def Publisher.init (gethostname : Option Bytes) (tov : Double) : Publisher δ where
  active := ∅
  trackers := ∅
  aggStats := { tov := tov, hostname := mHostname gethostname, domainStats := [] }

/-- A publisher, the world it runs in, and what it has done so far. -/
structure MonitorState (ω δ : Type) where
  pub : Publisher δ
  world : ω
  events : List Event

/-- A publisher about to be used in world `w`, its trail still to come. -/
abbrev Publisher.inWorld (pub : Publisher δ) (w : ω) : MonitorState ω δ :=
  { pub := pub, world := w, events := [] }

abbrev MonitorM (ω δ : Type) := EStateM Fault (MonitorState ω δ)

/-- A piece of the program that only touches the world. -/
def onHost {α : Type} (x : EStateM Fault ω α) : MonitorM ω δ α := fun s =>
  match x s.world with
  | .ok a w => .ok a { s with world := w }
  | .error e w => .error e { s with world := w }

def log (e : Event) : MonitorM ω δ PUnit :=
  modify fun s => { s with events := s.events ++ [e] }

def setTrackers (f : ExtTreeMap DomId (TrackerPtr δ) → ExtTreeMap DomId (TrackerPtr δ)) :
    MonitorM ω δ PUnit :=
  modify fun s => { s with pub := { s.pub with trackers := f s.pub.trackers } }

def setAggStats (f : AggregateDomainStats → AggregateDomainStats) : MonitorM ω δ PUnit :=
  modify fun s => { s with pub := { s.pub with aggStats := f s.pub.aggStats } }

/-- Following a tracker pointer. -/
def TrackerPtr.deref : TrackerPtr δ → MonitorM ω δ (DomainStatTracker δ)
  | .null => throw .nullDeref
  | .live t => pure t
  | .dangling => throw .useAfterFree

/-- `delete p`, and what is left of the pointer. Deleting null does nothing. -/
def TrackerPtr.delete : TrackerPtr δ → MonitorM ω δ (TrackerPtr δ)
  | .null => pure .null
  | .live _ => pure .dangling
  | .dangling => throw .useAfterFree

/-- `new int[n]` -/
def newIntArray (n : Int32) : MonitorM ω δ PUnit := if n < 0 then throw .badAlloc else pure ⟨⟩

/-- The text of a termination message. -/
def termInstanceIdent (hostname uuid : Bytes) : Bytes :=
  bytes "servers." ++ hostname ++ bytes "." ++ uuid

namespace LibvirtDomainStatPublisher

/--
`addStatTracker`. In `m_trackers[domID] = new DomainStatTracker(..)` the language
did not fix, before C++17, whether the map slot is made before or after the
object; `slotFirst` says which. It shows only when the constructor throws.
-/
def addStatTracker (slotFirst : Bool) (h : Host ω δ) (domID : DomId) : MonitorM ω δ PUnit := do
  match (← get).pub.trackers[domID]? with
  | none => pure ⟨⟩
  | some p =>
    log (.alreadyTracked domID)
    let p' ← p.delete
    setTrackers (·.insert domID p')
  if slotFirst then
    setTrackers fun m => if domID ∈ m then m else m.insert domID .null
  let t ← onHost (DomainStatTracker.new h domID.toUInt32)
  log (.monitoring domID t.domainUUID)
  setTrackers (·.insert domID (.live t))

def removeStatTracker (domID : DomId) : MonitorM ω δ PUnit := do
  match (← get).pub.trackers[domID]? with
  | none => log (.notTracked domID)
  | some p =>
    let t ← p.deref
    -- send a message indicating that this domain has terminated
    log (.sent (.termInstance (termInstanceIdent (← get).pub.aggStats.hostname t.domainUUID)))
    let _ ← p.delete
    setTrackers (·.erase domID)

/-- `ActiveDomainWatcher::poll` -/
def poll (slotFirst : Bool) (h : Host ω δ) : MonitorM ω δ PUnit := do
  let numDomains ← onHost (ask h.numOfDomains)
  newIntArray numDomains
  let (numDomains, hvActiveDomains) ← onHost (ask (h.listDomains numDomains))
  -- a negative count ends the loop before it starts
  let domainsThisUpdate := ExtTreeSet.ofList (hvActiveDomains.take numDomains.toNatClampNeg)
  let active := (← get).pub.active
  active.toList.forM fun id => do
    if id ∉ domainsThisUpdate then
      log (.disappeared id)
      removeStatTracker id
  domainsThisUpdate.toList.forM fun id => do
    if id ∉ active then
      log (.appeared id)
      addStatTracker slotFirst h id
  modify fun s => { s with pub := { s.pub with active := domainsThisUpdate } }

/-- One tracker's turn in `update`. -/
def updateTracker (h : Host ω δ) (entry : DomId × TrackerPtr δ) : MonitorM ω δ PUnit := do
  let t ← entry.2.deref
  let (out, t') ← onHost (t.update h)
  setTrackers (·.insert entry.1 (.live t'))
  setAggStats fun agg => { agg with domainStats := agg.domainStats ++ [out] }

def update (slotFirst : Bool) (h : Host ω δ) : MonitorM ω δ PUnit := do
  poll slotFirst h
  setAggStats fun agg => { agg with domainStats := [] }
  (← get).pub.trackers.toList.forM (updateTracker h)
  let now ← onHost (ask h.realtimeNow)
  setAggStats fun agg => { agg with tov := toDouble now }
  let agg := (← get).pub.aggStats
  log (.sent (.aggregate (snprintf 512 (bytes "monitor.servers." ++ cString agg.hostname)) agg))

/-- A sequence of `update` calls, each finding the world as it has become by then. -/
def updates (slotFirst : Bool) (h : Host ω δ) (ws : List ω) : MonitorM ω δ PUnit :=
  ws.forM fun w => do
    modify fun s => { s with world := w }
    update slotFirst h

end LibvirtDomainStatPublisher

end CloudMon
