import CloudMon.Monitor.Publisher

/-!
# basic_monitor

The monitor process from its start to its end. It makes one publisher and updates it
until a signal sets the flag its loop tests, so an update that has begun is finished; then
the publisher is destroyed. Nothing catches an exception: one that leaves an update ends
the process, and no destructor runs.
-/

namespace CloudMon

variable {ω δ : Type}

/-- What the process is started with, and what it finds out once. -/
structure Launch where
  /-- The arguments after the program's name. -/
  args : List Bytes
  /-- Whether `virConnectOpen` returned a connection. -/
  connected : Bool
  gethostname : Option Bytes
  /-- What the aggregate's uninitialised double holds. -/
  tov : Double

/-- `~LibvirtDomainStatPublisher` -/
def LibvirtDomainStatPublisher.destroy : MonitorM ω δ PUnit := do
  (← get).pub.trackers.toList.forM fun entry => do
    let p' ← entry.2.delete
    setTrackers (·.insert entry.1 p')

/-- `main`, and its exit status; `ws` are the worlds its updates find until the signal. -/
def basicMonitor (slotFirst : Bool) (h : Host ω δ) (launch : Launch) (ws : List ω) :
    MonitorM ω δ Nat := do
  if launch.args = [] then
    return 1
  else if launch.connected = false then
    throw (.runtimeError "failed to open libvirt connection to 'xen:///'")
  else
    modify fun s => { s with pub := Publisher.init launch.gethostname launch.tov }
    LibvirtDomainStatPublisher.updates slotFirst h ws
    LibvirtDomainStatPublisher.destroy
    return 0

end CloudMon
