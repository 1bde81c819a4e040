import CloudMon.Lib.Decimal
import CloudMon.Monitor.Host

/-!
# DomainStatTracker

One tracker per watched domain. Its `update` asks the hypervisor for the domain's
CPU, block and interface counters and publishes what changed since the call
before, so the tracker carries two copies of every counter structure: the one
the next call writes into, and the one it last subtracted from.
-/

namespace CloudMon

variable {ω δ : Type}

/-- Statistics of one domain at one time, as they are published. -/
structure DomainStats where
  domainId : DomId := -1
  domainUuid : Bytes := []
  cpuUtilizationPct : Double := .fin 0
  memUtilizationPct : Double := .fin 0
  diskReadReq : Int64 := 0
  diskWriteReq : Int64 := 0
  diskReadSize : Int64 := 0
  diskWriteSize : Int64 := 0
  diskErrors : Int64 := 0
  rxBytes : Int64 := 0
  rxPackets : Int64 := 0
  rxErrs : Int64 := 0
  rxDrop : Int64 := 0
  txBytes : Int64 := 0
  txPackets : Int64 := 0
  txErrs : Int64 := 0
  txDrop : Int64 := 0
deriving DecidableEq

/-- `domainInfo` is the one pointer the code tests; the other structures always exist. -/
structure DomainStatTracker (δ : Type) where
  domainID : UInt32
  domainUUID : Bytes
  domain : δ
  domainInfo : Option DomainInfo
  tmpInfo : DomainInfo
  lastTov : Timespec
  interfaceinfo : InterfaceStats
  lastinterfaceinfo : InterfaceStats
  blockstats : BlockStats
  lastblockstats : BlockStats
deriving DecidableEq

namespace DomainStatTracker

/-- The constructor, once the domain has been found and the allocations made. -/
def fresh (domID : UInt32) (domain : δ) (uuid : Bytes) (tov : Timespec) (heap : Heap) :
    DomainStatTracker δ where
  domainID := domID
  domainUUID := cString uuid
  domain := domain
  domainInfo := some heap.domainInfo
  tmpInfo := heap.tmpInfo
  lastTov := tov
  interfaceinfo := heap.interfaceinfo
  lastinterfaceinfo := heap.lastinterfaceinfo
  blockstats := heap.blockstats
  lastblockstats := heap.lastblockstats

/-- The constructor. `main` has already refused a null connection. -/
def new (h : Host ω δ) (domID : UInt32) : EStateM Fault ω (DomainStatTracker δ) := do
  let tov ← ask h.realtimeNow
  match ← ask (h.lookupByID domID.toInt32) with
  | none => throw (.runtimeError "can't find domain with given ID")
  | some domain =>
    let uuid ← ask (h.getUUIDString domain)
    match ← ask h.newStats with
    | none => throw .badAlloc
    | some heap => return fresh domID domain uuid tov heap

/-- CPU utilization: the difference of two readings, over the elapsed time, over a billion. -/
def cpuUtil (cputimeDiff : UInt64) (elapsed : Double) : Double :=
  ((Double.fin cputimeDiff.toNat).div elapsed).div (.fin (10 ^ 9))

/-- Memory utilization: `memory` over `maxMem`. -/
def memUtil (info : DomainInfo) : Double :=
  (Double.fin info.memory.toNat).div (.fin info.maxMem.toNat)

/-- `snprintf(interfacepath, 64, "vif%d.0", m_domainID)` -/
def interfacepath (domID : UInt32) : Bytes :=
  snprintf 64 (bytes "vif" ++ Decimal.intText domID.toInt32.toInt ++ bytes ".0")

def update (h : Host ω δ) (t : DomainStatTracker δ) :
    EStateM Fault ω (DomainStats × DomainStatTracker δ) := do
  let out : DomainStats := { domainId := t.domainID.toInt32, domainUuid := t.domainUUID }
  if t.domainID = 0 then
    return (out, t)
  -- a failed call leaves the structure as it was
  let tmpInfo := (← ask (h.getInfo t.domain)).getD t.tmpInfo
  let prevTov := t.lastTov
  let now ← ask h.realtimeNow
  match ← ask (h.getXMLDesc t.domain) with
  | none => throw .nullDeref  -- mxmlLoadString reads through the null pointer
  | some domainxml =>
    let diskpath := h.targetDev domainxml
    let block ← ask (h.blockStats t.domain diskpath)
    let blockstats := (block.map (·.fill sizeofPointer t.blockstats)).getD t.blockstats
    match t.domainInfo with
    | none => throw .nullDeref  -- `*m_domainInfo = *m_tmpInfo` in the first-update branch
    | some domainInfo =>
      let elapsed := toDouble (tsDiff now prevTov)
      let iface ← ask (h.interfaceStats t.domain (interfacepath t.domainID))
      let interfaceinfo :=
        (iface.map (·.fill sizeofPointer t.interfaceinfo)).getD t.interfaceinfo
      return ({ out with
          cpuUtilizationPct := cpuUtil (tmpInfo.cpuTime - domainInfo.cpuTime) elapsed
          memUtilizationPct := memUtil tmpInfo
          diskReadReq := blockstats.rdReq - t.lastblockstats.rdReq
          diskWriteReq := blockstats.wrReq - t.lastblockstats.wrReq
          diskReadSize := blockstats.rdBytes - t.lastblockstats.rdBytes
          diskWriteSize := blockstats.wrBytes - t.lastblockstats.wrBytes
          diskErrors := blockstats.errs - t.lastblockstats.errs
          rxBytes := interfaceinfo.rxBytes - t.lastinterfaceinfo.rxBytes
          rxPackets := interfaceinfo.rxPackets - t.lastinterfaceinfo.rxPackets
          rxErrs := interfaceinfo.rxErrs - t.lastinterfaceinfo.rxErrs
          rxDrop := interfaceinfo.rxDrop - t.lastinterfaceinfo.rxDrop
          txBytes := interfaceinfo.txBytes - t.lastinterfaceinfo.txBytes
          txPackets := interfaceinfo.txPackets - t.lastinterfaceinfo.txPackets
          txErrs := interfaceinfo.txErrs - t.lastinterfaceinfo.txErrs
          txDrop := interfaceinfo.txDrop - t.lastinterfaceinfo.txDrop },
        { t with
          domainInfo := some tmpInfo
          tmpInfo := tmpInfo
          lastTov := now
          interfaceinfo := interfaceinfo
          lastinterfaceinfo := interfaceinfo
          blockstats := blockstats
          lastblockstats := blockstats })

/-! ## One update, as a function of what it was told -/

/-- The answers one update gets, in the order it asks. -/
structure Answers where
  info : Option DomainInfo
  now : Timespec
  xml : Option Bytes
  block : Option BlockStats
  iface : Option InterfaceStats
deriving DecidableEq

/-- The answers a tracker would get if it were updated in world `w`. -/
def answers (h : Host ω δ) (t : DomainStatTracker δ) (w : ω) : Answers × ω :=
  let (info, w) := h.getInfo t.domain w
  let (now, w) := h.realtimeNow w
  let (xml, w) := h.getXMLDesc t.domain w
  let (block, w) := h.blockStats t.domain (xml.bind h.targetDev) w
  let (iface, w) := h.interfaceStats t.domain (interfacepath t.domainID) w
  (⟨info, now, xml, block, iface⟩, w)

/-- The current block counters once an answer is in. -/
def nextBlock (t : DomainStatTracker δ) (a : Answers) : BlockStats :=
  (a.block.map (·.fill sizeofPointer t.blockstats)).getD t.blockstats

/-- The current interface counters once an answer is in. -/
def nextInterface (t : DomainStatTracker δ) (a : Answers) : InterfaceStats :=
  (a.iface.map (·.fill sizeofPointer t.interfaceinfo)).getD t.interfaceinfo

/-- What an update publishes when `prev` is the CPU sample it subtracts from. -/
def report (t : DomainStatTracker δ) (prev : DomainInfo) (a : Answers) : DomainStats where
  domainId := t.domainID.toInt32
  domainUuid := t.domainUUID
  cpuUtilizationPct :=
    cpuUtil ((a.info.getD t.tmpInfo).cpuTime - prev.cpuTime) (toDouble (tsDiff a.now t.lastTov))
  memUtilizationPct := memUtil (a.info.getD t.tmpInfo)
  diskReadReq := (t.nextBlock a).rdReq - t.lastblockstats.rdReq
  diskWriteReq := (t.nextBlock a).wrReq - t.lastblockstats.wrReq
  diskReadSize := (t.nextBlock a).rdBytes - t.lastblockstats.rdBytes
  diskWriteSize := (t.nextBlock a).wrBytes - t.lastblockstats.wrBytes
  diskErrors := (t.nextBlock a).errs - t.lastblockstats.errs
  rxBytes := (t.nextInterface a).rxBytes - t.lastinterfaceinfo.rxBytes
  rxPackets := (t.nextInterface a).rxPackets - t.lastinterfaceinfo.rxPackets
  rxErrs := (t.nextInterface a).rxErrs - t.lastinterfaceinfo.rxErrs
  rxDrop := (t.nextInterface a).rxDrop - t.lastinterfaceinfo.rxDrop
  txBytes := (t.nextInterface a).txBytes - t.lastinterfaceinfo.txBytes
  txPackets := (t.nextInterface a).txPackets - t.lastinterfaceinfo.txPackets
  txErrs := (t.nextInterface a).txErrs - t.lastinterfaceinfo.txErrs
  txDrop := (t.nextInterface a).txDrop - t.lastinterfaceinfo.txDrop

/-- The tracker an update leaves behind. -/
def advance (t : DomainStatTracker δ) (a : Answers) : DomainStatTracker δ :=
  { t with
    domainInfo := some (a.info.getD t.tmpInfo)
    tmpInfo := a.info.getD t.tmpInfo
    lastTov := a.now
    interfaceinfo := t.nextInterface a
    lastinterfaceinfo := t.nextInterface a
    blockstats := t.nextBlock a
    lastblockstats := t.nextBlock a }

/-- **What an update does.** Past the null XML pointer it reports and advances. -/
theorem update_eq {h : Host ω δ} {t : DomainStatTracker δ} {w : ω} {prev : DomainInfo}
    (hid : t.domainID ≠ 0) (hprev : t.domainInfo = some prev)
    {xml : Bytes} (hxml : (t.answers h w).1.xml = some xml) :
    t.update h w = .ok (t.report prev (t.answers h w).1, t.advance (t.answers h w).1)
      (t.answers h w).2 := by
  have hx : (h.getXMLDesc t.domain (h.realtimeNow (h.getInfo t.domain w).2).2).1 = some xml := hxml
  simp only [update, hid, if_false, hprev, ask, bind, EStateM.bind, hx]
  simp only [report, advance, nextBlock, nextInterface, answers, hx, Option.bind_some, pure,
    EStateM.pure]

/-- A null XML string is read through. -/
theorem update_crash {h : Host ω δ} {t : DomainStatTracker δ} {w : ω}
    (hid : t.domainID ≠ 0) (hxml : (t.answers h w).1.xml = none) :
    ∃ w', t.update h w = .error .nullDeref w' := by
  have hx : (h.getXMLDesc t.domain (h.realtimeNow (h.getInfo t.domain w).2).2).1 = none := hxml
  simp only [update, hid, if_false, ask, bind, EStateM.bind, hx]
  exact ⟨_, rfl⟩

/-- Domain 0 is reported without asking anything. -/
theorem update_zero {h : Host ω δ} {t : DomainStatTracker δ} {w : ω} (hid : t.domainID = 0) :
    t.update h w = .ok ({ domainId := 0, domainUuid := t.domainUUID }, t) w := by
  simp [update, hid, pure, EStateM.pure]

end DomainStatTracker

end CloudMon
