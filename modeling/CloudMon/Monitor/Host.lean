import CloudMon.Basic
import CloudMon.Lib.Wp

/-!
# What the monitor asks of its host

Everything the monitor daemon reads comes from libvirt, from the clock or from
the allocator. `Host` is that interface: a table of calls over a world `ω` that
nothing else here looks into. Every call returns an answer and the world after
it, so a world can hold a script of answers, a set of running domains, a
schedule of domains stopping between two calls; a theorem that quantifies over
`Host` and `ω` quantifies over all of them.

Answers keep libvirt's own failure values: `-1` for a count, a null pointer for
a handle or a string (`none`), a `-1` status with nothing written for the
statistics calls (`none` as well).
-/

namespace CloudMon

/-- A hypervisor-assigned domain id, a C `int`. -/
abbrev DomId := Int32

structure Timespec where
  tvSec : Int
  tvNsec : Int
deriving DecidableEq

/-- `virDomainInfo`. -/
structure DomainInfo where
  state : UInt8
  maxMem : UInt64
  memory : UInt64
  nrVirtCpu : UInt16
  cpuTime : UInt64
deriving DecidableEq

/-- `virDomainBlockStatsStruct`, five `long long`s in this order. -/
structure BlockStats where
  rdReq : Int64
  rdBytes : Int64
  wrReq : Int64
  wrBytes : Int64
  errs : Int64
deriving DecidableEq

/-- `virDomainInterfaceStatsStruct`, eight `long long`s in this order. -/
structure InterfaceStats where
  rxBytes : Int64
  rxPackets : Int64
  rxErrs : Int64
  rxDrop : Int64
  txBytes : Int64
  txPackets : Int64
  txErrs : Int64
  txDrop : Int64
deriving DecidableEq

/-- What the allocator hands the tracker's constructor: six structures nobody has written yet. -/
structure Heap where
  domainInfo : DomainInfo
  tmpInfo : DomainInfo
  interfaceinfo : InterfaceStats
  lastinterfaceinfo : InterfaceStats
  blockstats : BlockStats
  lastblockstats : BlockStats
deriving DecidableEq

/-- The calls that leave the process. `δ` is `virDomainPtr`. -/
structure Host (ω δ : Type) where
  /-- `virConnectNumOfDomains` -/
  numOfDomains : ω → Int32 × ω
  /-- `virConnectListDomains`: the return value and what it left in the caller's array. -/
  listDomains : Int32 → ω → (Int32 × List DomId) × ω
  /-- `virDomainLookupByID` -/
  lookupByID : DomId → ω → Option δ × ω
  /-- `virDomainGetUUIDString`: the whole buffer. -/
  getUUIDString : δ → ω → Bytes × ω
  /-- `virDomainGetInfo` -/
  getInfo : δ → ω → Option DomainInfo × ω
  /-- `virDomainGetXMLDesc` -/
  getXMLDesc : δ → ω → Option Bytes × ω
  /-- `virDomainBlockStats`: the counters as the hypervisor has them. -/
  blockStats : δ → Option Bytes → ω → Option BlockStats × ω
  /-- `virDomainInterfaceStats`: the counters as the hypervisor has them. -/
  interfaceStats : δ → Bytes → ω → Option InterfaceStats × ω
  /-- The six `new`s of the tracker's constructor; `none` where one of them throws. -/
  newStats : ω → Option Heap × ω
  /-- `clock_gettime(CLOCK_REALTIME)` -/
  realtimeNow : ω → Timespec × ω
  /-- mxml: the `dev` attribute of the first `target` element of a domain's XML. -/
  targetDev : Bytes → Option Bytes

/-- A call out of the process, as a program that cannot throw. -/
def ask {ω α : Type} (f : ω → α × ω) : EStateM Fault ω α := fun w => .ok (f w).1 (f w).2

@[simp] theorem wp_ask {ω α : Type} {f : ω → α × ω} {w : ω} {Q : α → ω → Prop}
    {E : Fault → ω → Prop} : Wp.wp (ask f) w Q E ↔ Q (f w).1 (f w).2 := Iff.rfl

/-! ## How much of a structure a statistics call writes -/

/-- `sizeof` of any pointer. -/
def sizeofPointer : Nat := 8

/-- A field at index `i` of a structure of eight-byte fields, after `size` bytes were written. -/
def fillField (size i : Nat) (new old : Int64) : Int64 := if 8 * (i + 1) ≤ size then new else old

/-- The caller's structure after libvirt copied the leading `size` bytes of its own over it. -/
def BlockStats.fill (size : Nat) (new old : BlockStats) : BlockStats where
  rdReq := fillField size 0 new.rdReq old.rdReq
  rdBytes := fillField size 1 new.rdBytes old.rdBytes
  wrReq := fillField size 2 new.wrReq old.wrReq
  wrBytes := fillField size 3 new.wrBytes old.wrBytes
  errs := fillField size 4 new.errs old.errs

/-- The same for the interface counters. -/
def InterfaceStats.fill (size : Nat) (new old : InterfaceStats) : InterfaceStats where
  rxBytes := fillField size 0 new.rxBytes old.rxBytes
  rxPackets := fillField size 1 new.rxPackets old.rxPackets
  rxErrs := fillField size 2 new.rxErrs old.rxErrs
  rxDrop := fillField size 3 new.rxDrop old.rxDrop
  txBytes := fillField size 4 new.txBytes old.txBytes
  txPackets := fillField size 5 new.txPackets old.txPackets
  txErrs := fillField size 6 new.txErrs old.txErrs
  txDrop := fillField size 7 new.txDrop old.txDrop

/-! ## timespec_utils -/

/-- `timespec_utils::to_double` -/
def toDouble (ts : Timespec) : Double := .fin (ts.tvSec + ts.tvNsec / 10 ^ 9)

/-- `timespec_utils::ts_diff`, borrowing a second when the nanoseconds go negative. -/
def tsDiff (stop start : Timespec) : Timespec :=
  if stop.tvNsec - start.tvNsec < 0 then
    { tvSec := stop.tvSec - start.tvSec - 1, tvNsec := 10 ^ 9 + stop.tvNsec - start.tvNsec }
  else
    { tvSec := stop.tvSec - start.tvSec, tvNsec := stop.tvNsec - start.tvNsec }

end CloudMon
