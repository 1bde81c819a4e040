import CloudMon.Monitor.Publisher

/-!
# Two well-behaved hypervisors

The simplest worlds. `obliging` lists the ids it is told to and refuses nothing.
`snapshotHost` answers from a snapshot of which domains there are and what they
are called: every call of one update sees the same snapshot, so nothing is left
of libvirt but its naming of domains.
-/

namespace CloudMon

open Std (ExtTreeMap)

/-- The domains at one moment, from id to uuid. -/
abbrev Snapshot := ExtTreeMap DomId Bytes

/-- Structures as a zeroing allocator would hand them out. -/
def Heap.zeroed : Heap where
  domainInfo := ⟨0, 0, 0, 0, 0⟩
  tmpInfo := ⟨0, 0, 0, 0, 0⟩
  interfaceinfo := ⟨0, 0, 0, 0, 0, 0, 0, 0⟩
  lastinterfaceinfo := ⟨0, 0, 0, 0, 0, 0, 0, 0⟩
  blockstats := ⟨0, 0, 0, 0, 0⟩
  lastblockstats := ⟨0, 0, 0, 0, 0⟩

/-- A count as a C `int`, which it cannot exceed. -/
def intCount (n : Nat) : Int32 := Int32.ofNat (min n 2147483647)

theorem intCount_toInt (n : Nat) : (intCount n).toInt = min n 2147483647 := by
  unfold intCount
  rw [Int32.toInt_ofNat_of_lt (by omega)]

theorem intCount_toNatClampNeg (n : Nat) : (intCount n).toNatClampNeg = min n 2147483647 := by
  rw [Int32.toNatClampNeg, intCount_toInt]
  omega

theorem intCount_nonneg (n : Nat) : ¬ intCount n < 0 := by
  rw [Int32.lt_iff_toInt_lt, intCount_toInt]
  show ¬ _ < (0 : Int)
  omega

/-- Grants every call and lists nothing; a handle is a domain id, and names the domain too. -/
def quietHost (ω : Type) : Host ω DomId where
  numOfDomains w := (0, w)
  listDomains _ w := ((0, []), w)
  lookupByID id w := (some id, w)
  getUUIDString d w := (bytes "uuid-" ++ Decimal.intText d.toInt ++ [0], w)
  getInfo _ w := (some ⟨1, 1024, 512, 1, 0⟩, w)
  getXMLDesc _ w := (some [], w)
  blockStats _ _ w := (some ⟨0, 0, 0, 0, 0⟩, w)
  interfaceStats _ _ w := (some ⟨0, 0, 0, 0, 0, 0, 0, 0⟩, w)
  newStats w := (some Heap.zeroed, w)
  realtimeNow w := (⟨0, 0⟩, w)
  targetDev _ := none

/-- Lists the same ids whatever happens. -/
def fixedHost (ω : Type) (ids : List DomId) : Host ω DomId :=
  { quietHost ω with
    numOfDomains := fun w => (intCount ids.length, w)
    listDomains := fun _ w => ((intCount ids.length, ids), w) }

/-- The world is the list to return. -/
def obliging : Host (List DomId) DomId :=
  { quietHost (List DomId) with
    numOfDomains := fun w => (intCount w.length, w)
    listDomains := fun _ w => ((intCount w.length, w), w) }

/-- A snapshot libvirt can show: as many domains as a C `int` counts, with C strings for names. -/
structure Inventory where
  domains : Snapshot
  countable : domains.size ≤ 2147483647
  named : ∀ e ∈ domains.toList, (0 : UInt8) ∉ e.2

/-- A handle is the uuid it was looked up with. -/
def snapshotHost : Host Inventory Bytes where
  numOfDomains w := (intCount w.domains.size, w)
  listDomains _ w := ((intCount w.domains.size, w.domains.keys), w)
  lookupByID id w := (w.domains[id]?, w)
  getUUIDString d w := (d ++ [0], w)
  getInfo _ w := (some ⟨1, 1024, 512, 1, 0⟩, w)
  getXMLDesc _ w := (some [], w)
  blockStats _ _ w := (some ⟨0, 0, 0, 0, 0⟩, w)
  interfaceStats _ _ w := (some ⟨0, 0, 0, 0, 0, 0, 0, 0⟩, w)
  newStats w := (some Heap.zeroed, w)
  realtimeNow w := (⟨0, 0⟩, w)
  targetDev _ := none

end CloudMon
