import CloudMon.Lib.Channel
import CloudMon.Monitor.Snapshot

/-!
# What a tracker's counters add up to

A tracker keeps thirteen counters, each as a pair of structures: the one libvirt
writes and the one last subtracted from. Seen one counter at a time that is a
`Channel`, and everything about sums of published values is a fact about
channels.

What is particular to this program is what reaches a channel. The size argument
of both statistics calls is the size of a pointer, so libvirt writes one field of
each structure, the first. The other eleven counters are never refreshed: their
channels get no reading at all, whatever the hypervisor says.
-/

namespace CloudMon.Proof

open CloudMon DomainStatTracker

variable {ω δ : Type}

/-! ## Runs of one tracker -/

/-- What one tracker publishes when it is updated once in each world, up to a crash. -/
def samples (h : Host ω δ) (t : DomainStatTracker δ) : List ω → List DomainStats
  | [] => []
  | w :: ws =>
    match t.update h w with
    | .ok (out, t') _ => out :: samples h t' ws
    | .error _ _ => []

/-- What the hypervisor and the clock answer it, up to the null XML string that crashes it. -/
def told (h : Host ω δ) (t : DomainStatTracker δ) (ws : List ω) : List Answers :=
  (ws.map fun w => (t.answers h w).1).takeWhile (·.xml.isSome)

/-- The reports for a sequence of answers, `prev` being the CPU sample before them. -/
def reports (t : DomainStatTracker δ) (prev : DomainInfo) : List Answers → List DomainStats
  | [] => []
  | a :: as => t.report prev a :: reports (t.advance a) (a.info.getD t.tmpInfo) as

/-- **A run publishes the reports of its answers.** -/
theorem samples_eq {h : Host ω δ} {t : DomainStatTracker δ} {prev : DomainInfo}
    (hid : t.domainID ≠ 0) (hprev : t.domainInfo = some prev) (ws : List ω) :
    samples h t ws = reports t prev (told h t ws) := by
  induction ws generalizing t prev with
  | nil => rfl
  | cons w ws ih =>
      cases hxml : (t.answers h w).1.xml with
      | none =>
          -- the null XML string: both sequences end here
          obtain ⟨w', hw'⟩ := update_crash hid hxml
          simp [samples, hw', told, hxml, reports]
      | some xml =>
          have hrest := ih (t := t.advance (t.answers h w).1) hid rfl
          have htold : told h t (w :: ws)
              = (t.answers h w).1 :: told h (t.advance (t.answers h w).1) ws := by
            simp [told, hxml]; rfl
          rw [samples, update_eq hid hprev hxml, htold, reports, ← hrest]

/-! ## One counter at a time -/

inductive Counter where
  | rdReq | rdBytes | wrReq | wrBytes | errs
  | rxBytes | rxPackets | rxErrs | rxDrop | txBytes | txPackets | txErrs | txDrop
deriving DecidableEq

namespace Counter

/-- The counter's place among the eight-byte fields of its structure. -/
def offset : Counter → Nat
  | rdReq => 0 | rdBytes => 1 | wrReq => 2 | wrBytes => 3 | errs => 4
  | rxBytes => 0 | rxPackets => 1 | rxErrs => 2 | rxDrop => 3
  | txBytes => 4 | txPackets => 5 | txErrs => 6 | txDrop => 7

/-- Whether a statistics call that writes `sizeof` a pointer gets as far as this field. -/
def refreshed (c : Counter) : Bool := 8 * (c.offset + 1) ≤ sizeofPointer

/-- The hypervisor's counter, if its call succeeded. -/
def reading : Counter → Answers → Option Int64
  | rdReq, a => a.block.map (·.rdReq)
  | rdBytes, a => a.block.map (·.rdBytes)
  | wrReq, a => a.block.map (·.wrReq)
  | wrBytes, a => a.block.map (·.wrBytes)
  | errs, a => a.block.map (·.errs)
  | rxBytes, a => a.iface.map (·.rxBytes)
  | rxPackets, a => a.iface.map (·.rxPackets)
  | rxErrs, a => a.iface.map (·.rxErrs)
  | rxDrop, a => a.iface.map (·.rxDrop)
  | txBytes, a => a.iface.map (·.txBytes)
  | txPackets, a => a.iface.map (·.txPackets)
  | txErrs, a => a.iface.map (·.txErrs)
  | txDrop, a => a.iface.map (·.txDrop)

def published : Counter → DomainStats → Int64
  | rdReq, d => d.diskReadReq
  | rdBytes, d => d.diskReadSize
  | wrReq, d => d.diskWriteReq
  | wrBytes, d => d.diskWriteSize
  | errs, d => d.diskErrors
  | rxBytes, d => d.rxBytes
  | rxPackets, d => d.rxPackets
  | rxErrs, d => d.rxErrs
  | rxDrop, d => d.rxDrop
  | txBytes, d => d.txBytes
  | txPackets, d => d.txPackets
  | txErrs, d => d.txErrs
  | txDrop, d => d.txDrop

/-- The two copies of a counter, out of the four structures. -/
def pair (cur last : BlockStats) (cur' last' : InterfaceStats) : Counter → Channel Int64
  | rdReq => ⟨cur.rdReq, last.rdReq⟩
  | rdBytes => ⟨cur.rdBytes, last.rdBytes⟩
  | wrReq => ⟨cur.wrReq, last.wrReq⟩
  | wrBytes => ⟨cur.wrBytes, last.wrBytes⟩
  | errs => ⟨cur.errs, last.errs⟩
  | rxBytes => ⟨cur'.rxBytes, last'.rxBytes⟩
  | rxPackets => ⟨cur'.rxPackets, last'.rxPackets⟩
  | rxErrs => ⟨cur'.rxErrs, last'.rxErrs⟩
  | rxDrop => ⟨cur'.rxDrop, last'.rxDrop⟩
  | txBytes => ⟨cur'.txBytes, last'.txBytes⟩
  | txPackets => ⟨cur'.txPackets, last'.txPackets⟩
  | txErrs => ⟨cur'.txErrs, last'.txErrs⟩
  | txDrop => ⟨cur'.txDrop, last'.txDrop⟩

def channel (t : DomainStatTracker δ) : Counter → Channel Int64 :=
  pair t.blockstats t.lastblockstats t.interfaceinfo t.lastinterfaceinfo

/-- A reading, as far as the call wrote it. -/
def heard (c : Counter) (a : Answers) : Option Int64 := if c.refreshed then c.reading a else none

/-- **Each counter is a channel of the readings it hears.** -/
theorem channel_step (c : Counter) (t : DomainStatTracker δ) (prev : DomainInfo) (a : Answers) :
    (c.channel t).step (c.heard a) = (c.published (t.report prev a), c.channel (t.advance a)) := by
  cases hb : a.block <;> cases hi : a.iface <;> cases c <;>
    simp [heard, refreshed, offset, sizeofPointer, reading, hb, hi, channel, pair, published,
      report, advance, nextBlock, nextInterface, BlockStats.fill, InterfaceStats.fill, fillField,
      Channel.step]

theorem published_reports (c : Counter) (t : DomainStatTracker δ) (prev : DomainInfo)
    (as : List Answers) :
    (reports t prev as).map c.published = (c.channel t).outputs (as.map c.heard) := by
  induction as generalizing t prev with
  | nil => rfl
  | cons a as ih =>
      rw [reports, List.map_cons, List.map_cons, Channel.outputs, channel_step c t prev, ih]

end Counter

/-! ## Accounting -/

/-- What a tracker made for domain `domID` publishes, and what it was told. -/
def run (h : Host ω δ) (domID : UInt32) (domain : δ) (uuid : Bytes) (tov : Timespec) (heap : Heap)
    (ws : List ω) : List Answers × List DomainStats :=
  let t := fresh domID domain uuid tov heap
  (told h t ws, samples h t ws)

/--
The values published after the counter's first successful reading, up to and
including any later one, add up to the difference of the two readings.
-/
def Accounted (c : Counter) (r : List Answers × List DomainStats) : Prop :=
  Channel.Accounts Int64.toInt ((r.1.map c.reading).zip (r.2.map c.published))

/-- How two consecutive readings of a counter may be related for its accounting to hold. -/
def Counter.Keeps (c : Counter) (v v' : Int64) : Prop :=
  if c.refreshed then (v' - v).toInt = v'.toInt - v.toInt else v = v'

theorem toInt_sub_self (v : Int64) : (v - v).toInt = 0 := by
  rw [Int64.sub_self]; rfl

/--
**Which counters add up.** A refreshed counter does as long as no single
difference overflows; one the call never writes does only while it stands still.
-/
theorem accounted_iff (h : Host ω δ) (domID : UInt32) (hid : domID ≠ 0) (domain : δ) (uuid : Bytes)
    (tov : Timespec) (heap : Heap) (ws : List ω) (c : Counter) :
    Accounted c (run h domID domain uuid tov heap ws)
      ↔ ((run h domID domain uuid tov heap ws).1.filterMap c.reading).IsChain c.Keeps := by
  have hpub : (run h domID domain uuid tov heap ws).2
      = reports (fresh domID domain uuid tov heap) heap.domainInfo
        (run h domID domain uuid tov heap ws).1 := samples_eq hid rfl ws
  have hread : ∀ as : List Answers, (as.map c.reading).filterMap id = as.filterMap c.reading :=
    fun as => by rw [List.filterMap_map]; rfl
  unfold Accounted
  rw [hpub, Counter.published_reports, ← hread]
  cases hc : c.refreshed with
  | true =>
      -- written by every successful call: the channel hears all readings
      have hheard : c.heard = c.reading := funext fun a => by rw [Counter.heard, hc, if_pos rfl]
      have hkeeps : c.Keeps = Channel.Exact Int64.toInt :=
        funext fun v => funext fun v' => by rw [Counter.Keeps, hc, if_pos rfl]; rfl
      rw [hheard, hkeeps]
      exact Channel.accounts_outputs toInt_sub_self _ _
  | false =>
      -- beyond the pointer's size: it hears none
      have hheard : c.heard = fun _ => none := funext fun a => by
        rw [Counter.heard, hc, if_neg (by decide)]
      have hkeeps : c.Keeps = fun v v' => v.toInt = v'.toInt :=
        funext fun v => funext fun v' => by
          rw [Counter.Keeps, hc, if_neg (by decide), Int64.toInt_inj]
      rw [hheard, hkeeps]
      have := Channel.accounts_stuck toInt_sub_self
        (c.channel (fresh domID domain uuid tov heap))
        ((run h domID domain uuid tov heap ws).1.map c.reading)
      rwa [List.map_map] at this

/-- Counters that count up from zero never overflow a difference. -/
theorem keeps_of_nonneg {c : Counter} (hc : c.refreshed) {v v' : Int64} (hv : 0 ≤ v.toInt)
    (hv' : 0 ≤ v'.toInt) : c.Keeps v v' := by
  have hlt := v.toInt_lt
  have hlt' := v'.toInt_lt
  rw [Counter.Keeps, hc, if_pos rfl, Int64.toInt_sub, Int.bmod_eq_of_le] <;> omega

/-- Reports the block counters the world holds. -/
def countingHost : Host BlockStats Unit where
  numOfDomains w := (1, w)
  listDomains _ w := ((1, [1]), w)
  lookupByID _ w := (some (), w)
  getUUIDString _ w := (bytes "uuid" ++ [0], w)
  getInfo _ w := (some ⟨1, 1024, 512, 1, 0⟩, w)
  getXMLDesc _ w := (some [], w)
  blockStats _ _ w := (some w, w)
  interfaceStats _ _ w := (none, w)
  newStats w := (some Heap.zeroed, w)
  realtimeNow w := (⟨0, 0⟩, w)
  targetDev _ := none

theorem accounted_countingHost :
    Accounted .wrReq
        (run countingHost 1 () [] ⟨0, 0⟩ Heap.zeroed [⟨1, 0, 2, 0, 0⟩, ⟨4, 0, 2, 0, 0⟩])
      ↔ ((run countingHost 1 () [] ⟨0, 0⟩ Heap.zeroed
          [⟨1, 0, 2, 0, 0⟩, ⟨4, 0, 2, 0, 0⟩]).1.filterMap Counter.wrReq.reading).IsChain
            Counter.wrReq.Keeps :=
  accounted_iff countingHost 1 (by decide) () [] ⟨0, 0⟩ Heap.zeroed
    [⟨1, 0, 2, 0, 0⟩, ⟨4, 0, 2, 0, 0⟩] .wrReq

/-- Seven more writes, all calls successful, and nothing published for them. -/
theorem not_accounted_wrReq :
    ¬ Accounted .wrReq (run countingHost 1 () [] ⟨0, 0⟩ Heap.zeroed
      [⟨0, 0, 0, 0, 0⟩, ⟨0, 0, 7, 0, 0⟩]) := by
  intro hacc
  have := hacc [] 0 0 [(some 7, 0)] (by decide +kernel) (by simp) [] 7 0 [] rfl
  exact absurd this (by decide)

end CloudMon.Proof
