import CloudMon.Monitor.Snapshot

/-!
# Hypervisors whose domains come and go between two calls

A `Race` is the set of running domains together with a script: what starts and
what stops before each of the libvirt calls still to come. Every such call takes
one step of the script before it answers, so a script is one interleaving of the
domains' lives with the monitor's calls.
-/

namespace CloudMon

open Std (ExtTreeSet)

inductive Lifecycle where
  | start (id : DomId)
  | stop (id : DomId)
deriving DecidableEq

def Lifecycle.apply (running : ExtTreeSet DomId) : Lifecycle → ExtTreeSet DomId
  | .start id => running.insert id
  | .stop id => running.erase id

structure Race where
  running : ExtTreeSet DomId
  script : List (List Lifecycle)

namespace Race

/-- What happens before the next call. -/
def tick (w : Race) : Race where
  running := (w.script.headD []).foldl Lifecycle.apply w.running
  script := w.script.tail

/-- Which domain runs under an id: here a domain is its id. -/
def domain (w : Race) (id : DomId) : Option DomId := if id ∈ w.running then some id else none

/-- Domain `d` runs now and nothing in the script stops it. -/
def RunsThroughout (w : Race) (d : DomId) : Prop :=
  d ∈ w.running ∧ ∀ batch ∈ w.script, .stop d ∉ batch

theorem mem_foldl_apply {d : DomId} :
    ∀ {batch : List Lifecycle} {running : ExtTreeSet DomId}, d ∈ running → .stop d ∉ batch →
      d ∈ batch.foldl Lifecycle.apply running
  | [], _, hd, _ => hd
  | e :: batch, running, hd, hno => by
      show d ∈ batch.foldl Lifecycle.apply (e.apply running)
      refine mem_foldl_apply ?_ fun h => hno (List.mem_cons_of_mem _ h)
      cases e with
      | start id => exact ExtTreeSet.mem_insert.mpr (Or.inr hd)
      | stop id =>
          refine ExtTreeSet.mem_erase.mpr ⟨fun hc => ?_, hd⟩
          rw [Std.compare_eq_iff_eq] at hc
          subst hc
          exact hno (List.mem_cons_self ..)

theorem RunsThroughout.tick {w : Race} {d : DomId} (h : w.RunsThroughout d) :
    w.tick.RunsThroughout d := by
  obtain ⟨hd, hno⟩ := h
  cases hs : w.script with
  | nil => exact ⟨by simpa [Race.tick, hs] using hd, by simp [Race.tick, hs]⟩
  | cons batch rest =>
      rw [hs] at hno
      refine ⟨?_, fun b hb => hno b ?_⟩
      · simpa [Race.tick, hs] using mem_foldl_apply hd (hno batch (List.mem_cons_self ..))
      · exact List.mem_cons_of_mem _ (by simpa [Race.tick, hs] using hb)

end Race

/-- Which ids a listing returns, given its capacity and the running domains. -/
abbrev Pick := Nat → ExtTreeSet DomId → List DomId

/-- `virConnectListDomains`: some of the running ids, all of them where they fit. -/
structure Pick.Lawful (pick : Pick) : Prop where
  bounded : ∀ cap running, (pick cap running).length ≤ cap
  sound : ∀ cap running, ∀ id ∈ pick cap running, id ∈ running
  complete : ∀ cap running, running.size ≤ cap → ∀ id ∈ running, id ∈ pick cap running

/-- Lists from the highest id down. -/
def Pick.highestFirst : Pick := fun cap running => running.toList.reverse.take cap

theorem Pick.highestFirst_lawful : Pick.highestFirst.Lawful where
  bounded _ _ := List.length_take_le _ _
  sound _ _ id hid := by
    have := List.mem_of_mem_take hid
    rwa [List.mem_reverse, ExtTreeSet.mem_toList] at this
  complete cap running hsize id hid := by
    show id ∈ List.take _ _
    rw [List.take_of_length_le (by rw [List.length_reverse, ExtTreeSet.length_toList]; exact hsize),
      List.mem_reverse, ExtTreeSet.mem_toList]
    exact hid

/-- The two calls of a poll, racing with the script; the other calls as `rest` has them. -/
def raceHost {δ : Type} (pick : Pick) (rest : Host Race δ) : Host Race δ :=
  { rest with
    numOfDomains := fun w => (intCount w.tick.running.size, w.tick)
    listDomains := fun cap w =>
      let ids := pick cap.toNatClampNeg w.tick.running
      ((intCount ids.length, ids), w.tick) }

/-- Answers for a domain while it runs, and fails every call about it once it has stopped. -/
def mortalHost (pick : Pick) : Host Race DomId :=
  raceHost pick { quietHost Race with
    lookupByID := fun id w => (w.tick.domain id, w.tick)
    getInfo := fun d w => ((w.tick.domain d).map fun _ => ⟨1, 1024, 512, 1, 0⟩, w.tick)
    getXMLDesc := fun d w => ((w.tick.domain d).map fun _ => [], w.tick)
    blockStats := fun d _ w => ((w.tick.domain d).map fun _ => ⟨0, 0, 0, 0, 0⟩, w.tick)
    interfaceStats := fun d _ w =>
      ((w.tick.domain d).map fun _ => ⟨0, 0, 0, 0, 0, 0, 0, 0⟩, w.tick) }

end CloudMon
