import CloudMon.Proof.Recorded

/-!
# Finding the files of a node

The node filter looks at one directory, the one above the instance. For a host whose
name has no dots that directory is the host; for one whose name has, it is the last
label of it, and the name as a whole is nowhere to be found. And what it asks of the
directory is only that the name occurs in it somewhere.
-/

namespace CloudMon.Proof

open CloudMon Wp Paths

/-- The node filter finds exactly the files recorded for a host. -/
def FindsNode (u : Updater) (aggs : List AggregateDomainStats) (disk : Disk) (host : Bytes) :
    Prop :=
  ∃ out, getWhisperFilesByNode host (getWhisperFiles u.root disk) = .ok out
    ∧ ∀ p, p ∈ out ↔ ∃ r ∈ recorded aggs, r.host = host ∧ p = r.path u

/-- A host whose name is its directory's, and no part of another's. -/
structure Findable (aggs : List AggregateDomainStats) (host : Bytes) : Prop where
  undotted : (∃ r ∈ recorded aggs, r.host = host) → (46 : UInt8) ∉ host
  apart : ∀ r ∈ recorded aggs, r.host ≠ host → ¬ host <:+: lastLabel r.host

theorem dot_not_mem_lastLabel (host : Bytes) : (46 : UInt8) ∉ lastLabel host := by
  intro hdot
  exact (mem_of_mem_splitOn (List.getLast_mem (List.splitOn_ne_nil 46 host)) hdot).1 rfl

/-- A name occurs in its own last label only if that is all there is. -/
theorem infix_lastLabel_iff {host : Bytes} : host <:+: lastLabel host ↔ (46 : UInt8) ∉ host := by
  refine ⟨fun h hdot => dot_not_mem_lastLabel host (h.subset hdot), fun h => ?_⟩
  have hlast : lastLabel host = host := by
    simp only [lastLabel, List.splitOn_eq_singleton h, List.getLast_singleton]
  exact ⟨[], [], by rw [hlast, List.nil_append, List.append_nil]⟩

section

variable {φ : Type}

/--
**The node filter finds a host's files exactly when the host is findable**, after any
history of any hosts, on any disk that holds what the history left.
-/
theorem findsNode_iff (u : Updater) (st : Storage φ) {aggs : List AggregateDomainStats}
    (hproper : ∀ agg ∈ aggs, Proper agg) (w : φ) {s : Session φ}
    (hrun : u.processCmds st (aggs.flatMap getWhisperUpdates) ⟨w, []⟩ = .ok ⟨⟩ s) {disk : Disk}
    (hdisk : Holds u.root disk (s.updates.map (·.path))) (host : Bytes) :
    FindsNode u aggs disk host ↔ Findable aggs host := by
  have hrs : ∀ r ∈ recorded aggs, r.Proper := fun r hr => proper_of_recorded hproper hr
  have hmem := walk_finds_recorded hproper hrun hdisk
  -- what the filter finds, before it is compared with anything
  have hfound : getWhisperFilesByNode host (getWhisperFiles u.root disk)
      = .ok ((getWhisperFiles u.root disk).filter (passes 3 (some host))) := by
    refine getWhisperFilesBy_eq (by decide) host fun f hf => ?_
    obtain ⟨r, hr, rfl⟩ := (hmem f).mp hf
    exact deep_path u (hrs r hr)
  have hkept : ∀ r ∈ recorded aggs,
      r.path u ∈ (getWhisperFiles u.root disk).filter (passes 3 (some host))
        ↔ host <:+: lastLabel r.host := by
    intro r hr
    rw [List.mem_filter, (passes_path u (hrs r hr) host).1, decide_eq_true_iff]
    exact and_iff_right ((hmem _).mpr ⟨r, hr, rfl⟩)
  have hown : ∀ r ∈ recorded aggs,
      (∃ r' ∈ recorded aggs, r'.host = host ∧ r.path u = r'.path u) ↔ r.host = host := by
    intro r hr
    refine ⟨?_, fun h => ⟨r, hr, h, rfl⟩⟩
    intro h
    obtain ⟨r', hr', hhost, heq⟩ := h
    rw [Coordinates.path_injective (hrs r hr) (hrs r' hr') heq]
    exact hhost
  unfold FindsNode
  rw [hfound]
  refine ⟨?_, ?_⟩
  · intro h
    obtain ⟨out, hout, hexact⟩ := h
    cases hout
    have hiff : ∀ r ∈ recorded aggs, host <:+: lastLabel r.host ↔ r.host = host := fun r hr =>
      (hkept r hr).symm.trans ((hexact _).trans (hown r hr))
    refine ⟨fun hrec => ?_, fun r hr hne hin => hne ((hiff r hr).mp hin)⟩
    obtain ⟨r, hr, rfl⟩ := hrec
    exact infix_lastLabel_iff.mp ((hiff r hr).mpr rfl)
  · intro h
    refine ⟨_, rfl, fun p => ⟨fun hp => ?_, fun hp => ?_⟩⟩
    · obtain ⟨r, hr, rfl⟩ := (hmem p).mp (List.mem_of_mem_filter hp)
      refine ⟨r, hr, ?_, rfl⟩
      by_contra hne
      exact h.apart r hr hne ((hkept r hr).mp hp)
    · obtain ⟨r, hr, rfl, rfl⟩ := hp
      exact (hkept r hr).mpr (infix_lastLabel_iff.mpr (h.undotted ⟨r, hr, rfl⟩))

end

/-! ## A host with dots, and one without -/

theorem proper_shortHost : Proper (aggregateOf (bytes "node")) where
  host := { ne_nil := by decide, noSpace := noSpace_of_all (by decide), noSlash := by decide
            noNul := by decide, label_ne_nil := by decide }
  uuids := fun _ hdom => List.mem_singleton.mp hdom ▸
    { ne_nil := by decide, noSpace := noSpace_of_all (by decide), noDot := by decide
      noSlash := by decide, noNul := by decide }
  keys := by decide +kernel
  lines := by decide +kernel

theorem proper_dottedHost : Proper (aggregateOf (bytes "a.b")) where
  host := { plain_dottedHost.host with
            noNul := nulFree_dottedHost.host, label_ne_nil := by decide }
  uuids := fun dom hdom =>
    { plain_dottedHost.uuids dom hdom with noNul := nulFree_dottedHost.uuids dom hdom }
  keys := plain_dottedHost.keys
  lines := plain_dottedHost.lines

/-- The two hosts, one after the other. -/
def twoHosts : List AggregateDomainStats :=
  [aggregateOf (bytes "node"), aggregateOf (bytes "a.b")]

theorem proper_twoHosts : ∀ agg ∈ twoHosts, Proper agg := by
  intro agg hagg
  rcases List.mem_pair.mp hagg with rfl | rfl
  · exact proper_shortHost
  · exact proper_dottedHost

/-- What the two hosts leave. -/
def twoHostsDisk : Disk :=
  .dir [(bytes "servers", .dir [
    (bytes "node", .dir [(bytes "u-1", instanceDir)]),
    (bytes "a", .dir [(bytes "b", .dir [(bytes "u-1", instanceDir)])])])]

theorem wp_twoHosts :
    wp (dataUpdater.processCmds emptyDisk (twoHosts.flatMap getWhisperUpdates)) ⟨(), []⟩
      (fun _ s => Holds dataUpdater.root twoHostsDisk (s.updates.map (·.path))) noThrow :=
  wp_holds (by decide +kernel)

theorem findsNode_twoHosts :
    ∃ s, dataUpdater.processCmds emptyDisk (twoHosts.flatMap getWhisperUpdates) ⟨(), []⟩ = .ok ⟨⟩ s
      ∧ (FindsNode dataUpdater twoHosts twoHostsDisk (bytes "node")
        ↔ Findable twoHosts (bytes "node")) := by
  obtain ⟨_, s, hrun, hdisk⟩ := wp_noThrow wp_twoHosts
  exact ⟨s, hrun, findsNode_iff dataUpdater emptyDisk proper_twoHosts () hrun hdisk (bytes "node")⟩

/-- The files of the host with the dot are there, and its name finds none of them. -/
theorem not_findsNode_dottedHost :
    wp (dataUpdater.processCmds emptyDisk (twoHosts.flatMap getWhisperUpdates)) ⟨(), []⟩
        (fun _ s => Holds dataUpdater.root twoHostsDisk (s.updates.map (·.path))) noThrow
      ∧ ¬ FindsNode dataUpdater twoHosts twoHostsDisk (bytes "a.b") := by
  refine ⟨wp_twoHosts, ?_⟩
  intro h
  obtain ⟨out, hout, hexact⟩ := h
  have hnone : ([] : List Bytes) = out := Except.ok.inj (Eq.trans (by decide +kernel) hout)
  have hrec : (⟨bytes "a.b", bytes "u-1", .cpu⟩ : Coordinates) ∈ recorded twoHosts := by
    decide +kernel
  rw [← hnone] at hexact
  exact absurd ((hexact _).mpr ⟨_, hrec, rfl, rfl⟩) List.not_mem_nil

end CloudMon.Proof
