import CloudMon.Proof.Lockstep
import Mathlib.Data.List.Chain
import Mathlib.Data.List.Induction

/-!
# Ids and uuids

The watcher compares hypervisor-assigned ids; what it publishes speaks of uuids.
The two meet in one place: a tracker reads its domain's uuid when it is made and
keeps it for as long as its id stays listed.

Seen from outside, then, the publisher is a registry from id to uuid in which an
id keeps the name it came with. That registry is a fold over the snapshots alone,
and the publisher is shown to follow it. It equals the current snapshot as long
as no id changes hands between two polls, and only then do publications by id and
publications by uuid say the same.
-/

namespace CloudMon.Proof

open CloudMon LibvirtDomainStatPublisher Wp
open Std (ExtTreeMap ExtTreeSet)

variable {ω δ : Type}

/-! ## The registry -/

/-- Present ids keep the uuid they are registered under; new ones take their own. -/
def register (registry snapshot : Snapshot) : Snapshot :=
  snapshot.map fun id uuid => registry[id]?.getD uuid

/-- The registry after a sequence of snapshots. -/
def registryOf (snapshots : List Snapshot) : Snapshot := snapshots.foldl register ∅

theorem register_getElem? {registry snapshot : Snapshot} {id : DomId} :
    (register registry snapshot)[id]? = (snapshot[id]?).map fun uuid => registry[id]?.getD uuid :=
  ExtTreeMap.getElem?_map

theorem registryOf_snoc (snapshots : List Snapshot) (snapshot : Snapshot) :
    registryOf (snapshots ++ [snapshot]) = register (registryOf snapshots) snapshot := by
  unfold registryOf
  rw [List.foldl_append]; rfl

/-- Between two polls, no id changes its uuid and no uuid its id. -/
structure SamePairs (prev snapshot : Snapshot) : Prop where
  ids : ∀ (id : DomId) (u v : Bytes), prev[id]? = some u → snapshot[id]? = some v → u = v
  uuids : ∀ (i j : DomId) (u : Bytes), prev[i]? = some u → snapshot[j]? = some u → i = j

theorem register_of_samePairs {prev snapshot : Snapshot} (hsame : SamePairs prev snapshot) :
    register prev snapshot = snapshot := by
  refine ExtTreeMap.ext_getElem? fun id => ?_
  rw [register_getElem?]
  cases hs : snapshot[id]? with
  | none => rfl
  | some v =>
      cases hp : prev[id]? with
      | none => rfl
      | some u => exact congrArg some (hsame.ids id u v hp hs)

theorem samePairs_last {snapshots : List Snapshot} {snapshot : Snapshot}
    (h : (snapshots ++ [snapshot]).IsChain SamePairs) :
    SamePairs (snapshots.getLastD ∅) snapshot := by
  rw [List.getLastD_eq_getLast?]
  cases hlast : snapshots.getLast? with
  | none => exact ⟨fun _ _ _ hp => by simp at hp, fun _ _ _ hp => by simp at hp⟩
  | some prev => exact (List.isChain_append.mp h).2.2 prev hlast snapshot rfl

/-- **Without re-pairing the registry is the last snapshot.** -/
theorem registryOf_eq (snapshots : List Snapshot) (hpairs : snapshots.IsChain SamePairs) :
    registryOf snapshots = snapshots.getLastD ∅ := by
  induction snapshots using List.reverseRecOn with
  | nil => rfl
  | append_singleton snapshots snapshot ih =>
      rw [registryOf_snoc, ih (List.isChain_append.mp hpairs).1,
        register_of_samePairs (samePairs_last hpairs), List.getLastD_concat]

/-! ## Hypervisors that show a snapshot -/

/-- One call out of the monitor, from the world it found to the world it left. -/
inductive Calls (h : Host ω δ) (w : ω) : ω → Prop where
  | numOfDomains : Calls h w (h.numOfDomains w).2
  | listDomains (n : Int32) : Calls h w (h.listDomains n w).2
  | lookupByID (id : DomId) : Calls h w (h.lookupByID id w).2
  | getUUIDString (d : δ) : Calls h w (h.getUUIDString d w).2
  | getInfo (d : δ) : Calls h w (h.getInfo d w).2
  | getXMLDesc (d : δ) : Calls h w (h.getXMLDesc d w).2
  | blockStats (d : δ) (path : Option Bytes) : Calls h w (h.blockStats d path w).2
  | interfaceStats (d : δ) (path : Bytes) : Calls h w (h.interfaceStats d path w).2
  | newStats : Calls h w (h.newStats w).2
  | realtimeNow : Calls h w (h.realtimeNow w).2

/-- Every call succeeds, and all calls of one update see the same domains. -/
structure Shows (h : Host ω δ) (snap : ω → Snapshot) : Prop where
  steady : ∀ w w', Calls h w w' → snap w' = snap w
  counts : ∀ w, ¬ (h.numOfDomains w).1 < 0
  lists : ∀ w id, id ∈ (listing h w).ids ↔ id ∈ snap w
  finds : ∀ w (id : DomId) u, (snap w)[id]? = some u → ∃ d, (h.lookupByID id w).1 = some d
    ∧ ∀ w', cString (h.getUUIDString d w').1 = u
  allocates : ∀ w, ((h.newStats w).1).isSome
  describes : ∀ d w, ((h.getXMLDesc d w).1).isSome

/-- A new tracker holds the uuid its id has in the snapshot. -/
theorem wp_new_shows {h : Host ω δ} {snap : ω → Snapshot} (hh : Shows h snap) {id : DomId} {w : ω}
    {u : Bytes} (hu : (snap w)[id]? = some u) :
    wp (DomainStatTracker.new h id.toUInt32) w
      (fun t w' => snap w' = snap w ∧ t.domainUUID = u) noThrow := by
  have hid : id.toUInt32.toInt32 = id := rfl
  have hclock : snap (h.realtimeNow w).2 = snap w := hh.steady _ _ .realtimeNow
  obtain ⟨d, hd, hname⟩ := hh.finds (h.realtimeNow w).2 id u (by rw [hclock]; exact hu)
  have hlook := hh.steady _ _ (.lookupByID (h := h) (w := (h.realtimeNow w).2) id)
  have huuid := hh.steady _ _ (.getUUIDString (h := h)
    (w := (h.lookupByID id (h.realtimeNow w).2).2) d)
  have hnew := hh.steady _ _ (.newStats (h := h)
    (w := (h.getUUIDString d (h.lookupByID id (h.realtimeNow w).2).2).2))
  obtain ⟨heap, hheap⟩ := Option.isSome_iff_exists.mp
    (hh.allocates (h.getUUIDString d (h.lookupByID id (h.realtimeNow w).2).2).2)
  unfold DomainStatTracker.new
  simp only [wp_bind, wp_ask, hid, hd, hheap, wp_pure]
  exact ⟨by rw [hnew, huuid, hlook, hclock], hname _⟩

theorem afterList_shows {h : Host ω δ} {snap : ω → Snapshot} (hh : Shows h snap) (w : ω) :
    snap (listing h w).afterList = snap w := by
  show snap (h.listDomains _ (h.numOfDomains w).2).2 = _
  rw [hh.steady _ _ (.listDomains _), hh.steady _ _ .numOfDomains]

/-! ## The publisher follows the registry -/

/-- Each tracker holds the uuid its id is registered under. -/
def Registered (pub : Publisher δ) (registry : Snapshot) : Prop :=
  ∀ id, held pub id = registry[id]?

theorem registered_init (gethostname : Option Bytes) (tov : Double) :
    Registered (Publisher.init gethostname tov : Publisher δ) (registryOf []) := by
  intro id
  simp [held, look, Publisher.init, registryOf]

theorem mem_listed_iff {h : Host ω δ} {snap : ω → Snapshot} (hh : Shows h snap) {w : ω}
    {id : DomId} : id ∈ listed h w ↔ id ∈ snap w := mem_listed.trans (hh.lists w id)

/-- **One update follows the registry by one snapshot.** -/
theorem wp_update_shows (slotFirst : Bool) {h : Host ω δ} {snap : ω → Snapshot} (hh : Shows h snap)
    {s : MonitorState ω δ} {registry : Snapshot} (hs : Lockstep s.pub)
    (hreg : Registered s.pub registry) :
    wp (update slotFirst h) s
      (fun _ t => AfterUpdate h s t ∧ Registered t.pub (register registry (snap s.world)))
      noThrow := by
  refine wp_mono (wp_update hs (fun _ w => snap w = snap s.world)
    (fun id t => (snap s.world)[id]? = some t.domainUUID) (fun _ _ _ => True) noThrow
    ?_ (afterList_shows hh s.world) (fun _ _ _ _ => trivial) ?_) ?_ ?_
  · intro done id todo w hnew hw
    have hmem : id ∈ newcomers s.pub (listed h s.world) := by rw [hnew]; simp
    obtain ⟨u, hu⟩ := Trees.mem_iff_getElem?.mp
      ((mem_listed_iff hh).mp (mem_newcomers.mp hmem).1)
    refine wp_mono (wp_new_shows hh (w := w) (by rw [hw]; exact hu)) ?_ (fun _ _ he => he)
    intro t w' hpost
    obtain ⟨hw', ht⟩ := hpost
    exact ⟨hw'.trans hw, by rw [ht]; exact hu⟩
  · intro _ _ _ _ _ _ _ _ ht _
    exact wp_trackerUpdate_described hh.describes ht
  · intro _ t hpost
    obtain ⟨hafter, hnewest, _⟩ := hpost
    refine ⟨hafter, fun id => ?_⟩
    rw [register_getElem?]
    by_cases hl : id ∈ listed h s.world
    · obtain ⟨u, hu⟩ := Trees.mem_iff_getElem?.mp ((mem_listed_iff hh).mp hl)
      rw [hu]
      by_cases ha : id ∈ s.pub.active
      · -- still present: it keeps its name, whoever it is now
        obtain ⟨v, hv⟩ := Option.isSome_iff_exists.mp ((hs.held_isSome id).mpr ha)
        rw [(hafter.kept id ha hl).1, ← hreg id, hv]; rfl
      · -- new, or back again: it takes the name it has now
        obtain ⟨tr, htr, hheld, _⟩ := hnewest id (mem_newcomers.mpr ⟨hl, ha⟩)
        have hnone : registry[id]? = none := by
          rw [← hreg id, ← Option.not_isSome_iff_eq_none]
          exact fun hsome => ha ((hs.held_isSome id).mp hsome)
        rw [hheld, hnone, ← htr, hu]; rfl
    · have hsnap : (snap s.world)[id]? = none :=
        Trees.getElem?_eq_none.mpr fun hm => hl ((mem_listed_iff hh).mpr hm)
      rw [hsnap, Option.map_none, ← Option.not_isSome_iff_eq_none]
      intro hsome
      have := (hafter.lockstep.held_isSome id).mp hsome
      rw [hafter.active] at this
      exact hl this
  · intro e t hf
    exact hf.of_counted (hh.counts _)

/-! ## What is published -/

/-- The termination messages in a trail. -/
def termIdents (trail : List Event) : List Bytes :=
  trail.filterMap fun
    | .sent (.termInstance ident) => some ident
    | _ => none

/-- What an update publishes, by id: `registry` before it and the snapshot it saw. -/
structure PublishedById (hostname : Bytes) (registry snapshot : Snapshot) (lines : List Event) :
    Prop where
  /-- One entry for each present id, in ascending order, under its registered uuid. -/
  aggregate : ∃ key agg, lines.getLast? = some (.sent (.aggregate key agg))
    ∧ agg.domainStats.map (fun d => (d.domainId, d.domainUuid))
      = (register registry snapshot).toList
  /-- One message for each id that is no longer there, under the uuid it was registered with. -/
  terms : termIdents lines = (registry.toList.filter fun e => e.1 ∉ snapshot).map
    fun e => termInstanceIdent hostname e.2

/-- What an update publishes, by uuid, as if ids did not exist. -/
structure PublishedByUuid (hostname : Bytes) (prev snapshot : Snapshot) (lines : List Event) :
    Prop where
  aggregate : ∃ key agg, lines.getLast? = some (.sent (.aggregate key agg))
    ∧ ∀ u, u ∈ agg.domainStats.map (·.domainUuid) ↔ ∃ id : DomId, snapshot[id]? = some u
  terms : ∀ u, termInstanceIdent hostname u ∈ termIdents lines
    ↔ (∃ id : DomId, prev[id]? = some u) ∧ ¬ ∃ id : DomId, snapshot[id]? = some u

theorem termIdents_retireEvents (pub : Publisher δ) (ids : List DomId) :
    termIdents (retireEvents pub ids)
      = ids.map fun id => termInstanceIdent pub.aggStats.hostname ((held pub id).getD []) := by
  induction ids with
  | nil => rfl
  | cons id ids ih =>
      show termIdents ([_, _] ++ retireEvents pub ids) = _
      rw [termIdents, List.filterMap_append, List.map_cons, ← ih]
      rfl

theorem termIdents_enrollEvents (pub : Publisher δ) (ids : List DomId) :
    termIdents (enrollEvents pub ids) = [] := by
  induction ids with
  | nil => rfl
  | cons id ids ih =>
      show termIdents ([_, _] ++ enrollEvents pub ids) = _
      rw [termIdents, List.filterMap_append]
      exact ih

theorem active_eq_keys {pub : Publisher δ} {registry : Snapshot} (hs : Lockstep pub)
    (hreg : Registered pub registry) : pub.active.toList = registry.toList.map Prod.fst := by
  refine (Trees.keys_eq_toList fun id => ?_).symm
  rw [ExtTreeMap.mem_iff_isSome_getElem?, ← hreg id, hs.held_isSome]

/-- The lines an update adds are the registry's. -/
theorem publishedById_of_afterUpdate {h : Host ω δ} {snap : ω → Snapshot} (hh : Shows h snap)
    {s t : MonitorState ω δ} {registry : Snapshot} (hs : Lockstep s.pub)
    (hreg : Registered s.pub registry) (hu : AfterUpdate h s t)
    (hreg' : Registered t.pub (register registry (snap s.world))) :
    ∃ lines, t.events = s.events ++ lines
      ∧ PublishedById s.pub.aggStats.hostname registry (snap s.world) lines := by
  refine ⟨_, by rw [hu.events, List.append_assoc, List.append_assoc], ⟨_, _,
    by rw [List.getLast?_append, List.getLast?_append]; rfl, ?_⟩, ?_⟩
  · have hkeys : (register registry (snap s.world)).toList.map Prod.fst
        = (listed h s.world).toList := by
      rw [← active_eq_keys hu.lockstep hreg', hu.active]
    have hinj : Function.Injective fun e : DomId × Bytes => (e.1, some e.2) := by
      intro e e' he
      obtain ⟨i, u⟩ := e
      obtain ⟨j, v⟩ := e'
      simpa using he
    refine List.map_injective_iff.mpr hinj ?_
    rw [List.map_map]
    refine hu.stats.trans ?_
    rw [← hkeys, List.map_map]
    refine List.map_congr_left fun e he => ?_
    rw [ExtTreeMap.mem_toList_iff_getElem?_eq_some] at he
    exact Prod.ext rfl ((hreg' e.1).trans he)
  · rw [termIdents, List.filterMap_append, List.filterMap_append]
    show termIdents (retireEvents s.pub _) ++ (termIdents (enrollEvents t.pub _) ++ []) = _
    rw [termIdents_retireEvents, termIdents_enrollEvents, List.append_nil, List.append_nil, gone,
      active_eq_keys hs hreg, List.filter_map, List.map_map]
    have hfilter : ((fun id => decide (id ∉ listed h s.world)) ∘ Prod.fst)
        = fun e : DomId × Bytes => decide (e.1 ∉ snap s.world) :=
      funext fun e => by simp [mem_listed_iff hh]
    rw [hfilter]
    refine List.map_congr_left fun e he => ?_
    have hmem := ExtTreeMap.mem_toList_iff_getElem?_eq_some.mp (List.mem_filter.mp he).1
    show termInstanceIdent _ ((held s.pub e.1).getD []) = _
    rw [hreg e.1, hmem]; rfl

theorem termInstanceIdent_inj {hostname u v : Bytes}
    (h : termInstanceIdent hostname u = termInstanceIdent hostname v) : u = v :=
  List.append_cancel_left h

/-- Publications by id speak of the right uuids while no id changes hands. -/
theorem publishedByUuid_of_byId {hostname : Bytes} {prev snapshot : Snapshot} {lines : List Event}
    (hsame : SamePairs prev snapshot) (hp : PublishedById hostname prev snapshot lines) :
    PublishedByUuid hostname prev snapshot lines := by
  obtain ⟨⟨key, agg, hlast, hagg⟩, hterms⟩ := hp
  refine ⟨⟨key, agg, hlast, fun u => ?_⟩, fun u => ?_⟩
  · have huuids : agg.domainStats.map (·.domainUuid) = snapshot.toList.map Prod.snd := by
      rw [register_of_samePairs hsame] at hagg
      rw [← hagg, List.map_map]; rfl
    rw [huuids, List.mem_map]
    refine ⟨?_, ?_⟩
    · intro hboth
      obtain ⟨⟨id, v⟩, he, rfl⟩ := hboth
      exact ⟨id, ExtTreeMap.mem_toList_iff_getElem?_eq_some.mp he⟩
    · intro hsome
      obtain ⟨id, hid⟩ := hsome
      exact ⟨(id, u), ExtTreeMap.mem_toList_iff_getElem?_eq_some.mpr hid, rfl⟩
  · rw [hterms, List.mem_map]
    refine ⟨?_, ?_⟩
    · intro hboth
      obtain ⟨⟨id, v⟩, he, hv⟩ := hboth
      obtain ⟨hmem, hgone⟩ := List.mem_filter.mp he
      have hid := ExtTreeMap.mem_toList_iff_getElem?_eq_some.mp hmem
      have hvu : v = u := termInstanceIdent_inj hv
      subst hvu
      refine ⟨⟨id, hid⟩, ?_⟩
      intro hsome
      obtain ⟨j, hj⟩ := hsome
      -- the uuid is still there, but then under the same id
      have hij := hsame.uuids id j v hid hj
      subst hij
      exact (of_decide_eq_true hgone) (Trees.mem_iff_getElem?.mpr ⟨v, hj⟩)
    · intro hboth
      obtain ⟨⟨id, hid⟩, hnot⟩ := hboth
      refine ⟨(id, u), List.mem_filter.mpr
        ⟨ExtTreeMap.mem_toList_iff_getElem?_eq_some.mpr hid, ?_⟩, rfl⟩
      refine decide_eq_true fun hmem => ?_
      obtain ⟨v, hv⟩ := Trees.mem_iff_getElem?.mp hmem
      exact hnot ⟨id, by rw [hv, ← hsame.ids id u v hid hv]⟩

/-! ## Whole runs -/

/-- **The run's invariant**: lockstep, and each tracker under its registered uuid. -/
theorem wp_updates_shows (slotFirst : Bool) {h : Host ω δ} {snap : ω → Snapshot} (hh : Shows h snap)
    (gethostname : Option Bytes) (tov : Double) (w₀ : ω) (ws : List ω) :
    wp (updates slotFirst h ws) (start gethostname tov w₀ : MonitorState ω δ)
      (fun _ s => Lockstep s.pub ∧ Registered s.pub (registryOf (ws.map snap))) noThrow := by
  refine wp_forM (fun done (s : MonitorState ω δ) => Lockstep s.pub
    ∧ Registered s.pub (registryOf (done.map snap))) ?_
    ⟨lockstep_init _ _, registered_init _ _⟩
  intro done w todo s _ hinv
  obtain ⟨hls, hreg⟩ := hinv
  simp only [wp_bind, wp_modify]
  refine wp_mono (wp_update_shows slotFirst hh (s := { s with world := w }) hls hreg) ?_
    (fun _ _ he => he)
  intro _ t hpost
  obtain ⟨hafter, hreg'⟩ := hpost
  refine ⟨hafter.lockstep, ?_⟩
  rw [List.map_append, List.map_singleton, registryOf_snoc]
  exact hreg'

/--
**Publications follow ids.** In every run, an update publishes each present id
under the uuid it was first seen with, and reports an id gone under that uuid;
these are the uuids of the snapshots themselves as long as no id changes hands.
-/
theorem updates_publishedById (slotFirst : Bool) (h : Host ω δ) (snap : ω → Snapshot)
    (hh : Shows h snap) (gethostname : Option Bytes) (tov : Double) (w₀ : ω) (ws : List ω) (w : ω) :
    ∃ s t lines, updates slotFirst h ws (start gethostname tov w₀) = .ok ⟨⟩ s
      ∧ update slotFirst h { s with world := w } = .ok ⟨⟩ t ∧ t.events = s.events ++ lines
      ∧ PublishedById s.pub.aggStats.hostname (registryOf (ws.map snap)) (snap w) lines
      ∧ ((ws.map snap ++ [snap w]).IsChain SamePairs →
        PublishedByUuid s.pub.aggStats.hostname ((ws.map snap).getLastD ∅) (snap w) lines) := by
  obtain ⟨_, s, hrun, hls, hreg⟩ :=
    wp_noThrow (wp_updates_shows slotFirst hh gethostname tov w₀ ws)
  obtain ⟨_, t, hup, hafter, hreg'⟩ :=
    wp_noThrow (wp_update_shows slotFirst hh (s := { s with world := w }) hls hreg)
  obtain ⟨lines, hlines, hbyId⟩ := publishedById_of_afterUpdate hh
    (s := { s with world := w }) hls hreg hafter hreg'
  refine ⟨s, t, lines, hrun, hup, hlines, hbyId, fun hpairs => ?_⟩
  rw [registryOf_eq _ (List.isChain_append.mp hpairs).1] at hbyId
  exact publishedByUuid_of_byId (samePairs_last hpairs) hbyId

theorem snapshotHost_shows : Shows snapshotHost Inventory.domains where
  steady := by
    intro w w' hc
    cases hc <;> rfl
  counts w := intCount_nonneg _
  lists w id := by
    show id ∈ w.domains.keys.take (intCount w.domains.size).toNatClampNeg ↔ _
    have hsize := w.countable
    rw [intCount_toNatClampNeg,
      List.take_of_length_le (by rw [ExtTreeMap.length_keys]; omega), ExtTreeMap.mem_keys]
  finds w id u hu :=
    ⟨u, hu, fun _ => cString_terminated
      (w.named (id, u) (ExtTreeMap.mem_toList_iff_getElem?_eq_some.mpr hu))⟩
  allocates _ := rfl
  describes _ _ := rfl

/-- Domain 1, called a. -/
def firstGuest : Inventory :=
  ⟨.ofList [((1 : DomId), bytes "a")], by decide, by decide⟩

/-- Domain 1, called b: the id has been given to another guest. -/
def secondGuest : Inventory :=
  ⟨.ofList [((1 : DomId), bytes "b")], by decide, by decide⟩

theorem updates_publishedById_reuse :
    ∃ s t lines, updates false snapshotHost [firstGuest] (start none (.fin 0) firstGuest) = .ok ⟨⟩ s
      ∧ update false snapshotHost { s with world := secondGuest } = .ok ⟨⟩ t
      ∧ t.events = s.events ++ lines
      ∧ PublishedById s.pub.aggStats.hostname (registryOf [firstGuest.domains])
        secondGuest.domains lines
      ∧ (([firstGuest.domains] ++ [secondGuest.domains]).IsChain SamePairs →
        PublishedByUuid s.pub.aggStats.hostname ([firstGuest.domains].getLastD ∅)
          secondGuest.domains lines) :=
  updates_publishedById false snapshotHost Inventory.domains snapshotHost_shows none (.fin 0)
    firstGuest [firstGuest] secondGuest

/-- Guest b took over a's id between two polls: it is published as a, whose end goes unreported. -/
theorem not_publishedByUuid_reuse :
    ∃ s t lines, updates false snapshotHost [firstGuest] (start none (.fin 0) firstGuest) = .ok ⟨⟩ s
      ∧ update false snapshotHost { s with world := secondGuest } = .ok ⟨⟩ t
      ∧ t.events = s.events ++ lines
      ∧ ¬ PublishedByUuid s.pub.aggStats.hostname firstGuest.domains secondGuest.domains lines := by
  obtain ⟨_, s, hrun, hls, hreg⟩ := wp_noThrow
    (wp_updates_shows false snapshotHost_shows none (.fin 0) firstGuest [firstGuest])
  obtain ⟨_, t, hup, hafter, hreg'⟩ := wp_noThrow (wp_update_shows false
    snapshotHost_shows (s := { s with world := secondGuest }) hls hreg)
  obtain ⟨lines, hlines, hbyId⟩ := publishedById_of_afterUpdate snapshotHost_shows
    (s := { s with world := secondGuest }) hls hreg hafter hreg'
  refine ⟨s, t, lines, hrun, hup, hlines, fun hbyUuid => ?_⟩
  obtain ⟨key, agg, hlast, hagg⟩ := hbyId.aggregate
  obtain ⟨key', agg', hlast', hagg'⟩ := hbyUuid.aggregate
  rw [hlast] at hlast'
  cases hlast'
  have hb := (hagg' (bytes "b")).mpr ⟨1, by decide⟩
  have huuids : agg.domainStats.map (·.domainUuid)
      = (register (registryOf [firstGuest.domains]) secondGuest.domains).toList.map Prod.snd := by
    have hentries : agg.domainStats.map (fun d => (d.domainId, d.domainUuid))
        = (register (registryOf [firstGuest.domains]) secondGuest.domains).toList := hagg
    rw [← hentries, List.map_map]
    rfl
  rw [huuids] at hb
  exact absurd hb (by decide)

end CloudMon.Proof
