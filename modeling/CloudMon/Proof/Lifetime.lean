import CloudMon.Monitor.Main
import CloudMon.Proof.Announce
import CloudMon.Proof.Lockstep

/-!
# A monitor's life, and what it leaves

The publisher owns its trackers through plain pointers: the add handler makes them, the
remove handler deletes them, and the destructor deletes those that are left. Between two
updates the pointers in the map are exactly the trackers that were made and not yet
deleted, so the destructor deletes each of them, and none twice. An exception skips the
destructor, but it, too, never comes from a pointer that was deleted.

The destructor says nothing on the publisher's socket. So the domains of the last
aggregate, whose trackers it deletes, are never said to have ended.
-/

namespace CloudMon.Proof

open CloudMon LibvirtDomainStatPublisher Wp
open Std (ExtTreeMap ExtTreeSet)

variable {ω δ : Type}

/-! ## Made and deleted -/

/-- How many trackers were made for a domain id. -/
def constructed (id : DomId) (trail : List Event) : Nat :=
  trail.countP fun
    | .monitoring i _ => i = id
    | _ => false

/-- How many of them the remove handler was called for. -/
def retiredTimes (id : DomId) (trail : List Event) : Nat := trail.count (.disappeared id)

/-- **The ledger.** What was made is what was removed and what is in the map. -/
def Balanced (s : MonitorState ω δ) : Prop :=
  ∀ id, constructed id s.events
    = retiredTimes id s.events + if id ∈ s.pub.trackers then 1 else 0

theorem constructed_append (id : DomId) (a b : List Event) :
    constructed id (a ++ b) = constructed id a + constructed id b := List.countP_append

theorem retiredTimes_append (id : DomId) (a b : List Event) :
    retiredTimes id (a ++ b) = retiredTimes id a + retiredTimes id b := List.count_append

/-- Lines counted over a list of ids without repetitions, each giving one for itself only. -/
theorem count_flatMap {count : List Event → Nat} {f : DomId → List Event} {id : DomId}
    (happend : ∀ a b, count (a ++ b) = count a + count b) (hnil : count [] = 0)
    (hf : ∀ i, count (f i) = if i = id then 1 else 0) :
    ∀ {ids : List DomId}, ids.Nodup → count (ids.flatMap f) = if id ∈ ids then 1 else 0
  | [], _ => hnil
  | i :: ids, hnd => by
      obtain ⟨hi, hids⟩ := List.nodup_cons.mp hnd
      rw [List.flatMap_cons, happend, hf, count_flatMap happend hnil hf hids]
      by_cases he : i = id
      · subst he
        rw [if_pos rfl, if_neg hi, if_pos (List.mem_cons_self ..)]
      · have hmem : id ∈ i :: ids ↔ id ∈ ids := List.mem_cons.trans (or_iff_right (Ne.symm he))
        rw [if_neg he, Nat.zero_add]
        exact if_congr hmem.symm rfl rfl

section Counts

variable (pub : Publisher δ) (id : DomId) {ids : List DomId}

theorem constructed_enrollEvents (hnd : ids.Nodup) :
    constructed id (enrollEvents pub ids) = if id ∈ ids then 1 else 0 :=
  count_flatMap (constructed_append id) rfl
    (fun i => by by_cases he : i = id <;> simp [constructed, he]) hnd

theorem retiredTimes_retireEvents (hnd : ids.Nodup) :
    retiredTimes id (retireEvents pub ids) = if id ∈ ids then 1 else 0 :=
  count_flatMap (retiredTimes_append id) rfl
    (fun i => by by_cases he : i = id <;> simp [retiredTimes, he]) hnd

theorem constructed_retireEvents (ids : List DomId) :
    constructed id (retireEvents pub ids) = 0 := by
  refine List.countP_eq_zero.mpr fun e he => ?_
  obtain ⟨i, _, he⟩ := List.mem_flatMap.mp he
  simp only [List.mem_cons, List.not_mem_nil, or_false] at he
  rcases he with rfl | rfl
  · simp
  · simp

theorem retiredTimes_enrollEvents (ids : List DomId) :
    retiredTimes id (enrollEvents pub ids) = 0 := by
  refine List.count_eq_zero.mpr fun he => ?_
  obtain ⟨i, _, he⟩ := List.mem_flatMap.mp he
  simp at he

end Counts

/-- **An update that returns keeps the ledger.** -/
theorem balanced_step {h : Host ω δ} {s t : MonitorState ω δ} (hs : Lockstep s.pub)
    (hb : Balanced s) (hu : AfterUpdate h s t) : Balanced t := by
  intro id
  have hbefore := hb id
  have hkeys : id ∈ t.pub.trackers ↔ id ∈ listed h s.world := by
    rw [hu.lockstep.keys, hu.active]
  rw [if_congr (hs.keys id) rfl rfl] at hbefore
  rw [if_congr hkeys rfl rfl, hu.events]
  simp only [constructed_append, retiredTimes_append, constructed_retireEvents,
    retiredTimes_enrollEvents, constructed_enrollEvents _ _ (newcomers_nodup _ _),
    retiredTimes_retireEvents _ _ (gone_nodup _ _), mem_newcomers, mem_gone]
  have hlast : constructed id [.sent (.aggregate (aggregateKey s.pub.aggStats.hostname)
      t.pub.aggStats)] = 0 := rfl
  have hlast' : retiredTimes id [.sent (.aggregate (aggregateKey s.pub.aggStats.hostname)
      t.pub.aggStats)] = 0 := rfl
  rw [hlast, hlast']
  -- watched before, listed now
  by_cases ha : id ∈ s.pub.active <;> by_cases hl : id ∈ listed h s.world <;>
    simp only [ha, hl, not_true_eq_false, not_false_eq_true, and_true, and_false, and_self,
      if_true, if_false] at hbefore ⊢ <;> omega

/-! ## What an update can die of -/

/-- **No update follows a pointer to what was deleted**, whatever the hypervisor does. -/
theorem wp_update_noUseAfterFree {slotFirst : Bool} {h : Host ω δ} {s : MonitorState ω δ}
    (hs : Lockstep s.pub) :
    wp (update slotFirst h) s (fun _ t => AfterUpdate h s t) (fun e _ => e ≠ .useAfterFree) := by
  refine wp_mono (wp_update hs (fun _ _ => True) (fun _ _ => True) (fun _ _ _ => True)
    (fun e _ => e ≠ .useAfterFree) ?_ trivial (fun _ _ _ _ => trivial) ?_) (fun _ _ ht => ht.1) ?_
  · intro _ _ _ w _ _
    refine wp_mono wp_new (fun _ _ _ => ⟨trivial, trivial⟩) fun e _ he => ?_
    rcases he with rfl | rfl
    · exact nofun
    · exact nofun
  · intro _ _ _ _ _ _ _ _ ht _
    refine wp_mono (wp_trackerUpdate ht) (fun _ _ _ => trivial) fun e _ he => ?_
    rw [he]
    exact nofun
  · intro e t hfailed
    cases hfailed with
    | poll hpoll =>
        cases hpoll with
        | array _ he _ => rw [he]; exact nofun
        | constructor _ hthrow _ => exact hthrow
    | tracker hthrow _ => exact hthrow

/-! ## The updates of a process -/

/-- A monitor between two updates of its only process. -/
structure Afoot (host : Bytes) (s : MonitorState ω δ) (aggs : List AggregateDomainStats) :
    Prop where
  announced : Announced host s.pub aggs
  clean : Clean host s
  balanced : Balanced s
  sent : published s.events = announcements host [] aggs

theorem afoot_init (gethostname : Option Bytes) (tov : Double) (w : ω) :
    Afoot (mHostname gethostname)
      ((Publisher.init gethostname tov).inWorld w : MonitorState ω δ) [] where
  announced := announced_init gethostname tov
  clean := ⟨cleanNames_init gethostname tov, nofun⟩
  balanced := by intro id; simp [Publisher.init, constructed, retiredTimes]
  sent := rfl

/-- **One update of the process**: one aggregate more, or an exception. -/
theorem wp_update_afoot (slotFirst : Bool) (h : Host ω δ) {host : Bytes} {s : MonitorState ω δ}
    {aggs : List AggregateDomainStats} (hs : Afoot host s aggs) :
    wp (update slotFirst h) s (fun _ t => Afoot host t (aggs ++ [t.pub.aggStats]))
      (fun e _ => e ≠ .useAfterFree) := by
  have hls := hs.announced.lockstep
  refine wp_mono (wp_and (wp_update_noUseAfterFree hls) (wp_update_clean slotFirst h hs.clean))
    (fun _ t ht => ?_) (fun _ _ he => he.1)
  obtain ⟨hu, hclean⟩ := ht
  obtain ⟨hann, hsent⟩ := announced_step hs.announced hu hclean.names
  refine ⟨hann, hclean, balanced_step hls hs.balanced hu, ?_⟩
  rw [hsent, hs.sent, announcements_concat]

/-- **Any number of updates**, each finding the world as it likes. -/
theorem wp_updates_afoot (slotFirst : Bool) (h : Host ω δ) {host : Bytes} {s : MonitorState ω δ}
    (hs : Afoot host s []) (ws : List ω) :
    wp (updates slotFirst h ws) s
      (fun _ t => ∃ aggs, aggs.length = ws.length ∧ Afoot host t aggs)
      (fun e _ => e ≠ .useAfterFree) := by
  unfold updates
  refine wp_forM (fun (done : List ω) (t : MonitorState ω δ) =>
    ∃ aggs, aggs.length = done.length ∧ Afoot host t aggs) ?_ ⟨[], rfl, hs⟩
  intro done w todo t _ hinv
  obtain ⟨aggs, hlen, hafoot⟩ := hinv
  simp only [wp_bind, wp_modify]
  have hmoved : Afoot host { t with world := w } aggs :=
    ⟨hafoot.announced, ⟨hafoot.clean.names, hafoot.clean.sent⟩, hafoot.balanced, hafoot.sent⟩
  refine wp_mono (wp_update_afoot slotFirst h hmoved) (fun _ u hu => ?_) (fun _ _ he => he)
  exact ⟨_, by simp [hlen], hu⟩

/-! ## The destructor -/

/-- The state once the destructor has had its way with the entries in `done`. -/
structure Destroyed (s t : MonitorState ω δ) (done : List (DomId × TrackerPtr δ)) : Prop where
  events : t.events = s.events
  keys : ∀ id, id ∈ t.pub.trackers ↔ id ∈ s.pub.trackers
  deleted : ∀ id ∈ done.map Prod.fst, t.pub.trackers[id]? = some .dangling
  left : ∀ id, id ∉ done.map Prod.fst → t.pub.trackers[id]? = s.pub.trackers[id]?

/-- **The destructor deletes every tracker there is**, and meets no pointer it cannot delete. -/
theorem wp_destroy {s : MonitorState ω δ} (hlive : AllLive s.pub.trackers) :
    wp destroy s (fun _ t => Destroyed s t s.pub.trackers.toList) noThrow := by
  unfold destroy
  simp only [wp_bind, wp_get]
  refine wp_forM (fun done (t : MonitorState ω δ) => Destroyed s t done) ?_
    ⟨rfl, fun _ => Iff.rfl, fun _ hid => absurd hid List.not_mem_nil, fun _ _ => rfl⟩
  intro done entry todo t hxs hinv
  obtain ⟨id, p⟩ := entry
  have hp : s.pub.trackers[id]? = some p :=
    ExtTreeMap.mem_toList_iff_getElem?_eq_some.mp (by rw [hxs]; simp)
  obtain ⟨tr, rfl, _⟩ := hlive id p hp
  simp only [wp_bind, wp_delete_live, wp_setTrackers]
  have hlook : ∀ k, (t.pub.trackers.insert id .dangling)[k]?
      = if id = k then some .dangling else t.pub.trackers[k]? :=
    fun k => Trees.getElem?_insert
  refine ⟨hinv.events, fun k => ?_, fun k hk => ?_, fun k hk => ?_⟩
  · show k ∈ t.pub.trackers.insert id .dangling ↔ _
    rw [Trees.mem_iff_getElem?, hlook]
    split
    · rename_i he
      subst he
      exact iff_of_true ⟨_, rfl⟩ (Trees.mem_iff_getElem?.mpr ⟨_, hp⟩)
    · rw [← Trees.mem_iff_getElem?]
      exact hinv.keys k
  · show (t.pub.trackers.insert id .dangling)[k]? = _
    rw [hlook]
    split
    · rfl
    · rename_i hne
      rw [List.map_append, List.mem_append] at hk
      refine hinv.deleted k (hk.resolve_right fun hk => hne ?_)
      exact (List.mem_singleton.mp hk).symm
  · rw [List.map_append, List.mem_append, not_or] at hk
    show (t.pub.trackers.insert id .dangling)[k]? = _
    rw [hlook, if_neg fun he => hk.2 (by simp [he])]
    exact hinv.left k hk.1

/-- What a process leaves that ran to the end of `main`. -/
structure ShutDown (host : Bytes) (s : MonitorState ω δ) (aggs : List AggregateDomainStats) :
    Prop where
  /-- No tracker is left: what the map still points to has been deleted. -/
  freed : ∀ (id : DomId) p, s.pub.trackers[id]? = some p → p = .dangling
  /-- Every tracker was deleted once, by the remove handler or by the destructor. -/
  balanced : Balanced s
  /-- Nothing was published but what follows from the aggregates. -/
  sent : published s.events = announcements host [] aggs
  /-- The destructor's share are the domains of the last aggregate. -/
  last : ∀ id, id ∈ s.pub.trackers ↔ id ∈ (lastStats [] aggs).map (·.domainId)

theorem shutDown_of_destroyed {host : Bytes} {s t : MonitorState ω δ}
    {aggs : List AggregateDomainStats} (hs : Afoot host s aggs)
    (hd : Destroyed s t s.pub.trackers.toList) : ShutDown host t aggs := by
  have hids : (lastStats [] aggs).map (·.domainId) = s.pub.active.toList := by
    have := congrArg (List.map Prod.fst) hs.announced.last
    rw [List.map_map, List.map_map] at this
    simpa [Function.comp_def] using this
  refine ⟨fun id p hp => ?_, fun id => ?_, ?_, fun id => ?_⟩
  · obtain ⟨q, hq⟩ := Trees.mem_iff_getElem?.mp
      ((hd.keys id).mp (Trees.mem_iff_getElem?.mpr ⟨p, hp⟩))
    have hmem : id ∈ s.pub.trackers.toList.map Prod.fst :=
      List.mem_map.mpr ⟨(id, q), ExtTreeMap.mem_toList_iff_getElem?_eq_some.mpr hq, rfl⟩
    rw [hd.deleted id hmem] at hp
    exact (Option.some.inj hp).symm
  · rw [hd.events, if_congr (hd.keys id) rfl rfl]
    exact hs.balanced id
  · rw [hd.events]
    exact hs.sent
  · rw [hd.keys, hs.announced.lockstep.keys, hids, ExtTreeSet.mem_toList]

/--
**Every tracker is deleted once, and the last ones in silence.** A monitor process, on
whatever hypervisor and however often it updates, never follows or deletes a pointer to a
tracker that was deleted. If it runs to the end of `main`, then every tracker it ever made
has been deleted exactly once, and what it has published are its aggregates with the ends
of the domains that left before the last: the domains of the last aggregate, whose
trackers the destructor deletes, are not said to have ended.
-/
theorem basicMonitor_shutDown (slotFirst : Bool) (h : Host ω δ) (launch : Launch) (ws : List ω)
    (pub : Publisher δ) (w : ω) :
    (∀ status t, basicMonitor slotFirst h launch ws (pub.inWorld w) = .ok status t →
      status = 0 → ∃ aggs, aggs.length = ws.length
        ∧ ShutDown (mHostname launch.gethostname) t aggs)
      ∧ ∀ e t, basicMonitor slotFirst h launch ws (pub.inWorld w) = .error e t →
        e ≠ .useAfterFree := by
  have hwp : wp (basicMonitor slotFirst h launch ws) (pub.inWorld w)
      (fun status t => status = 0 → ∃ aggs, aggs.length = ws.length
        ∧ ShutDown (mHostname launch.gethostname) t aggs) (fun e _ => e ≠ .useAfterFree) := by
    unfold basicMonitor
    rw [wp_ite, wp_ite]
    refine ⟨fun _ h1 => absurd h1 Nat.one_ne_zero, fun _ => ⟨fun _ => by simp, fun _ => ?_⟩⟩
    simp only [wp_bind, wp_modify, wp_pure]
    refine wp_mono (wp_updates_afoot slotFirst h
      (afoot_init launch.gethostname launch.tov w) ws) (fun _ s hs => ?_) (fun _ _ he => he)
    obtain ⟨aggs, hlen, hafoot⟩ := hs
    refine wp_mono (wp_destroy hafoot.announced.lockstep.live) ?_ fun _ _ he => he.elim
    intro _ t ht _
    exact ⟨aggs, hlen, shutDown_of_destroyed hafoot ht⟩
  exact ⟨fun _ _ hrun => wp_of_ok hwp hrun, fun _ _ hrun he => wp_of_error hwp hrun he⟩

/-- A process that sees two domains, loses one of them and is told to stop. -/
def twoThenOne : Launch where
  args := [bytes "tcp://localhost:12345"]
  connected := true
  gethostname := none
  tov := .fin 0

theorem twoThenOne_exits : ∃ status t,
    basicMonitor false obliging twoThenOne [[3, 1], [1]]
      ((Publisher.init none (.fin 0)).inWorld []) = .ok status t ∧ status = 0
        ∧ retiredTimes 3 t.events = 1 ∧ constructed 3 t.events = 1
        ∧ retiredTimes 1 t.events = 0 ∧ constructed 1 t.events = 1 :=
  wp_noThrow (by decide +kernel)

/-- One tracker goes with its domain, the other with the process. -/
theorem basicMonitor_shutDown_twoThenOne :
    ∃ (t : MonitorState (List DomId) DomId) (aggs : List AggregateDomainStats),
      (aggs.length = 2 ∧ ShutDown (mHostname none) t aggs)
        ∧ retiredTimes 3 t.events = 1 ∧ constructed 3 t.events = 1
        ∧ retiredTimes 1 t.events = 0 ∧ constructed 1 t.events = 1 := by
  obtain ⟨status, t, hrun, hstatus, hcounts⟩ := twoThenOne_exits
  obtain ⟨aggs, hshut⟩ := (basicMonitor_shutDown false obliging twoThenOne [[3, 1], [1]]
    (Publisher.init none (.fin 0)) []).1 status t hrun hstatus
  exact ⟨t, aggs, hshut, hcounts⟩

end CloudMon.Proof
