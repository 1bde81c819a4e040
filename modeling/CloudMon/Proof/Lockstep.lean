import CloudMon.Monitor.Snapshot
import CloudMon.Proof.Update

/-!
# The watcher, the publisher and the trail they leave

`Lockstep` is about one moment. This module is about the trail: over any number
of updates, which handler was called when, and which uuid each termination
message carried. The invariant ties the two together: a domain is active exactly
when its handler calls so far are odd in number, and while it is active its
tracker still holds the uuid printed when it was made.
-/

namespace CloudMon.Proof

open CloudMon LibvirtDomainStatPublisher Wp
open Std (ExtTreeMap ExtTreeSet)

variable {ω δ : Type}

/-! ## Reading a trail -/

inductive HandlerCall where
  | add
  | remove
deriving DecidableEq

/-- The handler calls made for one domain id, in order. -/
def handlerCalls (id : DomId) (trail : List Event) : List HandlerCall :=
  trail.filterMap fun
    | .appeared i => if i = id then some .add else none
    | .disappeared i => if i = id then some .remove else none
    | _ => none

/-- `add`, `remove`, `add`, .. : the first `n` of them. -/
def alternation (n : Nat) : List HandlerCall :=
  (List.range n).map fun i => if i % 2 = 0 then .add else .remove

/-- The uuid read when the latest tracker for `id` was made. -/
def lastMonitored (id : DomId) (trail : List Event) : Option Bytes :=
  (trail.filterMap fun
    | .monitoring i uuid => if i = id then some uuid else none
    | _ => none).getLast?

/--
After the trail `before`, every remove is followed at once by one termination
message, under the uuid its tracker was made with, and there is no other.
-/
def TerminationsMatch (hostname : Bytes) : List Event → List Event → Prop
  | before, .disappeared id :: .sent (.termInstance ident) :: rest =>
      (∃ uuid, lastMonitored id before = some uuid ∧ ident = termInstanceIdent hostname uuid)
        ∧ TerminationsMatch hostname (before ++ [.disappeared id, .sent (.termInstance ident)]) rest
  | _, .disappeared _ :: _ => False
  | _, .sent (.termInstance _) :: _ => False
  | before, e :: rest => TerminationsMatch hostname (before ++ [e]) rest
  | _, [] => True

theorem handlerCalls_append (id : DomId) (a b : List Event) :
    handlerCalls id (a ++ b) = handlerCalls id a ++ handlerCalls id b := List.filterMap_append

theorem lastMonitored_append (id : DomId) (a b : List Event) :
    lastMonitored id (a ++ b) = (lastMonitored id b).or (lastMonitored id a) := by
  unfold lastMonitored
  rw [List.filterMap_append, List.getLast?_append]

theorem alternation_succ (n : Nat) :
    alternation (n + 1) = alternation n ++ [if n % 2 = 0 then .add else .remove] := by
  unfold alternation
  rw [List.range_succ, List.map_append, List.map_singleton]

theorem terminationsMatch_append {hostname : Bytes} {a b : List Event} :
    ∀ {before : List Event}, TerminationsMatch hostname before a →
      TerminationsMatch hostname (before ++ a) b → TerminationsMatch hostname before (a ++ b) := by
  intro before
  fun_induction TerminationsMatch hostname before a with
  | case1 before id ident rest ih =>
      intro ha hb
      exact ⟨ha.1, ih ha.2 (by simpa using hb)⟩
  | case2 => intro ha; exact ha.elim
  | case3 => intro ha; exact ha.elim
  | case4 before e rest h1 h2 h3 ih =>
      intro ha hb
      rw [List.cons_append]
      cases e with
      | disappeared id => exact absurd rfl (h2 id)
      | sent p =>
          cases p with
          | termInstance ident => exact absurd rfl (h3 ident)
          | aggregate key agg => exact ih ha (by simpa using hb)
      | appeared id => exact ih ha (by simpa using hb)
      | monitoring id uuid => exact ih ha (by simpa using hb)
      | alreadyTracked id => exact ih ha (by simpa using hb)
      | notTracked id => exact ih ha (by simpa using hb)
  | case5 before => intro _ hb; simpa using hb

/-! ## The trail of one poll -/

/-- One handler call for each id of a list without repetitions. -/
theorem handlerCalls_flatMap {id : DomId} {call : HandlerCall} {f : DomId → List Event}
    (hf : ∀ i, handlerCalls id (f i) = if i = id then [call] else []) :
    ∀ {ids : List DomId}, ids.Nodup →
      handlerCalls id (ids.flatMap f) = if id ∈ ids then [call] else []
  | [], _ => rfl
  | i :: ids, hnd => by
      obtain ⟨hi, hids⟩ := List.nodup_cons.mp hnd
      rw [List.flatMap_cons, handlerCalls_append, hf, handlerCalls_flatMap hf hids]
      by_cases he : i = id
      · subst he
        rw [if_pos rfl, if_neg hi, if_pos (List.mem_cons_self ..)]
        rfl
      · have hmem : id ∈ i :: ids ↔ id ∈ ids := List.mem_cons.trans (or_iff_right (Ne.symm he))
        rw [if_neg he, List.nil_append]
        exact if_congr hmem.symm rfl rfl

theorem handlerCalls_retireEvents (pub : Publisher δ) (id : DomId) {ids : List DomId}
    (hnd : ids.Nodup) :
    handlerCalls id (retireEvents pub ids) = if id ∈ ids then [.remove] else [] :=
  handlerCalls_flatMap (fun i => by by_cases he : i = id <;> simp [handlerCalls, he]) hnd

theorem handlerCalls_enrollEvents (pub : Publisher δ) (id : DomId) {ids : List DomId}
    (hnd : ids.Nodup) :
    handlerCalls id (enrollEvents pub ids) = if id ∈ ids then [.add] else [] :=
  handlerCalls_flatMap (fun i => by by_cases he : i = id <;> simp [handlerCalls, he]) hnd

theorem lastMonitored_retireEvents {pub : Publisher δ} (id : DomId) :
    ∀ ids : List DomId, lastMonitored id (retireEvents pub ids) = none
  | [] => rfl
  | i :: ids => by
      show lastMonitored id ([_, _] ++ retireEvents pub ids) = _
      rw [lastMonitored_append, lastMonitored_retireEvents id ids]
      rfl

theorem lastMonitored_enrollEvents {pub : Publisher δ} (id : DomId) :
    ∀ ids : List DomId, lastMonitored id (enrollEvents pub ids)
      = if id ∈ ids then some ((held pub id).getD []) else none
  | [] => rfl
  | i :: ids => by
      show lastMonitored id ([_, _] ++ enrollEvents pub ids) = _
      rw [lastMonitored_append, lastMonitored_enrollEvents id ids]
      by_cases hi : i = id
      · subst hi
        by_cases hm : i ∈ ids <;> simp [lastMonitored, hm]
      · have : id ∈ i :: ids ↔ id ∈ ids := by rw [List.mem_cons, or_iff_right (Ne.symm hi)]
        by_cases hm : id ∈ ids <;> simp [lastMonitored, hi, this, hm]

theorem terminationsMatch_retireEvents {pub : Publisher δ} :
    ∀ {ids : List DomId} {before : List Event},
      (∀ id ∈ ids, ∃ uuid, lastMonitored id before = some uuid ∧ held pub id = some uuid) →
      TerminationsMatch pub.aggStats.hostname before (retireEvents pub ids)
  | [], _, _ => trivial
  | i :: ids, before, h => by
      obtain ⟨uuid, hlast, hheld⟩ := h i (List.mem_cons_self ..)
      refine ⟨⟨uuid, hlast, by rw [hheld]; rfl⟩, terminationsMatch_retireEvents fun id hid => ?_⟩
      obtain ⟨uuid', hlast', hheld'⟩ := h id (List.mem_cons_of_mem _ hid)
      exact ⟨uuid', by rw [lastMonitored_append, hlast']; rfl, hheld'⟩

theorem terminationsMatch_enrollEvents {hostname : Bytes} {pub : Publisher δ} :
    ∀ (ids : List DomId) {before : List Event},
      TerminationsMatch hostname before (enrollEvents pub ids)
  | [], _ => trivial
  | _ :: ids, _ => terminationsMatch_enrollEvents ids

/-! ## The invariant of a run -/

/-- What the trail says of the publisher that left it. -/
structure Trail (pub : Publisher δ) (events : List Event) : Prop where
  calls : ∀ id, ∃ n, handlerCalls id events = alternation n ∧ (n % 2 = 1 ↔ id ∈ pub.active)
  named : ∀ id ∈ pub.active, lastMonitored id events = held pub id
  terms : TerminationsMatch pub.aggStats.hostname [] events
  /-- Neither warning is ever printed. -/
  quiet : ∀ id, .alreadyTracked id ∉ events ∧ .notTracked id ∉ events

theorem trail_init (gethostname : Option Bytes) (tov : Double) :
    Trail (Publisher.init gethostname tov : Publisher δ) [] where
  calls id := ⟨0, rfl, by simp [Publisher.init]⟩
  named id h := absurd h (by simp [Publisher.init])
  terms := trivial
  quiet id := by simp

/-- **Every update keeps the trail in order.** -/
theorem trail_step {h : Host ω δ} {s t : MonitorState ω δ} (hs : Lockstep s.pub)
    (htr : Trail s.pub s.events) (hu : AfterUpdate h s t) : Trail t.pub t.events := by
  rw [hu.events]
  have hnew : ∀ id, id ∈ newcomers s.pub (listed h s.world) → (held t.pub id).isSome :=
    fun id hid => (hu.lockstep.held_isSome id).mpr (by
      rw [hu.active]; exact (mem_newcomers.mp hid).1)
  refine ⟨fun id => ?_, fun id hid => ?_, ?_, fun id => ?_⟩
  · obtain ⟨n, hn, hodd⟩ := htr.calls id
    rw [handlerCalls_append, handlerCalls_append, handlerCalls_append, hn,
      handlerCalls_retireEvents _ id (gone_nodup _ _),
      handlerCalls_enrollEvents _ id (newcomers_nodup _ _), hu.active]
    show ∃ m, _ ++ [] = _ ∧ _
    rw [List.append_nil]
    -- watched before, listed now: only where the two differ is there a call, and one at most
    by_cases ha : id ∈ s.pub.active <;> by_cases hl : id ∈ listed h s.world
    · rw [if_neg (fun hg => (mem_gone.mp hg).2 hl), if_neg (fun hg => (mem_newcomers.mp hg).2 ha)]
      exact ⟨n, by simp, iff_of_true (hodd.mpr ha) hl⟩
    · have hpar : n % 2 = 1 := hodd.mpr ha
      rw [if_pos (mem_gone.mpr ⟨ha, hl⟩), if_neg (fun hg => (mem_newcomers.mp hg).2 ha)]
      exact ⟨n + 1, by simp [alternation_succ, hpar], iff_of_false (by omega) hl⟩
    · have hpar : ¬ n % 2 = 1 := fun hp => ha (hodd.mp hp)
      have heven : n % 2 = 0 := by omega
      rw [if_neg (fun hg => ha (mem_gone.mp hg).1), if_pos (mem_newcomers.mpr ⟨hl, ha⟩)]
      exact ⟨n + 1, by simp [alternation_succ, heven], iff_of_true (by omega) hl⟩
    · rw [if_neg (fun hg => ha (mem_gone.mp hg).1), if_neg (fun hg => hl (mem_newcomers.mp hg).1)]
      exact ⟨n, by simp, iff_of_false (fun hp => ha (hodd.mp hp)) hl⟩
  · rw [hu.active] at hid
    rw [lastMonitored_append, lastMonitored_append, lastMonitored_append,
      lastMonitored_retireEvents, lastMonitored_enrollEvents]
    show ((if _ then _ else _ : Option Bytes).or _) = _
    by_cases ha : id ∈ s.pub.active
    · -- the tracker is an old one and kept its name
      rw [if_neg (fun hg => (mem_newcomers.mp hg).2 ha), (hu.kept id ha hid).1]
      exact htr.named id ha
    · have hmem := mem_newcomers.mpr ⟨hid, ha⟩
      obtain ⟨uuid, huuid⟩ := Option.isSome_iff_exists.mp (hnew id hmem)
      rw [if_pos hmem, huuid]; rfl
  · rw [hu.hostname]
    refine terminationsMatch_append (terminationsMatch_append (terminationsMatch_append
      htr.terms ?_) (terminationsMatch_enrollEvents _)) trivial
    rw [List.nil_append]
    refine terminationsMatch_retireEvents fun id hid => ?_
    have ha := (mem_gone.mp hid).1
    obtain ⟨uuid, huuid⟩ := Option.isSome_iff_exists.mp ((hs.held_isSome id).mpr ha)
    exact ⟨uuid, (htr.named id ha).trans huuid, huuid⟩
  · have hq := htr.quiet id
    simp [retireEvents, enrollEvents, hq.1, hq.2]

/-! ## Runs in which every call succeeds -/

/-- A host that never reports a failure the monitor could trip over. -/
structure Succeeds (h : Host ω δ) : Prop where
  counts : ∀ w, ¬ (h.numOfDomains w).1 < 0
  lists : ∀ n w, ¬ (h.listDomains n w).1.1 < 0
  finds : ∀ id w, ((h.lookupByID id w).1).isSome
  allocates : ∀ w, ((h.newStats w).1).isSome
  describes : ∀ d w, ((h.getXMLDesc d w).1).isSome

theorem wp_new_succeeds {h : Host ω δ} (hok : Succeeds h) {id : DomId} {w : ω} :
    wp (DomainStatTracker.new h id.toUInt32) w (fun _ _ => True) noThrow := by
  unfold DomainStatTracker.new
  simp only [wp_bind, wp_ask]
  split
  · rename_i hn
    have := hok.finds (id.toUInt32).toInt32 (h.realtimeNow w).2
    rw [hn] at this; simp at this
  · rename_i d hd
    simp only [wp_bind, wp_ask]
    split
    · rename_i hn
      have := hok.allocates (h.getUUIDString d
        (h.lookupByID (id.toUInt32).toInt32 (h.realtimeNow w).2).2).2
      rw [hn] at this; simp at this
    · trivial

/-- A tracker's update needs nothing but a description of its domain to return. -/
theorem wp_trackerUpdate_described {h : Host ω δ} (hdesc : ∀ d w, ((h.getXMLDesc d w).1).isSome)
    {id : DomId} {t : DomainStatTracker δ} {w : ω} (ht : Tracks id t) :
    wp (t.update h) w (fun _ _ => True) noThrow := by
  obtain ⟨info, hinfo⟩ := ht.sampled
  unfold wp
  by_cases h0 : t.domainID = 0
  · rw [DomainStatTracker.update_zero h0]; trivial
  · obtain ⟨xml, hxml⟩ := Option.isSome_iff_exists.mp
      (hdesc t.domain (h.realtimeNow (h.getInfo t.domain w).2).2)
    rw [DomainStatTracker.update_eq h0 hinfo hxml]; trivial

/-- **An update on a host that never fails returns.** -/
theorem wp_update_succeeds (slotFirst : Bool) {h : Host ω δ} (hok : Succeeds h)
    {s : MonitorState ω δ} (hs : Lockstep s.pub) :
    wp (update slotFirst h) s (fun _ t => AfterUpdate h s t) noThrow := by
  refine wp_mono (wp_update hs (fun _ _ => True) (fun _ _ => True) (fun _ _ _ => True) noThrow
    ?_ trivial (fun _ _ _ _ => trivial) ?_) (fun _ t ht => ht.1) ?_
  · intro _ _ _ w _ _
    exact wp_mono (wp_new_succeeds hok) (fun _ _ _ => ⟨trivial, trivial⟩) (fun _ _ he => he)
  · intro _ _ _ _ _ _ _ _ ht _
    exact wp_trackerUpdate_described hok.describes ht
  · intro e t hf
    exact hf.of_counted (hok.counts _)

/-- A monitor before its first update. -/
def start (gethostname : Option Bytes) (tov : Double) (w : ω) : MonitorState ω δ :=
  (Publisher.init gethostname tov).inWorld w

/-- What holds after each update of a run, `w` being the world that update met. -/
structure InStep (h : Host ω δ) (w : ω) (s : MonitorState ω δ) : Prop where
  /-- The trackers' key set is the watcher's set, and both are the ids just listed. -/
  keys : ∀ id, id ∈ s.pub.trackers ↔ id ∈ s.pub.active
  listed : ∀ id, id ∈ s.pub.active ↔ id ∈ (listing h w).ids
  /-- No map entry is null, and none dangles. -/
  live : ∀ (id : DomId) p, s.pub.trackers[id]? = some p → ∃ t, p = .live t
  /-- The aggregate just published. -/
  published : s.events.getLast?
    = some (.sent (.aggregate (aggregateKey s.pub.aggStats.hostname) s.pub.aggStats))
  /-- It has one entry for each listed id, in ascending order. -/
  ids : s.pub.aggStats.domainStats.map (·.domainId) = s.pub.active.toList
  ascending : (s.pub.aggStats.domainStats.map (·.domainId)).Pairwise (· < ·)
  /-- Each entry has the uuid read when its tracker was made. -/
  uuids : ∀ d ∈ s.pub.aggStats.domainStats, lastMonitored d.domainId s.events = some d.domainUuid
  /-- Per id the handler calls alternate, starting with an add. -/
  calls : ∀ id, ∃ n, handlerCalls id s.events = alternation n
  /-- Each remove sends exactly one termination message, with the matching add's uuid. -/
  terms : TerminationsMatch s.pub.aggStats.hostname [] s.events

theorem inStep_of_afterUpdate {h : Host ω δ} {s t : MonitorState ω δ} (hu : AfterUpdate h s t)
    (htr : Trail t.pub t.events) : InStep h s.world t := by
  have hids : t.pub.aggStats.domainStats.map (·.domainId) = t.pub.active.toList := by
    have := congrArg (List.map Prod.fst) hu.stats
    rw [List.map_map, List.map_map] at this
    rw [hu.active]
    simpa [Function.comp_def] using this
  refine ⟨hu.lockstep.keys, fun id => ?_, fun id p hp => ?_, ?_, hids, ?_, fun d hd => ?_,
    fun id => ?_, htr.terms⟩
  · rw [hu.active, mem_listed]
  · obtain ⟨tr, rfl, _⟩ := hu.lockstep.live id p hp
    exact ⟨tr, rfl⟩
  · rw [hu.events, List.getLast?_append, hu.hostname]; rfl
  · rw [hids]
    exact Trees.set_pairwise_lt.imp fun hab => Std.compare_eq_lt.mp hab
  · have hmem : (d.domainId, some d.domainUuid)
        ∈ (CloudMon.Proof.listed h s.world).toList.map fun id => (id, held t.pub id) := by
      rw [← hu.stats]; exact List.mem_map.mpr ⟨d, hd, rfl⟩
    obtain ⟨id, hid, heq⟩ := List.mem_map.mp hmem
    obtain ⟨rfl, hheld⟩ := Prod.mk.inj heq
    rw [htr.named d.domainId (by rw [hu.active]; exact ExtTreeSet.mem_toList.mp hid), hheld]
  · obtain ⟨n, hn, _⟩ := htr.calls id
    exact ⟨n, hn⟩

/-- **A run's invariant**, with what its last update left. -/
theorem wp_updates_succeeds (slotFirst : Bool) {h : Host ω δ} (hok : Succeeds h)
    (gethostname : Option Bytes) (tov : Double) (w₀ : ω) (ws : List ω) :
    wp (updates slotFirst h ws) (start gethostname tov w₀ : MonitorState ω δ)
      (fun _ s => (Lockstep s.pub ∧ Trail s.pub s.events)
        ∧ ∀ w, ws.getLast? = some w → InStep h w s) noThrow := by
  refine wp_forM (fun done (s : MonitorState ω δ) => (Lockstep s.pub ∧ Trail s.pub s.events)
    ∧ ∀ w, done.getLast? = some w → InStep h w s) ?_
    ⟨⟨lockstep_init _ _, trail_init _ _⟩, by simp⟩
  intro done w todo s _ hinv
  obtain ⟨⟨hls, htr⟩, _⟩ := hinv
  simp only [wp_bind, wp_modify]
  refine wp_mono (wp_update_succeeds slotFirst hok (s := { s with world := w }) hls) ?_
    (fun _ _ he => he)
  intro _ t hu
  have htr' := trail_step (s := { s with world := w }) hls htr hu
  refine ⟨⟨hu.lockstep, htr'⟩, fun w' hw' => ?_⟩
  rw [List.getLast?_append] at hw'
  cases hw'
  exact inStep_of_afterUpdate hu htr'

/--
**Watcher and publisher stay in lockstep.** Whatever lists the hypervisor
returns, after each update the two collections agree with the list just returned
and with the aggregate just published, and the handler calls so far pair up.
-/
theorem updates_inStep (slotFirst : Bool) (h : Host ω δ) (hok : Succeeds h)
    (gethostname : Option Bytes) (tov : Double) (w₀ : ω) (ws : List ω) (w : ω) :
    ∃ s, updates slotFirst h (ws ++ [w]) (start gethostname tov w₀) = .ok ⟨⟩ s
      ∧ InStep h w s := by
  obtain ⟨_, s, hrun, _, hlast⟩ :=
    wp_noThrow (wp_updates_succeeds slotFirst hok gethostname tov w₀ (ws ++ [w]))
  exact ⟨s, hrun, hlast w (by simp)⟩

theorem obliging_succeeds : Succeeds obliging where
  counts w := intCount_nonneg w.length
  lists _ w := intCount_nonneg w.length
  finds _ _ := rfl
  allocates _ := rfl
  describes _ _ := rfl

/-- Ids out of order and repeated, then one of them gone. -/
theorem updates_inStep_obliging :
    ∃ s, updates false obliging ([[3, 1, 3]] ++ [[1]]) (start none (.fin 0) []) = .ok ⟨⟩ s
      ∧ InStep obliging [1] s :=
  updates_inStep false obliging obliging_succeeds none (.fin 0) [] [[3, 1, 3]] [1]

end CloudMon.Proof
