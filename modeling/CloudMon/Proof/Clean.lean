import CloudMon.Collector.Receiver
import CloudMon.Proof.Poll

/-!
# No NUL in a name

The collector side passes names on as C strings, so it matters that none of the
strings a monitor publishes under can contain a NUL: not the hostname, which the
constructor copies out of a C buffer, and not a uuid, which every tracker reads out
of one. Nothing an update does, and no way it can end early, brings one in.
-/

namespace CloudMon.Proof

open CloudMon LibvirtDomainStatPublisher Wp
open Std (ExtTreeMap ExtTreeSet)

variable {ω δ : Type}

/-- A publication of host `host`: its aggregate, or the end of one of its domains. -/
def Wellformed (host : Bytes) : Publication → Prop
  | .aggregate key agg => key = snprintf 512 (serversPrefix ++ cString host) ∧ agg.hostname = host
  | .termInstance ident => ∃ uuid, 0 ∉ uuid ∧ ident = termInstanceIdent host uuid

/-- No tracker holds a NUL in its uuid. -/
def CleanTrackers (m : ExtTreeMap DomId (TrackerPtr δ)) : Prop :=
  ∀ (id : DomId) (t : DomainStatTracker δ), m[id]? = some (.live t) → 0 ∉ t.domainUUID

/-- A publisher on `host` without a NUL in any of its domains' names. -/
structure CleanNames (host : Bytes) (pub : Publisher δ) : Prop where
  hostname : pub.aggStats.hostname = host
  uuids : CleanTrackers pub.trackers

/-- The same, with everything it has published. -/
structure Clean (host : Bytes) (s : MonitorState ω δ) : Prop where
  names : CleanNames host s.pub
  sent : ∀ p, .sent p ∈ s.events → Wellformed host p

variable {host : Bytes}

/-- A hostname is a C string. -/
theorem zero_not_mem_mHostname (gethostname : Option Bytes) : 0 ∉ mHostname gethostname := by
  cases gethostname with
  | none => decide
  | some buf => exact zero_not_mem_cString buf

theorem cleanNames_init (gethostname : Option Bytes) (tov : Double) :
    CleanNames (mHostname gethostname) (Publisher.init gethostname tov : Publisher δ) where
  hostname := rfl
  uuids := by intro id t h; simp [Publisher.init] at h

theorem CleanTrackers.insert_live {m : ExtTreeMap DomId (TrackerPtr δ)} (h : CleanTrackers m)
    {id : DomId} {t : DomainStatTracker δ} (ht : 0 ∉ t.domainUUID) :
    CleanTrackers (m.insert id (.live t)) := by
  intro k u hk
  rw [Trees.getElem?_insert] at hk
  split at hk
  · cases hk; exact ht
  · exact h k u hk

theorem CleanTrackers.insert_dead {m : ExtTreeMap DomId (TrackerPtr δ)} (h : CleanTrackers m)
    {id : DomId} {p : TrackerPtr δ} (hp : ∀ t, p ≠ .live t) : CleanTrackers (m.insert id p) := by
  intro k u hk
  rw [Trees.getElem?_insert] at hk
  split at hk
  · exact absurd (Option.some.inj hk) (hp u)
  · exact h k u hk

theorem CleanTrackers.erase {m : ExtTreeMap DomId (TrackerPtr δ)} (h : CleanTrackers m)
    {id : DomId} : CleanTrackers (m.erase id) := by
  intro k u hk
  rw [Trees.getElem?_erase] at hk
  split at hk
  · cases hk
  · exact h k u hk

theorem Clean.trackers {s : MonitorState ω δ} (h : Clean host s)
    {m : ExtTreeMap DomId (TrackerPtr δ)} (hm : CleanTrackers m) :
    Clean host { s with pub := { s.pub with trackers := m } } := ⟨⟨h.names.hostname, hm⟩, h.sent⟩

theorem Clean.log {s : MonitorState ω δ} (h : Clean host s) {e : Event}
    (he : ∀ p, e = .sent p → Wellformed host p) :
    Clean host { s with events := s.events ++ [e] } := by
  refine ⟨h.names, fun p hp => ?_⟩
  rcases List.mem_append.mp hp with hp | hp
  · exact h.sent p hp
  · exact he p (List.mem_singleton.mp hp).symm

/-! ## The pieces of an update -/

theorem wp_deref_clean {s : MonitorState ω δ} (h : Clean host s) (p : TrackerPtr δ) :
    wp p.deref s (fun t u => u = s ∧ p = .live t) (fun _ => Clean host) := by
  cases p with
  | null => exact h
  | live t => exact ⟨rfl, rfl⟩
  | dangling => exact h

theorem wp_delete_clean {s : MonitorState ω δ} (h : Clean host s) (p : TrackerPtr δ) :
    wp p.delete s (fun q u => u = s ∧ ∀ t, q ≠ .live t) (fun _ => Clean host) := by
  cases p with
  | null => exact ⟨rfl, fun t => by simp⟩
  | live t => exact ⟨rfl, fun t => by simp⟩
  | dangling => exact h

/-- A new tracker's uuid is a C string. -/
theorem wp_new_clean {h : Host ω δ} {domID : UInt32} {w : ω} :
    wp (DomainStatTracker.new h domID) w (fun t _ => 0 ∉ t.domainUUID) (fun _ _ => True) := by
  unfold DomainStatTracker.new
  simp only [wp_bind, wp_ask]
  split
  · trivial
  · simp only [wp_bind, wp_ask]
    split
    · trivial
    · exact zero_not_mem_cString _

/-- An update leaves a tracker's uuid alone. -/
theorem wp_trackerUpdate_uuid {h : Host ω δ} {t : DomainStatTracker δ} {w : ω} :
    wp (t.update h) w (fun r _ => r.2.domainUUID = t.domainUUID) (fun _ _ => True) := by
  unfold DomainStatTracker.update
  by_cases h0 : t.domainID = 0
  · simp [h0]
  · simp only [h0, if_false, wp_bind, wp_ask]
    split
    · trivial
    · simp only [wp_bind, wp_ask]
      split
      · trivial
      · rfl

theorem wp_addStatTracker_clean {slotFirst : Bool} {h : Host ω δ} {s : MonitorState ω δ}
    (hs : Clean host s) (id : DomId) :
    wp (addStatTracker slotFirst h id) s (fun _ => Clean host) (fun _ => Clean host) := by
  -- once the old entry is out of the way
  have hnew : ∀ u : MonitorState ω δ, Clean host u →
      wp (do
        let t ← onHost (DomainStatTracker.new h id.toUInt32)
        log (.monitoring id t.domainUUID)
        setTrackers (·.insert id (.live t))) u (fun _ => Clean host) (fun _ => Clean host) := by
    intro u hu
    simp only [wp_bind, wp_onHost, wp_log, wp_setTrackers]
    refine wp_mono wp_new_clean (fun t w ht => ?_) (fun _ w _ => ⟨hu.names, hu.sent⟩)
    have hlogged := Clean.log (s := { u with world := w }) ⟨hu.names, hu.sent⟩
      (e := .monitoring id t.domainUUID) (fun p hp => by cases hp)
    exact hlogged.trackers (hu.names.uuids.insert_live ht)
  have hslot : ∀ u : MonitorState ω δ, Clean host u →
      wp (do
        if slotFirst then
          setTrackers fun m => if id ∈ m then m else m.insert id .null
        let t ← onHost (DomainStatTracker.new h id.toUInt32)
        log (.monitoring id t.domainUUID)
        setTrackers (·.insert id (.live t))) u (fun _ => Clean host) (fun _ => Clean host) := by
    intro u hu
    cases slotFirst with
    | false => exact hnew u hu
    | true =>
        refine wp_bind.mpr (wp_setTrackers.mpr (hnew _ (hu.trackers ?_)))
        split
        · exact hu.names.uuids
        · exact hu.names.uuids.insert_dead fun t => by simp
  unfold addStatTracker
  rw [wp_bind, wp_get]
  cases hp : s.pub.trackers[id]? with
  | none => exact wp_bind.mpr (wp_pure.mpr (hslot s hs))
  | some p =>
      simp only [wp_bind, wp_log]
      have hlogged := hs.log (e := .alreadyTracked id) fun q hq => by cases hq
      refine wp_mono (wp_delete_clean hlogged p) (fun q u hq => ?_) (fun _ _ he => he)
      obtain ⟨rfl, hdead⟩ := hq
      rw [wp_setTrackers]
      exact hslot _ (hlogged.trackers (hs.names.uuids.insert_dead hdead))

theorem wp_removeStatTracker_clean {s : MonitorState ω δ} (hs : Clean host s) (id : DomId) :
    wp (removeStatTracker id) s (fun _ => Clean host) (fun _ => Clean host) := by
  unfold removeStatTracker
  rw [wp_bind, wp_get]
  cases hp : s.pub.trackers[id]? with
  | none => exact hs.log fun q hq => by cases hq
  | some p =>
      simp only [wp_bind, wp_get, wp_log, wp_setTrackers]
      refine wp_mono (wp_deref_clean hs p) (fun t u ht => ?_) (fun _ _ he => he)
      obtain ⟨rfl, rfl⟩ := ht
      have hident : Wellformed host (.termInstance
          (termInstanceIdent u.pub.aggStats.hostname t.domainUUID)) :=
        ⟨t.domainUUID, hs.names.uuids id t hp, by rw [hs.names.hostname]⟩
      have hlogged := hs.log (e := .sent (.termInstance
        (termInstanceIdent u.pub.aggStats.hostname t.domainUUID))) fun q hq => by
          cases hq; exact hident
      exact hlogged.trackers hs.names.uuids.erase

theorem wp_poll_clean {slotFirst : Bool} {h : Host ω δ} {s : MonitorState ω δ} (hs : Clean host s) :
    wp (poll slotFirst h) s (fun _ => Clean host) (fun _ => Clean host) := by
  unfold poll
  simp only [wp_bind, wp_onHost, wp_ask, newIntArray]
  rw [wp_ite]
  refine ⟨fun _ => ⟨hs.names, hs.sent⟩, fun _ => ?_⟩
  simp only [wp_pure, wp_get, wp_modify]
  refine wp_mono (wp_forM (fun _ => Clean host) ?_ ⟨hs.names, hs.sent⟩) (fun _ u hu => ?_)
    (fun _ _ he => he)
  · intro _ id _ u _ hu
    rw [wp_ite]
    refine ⟨fun _ => ?_, fun _ => hu⟩
    exact wp_bind.mpr (wp_removeStatTracker_clean (hu.log fun q hq => by cases hq) id)
  · refine wp_mono (wp_forM (fun _ => Clean host) ?_ hu) (fun _ v hv => ⟨⟨hv.names.hostname,
      hv.names.uuids⟩, hv.sent⟩) (fun _ _ he => he)
    intro _ id _ v _ hv
    rw [wp_ite]
    refine ⟨fun _ => ?_, fun _ => hv⟩
    exact wp_bind.mpr (wp_addStatTracker_clean (hv.log fun q hq => by cases hq) id)

theorem wp_updateTracker_clean {h : Host ω δ} {s : MonitorState ω δ} (hs : Clean host s)
    {entry : DomId × TrackerPtr δ} (hentry : ∀ t, entry.2 = .live t → 0 ∉ t.domainUUID) :
    wp (updateTracker h entry) s (fun _ => Clean host) (fun _ => Clean host) := by
  unfold updateTracker
  simp only [wp_bind, wp_onHost, wp_setTrackers, wp_setAggStats]
  refine wp_mono (wp_deref_clean hs entry.2) (fun t u ht => ?_) (fun _ _ he => he)
  obtain ⟨rfl, hlive⟩ := ht
  refine wp_mono wp_trackerUpdate_uuid (fun r w hr => ?_) (fun _ _ _ => ⟨hs.names, hs.sent⟩)
  have huuid : 0 ∉ r.2.domainUUID := by rw [hr]; exact hentry t hlive
  exact ⟨⟨hs.names.hostname, hs.names.uuids.insert_live huuid⟩, hs.sent⟩

/-- **An update keeps everything clean**, however it ends. -/
theorem wp_update_clean (slotFirst : Bool) (h : Host ω δ) {s : MonitorState ω δ}
    (hs : Clean host s) :
    wp (update slotFirst h) s (fun _ => Clean host) (fun _ => Clean host) := by
  unfold update
  rw [wp_bind]
  refine wp_mono (wp_poll_clean hs) (fun _ u hu => ?_) (fun _ _ he => he)
  simp only [wp_bind, wp_setAggStats, wp_get, wp_onHost, wp_ask, wp_log]
  refine wp_mono (wp_forM (fun _ => Clean host) ?_ ⟨⟨hu.names.hostname, hu.names.uuids⟩, hu.sent⟩)
    (fun _ v hv => ?_) (fun _ _ he => he)
  · intro done entry todo v hall hv
    refine wp_updateTracker_clean hv fun t ht => hu.names.uuids entry.1 t ?_
    refine ExtTreeMap.mem_toList_iff_getElem?_eq_some.mp ?_
    show (entry.1, TrackerPtr.live t) ∈ u.pub.trackers.toList
    rw [← ht]
    have : entry ∈ u.pub.trackers.toList := by
      rw [show u.pub.trackers.toList = done ++ entry :: todo from hall]
      exact List.mem_append_right _ (List.mem_cons_self ..)
    exact this
  · refine ⟨⟨hv.names.hostname, hv.names.uuids⟩, fun p hp => ?_⟩
    rcases List.mem_append.mp hp with hp | hp
    · exact hv.sent p hp
    · cases List.mem_singleton.mp hp
      exact ⟨by rw [hv.names.hostname]; rfl, hv.names.hostname⟩

end CloudMon.Proof
