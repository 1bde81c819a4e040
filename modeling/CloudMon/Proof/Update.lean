import CloudMon.Proof.Poll

/-!
# What one update does

After the poll, `update` walks the tracker map and publishes one entry per
tracker. A tracker's own `update` may change every counter it holds but not whose
counters they are, so the walk keeps lockstep, and the published ids and uuids can
be read off the map as the poll left it.
-/

namespace CloudMon.Proof

open CloudMon LibvirtDomainStatPublisher Wp
open Std (ExtTreeMap ExtTreeSet)

variable {ω δ : Type}

/-- Updating a tracker changes neither the domain nor its name; a null XML string kills it. -/
theorem wp_trackerUpdate {h : Host ω δ} {id : DomId} {t : DomainStatTracker δ} {w : ω}
    (ht : Tracks id t) :
    wp (t.update h) w
      (fun r _ => Tracks id r.2 ∧ (r.2.domain = t.domain ∧ r.2.domainUUID = t.domainUUID)
        ∧ r.1.domainId = id ∧ r.1.domainUuid = t.domainUUID)
      (fun e _ => e = .nullDeref) := by
  obtain ⟨info, hinfo⟩ := ht.sampled
  have hid : t.domainID.toInt32 = id := by rw [ht.domainID]; rfl
  unfold wp
  by_cases h0 : t.domainID = 0
  · rw [DomainStatTracker.update_zero h0]
    refine ⟨ht, ⟨rfl, rfl⟩, ?_, rfl⟩
    rw [← hid, h0]; rfl
  · cases hxml : (t.answers h w).1.xml with
    | none =>
        obtain ⟨w', hw'⟩ := DomainStatTracker.update_crash h0 hxml
        rw [hw']
    | some xml =>
        rw [DomainStatTracker.update_eq h0 hinfo hxml]
        exact ⟨⟨ht.domainID, _, rfl⟩, ⟨rfl, rfl⟩, hid, rfl⟩

/-- The publisher after the trackers in `entries` had their turn. -/
structure Refreshed (s t : MonitorState ω δ) (entries : List (DomId × TrackerPtr δ)) : Prop where
  active : t.pub.active = s.pub.active
  hostname : t.pub.aggStats.hostname = s.pub.aggStats.hostname
  events : t.events = s.events
  live : AllLive t.pub.trackers
  /-- Whatever an update does not change in a tracker is as it was. -/
  same : ∀ {α : Type} (f : DomainStatTracker δ → α),
    (∀ a b, a.domain = b.domain → a.domainUUID = b.domainUUID → f a = f b) →
    ∀ id, look f t.pub id = look f s.pub id
  mem : ∀ id, id ∈ t.pub.trackers ↔ id ∈ s.pub.trackers
  stats : t.pub.aggStats.domainStats.map (fun d => (d.domainId, some d.domainUuid))
    = s.pub.aggStats.domainStats.map (fun d => (d.domainId, some d.domainUuid))
      ++ entries.map fun entry => (entry.1, held s.pub entry.1)

/-- **The publishing loop**, with `W` and `F` as for the add loop. -/
theorem wp_updateAll {h : Host ω δ} {s : MonitorState ω δ} (hlive : AllLive s.pub.trackers)
    (W : List (DomId × TrackerPtr δ) → ω → Prop) (F : Fault → ω → Prop)
    (hstep : ∀ done id t todo w, s.pub.trackers.toList = done ++ (id, .live t) :: todo →
      Tracks id t → W done w →
      wp (t.update h) w (fun _ w' => W (done ++ [(id, .live t)]) w') F)
    (hW : W [] s.world) :
    wp (s.pub.trackers.toList.forM (updateTracker h)) s
      (fun _ t => Refreshed s t s.pub.trackers.toList ∧ W s.pub.trackers.toList t.world)
      (fun e t => F e t.world ∧ e = .nullDeref) := by
  -- the entries still to come are in the map as they were found
  refine wp_mono (wp_forM (fun done (t : MonitorState ω δ) => Refreshed s t done ∧ W done t.world
      ∧ ∀ k, k ∉ done.map Prod.fst → t.pub.trackers[k]? = s.pub.trackers[k]?) ?_
    ⟨⟨rfl, rfl, rfl, hlive, fun _ _ _ => rfl, fun _ => Iff.rfl, by simp⟩, hW, fun _ _ => rfl⟩)
    (fun _ t ht => ⟨ht.1, ht.2.1⟩) (fun _ _ he => he)
  intro done entry todo t hxs hinv
  obtain ⟨id, p⟩ := entry
  obtain ⟨href, hw, hold⟩ := hinv
  have hp : s.pub.trackers[id]? = some p :=
    ExtTreeMap.mem_toList_iff_getElem?_eq_some.mp (by rw [hxs]; simp)
  obtain ⟨tr, rfl, htr⟩ := hlive id p hp
  have hheld := held_of_live hp
  show wp (updateTracker h (id, .live tr)) t _ _
  unfold updateTracker
  simp only [wp_bind, wp_deref_live, wp_onHost, wp_setTrackers, wp_setAggStats]
  refine wp_mono (wp_and (hstep done id tr todo t.world hxs htr hw) (wp_trackerUpdate htr))
    ?_ (fun _ _ he => he)
  intro result w' hpost
  obtain ⟨out, tr'⟩ := result
  obtain ⟨hw', htr', hname, hid, hout⟩ := hpost
  have hlook : ∀ k, (t.pub.trackers.insert id (.live tr'))[k]?
      = if id = k then some (.live tr') else t.pub.trackers[k]? :=
    fun k => Trees.getElem?_insert
  -- the entry written back is the domain's own, under the same name
  refine ⟨⟨href.active, href.hostname, href.events, ?_, ?_, ?_, ?_⟩, hw', ?_⟩
  · intro k p' hk
    change (t.pub.trackers.insert id (.live tr'))[k]? = some p' at hk
    rw [hlook] at hk
    split at hk
    · rename_i he; subst he; exact ⟨tr', (Option.some.inj hk).symm, htr'⟩
    · exact href.live k p' hk
  · intro α f hf k
    by_cases he : id = k
    · subst he
      rw [look_of_live hp, look_of_live (t := tr') ((hlook id).trans (if_pos rfl)),
        hf tr' tr hname.1 hname.2]
    · rw [← href.same f hf k]
      exact look_congr ((hlook k).trans (if_neg he))
  · intro k
    show k ∈ t.pub.trackers.insert id (.live tr') ↔ _
    rw [Trees.mem_iff_getElem?, hlook]
    split
    · rename_i he; subst he
      exact ⟨fun _ => Trees.mem_iff_getElem?.mpr ⟨_, hp⟩, fun _ => ⟨_, rfl⟩⟩
    · rw [← Trees.mem_iff_getElem?]; exact href.mem k
  · show (t.pub.aggStats.domainStats ++ [out]).map _ = _
    rw [List.map_append, href.stats, List.map_append, List.append_assoc]
    simpa [hheld] using And.intro hid hout
  · intro k hk
    rw [List.map_append, List.mem_append, not_or] at hk
    show (t.pub.trackers.insert id (.live tr'))[k]? = _
    rw [hlook, if_neg (fun he => hk.2 (by simp [he])), hold k hk.1]

/-- The key of an aggregate. -/
def aggregateKey (hostname : Bytes) : Bytes :=
  snprintf 512 (bytes "monitor.servers." ++ cString hostname)

/-- What a completed update leaves behind. -/
structure AfterUpdate (h : Host ω δ) (s t : MonitorState ω δ) : Prop where
  lockstep : Lockstep t.pub
  active : t.pub.active = listed h s.world
  hostname : t.pub.aggStats.hostname = s.pub.aggStats.hostname
  /-- A domain seen before and after keeps its name and its handle. -/
  kept : ∀ id, id ∈ s.pub.active → id ∈ listed h s.world →
    held t.pub id = held s.pub id ∧ handle t.pub id = handle s.pub id
  /-- One entry for each listed domain, in ascending order, under the name its tracker holds. -/
  stats : t.pub.aggStats.domainStats.map (fun d => (d.domainId, some d.domainUuid))
    = (listed h s.world).toList.map fun id => (id, held t.pub id)
  events : t.events = s.events ++ retireEvents s.pub (gone s.pub (listed h s.world))
    ++ enrollEvents t.pub (newcomers s.pub (listed h s.world))
    ++ [.sent (.aggregate (aggregateKey s.pub.aggStats.hostname) t.pub.aggStats)]

theorem enrollEvents_congr {pub : Publisher δ} (pub' : Publisher δ) {ids : List DomId}
    (h : ∀ id ∈ ids, held pub' id = held pub id) :
    enrollEvents pub' ids = enrollEvents pub ids := by
  unfold enrollEvents
  refine List.flatMap_congr fun id hid => ?_
  rw [h id hid]

/-- How an update can end early: in the poll, or in a tracker that read a null string. -/
inductive UpdateFailed (h : Host ω δ) (s : MonitorState ω δ) (F : Fault → ω → Prop) (e : Fault)
    (t : MonitorState ω δ) : Prop where
  | poll : PollFailed h s F e t → UpdateFailed h s F e t
  | tracker : F e t.world → e = .nullDeref → UpdateFailed h s F e t

/-- Where the count succeeds, what ends an update is a constructor or a tracker. -/
theorem UpdateFailed.of_counted {h : Host ω δ} {s t : MonitorState ω δ} {F : Fault → ω → Prop}
    {e : Fault} (hf : UpdateFailed h s F e t) (hnum : ¬ (listing h s.world).num < 0) :
    F e t.world := by
  cases hf with
  | poll hp =>
      cases hp with
      | array hneg => exact absurd hneg hnum
      | constructor _ hthrow => exact hthrow
  | tracker hthrow => exact hthrow

/--
**One update, both ways out.** `W` is what the caller knows of the world during
the add loop, `P` of each new tracker, `V` of the world during the publishing
loop that starts from the polled state, and `F` of the world after a throw.
-/
theorem wp_update {slotFirst : Bool} {h : Host ω δ} {s : MonitorState ω δ} (hs : Lockstep s.pub)
    (W : List DomId → ω → Prop) (P : DomId → DomainStatTracker δ → Prop)
    (V : MonitorState ω δ → List (DomId × TrackerPtr δ) → ω → Prop) (F : Fault → ω → Prop)
    (hnew : ∀ done id todo w, newcomers s.pub (listed h s.world) = done ++ id :: todo → W done w →
      wp (DomainStatTracker.new h id.toUInt32) w (fun t w' => W (done ++ [id]) w' ∧ P id t) F)
    (hW : W [] (listing h s.world).afterList)
    (hVW : ∀ t, Polled h s t → W (newcomers s.pub (listed h s.world)) t.world →
      (∀ k ∈ newcomers s.pub (listed h s.world), ∀ tr,
        t.pub.trackers[k]? = some (.live tr) → P k tr) → V t [] t.world)
    (hstep : ∀ u, Polled h s u → ∀ done id t todo w,
      u.pub.trackers.toList = done ++ (id, .live t) :: todo → Tracks id t → V u done w →
      wp (t.update h) w (fun _ w' => V u (done ++ [(id, .live t)]) w') F) :
    wp (update slotFirst h) s
      (fun _ t => AfterUpdate h s t
        ∧ (∀ k ∈ newcomers s.pub (listed h s.world), ∃ tr, P k tr
          ∧ held t.pub k = some tr.domainUUID ∧ handle t.pub k = some tr.domain)
        ∧ ∃ u w', Polled h s u ∧ V u u.pub.trackers.toList w' ∧ t.world = (h.realtimeNow w').2)
      (UpdateFailed h s F) := by
  unfold update
  rw [wp_bind]
  refine wp_mono (wp_poll_polled hs W P F hnew hW) ?_ (fun e t ht => .poll ht)
  intro _ u hpost
  obtain ⟨hu, hw, hP⟩ := hpost
  simp only [wp_bind, wp_setAggStats, wp_get, wp_onHost, wp_ask, wp_log]
  refine wp_mono (wp_updateAll (s := { u with
      pub := { u.pub with aggStats := { u.pub.aggStats with domainStats := [] } } })
    hu.lockstep.live (V u) F (fun done id t todo w => hstep u hu done id t todo w) (hVW u hu hw hP))
    ?_ (fun e t ht => .tracker ht.1 ht.2)
  intro _ t hpost
  obtain ⟨href, hV⟩ := hpost
  -- what the poll left is still there: the loop only changed counters
  have hheld : ∀ id, held t.pub id = held u.pub id := href.same _ fun _ _ _ hu => hu
  have hhandle : ∀ id, handle t.pub id = handle u.pub id := href.same _ fun _ _ hd _ => hd
  have hhost : t.pub.aggStats.hostname = s.pub.aggStats.hostname :=
    href.hostname.trans (by rw [← hu.aggStats])
  refine ⟨⟨⟨fun id => ?_, href.live⟩, href.active.trans hu.active, hhost, ?_, ?_, ?_⟩, ?_,
    u, t.world, hu, hV, rfl⟩
  · show id ∈ t.pub.trackers ↔ id ∈ t.pub.active
    rw [href.mem id, href.active]; exact hu.lockstep.keys id
  · intro id ha hl
    have hsame := hu.kept id ha hl
    exact ⟨(hheld id).trans (look_congr hsame), (hhandle id).trans (look_congr hsame)⟩
  · show t.pub.aggStats.domainStats.map _ = _
    rw [href.stats, ← hu.active,
      ← Trees.keys_eq_toList (m := u.pub.trackers) hu.lockstep.keys, List.map_map]
    simp only [List.map_nil, List.nil_append]
    refine List.map_congr_left fun entry _ => ?_
    exact Prod.ext rfl (hheld entry.1).symm
  · show t.events ++ _ = _
    rw [href.events]
    show u.events ++ _ = _
    rw [hu.events, ← enrollEvents_congr t.pub (fun id _ => hheld id)]
    show _ ++ [Event.sent (.aggregate (aggregateKey t.pub.aggStats.hostname) _)] = _
    rw [hhost]
    rfl
  · intro k hk
    obtain ⟨tr, htr, _⟩ := hu.lockstep.exists_live
      (by rw [hu.active]; exact (mem_newcomers.mp hk).1)
    exact ⟨tr, hP k hk tr htr, (hheld k).trans (look_of_live htr),
      (hhandle k).trans (look_of_live htr)⟩

/-- The same with nothing known of the host. -/
theorem wp_update_any {slotFirst : Bool} {h : Host ω δ} {s : MonitorState ω δ}
    (hs : Lockstep s.pub) :
    wp (update slotFirst h) s (fun _ t => AfterUpdate h s t)
      (UpdateFailed h s fun _ _ => True) := by
  refine wp_mono (wp_update hs (fun _ _ => True) (fun _ _ => True) (fun _ _ _ => True)
    (fun _ _ => True) ?_ trivial (fun _ _ _ _ => trivial) ?_) (fun _ t ht => ht.1)
    (fun _ _ he => he)
  · intro _ _ _ w _ _
    exact wp_mono wp_new (fun _ _ _ => ⟨trivial, trivial⟩) (fun _ _ _ => trivial)
  · intro _ _ _ _ _ _ _ _ ht _
    exact wp_mono (wp_trackerUpdate ht) (fun _ _ _ => trivial) (fun _ _ _ => trivial)

/-! ## Reachable publishers -/

/-- Publishers between two updates, on any hosts of a kind. -/
inductive Reachable (slotFirst : Bool) (kind : Host ω δ → Prop) : Publisher δ → Prop where
  | init (gethostname : Option Bytes) (tov : Double) :
      Reachable slotFirst kind (Publisher.init gethostname tov)
  | update {pub : Publisher δ} {h : Host ω δ} (w : ω) {t : MonitorState ω δ} :
      Reachable slotFirst kind pub → kind h →
      update slotFirst h (pub.inWorld w) = .ok ⟨⟩ t → Reachable slotFirst kind t.pub

/-- The hosts that may answer anything. -/
def anyHost (_ : Host ω δ) : Prop := True

/-- **Every reachable publisher is in lockstep.** -/
theorem lockstep_reachable {slotFirst : Bool} {kind : Host ω δ → Prop} {pub : Publisher δ}
    (hr : Reachable slotFirst kind pub) : Lockstep pub := by
  induction hr with
  | init gethostname tov => exact lockstep_init gethostname tov
  | update w _ _ hrun ih => exact (wp_of_ok (wp_update_any ih) hrun).lockstep

end CloudMon.Proof
