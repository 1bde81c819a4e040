import CloudMon.Lib.Follower
import CloudMon.Proof.Delivery
import CloudMon.Proof.Update

/-!
# What a host announces

A monitor publishes whole aggregates and, in between, the ends of single domains. The
two are not independent: a domain's end is published exactly when the next aggregate is
the first without its id, under the name the last aggregate had for it. So everything a
monitor publishes can be worked out from its aggregates alone, and an update that throws
adds no more than some of the ends it had got to.

Hence a client that adds the instances of every aggregate it hears and drops those that
are said to have ended knows exactly the instances of the latest aggregate, whenever it
began to listen, and although it never compares two aggregates.
-/

namespace CloudMon.Proof

open CloudMon LibvirtDomainStatPublisher Wp Follower
open Std (ExtTreeMap ExtTreeSet)

variable {ω δ : Type}

/-! ## What follows from the aggregates -/

/-- The end of a domain, under the name it was last published with. -/
def farewell (hostname : Bytes) (d : DomainStats) : Publication :=
  .termInstance (termInstanceIdent hostname d.domainUuid)

/-- The entries whose ids are not in the next aggregate. -/
def departed (old new : List DomainStats) : List DomainStats :=
  old.filter fun d => d.domainId ∉ new.map (·.domainId)

/-- Everything there is to publish, given the last entries and the aggregates to come. -/
def announcements (hostname : Bytes) :
    List DomainStats → List AggregateDomainStats → List Publication
  | _, [] => []
  | old, agg :: later => (departed old agg.domainStats).map (farewell hostname)
      ++ .aggregate (aggregateKey hostname) agg :: announcements hostname agg.domainStats later

/-- The entries of the last aggregate. -/
def lastStats : List DomainStats → List AggregateDomainStats → List DomainStats
  | old, [] => old
  | _, agg :: later => lastStats agg.domainStats later

/-- An id that stays in the aggregates keeps its name. -/
def Steady : List DomainStats → List AggregateDomainStats → Prop
  | _, [] => True
  | old, agg :: later => (∀ d ∈ old, ∀ d' ∈ agg.domainStats, d'.domainId = d.domainId →
      d'.domainUuid = d.domainUuid) ∧ Steady agg.domainStats later

theorem announcements_concat (hostname : Bytes) (old : List DomainStats)
    (aggs : List AggregateDomainStats) (agg : AggregateDomainStats) :
    announcements hostname old (aggs ++ [agg]) = announcements hostname old aggs
      ++ ((departed (lastStats old aggs) agg.domainStats).map (farewell hostname)
        ++ [.aggregate (aggregateKey hostname) agg]) := by
  induction aggs generalizing old with
  | nil => rfl
  | cons first aggs ih =>
      rw [List.cons_append, announcements, announcements, ih, lastStats]
      simp only [List.append_assoc, List.cons_append]

theorem lastStats_concat (old : List DomainStats) (aggs : List AggregateDomainStats)
    (agg : AggregateDomainStats) : lastStats old (aggs ++ [agg]) = agg.domainStats := by
  induction aggs generalizing old with
  | nil => rfl
  | cons first aggs ih => exact ih first.domainStats

theorem steady_concat {old : List DomainStats} {aggs : List AggregateDomainStats}
    {agg : AggregateDomainStats} (h : Steady old aggs)
    (hlast : ∀ d ∈ lastStats old aggs, ∀ d' ∈ agg.domainStats, d'.domainId = d.domainId →
      d'.domainUuid = d.domainUuid) : Steady old (aggs ++ [agg]) := by
  induction aggs generalizing old with
  | nil => exact ⟨hlast, trivial⟩
  | cons first aggs ih => exact ⟨h.1, ih h.2 hlast⟩

/-! ## One update -/

theorem published_append (a b : List Event) : published (a ++ b) = published a ++ published b :=
  List.filterMap_append

theorem published_retireEvents (pub : Publisher δ) (ids : List DomId) :
    published (retireEvents pub ids) = ids.map fun id =>
      .termInstance (termInstanceIdent pub.aggStats.hostname ((held pub id).getD [])) := by
  induction ids with
  | nil => rfl
  | cons id ids ih =>
      rw [retireEvents, List.flatMap_cons, published_append, List.map_cons, ← ih]
      rfl

/-- Lines about new domains are not sent to anyone. -/
theorem published_eq_nil {lines : List Event}
    (h : ∀ e ∈ lines, ∃ id, e = .appeared id ∨ ∃ uuid, e = .monitoring id uuid) :
    published lines = [] := by
  refine List.filterMap_eq_nil_iff.mpr fun e he => ?_
  obtain ⟨id, rfl | ⟨uuid, rfl⟩⟩ := h e he
  · rfl
  · rfl

theorem published_enrollEvents (pub : Publisher δ) (ids : List DomId) :
    published (enrollEvents pub ids) = [] := by
  refine published_eq_nil fun e he => ?_
  obtain ⟨id, _, he⟩ := List.mem_flatMap.mp he
  simp only [List.mem_cons, List.not_mem_nil, or_false] at he
  exact ⟨id, he.imp_right fun h => ⟨_, h⟩⟩

/-- Updating the trackers leaves nothing in the trail, not even when one of them throws. -/
theorem preserves_updateTrackers (h : Host ω δ) (events : List Event) :
    ∀ entries : List (DomId × TrackerPtr δ),
      Preserves (fun s => s.events = events) (entries.forM (updateTracker h))
  | [] => Preserves.pure _
  | (id, p) :: entries => by
      refine Preserves.bind ?_ fun _ => preserves_updateTrackers h events entries
      intro s hs
      cases p with
      | null => exact hs
      | dangling => exact hs
      | live t =>
          show wp (updateTracker h (id, .live t)) s _ _
          unfold updateTracker
          simp only [wp_bind, wp_deref_live, wp_onHost, wp_setTrackers, wp_setAggStats]
          unfold wp
          cases t.update h s.world with
          | ok r w => exact hs
          | error e w => exact hs

/-- **What an update has published by the time it ends**, whichever way. -/
theorem wp_update_published {slotFirst : Bool} {h : Host ω δ} {s : MonitorState ω δ}
    (hs : Lockstep s.pub) :
    wp (update slotFirst h) s (fun _ t => AfterUpdate h s t)
      (fun _ t => ∃ ids, ids.Sublist s.pub.active.toList ∧ published t.events
        = published s.events ++ published (retireEvents s.pub ids)) := by
  refine wp_mono (wp_and (wp_update_any hs) (?_ : wp _ _ (fun _ _ => True) _))
    (fun _ _ ht => ht.1) fun _ _ he => he.2
  have hgone : (gone s.pub (listed h s.world)).Sublist s.pub.active.toList :=
    List.filter_sublist
  unfold update
  rw [wp_bind]
  refine wp_mono (wp_poll_any hs) ?_ ?_
  · -- past the poll, nothing is published before the aggregate itself
    intro _ u hu
    have hevents : published u.events = published s.events
        ++ published (retireEvents s.pub (gone s.pub (listed h s.world))) := by
      rw [hu.events, published_append, published_append, published_enrollEvents, List.append_nil]
    simp only [wp_bind, wp_setAggStats, wp_get, wp_onHost, wp_ask, wp_log]
    refine wp_mono (preserves_updateTrackers h u.events _ _ rfl) (fun _ _ _ => trivial) ?_
    intro e t ht
    exact ⟨_, hgone, by rw [ht]; exact hevents⟩
  · intro e t hfailed
    cases hfailed with
    | array _ _ ht =>
        -- the poll threw at its start
        subst ht
        exact ⟨[], List.nil_sublist _, (List.append_nil _).symm⟩
    | constructor _ _ henroll =>
        -- the ends are out by then, and a new domain is only printed
        obtain ⟨tail, htail, hlines⟩ := henroll.events
        refine ⟨_, hgone, ?_⟩
        rw [htail, published_append, published_eq_nil hlines, List.append_nil]
        exact published_append _ _

/-! ## A publisher and its last aggregate -/

/-- An aggregate of a host, with no NUL in the name of a domain. -/
structure OfHost (host : Bytes) (agg : AggregateDomainStats) : Prop where
  hostname : agg.hostname = host
  uuids : ∀ d ∈ agg.domainStats, (0 : UInt8) ∉ d.domainUuid

/-- A publisher between two updates that has sent these aggregates. -/
structure Announced (host : Bytes) (pub : Publisher δ) (aggs : List AggregateDomainStats) :
    Prop where
  lockstep : Lockstep pub
  names : CleanNames host pub
  /-- The last entries are the trackers there are, under the names they hold. -/
  last : (lastStats [] aggs).map (fun d => (d.domainId, some d.domainUuid))
    = pub.active.toList.map fun id => (id, held pub id)
  steady : Steady [] aggs
  hosts : ∀ agg ∈ aggs, OfHost host agg

theorem announced_init (gethostname : Option Bytes) (tov : Double) :
    Announced (mHostname gethostname) (Publisher.init gethostname tov : Publisher δ) [] where
  lockstep := lockstep_init gethostname tov
  names := cleanNames_init gethostname tov
  last := by
    have hempty : (Publisher.init gethostname tov : Publisher δ).active.toList = [] := rfl
    rw [hempty]
    rfl
  steady := trivial
  hosts := by intro _ h; cases h

section Announced

variable {host : Bytes} {pub : Publisher δ} {aggs : List AggregateDomainStats}

/-- An entry of the last aggregate is a tracker. -/
theorem Announced.held_of_mem (h : Announced host pub aggs) {d : DomainStats}
    (hd : d ∈ lastStats [] aggs) : d.domainId ∈ pub.active ∧ held pub d.domainId
      = some d.domainUuid := by
  have hmem : (d.domainId, some d.domainUuid)
      ∈ pub.active.toList.map fun id => (id, held pub id) := by
    rw [← h.last]
    exact List.mem_map.mpr ⟨d, hd, rfl⟩
  obtain ⟨id, hid, heq⟩ := List.mem_map.mp hmem
  obtain ⟨rfl, hheld⟩ := Prod.mk.inj heq
  exact ⟨ExtTreeSet.mem_toList.mp hid, hheld⟩

/-- What retiring some ids publishes, read off the entries they have in the last aggregate. -/
theorem Announced.published_retire (h : Announced host pub aggs) {ids : List DomId}
    {entries : List DomainStats} (hentries : entries.map (fun d => (d.domainId, some d.domainUuid))
      = ids.map fun id => (id, held pub id)) :
    published (retireEvents pub ids) = entries.map (farewell host) := by
  have hends : ∀ entry : DomId × Option Bytes, Publication.termInstance
      (termInstanceIdent pub.aggStats.hostname (entry.2.getD []))
        = .termInstance (termInstanceIdent host (entry.2.getD [])) := by
    intro entry
    rw [h.names.hostname]
  calc published (retireEvents pub ids)
      = (ids.map fun id => (id, held pub id)).map fun entry =>
          .termInstance (termInstanceIdent pub.aggStats.hostname (entry.2.getD [])) := by
        rw [published_retireEvents, List.map_map]
        rfl
    _ = (entries.map fun d => (d.domainId, some d.domainUuid)).map fun entry =>
          .termInstance (termInstanceIdent host (entry.2.getD [])) := by
        rw [hentries]
        exact List.map_congr_left fun entry _ => hends entry
    _ = entries.map (farewell host) := by
        rw [List.map_map]
        rfl

/-- **An update that throws** adds ends of entries of the last aggregate, and nothing else. -/
theorem Announced.published_sublist (h : Announced host pub aggs) {ids : List DomId}
    (hids : ids.Sublist pub.active.toList) :
    ∃ cut : List DomainStats, cut.Sublist (lastStats [] aggs)
      ∧ published (retireEvents pub ids) = cut.map (farewell host) := by
  have hsub : (ids.map fun id => (id, held pub id)).Sublist
      ((lastStats [] aggs).map fun d => (d.domainId, some d.domainUuid)) := by
    rw [h.last]
    exact hids.map _
  obtain ⟨cut, hcut, heq⟩ := List.sublist_map_iff.mp hsub
  exact ⟨cut, hcut, h.published_retire heq.symm⟩

end Announced

/-- **An update that returns** publishes the ends of those its aggregate leaves out, and it. -/
theorem announced_step {h : Host ω δ} {s t : MonitorState ω δ} {host : Bytes}
    {aggs : List AggregateDomainStats} (hs : Announced host s.pub aggs)
    (hu : AfterUpdate h s t) (hnames : CleanNames host t.pub) :
    Announced host t.pub (aggs ++ [t.pub.aggStats])
      ∧ published t.events = published s.events
        ++ ((departed (lastStats [] aggs) t.pub.aggStats.domainStats).map (farewell host)
          ++ [.aggregate (aggregateKey host) t.pub.aggStats]) := by
  have hids : t.pub.aggStats.domainStats.map (·.domainId) = (listed h s.world).toList := by
    have := congrArg (List.map Prod.fst) hu.stats
    rw [List.map_map, List.map_map] at this
    simpa [Function.comp_def] using this
  have hheld : ∀ d ∈ t.pub.aggStats.domainStats,
      d.domainId ∈ listed h s.world ∧ held t.pub d.domainId = some d.domainUuid := by
    intro d hd
    have hmem : (d.domainId, some d.domainUuid)
        ∈ (listed h s.world).toList.map fun id => (id, held t.pub id) := by
      rw [← hu.stats]
      exact List.mem_map.mpr ⟨d, hd, rfl⟩
    obtain ⟨id, hid, hpair⟩ := List.mem_map.mp hmem
    obtain ⟨rfl, hname⟩ := Prod.mk.inj hpair
    exact ⟨ExtTreeSet.mem_toList.mp hid, hname⟩
  refine ⟨⟨hu.lockstep, hnames, ?_, steady_concat hs.steady ?_, ?_⟩, ?_⟩
  · rw [lastStats_concat, hu.stats, hu.active]
  · -- listed before and listed now: the tracker is the same one
    intro d hd d' hd' heq
    obtain ⟨hactive, hbefore⟩ := hs.held_of_mem hd
    obtain ⟨hlisted, hafter⟩ := hheld d' hd'
    rw [heq] at hlisted hafter
    have hsame := (hu.kept _ hactive hlisted).1
    exact Option.some.inj (hafter.symm.trans (hsame.trans hbefore))
  · intro agg hagg
    rcases List.mem_append.mp hagg with hagg | hagg
    · exact hs.hosts agg hagg
    · -- the new one has the names its trackers hold
      rw [List.mem_singleton.mp hagg]
      refine ⟨hnames.hostname, fun d hd => ?_⟩
      obtain ⟨tr, htr, _⟩ := hu.lockstep.exists_live (hu.active ▸ (hheld d hd).1)
      have hname := (hheld d hd).2
      rw [held_of_live htr] at hname
      rw [← Option.some.inj hname]
      exact hnames.uuids d.domainId tr htr
  · -- the trackers that are gone are the last aggregate's entries that are not listed now
    have hgone : (departed (lastStats [] aggs) t.pub.aggStats.domainStats).map
        (fun d => (d.domainId, some d.domainUuid))
        = (gone s.pub (listed h s.world)).map fun id => (id, held s.pub id) := by
      have hfilter := congrArg (List.filter fun entry : DomId × Option Bytes =>
        decide (entry.1 ∉ listed h s.world)) hs.last
      rw [List.filter_map, List.filter_map] at hfilter
      refine Eq.trans (congrArg (List.map _) ?_) hfilter
      refine List.filter_congr fun d _ => ?_
      rw [hids]
      simp
    rw [hu.events, published_append, published_append, published_append, published_enrollEvents,
      hs.published_retire hgone, hs.names.hostname, List.append_nil, List.append_assoc]
    rfl

/-! ## Runs of the whole system -/

/-- What is published between two starts: all of some aggregates, and a part of the next. -/
structure Account (host : Bytes) (ps : List Publication) (aggs : List AggregateDomainStats)
    (cut : List DomainStats) : Prop where
  sent : ps = announcements host [] aggs ++ cut.map (farewell host)
  /-- The part is some of the ends that an update had got to when it threw. -/
  ends : cut.Sublist (lastStats [] aggs)
  steady : Steady [] aggs
  hosts : ∀ agg ∈ aggs, OfHost host agg

/-- What a monitor has published by now. -/
structure Told (host : Bytes) (monitor : Monitor δ) (aggs : List AggregateDomainStats)
    (cut : List DomainStats) : Prop extends Account host monitor.sent aggs cut where
  whole : monitor.alive = true → cut = []

/-- A monitor that has published `past` before it was started, and has told the rest in order. -/
def Telling (host : Bytes) (monitor : Monitor δ) (past : List Publication) : Prop :=
  ∃ now aggs cut, monitor.sent = past ++ now ∧ Account host now aggs cut
    ∧ (monitor.alive = true → cut = [] ∧ Announced host monitor.pub aggs)

/-- A monitor that has just been started. -/
theorem telling_started (gethostname : Option Bytes) (tov : Double) (past : List Publication) :
    Telling (mHostname gethostname) (⟨Publisher.init gethostname tov, true, past⟩ : Monitor δ)
      past := by
  have hinit := announced_init (δ := δ) gethostname tov
  exact ⟨[], [], [], (List.append_nil _).symm,
    ⟨rfl, List.Sublist.refl _, trivial, hinit.hosts⟩, fun _ => ⟨rfl, hinit⟩⟩

section Runs

variable {μ ο : Type} [DecidableEq μ] {net : Network μ ο} {gethostname : μ → Option Bytes}
  {tov : μ → Double}

/-- **An update** goes on with what has been told. -/
theorem telling_update {s s' : System μ δ} (hstep : Update net s s') {m : μ} {host : Bytes}
    {past : List Publication} (h : Telling host (s.monitors m) past) :
    Telling host (s'.monitors m) past := by
  obtain ⟨now, aggs, cut, hsent, haccount, hann⟩ := h
  cases hstep with
  | returned m' slotFirst h w u halive hrun _ =>
      by_cases hm : m = m'
      · -- its own update: one more aggregate, behind the ends of those it leaves out
        subst hm
        obtain ⟨rfl, hbefore⟩ := hann halive
        have hu := wp_of_ok (wp_update_published hbefore.lockstep) hrun
        have hclean := wp_of_ok (wp_update_clean slotFirst h
          (s := (s.monitors m).pub.inWorld w) ⟨hbefore.names, nofun⟩) hrun
        obtain ⟨hafter, hpublished⟩ :=
          announced_step (s := (s.monitors m).pub.inWorld w) hbefore hu hclean.names
        have hmon : (s.afterUpdate net m u true).monitors m
            = ⟨u.pub, true, (s.monitors m).sent ++ published u.events⟩ :=
          Function.update_self ..
        rw [hmon]
        have hnow := haccount.sent
        rw [List.map_nil, List.append_nil] at hnow
        refine ⟨now ++ published u.events, _, [], ?_, ⟨?_, List.nil_sublist _, hafter.steady,
          hafter.hosts⟩, fun _ => ⟨rfl, hafter⟩⟩
        · rw [hsent, List.append_assoc]
        · rw [announcements_concat, List.map_nil, List.append_nil, hnow]
          exact congrArg _ hpublished
      · have hmon : (s.afterUpdate net m' u true).monitors m = s.monitors m :=
          Function.update_of_ne hm ..
        rw [hmon]
        exact ⟨now, aggs, cut, hsent, haccount, hann⟩
  | threw m' slotFirst h w e u halive hrun _ =>
      by_cases hm : m = m'
      · -- no aggregate comes of it, but it may have got to some of the ends
        subst hm
        obtain ⟨rfl, hbefore⟩ := hann halive
        obtain ⟨ids, hids, hpublished⟩ :=
          wp_of_error (wp_update_published hbefore.lockstep) hrun
        obtain ⟨cut', hcut', hends⟩ := hbefore.published_sublist hids
        have hmon : (s.afterUpdate net m u false).monitors m
            = ⟨u.pub, false, (s.monitors m).sent ++ published u.events⟩ :=
          Function.update_self ..
        rw [hmon]
        have hnow := haccount.sent
        rw [List.map_nil, List.append_nil] at hnow
        refine ⟨now ++ published u.events, aggs, cut', ?_, ⟨?_, hcut', haccount.steady,
          haccount.hosts⟩, nofun⟩
        · rw [hsent, List.append_assoc]
        · rw [hpublished, hends, hnow]
          rfl
      · have hmon : (s.afterUpdate net m' u false).monitors m = s.monitors m :=
          Function.update_of_ne hm ..
        rw [hmon]
        exact ⟨now, aggs, cut, hsent, haccount, hann⟩

/-- **Every step of the system keeps what has been told in order.** -/
theorem telling_of_runs {s : System μ δ} (hr : Runs net gethostname tov s) (m : μ) :
    Telling (mHostname (gethostname m)) (s.monitors m) [] := by
  induction hr with
  | init => exact telling_started _ _ _
  | update _ hstep ih => exact telling_update hstep ih
  | deliver _ hstep ih =>
      cases hstep with
      | turn sender m' frames rest upper _ _ => exact ih

/-- A monitor that has never been started again has told everything in order. -/
theorem Telling.told {host : Bytes} {monitor : Monitor δ} (h : Telling host monitor []) :
    ∃ aggs cut, Told host monitor aggs cut := by
  obtain ⟨now, aggs, cut, hsent, haccount, hann⟩ := h
  exact ⟨aggs, cut, hsent ▸ haccount, fun halive => (hann halive).1⟩

/--
**Everything published follows from the aggregates.** In every run of the system, on
whatever hypervisors, a monitor has published its aggregates, each right behind the ends
of the entries whose ids it is the first to leave out, under the names they had; an id
keeps its name for as long as it stays. One whose update has thrown may have published
the ends of some entries more.
-/
theorem sent_announced (net : Network μ ο) (gethostname : μ → Option Bytes) (tov : μ → Double)
    (s : System μ δ) (hr : Runs net gethostname tov s) (m : μ) :
    ∃ aggs cut, Told (mHostname (gethostname m)) (s.monitors m) aggs cut :=
  (telling_of_runs hr m).told

end Runs

/-! ## A client of the publications -/

/-- The instances of some entries, as their ends would name them. -/
def instances (host : Bytes) (entries : List DomainStats) : Finset Bytes :=
  (entries.map fun d => termInstanceIdent host d.domainUuid).toFinset

/-- What a client takes a publication to say of the instances there are. -/
def notice : Publication → Notice Bytes
  | .aggregate _ agg => .present (instances agg.hostname agg.domainStats)
  | .termInstance ident => .gone ident

theorem mem_instances {host : Bytes} {entries : List DomainStats} {ident : Bytes} :
    ident ∈ instances host entries
      ↔ ∃ d ∈ entries, termInstanceIdent host d.domainUuid = ident := by
  rw [instances, List.mem_toFinset, List.mem_map]

/-- **The publications are truthful.** Who is not in the next aggregate has been said to end. -/
theorem truthful_announcements {host : Bytes} {old : List DomainStats}
    {aggs : List AggregateDomainStats} (hsteady : Steady old aggs)
    (hhosts : ∀ agg ∈ aggs, OfHost host agg) :
    Truthful (instances host old) ((announcements host old aggs).map notice) := by
  induction aggs generalizing old with
  | nil => trivial
  | cons agg aggs ih =>
      have hhost := (hhosts agg (List.mem_cons_self ..)).hostname
      have hlater := ih hsteady.2 fun agg' hagg' => hhosts agg' (List.mem_cons_of_mem _ hagg')
      have hends : ((departed old agg.domainStats).map (farewell host)).map notice
          = ((departed old agg.domainStats).map fun d =>
              termInstanceIdent host d.domainUuid).map Notice.gone := by
        rw [List.map_map, List.map_map]
        rfl
      rw [announcements, List.map_append, List.map_cons, hends, notice, hhost]
      refine truthful_gone_present (fun ident hident => ?_) hlater
      obtain ⟨d, hd, rfl⟩ := mem_instances.mp hident
      by_cases hstays : d.domainId ∈ agg.domainStats.map (·.domainId)
      · -- still listed, and under the same name
        obtain ⟨d', hd', heq⟩ := List.mem_map.mp hstays
        refine Or.inr (mem_instances.mpr ⟨d', hd', ?_⟩)
        rw [hsteady.1 d hd d' hd' heq]
      · refine Or.inl (List.mem_map.mpr ⟨d, ?_, rfl⟩)
        exact List.mem_filter.mpr ⟨hd, decide_eq_true hstays⟩

/-- The ends an update had got to mislead nobody. -/
theorem Account.truthful {host : Bytes} {ps : List Publication} {aggs : List AggregateDomainStats}
    {cut : List DomainStats} (h : Account host ps aggs cut) : Truthful ∅ (ps.map notice) := by
  have hcut : (cut.map (farewell host)).map notice
      = (cut.map fun d => termInstanceIdent host d.domainUuid).map Notice.gone := by
    rw [List.map_map, List.map_map]
    rfl
  rw [h.sent, List.map_append, hcut]
  exact truthful_append.mpr ⟨truthful_announcements h.steady h.hosts, truthful_gone _ _⟩

/--
**A client knows the instances.** It may begin to listen anywhere in what a monitor
publishes in a run of the system, in the middle of an update, too: after every aggregate
from then on, what it has been told of and not told the end of is exactly what that
aggregate lists.
-/
theorem client_knows {μ ο : Type} [DecidableEq μ] (net : Network μ ο)
    (gethostname : μ → Option Bytes) (tov : μ → Double) (s : System μ δ)
    (hr : Runs net gethostname tov s) (m : μ) (missed heard later : List Publication) (key : Bytes)
    (agg : AggregateDomainStats)
    (hsent : (s.monitors m).sent = missed ++ heard ++ .aggregate key agg :: later) :
    ((heard ++ [Publication.aggregate key agg]).map notice).foldl hear ∅
      = instances agg.hostname agg.domainStats := by
  obtain ⟨aggs, cut, htold⟩ := (telling_of_runs hr m).told
  have htruth := htold.truthful
  rw [hsent, List.map_append, List.map_append, List.map_cons] at htruth
  rw [List.map_append]
  exact foldl_present htruth

/-! ## A domain that comes and goes -/

/-- What the monitor publishes once the one domain has stopped. -/
def noDomain : AggregateDomainStats := { oneDomain with domainStats := [] }

def noDomainPacked : Bytes :=
  [0x93, 0xcb, 0, 0, 0, 0, 0, 0, 0, 0, 0xac] ++ bytes "unknown-host" ++ [0x90]

/-- msgpack, on short strings and on the two aggregates. -/
def comeAndGoMsgpack : Msgpack (Bytes ⊕ AggregateDomainStats) where
  packString s := (0xa0 + UInt8.ofNat s.length) :: s
  packAggregate agg :=
    if agg = oneDomain then oneDomainPacked else if agg = noDomain then noDomainPacked else []
  unpack b :=
    if b = oneDomainPacked then some (.inr oneDomain)
    else if b = noDomainPacked then some (.inr noDomain)
    else match b with
      | [] => none
      | len :: s =>
        if s.length < 32 ∧ len = 0xa0 + UInt8.ofNat s.length then some (.inl s) else none
  toString := Sum.getLeft?
  toAggregate := Sum.getRight?

/-- A basic receiver with one monitor. -/
def noRelay : Network Unit (Bytes ⊕ AggregateDomainStats) where
  mp := comeAndGoMsgpack
  hops := 0
  entry _ := 0
  entry_le _ := by decide

/-- The second update, the domain being gone. -/
def secondUpdate : MonitorState Unit DomId :=
  match LibvirtDomainStatPublisher.update false (fixedHost Unit [])
    (firstUpdate.pub.inWorld ()) with
  | .ok _ u => u
  | .error _ u => u

theorem published_secondUpdate : published secondUpdate.events
    = [.termInstance (bytes "servers.unknown-host.uuid-1"),
      .aggregate (bytes "monitor.servers.unknown-host") noDomain] := by
  decide +kernel

/-- The system after one update, and after two. -/
def afterFirst : System Unit DomId :=
  (System.init (fun _ => none) fun _ => .fin 0).afterUpdate noRelay () firstUpdate true

def afterSecond : System Unit DomId := afterFirst.afterUpdate noRelay () secondUpdate true

theorem runs_afterFirst : Runs noRelay (fun _ => none) (fun _ => .fin 0) afterFirst := by
  refine .update .init (.returned () false (fixedHost Unit [1]) () firstUpdate rfl rfl ?_)
  intro p hp
  rw [published_firstUpdate, List.mem_singleton] at hp
  subst hp
  exact ⟨by decide +kernel, by decide +kernel⟩

theorem runs_afterSecond : Runs noRelay (fun _ => none) (fun _ => .fin 0) afterSecond := by
  refine runs_afterFirst.update
    (.returned () false (fixedHost Unit []) () secondUpdate rfl rfl ?_)
  intro p hp
  rw [published_secondUpdate, List.mem_cons, List.mem_singleton] at hp
  rcases hp with rfl | rfl
  · exact ⟨by decide +kernel, by decide +kernel⟩
  · exact ⟨by decide +kernel, by decide +kernel⟩

theorem sent_afterSecond : (afterSecond.monitors ()).sent
    = [.aggregate (bytes "monitor.servers.unknown-host") oneDomain,
      .termInstance (bytes "servers.unknown-host.uuid-1"),
      .aggregate (bytes "monitor.servers.unknown-host") noDomain] := by
  show ([] ++ published firstUpdate.events) ++ published secondUpdate.events = _
  rw [published_firstUpdate, published_secondUpdate]
  rfl

/-- The end of the domain comes between the aggregates. -/
theorem sent_announced_afterSecond : ∃ aggs cut,
    Told (bytes "unknown-host") (afterSecond.monitors ()) aggs cut :=
  sent_announced noRelay (fun _ => none) (fun _ => .fin 0) afterSecond runs_afterSecond ()

/-- A client that has heard of the domain drops it, and one that comes later never hears of it. -/
theorem client_knows_afterSecond :
    (([.aggregate (bytes "monitor.servers.unknown-host") oneDomain,
        .termInstance (bytes "servers.unknown-host.uuid-1"),
        .aggregate (bytes "monitor.servers.unknown-host") noDomain] :
          List Publication).map notice).foldl hear ∅ = ∅
      ∧ (([.termInstance (bytes "servers.unknown-host.uuid-1"),
        .aggregate (bytes "monitor.servers.unknown-host") noDomain] :
          List Publication).map notice).foldl hear ∅ = ∅ :=
  ⟨client_knows noRelay (fun _ => none) (fun _ => .fin 0) afterSecond runs_afterSecond () []
      [_, _] [] _ noDomain sent_afterSecond,
    client_knows noRelay (fun _ => none) (fun _ => .fin 0) afterSecond runs_afterSecond () [_]
      [_] [] _ noDomain sent_afterSecond⟩

end CloudMon.Proof
