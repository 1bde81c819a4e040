import CloudMon.Proof.Listing

/-!
# When a domain stops during an update

One update makes an unbounded number of libvirt calls, and a domain may stop
before any of them. Most failures are harmless: a failed `virDomainGetInfo` or
statistics call leaves a structure as it was. Two are not. A lookup that finds
nothing makes the tracker's constructor throw through the watcher's handler, and
a null XML string is read by `mxmlLoadString`.

So the update survives exactly when every new domain is there for its lookup and
every tracked domain for its XML call. Both moments can be counted out: the calls
of one update come in a fixed order.
-/

namespace CloudMon.Proof

open CloudMon LibvirtDomainStatPublisher Wp
open Std (ExtTreeMap ExtTreeSet)

variable {ω δ : Type}

/--
A hypervisor whose domains come and go: `tick` is what happens before a libvirt
call answers, `domain` which domain then runs under an id. What the counters and
the CPU call answer is left open, failures included.
-/
structure Vanishing (tick : ω → ω) (domain : ω → DomId → Option δ) (h : Host ω δ) : Prop where
  counts : ∀ w, ¬ (h.numOfDomains w).1 < 0 ∧ (h.numOfDomains w).2 = tick w
  lists : ∀ n w, (h.listDomains n w).2 = tick w
  looks : ∀ id w, h.lookupByID id w = (domain (tick w) id, tick w)
  names : ∀ d w, (h.getUUIDString d w).2 = w
  informs : ∀ d w, (h.getInfo d w).2 = tick w
  describes : ∀ d w, (h.getXMLDesc d w).2 = tick w
    ∧ ((h.getXMLDesc d w).1.isSome ↔ ∃ id, domain (tick w) id = some d)
  blocks : ∀ d path w, (h.blockStats d path w).2 = tick w
  interfaces : ∀ d path w, (h.interfaceStats d path w).2 = tick w
  allocates : ∀ w, (h.newStats w).1.isSome ∧ (h.newStats w).2 = w
  clock : ∀ w, (h.realtimeNow w).2 = w

section

variable {tick : ω → ω} {domain : ω → DomId → Option δ} {h : Host ω δ}

theorem Vanishing.afterList (hv : Vanishing tick domain h) (w : ω) :
    (listing h w).afterList = tick^[2] w := by
  show (h.listDomains _ (h.numOfDomains w).2).2 = _
  rw [hv.lists, (hv.counts w).2]; rfl

theorem Vanishing.num_nonneg (hv : Vanishing tick domain h) (w : ω) :
    ¬ (listing h w).num < 0 := (hv.counts w).1

/-- The constructor takes one step and needs its domain there. -/
theorem Vanishing.new_eq (hv : Vanishing tick domain h) (id : DomId) (w : ω) :
    wp (DomainStatTracker.new h id.toUInt32) w
      (fun t w' => w' = tick w ∧ domain (tick w) id = some t.domain)
      (fun _ _ => domain (tick w) id = none) := by
  unfold DomainStatTracker.new
  have hid : id.toUInt32.toInt32 = id := rfl
  simp only [wp_bind, wp_ask, hv.clock, hv.looks, hid]
  split
  · rename_i hnone; exact hnone
  · rename_i d hd
    simp only [wp_bind, wp_ask, hv.names]
    split
    · rename_i hnone
      have := (hv.allocates (tick w)).1
      rw [hnone] at this; cases this
    · exact ⟨(hv.allocates (tick w)).2, hd⟩

/-- A tracker's update takes four steps and needs its domain there at the second. -/
theorem Vanishing.update_eq (hv : Vanishing tick domain h) {id : DomId} {t : DomainStatTracker δ}
    (ht : Tracks id t) (hid : id ≠ 0) (w : ω) :
    wp (t.update h) w
      (fun _ w' => w' = tick^[4] w ∧ ∃ i, domain (tick^[2] w) i = some t.domain)
      (fun _ _ => ¬ ∃ i, domain (tick^[2] w) i = some t.domain) := by
  obtain ⟨info, hinfo⟩ := ht.sampled
  have hne : t.domainID ≠ 0 := by
    rw [ht.domainID]
    intro h0
    exact hid (congrArg UInt32.toInt32 h0)
  have hstart : (h.realtimeNow (h.getInfo t.domain w).2).2 = tick w := by
    rw [hv.clock, hv.informs]
  have hxml : (t.answers h w).1.xml = (h.getXMLDesc t.domain (tick w)).1 := by
    rw [← hstart]; rfl
  have hend : (t.answers h w).2 = tick^[4] w := by
    show (h.interfaceStats _ _ _).2 = _
    rw [hv.interfaces, hv.blocks, (hv.describes _ _).1, hstart]; rfl
  have hdesc := (hv.describes t.domain (tick w)).2
  unfold wp
  cases hx : (h.getXMLDesc t.domain (tick w)).1 with
  | none =>
      obtain ⟨w', hw'⟩ := DomainStatTracker.update_crash hne (hxml.trans hx)
      rw [hw']
      intro hrun
      have := hdesc.mpr hrun
      rw [hx] at this; cases this
  | some xml =>
      rw [DomainStatTracker.update_eq hne hinfo (hxml.trans hx)]
      exact ⟨hend, hdesc.mp (by rw [hx]; rfl)⟩

end

/-! ## The two moments that matter -/

section

variable (tick : ω → ω) (domain : ω → DomId → Option δ) (h : Host ω δ) (pub : Publisher δ) (w : ω)

/-- The domain behind the tracker `id` has in the update that starts in world `w`. -/
def trackedDomain (id : DomId) : Option δ :=
  if id ∈ pub.active then handle pub id
  else domain (tick^[3 + (newcomers pub (listed h w)).idxOf id] w) id

/-- The ids whose trackers ask the hypervisor anything. -/
def asking (ids : List DomId) : List DomId := ids.filter fun id => id ≠ 0

/-- The `i`-th of these new ids is there when it is looked up, the `3 + i`-th call. -/
def LookupsFind (ids : List DomId) : Prop :=
  ∀ i id, ids[i]? = some id → (domain (tick^[3 + i] w) id).isSome

/--
The domain tracked for the `k`-th of these ids is there for its XML call, the
second of that tracker's four.
-/
def XmlFinds (ids : List DomId) : Prop :=
  ∀ k id, ids[k]? = some id → ∃ d j, trackedDomain tick domain h pub w id = some d
    ∧ domain (tick^[2 + (newcomers pub (listed h w)).length + 4 * k + 2] w) j = some d

/-- Every domain the update needs is there when it is needed. -/
def StaysLongEnough : Prop :=
  LookupsFind tick domain w (newcomers pub (listed h w))
    ∧ XmlFinds tick domain h pub w (asking (listed h w).toList)

/-- The update returned and published every listed domain still running at its end. -/
def Survives (slotFirst : Bool) : Prop :=
  ∃ t, update slotFirst h (pub.inWorld w) = .ok ⟨⟩ t
    ∧ ∃ key agg, t.events.getLast? = some (.sent (.aggregate key agg))
      ∧ ∀ id ∈ listed h w, (domain t.world id).isSome →
        ∃ d ∈ agg.domainStats, d.domainId = id ∧ some d.domainUuid = held t.pub id

/-- What is known of the world once trackers for `done` exist. -/
def LookedUp (done : List DomId) (w' : ω) : Prop :=
  w' = tick^[2 + done.length] w ∧ LookupsFind tick domain w done

/-- What is known once the trackers `done` of the polled publisher had their turn. -/
def HadTurn (u : MonitorState ω δ) (done : List (DomId × TrackerPtr δ)) (w' : ω) : Prop :=
  w' = tick^[2 + (newcomers pub (listed h w)).length
      + 4 * (asking (done.map Prod.fst)).length] w
    ∧ LookupsFind tick domain w (newcomers pub (listed h w))
    ∧ (∀ id tr, u.pub.trackers[id]? = some (.live tr) →
        trackedDomain tick domain h pub w id = some tr.domain)
    ∧ XmlFinds tick domain h pub w (asking (done.map Prod.fst))

end

/-- Looking through a list one element longer. -/
theorem forall_getElem?_snoc {α : Type} {P : Nat → α → Prop} {xs : List α} {x : α} :
    (∀ i a, (xs ++ [x])[i]? = some a → P i a)
      ↔ (∀ i a, xs[i]? = some a → P i a) ∧ P xs.length x := by
  refine ⟨?_, ?_⟩
  · intro hall
    refine ⟨fun i a ha => hall i a ?_, hall _ _ (by simp)⟩
    rw [List.getElem?_append_left (List.getElem?_eq_some_iff.mp ha).1]; exact ha
  · intro hboth i a ha
    obtain ⟨hxs, hx⟩ := hboth
    rw [List.getElem?_append] at ha
    split at ha
    · exact hxs i a ha
    · rename_i hi
      obtain ⟨hlt, rfl⟩ := List.getElem?_eq_some_iff.mp ha
      have : i = xs.length := by simp at hlt; omega
      subst this
      simpa using hx

section

variable {tick : ω → ω} {domain : ω → DomId → Option δ} {h : Host ω δ} {pub : Publisher δ} {w : ω}

theorem newcomers_not_active {id : DomId} (hid : id ∈ newcomers pub (listed h w)) :
    id ∉ pub.active := (mem_newcomers.mp hid).2

/-- One step of the add loop. -/
theorem lookedUp_step (hv : Vanishing tick domain h) {done : List DomId} {id : DomId}
    {todo : List DomId} {w' : ω} (hnew : newcomers pub (listed h w) = done ++ id :: todo)
    (hw : LookedUp tick domain w done w') :
    wp (DomainStatTracker.new h id.toUInt32) w'
      (fun t w'' => LookedUp tick domain w (done ++ [id]) w''
        ∧ trackedDomain tick domain h pub w id = some t.domain)
      (fun _ _ => ¬ StaysLongEnough tick domain h pub w) := by
  obtain ⟨rfl, hfind⟩ := hw
  have hnext : tick (tick^[2 + done.length] w) = tick^[3 + done.length] w := by
    rw [← Function.iterate_succ_apply' tick]
    congr 1; omega
  refine wp_mono (hv.new_eq id _) ?_ ?_
  · intro t w'' hpost
    obtain ⟨rfl, hd⟩ := hpost
    rw [hnext] at hd ⊢
    refine ⟨⟨?_, forall_getElem?_snoc.mpr ⟨hfind, by rw [hd]; rfl⟩⟩, ?_⟩
    · rw [List.length_append, List.length_singleton]
      congr 1; omega
    · -- its place among the new ids says which call looked it up
      have hmem : id ∈ newcomers pub (listed h w) := by rw [hnew]; simp
      have hdone : id ∉ done := not_mem_done (newcomers_nodup pub (listed h w)) hnew
      have hidx : (newcomers pub (listed h w)).idxOf id = done.length := by
        rw [hnew, List.idxOf_append_of_notMem hdone, List.idxOf_cons_self, Nat.add_zero]
      rw [trackedDomain, if_neg (newcomers_not_active hmem), hidx, hd]
  · -- the constructor threw: the domain was not there for that call
    intro e w'' hnone hpost
    obtain ⟨hlook, _⟩ := hpost
    have := hlook done.length id (by rw [hnew]; simp)
    rw [← hnext, hnone] at this
    cases this

/-- The publishing loop visits the listed ids in order. -/
theorem polled_keys {s u : MonitorState ω δ} (hu : Polled h s u) :
    u.pub.trackers.toList.map Prod.fst = (listed h s.world).toList := by
  rw [← hu.active]
  exact Trees.keys_eq_toList hu.lockstep.keys

/-- One step of the publishing loop. -/
theorem hadTurn_step (hv : Vanishing tick domain h) {u : MonitorState ω δ}
    (hu : Polled h (pub.inWorld w) u) {done : List (DomId × TrackerPtr δ)} {id : DomId}
    {t : DomainStatTracker δ} {todo : List (DomId × TrackerPtr δ)} {w' : ω}
    (hall : u.pub.trackers.toList = done ++ (id, .live t) :: todo) (ht : Tracks id t)
    (hw : HadTurn tick domain h pub w u done w') :
    wp (t.update h) w' (fun _ w'' => HadTurn tick domain h pub w u (done ++ [(id, .live t)]) w'')
      (fun _ _ => ¬ StaysLongEnough tick domain h pub w) := by
  obtain ⟨rfl, hlook, htracked, hxml⟩ := hw
  have hp : u.pub.trackers[id]? = some (.live t) :=
    ExtTreeMap.mem_toList_iff_getElem?_eq_some.mp (by rw [hall]; simp)
  have hd := htracked id t hp
  have hkeys : (done ++ [(id, TrackerPtr.live t)]).map Prod.fst = done.map Prod.fst ++ [id] := by
    simp
  by_cases h0 : id = 0
  · -- domain 0 asks nothing and takes no step
    have htid : t.domainID = 0 := by rw [ht.domainID, h0]; rfl
    have hask : asking ((done ++ [(id, TrackerPtr.live t)]).map Prod.fst)
        = asking (done.map Prod.fst) := by simp [asking, h0]
    unfold wp
    rw [DomainStatTracker.update_zero htid]
    refine ⟨by rw [hask], hlook, htracked, by rw [hask]; exact hxml⟩
  · -- any other takes four, the second of them for the XML string
    have hask : asking ((done ++ [(id, TrackerPtr.live t)]).map Prod.fst)
        = asking (done.map Prod.fst) ++ [id] := by simp [asking, h0]
    refine wp_mono (hv.update_eq ht h0 _) ?_ ?_
    · intro _ w'' hpost
      obtain ⟨rfl, i, hi⟩ := hpost
      rw [← Function.iterate_add_apply] at hi ⊢
      refine ⟨?_, hlook, htracked, ?_⟩
      · rw [hask, List.length_append, List.length_singleton]
        congr 1; omega
      · rw [hask]
        refine forall_getElem?_snoc.mpr ⟨hxml, t.domain, i, hd, ?_⟩
        rw [← hi]; congr 2; omega
    · -- a null XML string: its domain was gone at the second of the four
      intro _ _ hno hpost
      obtain ⟨_, hfind⟩ := hpost
      have hask' : (asking (listed h w).toList)[(asking (done.map Prod.fst)).length]?
          = some id := by
        rw [← polled_keys hu, hall]
        simp [asking, h0]
      obtain ⟨d, i, hd', hi⟩ := hfind _ id hask'
      rw [hd] at hd'
      cases hd'
      refine hno ⟨i, ?_⟩
      rw [← Function.iterate_add_apply, ← hi]
      congr 2; omega

/-- **One update on a hypervisor whose domains come and go.** -/
theorem wp_update_vanishing (slotFirst : Bool) (hv : Vanishing tick domain h)
    (hs : Lockstep pub) :
    wp (update slotFirst h) (pub.inWorld w)
      (fun _ t => AfterUpdate h (pub.inWorld w) t ∧ StaysLongEnough tick domain h pub w)
      (fun _ _ => ¬ StaysLongEnough tick domain h pub w) := by
  refine wp_mono (wp_update (s := pub.inWorld w) hs (LookedUp tick domain w)
    (fun id t => trackedDomain tick domain h pub w id = some t.domain)
    (HadTurn tick domain h pub w) (fun _ _ => ¬ StaysLongEnough tick domain h pub w)
    (fun done id todo w' hnew hw => lookedUp_step hv hnew hw)
    ⟨hv.afterList w, fun i id hi => by simp at hi⟩ ?_
    (fun u hu done id t todo w' hall ht hw => hadTurn_step hv hu hall ht hw)) ?_ ?_
  · -- between the two loops: every tracker has the domain it was made for
    intro u hu hpost hP
    obtain ⟨hw', hlook⟩ := hpost
    refine ⟨hw', hlook, fun id tr htr => ?_, fun k id hk => by simp [asking] at hk⟩
    have hlisted : id ∈ listed h w := by
      have := (hu.lockstep.keys id).mp (Trees.mem_iff_getElem?.mpr ⟨_, htr⟩)
      rwa [hu.active] at this
    by_cases ha : id ∈ pub.active
    · -- an old tracker kept its handle through the poll
      rw [trackedDomain, if_pos ha]
      exact look_of_live ((hu.kept id ha hlisted).symm.trans htr)
    · exact hP id (mem_newcomers.mpr ⟨hlisted, ha⟩) tr htr
  · intro _ t hpost
    obtain ⟨hafter, _, u, w', hu, ⟨_, hlook, _, hxml⟩, _⟩ := hpost
    rw [polled_keys hu] at hxml
    exact ⟨hafter, hlook, hxml⟩
  · -- a count that is no length is ruled out, so only the two loops can throw
    intro e t hf
    exact hf.of_counted (hv.num_nonneg w)

end

/--
**An update survives exactly when nothing it needs vanishes too early**: every new
domain is there for its lookup, every tracked one for its XML call.
-/
theorem survives_iff (tick : ω → ω) (domain : ω → DomId → Option δ) (h : Host ω δ)
    (hv : Vanishing tick domain h) (slotFirst : Bool) (pub : Publisher δ)
    (hr : Reachable slotFirst (anyHost : Host ω δ → Prop) pub) (w : ω) :
    Survives domain h pub w slotFirst ↔ StaysLongEnough tick domain h pub w := by
  have hwp := wp_update_vanishing slotFirst (w := w) hv (lockstep_reachable hr)
  refine ⟨?_, ?_⟩
  · intro hsome
    obtain ⟨t, hrun, _⟩ := hsome
    exact (wp_of_ok hwp hrun).2
  · intro hstays
    obtain ⟨_, t, hrun, hafter, _⟩ := wp_noThrow
      (wp_mono hwp (fun _ _ ht => ht) (fun _ _ hno => hno hstays))
    refine ⟨t, hrun, _, _, by rw [hafter.events, List.getLast?_append]; rfl, fun id hid _ => ?_⟩
    have hmem : (id, held t.pub id) ∈ t.pub.aggStats.domainStats.map
        (fun d => (d.domainId, some d.domainUuid)) := by
      rw [hafter.stats]
      exact List.mem_map.mpr ⟨id, ExtTreeSet.mem_toList.mpr hid, rfl⟩
    obtain ⟨d, hd, he⟩ := List.mem_map.mp hmem
    exact ⟨d, hd, congrArg Prod.fst he, congrArg Prod.snd he⟩

/-! ## A domain that stops at the wrong moment -/

theorem mortalHost_vanishing (pick : Pick) :
    Vanishing Race.tick Race.domain (mortalHost pick) where
  counts _ := ⟨intCount_nonneg _, rfl⟩
  lists _ _ := rfl
  looks _ _ := rfl
  names _ _ := rfl
  informs _ _ := rfl
  describes d w := by
    refine ⟨rfl, ?_⟩
    show ((w.tick.domain d).map _).isSome ↔ _
    rw [Option.isSome_map]
    unfold Race.domain
    refine ⟨?_, ?_⟩
    · intro hd
      refine ⟨d, ?_⟩
      split
      · rfl
      · rename_i hno; simp [hno] at hd
    · intro hsome
      obtain ⟨i, hi⟩ := hsome
      split at hi
      · rename_i hmem; cases hi; simp [hmem]
      · cases hi
  blocks _ _ _ := rfl
  interfaces _ _ _ := rfl
  allocates _ := ⟨rfl, rfl⟩
  clock _ := rfl

/-- Domains 1 and 2 are listed; domain 1 stops before it is looked up. -/
def briefStart : Race where
  running := ExtTreeSet.ofList [(1 : DomId), 2]
  script := [[], [], [.stop 1]]

theorem survives_briefStart :
    Survives Race.domain (mortalHost .highestFirst) (Publisher.init none (.fin 0)) briefStart false
      ↔ StaysLongEnough Race.tick Race.domain (mortalHost .highestFirst)
          (Publisher.init none (.fin 0)) briefStart :=
  survives_iff Race.tick Race.domain _ (mortalHost_vanishing _) false _
    (.init none (.fin 0)) briefStart

/-- Domain 2 runs throughout and is not published: the constructor for 1 threw out of the update. -/
theorem not_survives_briefStart :
    ∃ pub : Publisher DomId, Reachable false (anyHost : Host Race DomId → Prop) pub
      ∧ 2 ∈ listed (mortalHost .highestFirst) briefStart ∧ briefStart.RunsThroughout 2
      ∧ ¬ Survives Race.domain (mortalHost .highestFirst) pub briefStart false := by
  refine ⟨Publisher.init none (.fin 0), .init none (.fin 0), by decide,
    ⟨by decide, by decide⟩, ?_⟩
  intro hsome
  obtain ⟨t, hrun, _⟩ := hsome
  have hstays := (wp_of_ok (wp_update_vanishing false (mortalHost_vanishing .highestFirst)
    (lockstep_init _ _)) hrun).2
  have hfound := hstays.1 0 1 (by decide)
  exact absurd hfound (by decide)

end CloudMon.Proof
