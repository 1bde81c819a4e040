import CloudMon.Lib.Trees
import CloudMon.Monitor.Publisher

/-!
# What one poll does

`poll` is two loops over set differences, each calling a handler that edits the
tracker map. Between two polls the map's keys are exactly the watcher's set and
every entry points to a living tracker. That is enough to say what the remove
loop does without running it: it forgets the entries that were not listed, and
says so once for each. The add loop is less tame, because each tracker's
constructor asks the hypervisor and may throw; what it leaves behind is described
for both ways out.
-/

namespace CloudMon.Proof

open CloudMon LibvirtDomainStatPublisher Wp
open Std (ExtTreeMap ExtTreeSet)

variable {ω δ : Type}

/-! ## The pieces of the program, as rewriting rules -/

section Rules

variable {s : MonitorState ω δ} {E : Fault → MonitorState ω δ → Prop}

@[simp] theorem wp_onHost {α : Type} {x : EStateM Fault ω α} {Q : α → MonitorState ω δ → Prop} :
    wp (onHost x) s Q E
      ↔ wp x s.world (fun a w => Q a { s with world := w }) (fun e w => E e { s with world := w })
      := by
  unfold wp onHost
  cases x s.world <;> rfl

variable {Q : PUnit → MonitorState ω δ → Prop}

@[simp] theorem wp_log {e : Event} :
    wp (log e) s Q E ↔ Q ⟨⟩ { s with events := s.events ++ [e] } := Iff.rfl

@[simp] theorem wp_setTrackers
    {f : ExtTreeMap DomId (TrackerPtr δ) → ExtTreeMap DomId (TrackerPtr δ)} :
    wp (setTrackers f) s Q E
      ↔ Q ⟨⟩ { s with pub := { s.pub with trackers := f s.pub.trackers } } := Iff.rfl

@[simp] theorem wp_setAggStats {f : AggregateDomainStats → AggregateDomainStats} :
    wp (setAggStats f) s Q E
      ↔ Q ⟨⟩ { s with pub := { s.pub with aggStats := f s.pub.aggStats } } := Iff.rfl

@[simp] theorem wp_deref_live {t : DomainStatTracker δ}
    {Q : DomainStatTracker δ → MonitorState ω δ → Prop} :
    wp (TrackerPtr.deref (.live t)) s Q E ↔ Q t s := Iff.rfl

@[simp] theorem wp_delete_live {t : DomainStatTracker δ}
    {Q : TrackerPtr δ → MonitorState ω δ → Prop} :
    wp (TrackerPtr.delete (.live t)) s Q E ↔ Q .dangling s := Iff.rfl

end Rules

/-! ## The invariant between polls -/

/-- A tracker in working order for domain `id`. -/
structure Tracks (id : DomId) (t : DomainStatTracker δ) : Prop where
  domainID : t.domainID = id.toUInt32
  /-- The structure behind `m_domainInfo` exists, so the first-update branch is never taken. -/
  sampled : ∃ info, t.domainInfo = some info

/-- Every map entry points to a living tracker of its own domain. -/
def AllLive (m : ExtTreeMap DomId (TrackerPtr δ)) : Prop :=
  ∀ id p, m[id]? = some p → ∃ t, p = .live t ∧ Tracks id t

/-- **Watcher and publisher in step.** -/
structure Lockstep (pub : Publisher δ) : Prop where
  keys : ∀ id, id ∈ pub.trackers ↔ id ∈ pub.active
  live : AllLive pub.trackers

theorem lockstep_init (gethostname : Option Bytes) (tov : Double) :
    Lockstep (Publisher.init gethostname tov : Publisher δ) where
  keys := by intro id; simp [Publisher.init]
  live := by intro id p h; simp [Publisher.init] at h

/-- Something about the tracker of a domain, if it has one. -/
def look {α : Type} (f : DomainStatTracker δ → α) (pub : Publisher δ) (id : DomId) : Option α :=
  match pub.trackers[id]? with
  | some (.live t) => some (f t)
  | _ => none

/-- The uuid under which a domain is published. -/
def held (pub : Publisher δ) (id : DomId) : Option Bytes := look (·.domainUUID) pub id

/-- The libvirt handle a domain's tracker asks through. -/
def handle (pub : Publisher δ) (id : DomId) : Option δ := look (·.domain) pub id

theorem look_of_live {α : Type} {f : DomainStatTracker δ → α} {pub : Publisher δ} {id : DomId}
    {t : DomainStatTracker δ} (h : pub.trackers[id]? = some (.live t)) :
    look f pub id = some (f t) := by
  unfold look; rw [h]

theorem look_congr {α : Type} {f : DomainStatTracker δ → α} {pub pub' : Publisher δ} {id : DomId}
    (h : pub'.trackers[id]? = pub.trackers[id]?) : look f pub' id = look f pub id := by
  unfold look; rw [h]

theorem held_of_live {pub : Publisher δ} {id : DomId} {t : DomainStatTracker δ}
    (h : pub.trackers[id]? = some (.live t)) : held pub id = some t.domainUUID := look_of_live h

theorem held_congr {pub pub' : Publisher δ} {id : DomId}
    (h : pub'.trackers[id]? = pub.trackers[id]?) : held pub' id = held pub id := look_congr h

theorem Lockstep.exists_live {pub : Publisher δ} (h : Lockstep pub) {id : DomId}
    (hid : id ∈ pub.active) : ∃ t, pub.trackers[id]? = some (.live t) ∧ Tracks id t := by
  obtain ⟨p, hp⟩ := Trees.mem_iff_getElem?.mp ((h.keys id).mpr hid)
  obtain ⟨t, rfl, ht⟩ := h.live id p hp
  exact ⟨t, hp, ht⟩

theorem Lockstep.held_isSome {pub : Publisher δ} (h : Lockstep pub) (id : DomId) :
    (held pub id).isSome ↔ id ∈ pub.active := by
  refine ⟨?_, ?_⟩
  · intro hh
    refine (h.keys id).mp (Trees.mem_iff_getElem?.mpr ?_)
    unfold held look at hh
    cases hp : pub.trackers[id]? with
    | none => rw [hp] at hh; simp at hh
    | some p => exact ⟨p, rfl⟩
  · intro hid
    obtain ⟨t, ht, _⟩ := h.exists_live hid
    rw [held_of_live ht]; rfl

/-! ## The remove loop -/

/-- The remove handler, with the line printed before it. -/
def retire (id : DomId) : MonitorM ω δ PUnit := do
  log (.disappeared id)
  removeStatTracker id

/-- What retiring `ids` leaves in the trail. -/
def retireEvents (pub : Publisher δ) (ids : List DomId) : List Event :=
  ids.flatMap fun id => [.disappeared id,
    .sent (.termInstance (termInstanceIdent pub.aggStats.hostname ((held pub id).getD [])))]

theorem wp_retire {s : MonitorState ω δ} {id : DomId} {t : DomainStatTracker δ}
    {Q : PUnit → MonitorState ω δ → Prop} {E : Fault → MonitorState ω δ → Prop}
    (ht : s.pub.trackers[id]? = some (.live t)) :
    wp (retire id) s Q E
      ↔ Q ⟨⟩ { s with
          pub := { s.pub with trackers := s.pub.trackers.erase id }
          events := s.events ++ [.disappeared id,
            .sent (.termInstance (termInstanceIdent s.pub.aggStats.hostname t.domainUUID))] } := by
  simp [retire, removeStatTracker, ht]

/-- The ids that were watched and are no longer listed. -/
def gone (pub : Publisher δ) (listed : ExtTreeSet DomId) : List DomId :=
  pub.active.toList.filter fun id => id ∉ listed

/-- The ids that are listed and were not watched. -/
def newcomers (pub : Publisher δ) (listed : ExtTreeSet DomId) : List DomId :=
  listed.toList.filter fun id => id ∉ pub.active

theorem mem_gone {pub : Publisher δ} {listed : ExtTreeSet DomId} {id : DomId} :
    id ∈ gone pub listed ↔ id ∈ pub.active ∧ id ∉ listed := by
  simp [gone, ExtTreeSet.mem_toList]

theorem mem_newcomers {pub : Publisher δ} {listed : ExtTreeSet DomId} {id : DomId} :
    id ∈ newcomers pub listed ↔ id ∈ listed ∧ id ∉ pub.active := by
  simp [newcomers, ExtTreeSet.mem_toList]

theorem gone_nodup (pub : Publisher δ) (listed : ExtTreeSet DomId) : (gone pub listed).Nodup :=
  Trees.set_nodup.filter _

theorem newcomers_nodup (pub : Publisher δ) (listed : ExtTreeSet DomId) :
    (newcomers pub listed).Nodup := Trees.set_nodup.filter _

/-- The publisher once the unlisted domains are gone. -/
def retired (pub : Publisher δ) (listed : ExtTreeSet DomId) : Publisher δ :=
  { pub with trackers := pub.trackers.filter fun id _ => id ∈ listed }

theorem retired_getElem? {pub : Publisher δ} {listed : ExtTreeSet DomId} {id : DomId} :
    (retired pub listed).trackers[id]? = if id ∈ listed then pub.trackers[id]? else none := by
  unfold retired
  rw [ExtTreeMap.getElem?_filter']
  by_cases h : id ∈ listed
  · rw [if_pos h]; cases hp : pub.trackers[id]? <;> simp [h]
  · rw [if_neg h]; cases hp : pub.trackers[id]? <;> simp [h]

/-- **The remove loop.** Under lockstep it never meets an unknown or a null entry. -/
theorem wp_retireAll {s : MonitorState ω δ} (hs : Lockstep s.pub) (listed : ExtTreeSet DomId)
    {Q : PUnit → MonitorState ω δ → Prop} {E : Fault → MonitorState ω δ → Prop}
    (hQ : Q ⟨⟩ { s with
      pub := retired s.pub listed
      events := s.events ++ retireEvents s.pub (gone s.pub listed) }) :
    wp ((gone s.pub listed).forM retire) s Q E := by
  -- after the ids in `done`, the map is the old one without them
  let before (done : List DomId) : MonitorState ω δ :=
    { s with
      pub := { s.pub with trackers := s.pub.trackers.filter fun id _ => id ∉ done }
      events := s.events ++ retireEvents s.pub done }
  have hlook : ∀ done id, (before done).pub.trackers[id]?
      = if id ∈ done then none else s.pub.trackers[id]? := by
    intro done id
    show (s.pub.trackers.filter fun id _ => decide (id ∉ done))[id]? = _
    rw [ExtTreeMap.getElem?_filter']
    by_cases h : id ∈ done
    · rw [if_pos h]; cases hp : s.pub.trackers[id]? <;> simp [h]
    · rw [if_neg h]; cases hp : s.pub.trackers[id]? <;> simp [h]
  have hstart : s = before [] := by
    have : (before []).pub.trackers = s.pub.trackers :=
      ExtTreeMap.ext_getElem? fun id => by rw [hlook]; simp
    show s = { s with pub := { s.pub with trackers := (before []).pub.trackers }, events := _ }
    rw [this]; simp [retireEvents]
  have hend : before (gone s.pub listed) = { s with
      pub := retired s.pub listed
      events := s.events ++ retireEvents s.pub (gone s.pub listed) } := by
    have : (before (gone s.pub listed)).pub.trackers = (retired s.pub listed).trackers := by
      refine ExtTreeMap.ext_getElem? fun id => ?_
      rw [hlook, retired_getElem?]
      by_cases hl : id ∈ listed
      · rw [if_neg (fun h => (mem_gone.mp h).2 hl), if_pos hl]
      · rw [if_neg hl]
        split
        · rfl
        · rename_i hg
          refine Trees.getElem?_eq_none.mpr fun hk => hg (mem_gone.mpr ⟨?_, hl⟩)
          exact (hs.keys id).mp hk
    show { s with pub := { s.pub with trackers := (before _).pub.trackers }, events := _ } = _
    rw [this]; rfl
  refine wp_mono (wp_forM (fun done t => t = before done) ?_ hstart)
    (fun _ t ht => by rw [ht, hend]; exact hQ) (fun _ _ he => he)
  intro done id todo t hxs ht
  have hmem : id ∈ gone s.pub listed := by rw [hxs]; simp
  -- each id is retired once, so its entry is still there
  have hdone : id ∉ done := not_mem_done (gone_nodup s.pub listed) hxs
  obtain ⟨tr, htr, _⟩ := hs.exists_live (mem_gone.mp hmem).1
  have hcur : (before done).pub.trackers[id]? = some (.live tr) := by
    rw [hlook, if_neg hdone]; exact htr
  subst ht
  rw [wp_retire hcur]
  have htrack : (before done).pub.trackers.erase id = (before (done ++ [id])).pub.trackers := by
    refine ExtTreeMap.ext_getElem? fun k => ?_
    rw [Trees.getElem?_erase, hlook, hlook]
    by_cases hk : id = k
    · subst hk; simp
    · have : k ≠ id := fun h => hk h.symm
      simp [hk, this]
  rw [htrack]
  simp [before, retireEvents, held_of_live htr]

/-! ## The add loop -/

/-- The add handler, with the line printed before it. -/
def enroll (slotFirst : Bool) (h : Host ω δ) (id : DomId) : MonitorM ω δ PUnit := do
  log (.appeared id)
  addStatTracker slotFirst h id

/-- What enrolling `ids` leaves in the trail. -/
def enrollEvents (pub : Publisher δ) (ids : List DomId) : List Event :=
  ids.flatMap fun id => [.appeared id, .monitoring id ((held pub id).getD [])]

/-- The constructor, on any host: a tracker in working order, or one of its two exceptions. -/
theorem wp_new {h : Host ω δ} {id : DomId} {w : ω} :
    wp (DomainStatTracker.new h id.toUInt32) w (fun t _ => Tracks id t)
      (fun e _ => e = .runtimeError "can't find domain with given ID" ∨ e = .badAlloc) := by
  unfold DomainStatTracker.new
  simp only [wp_bind, wp_ask]
  split
  · simp
  · simp only [wp_bind, wp_ask]
    split
    · simp
    · exact ⟨rfl, _, rfl⟩

theorem wp_enroll {slotFirst : Bool} {h : Host ω δ} {s : MonitorState ω δ} {id : DomId}
    {Q : PUnit → MonitorState ω δ → Prop} {E : Fault → MonitorState ω δ → Prop}
    (hno : s.pub.trackers[id]? = none) :
    wp (enroll slotFirst h id) s Q E
      ↔ wp (DomainStatTracker.new h id.toUInt32) s.world
          (fun t w => Q ⟨⟩ {
            pub := { s.pub with trackers := s.pub.trackers.insert id (.live t) }
            world := w
            events := s.events ++ [.appeared id, .monitoring id t.domainUUID] })
          (fun e w => E e {
            pub := { s.pub with trackers :=
              if slotFirst then s.pub.trackers.insert id .null else s.pub.trackers }
            world := w
            events := s.events ++ [.appeared id] }) := by
  have hmem : id ∉ s.pub.trackers := Trees.getElem?_eq_none.mp hno
  cases slotFirst with
  | false => simp [enroll, addStatTracker, hno]
  | true => simp [enroll, addStatTracker, hmem, Trees.insert_insert]

/-- The publisher after trackers were made for `ids`. -/
structure Enrolled (pub pub' : Publisher δ) (ids : List DomId) : Prop where
  active : pub'.active = pub.active
  aggStats : pub'.aggStats = pub.aggStats
  old : ∀ k, k ∉ ids → pub'.trackers[k]? = pub.trackers[k]?
  new : ∀ k ∈ ids, ∃ t, pub'.trackers[k]? = some (.live t) ∧ Tracks k t

/-- What is left when a constructor throws halfway through `ids`. -/
structure EnrollFailed (s s' : MonitorState ω δ) (ids : List DomId) : Prop where
  active : s'.pub.active = s.pub.active
  aggStats : s'.pub.aggStats = s.pub.aggStats
  old : ∀ k, k ∉ ids → s'.pub.trackers[k]? = s.pub.trackers[k]?
  /-- The trail has only gained lines about new domains. -/
  events : ∃ tail, s'.events = s.events ++ tail ∧
    ∀ e ∈ tail, ∃ id, e = .appeared id ∨ ∃ uuid, e = .monitoring id uuid

theorem enrollEvents_snoc (pub : Publisher δ) {pub' : Publisher δ} {ids : List DomId} {id : DomId}
    {t : DomainStatTracker δ} (hid : pub'.trackers[id]? = some (.live t))
    (hold : ∀ k ∈ ids, pub'.trackers[k]? = pub.trackers[k]?) :
    enrollEvents pub' (ids ++ [id])
      = enrollEvents pub ids ++ [.appeared id, .monitoring id t.domainUUID] := by
  unfold enrollEvents
  rw [List.flatMap_append]
  congr 1
  · refine List.flatMap_congr fun k hk => ?_
    rw [held_congr (hold k hk)]
  · simp [held_of_live hid]

/--
**The add loop.** `W done` is what the caller knows of the world once trackers
for `done` exist, `P` what it wants to know of each tracker, and `F` of the world
in which a constructor threw.
-/
theorem wp_enrollAll {slotFirst : Bool} {h : Host ω δ} {s : MonitorState ω δ} {ids : List DomId}
    (hnd : ids.Nodup) (hno : ∀ id ∈ ids, s.pub.trackers[id]? = none)
    (W : List DomId → ω → Prop) (P : DomId → DomainStatTracker δ → Prop) (F : Fault → ω → Prop)
    (hnew : ∀ done id todo w, ids = done ++ id :: todo → W done w →
      wp (DomainStatTracker.new h id.toUInt32) w (fun t w' => W (done ++ [id]) w' ∧ P id t) F)
    (hW : W [] s.world) :
    wp (ids.forM (enroll slotFirst h)) s
      (fun _ s' => W ids s'.world ∧ Enrolled s.pub s'.pub ids
        ∧ (∀ k ∈ ids, ∀ t, s'.pub.trackers[k]? = some (.live t) → P k t)
        ∧ s'.events = s.events ++ enrollEvents s'.pub ids)
      (fun e s' => F e s'.world ∧ EnrollFailed s s' ids) := by
  refine wp_forM (fun done (s' : MonitorState ω δ) => W done s'.world ∧ Enrolled s.pub s'.pub done
        ∧ (∀ k ∈ done, ∀ t, s'.pub.trackers[k]? = some (.live t) → P k t)
        ∧ s'.events = s.events ++ enrollEvents s'.pub done) ?_
    ⟨hW, ⟨rfl, rfl, fun _ _ => rfl, by simp⟩, by simp, by simp [enrollEvents]⟩
  intro done id todo t hxs hinv
  obtain ⟨hw, hadm, hP, hev⟩ := hinv
  have hdone : id ∉ done := not_mem_done hnd hxs
  have hcur : t.pub.trackers[id]? = none := by
    rw [hadm.old id hdone]; exact hno id (by rw [hxs]; simp)
  rw [wp_enroll hcur]
  refine wp_mono (wp_and (hnew done id todo t.world hxs hw) wp_new) ?_ ?_
  · -- the constructor returned: only its own slot changes
    intro tr w' hpost
    obtain ⟨⟨hw', hPt⟩, htr⟩ := hpost
    have hother : ∀ k ∈ done,
        (t.pub.trackers.insert id (.live tr))[k]? = t.pub.trackers[k]? := by
      intro k hk
      rw [Trees.getElem?_insert, if_neg (fun he : id = k => hdone (he ▸ hk))]
    have hself : (t.pub.trackers.insert id (.live tr))[id]? = some (.live tr) := by
      rw [Trees.getElem?_insert, if_pos rfl]
    refine ⟨hw', ⟨hadm.active, hadm.aggStats, ?_, ?_⟩, ?_, ?_⟩
    · intro k hk
      rw [List.mem_append, not_or, List.mem_singleton] at hk
      show (t.pub.trackers.insert id (.live tr))[k]? = _
      rw [Trees.getElem?_insert, if_neg (fun he => hk.2 he.symm), hadm.old k hk.1]
    · intro k hk
      rcases List.mem_append.mp hk with hk | hk
      · obtain ⟨t', ht', htr'⟩ := hadm.new k hk
        exact ⟨t', by rw [← ht']; exact hother k hk, htr'⟩
      · rw [List.mem_singleton] at hk; subst hk
        exact ⟨tr, hself, htr⟩
    · intro k hk t' ht'
      rcases List.mem_append.mp hk with hk | hk
      · exact hP k hk t' ((hother k hk).symm.trans ht')
      · rw [List.mem_singleton] at hk; subst hk
        have : TrackerPtr.live tr = .live t' := Option.some.inj (hself.symm.trans ht')
        cases this; exact hPt
    · show t.events ++ _ = _
      rw [hev, List.append_assoc]
      refine congrArg (s.events ++ ·) (enrollEvents_snoc t.pub hself hother).symm
  · -- it threw: the slot may be there, holding null, but it is a newcomer's
    intro e w' hpost
    obtain ⟨hF, _⟩ := hpost
    refine ⟨hF, hadm.active, hadm.aggStats, ?_, ?_⟩
    · intro k hk
      have hkd : k ∉ done := fun hd => hk (by rw [hxs]; exact List.mem_append_left _ hd)
      have hki : id ≠ k := fun he => hk (by rw [hxs, ← he]; simp)
      rw [← hadm.old k hkd]
      show (if slotFirst then t.pub.trackers.insert id .null else t.pub.trackers)[k]? = _
      split
      · rw [Trees.getElem?_insert, if_neg hki]
      · rfl
    · refine ⟨enrollEvents t.pub done ++ [.appeared id], ?_, ?_⟩
      · show t.events ++ _ = _
        rw [hev, List.append_assoc]
      · intro ev hmem
        rcases List.mem_append.mp hmem with hmem | hmem
        · obtain ⟨k, _, hk⟩ := List.mem_flatMap.mp hmem
          simp only [List.mem_cons, List.not_mem_nil, or_false] at hk
          exact ⟨k, hk.imp_right fun h => ⟨_, h⟩⟩
        · rw [List.mem_singleton] at hmem
          exact ⟨id, Or.inl hmem⟩

/-! ## The whole poll -/

/-- What the hypervisor's two calls answer when `poll` starts in world `w`. -/
structure Listing (ω : Type) where
  /-- `virConnectNumOfDomains` -/
  num : Int32
  /-- The return value of `virConnectListDomains`. -/
  ret : Int32
  /-- The ids the loop reads out of the array. -/
  ids : List DomId
  afterNum : ω
  afterList : ω

def listing (h : Host ω δ) (w : ω) : Listing ω :=
  let (num, w₁) := h.numOfDomains w
  let ((ret, arr), w₂) := h.listDomains num w₁
  { num := num, ret := ret, ids := arr.take ret.toNatClampNeg, afterNum := w₁, afterList := w₂ }

/-- The set `poll` compares `active` with. -/
def listed (h : Host ω δ) (w : ω) : ExtTreeSet DomId := ExtTreeSet.ofList (listing h w).ids

theorem mem_listed {h : Host ω δ} {w : ω} {id : DomId} :
    id ∈ listed h w ↔ id ∈ (listing h w).ids := by
  rw [listed, ExtTreeSet.mem_ofList, List.contains_iff_mem]

/-- The state after the remove loop. -/
def afterRetire (h : Host ω δ) (s : MonitorState ω δ) : MonitorState ω δ where
  pub := retired s.pub (listed h s.world)
  world := (listing h s.world).afterList
  events := s.events ++ retireEvents s.pub (gone s.pub (listed h s.world))

/--
**What one poll does.** A negative count throws at the array's allocation; else
the unlisted domains are retired, the new ones enrolled, and `active` assigned.
-/
theorem wp_poll {slotFirst : Bool} {h : Host ω δ} {s : MonitorState ω δ} (hs : Lockstep s.pub)
    {Q : PUnit → MonitorState ω δ → Prop} {E : Fault → MonitorState ω δ → Prop}
    (hneg : (listing h s.world).num < 0 →
      E .badAlloc { s with world := (listing h s.world).afterNum })
    (hpos : ¬ (listing h s.world).num < 0 →
      wp ((newcomers s.pub (listed h s.world)).forM (enroll slotFirst h)) (afterRetire h s)
        (fun _ t => Q ⟨⟩ { t with pub := { t.pub with active := listed h s.world } }) E) :
    wp (poll slotFirst h) s Q E := by
  unfold poll
  simp only [wp_bind, wp_onHost, wp_ask, newIntArray]
  rw [wp_ite]
  refine ⟨fun hn => hneg hn, fun hn => ?_⟩
  simp only [wp_pure, wp_get, wp_modify, forM_filter]
  exact wp_retireAll (s := { s with world := (listing h s.world).afterList }) hs
    (listed h s.world) (hpos hn)

/-- The newcomers of a poll have no tracker when the add loop starts. -/
theorem newcomers_untracked {h : Host ω δ} {s : MonitorState ω δ} (hs : Lockstep s.pub) :
    ∀ id ∈ newcomers s.pub (listed h s.world), (afterRetire h s).pub.trackers[id]? = none := by
  intro id hid
  rw [afterRetire, retired_getElem?]
  split
  · exact Trees.getElem?_eq_none.mpr fun hk => (mem_newcomers.mp hid).2 ((hs.keys id).mp hk)
  · rfl

/-- What a completed poll leaves behind. -/
structure Polled (h : Host ω δ) (s t : MonitorState ω δ) : Prop where
  lockstep : Lockstep t.pub
  active : t.pub.active = listed h s.world
  aggStats : t.pub.aggStats = s.pub.aggStats
  /-- A domain seen before and after keeps the very same tracker. -/
  kept : ∀ id, id ∈ s.pub.active → id ∈ listed h s.world →
    t.pub.trackers[id]? = s.pub.trackers[id]?
  events : t.events = s.events ++ retireEvents s.pub (gone s.pub (listed h s.world))
    ++ enrollEvents t.pub (newcomers s.pub (listed h s.world))

theorem polled_of_enrolled {h : Host ω δ} {s t : MonitorState ω δ} (hs : Lockstep s.pub)
    (hadm : Enrolled (afterRetire h s).pub t.pub (newcomers s.pub (listed h s.world)))
    (hev : t.events = (afterRetire h s).events
      ++ enrollEvents t.pub (newcomers s.pub (listed h s.world))) :
    Polled h s { t with pub := { t.pub with active := listed h s.world } } := by
  have hold : ∀ k, k ∉ newcomers s.pub (listed h s.world) → t.pub.trackers[k]?
      = if k ∈ listed h s.world then s.pub.trackers[k]? else none := fun k hk => by
    rw [hadm.old k hk]; exact retired_getElem?
  refine ⟨⟨fun id => ?_, fun id p hp => ?_⟩, rfl, hadm.aggStats, fun id ha hl => ?_, hev⟩
  · show id ∈ t.pub.trackers ↔ id ∈ listed h s.world
    -- a listed id is either new, and was just enrolled, or was watched and has been kept
    by_cases hn : id ∈ newcomers s.pub (listed h s.world)
    · obtain ⟨tr, htr, _⟩ := hadm.new id hn
      exact ⟨fun _ => (mem_newcomers.mp hn).1, fun _ => Trees.mem_iff_getElem?.mpr ⟨_, htr⟩⟩
    · rw [Trees.mem_iff_getElem?, hold id hn]
      refine ⟨?_, ?_⟩
      · intro hsome
        obtain ⟨p, hp⟩ := hsome
        split at hp
        · assumption
        · cases hp
      · intro hl
        have ha : id ∈ s.pub.active := by
          by_contra ha; exact hn (mem_newcomers.mpr ⟨hl, ha⟩)
        rw [if_pos hl]
        exact Trees.mem_iff_getElem?.mp ((hs.keys id).mpr ha)
  · change t.pub.trackers[id]? = some p at hp
    by_cases hn : id ∈ newcomers s.pub (listed h s.world)
    · obtain ⟨tr, htr, htracks⟩ := hadm.new id hn
      rw [htr] at hp
      exact ⟨tr, (Option.some.inj hp).symm, htracks⟩
    · rw [hold id hn] at hp
      split at hp
      · exact hs.live id p hp
      · cases hp
  · show t.pub.trackers[id]? = _
    rw [hold id fun hn => (mem_newcomers.mp hn).2 ha, if_pos hl]

/-- How a poll can throw: before it did anything, or out of a constructor. -/
inductive PollFailed (h : Host ω δ) (s : MonitorState ω δ) (F : Fault → ω → Prop) (e : Fault)
    (t : MonitorState ω δ) : Prop where
  | array : (listing h s.world).num < 0 → e = .badAlloc →
      t = { s with world := (listing h s.world).afterNum } → PollFailed h s F e t
  | constructor : ¬ (listing h s.world).num < 0 → F e t.world →
      EnrollFailed (afterRetire h s) t (newcomers s.pub (listed h s.world)) → PollFailed h s F e t

/-- **One poll, both ways out**, carrying the caller's knowledge of the world along. -/
theorem wp_poll_polled {slotFirst : Bool} {h : Host ω δ} {s : MonitorState ω δ}
    (hs : Lockstep s.pub) (W : List DomId → ω → Prop) (P : DomId → DomainStatTracker δ → Prop)
    (F : Fault → ω → Prop)
    (hnew : ∀ done id todo w, newcomers s.pub (listed h s.world) = done ++ id :: todo → W done w →
      wp (DomainStatTracker.new h id.toUInt32) w (fun t w' => W (done ++ [id]) w' ∧ P id t) F)
    (hW : W [] (listing h s.world).afterList) :
    wp (poll slotFirst h) s
      (fun _ t => Polled h s t ∧ W (newcomers s.pub (listed h s.world)) t.world
        ∧ ∀ k ∈ newcomers s.pub (listed h s.world), ∀ tr,
          t.pub.trackers[k]? = some (.live tr) → P k tr)
      (PollFailed h s F) := by
  refine wp_poll hs (fun hn => .array hn rfl rfl) (fun hn => ?_)
  refine wp_mono (wp_enrollAll (newcomers_nodup _ _) (newcomers_untracked hs) W P F hnew hW)
    ?_ (fun e t ht => .constructor hn ht.1 ht.2)
  intro _ t hpost
  obtain ⟨hw, hadm, hP, hev⟩ := hpost
  exact ⟨polled_of_enrolled hs hadm hev, hw, hP⟩

/-- The same with nothing known of the host. -/
theorem wp_poll_any {slotFirst : Bool} {h : Host ω δ} {s : MonitorState ω δ}
    (hs : Lockstep s.pub) :
    wp (poll slotFirst h) s (fun _ t => Polled h s t) (PollFailed h s fun _ _ => True) := by
  refine wp_mono
    (wp_poll_polled hs (fun _ _ => True) (fun _ _ => True) (fun _ _ => True) ?_ trivial)
    (fun _ t ht => ht.1) (fun _ _ he => he)
  intro _ _ _ w _ _
  exact wp_mono wp_new (fun _ _ _ => ⟨trivial, trivial⟩) (fun _ _ _ => trivial)

end CloudMon.Proof
