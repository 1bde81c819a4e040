import CloudMon.Monitor.Snapshot
import CloudMon.Proof.Update

/-!
# Polls that throw

`poll` edits the tracker map as it goes along and assigns the watcher's set last,
so a constructor that throws leaves the map ahead of the set, and nothing brings
the two together again: what the map has gained the set does not know of and will
never ask to have removed, and what the map has lost the set still has, so it will
not be added when it is listed again.

What does hold, throws or not, is that an active domain's entry is its own living
tracker wherever it has one. So whenever the two key sets happen to agree, they
are in lockstep, and everything said about one poll applies.
-/

namespace CloudMon.Proof

open CloudMon LibvirtDomainStatPublisher Wp
open Std (ExtTreeMap ExtTreeSet)

variable {ω δ : Type}

/-! ## What holds after any polls -/

/-- A C++ exception, as opposed to the end of the process. -/
def Thrown : Fault → Prop
  | .runtimeError _ => True
  | .badAlloc => True
  | .nullDeref => False
  | .useAfterFree => False

/-- Trackers are their domains' own, and an active domain's entry is a living one. -/
structure Sound (pub : Publisher δ) : Prop where
  own : ∀ id t, pub.trackers[id]? = some (.live t) → Tracks id t
  active : ∀ id ∈ pub.active, ∀ p, pub.trackers[id]? = some p → ∃ t, p = .live t

theorem sound_init (gethostname : Option Bytes) (tov : Double) :
    Sound (Publisher.init gethostname tov : Publisher δ) where
  own := by intro id t h; simp [Publisher.init] at h
  active := by intro id _ p h; simp [Publisher.init] at h

/-- **Agreeing key sets are lockstep**, whatever went before. -/
theorem Sound.lockstep {pub : Publisher δ} (h : Sound pub)
    (hkeys : ∀ id, id ∈ pub.trackers ↔ id ∈ pub.active) : Lockstep pub where
  keys := hkeys
  live := by
    intro id p hp
    have hmem : id ∈ pub.trackers := Trees.mem_iff_getElem?.mpr ⟨p, hp⟩
    obtain ⟨t, rfl⟩ := h.active id ((hkeys id).mp hmem) p hp
    exact ⟨t, rfl, h.own id t hp⟩

/-- A publisher with other trackers. -/
abbrev withTrackers (pub : Publisher δ) (m : ExtTreeMap DomId (TrackerPtr δ)) : Publisher δ :=
  { pub with trackers := m }

theorem Sound.erase {pub : Publisher δ} (h : Sound pub) (id : DomId) :
    Sound (withTrackers pub (pub.trackers.erase id)) := by
  have hold : ∀ (k : DomId) (p : TrackerPtr δ), (pub.trackers.erase id)[k]? = some p →
      pub.trackers[k]? = some p := by
    intro k p hk
    rw [Trees.getElem?_erase] at hk
    split at hk
    · cases hk
    · exact hk
  exact ⟨fun k t hk => h.own k t (hold k _ hk), fun k hk p hp => h.active k hk p (hold k p hp)⟩

/-- An entry may become a living tracker of its own, or anything if its domain is not active. -/
theorem Sound.insert {pub : Publisher δ} (h : Sound pub) (id : DomId) {p : TrackerPtr δ}
    (hown : ∀ t, p = .live t → Tracks id t) (hlive : id ∈ pub.active → ∃ t, p = .live t) :
    Sound (withTrackers pub (pub.trackers.insert id p)) := by
  refine ⟨?_, ?_⟩
  · intro k t hk
    change (pub.trackers.insert id p)[k]? = _ at hk
    rw [Trees.getElem?_insert] at hk
    split at hk
    · rename_i he; subst he
      exact hown t (Option.some.inj hk)
    · exact h.own k t hk
  · intro k hactive q hk
    change (pub.trackers.insert id p)[k]? = _ at hk
    rw [Trees.getElem?_insert] at hk
    split at hk
    · rename_i he; subst he
      exact Option.some.inj hk ▸ hlive hactive
    · exact h.active k hactive q hk

theorem wp_retire_sound {s : MonitorState ω δ} {id : DomId} (hs : Sound s.pub)
    (hid : id ∈ s.pub.active) :
    wp (retire id) s (fun _ t => Sound t.pub ∧ t.pub.active = s.pub.active) noThrow := by
  cases hp : s.pub.trackers[id]? with
  | none =>
      -- an earlier poll has already removed it: the handler warns and returns
      simp [retire, removeStatTracker, hp, hs]
  | some p =>
      obtain ⟨t, rfl⟩ := hs.active id hid p hp
      rw [wp_retire hp]
      exact ⟨hs.erase id, rfl⟩

/-- The rest of a publisher, as a handler called for a domain that is not active leaves it. -/
structure Beside (id : DomId) (s t : MonitorState ω δ) : Prop where
  sound : Sound t.pub
  active : t.pub.active = s.pub.active
  other : ∀ k, k ≠ id → t.pub.trackers[k]? = s.pub.trackers[k]?

theorem Beside.insert {s t : MonitorState ω δ} {id : DomId} (h : Beside id s t)
    (hid : id ∉ s.pub.active) {p : TrackerPtr δ} (hown : ∀ tr, p = .live tr → Tracks id tr)
    (w : ω) (es : List Event) :
    Beside id s ⟨withTrackers t.pub (t.pub.trackers.insert id p), w, es⟩ where
  sound := h.sound.insert id hown fun ha => absurd (h.active ▸ ha) hid
  active := h.active
  other := by
    intro k hk
    show (t.pub.trackers.insert id p)[k]? = _
    rw [Trees.getElem?_insert, if_neg fun he => hk he.symm, h.other k hk]

theorem wp_enroll_sound {slotFirst : Bool} {h : Host ω δ} {s : MonitorState ω δ} {id : DomId}
    (hs : Sound s.pub) (hid : id ∉ s.pub.active) :
    wp (enroll slotFirst h id) s
      (fun _ t => Beside id s t ∧ ∃ tr, t.pub.trackers[id]? = some (.live tr))
      (fun e t => Thrown e → Beside id s t) := by
  -- the constructor's two outcomes, wherever the slot was left
  have hmake : ∀ t, Beside id s t →
      wp (do
          let tr ← onHost (DomainStatTracker.new h id.toUInt32)
          log (.monitoring id tr.domainUUID)
          setTrackers (·.insert id (.live tr))) t
        (fun _ t => Beside id s t ∧ ∃ tr, t.pub.trackers[id]? = some (.live tr))
        (fun e t => Thrown e → Beside id s t) := by
    intro t ht
    simp only [wp_bind, wp_onHost, wp_log, wp_setTrackers]
    refine wp_mono wp_new (fun tr w htr => ?_) (fun _ _ _ _ => ⟨ht.sound, ht.active, ht.other⟩)
    refine ⟨ht.insert hid (fun tr' he => ?_) _ _, tr, ?_⟩
    · cases he; exact htr
    · show (t.pub.trackers.insert id (.live tr))[id]? = _
      rw [Trees.getElem?_insert, if_pos rfl]
  have hslot : ∀ t, Beside id s t →
      wp (do
          if slotFirst then
            setTrackers fun m => if id ∈ m then m else m.insert id .null
          let tr ← onHost (DomainStatTracker.new h id.toUInt32)
          log (.monitoring id tr.domainUUID)
          setTrackers (·.insert id (.live tr))) t
        (fun _ t => Beside id s t ∧ ∃ tr, t.pub.trackers[id]? = some (.live tr))
        (fun e t => Thrown e → Beside id s t) := by
    intro t ht
    split
    · rw [wp_bind, wp_setTrackers]
      refine hmake _ ?_
      split
      · exact ⟨ht.sound, ht.active, ht.other⟩
      · exact ht.insert hid (fun _ he => by cases he) _ _
    · exact hmake t ht
  have hstart : ∀ es, Beside id s { s with events := es } := fun _ => ⟨hs, rfl, fun _ _ => rfl⟩
  unfold enroll addStatTracker
  simp only [wp_bind, wp_log, wp_get]
  cases hp : s.pub.trackers[id]? with
  | none => exact hslot _ (hstart _)
  | some p =>
      simp only [wp_bind, wp_log]
      cases p with
      | null => exact hslot _ ((hstart _).insert hid (fun _ he => by cases he) _ _)
      | live tr => exact hslot _ ((hstart _).insert hid (fun _ he => by cases he) _ _)
      | dangling => exact fun hthrown => hthrown.elim

/-- **A poll from any state the polls before it left**, both ways out. -/
theorem wp_poll_sound {slotFirst : Bool} {h : Host ω δ} {s : MonitorState ω δ} (hs : Sound s.pub) :
    wp (poll slotFirst h) s (fun _ t => Sound t.pub) (fun e t => Thrown e → Sound t.pub) := by
  unfold poll
  simp only [wp_bind, wp_onHost, wp_ask, newIntArray]
  rw [wp_ite]
  refine ⟨fun _ _ => hs, fun _ => ?_⟩
  simp only [wp_pure, wp_get, wp_modify, forM_filter]
  refine wp_mono (wp_forM (E := noThrow)
    (fun _ (t : MonitorState ω δ) => Sound t.pub ∧ t.pub.active = s.pub.active) ?_ ⟨hs, rfl⟩)
    ?_ (fun _ _ he => he.elim)
  · intro done id todo t hxs ht
    obtain ⟨ht, hactive⟩ := ht
    have hid : id ∈ t.pub.active := by
      rw [hactive]
      exact (mem_gone.mp (by rw [gone, hxs]; simp)).1
    exact wp_mono (wp_retire_sound ht hid) (fun _ t' ht' => ⟨ht'.1, ht'.2.trans hactive⟩)
      (fun _ _ he => he)
  intro _ u hu
  obtain ⟨hu, hactive⟩ := hu
  -- whoever is listed and was not active has a living tracker once its turn is over
  refine wp_mono (wp_forM (E := fun e t => Thrown e → Sound t.pub)
    (fun done (t : MonitorState ω δ) => Sound t.pub ∧ t.pub.active = s.pub.active
      ∧ ∀ k ∈ done, ∃ tr, t.pub.trackers[k]? = some (.live tr)) ?_ ⟨hu, hactive, by simp⟩)
    ?_ (fun _ _ he => he)
  · intro done id todo t hxs ht
    obtain ⟨ht, hact, hlive⟩ := ht
    have hid : id ∉ t.pub.active := by
      rw [hact]
      exact (mem_newcomers.mp (by rw [newcomers, hxs]; simp)).2
    refine wp_mono (wp_enroll_sound ht hid) (fun _ t' ht' => ?_) (fun _ _ he hth => (he hth).sound)
    obtain ⟨hbeside, tr, htr⟩ := ht'
    refine ⟨hbeside.sound, hbeside.active.trans hact, fun k hk => ?_⟩
    by_cases he : k = id
    · exact ⟨tr, he ▸ htr⟩
    · rcases List.mem_append.mp hk with hk | hk
      · rw [hbeside.other k he]
        exact hlive k hk
      · exact absurd (List.mem_singleton.mp hk) he
  · intro _ t ht
    obtain ⟨ht, hact, hlive⟩ := ht
    refine ⟨ht.own, fun id hid p hp => ?_⟩
    by_cases ha : id ∈ s.pub.active
    · exact ht.active id (by rw [hact]; exact ha) p hp
    · obtain ⟨tr, htr⟩ := hlive id (mem_newcomers.mpr ⟨hid, ha⟩)
      exact ⟨tr, Option.some.inj (hp.symm.trans htr)⟩

/-- An update that returned had a living tracker behind every entry. -/
theorem wp_update_sound {slotFirst : Bool} {h : Host ω δ} {s : MonitorState ω δ}
    (hs : Sound s.pub) :
    wp (update slotFirst h) s (fun _ t => Sound t.pub) (fun _ _ => True) := by
  unfold update
  rw [wp_bind]
  refine wp_mono (wp_poll_sound hs) (fun _ u hu => ?_) (fun _ _ _ => trivial)
  simp only [wp_bind, wp_setAggStats, wp_get, wp_onHost, wp_ask, wp_log]
  refine wp_mono (wp_forM (E := fun _ _ => True)
    (fun _ (t : MonitorState ω δ) => Sound t.pub) ?_ ⟨hu.own, hu.active⟩)
    (fun _ t ht => ⟨ht.own, ht.active⟩) (fun _ _ _ => trivial)
  intro done entry todo t hxs ht
  obtain ⟨id, p⟩ := entry
  have hp : u.pub.trackers[id]? = some p :=
    ExtTreeMap.mem_toList_iff_getElem?_eq_some.mp (by
      show (id, p) ∈ u.pub.trackers.toList
      rw [hxs]; simp)
  unfold updateTracker
  rw [wp_bind]
  cases p with
  | null => trivial
  | dangling => trivial
  | live tr =>
      simp only [wp_bind, wp_deref_live, wp_onHost, wp_setTrackers, wp_setAggStats]
      refine wp_mono (wp_trackerUpdate (hu.own id tr hp)) (fun r w hr => ?_) (fun _ _ _ => trivial)
      have hput := ht.insert id (p := .live r.2) (fun t' he => by cases he; exact hr.1)
        fun _ => ⟨r.2, rfl⟩
      exact ⟨hput.own, hput.active⟩

/-- Publishers between two polls, interrupted ones included, on hosts that may answer anything. -/
inductive Reached (ω : Type) (slotFirst : Bool) : Publisher δ → Prop where
  | init (gethostname : Option Bytes) (tov : Double) :
      Reached ω slotFirst (Publisher.init gethostname tov)
  | updated {pub : Publisher δ} (h : Host ω δ) (w : ω) {t : MonitorState ω δ} :
      Reached ω slotFirst pub → update slotFirst h (pub.inWorld w) = .ok ⟨⟩ t →
      Reached ω slotFirst t.pub
  | polled {pub : Publisher δ} (h : Host ω δ) (w : ω) {t : MonitorState ω δ} :
      Reached ω slotFirst pub → poll slotFirst h (pub.inWorld w) = .ok ⟨⟩ t →
      Reached ω slotFirst t.pub
  | interrupted {pub : Publisher δ} (h : Host ω δ) (w : ω) {e : Fault} {t : MonitorState ω δ} :
      Reached ω slotFirst pub → poll slotFirst h (pub.inWorld w) = .error e t → Thrown e →
      Reached ω slotFirst t.pub

theorem sound_reached {slotFirst : Bool} {pub : Publisher δ} (hr : Reached ω slotFirst pub) :
    Sound pub := by
  induction hr with
  | init gethostname tov => exact sound_init gethostname tov
  | updated h w _ hrun ih => exact wp_of_ok (wp_update_sound ih) hrun
  | polled h w _ hrun ih => exact wp_of_ok (wp_poll_sound ih) hrun
  | interrupted h w _ hrun hthrown ih => exact wp_of_error (wp_poll_sound ih) hrun hthrown

/-! ## What an interrupted poll leaves -/

/-- The trackers' key set is the watcher's set, and every entry points to a living tracker. -/
structure Consistent (pub : Publisher δ) : Prop where
  keys : ∀ id, id ∈ pub.trackers ↔ id ∈ pub.active
  live : ∀ (id : DomId) p, pub.trackers[id]? = some p → ∃ t, p = .live t

/--
An interruption that does no harm: nothing was retired before it, the very first
constructor is the one that throws, and its slot was not made beforehand.
-/
def Harmless (slotFirst : Bool) (h : Host ω δ) (pub : Publisher δ) (w : ω) : Prop :=
  gone pub (listed h w) = []
    ∧ (∃ id rest e w', newcomers pub (listed h w) = id :: rest
      ∧ DomainStatTracker.new h id.toUInt32 (listing h w).afterList = .error e w')
    ∧ slotFirst = false

/-- The loop's first constructor throws, or the first newcomer ends up in the map. -/
theorem wp_enrollAll_interrupted {slotFirst : Bool} {h : Host ω δ} {s : MonitorState ω δ}
    {id : DomId} {rest : List DomId} (hnd : (id :: rest).Nodup)
    (hno : ∀ k ∈ id :: rest, s.pub.trackers[k]? = none) :
    wp ((id :: rest).forM (enroll slotFirst h)) s (fun _ _ => True)
      (fun _ t => t.pub.active = s.pub.active
        ∧ (∀ k, k ∉ id :: rest → t.pub.trackers[k]? = s.pub.trackers[k]?)
        ∧ ((∃ e w', DomainStatTracker.new h id.toUInt32 s.world = .error e w'
            ∧ t.pub.trackers
              = if slotFirst then s.pub.trackers.insert id .null else s.pub.trackers)
          ∨ (∀ e w', DomainStatTracker.new h id.toUInt32 s.world ≠ .error e w')
            ∧ id ∈ t.pub.trackers)) := by
  have hid : s.pub.trackers[id]? = none := hno id (List.mem_cons_self ..)
  have hrest : id ∉ rest := (List.nodup_cons.mp hnd).1
  show wp (enroll slotFirst h id >>= fun _ => rest.forM (enroll slotFirst h)) s _ _
  rw [wp_bind, wp_enroll hid, wp]
  cases hnew : DomainStatTracker.new h id.toUInt32 s.world with
  | error e w' =>
      refine ⟨rfl, fun k hk => ?_, Or.inl ⟨e, w', rfl, rfl⟩⟩
      have hne : id ≠ k := fun he => hk (he ▸ List.mem_cons_self ..)
      show (if slotFirst then s.pub.trackers.insert id .null else s.pub.trackers)[k]? = _
      split
      · rw [Trees.getElem?_insert, if_neg hne]
      · rfl
  | ok tr w' =>
      -- the first one is in the map, and what comes after it leaves it there
      refine wp_mono (wp_enrollAll (List.nodup_cons.mp hnd).2 ?_ (fun _ _ => True)
        (fun _ _ => True) (fun _ _ => True) ?_ trivial) (fun _ _ _ => trivial) ?_
      · intro k hk
        have hne : id ≠ k := fun he => hrest (he ▸ hk)
        show (s.pub.trackers.insert id (.live tr))[k]? = none
        rw [Trees.getElem?_insert, if_neg hne]
        exact hno k (List.mem_cons_of_mem _ hk)
      · intro _ _ _ _ _ _
        exact wp_mono wp_new (fun _ _ _ => ⟨trivial, trivial⟩) (fun _ _ _ => trivial)
      · intro e t ht
        obtain ⟨_, hactive, _, hold, _⟩ := ht
        refine ⟨hactive, fun k hk => ?_, Or.inr ⟨fun _ _ => nofun, ?_⟩⟩
        · rw [List.mem_cons, not_or] at hk
          rw [hold k hk.2]
          show (s.pub.trackers.insert id (.live tr))[k]? = _
          rw [Trees.getElem?_insert, if_neg fun he => hk.1 he.symm]
        · refine Trees.mem_iff_getElem?.mpr ⟨.live tr, ?_⟩
          rw [hold id hrest]
          show (s.pub.trackers.insert id (.live tr))[id]? = _
          rw [Trees.getElem?_insert, if_pos rfl]

/-- Where nobody has gone, retiring changes nothing. -/
theorem retired_of_gone_nil {pub : Publisher δ} (hs : Lockstep pub) {listed : ExtTreeSet DomId}
    (h : gone pub listed = []) (id : DomId) :
    (retired pub listed).trackers[id]? = pub.trackers[id]? := by
  rw [retired_getElem?]
  split
  · rfl
  · rename_i hl
    refine (Trees.getElem?_eq_none.mpr fun hk => ?_).symm
    have hmem : id ∈ gone pub listed := mem_gone.mpr ⟨(hs.keys id).mp hk, hl⟩
    rw [h] at hmem
    cases hmem

/-- Nothing has changed after a harmless interruption; after any other the key sets differ. -/
theorem interrupted_cases {slotFirst : Bool} {h : Host ω δ} {pub : Publisher δ} {w : ω}
    (hs : Lockstep pub) (hctor : ¬ (listing h w).num < 0) {e : Fault} {t : MonitorState ω δ}
    (hthrow : poll slotFirst h (pub.inWorld w) = .error e t) :
    (Harmless slotFirst h pub w ∧ t.pub.active = pub.active
        ∧ ∀ k : DomId, t.pub.trackers[k]? = pub.trackers[k]?)
      ∨ (¬ Harmless slotFirst h pub w ∧ ¬ Consistent t.pub) := by
  refine wp_of_error (Q := fun _ _ => True) (E := fun _ (t : MonitorState ω δ) =>
    (Harmless slotFirst h pub w ∧ t.pub.active = pub.active
        ∧ ∀ k : DomId, t.pub.trackers[k]? = pub.trackers[k]?)
      ∨ (¬ Harmless slotFirst h pub w ∧ ¬ Consistent t.pub))
    (wp_poll (s := pub.inWorld w) hs (fun hn => absurd hn hctor) fun _ => ?_) hthrow
  have hnd := newcomers_nodup pub (listed h w)
  have hno : ∀ id ∈ newcomers pub (listed h w),
      (retired pub (listed h w)).trackers[id]? = none := newcomers_untracked (s := pub.inWorld w) hs
  have hnew := fun id => @mem_newcomers _ pub (listed h w) id
  unfold Harmless
  show wp ((newcomers pub (listed h w)).forM (enroll slotFirst h))
    (afterRetire h (pub.inWorld w)) _ _
  cases hids : newcomers pub (listed h w) with
  | nil => trivial
  | cons id rest =>
      rw [hids] at hnd hno hnew
      refine wp_mono (wp_enrollAll_interrupted hnd hno) (fun _ _ _ => trivial) fun e t ht => ?_
      obtain ⟨hactive, hold, hfirst⟩ := ht
      have hid : id ∉ pub.active := ((hnew id).mp (List.mem_cons_self ..)).2
      -- whether it was harmless is decided by the three things that can have happened
      have hlost : ∀ k ∈ gone pub (listed h w), ¬ Consistent t.pub := by
        intro k hk hcons
        obtain ⟨hka, hkl⟩ := mem_gone.mp hk
        have hin : k ∈ t.pub.trackers := (hcons.keys k).mpr (by rw [hactive]; exact hka)
        obtain ⟨p, hp⟩ := Trees.mem_iff_getElem?.mp hin
        rw [hold k fun hk => hkl ((hnew k).mp hk).1, afterRetire, retired_getElem?,
          if_neg hkl] at hp
        cases hp
      have hgained : id ∈ t.pub.trackers → ¬ Consistent t.pub := by
        intro hin hcons
        have := (hcons.keys id).mp hin
        rw [hactive] at this
        exact hid this
      rcases hfirst with ⟨e', w', hthrew, hmap⟩ | ⟨hnot, hin⟩
      · cases slotFirst with
        | true =>
            have hslot : id ∈ t.pub.trackers := by
              rw [hmap, if_pos rfl]
              exact Trees.mem_iff_getElem?.mpr ⟨.null, by rw [Trees.getElem?_insert, if_pos rfl]⟩
            exact Or.inr ⟨fun hh => absurd hh.2.2 (by decide), hgained hslot⟩
        | false =>
            cases hgone : gone pub (listed h w) with
            | nil =>
                refine Or.inl ⟨⟨rfl, ⟨id, rest, e', w', rfl, hthrew⟩, rfl⟩, hactive, fun k => ?_⟩
                rw [hmap]
                exact retired_of_gone_nil hs hgone k
            | cons k ks =>
                refine Or.inr ⟨fun hh => absurd hh.1 (List.cons_ne_nil _ _), hlost k ?_⟩
                rw [hgone]
                exact List.mem_cons_self ..
      · refine Or.inr ⟨fun hh => ?_, hgained hin⟩
        obtain ⟨_, ⟨id', rest', e', w', hcons, hthrew⟩, _⟩ := hh
        rw [List.cons.injEq] at hcons
        obtain ⟨rfl, rfl⟩ := hcons
        exact hnot e' w' hthrew

/-- **Exactly the harmless interruptions leave watcher and publisher consistent.** -/
theorem consistent_interrupted_iff {slotFirst : Bool} {h : Host ω δ} {pub : Publisher δ} {w : ω}
    (hs : Lockstep pub) (hctor : ¬ (listing h w).num < 0) {e : Fault} {t : MonitorState ω δ}
    (hthrow : poll slotFirst h (pub.inWorld w) = .error e t) :
    Consistent t.pub ↔ Harmless slotFirst h pub w := by
  rcases interrupted_cases hs hctor hthrow with ⟨hh, hactive, hsame⟩ | ⟨hh, hcons⟩
  · refine iff_of_true ⟨fun k => ?_, fun k p hp => ?_⟩ hh
    · rw [Trees.mem_iff_getElem?, hsame, ← Trees.mem_iff_getElem?, hactive]
      exact hs.keys k
    · rw [hsame] at hp
      obtain ⟨tr, htr, _⟩ := hs.live k p hp
      exact ⟨tr, htr⟩
  · exact iff_of_false hcons hh

/-! ## The polls after it -/

/-- One more poll or update, or a poll interrupted without harm. -/
inductive Step (ω : Type) (slotFirst : Bool) : Publisher δ → Publisher δ → Prop where
  | updated {pub : Publisher δ} (h : Host ω δ) (w : ω) {t : MonitorState ω δ} :
      update slotFirst h (pub.inWorld w) = .ok ⟨⟩ t → Step ω slotFirst pub t.pub
  | polled {pub : Publisher δ} (h : Host ω δ) (w : ω) {t : MonitorState ω δ} :
      poll slotFirst h (pub.inWorld w) = .ok ⟨⟩ t → Step ω slotFirst pub t.pub
  | interrupted {pub : Publisher δ} (h : Host ω δ) (w : ω) {e : Fault} {t : MonitorState ω δ} :
      poll slotFirst h (pub.inWorld w) = .error e t →
      (listing h w).num < 0 ∨ Harmless slotFirst h pub w → Step ω slotFirst pub t.pub

/-- From here on, a poll that completes leaves exactly the listed domains tracked. -/
def Recovers (ω : Type) (slotFirst : Bool) (pub : Publisher δ) : Prop :=
  ∀ later, Relation.ReflTransGen (Step ω slotFirst) pub later →
    ∀ (h : Host ω δ) (w : ω) (t : MonitorState ω δ),
      poll slotFirst h (later.inWorld w) = .ok ⟨⟩ t →
      (∀ id, id ∈ t.pub.trackers ↔ id ∈ (listing h w).ids)
        ∧ ∀ (id : DomId) p, t.pub.trackers[id]? = some p → ∃ tr, p = .live tr ∧ Tracks id tr

/-- An interrupted poll changes nothing but the map, and that only where it does harm. -/
theorem lockstep_step {slotFirst : Bool} {pub pub' : Publisher δ} (hs : Lockstep pub)
    (hstep : Step ω slotFirst pub pub') : Lockstep pub' := by
  cases hstep with
  | updated h w hrun => exact (wp_of_ok (wp_update_any hs) hrun).lockstep
  | polled h w hrun => exact (wp_of_ok (wp_poll_any hs) hrun).lockstep
  | @interrupted h w e t hrun hwhy =>
      by_cases hneg : (listing h w).num < 0
      · -- nothing had been done yet
        cases wp_of_error (wp_poll_any (s := pub.inWorld w) hs) hrun with
        | array _ _ ht => rw [ht]; exact hs
        | constructor hpos _ _ => exact absurd hneg hpos
      · rcases interrupted_cases hs hneg hrun with ⟨_, hactive, hsame⟩ | ⟨hh, _⟩
        · refine ⟨fun k => ?_, fun k p hp => hs.live k p ((hsame k).symm.trans hp)⟩
          rw [Trees.mem_iff_getElem?, hsame, ← Trees.mem_iff_getElem?, hactive]
          exact hs.keys k
        · exact absurd (hwhy.resolve_left hneg) hh

theorem recovers_of_lockstep {slotFirst : Bool} {pub : Publisher δ} (hs : Lockstep pub) :
    Recovers ω slotFirst pub := by
  have hlockstep : ∀ later,
      Relation.ReflTransGen (Step ω slotFirst) pub later → Lockstep later := by
    intro later hsteps
    induction hsteps with
    | refl => exact hs
    | tail _ hstep ih => exact lockstep_step ih hstep
  intro later hsteps h w t hrun
  have hlater := hlockstep later hsteps
  have hpolled := wp_of_ok (wp_poll_any hlater) hrun
  refine ⟨fun id => ?_, hpolled.lockstep.live⟩
  rw [hpolled.lockstep.keys, hpolled.active]
  exact mem_listed

/--
**What an interrupted poll costs.** When a constructor throws out of a poll that
started with equal key sets, watcher and publisher are consistent afterwards, and
every later poll that completes tracks exactly the listed domains, if and only if
the interruption was harmless.
-/
theorem interrupted_iff (slotFirst : Bool) {pub : Publisher δ} (hr : Reached ω slotFirst pub)
    (hkeys : ∀ id, id ∈ pub.trackers ↔ id ∈ pub.active) (h : Host ω δ) (w : ω) {e : Fault}
    {t : MonitorState ω δ} (hctor : ¬ (listing h w).num < 0)
    (hthrow : poll slotFirst h (pub.inWorld w) = .error e t) :
    (Consistent t.pub ∧ Recovers ω slotFirst t.pub) ↔ Harmless slotFirst h pub w := by
  have hs : Lockstep pub := (sound_reached hr).lockstep hkeys
  rw [← consistent_interrupted_iff hs hctor hthrow]
  refine and_iff_left_of_imp fun hcons => recovers_of_lockstep ?_
  have hharmless := (consistent_interrupted_iff hs hctor hthrow).mp hcons
  exact lockstep_step hs (.interrupted h w hthrow (Or.inr hharmless))

/-- Lists the world's first ids and finds the second ones: what is missing there has vanished. -/
def vanishingHost : Host (List DomId × List DomId) DomId :=
  { quietHost (List DomId × List DomId) with
    numOfDomains := fun w => (intCount w.1.length, w)
    listDomains := fun _ w => ((intCount w.1.length, w.1), w)
    lookupByID := fun id w => (if id ∈ w.2 then some id else none, w) }

/-- The first of two new domains has vanished: nothing has happened yet. -/
theorem interrupted_iff_vanishedFirst :
    ∃ e t, poll false vanishingHost ((Publisher.init none (.fin 0)).inWorld ([1, 2], [2]))
        = .error e t
      ∧ ((Consistent t.pub ∧ Recovers (List DomId × List DomId) false t.pub)
        ↔ Harmless false vanishingHost (Publisher.init none (.fin 0)) ([1, 2], [2])) := by
  have hrun : wp (poll false vanishingHost)
      ((Publisher.init none (.fin 0)).inWorld ([1, 2], [2])) (fun _ _ => False)
      (fun _ _ => True) := by decide +kernel
  obtain ⟨e, t, hthrow, _⟩ := wp_throws hrun
  exact ⟨e, t, hthrow, interrupted_iff false (.init none (.fin 0))
    (fun id => by simp [Publisher.init]) vanishingHost ([1, 2], [2]) (by decide) hthrow⟩

/--
The second of two new domains has vanished: the first one's tracker is there and
its id is not active, so when it is gone from the next list its tracker stays.
-/
theorem not_recovers_vanishedSecond :
    ∃ pub e t, Reached (List DomId × List DomId) false pub
      ∧ (∀ id, id ∈ pub.trackers ↔ id ∈ pub.active)
      ∧ poll false vanishingHost (pub.inWorld ([1, 2], [1])) = .error e t
      ∧ ¬ Consistent t.pub ∧ ¬ Recovers (List DomId × List DomId) false t.pub := by
  have hrun : wp (poll false vanishingHost) ((Publisher.init none (.fin 0)).inWorld ([1, 2], [1]))
      (fun _ _ => False)
      (fun _ t => ((1 : DomId) ∈ t.pub.trackers ∧ (1 : DomId) ∉ t.pub.active)
        ∧ wp (poll false vanishingHost) (t.pub.inWorld ([], []))
          (fun _ t' => (1 : DomId) ∈ t'.pub.trackers) noThrow) := by decide +kernel
  obtain ⟨e, t, hthrow, ⟨hin, hout⟩, hnext⟩ := wp_throws hrun
  obtain ⟨_, t', hpoll, hstays⟩ := wp_noThrow hnext
  refine ⟨_, e, t, .init none (.fin 0), fun id => by simp [Publisher.init], hthrow, ?_, ?_⟩
  · intro hcons
    exact hout ((hcons.keys 1).mp hin)
  · intro hrec
    have := ((hrec t.pub .refl vanishingHost ([], []) t' hpoll).1 1).mp hstays
    exact absurd this (by decide)

end CloudMon.Proof
