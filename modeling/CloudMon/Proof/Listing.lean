import CloudMon.Monitor.Race
import CloudMon.Proof.Lockstep

/-!
# When the listing is wrong

`poll` takes what `virConnectListDomains` left in the array for the truth. Two
things can come between that array and the domains that are running. A call can
fail: a failed count throws at the array's allocation, and a failed listing looks
exactly like an empty one, so every watched domain is retired. Or the set can grow
between the count and the listing: the array is then too small, and a domain that
did not fit in looks like one that disappeared.

Both cases come down to one fact: a watched domain survives a poll exactly when
its id was read out of the array.
-/

namespace CloudMon.Proof

open CloudMon LibvirtDomainStatPublisher Wp
open Std (ExtTreeMap ExtTreeSet)

variable {ω δ : Type}

/-! ## Which publishers there are -/

theorem fixedHost_succeeds (ω : Type) (ids : List DomId) : Succeeds (fixedHost ω ids) where
  counts _ := intCount_nonneg ids.length
  lists _ _ := intCount_nonneg ids.length
  finds _ _ := rfl
  allocates _ := rfl
  describes _ _ := rfl

/-- Any set of ids is the active set of some reachable publisher. -/
theorem exists_reachable (slotFirst : Bool) (ids : List DomId) (w : ω) :
    ∃ pub : Publisher DomId, Reachable slotFirst (anyHost : Host ω DomId → Prop) pub
      ∧ ∀ id, id ∈ pub.active ↔ id ∈ ids.take (intCount ids.length).toNatClampNeg := by
  obtain ⟨_, t, hrun, hu⟩ := wp_noThrow (wp_update_succeeds slotFirst
    (fixedHost_succeeds ω ids) (s := (Publisher.init none (.fin 0)).inWorld w) (lockstep_init _ _))
  refine ⟨t.pub, .update w (.init none (.fin 0)) trivial hrun, fun id => ?_⟩
  rw [hu.active, mem_listed]
  exact Iff.rfl

/-! ## A failed query -/

theorem ids_of_ret_failed {h : Host ω δ} {w : ω} (hret : (listing h w).ret = -1) :
    (listing h w).ids = [] := by
  change List.take (listing h w).ret.toNatClampNeg _ = []
  rw [hret]; rfl

theorem not_mem_listed_of_failed {h : Host ω δ} {w : ω} (hret : (listing h w).ret = -1)
    (id : DomId) : id ∉ listed h w := by
  rw [mem_listed, ids_of_ret_failed hret]; exact List.not_mem_nil

/-- A failed count throws before anything else happens. -/
theorem poll_num_failed {slotFirst : Bool} {h : Host ω δ} {pub : Publisher δ} {w : ω}
    (hs : Lockstep pub) (hnum : (listing h w).num < 0) :
    poll slotFirst h (pub.inWorld w) = .error .badAlloc (pub.inWorld (listing h w).afterNum) := by
  have : wp (poll slotFirst h) (pub.inWorld w) (fun _ _ => False)
      (fun e t => e = .badAlloc ∧ t = pub.inWorld (listing h w).afterNum) :=
    wp_poll hs (fun _ => ⟨rfl, rfl⟩) (fun hn => absurd hnum hn)
  unfold wp at this
  cases hx : poll slotFirst h (pub.inWorld w) with
  | ok a t => rw [hx] at this; exact this.elim
  | error e t => rw [hx] at this; obtain ⟨rfl, rfl⟩ := this; rfl

/-- A failed listing retires everything. -/
theorem poll_ret_failed (slotFirst : Bool) {h : Host ω δ} {pub : Publisher δ} {w : ω}
    (hs : Lockstep pub) (hnum : ¬ (listing h w).num < 0) (hret : (listing h w).ret = -1) :
    ∃ t, poll slotFirst h (pub.inWorld w) = .ok ⟨⟩ t
      ∧ t.pub = { retired pub (listed h w) with active := listed h w }
      ∧ t.events = retireEvents pub (gone pub (listed h w)) := by
  have hnone : newcomers pub (listed h w) = [] :=
    List.eq_nil_iff_forall_not_mem.mpr fun id hid =>
      not_mem_listed_of_failed hret id (mem_newcomers.mp hid).1
  have : wp (poll slotFirst h) (pub.inWorld w)
      (fun _ t => t.pub = { retired pub (listed h w) with active := listed h w }
        ∧ t.events = retireEvents pub (gone pub (listed h w))) noThrow := by
    refine wp_poll hs (fun hn => absurd hn hnum) (fun _ => ?_)
    show wp ((newcomers pub (listed h w)).forM _) _ _ _
    rw [hnone, wp_forM_nil]
    exact ⟨rfl, rfl⟩
  obtain ⟨_, t, hrun, ht⟩ := wp_noThrow this
  exact ⟨t, hrun, ht⟩

/-- The poll returned, forgot nothing and reported no termination. -/
def PollHarmless (slotFirst : Bool) (h : Host ω δ) (pub : Publisher δ) (w : ω) : Prop :=
  ∃ t, poll slotFirst h (pub.inWorld w) = .ok ⟨⟩ t
    ∧ t.pub.active = pub.active ∧ t.pub.trackers = pub.trackers
    ∧ ∀ ident, .sent (.termInstance ident) ∉ t.events

theorem not_pollHarmless_of_num {slotFirst : Bool} {h : Host ω δ} {pub : Publisher δ} {w : ω}
    (hs : Lockstep pub) (hnum : (listing h w).num < 0) : ¬ PollHarmless slotFirst h pub w := by
  intro hsome
  obtain ⟨t, hrun, _⟩ := hsome
  rw [poll_num_failed hs hnum] at hrun
  cases hrun

/-- After a failed listing nothing is watched any more. -/
theorem active_eq_empty_of_harmless {slotFirst : Bool} {h : Host ω δ} {pub : Publisher δ} {w : ω}
    (hs : Lockstep pub) (hnum : ¬ (listing h w).num < 0) (hret : (listing h w).ret = -1)
    (hh : PollHarmless slotFirst h pub w) : pub.active = ∅ := by
  obtain ⟨t, hrun, hact, _⟩ := hh
  obtain ⟨t', hrun', ht', _⟩ := poll_ret_failed slotFirst hs hnum hret
  rw [hrun'] at hrun
  injection hrun with _ he
  subst he
  rw [← hact, ht']
  exact ExtTreeSet.ext_mem fun id =>
    iff_of_false (not_mem_listed_of_failed hret id) ExtTreeSet.not_mem_empty

/--
**A failing query is harmless only to a watcher that watches nothing**, and only
when it is the listing that fails. A failed count always throws, and a failed
listing reports every watched domain terminated.
-/
theorem failed_query_harmless_iff (slotFirst : Bool) (h : Host ω δ) (pub : Publisher δ)
    (hr : Reachable slotFirst (anyHost : Host ω δ → Prop) pub) (w : ω)
    (hfail : (listing h w).num = -1 ∨ (listing h w).ret = -1) :
    PollHarmless slotFirst h pub w ↔ ¬ (listing h w).num < 0 ∧ pub.active = ∅ := by
  have hs := lockstep_reachable hr
  -- if it was not the count that failed, it was the listing
  have hret : ¬ (listing h w).num < 0 → (listing h w).ret = -1 := by
    intro hnum
    rcases hfail with hf | hf
    · exact absurd (by rw [hf]; decide) hnum
    · exact hf
  refine ⟨?_, ?_⟩
  · intro hh
    have hnum : ¬ (listing h w).num < 0 := fun hn => not_pollHarmless_of_num hs hn hh
    exact ⟨hnum, active_eq_empty_of_harmless hs hnum (hret hnum) hh⟩
  · intro hboth
    obtain ⟨hnum, hempty⟩ := hboth
    have hunlisted := not_mem_listed_of_failed (hret hnum)
    obtain ⟨t, hrun, ht, hev⟩ := poll_ret_failed slotFirst hs hnum (hret hnum)
    have hno : ∀ id, id ∉ pub.active := fun id => by
      rw [hempty]; exact ExtTreeSet.not_mem_empty
    refine ⟨t, hrun, ?_, ?_, ?_⟩
    · rw [ht]
      exact ExtTreeSet.ext_mem fun id => iff_of_false (hunlisted id) (hno id)
    · rw [ht]
      refine ExtTreeMap.ext_getElem? fun id => ?_
      show (retired pub (listed h w)).trackers[id]? = _
      rw [retired_getElem?, if_neg (hunlisted id)]
      exact (Trees.getElem?_eq_none.mpr fun hk => hno id ((hs.keys id).mp hk)).symm
    · have hgone : gone pub (listed h w) = [] :=
        List.eq_nil_iff_forall_not_mem.mpr fun id hid => hno id (mem_gone.mp hid).1
      intro ident
      rw [hev, hgone]
      exact List.not_mem_nil

/-- Counts what it is told to, then fails to list it. -/
def failingList : Host (List DomId) DomId :=
  { obliging with listDomains := fun _ w => ((-1, []), w) }

theorem failed_query_harmless_failingList :
    ∃ pub : Publisher DomId, Reachable false (anyHost : Host (List DomId) DomId → Prop) pub
      ∧ 1 ∈ pub.active
      ∧ (PollHarmless false failingList pub [1]
        ↔ ¬ (listing failingList [1]).num < 0 ∧ pub.active = ∅) := by
  obtain ⟨pub, hr, hact⟩ := exists_reachable false [1] ([] : List DomId)
  exact ⟨pub, hr, (hact 1).mpr (by decide),
    failed_query_harmless_iff false failingList pub hr [1] (Or.inr rfl)⟩

/-- Domain 1 is running and watched; the listing fails; the poll is not harmless. -/
theorem failed_query_not_harmless :
    ∃ pub : Publisher DomId, Reachable false (anyHost : Host (List DomId) DomId → Prop) pub
      ∧ 1 ∈ pub.active ∧ (listing failingList [1]).ret = -1
      ∧ ¬ PollHarmless false failingList pub [1] := by
  obtain ⟨pub, hr, hact⟩ := exists_reachable false [1] ([] : List DomId)
  have h1 : 1 ∈ pub.active := (hact 1).mpr (by decide)
  refine ⟨pub, hr, h1, rfl, fun hh => ?_⟩
  rw [active_eq_empty_of_harmless (lockstep_reachable hr) (by decide) rfl hh] at h1
  exact ExtTreeSet.not_mem_empty h1

/-! ## A listing cut short -/

/-- Domain `d` is watched as it was in `pub`, and was not handed to the remove handler. -/
structure Kept (pub : Publisher δ) (d : DomId) (t : MonitorState ω δ) : Prop where
  active : d ∈ t.pub.active
  tracker : t.pub.trackers[d]? = pub.trackers[d]?
  unreported : .disappeared d ∉ t.events

/-- The poll keeps `d`, whether it returns or throws. -/
def PollKeeps (slotFirst : Bool) (h : Host ω δ) (pub : Publisher δ) (w : ω) (d : DomId) : Prop :=
  wp (poll slotFirst h) (pub.inWorld w) (fun _ => Kept pub d) (fun _ => Kept pub d)

theorem not_mem_retireEvents {pub : Publisher δ} {ids : List DomId} {d : DomId} (hd : d ∉ ids) :
    .disappeared d ∉ retireEvents pub ids := by
  intro h
  obtain ⟨id, hid, he⟩ := List.mem_flatMap.mp h
  simp only [List.mem_cons, List.not_mem_nil, or_false, Event.disappeared.injEq, reduceCtorEq] at he
  exact hd (he ▸ hid)

theorem not_mem_enrollEvents {pub : Publisher δ} {ids : List DomId} {d : DomId} :
    .disappeared d ∉ enrollEvents pub ids := by
  intro h
  obtain ⟨id, _, he⟩ := List.mem_flatMap.mp h
  simp at he

/-- A listed domain is kept. -/
theorem pollKeeps_of_listed {slotFirst : Bool} {h : Host ω δ} {pub : Publisher δ} {w : ω}
    {d : DomId} (hs : Lockstep pub) (hd : d ∈ pub.active) (hl : d ∈ listed h w) :
    PollKeeps slotFirst h pub w d := by
  have hgone : d ∉ gone pub (listed h w) := fun hg => (mem_gone.mp hg).2 hl
  refine wp_mono (wp_poll_any (s := pub.inWorld w) hs) (fun _ t ht => ?_) (fun e t ht => ?_)
  · refine ⟨by rw [ht.active]; exact hl, ht.kept d hd hl, ?_⟩
    rw [ht.events, List.mem_append, List.mem_append, not_or, not_or]
    exact ⟨⟨List.not_mem_nil, not_mem_retireEvents hgone⟩, not_mem_enrollEvents⟩
  · cases ht with
    | array _ _ ht =>
        -- it threw before it did anything
        subst ht
        exact ⟨hd, rfl, List.not_mem_nil⟩
    | constructor _ _ ht =>
        have hnew : d ∉ newcomers pub (listed h w) := fun hn => (mem_newcomers.mp hn).2 hd
        refine ⟨by rw [ht.active]; exact hd, ?_, ?_⟩
        · rw [ht.old d hnew]
          exact retired_getElem?.trans (if_pos hl)
        · obtain ⟨tail, htail, hlines⟩ := ht.events
          rw [htail, List.mem_append, not_or]
          refine ⟨not_mem_retireEvents hgone, fun hmem => ?_⟩
          obtain ⟨id, hline⟩ := hlines _ hmem
          rcases hline with he | ⟨uuid, he⟩ <;> cases he

/-- An unlisted domain is not. -/
theorem not_pollKeeps_of_not_listed {slotFirst : Bool} {h : Host ω δ} {pub : Publisher δ} {w : ω}
    {d : DomId} (hs : Lockstep pub) (hd : d ∈ pub.active) (hnum : ¬ (listing h w).num < 0)
    (hl : d ∉ listed h w) : ¬ PollKeeps slotFirst h pub w d := by
  refine wp_not.mp (wp_mono (wp_poll_any (s := pub.inWorld w) hs) (fun _ t ht hk => ?_)
    (fun e t ht hk => ?_))
  · exact hl (by have := hk.active; rwa [ht.active] at this)
  · cases ht with
    | array hn => exact hnum hn
    | constructor _ _ ht =>
        -- the remove loop was over by then, and `d` had an entry it has no longer
        have hnew : d ∉ newcomers pub (listed h w) := fun hn => (mem_newcomers.mp hn).2 hd
        obtain ⟨tr, htr, _⟩ := hs.exists_live hd
        have hnone : t.pub.trackers[d]? = none :=
          (ht.old d hnew).trans (retired_getElem?.trans (if_neg hl))
        rw [hk.tracker, htr] at hnone
        cases hnone

/-- **A poll keeps exactly the watched domains it finds listed.** -/
theorem pollKeeps_iff {slotFirst : Bool} {h : Host ω δ} {pub : Publisher δ} {w : ω} {d : DomId}
    (hs : Lockstep pub) (hd : d ∈ pub.active) (hnum : ¬ (listing h w).num < 0) :
    PollKeeps slotFirst h pub w d ↔ d ∈ listed h w := by
  refine ⟨?_, ?_⟩
  · intro hk
    by_contra hl
    exact not_pollKeeps_of_not_listed hs hd hnum hl hk
  · exact pollKeeps_of_listed hs hd

/-- How many domains the first call of a poll counts, a C `int`. -/
def counted (w : Race) : Nat := min w.tick.running.size 2147483647

/-- The ids the second call puts into the array, `counted w` at most. -/
theorem listing_raceHost {pick : Pick} (hpick : pick.Lawful) (rest : Host Race δ) (w : Race) :
    (listing (raceHost pick rest) w).ids = pick (counted w) w.tick.tick.running := by
  have hcap : (intCount w.tick.running.size).toNatClampNeg = counted w := intCount_toNatClampNeg _
  have hids : (listing (raceHost pick rest) w).ids
      = (pick (intCount w.tick.running.size).toNatClampNeg w.tick.tick.running).take
        (intCount (pick (intCount w.tick.running.size).toNatClampNeg
          w.tick.tick.running).length).toNatClampNeg := rfl
  have hle := hpick.bounded (counted w) w.tick.tick.running
  have hcount : counted w ≤ 2147483647 := Nat.min_le_right _ _
  rw [hids, hcap, intCount_toNatClampNeg]
  exact List.take_of_length_le (by omega)

theorem listing_raceHost_num {pick : Pick} {rest : Host Race δ} {w : Race} :
    ¬ (listing (raceHost pick rest) w).num < 0 := intCount_nonneg w.tick.running.size

/-- Every watched domain that runs throughout the poll is kept by it. -/
def NoFalseTermination (slotFirst : Bool) (h : Host Race δ) (pub : Publisher δ) (w : Race) : Prop :=
  ∀ d ∈ pub.active, w.RunsThroughout d → PollKeeps slotFirst h pub w d

/--
**A running domain is reported terminated exactly when the listing left it out**,
which it may only do when more domains run by then than were counted.
-/
theorem noFalseTermination_iff (slotFirst : Bool) (pick : Pick) (hpick : pick.Lawful)
    (rest : Host Race δ) (pub : Publisher δ)
    (hr : Reachable slotFirst (anyHost : Host Race δ → Prop) pub) (w : Race) :
    (NoFalseTermination slotFirst (raceHost pick rest) pub w
      ↔ ∀ d ∈ pub.active, w.RunsThroughout d → d ∈ pick (counted w) w.tick.tick.running)
    ∧ (w.tick.tick.running.size ≤ counted w →
      NoFalseTermination slotFirst (raceHost pick rest) pub w) := by
  have hs := lockstep_reachable hr
  have hkeeps : ∀ d ∈ pub.active, PollKeeps slotFirst (raceHost pick rest) pub w d
      ↔ d ∈ pick (counted w) w.tick.tick.running := by
    intro d hd
    rw [pollKeeps_iff hs hd listing_raceHost_num, mem_listed, listing_raceHost hpick]
  refine ⟨?_, fun hsize d hd hthrough => ?_⟩
  · exact forall₂_congr fun d hd => imp_congr_right fun _ => hkeeps d hd
  · exact (hkeeps d hd).mpr (hpick.complete _ _ hsize d hthrough.tick.tick.1)

/-- Domain 1 runs; domain 2 starts between the two calls. -/
def lateStart : Race where
  running := ExtTreeSet.ofList [(1 : DomId)]
  script := [[], [.start 2]]

theorem runsThroughout_lateStart : lateStart.RunsThroughout 1 := by
  refine ⟨by decide, ?_⟩
  decide

theorem noFalseTermination_lateStart :
    ∃ pub : Publisher DomId, Reachable false (anyHost : Host Race DomId → Prop) pub
      ∧ 1 ∈ pub.active ∧ lateStart.RunsThroughout 1
      ∧ (NoFalseTermination false (raceHost .highestFirst (quietHost Race)) pub lateStart
        ↔ ∀ d ∈ pub.active, lateStart.RunsThroughout d →
          d ∈ Pick.highestFirst (counted lateStart) lateStart.tick.tick.running)
      ∧ (lateStart.tick.tick.running.size ≤ counted lateStart →
        NoFalseTermination false (raceHost .highestFirst (quietHost Race)) pub lateStart) := by
  obtain ⟨pub, hr, hact⟩ := exists_reachable false [1] lateStart
  obtain ⟨hiff, hcomplete⟩ := noFalseTermination_iff false .highestFirst Pick.highestFirst_lawful
    (quietHost Race) pub hr lateStart
  exact ⟨pub, hr, (hact 1).mpr (by decide), runsThroughout_lateStart, hiff, hcomplete⟩

/-- Domain 1 was watched and runs throughout; its place in the array went to domain 2. -/
theorem falseTermination_lateStart :
    ∃ pub : Publisher DomId, Reachable false (anyHost : Host Race DomId → Prop) pub
      ∧ 1 ∈ pub.active ∧ lateStart.RunsThroughout 1
      ∧ ¬ NoFalseTermination false (raceHost .highestFirst (quietHost Race)) pub lateStart := by
  obtain ⟨pub, hr, hact⟩ := exists_reachable false [1] lateStart
  have h1 : 1 ∈ pub.active := (hact 1).mpr (by decide)
  refine ⟨pub, hr, h1, runsThroughout_lateStart, fun hno => ?_⟩
  have hl := (pollKeeps_iff (lockstep_reachable hr) h1 listing_raceHost_num).mp
    (hno 1 h1 runsThroughout_lateStart)
  rw [mem_listed, listing_raceHost Pick.highestFirst_lawful] at hl
  exact absurd hl (by decide)

end CloudMon.Proof
