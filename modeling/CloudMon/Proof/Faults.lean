import CloudMon.Collector.Faults
import CloudMon.Proof.Collected

/-!
# What faults cost

A message that is lost is one publication that nobody hears of, and nothing else: every
message is whole, and none depends on another to be read. So a run in which messages are
lost looks, from the updater, like one in which they were never sent.

That is how it is proved. Beside what a monitor has sent there is what of it has not been
lost, and the invariant of the runs without faults holds of that instead. A loss takes one
publication out of the middle; everything else happens to both lists alike.

A monitor that is started again has forgotten who it has announced. What it publishes is
truthful from then on, but the ends it has missed are never published, so a client may go
on to believe in them. On disk a restart makes no difference.
-/

namespace CloudMon.Proof

open CloudMon Wp Pipeline

variable {μ ο δ φ : Type} [DecidableEq μ] {net : Network μ ο} {names : μ → Bytes}
  {gethostname : μ → Option Bytes} {tov : μ → Double} {s : System μ δ} {f : Faults μ}

/-! ## What is under way -/

/-- A relay's turn on `m`'s message: it is still under way. -/
theorem inFlight_afterTurn_relay {m : μ} {p : Publication} {sender : Sender μ}
    {rest : List (μ × List Frame)} (hs : Flowing net names s) (hp : Deliverable net.mp p)
    (upper : UInt32) (hq : s.links sender = (m, (toMessage net.mp p).send) :: rest)
    (hon : sender ∈ path net m) (hk : net.target sender ≤ net.hops) :
    inFlight net (s.afterTurn net sender m (toMessage net.mp p).send rest upper) m
      = inFlight net s m := by
  obtain ⟨pre, post, hpath⟩ := path_next hon hk
  rw [afterTurn_eq hs hp rest upper]
  unfold inFlight
  simp only [lane_update, only_append, hk, if_true, only_cons_self, only_nil]
  -- off the front of one connection, onto the end of the next on the path
  exact content_move hpath (path_nodup net _) (lane_eq_cons hq)

/-- The proxy's: it was the next to be written. -/
theorem inFlight_afterTurn_proxy {m : μ} {p : Publication} {sender : Sender μ}
    {rest : List (μ × List Frame)} (hs : Flowing net names s) (hp : Deliverable net.mp p)
    (upper : UInt32) (hq : s.links sender = (m, (toMessage net.mp p).send) :: rest)
    (hon : sender ∈ path net m) (hk : ¬ net.target sender ≤ net.hops) :
    inFlight net s m = (toMessage net.mp p).send
      :: inFlight net (s.afterTurn net sender m (toMessage net.mp p).send rest upper) m := by
  have hlane := lane_eq_cons hq
  have hlast := eq_last_of_target hon hk
  obtain ⟨post, hpath⟩ := path_end net m
  have hnd := path_nodup net m
  rw [hpath] at hnd
  -- the proxy sends nothing on, so nothing of m's is on a connection behind it
  have hoff : Sender.relay (net.target sender) ∉ path net m := fun hmem =>
    hk (relay_mem_path.mp hmem).2
  rw [afterTurn_eq hs hp rest upper]
  unfold inFlight
  simp only [lane_update, hk, if_false, List.append_nil]
  rw [content_update_of_not_mem hoff]
  exact content_pop (hpath.trans (by rw [hlast])) (hlast ▸ (List.nodup_cons.mp hnd).1) hlane

/-- What another monitor has under way stays where it is. -/
theorem inFlight_afterTurn_of_ne {m m' : μ} {p : Publication} {sender : Sender μ}
    {rest : List (μ × List Frame)} (hs : Flowing net names s) (hp : Deliverable net.mp p)
    (upper : UInt32) (hq : s.links sender = (m, (toMessage net.mp p).send) :: rest)
    (hm : m' ≠ m) :
    inFlight net (s.afterTurn net sender m (toMessage net.mp p).send rest upper) m'
      = inFlight net s m' := by
  have hfirst : lane m' (Function.update s.links sender rest) = lane m' s.links := by
    refine lane_update_of_only_eq ?_
    rw [hq, only_cons_of_ne (Ne.symm hm)]
  have hmoved : only m' (if net.target sender ≤ net.hops
      then [(m, (toMessage net.mp p).send)] else []) = [] := by
    split
    · rw [only_cons_of_ne (Ne.symm hm), only_nil]
    · rfl
  rw [afterTurn_eq hs hp rest upper]
  unfold inFlight
  rw [lane_update, only_append, hmoved, List.append_nil, hfirst]
  exact congrArg (content · _) (Function.update_eq_self _ (lane m' s.links))

/-- What `m` has under way lacks the message that was lost. -/
theorem inFlight_afterLoss {m : μ} {frames : List Frame} {sender : Sender μ}
    {before after : List (μ × List Frame)} (hq : s.links sender = before ++ (m, frames) :: after)
    (hon : sender ∈ path net m) :
    ∃ front back, inFlight net s m = front ++ frames :: back
      ∧ inFlight net (s.afterLoss sender (before ++ after)) m = front ++ back := by
  have hlane : lane m s.links sender = only m before ++ frames :: only m after := by
    show only m (s.links sender) = _
    rw [hq, only_append, only_cons_self]
  obtain ⟨front, back, hbefore, hafter⟩ := content_drop hon (path_nodup net m) hlane
  refine ⟨front, back, hbefore, ?_⟩
  show content (lane m (Function.update s.links sender _)) _ = _
  rw [lane_update, only_append]
  exact hafter

theorem inFlight_afterLoss_of_ne {m m' : μ} {frames : List Frame} {sender : Sender μ}
    {before after : List (μ × List Frame)} (hq : s.links sender = before ++ (m, frames) :: after)
    (hm : m' ≠ m) :
    inFlight net (s.afterLoss sender (before ++ after)) m' = inFlight net s m' := by
  show content (lane m' (Function.update s.links sender _)) _ = _
  rw [lane_update_of_only_eq]
  · rfl
  · rw [hq, only_append, only_append, only_cons_of_ne (Ne.symm hm)]

/-- What is on a connection after a loss was there before. -/
theorem mem_links_afterLoss {m : μ} {frames : List Frame} {sender : Sender μ}
    {before after : List (μ × List Frame)} (hq : s.links sender = before ++ (m, frames) :: after)
    {sender' : Sender μ} {e : μ × List Frame}
    (he : e ∈ (s.afterLoss sender (before ++ after)).links sender') : e ∈ s.links sender' := by
  change e ∈ Function.update s.links sender _ sender' at he
  by_cases hsender : sender' = sender
  · subst hsender
    rw [Function.update_self] at he
    rw [hq]
    exact (List.Sublist.append_left (List.sublist_cons_self ..) _).subset he
  · rwa [Function.update_of_ne hsender] at he

/-- What has been written is what is not under way any more. -/
theorem delivered_iff {m : μ} {taken late : List Publication}
    (hlate : ∀ p ∈ late, Deliverable net.mp p)
    (hflying : inFlight net s m = late.map fun p => (toMessage net.mp p).send) :
    only m s.written ++ (inFlight net s m).flatMap (arrivingLines net)
        = (taken ++ late).flatMap expectedLines
      ↔ only m s.written = taken.flatMap expectedLines := by
  have hlines : (inFlight net s m).flatMap (arrivingLines net) = late.flatMap expectedLines := by
    rw [hflying, List.flatMap_map]
    exact List.flatMap_congr fun p hp => arrivingLines_toMessage (hlate p hp)
  rw [hlines, List.flatMap_append, List.append_left_inj]

/-! ## What has not been lost -/

/-- The system as it would be had its monitors sent something else. -/
def withSent (s : System μ δ) (sent : μ → List Publication) : System μ δ :=
  { s with monitors := fun m => { s.monitors m with sent := sent m } }

/-- Of what has been sent and not been lost `taken` is written and `late` is under way. -/
structure Surviving (net : Network μ ο) (names : μ → Bytes) (s : System μ δ)
    (taken late : μ → List Publication) : Prop where
  /-- It flows as if it was all there is. -/
  flowing : Flowing net names (withSent s fun m => taken m ++ late m)
  deliverable : ∀ m, ∀ p ∈ late m, Deliverable net.mp p
  flying : ∀ m, inFlight net s m = (late m).map fun p => (toMessage net.mp p).send

theorem surviving_init (gethostname : μ → Option Bytes) (tov : μ → Double) :
    Surviving net (fun m => mHostname (gethostname m))
      (System.init gethostname tov : System μ δ) (fun _ => []) fun _ => [] where
  flowing := flowing_init gethostname tov
  deliverable _ _ hp := absurd hp List.not_mem_nil
  flying _ := List.flatMap_eq_nil_iff.mpr fun _ _ => rfl

section Steps

variable {taken late : μ → List Publication} {m : μ}

theorem afterUpdate_withSent {ω : Type} (s : System μ δ) (kept : μ → List Publication)
    (u : MonitorState ω δ) (alive : Bool) :
    (withSent s kept).afterUpdate net m u alive
      = withSent (s.afterUpdate net m u alive)
        (Function.update kept m (kept m ++ published u.events)) := by
  unfold withSent System.afterUpdate
  congr 1
  funext m'
  by_cases hm : m' = m
  · subst hm
    simp only [Function.update_self]
  · simp only [Function.update_of_ne hm]

/-- **An update** sends, and so far nothing of that is lost. -/
theorem surviving_afterUpdate (h : Surviving net names s taken late) {ω : Type}
    {u : MonitorState ω δ} {alive : Bool} (hnul : 0 ∉ names m) (hclean : Clean (names m) u)
    (hsend : ∀ p ∈ published u.events, Sendable net.mp p) :
    Surviving net names (s.afterUpdate net m u alive) taken
      (Function.update late m (late m ++ published u.events)) := by
  have hgood : ∀ p ∈ published u.events, Deliverable net.mp p := by
    intro p hp
    refine ⟨names m, hnul, hclean.sent p ?_, hsend p hp⟩
    obtain ⟨e, he, hep⟩ := List.mem_filterMap.mp hp
    cases e <;> simp at hep
    exact hep ▸ he
  have hkept : Function.update (fun m => taken m ++ late m) m
        (taken m ++ late m ++ published u.events)
      = fun m' => taken m' ++ Function.update late m (late m ++ published u.events) m' := by
    funext m'
    by_cases hm : m' = m
    · subst hm
      rw [Function.update_self, Function.update_self, List.append_assoc]
    · rw [Function.update_of_ne hm, Function.update_of_ne hm]
  refine ⟨?_, fun m' p hp => ?_, fun m' => ?_⟩
  · -- as if it had been the first update of all
    rw [← hkept, ← afterUpdate_withSent]
    exact flowing_afterUpdate h.flowing hnul hclean hsend
  · by_cases hm : m' = m
    · subst hm
      rw [Function.update_self] at hp
      exact (List.mem_append.mp hp).elim (h.deliverable m' p) (hgood p)
    · rw [Function.update_of_ne hm] at hp
      exact h.deliverable m' p hp
  · by_cases hm : m' = m
    · subst hm
      rw [inFlight_afterUpdate_self hgood, h.flying, Function.update_self, List.map_append]
    · rw [inFlight_afterUpdate_of_ne hm, h.flying, Function.update_of_ne hm]

/-- **A relay's turn** loses nothing. -/
theorem surviving_afterTurn_relay (h : Surviving net names s taken late) {sender : Sender μ}
    {frames : List Frame} {rest : List (μ × List Frame)} (upper : UInt32)
    (hq : s.links sender = (m, frames) :: rest) (hk : net.target sender ≤ net.hops) :
    Surviving net names (s.afterTurn net sender m frames rest upper) taken late := by
  refine ⟨flowing_afterTurn h.flowing upper hq, h.deliverable, fun m' => ?_⟩
  have hfirst : (m, frames) ∈ (withSent s fun m => taken m ++ late m).links sender :=
    hq ▸ List.mem_cons_self
  have hon := h.flowing.onPath sender m frames hfirst
  obtain ⟨p, hp, rfl⟩ := h.flowing.carried sender m frames hfirst
  rw [← h.flying]
  by_cases hm : m' = m
  · subst hm
    exact inFlight_afterTurn_relay h.flowing hp upper hq hon hk
  · exact inFlight_afterTurn_of_ne h.flowing hp upper hq hm

/-- What is under way has become shorter at its front, and what is taken longer at its end. -/
theorem append_update {p : Publication} {more : List Publication}
    (hlate : late m = p :: more) : (fun m' => Function.update taken m (taken m ++ [p]) m'
      ++ Function.update late m more m') = fun m' => taken m' ++ late m' := by
  funext m'
  by_cases hm : m' = m
  · subst hm
    rw [Function.update_self, Function.update_self, hlate, List.append_assoc]
    rfl
  · rw [Function.update_of_ne hm, Function.update_of_ne hm]

/-- **The proxy's** writes the first of what is under way. -/
theorem surviving_afterTurn_proxy (h : Surviving net names s taken late) {sender : Sender μ}
    {frames : List Frame} {rest : List (μ × List Frame)} (upper : UInt32)
    (hq : s.links sender = (m, frames) :: rest) (hk : ¬ net.target sender ≤ net.hops) :
    ∃ p more, frames = (toMessage net.mp p).send ∧ Deliverable net.mp p ∧ late m = p :: more
      ∧ Surviving net names (s.afterTurn net sender m frames rest upper)
        (Function.update taken m (taken m ++ [p])) (Function.update late m more) := by
  have hfirst : (m, frames) ∈ (withSent s fun m => taken m ++ late m).links sender :=
    hq ▸ List.mem_cons_self
  have hon := h.flowing.onPath sender m frames hfirst
  obtain ⟨q, hqgood, rfl⟩ := h.flowing.carried sender m frames hfirst
  have hnext := inFlight_afterTurn_proxy h.flowing hqgood upper hq hon hk
  obtain ⟨p, more, hlate, hframes, hmore⟩ :=
    List.map_eq_cons_iff.mp ((h.flying m).symm.trans hnext)
  refine ⟨p, more, hframes.symm, h.deliverable m p (hlate ▸ List.mem_cons_self), hlate, ?_,
    fun m' r hr => ?_, fun m' => ?_⟩
  · rw [append_update hlate]
    exact flowing_afterTurn h.flowing upper hq
  · by_cases hm : m' = m
    · subst hm
      rw [Function.update_self] at hr
      exact h.deliverable m' r (hlate ▸ List.mem_cons_of_mem _ hr)
    · rw [Function.update_of_ne hm] at hr
      exact h.deliverable m' r hr
  · by_cases hm : m' = m
    · subst hm
      rw [Function.update_self]
      exact hmore.symm
    · rw [Function.update_of_ne hm, ← h.flying]
      exact inFlight_afterTurn_of_ne h.flowing hqgood upper hq hm

theorem Surviving.only_written (h : Surviving net names s taken late) (m : μ) :
    only m s.written = (taken m).flatMap expectedLines :=
  (delivered_iff (h.deliverable m) (h.flying m)).mp (h.flowing.delivered m)

/-- **A loss** takes out one of the publications under way. -/
theorem surviving_afterLoss (h : Surviving net names s taken late) {sender : Sender μ}
    {frames : List Frame} {before after : List (μ × List Frame)}
    (hq : s.links sender = before ++ (m, frames) :: after) :
    ∃ early p more, late m = early ++ p :: more
      ∧ Surviving net names (s.afterLoss sender (before ++ after)) taken
        (Function.update late m (early ++ more)) := by
  have hmem : (m, frames) ∈ s.links sender := by
    rw [hq]
    exact List.mem_append_right _ (List.mem_cons_self ..)
  obtain ⟨front, back, hbefore, hafter⟩ :=
    inFlight_afterLoss hq (h.flowing.onPath sender m frames hmem)
  obtain ⟨early, rest, hlate, hfront, hrest⟩ :=
    List.map_eq_append_iff.mp ((h.flying m).symm.trans hbefore)
  obtain ⟨p, more, rfl, -, hback⟩ := List.map_eq_cons_iff.mp hrest
  have hsub : (early ++ more).Sublist (late m) :=
    hlate ▸ .append_left (List.sublist_cons_self ..) _
  -- nobody has more under way than before, so all is deliverable and well formed still
  have hless : ∀ m', (Function.update late m (early ++ more) m').Sublist (late m') := by
    intro m'
    by_cases hm : m' = m
    · subst hm
      rw [Function.update_self]
      exact hsub
    · rw [Function.update_of_ne hm]
  have hgood : ∀ m', ∀ q ∈ Function.update late m (early ++ more) m', Deliverable net.mp q :=
    fun m' q hq => h.deliverable m' q ((hless m').subset hq)
  have hflying : ∀ m', inFlight net (s.afterLoss sender (before ++ after)) m'
      = (Function.update late m (early ++ more) m').map fun q => (toMessage net.mp q).send := by
    intro m'
    by_cases hm : m' = m
    · subst hm
      rw [Function.update_self, hafter, List.map_append, hfront, hback]
    · rw [Function.update_of_ne hm, inFlight_afterLoss_of_ne hq hm]
      exact h.flying m'
  refine ⟨early, p, more, hlate, ⟨h.flowing.receivers,
    fun sender' m' frames' he => h.flowing.carried sender' m' frames' (mem_links_afterLoss hq he),
    fun sender' m' frames' he => h.flowing.onPath sender' m' frames' (mem_links_afterLoss hq he),
    h.flowing.clean, fun m' q hq => ?_,
    fun m' => (delivered_iff (hgood m') (hflying m')).mpr (h.only_written m')⟩, hgood, hflying⟩
  exact h.flowing.wellformed m' q ((List.Sublist.append_left (hless m') _).subset hq)

theorem sent_afterRestart (s : System μ δ) (gethostname : Option Bytes) (tov : Double) (m' : μ) :
    ((s.afterRestart m gethostname tov).monitors m').sent = (s.monitors m').sent := by
  show (Function.update s.monitors m _ m').sent = _
  by_cases hm : m' = m
  · subst hm
    rw [Function.update_self]
  · rw [Function.update_of_ne hm]

/-- **A restart of a monitor** sends nothing and loses nothing. -/
theorem surviving_afterRestart
    (h : Surviving net (fun m => mHostname (gethostname m)) s taken late) (tov : Double) :
    Surviving net (fun m => mHostname (gethostname m)) (s.afterRestart m (gethostname m) tov)
      taken late := by
  refine ⟨⟨h.flowing.receivers, h.flowing.carried, h.flowing.onPath, fun m' halive => ?_,
    h.flowing.wellformed, h.flowing.delivered⟩, h.deliverable, h.flying⟩
  show CleanNames _ (Function.update s.monitors m _ m').pub
  by_cases hm : m' = m
  · -- the new process has no tracker yet
    subst hm
    rw [Function.update_self]
    exact cleanNames_init _ _
  · change (Function.update s.monitors m _ m').alive = true at halive
    rw [Function.update_of_ne hm] at halive ⊢
    exact h.flowing.clean m' halive

end Steps

section Runs

/-! ## Process by process -/

/-- What a monitor has published, cut where it was started again: one account a process. -/
structure Lives (host : Bytes) (sent : List Publication) (restarts : Nat)
    (lives : List (List Publication)) : Prop where
  flatten : lives.flatten = sent
  length : lives.length = restarts + 1
  accounts : ∀ life ∈ lives, ∃ aggs cut, Account host life aggs cut

/-- **Every process tells things in order** from when it was started. -/
theorem telling_of_faultyRuns (hr : FaultyRuns net gethostname tov s f) (m : μ) :
    ∃ past : List (List Publication), past.length = f.restarts m
      ∧ (∀ life ∈ past, ∃ aggs cut, Account (mHostname (gethostname m)) life aggs cut)
      ∧ Telling (mHostname (gethostname m)) (s.monitors m) past.flatten := by
  induction hr with
  | init => exact ⟨[], rfl, fun _ hlife => absurd hlife List.not_mem_nil, telling_started _ _ _⟩
  | update _ hstep ih =>
      obtain ⟨past, hlength, hpast, hnow⟩ := ih
      exact ⟨past, hlength, hpast, telling_update hstep hnow⟩
  | deliver _ hstep ih =>
      cases hstep with
      | turn sender m' frames rest upper _ _ => exact ih
  | @mishap s _ f _ _ hstep ih =>
      obtain ⟨past, hlength, hpast, hnow⟩ := ih
      cases hstep with
      | loss sender m' frames before after _ => exact ⟨past, hlength, hpast, hnow⟩
      | relay k _ => exact ⟨past, hlength, hpast, hnow⟩
      | restart m' tov' =>
          by_cases hm : m = m'
          · -- the process that ran until now has come to its end
            subst hm
            obtain ⟨now, aggs, cut, hsent, haccount, _⟩ := hnow
            have hmon : (s.afterRestart m (gethostname m) tov').monitors m
                = ⟨Publisher.init (gethostname m) tov', true, (s.monitors m).sent⟩ :=
              Function.update_self ..
            refine ⟨past ++ [now], ?_, fun life hlife => ?_, ?_⟩
            · show (past ++ [now]).length = Function.update f.restarts m _ m
              rw [List.length_append, hlength, Function.update_self]
              rfl
            · rcases List.mem_append.mp hlife with hlife | hlife
              · exact hpast life hlife
              · exact List.mem_singleton.mp hlife ▸ ⟨aggs, cut, haccount⟩
            · rw [hmon, List.flatten_append, List.flatten_singleton, hsent]
              exact telling_started _ _ _
          · -- another monitor's restart
            have hmon : (s.afterRestart m' (gethostname m') tov').monitors m = s.monitors m :=
              Function.update_of_ne hm ..
            refine ⟨past, ?_, hpast, hmon ▸ hnow⟩
            show past.length = Function.update f.restarts m' _ m
            rw [Function.update_of_ne hm, hlength]
  | collector _ ih => exact ih

theorem exists_lives (hr : FaultyRuns net gethostname tov s f) (m : μ) :
    ∃ lives, Lives (mHostname (gethostname m)) (s.monitors m).sent (f.restarts m) lives := by
  obtain ⟨past, hlength, hpast, now, aggs, cut, hsent, haccount, _⟩ := telling_of_faultyRuns hr m
  refine ⟨past ++ [now], ?_, ?_, fun life hlife => ?_⟩
  · rw [List.flatten_append, List.flatten_singleton, hsent]
  · rw [List.length_append, hlength]
    rfl
  · rcases List.mem_append.mp hlife with hlife | hlife
    · exact hpast life hlife
    · exact List.mem_singleton.mp hlife ▸ ⟨aggs, cut, haccount⟩

/-! ## The publications' names -/

theorem sources_of_faultyRuns (hr : FaultyRuns net gethostname tov s f)
    (hplain : ∀ m, ∀ agg ∈ aggregatesOf (s.monitors m).sent, Plain agg) :
    Sources (fun m => mHostname (gethostname m)) fun m => (s.monitors m).sent := by
  have hlife : ∀ m, ∀ p ∈ (s.monitors m).sent, ∃ life aggs cut, p ∈ life
      ∧ life.Sublist (s.monitors m).sent
      ∧ Account (mHostname (gethostname m)) life aggs cut := by
    intro m p hp
    obtain ⟨lives, hlives⟩ := exists_lives hr m
    rw [← hlives.flatten] at hp ⊢
    obtain ⟨life, hmem, hp⟩ := List.mem_flatten.mp hp
    obtain ⟨aggs, cut, haccount⟩ := hlives.accounts life hmem
    exact ⟨life, aggs, cut, hp, List.sublist_flatten_of_mem hmem, haccount⟩
  refine ⟨fun m z hz => ?_, fun m agg hagg => ?_⟩
  · -- an item's names are those of the process that published it
    obtain ⟨p, hp, hz⟩ := List.mem_flatMap.mp hz
    obtain ⟨life, aggs, cut, hp, hsub, haccount⟩ := hlife m p hp
    exact haccount.legible (zero_not_mem_mHostname _)
      (fun agg hagg => hplain m agg ((hsub.filterMap _).subset hagg)) z
      (List.mem_flatMap.mpr ⟨p, hp, hz⟩)
  · obtain ⟨p, hp, hagg⟩ := List.mem_filterMap.mp hagg
    obtain ⟨life, aggs, cut, hp, _, haccount⟩ := hlife m p hp
    exact haccount.hostname (List.mem_filterMap.mpr ⟨p, hp, hagg⟩)

/-! ## A client that misses some -/

omit [DecidableEq μ] in
theorem departures_notices (ps : List Publication) :
    Follower.departures (ps.map notice) = endsOf ps := by
  rw [Follower.departures, endsOf, List.filterMap_map]
  refine List.filterMap_congr fun p _ => ?_
  cases p <;> rfl

/--
**What a client misses.** Whatever has been lost of what a monitor sent before an aggregate,
and however often it was started again, a client that hears the aggregate knows all it
lists. What else it knows are instances whose ends have been lost, or that were there when
a process of the monitor ended.
-/
theorem client_of_faultyRuns (net : Network μ ο) (gethostname : μ → Option Bytes)
    (tov : μ → Double) (s : System μ δ) (f : Faults μ)
    (hr : FaultyRuns net gethostname tov s f) (m : μ) :
    ∃ lives, Lives (mHostname (gethostname m)) (s.monitors m).sent (f.restarts m) lives
      ∧ ∀ missed said heard later key agg,
        (s.monitors m).sent = missed ++ said ++ Publication.aggregate key agg :: later →
        heard.Sublist said →
        instances agg.hostname agg.domainStats
            ⊆ ((heard ++ [Publication.aggregate key agg]).map notice).foldl Follower.hear ∅
          ∧ ∀ ident ∈ ((heard ++ [Publication.aggregate key agg]).map notice).foldl
              Follower.hear ∅,
            ident ∉ instances agg.hostname agg.domainStats →
              (endsOf heard).countP (· = ident) < (endsOf said).countP (· = ident)
                ∨ ∃ life ∈ lives.dropLast, ident ∈ (life.map notice).foldl Follower.hear ∅ := by
  obtain ⟨lives, hlives⟩ := exists_lives hr m
  refine ⟨lives, hlives, fun missed said heard later key agg hsent hheard => ?_⟩
  have htrue : ∀ life ∈ lives.map (List.map notice), Follower.Truthful ∅ life := by
    intro life hlife
    obtain ⟨life, hmem, rfl⟩ := List.mem_map.mp hlife
    obtain ⟨aggs, cut, haccount⟩ := hlives.accounts life hmem
    exact haccount.truthful
  have hflatten := congrArg (List.map notice) (hlives.flatten.trans hsent)
  rw [List.map_flatten, List.map_append, List.map_append, List.map_cons] at hflatten
  rw [List.map_append, ← departures_notices, ← departures_notices]
  obtain ⟨hall, hwrong⟩ := Follower.foldl_present_lives htrue hflatten (hheard.map notice)
  refine ⟨hall, fun ident hident hout => (hwrong ident hident hout).imp_right ?_⟩
  rintro ⟨life, hlife, hmem⟩
  rw [← List.map_dropLast] at hlife
  obtain ⟨ps, hps, rfl⟩ := List.mem_map.mp hlife
  exact ⟨ps, hps, hmem⟩

end Runs

/-! ## The domain whose end is lost -/

theorem faultyRuns_of_runs (hr : Runs net gethostname tov s) :
    FaultyRuns net gethostname tov s .none := by
  induction hr with
  | init => exact .init
  | update _ hstep ih => exact ih.update hstep
  | deliver _ hstep ih => exact ih.deliver hstep

/-- A publication of the domain's monitor on its way. -/
def onItsWay (p : Publication) : Unit × List Frame := ((), (toMessage noRelay.mp p).send)

theorem links_afterSecond : afterSecond.links (.monitor ())
    = [onItsWay (.aggregate (bytes "monitor.servers.unknown-host") oneDomain)]
      ++ onItsWay (.termInstance (bytes "servers.unknown-host.uuid-1"))
      :: [onItsWay (.aggregate (bytes "monitor.servers.unknown-host") noDomain)] := by
  show (([] : List (Unit × List Frame))
    ++ (transmitted ((published firstUpdate.events).map _)).map _)
      ++ (transmitted ((published secondUpdate.events).map _)).map _ = _
  rw [published_firstUpdate, published_secondUpdate]
  rfl

/-- The system with the end of the domain lost. -/
def endLost : System Unit DomId :=
  afterSecond.afterLoss (.monitor ())
    ([onItsWay (.aggregate (bytes "monitor.servers.unknown-host") oneDomain)]
      ++ [onItsWay (.aggregate (bytes "monitor.servers.unknown-host") noDomain)])

theorem faultyRuns_endLost : FaultyRuns noRelay (fun _ => none) (fun _ => .fin 0) endLost
    ⟨Function.update (fun _ => 0) () 1, fun _ => 0⟩ :=
  (faultyRuns_of_runs runs_afterSecond).mishap (.loss (.monitor ()) () _ _ _ links_afterSecond)

/-- A client that has missed it still believes in the one domain, and in nothing else. -/
theorem client_of_faultyRuns_endLost :
    (([.aggregate (bytes "monitor.servers.unknown-host") oneDomain,
      .aggregate (bytes "monitor.servers.unknown-host") noDomain] :
        List Publication).map notice).foldl Follower.hear ∅
      ⊆ {bytes "servers.unknown-host.uuid-1"} := by
  obtain ⟨lives, hlives, hclient⟩ :=
    client_of_faultyRuns noRelay _ _ endLost _ faultyRuns_endLost ()
  have hone : lives.dropLast = [] := by
    rw [← List.length_eq_zero_iff, List.length_dropLast, hlives.length]
    rfl
  intro ident hident
  rcases (hclient [] [.aggregate (bytes "monitor.servers.unknown-host") oneDomain,
      .termInstance (bytes "servers.unknown-host.uuid-1")]
    [.aggregate (bytes "monitor.servers.unknown-host") oneDomain] [] _ noDomain sent_afterSecond
    (.cons_cons _ (List.nil_sublist _))).2 ident hident (Finset.notMem_empty ident) with
    hmissed | ⟨life, hlife, _⟩
  · obtain ⟨missed, hmem, heq⟩ := List.countP_pos_iff.mp (Nat.zero_lt_of_lt hmissed)
    rw [Finset.mem_singleton, ← of_decide_eq_true heq]
    exact List.mem_singleton.mp hmem
  · exact absurd (hone ▸ hlife) List.not_mem_nil

end CloudMon.Proof
