import CloudMon.Proof.CpuTime
import CloudMon.Proof.Latest
import CloudMon.Proof.Update

/-!
# A second of its own

Whisper keeps one value for a file and a second. The time of a sample gets there with
six decimals, so a reading just before a full second is carried into it; what keeps two
samples apart is that a later reading, a second away at least, is carried at least as
far. Rounding keeps the order, and a whole second is a million units of the last
decimal, an even number, so rounding commutes with it.

`int` cuts towards zero where rounding down is meant. The two are the same from the
Epoch on, and no clock of a running system is set before it.
-/

namespace CloudMon.Proof

open CloudMon LibvirtDomainStatPublisher Wp

variable {ω δ φ : Type}

/-! ## Rounding -/

/-- What `%f` makes of a time. -/
def sixDecimals (q : ℚ) : ℚ := Decimal.roundHalfEven (q * 10 ^ 6) / 10 ^ 6

theorem sixDecimals_add_one (q : ℚ) : sixDecimals (q + 1) = sixDecimals q + 1 := by
  have hunits : (q + 1) * 10 ^ 6 = q * 10 ^ 6 + ((10 ^ 6 : ℤ) : ℚ) := by
    push_cast
    ring
  unfold sixDecimals
  rw [hunits, Decimal.roundHalfEven_add (by decide)]
  push_cast
  ring

theorem sixDecimals_mono {q r : ℚ} (h : q ≤ r) : sixDecimals q ≤ sixDecimals r := by
  have hround := Decimal.roundHalfEven_mono (mul_le_mul_of_nonneg_right h (by positivity :
    (0 : ℚ) ≤ 10 ^ 6))
  exact div_le_div_of_nonneg_right (by exact_mod_cast hround) (by positivity)

/-- **Times a second apart stay in different seconds**, whatever is carried. -/
theorem floor_sixDecimals_lt {q r : ℚ} (h : q + 1 ≤ r) :
    ⌊sixDecimals q⌋ < ⌊sixDecimals r⌋ := by
  calc ⌊sixDecimals q⌋ < ⌊sixDecimals q⌋ + 1 := Int.lt_succ _
    _ = ⌊sixDecimals (q + 1)⌋ := by rw [sixDecimals_add_one, Int.floor_add_one]
    _ ≤ ⌊sixDecimals r⌋ := Int.floor_le_floor (sixDecimals_mono h)

theorem sixDecimals_nonneg {q : ℚ} (h : 0 ≤ q) : 0 ≤ sixDecimals q := by
  have hround : (0 : ℚ) ≤ Decimal.roundHalfEven (q * 10 ^ 6) := by
    exact_mod_cast Decimal.roundHalfEven_nonneg (mul_nonneg h (by positivity))
  unfold sixDecimals
  positivity

/-- The written time, read back. -/
theorem pyFloat_formatF_fin {q : ℚ} {d : Double} (h : pyFloat (formatF (.fin q)) = some d) :
    d.toRat? = some (sixDecimals q) := by
  have hread := pyFloat_of_parse (Decimal.fixedText_isNumChar 6 q) (Decimal.parse_fixedText_eq 6 q)
  obtain rfl := Option.some.inj (hread.symm.trans h)
  exact toRat_ofRat _ _

/-- From zero on, cutting is rounding down. -/
theorem tdiv_eq_floor {q : ℚ} (h : 0 ≤ q) : q.num.tdiv q.den = ⌊q⌋ := by
  rw [Int.tdiv_eq_ediv_of_nonneg (Rat.num_nonneg.mpr h), Rat.floor_def']

/-! ## A monitor's samples -/

/-- `update` up to its look at the clock. -/
def clockReading (slotFirst : Bool) (h : Host ω δ) : MonitorM ω δ Timespec := do
  poll slotFirst h
  setAggStats fun agg => { agg with domainStats := [] }
  (← get).pub.trackers.toList.forM (updateTracker h)
  onHost (ask h.realtimeNow)

theorem update_eq (slotFirst : Bool) (h : Host ω δ) : update slotFirst h = (do
    let now ← clockReading slotFirst h
    setAggStats fun agg => { agg with tov := toDouble now }
    let agg := (← get).pub.aggStats
    log (.sent (.aggregate (aggregateKey agg.hostname) agg))) := by
  unfold update clockReading
  simp only [bind_assoc]
  rfl

/-- The time published is the one that was read. -/
theorem update_tov {slotFirst : Bool} {h : Host ω δ} {s s' t : MonitorState ω δ} {now : Timespec}
    (hread : clockReading slotFirst h s = .ok now s') (hrun : update slotFirst h s = .ok ⟨⟩ t) :
    t.pub.aggStats.tov = toDouble now := by
  rw [update_eq] at hrun
  change EStateM.bind (clockReading slotFirst h) _ s = _ at hrun
  rw [EStateM.bind, hread] at hrun
  cases hrun
  rfl

/-- The aggregates in a trail. -/
def aggregatesIn (trail : List Event) : List AggregateDomainStats :=
  trail.filterMap fun
    | .sent (.aggregate _ agg) => some agg
    | _ => none

theorem aggregatesIn_append (trail trail' : List Event) :
    aggregatesIn (trail ++ trail') = aggregatesIn trail ++ aggregatesIn trail' := by
  unfold aggregatesIn
  rw [List.filterMap_append]

theorem aggregatesIn_retireEvents (pub : Publisher δ) (ids : List DomId) :
    aggregatesIn (retireEvents pub ids) = [] := by
  induction ids with
  | nil => rfl
  | cons id ids ih => exact ih

theorem aggregatesIn_enrollEvents (pub : Publisher δ) (ids : List DomId) :
    aggregatesIn (enrollEvents pub ids) = [] := by
  induction ids with
  | nil => rfl
  | cons id ids ih => exact ih

/-- **An update publishes one sample.** -/
theorem aggregatesIn_update {slotFirst : Bool} {h : Host ω δ} {pub : Publisher δ} {w : ω}
    {t : MonitorState ω δ} (hpub : Lockstep pub)
    (hrun : update slotFirst h (pub.inWorld w) = .ok ⟨⟩ t) :
    aggregatesIn t.events = [t.pub.aggStats] := by
  rw [(wp_of_ok (wp_update_any hpub) hrun).events, aggregatesIn_append, aggregatesIn_append,
    aggregatesIn_append, aggregatesIn_retireEvents, aggregatesIn_enrollEvents]
  rfl

/--
The runs of a monitor, on whatever host at each update: its publisher, what it read off
the clock, and what it has published.
-/
inductive Sampled (slotFirst : Bool) (gethostname : Option Bytes) (tov : Double) :
    Publisher δ → List Timespec → List AggregateDomainStats → Prop where
  | init : Sampled slotFirst gethostname tov (Publisher.init gethostname tov) [] []
  | update {pub : Publisher δ} {readings : List Timespec} {aggs : List AggregateDomainStats}
      {Ω : Type} {h : Host Ω δ} {w : Ω} {now : Timespec} {s t : MonitorState Ω δ} :
      Sampled slotFirst gethostname tov pub readings aggs →
      clockReading slotFirst h (pub.inWorld w) = .ok now s →
      update slotFirst h (pub.inWorld w) = .ok ⟨⟩ t →
      Sampled slotFirst gethostname tov t.pub (readings ++ [now]) (aggs ++ aggregatesIn t.events)

variable {slotFirst : Bool} {gethostname : Option Bytes} {tov : Double} {pub : Publisher δ}
  {readings : List Timespec} {aggs : List AggregateDomainStats}

/-- **A monitor's samples carry the times it read**, one each. -/
theorem Sampled.tovs (h : Sampled slotFirst gethostname tov pub readings aggs) :
    Lockstep pub ∧ aggs.map (·.tov) = readings.map toDouble := by
  induction h with
  | init => exact ⟨lockstep_init gethostname tov, rfl⟩
  | update _ hread hrun ih =>
      refine ⟨(wp_of_ok (wp_update_any ih.1) hrun).lockstep, ?_⟩
      rw [List.map_append, List.map_append, ih.2, aggregatesIn_update ih.1 hrun, List.map_singleton,
        List.map_singleton, update_tov hread hrun]

/-! ## The calls -/

/-- The second a time falls into. -/
def wholeSecond (c : WhisperUpdate) : Option ℤ := c.timestamp.toRat?.map Int.floor

/-- It falls into an earlier second. -/
def Before (c c' : WhisperUpdate) : Prop :=
  ∃ k k', wholeSecond c = some k ∧ wholeSecond c' = some k' ∧ k < k'

/-- A time at least a second before another. -/
def SecondOlder (d d' : Double) : Prop := ∃ q q', d = .fin q ∧ d' = .fin q' ∧ q + 1 ≤ q'

/-- No domain is in the sample twice. -/
def Distinct (agg : AggregateDomainStats) : Prop :=
  (agg.domainStats.map (·.domainUuid)).Nodup

theorem toDouble_eq (ts : Timespec) : toDouble ts = .fin ((nanos ts : ℚ) / 10 ^ 9) := by
  have hnanos : (nanos ts : ℚ) = ts.tvSec * 10 ^ 9 + ts.tvNsec := by
    unfold nanos
    push_cast
    ring
  rw [toDouble, hnanos, add_div, mul_div_cancel_right₀ _ (by positivity)]

theorem secondOlder_toDouble {r r' : Timespec} (h : nanos r + 10 ^ 9 ≤ nanos r') :
    SecondOlder (toDouble r) (toDouble r') := by
  refine ⟨_, _, toDouble_eq r, toDouble_eq r', ?_⟩
  have hgap : (nanos r : ℚ) + 10 ^ 9 ≤ nanos r' := by exact_mod_cast h
  rw [div_add_one (by positivity)]
  exact div_le_div_of_nonneg_right hgap (by positivity)

/-- **Every sample is a second older than all that come after it.** -/
theorem secondOlder_pairwise (htovs : aggs.map (·.tov) = readings.map toDouble)
    (hspaced : readings.IsChain fun r r' => nanos r + 10 ^ 9 ≤ nanos r') :
    aggs.Pairwise fun agg agg' => SecondOlder agg.tov agg'.tov := by
  have : Trans (fun r r' : Timespec => nanos r + 10 ^ 9 ≤ nanos r')
      (fun r r' : Timespec => nanos r + 10 ^ 9 ≤ nanos r')
      (fun r r' : Timespec => nanos r + 10 ^ 9 ≤ nanos r') := ⟨fun h h' => by linarith⟩
  rw [← List.pairwise_map, htovs, List.pairwise_map]
  exact hspaced.pairwise.imp secondOlder_toDouble

/-- The second a recorded call falls into. -/
theorem Recorded.wholeSecond {u : Updater} {agg : AggregateDomainStats}
    {e : DomainStats × Metric} {c : WhisperUpdate} (h : Recorded u agg e c) {q : ℚ}
    (hq : agg.tov = .fin q) : Proof.wholeSecond c = some ⌊sixDecimals q⌋ := by
  have hwritten := h.written
  rw [hq] at hwritten
  rw [Proof.wholeSecond, pyFloat_formatF_fin hwritten, Option.map_some]

theorem Recorded.before {u : Updater} {agg agg' : AggregateDomainStats}
    {e e' : DomainStats × Metric} {c c' : WhisperUpdate} (h : Recorded u agg e c)
    (h' : Recorded u agg' e' c') (hold : SecondOlder agg.tov agg'.tov) : Before c c' := by
  obtain ⟨q, q', hq, hq', hgap⟩ := hold
  exact ⟨_, _, h.wholeSecond hq, h'.wholeSecond hq', floor_sixDecimals_lt hgap⟩

/-! ## All calls of a run -/

/-- What keeps the lines of two lists apart keeps what they became apart. -/
theorem pairwise_zip {α β : Type} {R : α → β → Prop} {S : α → α → Prop} {T : α × β → α × β → Prop}
    {xs : List α} {ys : List β} (h : List.Forall₂ R xs ys) (hxs : xs.Pairwise S)
    (hT : ∀ {x y x' y'}, R x y → R x' y' → S x x' → T (x, y) (x', y')) :
    (xs.zip ys).Pairwise T := by
  induction h with
  | nil => exact .nil
  | @cons x y xs ys hxy hrest ih =>
      obtain ⟨hx, hxs⟩ := List.pairwise_cons.mp hxs
      refine List.pairwise_cons.mpr ⟨fun (x', y') hz => ?_, ih hxs⟩
      exact hT hxy (List.forall₂_zip hrest hz) (hx x' (List.of_mem_zip hz).1)

/-- Two lines of a history are of one sample, or the second is of one a second younger. -/
theorem historyEntries_pairwise
    {R : AggregateDomainStats → DomainStats × Metric → DomainStats × Metric → Prop}
    (hlines : ∀ agg ∈ aggs, (entries agg).Pairwise (R agg))
    (h : aggs.Pairwise fun agg agg' => SecondOlder agg.tov agg'.tov) :
    (historyEntries aggs).Pairwise fun x y =>
      (x.1 = y.1 ∧ R x.1 x.2 y.2) ∨ SecondOlder x.1.tov y.1.tov := by
  refine List.pairwise_flatMap.mpr ⟨fun agg hagg => ?_, h.imp fun hold x hx y hy => ?_⟩
  · exact List.pairwise_map.mpr ((hlines agg hagg).imp fun hR => Or.inl ⟨rfl, hR⟩)
  · obtain ⟨e, -, rfl⟩ := List.mem_map.mp hx
    obtain ⟨e', -, rfl⟩ := List.mem_map.mp hy
    exact Or.inr hold

/-- The lines of one sample are for files of their own. -/
theorem entries_pairwise (u : Updater) {agg : AggregateDomainStats} (hplain : Plain agg)
    (hdistinct : Distinct agg) : (entries agg).Pairwise fun e e' =>
      metricPath u agg.hostname e.1.domainUuid e.2
        ≠ metricPath u agg.hostname e'.1.domainUuid e'.2 := by
  have hnames : (entries agg).Pairwise fun e e' =>
      e.1.domainUuid ≠ e'.1.domainUuid ∨ e.2 ≠ e'.2 := by
    refine List.pairwise_flatMap.mpr ⟨fun dom _ => ?_, ?_⟩
    · have hall : Metric.all.Pairwise (· ≠ ·) := by decide
      exact List.pairwise_map.mpr (hall.imp Or.inr)
    · refine (List.pairwise_map.mp hdistinct).imp fun hne x hx y hy => ?_
      obtain ⟨_, -, rfl⟩ := List.mem_map.mp hx
      obtain ⟨_, -, rfl⟩ := List.mem_map.mp hy
      exact Or.inl hne
  refine hnames.imp_of_mem fun {e e'} he he' hne heq => ?_
  obtain ⟨-, huuid, hmetric⟩ := metricPath_injective hplain.host hplain.host
    (hplain.uuids _ (mem_domainStats_of_entry he)) (hplain.uuids _ (mem_domainStats_of_entry he'))
    heq
  rcases hne with hne | hne
  · exact hne huuid
  · exact hne hmetric

/--
What whisper is called with in a run: the lines of its samples, in order, as far as
the updater got. Two calls are of one sample, or the second is for a later second than
the first.
-/
structure OwnSeconds (u : Updater) (aggs : List AggregateDomainStats)
    (updates : List WhisperUpdate) : Prop where
  apart : ∃ done, done <+: historyEntries aggs ∧ Follows u done updates
    ∧ (done.zip updates).Pairwise fun x y => x.1.1 = y.1.1 ∨ Before x.2 y.2
  /-- The times written to a file increase. -/
  increasing : (∀ agg ∈ aggs, Distinct agg) →
    ∀ path, (updates.filter fun c => c.path = path).Pairwise Before

theorem ownSeconds_of_follows {u : Updater} (hplain : ∀ agg ∈ aggs, Plain agg)
    (h : aggs.Pairwise fun agg agg' => SecondOlder agg.tov agg'.tov)
    {done : List (AggregateDomainStats × DomainStats × Metric)} {updates : List WhisperUpdate}
    (hpre : done <+: historyEntries aggs) (hfollows : Follows u done updates) :
    OwnSeconds u aggs updates where
  apart := by
    have hlines : ∀ agg ∈ aggs, (entries agg).Pairwise fun _ _ => True :=
      fun _ _ => List.pairwise_of_forall fun _ _ => trivial
    refine ⟨done, hpre, hfollows, ?_⟩
    exact pairwise_zip hfollows ((historyEntries_pairwise hlines h).sublist hpre.sublist)
      fun hx hy hS => hS.imp And.left (hx.before hy)
  increasing hdistinct path := by
    have hlines := fun agg hagg => entries_pairwise u (hplain agg hagg) (hdistinct agg hagg)
    have hzip : (done.zip updates).Pairwise fun x y => x.2.path = y.2.path → Before x.2 y.2 := by
      refine pairwise_zip hfollows ((historyEntries_pairwise hlines h).sublist hpre.sublist) ?_
      intro x c x' c' hx hx' hS hpath
      refine hx.before hx' (hS.resolve_left fun hsame => hsame.2 ?_)
      have hhost : x.1.hostname = x'.1.hostname := by rw [hsame.1]
      rw [← hx.path, hhost, ← hx'.path]
      exact hpath
    have hupdates : updates.Pairwise fun c c' => c.path = c'.path → Before c c' := by
      have hcalls : (done.zip updates).map Prod.snd = updates :=
        List.map_snd_zip hfollows.length_eq.ge
      rw [← hcalls]
      exact List.pairwise_map.mpr hzip
    refine (hupdates.filter _).imp_of_mem fun hc hc' himp => himp ?_
    rw [of_decide_eq_true (List.mem_filter.mp hc).2, of_decide_eq_true (List.mem_filter.mp hc').2]

/-! ## From the Epoch on -/

/-- The second whisper writes for is the one the time falls into. -/
def RoundsDown (c : WhisperUpdate) : Prop := ∃ k, second c = some k ∧ wholeSecond c = some k

theorem Recorded.roundsDown {u : Updater} {agg : AggregateDomainStats}
    {e : DomainStats × Metric} {c : WhisperUpdate} (h : Recorded u agg e c) {q : ℚ}
    (hq : agg.tov = .fin q) (hnonneg : 0 ≤ q) : RoundsDown c := by
  refine ⟨_, ?_, h.wholeSecond hq⟩
  have hwritten := h.written
  rw [hq] at hwritten
  rw [second, pyFloat_formatF_fin hwritten, Option.map_some,
    tdiv_eq_floor (sixDecimals_nonneg hnonneg)]

theorem Follows.roundsDown {u : Updater}
    {done : List (AggregateDomainStats × DomainStats × Metric)} {updates : List WhisperUpdate}
    (h : Follows u done updates) (htovs : ∀ x ∈ done, ∃ q, x.1.tov = .fin q ∧ 0 ≤ q) :
    ∀ c ∈ updates, RoundsDown c := by
  induction h with
  | nil => exact fun c hc => absurd hc List.not_mem_nil
  | cons hcall _ ih =>
      rw [List.forall_mem_cons] at htovs
      obtain ⟨⟨q, hq, hnonneg⟩, hrest⟩ := htovs
      exact List.forall_mem_cons.mpr ⟨hcall.roundsDown hq hnonneg, ih hrest⟩

/-- What is apart from all it stands with stands alone. -/
theorem eq_singleton_of_pairwise {α : Type} {R : α → α → Prop} {l : List α} {x : α}
    (hl : l.Pairwise R) (hx : x ∈ l) (hR : ∀ y ∈ l, ¬ R x y ∧ ¬ R y x) : l = [x] := by
  obtain ⟨pre, post, rfl⟩ := List.append_of_mem hx
  obtain ⟨-, hpost, hpre⟩ := List.pairwise_append.mp hl
  have hempty : pre = [] := by
    refine List.eq_nil_iff_forall_not_mem.mpr fun y hy => ?_
    exact (hR y (List.mem_append_left _ hy)).2 (hpre y hy x (List.mem_cons_self ..))
  have hempty' : post = [] := by
    refine List.eq_nil_iff_forall_not_mem.mpr fun y hy => ?_
    exact (hR y (List.mem_append_right _ (List.mem_cons_of_mem _ hy))).1
      ((List.pairwise_cons.mp hpost).1 y hy)
  rw [hempty, hempty', List.nil_append]

/-- Every value is still there at the end. -/
def StillThere (updates : List WhisperUpdate) : Prop :=
  ∀ c ∈ updates, ∃ k, second c = some k ∧ pointAt updates c.path k = some c.value

theorem stillThere_of_increasing {updates : List WhisperUpdate}
    (hincreasing : ∀ path, (updates.filter fun c => c.path = path).Pairwise Before)
    (hround : ∀ c ∈ updates, RoundsDown c) : StillThere updates := by
  intro c hc
  obtain ⟨k, hk, -⟩ := hround c hc
  have hsame : ∀ d ∈ updates, ∀ d' ∈ updates, second d = some k → second d' = some k →
      ¬ Before d d' := by
    intro d hd d' hd' hdk hd'k hbefore
    obtain ⟨i, j, hi, hj, hlt⟩ := hbefore
    obtain ⟨i', hi', hfloor⟩ := hround d hd
    obtain ⟨j', hj', hfloor'⟩ := hround d' hd'
    -- both fall into second `k`, which is not before itself
    cases hi.symm.trans hfloor
    cases hj.symm.trans hfloor'
    cases hi'.symm.trans hdk
    cases hj'.symm.trans hd'k
    exact lt_irrefl _ hlt
  have halone : (updates.filter fun d => d.path = c.path ∧ second d = some k) = [c] := by
    have hsub : (updates.filter fun d => d.path = c.path ∧ second d = some k).Pairwise Before := by
      have := (hincreasing c.path).filter fun d => second d = some k
      rw [List.filter_filter] at this
      simpa [Bool.and_comm] using this
    refine eq_singleton_of_pairwise hsub (by simp [hc, hk]) fun d hd => ?_
    simp only [List.mem_filter, decide_eq_true_eq] at hd
    exact ⟨hsame c hc d hd.1 hk hd.2.2, hsame d hd.1 c hc hd.2.2 hk⟩
  exact ⟨k, hk, by rw [pointAt, halone]; rfl⟩

/-! ## Whole runs -/

/-- Samples in seconds of their own, of which whisper keeps every value. -/
structure KeptApart (u : Updater) (readings : List Timespec) (aggs : List AggregateDomainStats)
    (updates : List WhisperUpdate) : Prop extends OwnSeconds u aggs updates where
  roundsDown : (∀ r ∈ readings, 0 ≤ nanos r) → ∀ c ∈ updates, RoundsDown c
  stillThere : (∀ r ∈ readings, 0 ≤ nanos r) → (∀ agg ∈ aggs, Distinct agg) → StillThere updates

theorem tov_nonneg (htovs : aggs.map (·.tov) = readings.map toDouble)
    (h : ∀ r ∈ readings, 0 ≤ nanos r) {agg : AggregateDomainStats} (hagg : agg ∈ aggs) :
    ∃ q, agg.tov = .fin q ∧ 0 ≤ q := by
  have htov : agg.tov ∈ readings.map toDouble := htovs ▸ List.mem_map_of_mem hagg
  obtain ⟨r, hr, heq⟩ := List.mem_map.mp htov
  have hnonneg : (0 : ℚ) ≤ nanos r := by exact_mod_cast h r hr
  exact ⟨_, heq.symm.trans (toDouble_eq r), by positivity⟩

theorem keptApart_of_follows {u : Updater} (hplain : ∀ agg ∈ aggs, Plain agg)
    (htovs : aggs.map (·.tov) = readings.map toDouble)
    (hspaced : readings.IsChain fun r r' => nanos r + 10 ^ 9 ≤ nanos r')
    {done : List (AggregateDomainStats × DomainStats × Metric)} {updates : List WhisperUpdate}
    (hpre : done <+: historyEntries aggs) (hfollows : Follows u done updates) :
    KeptApart u readings aggs updates := by
  have hown := ownSeconds_of_follows hplain (secondOlder_pairwise htovs hspaced) hpre hfollows
  have hround : (∀ r ∈ readings, 0 ≤ nanos r) → ∀ c ∈ updates, RoundsDown c := by
    intro hepoch
    refine hfollows.roundsDown fun x hx => ?_
    obtain ⟨agg, hagg, hmem⟩ := List.mem_flatMap.mp (hpre.subset hx)
    obtain ⟨e, -, rfl⟩ := List.mem_map.mp hmem
    exact tov_nonneg htovs hepoch hagg
  exact ⟨hown, hround, fun hepoch hdistinct =>
    stillThere_of_increasing (hown.increasing hdistinct) (hround hepoch)⟩

/--
**Samples never overwrite each other.** A monitor whose clock readings are a second
apart or more, whatever its host answers, has every sample written for later seconds than
all before it, wherever the readings fall between two seconds; so every value written is
still there at the end, also where whisper's error ends the run.
-/
theorem samples_keptApart (h : Sampled slotFirst gethostname tov pub readings aggs)
    (hspaced : readings.IsChain fun r r' => nanos r + 10 ^ 9 ≤ nanos r')
    (hplain : ∀ agg ∈ aggs, Plain agg) (hnul : ∀ agg ∈ aggs, NulFree agg)
    (u : Updater) (st : Storage φ) (w : φ) :
    wp (u.processCmds st (aggs.flatMap getWhisperUpdates)) ⟨w, []⟩
      (fun _ s => KeptApart u readings aggs s.updates)
      (fun _ s => KeptApart u readings aggs s.updates) := by
  refine wp_mono (wp_history_records u st hplain hnul w) ?_ ?_
  · intro _ s hs
    exact keptApart_of_follows hplain h.tovs.2 hspaced List.prefix_rfl hs
  · rintro _ s ⟨done, hpre, hs⟩
    exact keptApart_of_follows hplain h.tovs.2 hspaced hpre hs

/-- One domain's monitor after an update, at the time of its world. -/
def sampledAt (pub : Publisher Unit) (now : Timespec) :
    MonitorState (Option DomainInfo × Timespec) Unit :=
  match update false samplingHost (pub.inWorld (ranFor 700, now)) with
  | .ok _ t => t
  | .error _ t => t

/-- Just before a full second, into which six decimals carry it. -/
def firstCarried : MonitorState (Option DomainInfo × Timespec) Unit :=
  sampledAt (Publisher.init none (.fin 0)) ⟨98, 999999800⟩

/-- The same a second later. -/
def secondCarried : MonitorState (Option DomainInfo × Timespec) Unit :=
  sampledAt firstCarried.pub ⟨99, 999999900⟩

/-- The two samples. -/
def carried : List AggregateDomainStats :=
  aggregatesIn firstCarried.events ++ aggregatesIn secondCarried.events

theorem sampled_carried : Sampled false none (.fin 0) secondCarried.pub
    [⟨98, 999999800⟩, ⟨99, 999999900⟩] carried := by
  have hfirst : Sampled false none (.fin 0) firstCarried.pub [⟨98, 999999800⟩]
      (aggregatesIn firstCarried.events) :=
    .update .init (h := samplingHost) (w := (ranFor 700, ⟨98, 999999800⟩)) rfl rfl
  exact .update hfirst (h := samplingHost) (w := (ranFor 700, ⟨99, 999999900⟩)) rfl rfl

/-- Samples of a host without a name, whose domains are all called the same. -/
theorem plain_of_name (uuid : Bytes) (huuid : PlainPart uuid)
    (hnames : ∀ agg ∈ aggs, agg.hostname = bytes "unknown-host"
      ∧ ∀ dom ∈ agg.domainStats, dom.domainUuid = uuid)
    (hkeys : ∀ agg ∈ aggs, ∀ e ∈ entries agg,
      (statKeyText agg.hostname e.1.domainUuid e.2).length ≤ 511)
    (hlines : ∀ agg ∈ aggs, ∀ e ∈ entries agg, (whisperLineText agg e.1 e.2).length ≤ 1023) :
    ∀ agg ∈ aggs, Plain agg := by
  intro agg hagg
  obtain ⟨hhost, huuids⟩ := hnames agg hagg
  refine ⟨?_, fun dom hdom => ?_, hkeys agg hagg, hlines agg hagg⟩
  · rw [hhost]
    exact ⟨by decide, noSpace_of_all (by decide), by decide⟩
  · rw [huuids dom hdom]
    exact huuid

theorem plain_carried : ∀ agg ∈ carried, Plain agg :=
  plain_of_name (bytes "uuid") ⟨by decide, noSpace_of_all (by decide), by decide, by decide⟩
    (by decide +kernel) (by decide +kernel) (by decide +kernel)

theorem nulFree_carried : ∀ agg ∈ carried, NulFree agg := by
  have hnames : ∀ agg ∈ carried, (0 : UInt8) ∉ agg.hostname
      ∧ ∀ dom ∈ agg.domainStats, (0 : UInt8) ∉ dom.domainUuid := by
    decide +kernel
  exact fun agg hagg => ⟨(hnames agg hagg).1, (hnames agg hagg).2⟩

/-- Both readings are carried into the next second, and two seconds they stay. -/
theorem samples_keptApart_carried :
    wp (dataUpdater.processCmds emptyDisk (carried.flatMap getWhisperUpdates)) ⟨(), []⟩
      (fun _ s => KeptApart dataUpdater [⟨98, 999999800⟩, ⟨99, 999999900⟩] carried s.updates)
      (fun _ s => KeptApart dataUpdater [⟨98, 999999800⟩, ⟨99, 999999900⟩] carried s.updates) :=
  samples_keptApart sampled_carried (by decide) plain_carried nulFree_carried dataUpdater
    emptyDisk ()

/-! ## A name that is published twice -/

/-- Who is running under which id, how many disk reads each has made, and the time. -/
structure Guests where
  listing : List (DomId × Bytes)
  reads : Int64
  now : Timespec

/-- A handle is the name of the domain it was looked up for. -/
def guestsHost : Host Guests Bytes where
  numOfDomains w := (intCount w.listing.length, w)
  listDomains _ w := ((intCount w.listing.length, w.listing.map Prod.fst), w)
  lookupByID id w := (w.listing.lookup id, w)
  getUUIDString d w := (d ++ [0], w)
  getInfo _ w := (ranFor 700, w)
  getXMLDesc _ w := (some [], w)
  blockStats _ _ w := (some ⟨w.reads, 0, 0, 0, 0⟩, w)
  interfaceStats _ _ w := (none, w)
  newStats w := (some Heap.zeroed, w)
  realtimeNow w := (w.now, w)
  targetDev _ := none

/-- The monitor of these guests after an update. -/
def guestsAt (pub : Publisher Bytes) (w : Guests) : MonitorState Guests Bytes :=
  match update false guestsHost (pub.inWorld w) with
  | .ok _ t => t
  | .error _ t => t

/-- Domain 1 is a. -/
def beforeMove : Guests := ⟨[(1, bytes "a")], 5, ⟨99, 0⟩⟩

/-- A second later a runs under id 2, and b under the id that was a's. -/
def afterMove : Guests := ⟨[(1, bytes "b"), (2, bytes "a")], 8, ⟨100, 0⟩⟩

def firstMoved : MonitorState Guests Bytes := guestsAt (Publisher.init none (.fin 0)) beforeMove

def secondMoved : MonitorState Guests Bytes := guestsAt firstMoved.pub afterMove

/-- The two samples: both trackers of the second one call their domain a. -/
def renamed : List AggregateDomainStats :=
  aggregatesIn firstMoved.events ++ aggregatesIn secondMoved.events

theorem sampled_guestsAt {pub : Publisher Bytes}
    (h : Sampled false none (.fin 0) pub readings aggs) {w : Guests}
    (hread : wp (clockReading false guestsHost) (pub.inWorld w) (fun now _ => now = w.now) noThrow)
    (hrun : wp (update false guestsHost) (pub.inWorld w) (fun _ _ => True) noThrow) :
    Sampled false none (.fin 0) (guestsAt pub w).pub (readings ++ [w.now])
      (aggs ++ aggregatesIn (guestsAt pub w).events) := by
  obtain ⟨_, s, hread, rfl⟩ := wp_noThrow hread
  obtain ⟨_, t, hrun, -⟩ := wp_noThrow hrun
  have ht : guestsAt pub w = t := by rw [guestsAt, hrun]
  rw [ht]
  exact h.update hread hrun

theorem sampled_renamed :
    Sampled false none (.fin 0) secondMoved.pub [⟨99, 0⟩, ⟨100, 0⟩] renamed := by
  have hfirst := sampled_guestsAt (w := beforeMove) .init (by decide +kernel) (by decide +kernel)
  exact sampled_guestsAt (w := afterMove) hfirst (by decide +kernel) (by decide +kernel)

theorem plain_renamed : ∀ agg ∈ renamed, Plain agg :=
  plain_of_name (bytes "a") ⟨by decide, noSpace_of_all (by decide), by decide, by decide⟩
    (by decide +kernel) (by decide +kernel) (by decide +kernel)

theorem nulFree_renamed : ∀ agg ∈ renamed, NulFree agg := by
  have hnames : ∀ agg ∈ renamed, (0 : UInt8) ∉ agg.hostname
      ∧ ∀ dom ∈ agg.domainStats, (0 : UInt8) ∉ dom.domainUuid := by
    decide +kernel
  exact fun agg hagg => ⟨(hnames agg hagg).1, (hnames agg hagg).2⟩

/-- Of two calls for one file and second the first is not before the second, and leaves nothing. -/
theorem not_stillThere_of_replaced {updates : List WhisperUpdate} {path : Bytes}
    {c c' : WhisperUpdate} {early : List WhisperUpdate} {k : ℤ}
    (hpath : (updates.filter fun d => d.path = path) = early ++ [c, c'])
    (hk : second c = some k) (hk' : second c' = some k) (hsame : wholeSecond c = wholeSecond c')
    (hvalue : c.value ≠ c'.value) :
    ¬ (updates.filter fun d => d.path = path).Pairwise Before ∧ ¬ StillThere updates := by
  have hmem : c ∈ updates.filter fun d => d.path = path := by simp [hpath]
  obtain ⟨hc, hcpath⟩ := List.mem_filter.mp hmem
  refine ⟨fun hpairwise => ?_, fun hstill => ?_⟩
  · rw [hpath] at hpairwise
    obtain ⟨i, j, hi, hj, hlt⟩ :=
      List.rel_of_pairwise_cons (List.pairwise_append.mp hpairwise).2.1 (List.mem_singleton_self _)
    exact lt_irrefl i (Option.some.inj (hi.symm.trans (hsame.trans hj)) ▸ hlt)
  · obtain ⟨k', hsecond, hpoint⟩ := hstill c hc
    obtain rfl : k = k' := Option.some.inj (hk.symm.trans hsecond)
    -- the last call for the second is the other one
    have hcalls : (updates.filter fun d => d.path = c.path ∧ second d = some k)
        = (early.filter fun d => second d = some k) ++ [c, c'] := by
      have hboth := congrArg (List.filter fun d => decide (second d = some k)) hpath
      rw [List.filter_filter, List.filter_append] at hboth
      rw [of_decide_eq_true hcpath]
      simpa [hk, hk', Bool.and_comm] using hboth
    rw [pointAt, hcalls] at hpoint
    simp only [List.getLast?_append, List.getLast?_cons_cons, List.getLast?_singleton,
      Option.some_or, Option.map_some, Option.some.injEq] at hpoint
    exact hvalue hpoint.symm

/-- Both trackers' reads go into the file of a for second 100, and 8 replaces 3. -/
theorem not_keptApart_renamed : ∃ (pub : Publisher Bytes) (readings : List Timespec)
    (aggs : List AggregateDomainStats), Sampled false none (.fin 0) pub readings aggs
      ∧ (readings.IsChain fun r r' => nanos r + 10 ^ 9 ≤ nanos r')
      ∧ (∀ r ∈ readings, 0 ≤ nanos r) ∧ (∀ agg ∈ aggs, Plain agg) ∧ (∀ agg ∈ aggs, NulFree agg)
      ∧ wp (dataUpdater.processCmds emptyDisk (aggs.flatMap getWhisperUpdates)) ⟨(), []⟩
        (fun _ s => ¬ (∀ path, (s.updates.filter fun c => c.path = path).Pairwise Before)
          ∧ ¬ StillThere s.updates) noThrow := by
  have hcalls : wp (dataUpdater.processCmds emptyDisk (renamed.flatMap getWhisperUpdates)) ⟨(), []⟩
      (fun _ s => (s.updates.filter fun c =>
          c.path = bytes "/data/servers/unknown-host/a/disk_read_req.wsp")
        = [⟨bytes "/data/servers/unknown-host/a/disk_read_req.wsp", .fin 5, .fin 99⟩]
          ++ [⟨bytes "/data/servers/unknown-host/a/disk_read_req.wsp", .fin 3, .fin 100⟩,
            ⟨bytes "/data/servers/unknown-host/a/disk_read_req.wsp", .fin 8, .fin 100⟩])
      noThrow := by
    decide +kernel
  refine ⟨_, _, _, sampled_renamed, by decide, by decide, plain_renamed, nulFree_renamed,
    wp_mono hcalls ?_ fun _ _ he => he⟩
  intro _ s hs
  obtain ⟨hincreasing, hstill⟩ := not_stillThere_of_replaced hs (k := 100) rfl rfl rfl (by decide)
  exact ⟨fun hall => hincreasing (hall _), hstill⟩

end CloudMon.Proof
