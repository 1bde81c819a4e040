import CloudMon.Dashboard.Load
import CloudMon.Proof.Shown
import Mathlib.Algebra.Order.BigOperators.Group.List

/-!
# What the load averages are averages of

`average` takes whatever `whisper.fetch` returns: points that are not there, values that
make no sense, and NaN, which passes every comparison. Its result is a mean of the numbers
between 0 and 110, so it is between these itself, or it is NaN and some point was.

With the pipeline in front of it, the points are what the monitor published, one value
for a second, as it came back from its line.
-/

namespace CloudMon.Proof

open CloudMon Wp Pipeline

/-! ## A mean -/

/-- The numbers that go into a mean. -/
def numbers (points : List (Option Double)) : List ℚ :=
  points.filterMap fun p => (p.bind Double.toRat?).filter fun q => decide (0 ≤ q ∧ q ≤ 110)

/-- Some point is NaN. -/
def HasNan (points : List (Option Double)) : Prop := ∃ neg, some (Double.nan neg) ∈ points

/-- What is in range is NaN or a number that is. -/
theorem inRange_cases (d : Double) : inRange (some d) 0 110 = true ↔
    (∃ neg, d = .nan neg) ∨ ∃ q, d.toRat? = some q ∧ 0 ≤ q ∧ q ≤ 110 := by
  cases d with
  | fin q => simp [inRange, Double.below, Double.above, Double.toRat?]
  | negZero => simp [inRange, Double.below, Double.above, Double.toRat?]
  | inf neg => cases neg <;> simp [inRange, Double.below, Double.above, Double.toRat?]
  | nan neg => simp [inRange, Double.below, Double.above]

theorem foldl_add_nan (neg : Bool) (ds : List Double) :
    ds.foldl Double.add (.nan neg) = .nan neg := by
  induction ds with
  | nil => rfl
  | cons d ds ih => exact ih

theorem add_number {d : Double} {q : ℚ} (h : d.toRat? = some q) (p : ℚ) :
    (Double.fin p).add d = .fin (p + q) := by
  cases d with
  | fin q' =>
      obtain rfl : q' = q := Option.some.inj h
      rfl
  | negZero =>
      obtain rfl : 0 = q := Option.some.inj h
      rw [add_zero]
      rfl
  | inf neg => cases h
  | nan neg => cases h

/-- **A sum** is that of the numbers, or NaN where there is one. -/
theorem foldl_add (ds : List Double) (p : ℚ)
    (h : ∀ d ∈ ds, (∃ neg, d = .nan neg) ∨ ∃ q, d.toRat? = some q) :
    (∃ neg, ds.foldl Double.add (.fin p) = .nan neg ∧ Double.nan neg ∈ ds)
      ∨ ds.foldl Double.add (.fin p) = .fin (p + (ds.filterMap Double.toRat?).sum)
        ∧ (ds.filterMap Double.toRat?).length = ds.length := by
  induction ds generalizing p with
  | nil => exact Or.inr ⟨by simp, rfl⟩
  | cons d ds ih =>
      rcases h d List.mem_cons_self with ⟨neg, rfl⟩ | ⟨q, hq⟩
      · exact Or.inl ⟨neg, foldl_add_nan neg ds, List.mem_cons_self⟩
      · rw [List.foldl_cons, add_number hq, List.filterMap_cons_some hq, List.sum_cons, ← add_assoc]
        refine (ih (p + q) fun d' hd' => h d' (List.mem_cons_of_mem _ hd')).imp ?_ ?_
        · rintro ⟨neg, hsum, hmem⟩
          exact ⟨neg, hsum, List.mem_cons_of_mem _ hmem⟩
        · rintro ⟨hsum, hlen⟩
          exact ⟨hsum, congrArg (· + 1) hlen⟩

/-- The numbers are those of the points that are in range. -/
theorem numbers_eq (points : List (Option Double)) :
    (points.filterMap fun p => if inRange p 0 110 then p else none).filterMap Double.toRat?
      = numbers points := by
  rw [List.filterMap_filterMap, numbers]
  refine List.filterMap_congr fun p _ => ?_
  cases p with
  | none => rfl
  | some d =>
      by_cases hin : inRange (some d) 0 110 = true
      · rw [if_pos hin]
        rcases (inRange_cases d).mp hin with ⟨neg, rfl⟩ | ⟨q, hq, hrange⟩
        · rfl
        · rw [Option.bind_some, hq, Option.filter_some, if_pos]
          exact decide_eq_true hrange
      · rw [if_neg hin, Option.bind_none, Option.bind_some]
        cases hq : d.toRat? with
        | none => rfl
        | some q =>
            rw [Option.filter_some, if_neg]
            intro hrange
            exact hin ((inRange_cases d).mpr (Or.inr ⟨q, hq, of_decide_eq_true hrange⟩))

theorem div_fin {a b : ℚ} (ha : 0 ≤ a) (hb : 0 < b) :
    (Double.fin a).div (.fin b) = .fin (a / b) := by
  have hsign : ((Double.fin a).isNeg ^^ (Double.fin b).isNeg) = false := by
    simp [Double.isNeg, not_lt.mpr ha, hb.le]
  show Double.divFinite ((Double.fin a).isNeg ^^ (Double.fin b).isNeg) a b = _
  rw [hsign, Double.divFinite, if_neg hb.ne']
  split
  · rename_i hzero
    rw [hzero, zero_div]
    rfl
  · rfl

/-- No mean of numbers in a range is outside it. -/
theorem mean_in_range {qs : List ℚ} (h : ∀ q ∈ qs, 0 ≤ q ∧ q ≤ 110) :
    0 ≤ qs.sum / qs.length ∧ qs.sum / qs.length ≤ 110 := by
  have hlow : 0 ≤ qs.sum := List.sum_nonneg fun q hq => (h q hq).1
  have hhigh : qs.sum ≤ qs.length * 110 := by
    have hcard := List.sum_le_card_nsmul qs 110 fun q hq => (h q hq).2
    rwa [nsmul_eq_mul] at hcard
  refine ⟨div_nonneg hlow (Nat.cast_nonneg _), ?_⟩
  exact div_le_of_le_mul₀ (Nat.cast_nonneg _) (by norm_num) (by linarith)

/--
**An average** is NaN where a point is, and otherwise the mean of the numbers between 0
and 110, which is between them itself; without any it is 0.
-/
theorem average_cases (points : List (Option Double)) :
    (∃ neg, average points = .nan neg ∧ HasNan points)
      ∨ average points = .fin ((numbers points).sum / (numbers points).length)
        ∧ 0 ≤ (numbers points).sum / (numbers points).length
        ∧ (numbers points).sum / (numbers points).length ≤ 110 := by
  have hmean : 0 ≤ (numbers points).sum / (numbers points).length
      ∧ (numbers points).sum / (numbers points).length ≤ 110 := by
    refine mean_in_range fun q hq => ?_
    obtain ⟨p, _, hp⟩ := List.mem_filterMap.mp hq
    exact of_decide_eq_true (Option.filter_eq_some_iff.mp hp).2
  unfold average
  rw [← numbers_eq] at hmean ⊢
  generalize hl : (points.filterMap fun p => if inRange p 0 110 then p else none) = l at hmean ⊢
  have hmem : ∀ d ∈ l, some d ∈ points ∧ inRange (some d) 0 110 = true := by
    intro d hd
    rw [← hl] at hd
    obtain ⟨p, hp, heq⟩ := List.mem_filterMap.mp hd
    split at heq
    · rename_i hin
      subst heq
      exact ⟨hp, hin⟩
    · cases heq
  have hsum := foldl_add l 0 fun d hd =>
    ((inRange_cases d).mp (hmem d hd).2).imp_right fun ⟨q, hq, _⟩ => ⟨q, hq⟩
  by_cases hempty : l = []
  · refine Or.inr ⟨?_, hmean⟩
    rw [if_pos hempty, hempty]
    simp
  rw [if_neg hempty]
  rcases hsum with ⟨neg, hnan, hin⟩ | ⟨hnum, hlen⟩
  · exact Or.inl ⟨neg, by rw [hnan]; rfl, neg, (hmem _ hin).1⟩
  · refine Or.inr ⟨?_, hmean⟩
    have hpos : (0 : ℚ) < l.length := Nat.cast_pos.mpr (List.length_pos_iff.mpr hempty)
    rw [hnum, hlen, zero_add]
    refine div_fin (le_of_not_gt fun hneg => ?_) hpos
    exact absurd hmean.1 (not_le.mpr (div_neg_of_neg_of_pos hneg (hlen ▸ hpos)))

/-! ## The column -/

/-- The three averages, as they are shown. -/
def loadText (avgs : List Double) : Bytes := (bytes " | ").intercalate (avgs.map pyFormatF)

/-- **The column reads one file**, the one that the CPU column reads, three times. -/
theorem getVcpuLoadAvgs_eq {topdir : Bytes} {disk : Disk} (fetch : ℕ → Fetch) (now : ℕ → ℚ)
    (instanceId : Bytes) (hdeep : ∀ f ∈ getWhisperFiles topdir disk, Deep f) :
    getVcpuLoadAvgs topdir disk fetch now instanceId
      = .ok (match firstFile topdir disk .cpu instanceId with
        | none => bytes "N/A"
        | some file => loadText ([1, 5, 15].map fun duration : ℕ =>
            average (fetch duration file (now duration - 60 * duration)).2)) := by
  have hinst := getWhisperFilesBy_eq (by decide : 0 < 2) instanceId
    fun f hf => (by decide : 2 ≤ 3).trans (hdeep f hf)
  have hmetric := @getWhisperFilesBy_eq 1 (by decide) (bytes "cpu")
    ((getWhisperFiles topdir disk).filter (passes 2 (some instanceId)))
    fun f hf => (by decide : 1 ≤ 3).trans (hdeep f (List.mem_of_mem_filter hf))
  have hfirst : firstFile topdir disk .cpu instanceId
      = (((getWhisperFiles topdir disk).filter (passes 2 (some instanceId))).filter
          (passes 1 (some (bytes "cpu")))).head? := by
    rw [firstFile, List.filter_filter, List.head?_filter]
    simp only [Bool.and_comm, Metric.name]
  rw [getVcpuLoadAvgs, getWhisperFilesByInstanceId, hinst]
  show (getWhisperFilesByMetric (bytes "cpu") _ >>= _) = _
  rw [getWhisperFilesByMetric, hmetric, hfirst]
  cases ((getWhisperFiles topdir disk).filter (passes 2 (some instanceId))).filter
      (passes 1 (some (bytes "cpu"))) with
  | nil => rfl
  | cons file files => rfl

/-- The mean of what is kept of some readings for the seconds of a window, each value as it
came back from its line; a NaN among them, or a number between 0 and 110. -/
structure LoadOf (ks : List ℤ) (xs : List (AggregateDomainStats × DomainStats × Metric))
    (avg : Double) : Prop where
  mean : ∃ points, avg = average points ∧ List.Forall₂
    (Option.Rel fun x v => Near x.2.1.cpuUtilizationPct v) (ks.map (keptFor xs)) points
  range : (∃ neg, avg = .nan neg) ∨ ∃ q, avg = .fin q ∧ 0 ≤ q ∧ q ≤ 110

/-- **The load of a file** is the mean of the readings kept in it. -/
theorem loadOf_file {u : Updater} {xs : List (AggregateDomainStats × DomainStats × Metric)}
    {updates : List WhisperUpdate} {path : Bytes}
    (h : Follows u xs (updates.filter fun call => call.path = path))
    (hmetric : ∀ x ∈ xs, x.2.2 = .cpu) (ks : List ℤ) :
    LoadOf ks xs (average (ks.map (pointAt updates path))) := by
  refine ⟨⟨_, rfl, ?_⟩, ?_⟩
  · refine List.forall₂_map_left_iff.mpr (List.forall₂_map_right_iff.mpr ?_)
    refine List.forall₂_same.mpr fun k _ => ?_
    have hrel := pointAt_kept h k
    cases hkept : keptFor xs k with
    | none =>
        rw [hkept] at hrel
        cases hp : pointAt updates path k with
        | none => exact .none
        | some v => rw [hp] at hrel; cases hrel
    | some x =>
        rw [hkept] at hrel
        cases hp : pointAt updates path k with
        | none => rw [hp] at hrel; cases hrel
        | some v =>
            rw [hp] at hrel
            cases hrel with
            | some hrecovered =>
                have hmem : x ∈ xs := List.mem_of_mem_filter (List.mem_of_getLast? hkept)
                rw [hmetric x hmem] at hrecovered
                exact .some hrecovered
  · rcases average_cases (ks.map (pointAt updates path)) with ⟨neg, hnan, _⟩ | ⟨hnum, hrange⟩
    · exact Or.inl ⟨neg, hnan⟩
    · exact Or.inr ⟨_, hnum, hrange⟩

section Runs

variable {μ ο δ φ : Type} [DecidableEq μ]

/--
**From the hypervisor to the load averages.** At the end of a run of the whole system, all
messages delivered and read, the load column shows for an instance that has stayed on one
host three means of what its monitor published of its CPU, over the seconds of the last
minute, five and fifteen, one value for each second; and `"N/A"` exactly when its monitor
has published nothing of it. Each mean is between 0 and 110, or NaN.
-/
theorem loads_of_runs (net : Network μ ο) (gethostname : μ → Option Bytes) (tov : μ → Double)
    (s : System μ δ) (hr : Runs net gethostname tov s)
    (hdistinct : ∀ m m', mHostname (gethostname m) = mHostname (gethostname m') → m = m')
    (hordinary : ∀ m, ∀ agg ∈ aggregatesOf (s.monitors m).sent, Ordinary agg)
    (hrest : ∀ m, inFlight net s m = []) (u : Updater) (st : Storage φ) (w : φ) (sess : Session φ)
    (hrun : u.mainLoop st (piped (s.written.map Prod.snd)) ⟨w, []⟩ = .ok ⟨⟩ sess) (disk : Disk)
    (hdisk : Holds u.root disk (sess.updates.map (·.path))) (fetch : ℕ → Fetch)
    (window : ℕ → ℚ → List ℤ)
    (hfetch : ∀ duration, Fetches (fetch duration) (window duration) sess.updates) (m : μ)
    (instanceId : Bytes) (hid : instanceId.length = 36)
    (hhome : ∀ m', ∀ agg ∈ aggregatesOf (s.monitors m').sent, ∀ dom ∈ agg.domainStats,
      dom.domainUuid = instanceId → m' = m) (now : ℕ → ℚ) :
    ∃ text, getVcpuLoadAvgs u.root disk fetch now instanceId = .ok text
      ∧ (readingsOf ⟨mHostname (gethostname m), instanceId, .cpu⟩ (s.monitors m).sent = []
          ∧ text = bytes "N/A"
        ∨ readingsOf ⟨mHostname (gethostname m), instanceId, .cpu⟩ (s.monitors m).sent ≠ []
          ∧ ∃ avgs, text = loadText avgs ∧ List.Forall₂ (fun (duration : ℕ) avg =>
            LoadOf (window duration (now duration - 60 * duration))
              (readingsOf ⟨mHostname (gethostname m), instanceId, .cpu⟩ (s.monitors m).sent) avg)
            [1, 5, 15] avgs) := by
  obtain ⟨hdeep, hfile⟩ :=
    firstFile_of_runs hr hdistinct hordinary hrest hrun hdisk hid hhome .cpu rfl
  rw [getVcpuLoadAvgs_eq fetch now instanceId hdeep]
  refine ⟨_, rfl, ?_⟩
  rcases hfile with ⟨hnone, hempty⟩ | ⟨hsome, hne, hpath, hfollows⟩
  · exact Or.inl ⟨hempty, by rw [hnone]⟩
  · refine Or.inr ⟨hne, _, by rw [hsome], ?_⟩
    refine List.forall₂_map_right_iff.mpr (List.forall₂_same.mpr fun duration _ => ?_)
    rw [(hfetch duration).file hpath]
    exact loadOf_file hfollows (fun x hx => metric_of_reading hx) _

end Runs

theorem loads_of_runs_halfBusy : ∃ (s : System Unit DomId) (sess : Session Unit) (text : Bytes),
    s.monitors = afterHalfBusy.monitors
      ∧ getVcpuLoadAvgs dataUpdater.root halfBusyDisk (fun _ => fetchAt 130 sess.updates)
        (fun _ => 130) movedId = .ok text
      ∧ (readingsOf ⟨mHostname none, movedId, .cpu⟩ (s.monitors ()).sent = [] ∧ text = bytes "N/A"
        ∨ readingsOf ⟨mHostname none, movedId, .cpu⟩ (s.monitors ()).sent ≠ []
          ∧ ∃ avgs, text = loadText avgs ∧ List.Forall₂ (fun (duration : ℕ) avg =>
            LoadOf (secondsAfter 130 (130 - 60 * duration))
              (readingsOf ⟨mHostname none, movedId, .cpu⟩ (s.monitors ()).sent) avg)
            [1, 5, 15] avgs) := by
  obtain ⟨s, sess, hr, hsame, hrest, hrun, hdisk, hordinary⟩ := rest_halfBusy
  obtain ⟨text, hok, hshows⟩ := loads_of_runs halfBusyNet (fun _ => none) (fun _ => .fin 0) s hr
    (fun _ _ _ => rfl) hordinary hrest dataUpdater emptyDisk () sess hrun halfBusyDisk hdisk
    (fun _ => fetchAt 130 sess.updates) (fun _ => secondsAfter 130)
    (fun _ => fetches_fetchAt 130 sess.updates) () movedId (by decide)
    (fun _ _ _ _ _ _ => rfl) fun _ => 130
  exact ⟨s, sess, text, hsame, hok, hshows⟩

end CloudMon.Proof
