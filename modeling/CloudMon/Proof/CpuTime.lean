import CloudMon.Proof.Residue
import Mathlib.Algebra.BigOperators.Ring.Finset

/-!
# CPU utilization over a run

A published percentage is a difference of two CPU times over a difference of two
clock readings, and the two need not span the same stretch of time: every update
reads the clock, only an update whose call succeeds reads a CPU time.

Over a whole run nothing is lost by that. What a failed call leaves out, the next
successful one publishes, so percentage times elapsed time adds up to the CPU time
consumed. One percentage on its own is another matter: it can be right only where
the clock has moved by at least as much as the sample it is charged with is old.
-/

namespace CloudMon.Proof

open CloudMon DomainStatTracker

variable {ω δ : Type}

/-! ## The clock -/

/-- A clock reading in nanoseconds. -/
def nanos (ts : Timespec) : ℤ := ts.tvSec * 10 ^ 9 + ts.tvNsec

/-- The nanoseconds are less than a second. -/
def Normalised (ts : Timespec) : Prop := 0 ≤ ts.tvNsec ∧ ts.tvNsec < 10 ^ 9

instance : DecidablePred Normalised := fun _ => inferInstanceAs (Decidable (_ ∧ _))

/-- The borrow is exact, whatever the readings. -/
theorem nanos_tsDiff (now last : Timespec) : nanos (tsDiff now last) = nanos now - nanos last := by
  unfold tsDiff
  split <;> simp only [nanos] <;> ring

theorem span_eq (now last : Timespec) : span now last = (nanos now - nanos last : ℤ) / 10 ^ 9 := by
  have hspan : span now last = (nanos (tsDiff now last) : ℤ) / 10 ^ 9 := by
    simp only [span, nanos]
    push_cast
    ring
  rw [hspan, nanos_tsDiff]

theorem normalised_tsDiff {now last : Timespec} (hnow : Normalised now) (hlast : Normalised last) :
    Normalised (tsDiff now last) := by
  obtain ⟨hnow₁, hnow₂⟩ := hnow
  obtain ⟨hlast₁, hlast₂⟩ := hlast
  unfold tsDiff Normalised
  split
  · -- a second was borrowed
    rename_i hneg
    show 0 ≤ 10 ^ 9 + now.tvNsec - last.tvNsec ∧ 10 ^ 9 + now.tvNsec - last.tvNsec < 10 ^ 9
    omega
  · rename_i hpos
    show 0 ≤ now.tvNsec - last.tvNsec ∧ now.tvNsec - last.tvNsec < 10 ^ 9
    omega

/-- The elapsed seconds each update divides by. -/
def spans (last : Timespec) : List Answers → List ℚ
  | [] => []
  | a :: as => span a.now last :: spans a.now as

theorem span_pos {now last : Timespec} (h : nanos last < nanos now) : 0 < span now last := by
  rw [span_eq]
  have hpos : (0 : ℚ) < (nanos now - nanos last : ℤ) := by exact_mod_cast sub_pos.mpr h
  positivity

/-! ## The CPU column of a run -/

/-- The CPU times a run read. -/
def cpuTimes (as : List Answers) : List (Option UInt64) := as.map fun a => a.info.map (·.cpuTime)

@[simp] theorem cpuTimes_cons (a : Answers) (as : List Answers) :
    cpuTimes (a :: as) = a.info.map (·.cpuTime) :: cpuTimes as := rfl

/-- **The CPU column is a channel's outputs over the elapsed times.** -/
theorem cpus_reports (t : DomainStatTracker δ) (prev : DomainInfo) (as : List Answers) :
    (reports t prev as).map (·.cpuUtilizationPct)
      = List.zipWith (fun d e => cpuUtil d (.fin e))
          (Channel.outputs ⟨t.tmpInfo.cpuTime, prev.cpuTime⟩ (cpuTimes as))
          (spans t.lastTov as) := by
  induction as generalizing t prev with
  | nil => rfl
  | cons a as ih =>
      have hheld : (a.info.map (·.cpuTime)).getD t.tmpInfo.cpuTime
          = (a.info.getD t.tmpInfo).cpuTime := Option.getD_map ..
      rw [reports, List.map_cons, ih, cpuTimes_cons, Channel.outputs, spans,
        List.zipWith_cons_cons, Channel.step, hheld]
      rfl

/-- A percentage times the time it was divided by is the CPU time behind it. -/
theorem cpus_times_spans {ds : List UInt64} {es : List ℚ} (hlen : ds.length = es.length)
    (hne : ∀ e ∈ es, e ≠ 0) :
    ∃ pcts : List ℚ,
      (List.zipWith (fun d e => cpuUtil d (.fin e)) ds es).map (·.toRat?) = pcts.map some
        ∧ List.zipWith (fun pct e => pct * e * 10 ^ 9) pcts es = ds.map fun d => (d.toNat : ℚ) := by
  induction ds generalizing es with
  | nil => exact ⟨[], rfl, rfl⟩
  | cons d ds ih =>
      cases es with
      | nil => simp at hlen
      | cons e es =>
          have he : e ≠ 0 := hne e (List.mem_cons_self ..)
          obtain ⟨pcts, hpcts, hback⟩ := ih (by simpa using hlen)
            fun x hx => hne x (List.mem_cons_of_mem _ hx)
          refine ⟨d.toNat / e / 10 ^ 9 :: pcts, ?_, ?_⟩
          · rw [List.zipWith_cons_cons, List.map_cons, List.map_cons, cpuUtil_toRat he, hpcts]
          · rw [List.zipWith_cons_cons, List.map_cons, hback]
            congr 1
            field_simp

theorem length_spans (last : Timespec) (as : List Answers) :
    (spans last as).length = as.length := by
  induction as generalizing last with
  | nil => rfl
  | cons a as ih => rw [spans, List.length_cons, ih, List.length_cons]

/-! ## Conservation -/

/-- A run the accounting can rest on: a first sample, and two clocks that only go forward. -/
structure Regular (as : List Answers) : Prop where
  first : ∃ a ∈ as.head?, a.info ≠ none
  cpuTime : ((cpuTimes as).filterMap id).IsChain (· ≤ ·)
  normalised : ∀ a ∈ as, Normalised a.now
  increasing : (as.map (·.now)).IsChain (nanos · < nanos ·)

/-- An elapsed time that is a proper one, and the exact difference of the two readings. -/
def Measured (last now : Timespec) : Prop :=
  Normalised (tsDiff now last) ∧ nanos (tsDiff now last) = nanos now - nanos last

/--
CPU time is conserved over a run of a tracker made at `tov`: every elapsed time is
measured right, and percentage times elapsed time, summed over all updates but the
first, is the last CPU time read less the first.
-/
structure Conserved (tov : Timespec) (r : List Answers × List DomainStats) : Prop where
  started : ∀ a ∈ r.1.head?, Normalised tov → Measured tov a.now
  measured : (r.1.map (·.now)).IsChain Measured
  adds_up : ∃ pcts : List ℚ, r.2.tail.map (·.cpuUtilizationPct.toRat?) = pcts.map some
    ∧ ∀ u v, ((cpuTimes r.1).filterMap id).head? = some u →
      ((cpuTimes r.1).filterMap id).getLast? = some v →
      (List.zipWith (fun pct e => pct * e * 10 ^ 9) pcts (spans tov r.1).tail).sum
        = (v.toNat : ℚ) - u.toNat

/-- Where the clock goes forward, nothing is divided by zero. -/
theorem spans_ne_zero {last : Timespec} {as : List Answers}
    (h : (last :: as.map (·.now)).IsChain (nanos · < nanos ·)) : ∀ e ∈ spans last as, e ≠ 0 := by
  induction as generalizing last with
  | nil => simp [spans]
  | cons a as ih =>
      rw [List.map_cons, List.isChain_cons_cons] at h
      obtain ⟨hlt, hrest⟩ := h
      intro e he
      rcases List.mem_cons.mp he with rfl | he
      · exact (span_pos hlt).ne'
      · exact ih hrest e he

/-- CPU times that never decrease are subtracted without a wrap. -/
theorem exact_of_le {u v : UInt64} (h : u ≤ v) : Channel.Exact (fun d => (d.toNat : ℤ)) u v := by
  show ((v - u).toNat : ℤ) = v.toNat - u.toNat
  rw [UInt64.toNat_sub_of_le _ _ h]
  have := UInt64.le_iff_toNat_le.mp h
  omega

/-- A tracker that holds one sample throughout publishes exactly what is added to it. -/
theorem adds_up_settled (t : DomainStatTracker δ) (as : List Answers)
    (hcpu : (t.tmpInfo.cpuTime :: (cpuTimes as).filterMap id).IsChain (· ≤ ·))
    (hclock : (t.lastTov :: as.map (·.now)).IsChain (nanos · < nanos ·)) :
    ∃ pcts : List ℚ,
      (reports t t.tmpInfo as).map (·.cpuUtilizationPct.toRat?) = pcts.map some
        ∧ (List.zipWith (fun pct e => pct * e * 10 ^ 9) pcts (spans t.lastTov as)).sum
          = ((((cpuTimes as).filterMap id).getLastD t.tmpInfo.cpuTime).toNat : ℚ)
            - t.tmpInfo.cpuTime.toNat := by
  have hlen : (Channel.outputs ⟨t.tmpInfo.cpuTime, t.tmpInfo.cpuTime⟩ (cpuTimes as)).length
      = (spans t.lastTov as).length := by
    rw [length_spans, Channel.length_outputs, cpuTimes, List.length_map]
  obtain ⟨pcts, hpcts, hback⟩ := cpus_times_spans hlen (spans_ne_zero hclock)
  refine ⟨pcts, ?_, ?_⟩
  · rw [← hpcts, ← cpus_reports, List.map_map]
    rfl
  · -- the differences telescope to the last reading
    have hsum := Channel.sum_outputs_settled (φ := fun d : UInt64 => (d.toNat : ℤ))
      (fun v => by rw [UInt64.sub_self]; rfl) (hcpu.imp fun _ _ h => exact_of_le h)
    have hcast := congrArg (Int.cast : ℤ → ℚ) hsum
    rw [Int.cast_list_sum, List.map_map, Int.cast_sub, Int.cast_natCast, Int.cast_natCast] at hcast
    rw [hback, ← hcast]
    rfl

theorem conserved_reports (t : DomainStatTracker δ) (prev : DomainInfo) {as : List Answers}
    (hreg : Regular as) : Conserved t.lastTov (as, reports t prev as) := by
  obtain ⟨⟨b, hb, hread⟩, hcpu, hnorm, hinc⟩ := hreg
  refine ⟨?_, ?_, ?_⟩
  · intro a ha htov
    exact ⟨normalised_tsDiff (hnorm a (List.mem_of_mem_head? ha)) htov, nanos_tsDiff _ _⟩
  · refine (List.pairwise_of_forall_mem_list fun last hlast now hnow => ?_).isChain
    obtain ⟨a, ha, rfl⟩ := List.mem_map.mp hlast
    obtain ⟨c, hc, rfl⟩ := List.mem_map.mp hnow
    exact ⟨normalised_tsDiff (hnorm c hc) (hnorm a ha), nanos_tsDiff _ _⟩
  · cases as with
    | nil => cases hb
    | cons a as =>
        obtain ⟨i, hi⟩ := Option.ne_none_iff_exists'.mp hread
        rw [List.head?_cons, Option.mem_some_iff] at hb
        subst hb
        -- after the first update the tracker holds the sample it read
        have hheld : (t.advance a).tmpInfo = i := by
          show a.info.getD t.tmpInfo = i
          rw [hi, Option.getD_some]
        have hfirst : (cpuTimes (a :: as)).filterMap id
            = i.cpuTime :: (cpuTimes as).filterMap id := by
          rw [cpuTimes_cons, hi]
          rfl
        rw [hfirst] at hcpu ⊢
        obtain ⟨pcts, hpcts, hsum⟩ :=
          adds_up_settled (t.advance a) as (by rw [hheld]; exact hcpu) hinc
        rw [hheld] at hsum
        refine ⟨pcts, hpcts, fun u v hu hv => ?_⟩
        rw [List.head?_cons, Option.some.injEq] at hu
        rw [List.getLast?_cons, Option.some.injEq] at hv
        subst hu hv
        rw [List.getLastD_eq_getLast?] at hsum
        exact hsum

/--
**CPU time is conserved**, over any number of updates of any tracker, failed calls
in any pattern.
-/
theorem cpuTime_conserved (h : Host ω δ) (domID : UInt32) (hid : domID ≠ 0) (domain : δ)
    (uuid : Bytes) (tov : Timespec) (heap : Heap) (ws : List ω)
    (hreg : Regular (run h domID domain uuid tov heap ws).1) :
    Conserved tov (run h domID domain uuid tov heap ws) := by
  have hpub : (run h domID domain uuid tov heap ws).2
      = reports (fresh domID domain uuid tov heap) heap.domainInfo
        (run h domID domain uuid tov heap ws).1 := samples_eq hid rfl ws
  have := conserved_reports (fresh domID domain uuid tov heap) heap.domainInfo hreg
  rw [← hpub] at this
  exact this

/-- Answers every call for CPU time and clock with what the world holds. -/
def samplingHost : Host (Option DomainInfo × Timespec) Unit where
  numOfDomains w := (1, w)
  listDomains _ w := ((1, [1]), w)
  lookupByID _ w := (some (), w)
  getUUIDString _ w := (bytes "uuid" ++ [0], w)
  getInfo _ w := (w.1, w)
  getXMLDesc _ w := (some [], w)
  blockStats _ _ w := (none, w)
  interfaceStats _ _ w := (none, w)
  newStats w := (some Heap.zeroed, w)
  realtimeNow w := (w.2, w)
  targetDev _ := none

/-- One virtual CPU that has run for so many nanoseconds. -/
def ranFor (cpuTime : UInt64) : Option DomainInfo := some ⟨1, 1024, 512, 1, cpuTime⟩

/-- Two samples with a failed call between them, the clock borrowing at the second. -/
theorem cpuTime_conserved_failedCall :
    Conserved ⟨0, 0⟩ (run samplingHost 1 () [] ⟨0, 0⟩ Heap.zeroed
      [(ranFor 0, ⟨1, 5⟩), (none, ⟨2, 0⟩), (ranFor 700, ⟨3, 0⟩)]) := by
  refine cpuTime_conserved samplingHost 1 (by decide) () [] ⟨0, 0⟩ Heap.zeroed _ ⟨?_, ?_, ?_, ?_⟩
  · exact ⟨_, rfl, by decide⟩
  · decide +kernel
  · decide +kernel
  · decide +kernel

/-! ## Range -/

/-- The sample a tracker holds after each of its updates. -/
def latestInfos (cur : DomainInfo) : List Answers → List DomainInfo
  | [] => []
  | a :: as => a.info.getD cur :: latestInfos (a.info.getD cur) as

/-- A finite number, so nothing was divided by zero, between 0 and the number of virtual CPUs. -/
def InBounds (info : DomainInfo) (out : DomainStats) : Prop :=
  ∃ pct : ℚ, out.cpuUtilizationPct.toRat? = some pct ∧ 0 ≤ pct ∧ pct ≤ info.nrVirtCpu.toNat

/-- From the second update on, every published percentage is in bounds. -/
def AlwaysInBounds (heap : Heap) (r : List Answers × List DomainStats) : Prop :=
  List.Forall₂ InBounds (latestInfos heap.tmpInfo r.1).tail r.2.tail

/-- The samples read, each with the true time, in nanoseconds, at which it was. -/
def readings (as : List (Answers × ℚ)) : List (DomainInfo × ℚ) :=
  as.filterMap fun a => a.1.info.map (·, a.2)

/-- CPU time never decreases, and no virtual CPU runs for longer than there was time. -/
def Grows (before after : DomainInfo × ℚ) : Prop :=
  before.1.cpuTime ≤ after.1.cpuTime
    ∧ (after.1.cpuTime.toNat : ℚ) - before.1.cpuTime.toNat
      ≤ after.1.nrVirtCpu.toNat * (after.2 - before.2)

instance : DecidableRel Grows := fun _ _ => inferInstanceAs (Decidable (_ ∧ _))

/--
What the code needs of the updates after one at clock reading `last`, the latest
sample having been read at true time `since`, if there is one. The clock has gone
forward, and a sample that is read has one before it, and one no older than the
clock's advance.
-/
def Timely (since : Option ℚ) (last : Timespec) : List (Answers × ℚ) → Prop
  | [] => True
  | (a, time) :: as =>
    nanos last < nanos a.now
      ∧ (a.info ≠ none → ∃ σ ∈ since, time - σ ≤ (nanos a.now - nanos last : ℤ))
      ∧ Timely (if a.info = none then since else some time) a.now as

/-- The updates after the first are timely. -/
def TimelyRun : List (Answers × ℚ) → Prop
  | [] => True
  | (a, time) :: as => Timely (a.info.map fun _ => time) a.now as

/-- A timely sample that grew plausibly is published in bounds. -/
theorem inBounds_sample {i j : DomainInfo} {time σ : ℚ} {now last : Timespec}
    (hgrows : Grows (j, σ) (i, time)) (hclock : nanos last < nanos now)
    (htime : time - σ ≤ (nanos now - nanos last : ℤ)) :
    ∃ pct : ℚ, (cpuUtil (i.cpuTime - j.cpuTime) (.fin (span now last))).toRat? = some pct
      ∧ 0 ≤ pct ∧ pct ≤ i.nrVirtCpu.toNat := by
  obtain ⟨hle, hgrowth⟩ := hgrows
  have hpos := span_pos hclock
  have hdiff : ((i.cpuTime - j.cpuTime).toNat : ℚ) = i.cpuTime.toNat - j.cpuTime.toNat := by
    have hexact : ((i.cpuTime - j.cpuTime).toNat : ℤ) = i.cpuTime.toNat - j.cpuTime.toNat :=
      exact_of_le hle
    have hq := congrArg (Int.cast : ℤ → ℚ) hexact
    push_cast at hq
    exact hq
  have hadvance : span now last * 10 ^ 9 = (nanos now - nanos last : ℤ) := by
    rw [span_eq]
    field_simp
  refine ⟨_, cpuUtil_toRat hpos.ne', by positivity, ?_⟩
  -- growth over true time, true time over the clock's advance
  rw [div_div, div_le_iff₀ (by positivity), hdiff, hadvance]
  calc (i.cpuTime.toNat : ℚ) - j.cpuTime.toNat
      ≤ i.nrVirtCpu.toNat * (time - σ) := hgrowth
    _ ≤ i.nrVirtCpu.toNat * (nanos now - nanos last : ℤ) := by gcongr

/-- A failed call publishes zero. -/
theorem inBounds_failed (j : DomainInfo) {now last : Timespec} (hclock : nanos last < nanos now) :
    ∃ pct : ℚ, (cpuUtil (j.cpuTime - j.cpuTime) (.fin (span now last))).toRat? = some pct
      ∧ 0 ≤ pct ∧ pct ≤ j.nrVirtCpu.toNat := by
  refine ⟨_, cpuUtil_toRat (span_pos hclock).ne', ?_, ?_⟩ <;> simp

/-- The run after the first update, from the sample the tracker then holds. -/
theorem inBounds_settled (t : DomainStatTracker δ) (since : Option ℚ) (as : List (Answers × ℚ))
    (hgrows : ((since.map (t.tmpInfo, ·)).toList ++ readings as).IsChain Grows)
    (htimely : Timely since t.lastTov as) :
    List.Forall₂ InBounds (latestInfos t.tmpInfo (as.map Prod.fst))
      (reports t t.tmpInfo (as.map Prod.fst)) := by
  induction as generalizing t since with
  | nil => exact .nil
  | cons e as ih =>
      obtain ⟨a, time⟩ := e
      obtain ⟨hclock, hread, hrest⟩ := htimely
      have hnext := ih (t.advance a)
      cases hi : a.info with
      | none =>
          -- nothing is read: the sample stays, and so does the time it was read at
          rw [hi, if_pos rfl] at hrest
          have hsame : (t.advance a).tmpInfo = t.tmpInfo := by
            show a.info.getD t.tmpInfo = _
            rw [hi, Option.getD_none]
          have hskip : readings ((a, time) :: as) = readings as := by
            simp [readings, hi]
          rw [hskip] at hgrows
          refine .cons ?_ (hnext since (by rw [hsame]; exact hgrows) hrest)
          show ∃ pct, (cpuUtil ((a.info.getD t.tmpInfo).cpuTime - _) _).toRat? = _ ∧ _
            ∧ pct ≤ ((a.info.getD t.tmpInfo).nrVirtCpu.toNat : ℚ)
          rw [hi]
          exact inBounds_failed t.tmpInfo hclock
      | some i =>
          obtain ⟨σ, hσ, htime⟩ := hread (by rw [hi]; exact Option.some_ne_none i)
          rw [Option.mem_def] at hσ
          subst hσ
          rw [hi, if_neg (Option.some_ne_none i)] at hrest
          have hsample : (t.advance a).tmpInfo = i := by
            show a.info.getD t.tmpInfo = _
            rw [hi, Option.getD_some]
          have htake : readings ((a, time) :: as) = (i, time) :: readings as := by
            simp [readings, hi]
          rw [htake] at hgrows
          have hchain : ((t.tmpInfo, σ) :: (i, time) :: readings as).IsChain Grows := hgrows
          rw [List.isChain_cons_cons] at hchain
          obtain ⟨hstep, hchain⟩ := hchain
          refine .cons ?_ (hnext (some time) (by rw [hsample]; exact hchain) hrest)
          show ∃ pct, (cpuUtil ((a.info.getD t.tmpInfo).cpuTime - _) _).toRat? = _ ∧ _
            ∧ pct ≤ ((a.info.getD t.tmpInfo).nrVirtCpu.toNat : ℚ)
          rw [hi]
          exact inBounds_sample hstep hclock htime

theorem length_told (h : Host ω δ) (t : DomainStatTracker δ) (ws : List ω) :
    (told h t ws).length ≤ ws.length := by
  unfold told
  exact (List.takeWhile_prefix _).length_le.trans (List.length_map _).le

/--
**Every published percentage is in bounds** in a run whose updates are timely, on
any host whose domain's CPU time grows plausibly in the true time of its worlds.
-/
theorem cpu_inBounds (h : Host ω δ) (time : ω → ℚ) (domID : UInt32) (hid : domID ≠ 0) (domain : δ)
    (uuid : Bytes) (tov : Timespec) (heap : Heap) (ws : List ω)
    (hgrows : (readings ((run h domID domain uuid tov heap ws).1.zip (ws.map time))).IsChain Grows)
    (htimely : TimelyRun ((run h domID domain uuid tov heap ws).1.zip (ws.map time))) :
    AlwaysInBounds heap (run h domID domain uuid tov heap ws) := by
  have hpub : (run h domID domain uuid tov heap ws).2
      = reports (fresh domID domain uuid tov heap) heap.domainInfo
        (run h domID domain uuid tov heap ws).1 := samples_eq hid rfl ws
  have hanswers : ((run h domID domain uuid tov heap ws).1.zip (ws.map time)).map Prod.fst
      = (run h domID domain uuid tov heap ws).1 :=
    List.map_fst_zip (by rw [List.length_map]; exact length_told h _ ws)
  unfold AlwaysInBounds
  rw [hpub, ← hanswers]
  cases hes : (run h domID domain uuid tov heap ws).1.zip (ws.map time) with
  | nil => exact .nil
  | cons e es =>
      obtain ⟨a, τ⟩ := e
      rw [hes] at hgrows htimely
      refine inBounds_settled ((fresh domID domain uuid tov heap).advance a) _ es ?_ htimely
      -- the first update leaves behind the sample it read, if it read one
      have hheld : ((fresh domID domain uuid tov heap).advance a).tmpInfo
          = a.info.getD heap.tmpInfo := rfl
      rw [hheld]
      cases hi : a.info with
      | none =>
          have hskip : readings ((a, τ) :: es) = readings es := by simp [readings, hi]
          rw [hskip] at hgrows
          exact hgrows
      | some i =>
          have htake : readings ((a, τ) :: es) = (i, τ) :: readings es := by simp [readings, hi]
          rw [htake] at hgrows
          exact hgrows

/-- The true time of a world whose clock is right. -/
def trueTime (w : Option DomainInfo × Timespec) : ℚ := nanos w.2

/-- A second of CPU time in two seconds, and a failed call after it. -/
theorem cpu_inBounds_halfBusy :
    AlwaysInBounds Heap.zeroed (run samplingHost 1 () [] ⟨0, 0⟩ Heap.zeroed
      [(ranFor 0, ⟨1, 0⟩), (ranFor 1000000000, ⟨3, 0⟩), (none, ⟨4, 0⟩)]) := by
  refine cpu_inBounds samplingHost trueTime 1 (by decide) () [] ⟨0, 0⟩ Heap.zeroed _ ?_ ?_
  · decide +kernel
  · -- the one sample after the first is two seconds younger, and so is the clock
    refine ⟨by decide +kernel, fun _ => ⟨10 ^ 9, rfl, by decide +kernel⟩, by decide +kernel,
      fun hread => absurd rfl hread, trivial⟩

/--
One virtual CPU busy throughout, its CPU time read at the first and the third of
three updates a second apart: the third publishes two.
-/
theorem not_inBounds_failedCall :
    (readings ((run samplingHost 1 () [] ⟨0, 0⟩ Heap.zeroed
        [(ranFor 0, ⟨1, 0⟩), (none, ⟨2, 0⟩), (ranFor 2000000000, ⟨3, 0⟩)]).1.zip
        ([(ranFor 0, ⟨1, 0⟩), (none, ⟨2, 0⟩), (ranFor 2000000000, ⟨3, 0⟩)].map trueTime))).IsChain
        Grows
      ∧ ¬ AlwaysInBounds Heap.zeroed (run samplingHost 1 () [] ⟨0, 0⟩ Heap.zeroed
        [(ranFor 0, ⟨1, 0⟩), (none, ⟨2, 0⟩), (ranFor 2000000000, ⟨3, 0⟩)]) := by
  refine ⟨by decide +kernel, fun hall => ?_⟩
  obtain ⟨pct, hpct, _, hle⟩ := hall.get (i := 1) (by decide +kernel) (by decide +kernel)
  have htwo : some pct = some 2 := hpct.symm.trans (by decide +kernel)
  rw [Option.some.injEq] at htwo
  rw [htwo] at hle
  exact absurd hle (by decide +kernel)

end CloudMon.Proof
