import CloudMon.Proof.Counters

/-!
# What shows of uninitialised memory

The constructor allocates six structures and writes none of them. The branch that
was to recognise a first sample tests a pointer the constructor has always set, so
the first update subtracts from whatever the allocator handed out, and a call that
fails leaves some of it in place for the updates after it.

The two-run question is answered exactly: two trackers that differ only in what
the allocator gave them publish the same if and only if those contents agree in
the few places that reach a published value before they are overwritten.
-/

namespace CloudMon.Proof

open CloudMon DomainStatTracker

variable {ω δ : Type}

/-! ## CPU utilization as a function of the difference -/

/-- The seconds between two clock readings. -/
def span (now last : Timespec) : ℚ := (tsDiff now last).tvSec + (tsDiff now last).tvNsec / 10 ^ 9

/-- The same share of a time span: over no time at all, only whether it is zero shows. -/
def SameShare (elapsed : ℚ) (d d' : UInt64) : Prop := d = d' ∨ elapsed = 0 ∧ d ≠ 0 ∧ d' ≠ 0

theorem cpuUtil_zero (d : UInt64) :
    cpuUtil d (.fin 0) = if d = 0 then .nan true else .inf false := by
  by_cases hd : d = 0
  · subst hd; decide +kernel
  · have hne : (d.toNat : ℚ) ≠ 0 := by
      rw [Nat.cast_ne_zero, Ne, ← UInt64.toNat_zero, UInt64.toNat_inj]; exact hd
    have hpos : ¬ (d.toNat : ℚ) < 0 := not_lt.mpr (Nat.cast_nonneg _)
    have hten : ¬ (10 ^ 9 : ℚ) < 0 := by norm_num
    simp [cpuUtil, Double.div, Double.divFinite, Double.toRat?, Double.isNeg, hd, hne, hpos, hten]

theorem cpuUtil_toRat {d : UInt64} {e : ℚ} (he : e ≠ 0) :
    (cpuUtil d (.fin e)).toRat? = some (d.toNat / e / 10 ^ 9) := by
  by_cases hd : (d.toNat : ℚ) = 0
  · have hten : ¬ (10 ^ 9 : ℚ) < 0 := by norm_num
    by_cases hneg : e < 0 <;>
      simp [cpuUtil, Double.div, Double.divFinite, Double.toRat?, Double.isNeg, Double.zero, he, hd,
        hneg, hten]
  · simp [cpuUtil, Double.div, Double.divFinite, Double.toRat?, he, hd]

theorem cpuUtil_eq_iff {d d' : UInt64} {e : ℚ} :
    cpuUtil d (.fin e) = cpuUtil d' (.fin e) ↔ SameShare e d d' := by
  by_cases he : e = 0
  · -- division by zero: a NaN for no difference, an infinity for any other
    subst he
    rw [cpuUtil_zero, cpuUtil_zero, SameShare]
    by_cases hd : d = 0 <;> by_cases hd' : d' = 0 <;> simp [hd, hd', eq_comm]
  · refine ⟨?_, ?_⟩
    · intro h
      have hq := congrArg Double.toRat? h
      rw [cpuUtil_toRat he, cpuUtil_toRat he, Option.some.injEq] at hq
      have hnum : (d.toNat : ℚ) = d'.toNat := by
        rw [div_left_inj' (by norm_num), div_left_inj' he] at hq
        exact hq
      exact Or.inl (UInt64.toNat_inj.mp (Nat.cast_injective hnum))
    · intro hboth
      rcases hboth with rfl | ⟨hz, _⟩
      · rfl
      · exact absurd hz he

/-! ## Reports, field by field -/

theorem DomainStats.ext_counters {d d' : DomainStats} (hid : d.domainId = d'.domainId)
    (huuid : d.domainUuid = d'.domainUuid) (hcpu : d.cpuUtilizationPct = d'.cpuUtilizationPct)
    (hmem : d.memUtilizationPct = d'.memUtilizationPct)
    (hc : ∀ c : Counter, c.published d = c.published d') : d = d' := by
  obtain ⟨⟩ := d
  obtain ⟨⟩ := d'
  have h1 := hc .rdReq
  have h2 := hc .rdBytes
  have h3 := hc .wrReq
  have h4 := hc .wrBytes
  have h5 := hc .errs
  have h6 := hc .rxBytes
  have h7 := hc .rxPackets
  have h8 := hc .rxErrs
  have h9 := hc .rxDrop
  have h10 := hc .txBytes
  have h11 := hc .txPackets
  have h12 := hc .txErrs
  have h13 := hc .txDrop
  simp only [Counter.published] at *
  simp_all

/-- Two trackers of one domain, as far as everything but their memory goes. -/
structure SameDomain (t t' : DomainStatTracker δ) : Prop where
  domainID : t.domainID = t'.domainID
  domainUUID : t.domainUUID = t'.domainUUID
  lastTov : t.lastTov = t'.lastTov

theorem SameDomain.advance {t t' : DomainStatTracker δ} (h : SameDomain t t') (a : Answers) :
    SameDomain (t.advance a) (t'.advance a) := ⟨h.domainID, h.domainUUID, rfl⟩

/-- **Equal runs are equal in every field.** -/
theorem reports_eq_iff {t t' : DomainStatTracker δ} (h : SameDomain t t') (prev prev' : DomainInfo)
    (as : List Answers) :
    reports t prev as = reports t' prev' as
      ↔ (reports t prev as).map (·.cpuUtilizationPct) = (reports t' prev' as).map
          (·.cpuUtilizationPct)
        ∧ (reports t prev as).map (·.memUtilizationPct) = (reports t' prev' as).map
          (·.memUtilizationPct)
        ∧ ∀ c : Counter, (reports t prev as).map c.published
          = (reports t' prev' as).map c.published := by
  induction as generalizing t t' prev prev' with
  | nil => simp [reports]
  | cons a as ih =>
      refine ⟨?_, ?_⟩
      · intro he; rw [he]; exact ⟨rfl, rfl, fun _ => rfl⟩
      · simp only [reports, List.map_cons, List.cons.injEq]
        intro hboth
        obtain ⟨⟨hcpu, hcpus⟩, ⟨hmem, hmems⟩, hcs⟩ := hboth
        refine ⟨DomainStats.ext_counters ?_ h.domainUUID hcpu hmem fun c => (hcs c).1,
          (ih (h.advance a) _ _).mpr ⟨hcpus, hmems, fun c => (hcs c).2⟩⟩
        show t.domainID.toInt32 = t'.domainID.toInt32
        rw [h.domainID]

theorem mems_eq_iff {t t' : DomainStatTracker δ} (prev prev' : DomainInfo) (as : List Answers) :
    (reports t prev as).map (·.memUtilizationPct) = (reports t' prev' as).map (·.memUtilizationPct)
      ↔ (∀ a ∈ as.head?, a.info = none → memUtil t.tmpInfo = memUtil t'.tmpInfo) := by
  induction as generalizing t t' prev prev' with
  | nil => simp [reports]
  | cons a as ih =>
      simp only [reports, List.map_cons, List.cons.injEq, List.head?_cons, Option.mem_some_iff,
        forall_eq']
      rw [ih]
      cases hi : a.info with
      | none =>
          -- the old sample shows now, and again until one is read
          show memUtil (a.info.getD t.tmpInfo) = memUtil (a.info.getD t'.tmpInfo) ∧
            (∀ b ∈ as.head?, b.info = none →
              memUtil (a.info.getD t.tmpInfo) = memUtil (a.info.getD t'.tmpInfo)) ↔ _
          rw [hi]
          exact ⟨fun hm _ => hm.1, fun hm => ⟨hm rfl, fun _ _ _ => hm rfl⟩⟩
      | some i =>
          refine iff_of_true ⟨?_, fun b _ _ => ?_⟩ (fun hn => by cases hn)
          · show memUtil (a.info.getD t.tmpInfo) = memUtil (a.info.getD t'.tmpInfo)
            rw [hi]; rfl
          · show memUtil (a.info.getD t.tmpInfo) = memUtil (a.info.getD t'.tmpInfo)
            rw [hi]; rfl

/-- Two CPU samples that have not been overwritten yet agree at the first one taken. -/
def SamplesAgree (last : Timespec) (cpu cpu' : UInt64) : List Answers → Prop
  | [] => True
  | a :: as =>
    match a.info with
    | none => SamplesAgree a.now cpu cpu' as
    | some i => SameShare (span a.now last) (i.cpuTime - cpu) (i.cpuTime - cpu')

theorem samplesAgree_self (last : Timespec) (cpu : UInt64) :
    ∀ as : List Answers, SamplesAgree last cpu cpu as
  | [] => trivial
  | a :: as => by
      unfold SamplesAgree
      split
      · exact samplesAgree_self a.now cpu as
      · exact Or.inl rfl

/-- Once the two samples of a tracker are one, only their first successor can tell. -/
theorem cpus_settled_eq_iff {t t' : DomainStatTracker δ} (h : SameDomain t t') (as : List Answers) :
    (reports t t.tmpInfo as).map (·.cpuUtilizationPct)
        = (reports t' t'.tmpInfo as).map (·.cpuUtilizationPct)
      ↔ SamplesAgree t.lastTov t.tmpInfo.cpuTime t'.tmpInfo.cpuTime as := by
  induction as generalizing t t' with
  | nil => exact iff_of_true rfl trivial
  | cons a as ih =>
      have hcpu : ∀ u : DomainStatTracker δ, (u.report u.tmpInfo a).cpuUtilizationPct
          = cpuUtil ((a.info.getD u.tmpInfo).cpuTime - u.tmpInfo.cpuTime)
              (.fin (span a.now u.lastTov)) := fun _ => rfl
      have hrest := ih (h.advance a)
      simp only [reports, List.map_cons, List.cons.injEq, hcpu, ← h.lastTov, cpuUtil_eq_iff]
      refine (and_congr_right fun _ => hrest).trans ?_
      show SameShare (span a.now t.lastTov) ((a.info.getD t.tmpInfo).cpuTime - t.tmpInfo.cpuTime)
          ((a.info.getD t'.tmpInfo).cpuTime - t'.tmpInfo.cpuTime)
        ∧ SamplesAgree a.now (a.info.getD t.tmpInfo).cpuTime (a.info.getD t'.tmpInfo).cpuTime as ↔ _
      cases hi : a.info with
      | none =>
          -- nothing was read: both differences are zero, and both samples stay
          simp only [SamplesAgree, hi, Option.getD_none]
          exact and_iff_right (Or.inl (by rw [UInt64.sub_self, UInt64.sub_self]))
      | some i =>
          -- from here on both trackers hold the same sample
          simp only [SamplesAgree, hi, Option.getD_some]
          exact and_iff_left (samplesAgree_self _ _ as)

/-! ## Two allocators -/

/--
Where two heaps must agree for a run to publish the same from both: in the CPU
time and each counter as far as the first update's differences go, and, while a
call has not succeeded yet, in what it would have overwritten.
-/
def HeapsAgree (tov : Timespec) (heap heap' : Heap) : List Answers → Prop
  | [] => True
  | a :: as =>
    SameShare (span a.now tov) ((a.info.getD heap.tmpInfo).cpuTime - heap.domainInfo.cpuTime)
        ((a.info.getD heap'.tmpInfo).cpuTime - heap'.domainInfo.cpuTime)
      ∧ (a.info = none → memUtil heap.tmpInfo = memUtil heap'.tmpInfo
        ∧ SamplesAgree a.now heap.tmpInfo.cpuTime heap'.tmpInfo.cpuTime as)
      ∧ ∀ c : Counter, Channel.Agree
          (c.pair heap.blockstats heap.lastblockstats heap.interfaceinfo heap.lastinterfaceinfo)
          (c.pair heap'.blockstats heap'.lastblockstats heap'.interfaceinfo
            heap'.lastinterfaceinfo) ((a :: as).map c.heard)

theorem sub_left_inj (x u v : Int64) (h : x - u = x - v) : u = v := by
  have := congrArg (x - ·) h
  simpa [Int64.sub_eq_add_neg, Int64.neg_add, ← Int64.add_assoc] using this

/-- Equal CPU columns, from the constructor on. -/
theorem cpus_fresh_eq_iff {domID : UInt32} {domain : δ} {uuid : Bytes} {tov : Timespec}
    {heap heap' : Heap} (a : Answers) (as : List Answers) :
    (reports (fresh domID domain uuid tov heap) heap.domainInfo (a :: as)).map
        (·.cpuUtilizationPct)
        = (reports (fresh domID domain uuid tov heap') heap'.domainInfo (a :: as)).map
          (·.cpuUtilizationPct)
      ↔ SameShare (span a.now tov)
          ((a.info.getD heap.tmpInfo).cpuTime - heap.domainInfo.cpuTime)
          ((a.info.getD heap'.tmpInfo).cpuTime - heap'.domainInfo.cpuTime)
        ∧ (a.info = none → SamplesAgree a.now heap.tmpInfo.cpuTime heap'.tmpInfo.cpuTime as) := by
  have hcpu : ∀ g : Heap, ((fresh domID domain uuid tov g).report g.domainInfo a).cpuUtilizationPct
      = cpuUtil ((a.info.getD g.tmpInfo).cpuTime - g.domainInfo.cpuTime) (.fin (span a.now tov)) :=
    fun _ => rfl
  have hsame : SameDomain (fresh domID domain uuid tov heap) (fresh domID domain uuid tov heap') :=
    ⟨rfl, rfl, rfl⟩
  simp only [reports, List.map_cons, List.cons.injEq, hcpu, cpuUtil_eq_iff]
  refine and_congr_right fun _ => (cpus_settled_eq_iff (hsame.advance a) as).trans ?_
  show SamplesAgree a.now (a.info.getD heap.tmpInfo).cpuTime (a.info.getD heap'.tmpInfo).cpuTime as
    ↔ _
  cases hi : a.info with
  | none => exact ⟨fun hs _ => hs, fun hs => hs rfl⟩
  | some i => exact iff_of_true (samplesAgree_self _ _ _) (fun hn => by cases hn)

/--
**What a run publishes depends on the allocator exactly as far as `HeapsAgree`
fails**, on any host, over any number of updates.
-/
theorem samples_eq_iff (h : Host ω δ) (domID : UInt32) (hid : domID ≠ 0) (domain : δ)
    (uuid : Bytes) (tov : Timespec) (heap heap' : Heap) (ws : List ω) :
    (run h domID domain uuid tov heap ws).2 = (run h domID domain uuid tov heap' ws).2
      ↔ HeapsAgree tov heap heap' (run h domID domain uuid tov heap ws).1 := by
  have hpub : ∀ g : Heap, (run h domID domain uuid tov g ws).2
      = reports (fresh domID domain uuid tov g) g.domainInfo
        (run h domID domain uuid tov heap ws).1 := fun g => samples_eq hid rfl ws
  rw [hpub heap, hpub heap']
  have hsame : SameDomain (fresh domID domain uuid tov heap) (fresh domID domain uuid tov heap') :=
    ⟨rfl, rfl, rfl⟩
  cases (run h domID domain uuid tov heap ws).1 with
  | nil => exact iff_of_true rfl trivial
  | cons a as =>
      rw [reports_eq_iff hsame, cpus_fresh_eq_iff, mems_eq_iff]
      simp only [Counter.published_reports,
        Channel.outputs_eq_iff (fun u v : Int64 => by rw [Int64.sub_self, Int64.sub_self])
          sub_left_inj, HeapsAgree, List.head?_cons, Option.mem_some_iff, forall_eq']
      refine ⟨?_, ?_⟩
      · intro hboth
        obtain ⟨⟨hshare, hlater⟩, hmem, hcs⟩ := hboth
        exact ⟨hshare, fun hi => ⟨hmem hi, hlater hi⟩, hcs⟩
      · intro hboth
        obtain ⟨hshare, hgetinfo, hcs⟩ := hboth
        exact ⟨⟨hshare, fun hi => (hgetinfo hi).2⟩, fun hi => (hgetinfo hi).1, hcs⟩

/-- Memory that once held something else. -/
def Heap.used : Heap :=
  { Heap.zeroed with lastinterfaceinfo := ⟨7, 0, 0, 0, 0, 0, 0, 0⟩ }

theorem samples_eq_quietHost :
    (run (quietHost Unit) 1 1 [] ⟨0, 0⟩ Heap.zeroed [()]).2
        = (run (quietHost Unit) 1 1 [] ⟨0, 0⟩ Heap.used [()]).2
      ↔ HeapsAgree ⟨0, 0⟩ Heap.zeroed Heap.used
        (run (quietHost Unit) 1 1 [] ⟨0, 0⟩ Heap.zeroed [()]).1 :=
  samples_eq_iff (quietHost Unit) 1 (by decide) 1 [] ⟨0, 0⟩ Heap.zeroed Heap.used [()]

/-- The first update, every call successful, publishes -7 received bytes out of used memory. -/
theorem samples_ne_used :
    (run (quietHost Unit) 1 1 [] ⟨0, 0⟩ Heap.zeroed [()]).2
      ≠ (run (quietHost Unit) 1 1 [] ⟨0, 0⟩ Heap.used [()]).2 := by
  intro h
  have hrx := congrArg (List.map (·.rxBytes)) h
  exact absurd hrx (by decide +kernel)

end CloudMon.Proof
