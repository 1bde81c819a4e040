import CloudMon.Dashboard.Tables
import CloudMon.Lib.Newest
import CloudMon.Proof.Recorded

/-!
# The newest sample of an instance

An instance that has run on several hosts has a file on each. The column shows the
newest value of the first of them that the walk comes by, and in which order it comes
by them says nothing about when they were written. So the cell is right when that
file's newest value is a newest one of all, and otherwise it is an older one, or
`"N/A"` where there is something to show.

Names of 36 characters keep the instance filter from finding more than it should: one
of them is part of another only if it is the other.
-/

namespace CloudMon.Proof

open CloudMon Wp Newest Paths

/-- The second `whisper.update` keeps a value for, `int(timestamp)`. -/
def second (c : WhisperUpdate) : Option ℤ := c.timestamp.toRat?.map fun q => q.num.tdiv q.den

/-- What a file has for a second: the last value written for it. -/
def pointAt (updates : List WhisperUpdate) (path : Bytes) (k : ℤ) : Option Double :=
  (updates.filter fun c => c.path = path ∧ second c = some k).getLast?.map (·.value)

/--
What `whisper.fetch` returns after these updates: one value for each second of the window
after a time, in order, and `None` where a file has nothing. How far back a window reaches
is up to whisper.
-/
structure Fetches (fetch : Fetch) (window : ℚ → List ℤ) (updates : List WhisperUpdate) :
    Prop where
  ordered : ∀ since, (window since).Pairwise (· < ·)
  points : ∀ c ∈ updates, ∀ since,
    (fetch c.path since).2 = (window since).map (pointAt updates c.path)

/-- A point recorded for an instance, on whatever host. -/
def PointOf (u : Updater) (aggs : List AggregateDomainStats) (updates : List WhisperUpdate)
    (metric : Metric) (instanceId : Bytes) (ks : List ℤ) (k : ℤ) (v : Double) : Prop :=
  ∃ r ∈ recorded aggs, r.uuid = instanceId ∧ r.metric = metric
    ∧ Among ks (pointAt updates (r.path u)) k v

/-- A cell shows a hundred times a newest value, or that there is none. -/
def ShowsNewest (P : ℤ → Double → Prop) (cell : Cell) : Prop :=
  (cell = .na ∧ ∀ k v, ¬ P k v) ∨ ∃ v, cell = .number v.timesHundred ∧ IsNewest P v

/-- The first file of an instance's metric that the walk comes by. -/
def firstFile (topdir : Bytes) (disk : Disk) (metric : Metric) (instanceId : Bytes) :
    Option Bytes :=
  (getWhisperFiles topdir disk).find? fun f =>
    passes 2 (some instanceId) f && passes 1 (some metric.name) f

theorem firstFile_eq_some {topdir : Bytes} {disk : Disk} {metric : Metric}
    {instanceId file : Bytes} (h : firstFile topdir disk metric instanceId = some file) :
    file ∈ getWhisperFiles topdir disk
      ∧ (passes 2 (some instanceId) file && passes 1 (some metric.name) file) = true := by
  unfold firstFile at h
  have htest := List.find?_some h
  exact ⟨List.mem_of_find?_eq_some h, htest⟩

/-- No metric's name is part of another's file. -/
theorem name_infix_wspName {metric metric' : Metric} :
    metric.name <:+: wspName metric' ↔ metric' = metric := by
  cases metric <;> cases metric' <;> decide

/-- Texts of one length are part of each other only if they are the same. -/
theorem infix_iff_eq {s t : Bytes} (h : s.length = t.length) : s <:+: t ↔ t = s :=
  ⟨fun hin => (hin.eq_of_length h).symm, fun heq => heq ▸ List.infix_rfl⟩

/-- **The column reads one file**, the first that passes both filters. -/
theorem utilizationSnapshot_eq {topdir : Bytes} {disk : Disk} (fetch : Fetch) (now : ℚ)
    (metric : Metric) (instanceId : Bytes) (back : ℚ)
    (hdeep : ∀ f ∈ getWhisperFiles topdir disk, Deep f) :
    utilizationSnapshot metric.name topdir disk fetch now instanceId back
      = .ok (match firstFile topdir disk metric instanceId with
        | none => .na
        | some file => match (fetch file (now - back)).2.reverse.findSome? id with
          | some val => .number val.timesHundred
          | none => .na) := by
  have hinst := getWhisperFilesBy_eq (by decide : 0 < 2) instanceId
    fun f hf => (by decide : 2 ≤ 3).trans (hdeep f hf)
  have hmetric := @getWhisperFilesBy_eq 1 (by decide) metric.name
    ((getWhisperFiles topdir disk).filter (passes 2 (some instanceId)))
    fun f hf => (by decide : 1 ≤ 3).trans (hdeep f (List.mem_of_mem_filter hf))
  have hfirst : firstFile topdir disk metric instanceId
      = (((getWhisperFiles topdir disk).filter (passes 2 (some instanceId))).filter
          (passes 1 (some metric.name))).head? := by
    rw [firstFile, List.filter_filter, List.head?_filter]
    simp only [Bool.and_comm]
  rw [utilizationSnapshot, getWhisperFilesByInstanceId, hinst]
  show (getWhisperFilesByMetric metric.name _ >>= _) = _
  rw [getWhisperFilesByMetric, hmetric, hfirst]
  cases ((getWhisperFiles topdir disk).filter (passes 2 (some instanceId))).filter
      (passes 1 (some metric.name)) with
  | nil => rfl
  | cons file files =>
      show (match (fetch file (now - back)).2.reverse.findSome? id with
        | some val => pure (Cell.number val.timesHundred)
        | none => pure Cell.na : Except PyError Cell) = _
      rw [List.head?_cons]
      dsimp only
      cases (fetch file (now - back)).2.reverse.findSome? id <;> rfl

/-- **What looking through one file shows of all**: its newest value, right or wrong. -/
theorem showsNewest_scan_iff {P : ℤ → Double → Prop} {ks : List ℤ} {f : ℤ → Option Double}
    (hks : ks.Pairwise (· < ·)) (hP : ∀ k v, Among ks f k v → P k v) :
    ShowsNewest P (match (ks.map f).reverse.findSome? id with
      | some val => .number val.timesHundred
      | none => .na)
      ↔ (∀ k v, ¬ P k v) ∨ ∃ v, IsNewest (Among ks f) v ∧ IsNewest P v := by
  cases hscan : (ks.map f).reverse.findSome? id with
  | none =>
      -- the file has nothing at these times, so nobody may have
      have hempty := findSome?_reverse_eq_none.mp hscan
      refine ⟨?_, ?_⟩
      · intro h
        rcases h with ⟨-, hno⟩ | ⟨v, hv, -⟩
        · exact Or.inl hno
        · cases hv
      · intro h
        rcases h with hno | ⟨v, ⟨k, hk, -⟩, -⟩
        · exact Or.inl ⟨rfl, hno⟩
        · exact absurd hk (hempty k v)
  | some v =>
      have hnewest := isNewest_of_findSome? hks hscan
      refine ⟨?_, ?_⟩
      · intro h
        rcases h with ⟨hna, -⟩ | ⟨v', hv', hall⟩
        · cases hna
        · rw [← Double.timesHundred_injective (Cell.number.inj hv')] at hall
          exact Or.inr ⟨v, hnewest, hall⟩
      · intro h
        rcases h with hno | ⟨v', hv', hall⟩
        · obtain ⟨k, hk, -⟩ := hnewest
          exact absurd (hP k v hk) (hno k v)
        · rw [IsNewest.unique hv' hnewest] at hall
          exact Or.inr ⟨v, rfl, hall⟩

section

variable {φ : Type}

/--
**A column shows the newest sample exactly when the file it reads has it**, or when there
is no sample at all.
-/
theorem snapshot_shows_iff (u : Updater) (st : Storage φ) {aggs : List AggregateDomainStats}
    (hordinary : ∀ agg ∈ aggs, Ordinary agg) (w : φ) {s : Session φ}
    (hrun : u.processCmds st (aggs.flatMap getWhisperUpdates) ⟨w, []⟩ = .ok ⟨⟩ s) {disk : Disk}
    (hdisk : Holds u.root disk (s.updates.map (·.path))) {fetch : Fetch} {window : ℚ → List ℤ}
    (hfetch : Fetches fetch window s.updates) (metric : Metric) {instanceId : Bytes}
    (hid : instanceId.length = 36) (now back : ℚ) :
    (∃ cell, utilizationSnapshot metric.name u.root disk fetch now instanceId back = .ok cell
        ∧ ShowsNewest (PointOf u aggs s.updates metric instanceId (window (now - back))) cell)
      ↔ (∀ k v, ¬ PointOf u aggs s.updates metric instanceId (window (now - back)) k v)
        ∨ ∃ file, firstFile u.root disk metric instanceId = some file
            ∧ ∃ v, IsNewest (Among (window (now - back)) (pointAt s.updates file)) v
              ∧ IsNewest (PointOf u aggs s.updates metric instanceId (window (now - back))) v := by
  have hproper : ∀ agg ∈ aggs, Proper agg := fun agg hagg => (hordinary agg hagg).proper
  have hrs : ∀ r ∈ recorded aggs, r.Proper := fun r hr => proper_of_recorded hproper hr
  have hmem := walk_finds_recorded hproper hrun hdisk
  have hdeep : ∀ f ∈ getWhisperFiles u.root disk, Deep f := by
    intro f hf
    obtain ⟨r, hr, rfl⟩ := (hmem f).mp hf
    exact deep_path u (hrs r hr)
  -- the two filters together are a test of the coordinates
  have hpasses : ∀ r ∈ recorded aggs,
      (passes 2 (some instanceId) (r.path u) && passes 1 (some metric.name) (r.path u)) = true
        ↔ r.uuid = instanceId ∧ r.metric = metric := by
    intro r hr
    obtain ⟨agg, hagg, _, dom, hdom, huuid⟩ := mem_recorded.mp hr
    have hlen : instanceId.length = r.uuid.length := by
      rw [hid, ← huuid, (hordinary agg hagg).uuidLengths dom hdom]
    rw [(passes_path u (hrs r hr) instanceId).2.1, (passes_path u (hrs r hr) metric.name).2.2,
      Bool.and_eq_true, decide_eq_true_iff, decide_eq_true_iff, infix_iff_eq hlen,
      name_infix_wspName]
  rw [utilizationSnapshot_eq fetch now metric instanceId back hdeep]
  simp only [Except.ok.injEq, exists_eq_left']
  cases hfirst : firstFile u.root disk metric instanceId with
  | none =>
      -- no file, so no point
      have hnone : ∀ k v,
          ¬ PointOf u aggs s.updates metric instanceId (window (now - back)) k v := by
        intro k v hk
        obtain ⟨r, hr, hcoords⟩ := hk
        exact List.find?_eq_none.mp hfirst _ ((hmem _).mpr ⟨r, hr, rfl⟩)
          ((hpasses r hr).mpr ⟨hcoords.1, hcoords.2.1⟩)
      exact iff_of_true (Or.inl ⟨rfl, hnone⟩) (Or.inl hnone)
  | some file =>
      obtain ⟨hfile, htest⟩ := firstFile_eq_some hfirst
      obtain ⟨r, hr, rfl⟩ := (hmem file).mp hfile
      obtain ⟨huuid, hmetric⟩ := (hpasses r hr).mp htest
      have hdata : (fetch (r.path u) (now - back)).2
          = (window (now - back)).map (pointAt s.updates (r.path u)) := by
        have hin : r.path u ∈ s.updates.map (·.path) := by
          rw [wp_of_ok (wp_history u st hproper w) hrun]
          exact List.mem_map.mpr ⟨r, hr, rfl⟩
        obtain ⟨c, hc, hcpath⟩ := List.mem_map.mp hin
        rw [← hcpath]
        exact hfetch.points c hc _
      simp only [Option.some.injEq, exists_eq_left', hdata]
      exact showsNewest_scan_iff (hfetch.ordered _) fun k v hk => ⟨r, hr, huuid, hmetric, hk⟩

/-- **The CPU column**, which the dashboard asks for the last minute. -/
theorem cpuSnapshot_shows_iff (u : Updater) (st : Storage φ) {aggs : List AggregateDomainStats}
    (hordinary : ∀ agg ∈ aggs, Ordinary agg) (w : φ) {s : Session φ}
    (hrun : u.processCmds st (aggs.flatMap getWhisperUpdates) ⟨w, []⟩ = .ok ⟨⟩ s) {disk : Disk}
    (hdisk : Holds u.root disk (s.updates.map (·.path))) {fetch : Fetch} {window : ℚ → List ℤ}
    (hfetch : Fetches fetch window s.updates) {instanceId : Bytes}
    (hid : instanceId.length = 36) (now back : ℚ) :
    (∃ cell, getCpuUtilizationSnapshot u.root disk fetch now instanceId back = .ok cell
        ∧ ShowsNewest (PointOf u aggs s.updates .cpu instanceId (window (now - back))) cell)
      ↔ (∀ k v, ¬ PointOf u aggs s.updates .cpu instanceId (window (now - back)) k v)
        ∨ ∃ file, firstFile u.root disk .cpu instanceId = some file
            ∧ ∃ v, IsNewest (Among (window (now - back)) (pointAt s.updates file)) v
              ∧ IsNewest (PointOf u aggs s.updates .cpu instanceId (window (now - back))) v :=
  snapshot_shows_iff u st hordinary w hrun hdisk hfetch .cpu hid now back

/-- **The memory column** is the same column of another file. -/
theorem memSnapshot_shows_iff (u : Updater) (st : Storage φ) {aggs : List AggregateDomainStats}
    (hordinary : ∀ agg ∈ aggs, Ordinary agg) (w : φ) {s : Session φ}
    (hrun : u.processCmds st (aggs.flatMap getWhisperUpdates) ⟨w, []⟩ = .ok ⟨⟩ s) {disk : Disk}
    (hdisk : Holds u.root disk (s.updates.map (·.path))) {fetch : Fetch} {window : ℚ → List ℤ}
    (hfetch : Fetches fetch window s.updates) {instanceId : Bytes}
    (hid : instanceId.length = 36) (now back : ℚ) :
    (∃ cell, getMemUtilizationSnapshot u.root disk fetch now instanceId back = .ok cell
        ∧ ShowsNewest (PointOf u aggs s.updates .mem instanceId (window (now - back))) cell)
      ↔ (∀ k v, ¬ PointOf u aggs s.updates .mem instanceId (window (now - back)) k v)
        ∨ ∃ file, firstFile u.root disk .mem instanceId = some file
            ∧ ∃ v, IsNewest (Among (window (now - back)) (pointAt s.updates file)) v
              ∧ IsNewest (PointOf u aggs s.updates .mem instanceId (window (now - back))) v :=
  snapshot_shows_iff u st hordinary w hrun hdisk hfetch .mem hid now back

end

/-! ## An instance that has moved -/

/-- The seconds after one time up to another, as far back as the updater's files reach. -/
def secondsAfter (now since : ℚ) : List ℤ :=
  let since := max since (now - (metricSecPerPoint * metricPointsToStore : ℕ))
  (List.range (⌊now⌋ - ⌊since⌋).toNat).map fun i : ℕ => ⌊since⌋ + 1 + (i : ℤ)

theorem secondsAfter_ordered (now since : ℚ) : (secondsAfter now since).Pairwise (· < ·) := by
  refine List.pairwise_map.mpr (List.pairwise_lt_range.imp ?_)
  intro i j hij
  omega

/-- A `whisper.fetch` that is asked at some time, after these updates. -/
def fetchAt (now : ℚ) (updates : List WhisperUpdate) : Fetch := fun path since =>
  ((⌊since⌋ + 1, ⌊now⌋ + 1, 1), (secondsAfter now since).map (pointAt updates path))

theorem fetches_fetchAt (now : ℚ) (updates : List WhisperUpdate) :
    Fetches (fetchAt now updates) (secondsAfter now) updates where
  ordered := secondsAfter_ordered now
  points _ _ _ := rfl

/-- The instance that moves. -/
def movedId : Bytes := bytes "00000000-0000-4000-8000-000000000001"

theorem partName_movedId : PartName movedId where
  ne_nil := by decide
  noSpace := noSpace_of_all (by decide)
  noDot := by decide
  noSlash := by decide
  noNul := by decide

def sampleOf (host : Bytes) (cpu tov : ℚ) : AggregateDomainStats where
  tov := .fin tov
  hostname := host
  domainStats := [{ domainUuid := movedId, cpuUtilizationPct := .fin cpu }]

/-- It has been on one host, and now is on the other. -/
def moved : List AggregateDomainStats :=
  [sampleOf (bytes "h1") (1 / 4) 98, sampleOf (bytes "h2") (1 / 2) 99]

theorem ordinary_sampleOf {host : Bytes} {cpu tov : ℚ} (hhost : HostName host)
    (hlen : host.length ≤ 255) (hcpu : |cpu| ≤ 10 ^ 309) (htov : |tov| ≤ 10 ^ 309) :
    Ordinary (sampleOf host cpu tov) where
  host := hhost
  hostLength := hlen
  uuids := fun _ hdom => List.mem_singleton.mp hdom ▸ partName_movedId
  uuidLengths := fun _ hdom => List.mem_singleton.mp hdom ▸ rfl
  tov := htov
  cpus := fun _ hdom => List.mem_singleton.mp hdom ▸ hcpu
  mems := fun _ hdom => List.mem_singleton.mp hdom ▸ by
    show |(0 : ℚ)| ≤ 10 ^ 309
    rw [abs_zero]
    positivity

theorem ordinary_moved : ∀ agg ∈ moved, Ordinary agg := by
  intro agg hagg
  rcases List.mem_pair.mp hagg with rfl | rfl
  · refine ordinary_sampleOf ?_ (by decide) (by decide +kernel) (by decide +kernel)
    exact { ne_nil := by decide, noSpace := noSpace_of_all (by decide), noSlash := by decide
            noNul := by decide, label_ne_nil := by decide }
  · refine ordinary_sampleOf ?_ (by decide) (by decide +kernel) (by decide +kernel)
    exact { ne_nil := by decide, noSpace := noSpace_of_all (by decide), noSlash := by decide
            noNul := by decide, label_ne_nil := by decide }

/-- Its files, those of the host it was on first. -/
def movedDisk : Disk :=
  .dir [(bytes "servers", .dir [
    (bytes "h1", .dir [(movedId, instanceDir)]), (bytes "h2", .dir [(movedId, instanceDir)])])]

theorem wp_moved :
    wp (dataUpdater.processCmds emptyDisk (moved.flatMap getWhisperUpdates)) ⟨(), []⟩
      (fun _ s => Holds dataUpdater.root movedDisk (s.updates.map (·.path))) noThrow :=
  wp_holds (by decide +kernel)

theorem cpuSnapshot_shows_moved :
    ∃ s, dataUpdater.processCmds emptyDisk (moved.flatMap getWhisperUpdates) ⟨(), []⟩ = .ok ⟨⟩ s
      ∧ ((∃ cell, getCpuUtilizationSnapshot dataUpdater.root movedDisk (fetchAt 100 s.updates) 100
              movedId 60 = .ok cell
            ∧ ShowsNewest (PointOf dataUpdater moved s.updates .cpu movedId
                (secondsAfter 100 (100 - 60))) cell)
        ↔ (∀ k v, ¬ PointOf dataUpdater moved s.updates .cpu movedId
              (secondsAfter 100 (100 - 60)) k v)
          ∨ ∃ file, firstFile dataUpdater.root movedDisk .cpu movedId = some file
              ∧ ∃ v, IsNewest (Among (secondsAfter 100 (100 - 60)) (pointAt s.updates file)) v
                ∧ IsNewest (PointOf dataUpdater moved s.updates .cpu movedId
                    (secondsAfter 100 (100 - 60))) v) := by
  obtain ⟨_, s, hrun, hdisk⟩ := wp_noThrow wp_moved
  exact ⟨s, hrun, cpuSnapshot_shows_iff dataUpdater emptyDisk ordinary_moved () hrun hdisk
    (fetches_fetchAt 100 s.updates) (by decide) 100 60⟩

/-- The column goes on showing what the instance did on the host it has left. -/
theorem not_shows_moved :
    wp (dataUpdater.processCmds emptyDisk (moved.flatMap getWhisperUpdates)) ⟨(), []⟩
      (fun _ s => Holds dataUpdater.root movedDisk (s.updates.map (·.path))
        ∧ ¬ ∃ cell, getCpuUtilizationSnapshot dataUpdater.root movedDisk (fetchAt 100 s.updates) 100
              movedId 60 = .ok cell
            ∧ ShowsNewest (PointOf dataUpdater moved s.updates .cpu movedId
                (secondsAfter 100 (100 - 60))) cell) noThrow := by
  -- the newest point is of second 99, and what is shown is no value of it
  have hfacts : wp (dataUpdater.processCmds emptyDisk (moved.flatMap getWhisperUpdates)) ⟨(), []⟩
      (fun _ s =>
        getCpuUtilizationSnapshot dataUpdater.root movedDisk (fetchAt 100 s.updates) 100 movedId 60
            = .ok (.number (.fin 25))
          ∧ (⟨bytes "h2", movedId, .cpu⟩ : Coordinates) ∈ recorded moved
          ∧ 99 ∈ secondsAfter 100 (100 - 60)
          ∧ pointAt s.updates (metricPath dataUpdater (bytes "h2") movedId .cpu) 99
            = some (.fin (1 / 2))
          ∧ ∀ r ∈ recorded moved, ∀ k ∈ secondsAfter 100 (100 - 60),
              ∀ v ∈ pointAt s.updates (r.path dataUpdater) k,
                99 ≤ k → v.timesHundred ≠ .fin 25) noThrow := by
    decide +kernel
  refine wp_mono (wp_and wp_moved hfacts) ?_ fun _ _ h => h.1
  intro _ s h
  obtain ⟨hdisk, hcell, hrec, hin, hpoint, hold⟩ := h
  refine ⟨hdisk, ?_⟩
  intro hshows
  obtain ⟨cell, hok, hshows⟩ := hshows
  cases hcell.symm.trans hok
  rcases hshows with ⟨hna, -⟩ | ⟨v, hv, k, ⟨r, hr, -, -, hk, hval⟩, hlast⟩
  · cases hna
  · exact hold r hr k hk v hval (hlast 99 _ ⟨_, hrec, rfl, rfl, hin, hpoint⟩)
      (Cell.number.inj hv).symm

end CloudMon.Proof
