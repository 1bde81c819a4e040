import CloudMon.Proof.Collected
import CloudMon.Proof.Latest

/-!
# From the hypervisor to the table

The layers put together. What a monitor publishes of an instance arrives as lines, the
lines as calls on the instance's files, the calls as points, one for a second, and the
table shows the newest point of the first file it finds. Where every layer keeps what
the one before gave it, the cell can be read as a statement about the monitor: it is a
hundred times the value that was published last for the last second of the window.

An instance has to stay on one host for that. The table does not know of hosts, and of
the files of an instance on two of them it reads the one it happens to find first.
-/

namespace CloudMon.Proof

open CloudMon Wp Newest Pipeline

/-! ## What a file has kept of some readings -/

/-- The second a reading is recorded for. -/
def secondOf (x : AggregateDomainStats × DomainStats × Metric) : Option ℤ :=
  ((pyFloat (formatF x.1.tov)).bind Double.toRat?).map fun q => q.num.tdiv q.den

/-- The reading that is kept for a second: the last one. -/
def keptFor (xs : List (AggregateDomainStats × DomainStats × Metric)) (k : ℤ) :
    Option (AggregateDomainStats × DomainStats × Metric) :=
  (xs.filter fun x => secondOf x = some k).getLast?

theorem second_of_recorded {u : Updater} {x : AggregateDomainStats × DomainStats × Metric}
    {call : WhisperUpdate} (h : Recorded u x.1 x.2 call) : second call = secondOf x := by
  rw [secondOf, h.written]
  rfl

/-- What is last in one list is related to what is last in the other. -/
theorem forall₂_getLast? {α β : Type} {R : α → β → Prop} {xs : List α} {ys : List β}
    (h : List.Forall₂ R xs ys) : Option.Rel R xs.getLast? ys.getLast? := by
  rw [← List.head?_reverse, ← List.head?_reverse]
  have hrev := List.rel_reverse h
  generalize xs.reverse = xs' at hrev
  generalize ys.reverse = ys' at hrev
  cases hrev with
  | nil => exact .none
  | cons hxy _ => exact .some hxy

/-- **A file's point for a second is the reading kept for it**, as it was read back. -/
theorem pointAt_kept {u : Updater} {xs : List (AggregateDomainStats × DomainStats × Metric)}
    {updates : List WhisperUpdate} {path : Bytes}
    (h : Follows u xs (updates.filter fun call => call.path = path)) (k : ℤ) :
    Option.Rel (fun x v => Recovered x.2.2 x.2.1 v) (keptFor xs k) (pointAt updates path k) := by
  have hcalls : (updates.filter fun c => c.path = path ∧ second c = some k)
      = (updates.filter fun c => c.path = path).filter fun c => second c = some k := by
    rw [List.filter_filter]
    refine List.filter_congr fun c _ => ?_
    simp only [Bool.decide_and, Bool.and_comm]
  have hsame : List.Forall₂ (fun x call => Recorded u x.1 x.2 call)
      (xs.filter fun x => secondOf x = some k)
      ((updates.filter fun c => c.path = path).filter fun c => second c = some k) :=
    forall₂_filter h fun x _ call hcall => by rw [second_of_recorded hcall]
  have hlast := forall₂_getLast? hsame
  rw [pointAt, hcalls, keptFor]
  generalize (xs.filter fun x => secondOf x = some k).getLast? = kept at hlast
  generalize ((updates.filter fun c => c.path = path).filter
    fun c => second c = some k).getLast? = last at hlast
  cases hlast with
  | none => exact .none
  | some hcall => exact .some hcall.value

/-- There is a reading kept for every second that has one. -/
theorem keptFor_isSome {xs : List (AggregateDomainStats × DomainStats × Metric)}
    {x : AggregateDomainStats × DomainStats × Metric} {k : ℤ} (hx : x ∈ xs)
    (hk : secondOf x = some k) : ∃ y, keptFor xs k = some y := by
  have hne : (xs.filter fun x => secondOf x = some k) ≠ [] :=
    List.ne_nil_of_mem (List.mem_filter.mpr ⟨hx, decide_eq_true hk⟩)
  exact ⟨_, List.getLast?_eq_some_getLast hne⟩

/--
A cell shows the reading kept for the last second of a window that has any, or that no
second of it has one.
-/
def ShowsKept (metric : Metric) (ks : List ℤ)
    (xs : List (AggregateDomainStats × DomainStats × Metric)) (cell : Cell) : Prop :=
  (cell = .na ∧ ∀ x ∈ xs, ∀ k ∈ ks, secondOf x ≠ some k)
    ∨ ∃ k ∈ ks, (∀ x ∈ xs, ∀ k' ∈ ks, secondOf x = some k' → k' ≤ k)
      ∧ ∃ x v, keptFor xs k = some x ∧ Recovered metric x.2.1 v ∧ cell = .number v.timesHundred

/-- **Looking through a file from the back** shows the reading kept last. -/
theorem showsKept_scan {u : Updater} {xs : List (AggregateDomainStats × DomainStats × Metric)}
    {updates : List WhisperUpdate} {path : Bytes} {metric : Metric}
    (h : Follows u xs (updates.filter fun call => call.path = path))
    (hmetric : ∀ x ∈ xs, x.2.2 = metric) {ks : List ℤ} (hks : ks.Pairwise (· < ·)) :
    ShowsKept metric ks xs (match (ks.map (pointAt updates path)).reverse.findSome? id with
      | some val => .number val.timesHundred
      | none => .na) := by
  have hpoint : ∀ {x k}, x ∈ xs → secondOf x = some k → ∃ v, pointAt updates path k = some v := by
    intro x k hx hk
    obtain ⟨y, hy⟩ := keptFor_isSome hx hk
    have hrel := pointAt_kept h k
    rw [hy] at hrel
    cases hp : pointAt updates path k with
    | none => rw [hp] at hrel; cases hrel
    | some v => exact ⟨v, rfl⟩
  cases hscan : (ks.map (pointAt updates path)).reverse.findSome? id with
  | none =>
      refine Or.inl ⟨rfl, fun x hx k hk hsec => ?_⟩
      obtain ⟨v, hv⟩ := hpoint hx hsec
      exact findSome?_reverse_eq_none.mp hscan k v ⟨hk, hv⟩
  | some v =>
      obtain ⟨k, ⟨hk, hv⟩, hlast⟩ := isNewest_of_findSome? hks hscan
      have hrel := pointAt_kept h k
      rw [hv] at hrel
      obtain ⟨x, hx, hrecovered⟩ : ∃ x, keptFor xs k = some x ∧ Recovered x.2.2 x.2.1 v := by
        cases hkept : keptFor xs k with
        | none => rw [hkept] at hrel; cases hrel
        | some x => rw [hkept] at hrel; cases hrel with | some hr => exact ⟨x, rfl, hr⟩
      have hmem : x ∈ xs := List.mem_of_mem_filter (List.mem_of_getLast? hx)
      refine Or.inr ⟨k, hk, fun y hy k' hk' hsec => ?_, x, v, hx, hmetric x hmem ▸ hrecovered, rfl⟩
      obtain ⟨v', hv'⟩ := hpoint hy hsec
      exact hlast k' v' ⟨hk', hv'⟩

/-! ## The files there are -/

/-- What a reading is recorded for. -/
def coordinatesOf (x : AggregateDomainStats × DomainStats × Metric) : Coordinates :=
  ⟨x.1.hostname, x.2.1.domainUuid, x.2.2⟩

theorem isOf_iff {r : Coordinates} {x : AggregateDomainStats × DomainStats × Metric} :
    isOf r x = true ↔ coordinatesOf x = r := by
  obtain ⟨host, uuid, metric⟩ := r
  rw [isOf, decide_eq_true_iff, coordinatesOf, Coordinates.mk.injEq]

theorem Follows.paths {u : Updater} {xs : List (AggregateDomainStats × DomainStats × Metric)}
    {updates : List WhisperUpdate} (h : Follows u xs updates) :
    updates.map (·.path) = (xs.map coordinatesOf).map (·.path u) := by
  have hpaths : List.Forall₂ (· = ·) (updates.map (·.path))
      ((xs.map coordinatesOf).map (·.path u)) := by
    rw [List.map_map]
    refine List.forall₂_map_left_iff.mpr (List.forall₂_map_right_iff.mpr ?_)
    exact h.flip.imp fun call x hcall => hcall.path
  exact List.forall₂_eq_eq_eq ▸ hpaths

/-- **The two filters of a column** are a test of the coordinates, for names of one length. -/
theorem passes_column (u : Updater) {r : Coordinates} (h : r.Proper) {instanceId : Bytes}
    (hlen : instanceId.length = r.uuid.length) (metric : Metric) :
    (passes 2 (some instanceId) (r.path u) && passes 1 (some metric.name) (r.path u)) = true
      ↔ r.uuid = instanceId ∧ r.metric = metric := by
  rw [(passes_path u h instanceId).2.1, (passes_path u h metric.name).2.2, Bool.and_eq_true,
    decide_eq_true_iff, decide_eq_true_iff, infix_iff_eq hlen, name_infix_wspName]

section Runs

variable {μ ο δ φ : Type} [DecidableEq μ] {net : Network μ ο} {gethostname : μ → Option Bytes}
  {tov : μ → Double} {s : System μ δ}

/--
**The file a column reads.** Of an instance that only `m` has published it is `m`'s file
for the metric, and its calls follow what `m` has published of it; there is none exactly
when `m` has published nothing of it.
-/
theorem firstFile_of_runs (hr : Runs net gethostname tov s)
    (hdistinct : ∀ m m', mHostname (gethostname m) = mHostname (gethostname m') → m = m')
    (hordinary : ∀ m, ∀ agg ∈ aggregatesOf (s.monitors m).sent, Ordinary agg)
    (hrest : ∀ m, inFlight net s m = []) {u : Updater} {st : Storage φ} {w : φ} {sess : Session φ}
    (hrun : u.mainLoop st (piped (s.written.map Prod.snd)) ⟨w, []⟩ = .ok ⟨⟩ sess) {disk : Disk}
    (hdisk : Holds u.root disk (sess.updates.map (·.path))) {m : μ} {instanceId : Bytes}
    (hid : instanceId.length = 36)
    (hhome : ∀ m', ∀ agg ∈ aggregatesOf (s.monitors m').sent, ∀ dom ∈ agg.domainStats,
      dom.domainUuid = instanceId → m' = m) (metric : Metric) {r : Coordinates}
    (hcoords : r = ⟨mHostname (gethostname m), instanceId, metric⟩) :
    (∀ f ∈ getWhisperFiles u.root disk, Deep f)
      ∧ (firstFile u.root disk metric instanceId = none ∧ readingsOf r (s.monitors m).sent = []
        ∨ firstFile u.root disk metric instanceId = some (r.path u)
          ∧ readingsOf r (s.monitors m).sent ≠ []
          ∧ r.path u ∈ sess.updates.map (·.path)
          ∧ Follows u (readingsOf r (s.monitors m).sent)
            (sess.updates.filter fun call => call.path = r.path u)) := by
  have hplain : ∀ m, ∀ agg ∈ aggregatesOf (s.monitors m).sent, Plain agg :=
    fun m agg hagg => (hordinary m agg hagg).proper.plain
  have hsources := sources_of_runs hr hplain
  obtain ⟨zs, hwritten, hsent⟩ := written_traced hr
  rw [lines_of_written hwritten] at hrun
  have hatt := wp_of_ok (wp_mainLoop_traced (fun m => (hsent m).1) hsources u st w) hrun
  -- every file is of a reading, and every reading of some monitor
  have hof : ∀ x ∈ (zs.map Prod.snd).filterMap Item.reading?, ∃ m', (m', Item.reading x.1 x.2) ∈ zs
      ∧ x.1 ∈ aggregatesOf (s.monitors m').sent ∧ x.1.hostname = mHostname (gethostname m')
      ∧ x.2.1 ∈ x.1.domainStats := by
    intro x hx
    obtain ⟨z, hz, hread⟩ := List.mem_filterMap.mp hx
    obtain ⟨⟨m', z⟩, hmem, rfl⟩ := List.mem_map.mp hz
    cases z with
    | ended ident => cases hread
    | reading agg e =>
        cases hread
        obtain ⟨hagg, _, hhost, he⟩ := hatt.2.stems.reading hsources hmem
        exact ⟨m', hmem, hagg, hhost, mem_domainStats_of_entry he⟩
  have hrs : ∀ r ∈ ((zs.map Prod.snd).filterMap Item.reading?).map coordinatesOf,
      r.Proper ∧ r.uuid.length = 36 := by
    intro r hmem
    obtain ⟨x, hx, rfl⟩ := List.mem_map.mp hmem
    obtain ⟨m', _, hagg, _, hdom⟩ := hof x hx
    have hord := hordinary m' x.1 hagg
    exact ⟨⟨hord.host, hord.uuids _ hdom⟩, hord.uuidLengths _ hdom⟩
  have hpaths := hatt.1.updates.paths
  rw [hpaths] at hdisk
  have hfiles := fun {p} => mem_getWhisperFiles (p := p) (fun r h => (hrs r h).1) hdisk
  have hpasses : ∀ r ∈ ((zs.map Prod.snd).filterMap Item.reading?).map coordinatesOf,
      (passes 2 (some instanceId) (r.path u) && passes 1 (some metric.name) (r.path u)) = true
        ↔ r.uuid = instanceId ∧ r.metric = metric := fun r hmem =>
    passes_column u (hrs r hmem).1 (hid.trans (hrs r hmem).2.symm) metric
  have hreadings : readingsOf r (s.monitors m).sent
      = ((only m zs).filterMap Item.reading?).filter (isOf r) := by
    rw [(hsent m).2 (hrest m), reading?_items, readingsOf]
  -- a reading of `m` has left a file that passes
  have hleft : ∀ x ∈ readingsOf r (s.monitors m).sent,
      r ∈ ((zs.map Prod.snd).filterMap Item.reading?).map coordinatesOf := by
    intro x hx
    rw [hreadings] at hx
    obtain ⟨hx, hsame⟩ := List.mem_filter.mp hx
    obtain ⟨z, hz, hread⟩ := List.mem_filterMap.mp hx
    exact List.mem_map.mpr ⟨x, List.mem_filterMap.mpr
      ⟨z, List.mem_map.mpr ⟨_, mem_of_mem_only hz, rfl⟩, hread⟩, isOf_iff.mp hsame⟩
  refine ⟨fun f hf => ?_, ?_⟩
  · obtain ⟨r', hmem, rfl⟩ := hfiles.mp hf
    exact deep_path u (hrs r' hmem).1
  cases hfirst : firstFile u.root disk metric instanceId with
  | none =>
      refine Or.inl ⟨rfl, List.eq_nil_iff_forall_not_mem.mpr fun x hx => ?_⟩
      have hpass := (hpasses r (hleft x hx)).mpr (hcoords ▸ ⟨rfl, rfl⟩)
      exact List.find?_eq_none.mp hfirst _ (hfiles.mpr ⟨r, hleft x hx, rfl⟩) hpass
  | some file =>
      obtain ⟨hfile, htest⟩ := firstFile_eq_some hfirst
      obtain ⟨r', hmem, rfl⟩ := hfiles.mp hfile
      obtain ⟨huuid, hmetric⟩ := (hpasses r' hmem).mp htest
      obtain ⟨x, hx, hsame⟩ := List.mem_map.mp hmem
      obtain ⟨m', hin, hagg, hhost, hdom⟩ := hof x hx
      have hm : m' = m := by
        refine hhome m' x.1 hagg x.2.1 hdom ?_
        rw [← huuid, ← hsame]
        rfl
      obtain rfl : r' = r := by
        obtain ⟨host, uuid, metric'⟩ := r'
        cases huuid
        cases hmetric
        have hsame : x.1.hostname = host := congrArg Coordinates.host hsame
        rw [hcoords, ← hm, ← hhost, hsame]
      have hproper := (hrs r' hmem).1
      have hmine : x ∈ ((only m zs).filterMap Item.reading?).filter (isOf r') :=
        List.mem_filter.mpr ⟨List.mem_filterMap.mpr ⟨.reading x.1 x.2,
          List.mem_filterMap.mpr ⟨_, hm ▸ hin, if_pos rfl⟩, rfl⟩, isOf_iff.mpr hsame⟩
      rw [hreadings]
      refine Or.inr ⟨rfl, List.ne_nil_of_mem hmine, ?_, ?_⟩
      · rw [hpaths]
        exact List.mem_map.mpr ⟨r', hmem, rfl⟩
      · exact hatt.2.stems.file hsources hatt.1.updates hdistinct
          (congrArg Coordinates.host hcoords) hproper.host.toPlainHost hproper.uuid.toPlainPart

/-- What a fetch returns of a file the updater has written to. -/
theorem Fetches.file {fetch : Fetch} {window : ℚ → List ℤ} {updates : List WhisperUpdate}
    (h : Fetches fetch window updates) {path : Bytes} (hpath : path ∈ updates.map (·.path))
    (since : ℚ) : (fetch path since).2 = (window since).map (pointAt updates path) := by
  obtain ⟨c, hc, rfl⟩ := List.mem_map.mp hpath
  exact h.points c hc since

theorem metric_of_reading {r : Coordinates} {sent : List Publication}
    {x : AggregateDomainStats × DomainStats × Metric} (h : x ∈ readingsOf r sent) :
    x.2.2 = r.metric := congrArg Coordinates.metric (isOf_iff.mp (List.mem_filter.mp h).2)

/-- What one column shows of an instance that only `m` has published. -/
theorem column_of_runs (hr : Runs net gethostname tov s)
    (hdistinct : ∀ m m', mHostname (gethostname m) = mHostname (gethostname m') → m = m')
    (hordinary : ∀ m, ∀ agg ∈ aggregatesOf (s.monitors m).sent, Ordinary agg)
    (hrest : ∀ m, inFlight net s m = []) {u : Updater} {st : Storage φ} {w : φ} {sess : Session φ}
    (hrun : u.mainLoop st (piped (s.written.map Prod.snd)) ⟨w, []⟩ = .ok ⟨⟩ sess) {disk : Disk}
    (hdisk : Holds u.root disk (sess.updates.map (·.path))) {fetch : Fetch} {window : ℚ → List ℤ}
    (hfetch : Fetches fetch window sess.updates) {m : μ} {instanceId : Bytes}
    (hid : instanceId.length = 36)
    (hhome : ∀ m', ∀ agg ∈ aggregatesOf (s.monitors m').sent, ∀ dom ∈ agg.domainStats,
      dom.domainUuid = instanceId → m' = m) (now back : ℚ) (metric : Metric) :
    ∃ cell, utilizationSnapshot metric.name u.root disk fetch now instanceId back = .ok cell
      ∧ ShowsKept metric (window (now - back))
        (readingsOf ⟨mHostname (gethostname m), instanceId, metric⟩ (s.monitors m).sent) cell := by
  obtain ⟨hdeep, hfile⟩ :=
    firstFile_of_runs hr hdistinct hordinary hrest hrun hdisk hid hhome metric rfl
  rw [utilizationSnapshot_eq fetch now metric instanceId back hdeep]
  refine ⟨_, rfl, ?_⟩
  rcases hfile with ⟨hnone, hempty⟩ | ⟨hsome, _, hpath, hfollows⟩
  · rw [hnone, hempty]
    exact Or.inl ⟨rfl, fun x hx => absurd hx List.not_mem_nil⟩
  · rw [hsome]
    simp only [hfetch.file hpath]
    exact showsKept_scan hfollows (fun x hx => metric_of_reading hx) (hfetch.ordered _)

/--
**From the hypervisor to the table.** At the end of a run of the whole system, all
messages delivered and read, the CPU and the memory column show for an instance that has
stayed on one host a hundred times what its monitor published for it in the last second of
the window, the last value published for that second, to six decimals; and `"N/A"` exactly
when it has published nothing for the window.
-/
theorem columns_of_runs (net : Network μ ο) (gethostname : μ → Option Bytes) (tov : μ → Double)
    (s : System μ δ) (hr : Runs net gethostname tov s)
    (hdistinct : ∀ m m', mHostname (gethostname m) = mHostname (gethostname m') → m = m')
    (hordinary : ∀ m, ∀ agg ∈ aggregatesOf (s.monitors m).sent, Ordinary agg)
    (hrest : ∀ m, inFlight net s m = []) (u : Updater) (st : Storage φ) (w : φ) (sess : Session φ)
    (hrun : u.mainLoop st (piped (s.written.map Prod.snd)) ⟨w, []⟩ = .ok ⟨⟩ sess) (disk : Disk)
    (hdisk : Holds u.root disk (sess.updates.map (·.path))) (fetch : Fetch) (window : ℚ → List ℤ)
    (hfetch : Fetches fetch window sess.updates) (m : μ) (instanceId : Bytes)
    (hid : instanceId.length = 36)
    (hhome : ∀ m', ∀ agg ∈ aggregatesOf (s.monitors m').sent, ∀ dom ∈ agg.domainStats,
      dom.domainUuid = instanceId → m' = m) (now back : ℚ) :
    (∃ cell, getCpuUtilizationSnapshot u.root disk fetch now instanceId back = .ok cell
        ∧ ShowsKept .cpu (window (now - back))
          (readingsOf ⟨mHostname (gethostname m), instanceId, .cpu⟩ (s.monitors m).sent) cell)
      ∧ ∃ cell, getMemUtilizationSnapshot u.root disk fetch now instanceId back = .ok cell
        ∧ ShowsKept .mem (window (now - back))
          (readingsOf ⟨mHostname (gethostname m), instanceId, .mem⟩ (s.monitors m).sent) cell :=
  ⟨column_of_runs hr hdistinct hordinary hrest hrun hdisk hfetch hid hhome now back .cpu,
    column_of_runs hr hdistinct hordinary hrest hrun hdisk hfetch hid hhome now back .mem⟩

end Runs

/-! ## An instance that has been seen once -/

/-- One domain that uses half a processor; the world is the time, which passes between calls. -/
def halfBusyHost : Host Int DomId :=
  { fixedHost Int [1] with
    getUUIDString := fun _ w => (movedId ++ [0], w)
    getInfo := fun _ w => (some ⟨1, 1024, 512, 1, 500000000⟩, w)
    realtimeNow := fun w => (⟨w, 0⟩, w + 1) }

def halfBusy : AggregateDomainStats where
  tov := .fin 100
  hostname := bytes "unknown-host"
  domainStats := [
    { domainId := 1
      domainUuid := movedId
      cpuUtilizationPct := .fin (1 / 2)
      memUtilizationPct := .fin (1 / 2) }]

/-- The same, as msgpack packs it. -/
def halfBusyPacked : Bytes :=
  [0x93, 0xcb, 0x40, 0x59, 0, 0, 0, 0, 0, 0, 0xac] ++ bytes "unknown-host"
    ++ [0x91, 0xdc, 0, 17, 1, 0xd9, 36] ++ movedId
    ++ [0xcb, 0x3f, 0xe0, 0, 0, 0, 0, 0, 0, 0xcb, 0x3f, 0xe0, 0, 0, 0, 0, 0, 0]
    ++ List.replicate 13 0

/-- msgpack, on short strings and on the one aggregate. -/
def halfBusyMsgpack : Msgpack AggregateDomainStats where
  packString s := (0xa0 + UInt8.ofNat s.length) :: s
  packAggregate agg := if agg = halfBusy then halfBusyPacked else []
  unpack b := if b = halfBusyPacked then some halfBusy else none
  toString _ := none
  toAggregate := some

def halfBusyNet : Network Unit AggregateDomainStats where
  mp := halfBusyMsgpack
  hops := 1
  entry _ := 0
  entry_le _ := by decide

def halfBusyUpdate : MonitorState Int DomId :=
  match LibvirtDomainStatPublisher.update false halfBusyHost
    ((Publisher.init none (.fin 0)).inWorld 98) with
  | .ok _ u => u
  | .error _ u => u

theorem published_halfBusyUpdate : published halfBusyUpdate.events
    = [.aggregate (bytes "monitor.servers.unknown-host") halfBusy] := by
  decide +kernel

def afterHalfBusy : System Unit DomId :=
  (System.init (fun _ => none) fun _ => .fin 0).afterUpdate halfBusyNet () halfBusyUpdate true

theorem runs_afterHalfBusy :
    Runs halfBusyNet (fun _ => none) (fun _ => .fin 0) afterHalfBusy := by
  refine .update .init (.returned () false halfBusyHost 98 halfBusyUpdate rfl rfl ?_)
  intro p hp
  rw [published_halfBusyUpdate, List.mem_singleton] at hp
  subst hp
  exact ⟨by decide +kernel, by decide +kernel⟩

theorem aggregatesOf_afterHalfBusy :
    aggregatesOf (afterHalfBusy.monitors ()).sent = [halfBusy] := by
  show aggregatesOf ([] ++ published halfBusyUpdate.events) = _
  rw [published_halfBusyUpdate]
  rfl

theorem ordinary_halfBusy : Ordinary halfBusy where
  host := { ne_nil := by decide, noSpace := noSpace_of_all (by decide), noSlash := by decide
            noNul := by decide, label_ne_nil := by decide }
  hostLength := by decide
  uuids := fun _ hdom => List.mem_singleton.mp hdom ▸ partName_movedId
  uuidLengths := fun _ hdom => List.mem_singleton.mp hdom ▸ rfl
  tov := by
    show |(100 : ℚ)| ≤ 10 ^ 309
    decide +kernel
  cpus := fun _ hdom => List.mem_singleton.mp hdom ▸ by
    show |(1 / 2 : ℚ)| ≤ 10 ^ 309
    decide +kernel
  mems := fun _ hdom => List.mem_singleton.mp hdom ▸ by
    show |(1 / 2 : ℚ)| ≤ 10 ^ 309
    decide +kernel

/-- What the updater leaves of it on disk. -/
def halfBusyDisk : Disk :=
  .dir [(bytes "servers", .dir [(bytes "unknown-host", .dir [(movedId, instanceDir)])])]

/-- The lines of a single monitor, once they have all arrived. -/
theorem written_unit {ο δ : Type} {net : Network Unit ο} {gethostname : Unit → Option Bytes}
    {tov : Unit → Double} {s : System Unit δ} (hr : Runs net gethostname tov s)
    (hrest : inFlight net s () = []) :
    s.written.map Prod.snd = (s.monitors ()).sent.flatMap expectedLines := by
  have hlines := (flowing_runs hr).delivered ()
  rw [hrest, List.flatMap_nil, List.append_nil] at hlines
  rw [← hlines, only, ← List.filterMap_eq_map]
  exact List.filterMap_congr fun e _ => (if_pos rfl).symm

theorem wp_halfBusy :
    wp (dataUpdater.mainLoop emptyDisk (piped (getWhisperUpdates halfBusy))) ⟨(), []⟩
      (fun _ s => Holds dataUpdater.root halfBusyDisk (s.updates.map (·.path))) noThrow :=
  wp_holds (by decide +kernel)

/-- Its run comes to rest, and the updater reads it to the end. -/
theorem rest_halfBusy : ∃ (s : System Unit DomId) (sess : Session Unit),
    Runs halfBusyNet (fun _ => none) (fun _ => .fin 0) s ∧ s.monitors = afterHalfBusy.monitors
      ∧ (∀ m, inFlight halfBusyNet s m = [])
      ∧ dataUpdater.mainLoop emptyDisk (piped (s.written.map Prod.snd)) ⟨(), []⟩ = .ok ⟨⟩ sess
      ∧ Holds dataUpdater.root halfBusyDisk (sess.updates.map (·.path))
      ∧ ∀ m : Unit, ∀ agg ∈ aggregatesOf (s.monitors m).sent, Ordinary agg := by
  obtain ⟨s, hr, hsame, hrest⟩ := exists_quiet runs_afterHalfBusy
  have hlines : s.written.map Prod.snd = getWhisperUpdates halfBusy := by
    rw [written_unit hr (hrest ()), hsame]
    show ([] ++ published halfBusyUpdate.events).flatMap expectedLines = _
    rw [published_halfBusyUpdate]
    exact List.append_nil _
  obtain ⟨_, sess, hrun, hdisk⟩ := wp_noThrow wp_halfBusy
  rw [← hlines] at hrun
  refine ⟨s, sess, hr, hsame, hrest, hrun, hdisk, fun m agg hagg => ?_⟩
  rw [hsame, aggregatesOf_afterHalfBusy, List.mem_singleton] at hagg
  exact hagg ▸ ordinary_halfBusy

theorem columns_of_runs_halfBusy : ∃ (s : System Unit DomId) (sess : Session Unit),
    s.monitors = afterHalfBusy.monitors
      ∧ dataUpdater.mainLoop emptyDisk (piped (s.written.map Prod.snd)) ⟨(), []⟩ = .ok ⟨⟩ sess
      ∧ (∃ cell, getCpuUtilizationSnapshot dataUpdater.root halfBusyDisk
          (fetchAt 130 sess.updates) 130 movedId 60 = .ok cell
        ∧ ShowsKept .cpu (secondsAfter 130 (130 - 60))
          (readingsOf ⟨mHostname none, movedId, .cpu⟩ (s.monitors ()).sent) cell)
      ∧ ∃ cell, getMemUtilizationSnapshot dataUpdater.root halfBusyDisk
          (fetchAt 130 sess.updates) 130 movedId 60 = .ok cell
        ∧ ShowsKept .mem (secondsAfter 130 (130 - 60))
          (readingsOf ⟨mHostname none, movedId, .mem⟩ (s.monitors ()).sent) cell := by
  obtain ⟨s, sess, hr, hsame, hrest, hrun, hdisk, hordinary⟩ := rest_halfBusy
  exact ⟨s, sess, hsame, hrun, columns_of_runs halfBusyNet (fun _ => none) (fun _ => .fin 0) s hr
    (fun _ _ _ => rfl) hordinary hrest dataUpdater emptyDisk () sess hrun halfBusyDisk hdisk
    (fetchAt 130 sess.updates) (secondsAfter 130) (fetches_fetchAt 130 sess.updates) () movedId
    (by decide) (fun _ _ _ _ _ _ => rfl) 130 60⟩

end CloudMon.Proof
