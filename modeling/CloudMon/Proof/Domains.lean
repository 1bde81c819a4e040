import CloudMon.Dashboard.Views
import CloudMon.Proof.Recorded
import Mathlib.Data.Set.List

/-!
# The files of a metric

The names of an instance's metrics are the last components of its files. They are looked
up in the whole paths, though, so a file is also found for a metric whose text is in the
directory above all files, in the name of its host, in its uuid or in its own metric's
longer name.

That is the only way for it to go wrong: a metric's text has no slash and no dot in it,
so it is found in a path only where it is part of one of the names the path was made
from.
-/

namespace CloudMon.Proof

open CloudMon Words

/-- Where a metric of an instance is kept. Any text without separators is a metric. -/
structure Place where
  host : Bytes
  uuid : Bytes
  metric : Bytes
  noSlash : (47 : UInt8) ∉ metric
  noDot : (46 : UInt8) ∉ metric

/-- The file the updater writes. -/
def Place.path (u : Updater) (x : Place) : Bytes :=
  fileOf u (bytes "monitor.servers." ++ (x.host ++ 46 :: (x.uuid ++ 46 :: x.metric)))

theorem Place.path_eq (u : Updater) (x : Place) : x.path u
    = below u.root ++ (bytes "servers" ++ 47 :: (replace 46 47 x.host
      ++ 47 :: (replace 46 47 x.uuid ++ 47 :: (x.metric ++ 46 :: bytes "wsp")))) := by
  have hwsp : bytes ".wsp" = 46 :: bytes "wsp" := by decide
  rw [Place.path, fileOf, metricOf, serversKey_path, osPathJoin_servers, bytes_serversSlash, hwsp]
  simp only [replace_append, replace_cons_self, replace_of_not_mem x.noDot, List.append_assoc,
    List.cons_append, List.nil_append]

/-- What is recorded for an instance has such a place. -/
def Coordinates.place (r : Coordinates) : Place where
  host := r.host
  uuid := r.uuid
  metric := r.metric.name
  noSlash := (plainPart_name r.metric).noSlash
  noDot := (plainPart_name r.metric).noDot

theorem Coordinates.place_path (u : Updater) {r : Coordinates} (h : r.Proper) :
    r.place.path u = r.path u := by
  rw [Place.path, Coordinates.path, ← fileOf_eq_metricPath u r.host h.uuid.toPlainPart, keyOf_eq]
  rfl

/-- **The files of a node and a domain** are at such places, whatever history was recorded. -/
theorem getWhisperFilesList_places {φ : Type} {u : Updater} {st : Storage φ}
    {aggs : List AggregateDomainStats} (h : ∀ agg ∈ aggs, Proper agg) {w : φ} {s : Session φ}
    (hrun : u.processCmds st (aggs.flatMap getWhisperUpdates) ⟨w, []⟩ = .ok ⟨⟩ s) {disk : Disk}
    (hdisk : Holds u.root disk (s.updates.map (·.path))) (node domain : Bytes) :
    ∃ xs : List Place, getWhisperFilesList u.root disk (some node) (some domain) none
      = .ok (xs.map (·.path u)) := by
  have hplace : ∀ f ∈ getWhisperFiles u.root disk,
      Deep f ∧ f ∈ Set.range fun x => Place.path u x := by
    intro f hf
    obtain ⟨r, hr, rfl⟩ := (walk_finds_recorded h hrun hdisk f).mp hf
    have hproper := proper_of_recorded h hr
    exact ⟨deep_path u hproper, r.place, r.place_path u hproper⟩
  have hun : ¬ Unfiltered (some node) (some domain) none := fun hun => nomatch hun.1
  rw [getWhisperFilesList, filterM_eq_ok fun f hf => matchFilter_deep hun (hplace f hf).1]
  have hfound : ∀ p : Bytes → Bool,
      (getWhisperFiles u.root disk).filter p ∈ Set.range (List.map fun x => Place.path u x) := by
    intro p
    rw [Set.range_list_map]
    exact fun f hf => (hplace f (List.mem_of_mem_filter hf)).2
  exact (hfound _).imp fun xs hxs => congrArg Except.ok hxs.symm

/-! ## Names -/

/-- The name of the file alone. -/
def wspFile (metric : Bytes) : Bytes := metric ++ bytes ".wsp"

theorem osPathBasename_path (u : Updater) (x : Place) :
    osPathBasename (x.path u) = wspFile x.metric := by
  have hwsp : (47 : UInt8) ∉ 46 :: bytes "wsp" := by decide
  have hname : (47 : UInt8) ∉ x.metric ++ 46 :: bytes "wsp" := by
    rw [List.mem_append]
    rintro (h | h)
    · exact x.noSlash h
    · exact hwsp h
  have hcut : x.path u = (below u.root ++ (bytes "servers" ++ 47 :: (replace 46 47 x.host
      ++ 47 :: replace 46 47 x.uuid))) ++ 47 :: (x.metric ++ 46 :: bytes "wsp") := by
    rw [x.path_eq]
    simp only [List.append_assoc, List.cons_append]
  rw [hcut, osPathBasename_append hname]
  rfl

/-- **The metrics listed** are those of the files. -/
theorem mem_getMetricNames (u : Updater) {xs : List Place} {m : Bytes} :
    m ∈ (MonitoredDomain.mk (xs.map (·.path u))).getMetricNames ↔ ∃ x ∈ xs, x.metric = m := by
  have hname : ∀ x : Place,
      replaceAll (bytes ".wsp") [] (osPathBasename (x.path u)) = x.metric := by
    intro x
    rw [osPathBasename_path]
    exact (replaceAll_append x.noDot).trans (List.append_nil _)
  simp only [MonitoredDomain.getMetricNames, List.map_map, List.mem_toFinset, List.mem_map,
    Function.comp_apply, hname]

/-! ## Texts -/

/-- A metric's text is nowhere in the names a file's path is made from. -/
structure Clear (u : Updater) (m : Bytes) (x : Place) : Prop where
  root : ¬ m <:+: u.root
  servers : ¬ m <:+: bytes "servers"
  host : ¬ m <:+: x.host
  uuid : ¬ m <:+: x.uuid
  metric : ¬ m <:+: x.metric
  wsp : ¬ m <:+: bytes "wsp"

theorem infix_below_append_iff {m root t : Bytes} (h : (47 : UInt8) ∉ m) :
    m <:+: below root ++ t ↔ m <:+: root ∨ m <:+: t := by
  unfold below
  split
  · rename_i hroot
    rcases hroot with rfl | hroot
    · rw [List.nil_append, List.infix_nil]
      exact ⟨Or.inr, fun hm => hm.elim (fun hnil => hnil ▸ List.nil_infix) id⟩
    · -- the root has its slash
      obtain ⟨r, rfl⟩ := List.getLast?_eq_some_iff.mp hroot
      rw [List.append_assoc, List.singleton_append, infix_append_cons_iff h,
        infix_concat_iff_of_not_mem h]
  · rw [List.append_assoc, List.singleton_append, infix_append_cons_iff h]

/-- **Where a metric's text is found** in a path. -/
theorem infix_path_iff (u : Updater) (x y : Place) :
    x.metric <:+: y.path u ↔ ¬ Clear u x.metric y := by
  rw [y.path_eq, infix_below_append_iff x.noSlash, infix_append_cons_iff x.noSlash,
    infix_append_cons_iff x.noSlash, infix_append_cons_iff x.noSlash,
    infix_append_cons_iff x.noDot, infix_replace_iff x.noDot x.noSlash,
    infix_replace_iff x.noDot x.noSlash]
  refine ⟨?_, ?_⟩
  · intro h hclear
    rcases h with h | h | h | h | h | h
    · exact hclear.root h
    · exact hclear.servers h
    · exact hclear.host h
    · exact hclear.uuid h
    · exact hclear.metric h
    · exact hclear.wsp h
  · intro h
    by_contra hno
    simp only [not_or] at hno
    obtain ⟨hroot, hservers, hhost, huuid, hmetric, hwsp⟩ := hno
    exact h ⟨hroot, hservers, hhost, huuid, hmetric, hwsp⟩

/-! ## Files -/

/--
A metric's files are the ones named after it, and what is fetched for it is fetched from
one of them.
-/
structure ReadsOwn (dom : MonitoredDomain) (m : Bytes) : Prop where
  files_eq : dom.mapMetricToFiles m = dom.files.filter fun f => osPathBasename f = wspFile m
  fetched : ∀ {ρ : Type} (fetch : Bytes → ℚ → Option ℚ → ρ) (start : ℚ) (endTime : Option ℚ),
    ∃ f ∈ dom.files, osPathBasename f = wspFile m
      ∧ dom.extractData fetch m start endTime = some (fetch f start endTime)

section

variable (u : Updater) {xs : List Place}

/-- The domain whose files are at these places. -/
def domainAt (xs : List Place) : MonitoredDomain := ⟨xs.map (·.path u)⟩

theorem path_mem_filter_iff {x y : Place} (hy : y ∈ xs) :
    y.path u ∈ (domainAt u xs).files.filter (fun f => osPathBasename f = wspFile x.metric)
      ↔ y.metric = x.metric := by
  rw [List.mem_filter, osPathBasename_path, decide_eq_true_iff, wspFile, wspFile,
    List.append_left_inj]
  exact and_iff_right (List.mem_map_of_mem hy)

theorem path_mem_mapMetricToFiles_iff {x y : Place} (hy : y ∈ xs) :
    y.path u ∈ (domainAt u xs).mapMetricToFiles x.metric ↔ ¬ Clear u x.metric y := by
  rw [MonitoredDomain.mapMetricToFiles, List.mem_filter, decide_eq_true_iff, infix_path_iff]
  exact and_iff_right (List.mem_map_of_mem hy)

/-- A metric's files are found exactly where its text is clear of all others. -/
theorem mapMetricToFiles_eq_iff {x : Place} :
    (domainAt u xs).mapMetricToFiles x.metric
        = (domainAt u xs).files.filter (fun f => osPathBasename f = wspFile x.metric)
      ↔ ∀ y ∈ xs, x.metric ≠ y.metric → Clear u x.metric y := by
  refine ⟨?_, ?_⟩
  · intro heq y hy hne
    by_contra hclear
    have hfound := (path_mem_mapMetricToFiles_iff u hy).mpr hclear
    rw [heq, path_mem_filter_iff u hy] at hfound
    exact hne hfound.symm
  · intro hclear
    refine List.filter_congr fun f hf => ?_
    obtain ⟨y, hy, rfl⟩ := List.mem_map.mp hf
    rw [osPathBasename_path, decide_eq_decide, infix_path_iff, wspFile, wspFile,
      List.append_left_inj]
    refine ⟨fun hfound => ?_, fun heq hclear => ?_⟩
    · by_contra hne
      exact hfound (hclear y hy (Ne.symm hne))
    · exact hclear.metric (heq ▸ List.infix_rfl)

/-- What is found first is what is fetched. -/
theorem readsOwn_of_files_eq {x : Place} (hx : x ∈ xs)
    (h : (domainAt u xs).mapMetricToFiles x.metric
      = (domainAt u xs).files.filter fun f => osPathBasename f = wspFile x.metric) :
    ReadsOwn (domainAt u xs) x.metric where
  files_eq := h
  fetched fetch start endTime := by
    have hfound := (path_mem_filter_iff u hx).mpr rfl
    cases hfiles : (domainAt u xs).mapMetricToFiles x.metric with
    | nil =>
        rw [← h, hfiles] at hfound
        exact absurd hfound List.not_mem_nil
    | cons f files =>
        have hf : f ∈ (domainAt u xs).mapMetricToFiles x.metric := by
          rw [hfiles]
          exact List.mem_cons_self ..
        rw [h, List.mem_filter, decide_eq_true_iff] at hf
        refine ⟨f, hf.1, hf.2, ?_⟩
        rw [MonitoredDomain.extractData, hfiles]

/--
**A metric listed is read from its own files** exactly if no metric's text is part of
the directory's path, of `servers`, of `wsp`, or of the host name, the uuid or the
metric of a file of another metric.
-/
theorem readsOwn_iff (xs : List Place) :
    (∀ m ∈ (domainAt u xs).getMetricNames, ReadsOwn (domainAt u xs) m)
      ↔ ∀ x ∈ xs, ∀ y ∈ xs, x.metric ≠ y.metric → Clear u x.metric y := by
  refine ⟨?_, ?_⟩
  · intro h x hx
    have hlisted := (mem_getMetricNames u).mpr ⟨x, hx, rfl⟩
    exact (mapMetricToFiles_eq_iff u).mp (h x.metric hlisted).files_eq
  · intro h m hm
    obtain ⟨x, hx, rfl⟩ := (mem_getMetricNames u).mp hm
    exact readsOwn_of_files_eq u hx ((mapMetricToFiles_eq_iff u).mpr (h x hx))

end

/-- Two metrics of an instance whose host has the name of one in its own. -/
def memcachedFiles : MonitoredDomain :=
  domainAt dataUpdater [⟨bytes "memcached1", bytes "u-1", bytes "cpu", by decide, by decide⟩,
    ⟨bytes "memcached1", bytes "u-1", bytes "mem", by decide, by decide⟩]

/-- Its memory is shown with the values of its processor. -/
theorem not_readsOwn_memcached :
    ¬ (∀ m ∈ memcachedFiles.getMetricNames, ReadsOwn memcachedFiles m)
      ∧ memcachedFiles.extractData (fun f _ _ => f) (bytes "mem") 0 none
        = some (bytes "/data/servers/memcached1/u-1/cpu.wsp") := by
  refine ⟨fun h => ?_, by decide +kernel⟩
  have hmem := (h (bytes "mem") (by decide +kernel)).files_eq
  exact absurd hmem (by decide +kernel)

end CloudMon.Proof
