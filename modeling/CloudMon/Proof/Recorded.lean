import CloudMon.Proof.Filters
import CloudMon.Proof.Names

/-!
# What a history leaves on disk, and what a walk finds there

A history is the lines of any number of aggregates, read by the updater one after the
other. It leaves one file for each host, uuid and metric in it, and nothing else is
below the updater's directory.

A walk from that directory finds the same files under the same paths, because a path
is put together from its directory down and names with a slash or without a letter do
not occur. In which order it finds them is up to the directories.
-/

namespace CloudMon.Proof

open CloudMon Wp Words Paths

/-- An aggregate with proper names whose keys and lines fit the two buffers. -/
structure Proper (agg : AggregateDomainStats) : Prop where
  host : HostName agg.hostname
  uuids : ∀ dom ∈ agg.domainStats, PartName dom.domainUuid
  keys : ∀ e ∈ entries agg, (statKeyText agg.hostname e.1.domainUuid e.2).length ≤ 511
  lines : ∀ e ∈ entries agg, (whisperLineText agg e.1 e.2).length ≤ 1023

theorem Proper.plain {agg : AggregateDomainStats} (h : Proper agg) : Plain agg where
  host := h.host.toPlainHost
  uuids dom hdom := (h.uuids dom hdom).toPlainPart
  keys := h.keys
  lines := h.lines

theorem Proper.nulFree {agg : AggregateDomainStats} (h : Proper agg) : NulFree agg where
  host := h.host.noNul
  uuids dom hdom := (h.uuids dom hdom).noNul

/-- A number a double can be. -/
def DoubleRange : Double → Prop
  | .fin q => |q| ≤ 10 ^ 309
  | _ => True

/--
An aggregate as the publishers make them: a host's name, uuids of 36 characters, and
doubles for values.
-/
structure Ordinary (agg : AggregateDomainStats) : Prop where
  host : HostName agg.hostname
  hostLength : agg.hostname.length ≤ 255
  uuids : ∀ dom ∈ agg.domainStats, PartName dom.domainUuid
  uuidLengths : ∀ dom ∈ agg.domainStats, dom.domainUuid.length = 36
  tov : DoubleRange agg.tov
  cpus : ∀ dom ∈ agg.domainStats, DoubleRange dom.cpuUtilizationPct
  mems : ∀ dom ∈ agg.domainStats, DoubleRange dom.memUtilizationPct

theorem formatF_length_le {d : Double} (h : DoubleRange d) : (formatF d).length ≤ 318 := by
  cases d with
  | fin q => exact Decimal.fixedText_length_le h
  | negZero => decide
  | inf neg => cases neg <;> decide
  | nan neg => cases neg <;> decide

theorem formatLld_length_le (v : Int64) : (formatLld v).length ≤ 20 := by
  refine Decimal.intText_length_le (by decide) ?_
  have hlow := v.le_toInt
  have hhigh := v.toInt_lt
  omega

theorem statKeyText_length_le (host uuid : Bytes) (metric : Metric) :
    (statKeyText host uuid metric).length ≤ host.length + uuid.length + 32 := by
  have hhost : (cString host).length ≤ host.length := (List.takeWhile_prefix _).length_le
  have huuid : (cString uuid).length ≤ uuid.length := (List.takeWhile_prefix _).length_le
  have hname : metric.name.length ≤ 14 := by cases metric <;> decide
  have hservers : (bytes "monitor.servers.").length = 16 := by decide
  have hdot : (bytes ".").length = 1 := by decide
  simp only [statKeyText, List.length_append, hservers, hdot]
  omega

/-- **What the publishers make fits the buffers.** -/
theorem Ordinary.proper {agg : AggregateDomainStats} (h : Ordinary agg) : Proper agg := by
  have hkeys : ∀ e ∈ entries agg,
      (statKeyText agg.hostname e.1.domainUuid e.2).length ≤ 323 := by
    intro e he
    have hhost := h.hostLength
    have huuid := h.uuidLengths e.1 (mem_domainStats_of_entry he)
    have hkey := statKeyText_length_le agg.hostname e.1.domainUuid e.2
    omega
  refine ⟨h.host, h.uuids, fun e he => (hkeys e he).trans (by decide), ?_⟩
  intro e he
  have hdom := mem_domainStats_of_entry he
  have hvalue : (e.2.valueText e.1).length ≤ 318 := by
    cases e.2 with
    | cpu => exact formatF_length_le (h.cpus e.1 hdom)
    | mem => exact formatF_length_le (h.mems e.1 hdom)
    | diskReadReq => exact (formatLld_length_le _).trans (by decide)
    | diskWriteReq => exact (formatLld_length_le _).trans (by decide)
  have htov := formatF_length_le h.tov
  have hkey : (statKey agg.hostname e.1.domainUuid e.2).length ≤ 323 :=
    (List.length_take_le' ..).trans (hkeys e he)
  have hblank : (bytes " ").length = 1 := by decide
  simp only [whisperLineText, List.length_append, hblank]
  omega

/-! ## The files recorded -/

/-- What a line is recorded for. -/
structure Coordinates where
  host : Bytes
  uuid : Bytes
  metric : Metric
deriving DecidableEq

/-- The lines of a history, each with what it is written from. -/
def historyEntries (aggs : List AggregateDomainStats) :
    List (AggregateDomainStats × DomainStats × Metric) :=
  aggs.flatMap fun agg => (entries agg).map fun e => (agg, e)

/-- What a history is recorded for, line by line. -/
def recorded (aggs : List AggregateDomainStats) : List Coordinates :=
  (historyEntries aggs).map fun x => ⟨x.1.hostname, x.2.1.domainUuid, x.2.2⟩

def Coordinates.path (u : Updater) (r : Coordinates) : Bytes := metricPath u r.host r.uuid r.metric

/-- Names the file system keeps apart. -/
structure Coordinates.Proper (r : Coordinates) : Prop where
  host : HostName r.host
  uuid : PartName r.uuid

theorem mem_recorded {aggs : List AggregateDomainStats} {r : Coordinates} :
    r ∈ recorded aggs ↔ ∃ agg ∈ aggs, agg.hostname = r.host
      ∧ ∃ dom ∈ agg.domainStats, dom.domainUuid = r.uuid := by
  rw [recorded, List.mem_map]
  refine ⟨?_, ?_⟩
  · intro h
    obtain ⟨x, hx, rfl⟩ := h
    obtain ⟨agg, hagg, hx⟩ := List.mem_flatMap.mp hx
    obtain ⟨e, he, rfl⟩ := List.mem_map.mp hx
    exact ⟨agg, hagg, rfl, e.1, mem_domainStats_of_entry he, rfl⟩
  · intro h
    obtain ⟨agg, hagg, hhost, dom, hdom, huuid⟩ := h
    -- every metric of a domain has its line
    refine ⟨(agg, dom, r.metric), List.mem_flatMap.mpr ⟨agg, hagg, List.mem_map.mpr
      ⟨(dom, r.metric), mem_entries hdom r.metric, rfl⟩⟩, ?_⟩
    rw [hhost, huuid]

theorem proper_of_recorded {aggs : List AggregateDomainStats} (h : ∀ agg ∈ aggs, Proper agg)
    {r : Coordinates} (hr : r ∈ recorded aggs) : r.Proper := by
  obtain ⟨agg, hagg, hhost, dom, hdom, huuid⟩ := mem_recorded.mp hr
  exact ⟨hhost ▸ (h agg hagg).host, huuid ▸ (h agg hagg).uuids dom hdom⟩

/-- Proper coordinates have files of their own. -/
theorem Coordinates.path_injective {u : Updater} {r r' : Coordinates} (h : r.Proper)
    (h' : r'.Proper) (heq : r.path u = r'.path u) : r = r' := by
  obtain ⟨hhost, huuid, hmetric⟩ := metricPath_injective h.host.toPlainHost h'.host.toPlainHost
    h.uuid.toPlainPart h'.uuid.toPlainPart heq
  cases r
  cases r'
  cases hhost
  cases huuid
  cases hmetric
  rfl

section

variable {φ : Type}

theorem historyLines_eq (aggs : List AggregateDomainStats) :
    aggs.flatMap getWhisperUpdates
      = (historyEntries aggs).map fun x => whisperLine x.1 x.2.1 x.2.2 := by
  rw [historyEntries, List.map_flatMap]
  refine List.flatMap_congr fun agg _ => ?_
  rw [getWhisperUpdates_eq, List.map_map]
  rfl

/-- The calls of the updater are the lines of a history, in order. -/
def Follows (u : Updater) (xs : List (AggregateDomainStats × DomainStats × Metric))
    (updates : List WhisperUpdate) : Prop :=
  List.Forall₂ (fun x call => Recorded u x.1 x.2 call) xs updates

/-- **A history is recorded line by line**, from its first to where an exception ends it. -/
theorem wp_history_records (u : Updater) (st : Storage φ) {aggs : List AggregateDomainStats}
    (h : ∀ agg ∈ aggs, Plain agg) (hnul : ∀ agg ∈ aggs, NulFree agg) (w : φ) :
    wp (u.processCmds st (aggs.flatMap getWhisperUpdates)) ⟨w, []⟩
      (fun _ s => Follows u (historyEntries aggs) s.updates)
      (fun _ s => ∃ done, done <+: historyEntries aggs ∧ Follows u done s.updates) := by
  rw [Updater.processCmds, historyLines_eq, List.forM_eq_forM, List.forM_map, ← List.forM_eq_forM]
  refine wp_forM (fun done (s : Session φ) => Follows u done s.updates) ?_ .nil
  intro done x todo s hsplit hdone
  have hx : x ∈ historyEntries aggs := hsplit ▸ List.mem_append_right _ (List.mem_cons_self ..)
  obtain ⟨agg, hagg, hx⟩ := List.mem_flatMap.mp hx
  obtain ⟨e, he, rfl⟩ := List.mem_map.mp hx
  have hnext : ∀ {call} {s' : Session φ}, Recorded u agg e call →
      s'.updates = s.updates ++ [call] → Follows u (done ++ [(agg, e)]) s'.updates := by
    intro call s' hcall hs'
    rw [hs']
    exact List.rel_append hdone (.cons hcall .nil)
  refine wp_mono (processCmd_records u (h agg hagg) (hnul agg hagg) he s) ?_ ?_
  · rintro _ s' ⟨call, hcall, hs'⟩
    exact hnext hcall hs'
  · rintro err s' ⟨-, call, hcall, hs' | hs'⟩
    · exact ⟨done, ⟨(agg, e) :: todo, hsplit.symm⟩, hs' ▸ hdone⟩
    · exact ⟨done ++ [(agg, e)], ⟨todo, by rw [hsplit, List.append_assoc]; rfl⟩, hnext hcall hs'⟩

/-- **A history's updates** go to the files of its coordinates, in order. -/
theorem wp_history (u : Updater) (st : Storage φ) {aggs : List AggregateDomainStats}
    (h : ∀ agg ∈ aggs, Proper agg) (w : φ) :
    wp (u.processCmds st (aggs.flatMap getWhisperUpdates)) ⟨w, []⟩
      (fun _ s => s.updates.map (·.path) = (recorded aggs).map (·.path u)) (fun _ _ => True) := by
  refine wp_mono (wp_history_records u st (fun agg hagg => (h agg hagg).plain)
    (fun agg hagg => (h agg hagg).nulFree) w) (fun _ s hs => ?_) fun _ _ _ => trivial
  have hpaths : List.Forall₂ (· = ·) (s.updates.map (·.path)) ((historyEntries aggs).map fun x =>
      metricPath u x.1.hostname x.2.1.domainUuid x.2.2) := by
    refine List.forall₂_map_left_iff.mpr (List.forall₂_map_right_iff.mpr ?_)
    exact hs.flip.imp fun call x hcall => hcall.path
  rw [List.forall₂_eq_eq_eq] at hpaths
  rw [hpaths, recorded, List.map_map]
  rfl

end

/-! ## The files a walk finds -/

/-- The names behind which a file is found, from the updater's directory down. -/
def Coordinates.names (r : Coordinates) : List Bytes :=
  bytes "servers" :: (labels r.host ++ [r.uuid] ++ [wspName r.metric])

/-- What the file system has below a directory are these paths, and nothing else. -/
def Holds (root : Bytes) (disk : Disk) (paths : List Bytes) : Prop :=
  ∀ ns, disk.HasFile ns ↔ ∃ p ∈ paths, components 47 p = components 47 root ++ ns

theorem components_path (u : Updater) {r : Coordinates} (h : r.Proper) :
    components 47 (r.path u) = components 47 u.root ++ r.names := by
  rw [Coordinates.path, ← fileOf_eq_metricPath u r.host h.uuid.toPlainPart, components_fileOf,
    h.uuid.labels_eq]
  rfl

/-- Names joined to a directory one after the other stand below it with slashes between them. -/
theorem foldl_osPathJoin {ns : List Bytes} (hne : ns ≠ []) (h : ∀ n ∈ ns, n ≠ [] ∧ (47 : UInt8) ∉ n)
    (top : Bytes) : ns.foldl osPathJoin top = below top ++ [47].intercalate ns := by
  induction ns generalizing top with
  | nil => exact absurd rfl hne
  | cons n ns ih =>
      obtain ⟨hn, hslash⟩ := h n (List.mem_cons_self ..)
      have hhead : n.head? ≠ some 47 := fun hh => hslash (List.mem_of_mem_head? hh)
      rw [List.foldl_cons, osPathJoin_eq hhead]
      cases ns with
      | nil => simp
      | cons m ms =>
          -- a name ends in no slash, so one is put after it
          have hlast : ¬ (below top ++ n = [] ∨ (below top ++ n).getLast? = some 47) := by
            intro hend
            rcases hend with hnil | hlast
            · exact hn (List.append_eq_nil_iff.mp hnil).2
            · rw [List.getLast?_append_of_ne_nil _ hn] at hlast
              exact hslash (List.mem_of_getLast? hlast)
          rw [ih (List.cons_ne_nil _ _) (fun k hk => h k (List.mem_cons_of_mem _ hk)), below,
            if_neg hlast, List.intercalate_cons_cons]
          simp only [List.append_assoc]

theorem Coordinates.Proper.isName {r : Coordinates} (h : r.Proper) :
    ∀ n ∈ r.names, n ≠ [] ∧ (47 : UInt8) ∉ n := by
  intro n hn
  simp only [Coordinates.names, List.mem_cons, List.mem_append, List.not_mem_nil, or_false] at hn
  rcases hn with rfl | (hn | rfl) | rfl
  · decide
  · exact ⟨ne_nil_of_mem_components hn, not_mem_of_mem_components hn⟩
  · exact ⟨h.uuid.ne_nil, h.uuid.noSlash⟩
  · cases r.metric <;> decide

/-- A recorded file's path is its names below the updater's directory. -/
theorem path_eq (u : Updater) {r : Coordinates} (h : r.Proper) :
    r.path u = r.names.foldl osPathJoin u.root := by
  have hne : r.names ≠ [] := List.cons_ne_nil _ _
  rw [foldl_osPathJoin hne h.isName, Coordinates.names,
    List.intercalate_cons_of_ne_nil (by simp), intercalate_concat (by simp),
    intercalate_concat h.host.labels_ne_nil, h.host.labels_eq, intercalate_splitOn_replace,
    Coordinates.path, metricPath, relPath, bytes_serversSlash, wspName]
  simp only [List.append_assoc, List.cons_append, List.nil_append]

/-- The dashboards' files are those of the tree whose paths end as whisper's do. -/
theorem getWhisperFiles_eq (topdir : Bytes) (disk : Disk) :
    getWhisperFiles topdir disk
      = (disk.files osPathJoin topdir).filter fun f => (bytes ".wsp").isSuffixOf f := by
  rw [getWhisperFiles, osPathWalk, FileTree.files, List.filter_flatMap]
  refine List.flatMap_congr fun d _ => ?_
  show whisperFilesIn d.1 d.2 = _
  rw [whisperFilesIn, List.filter_filterMap]
  refine List.filterMap_congr fun f _ => ?_
  cases f.2.isFile <;> simp [Option.filter]

theorem endsIn_wsp (u : Updater) (r : Coordinates) :
    (bytes ".wsp").isSuffixOf (r.path u) = true :=
  List.isSuffixOf_iff_suffix.mpr (List.suffix_append ..)

/-- **A walk finds exactly the recorded files**, under the paths they were recorded with. -/
theorem mem_getWhisperFiles {u : Updater} {disk : Disk} {rs : List Coordinates}
    (hrs : ∀ r ∈ rs, r.Proper) (hdisk : Holds u.root disk (rs.map (·.path u))) {p : Bytes} :
    p ∈ getWhisperFiles u.root disk ↔ ∃ r ∈ rs, p = r.path u := by
  rw [getWhisperFiles_eq, List.mem_filter, FileTree.mem_files]
  refine ⟨?_, ?_⟩
  · intro h
    obtain ⟨⟨ns, _, hhas, rfl⟩, _⟩ := h
    obtain ⟨q, hq, hns⟩ := (hdisk ns).mp hhas
    obtain ⟨r, hr, rfl⟩ := List.mem_map.mp hq
    rw [components_path u (hrs r hr)] at hns
    exact ⟨r, hr, by rw [path_eq u (hrs r hr), List.append_cancel_left hns]⟩
  · intro h
    obtain ⟨r, hr, rfl⟩ := h
    have hhas : disk.HasFile r.names :=
      (hdisk r.names).mpr ⟨_, List.mem_map.mpr ⟨r, hr, rfl⟩, components_path u (hrs r hr)⟩
    exact ⟨⟨r.names, List.cons_ne_nil _ _, hhas, path_eq u (hrs r hr)⟩, endsIn_wsp u r⟩

/-- **After a history** those are the files of what was recorded. -/
theorem walk_finds_recorded {φ : Type} {u : Updater} {st : Storage φ}
    {aggs : List AggregateDomainStats} (h : ∀ agg ∈ aggs, Proper agg) {w : φ} {s : Session φ}
    (hrun : u.processCmds st (aggs.flatMap getWhisperUpdates) ⟨w, []⟩ = .ok ⟨⟩ s) {disk : Disk}
    (hdisk : Holds u.root disk (s.updates.map (·.path))) (p : Bytes) :
    p ∈ getWhisperFiles u.root disk ↔ ∃ r ∈ recorded aggs, p = r.path u := by
  rw [wp_of_ok (wp_history u st h w) hrun] at hdisk
  exact mem_getWhisperFiles (fun r hr => proper_of_recorded h hr) hdisk

/-! ## A path's last three components -/

/-- The label of a host name that stands right above its instances. -/
def lastLabel (host : Bytes) : Bytes :=
  (host.splitOn 46).getLast (List.splitOn_ne_nil 46 host)

theorem reverse_pathParts (u : Updater) {r : Coordinates} (h : r.Proper) :
    ∃ rest, (pathParts (r.path u)).reverse
      = wspName r.metric :: r.uuid :: lastLabel r.host :: rest := by
  have hhost : (replace 46 47 r.host).splitOn 47 = r.host.splitOn 46 := by
    rw [← intercalate_splitOn_replace]
    refine List.splitOn_intercalate 47 (fun l hl hslash => ?_) (List.splitOn_ne_nil 46 _)
    exact h.host.noSlash (mem_of_mem_splitOn hl hslash).2
  have hname : (47 : UInt8) ∉ wspName r.metric := by cases r.metric <;> decide
  have hpath : r.path u = (below u.root ++ bytes "servers")
      ++ 47 :: (replace 46 47 r.host ++ 47 :: (r.uuid ++ 47 :: wspName r.metric)) := by
    rw [Coordinates.path, metricPath, relPath, bytes_serversSlash, wspName]
    simp only [List.append_assoc, List.cons_append, List.nil_append]
  have hlast := List.dropLast_append_getLast (List.splitOn_ne_nil 46 r.host)
  refine ⟨(r.host.splitOn 46).dropLast.reverse
    ++ (pathParts (below u.root ++ bytes "servers")).reverse, ?_⟩
  rw [pathParts, hpath, List.splitOn_append_cons_self, List.splitOn_append_cons_self,
    List.splitOn_append_cons_self, hhost, List.splitOn_eq_singleton h.uuid.noSlash,
    List.splitOn_eq_singleton hname, ← hlast, lastLabel, pathParts]
  simp

theorem deep_path (u : Updater) {r : Coordinates} (h : r.Proper) : Deep (r.path u) := by
  obtain ⟨rest, hparts⟩ := reverse_pathParts u h
  have hlen := congrArg List.length hparts
  rw [List.length_reverse] at hlen
  rw [Deep, hlen]
  simp

/-- **What each filter is a test of**, on a recorded file. -/
theorem passes_path (u : Updater) {r : Coordinates} (h : r.Proper) (wanted : Bytes) :
    passes 3 (some wanted) (r.path u) = decide (wanted <:+: lastLabel r.host)
      ∧ passes 2 (some wanted) (r.path u) = decide (wanted <:+: r.uuid)
      ∧ passes 1 (some wanted) (r.path u) = decide (wanted <:+: wspName r.metric) := by
  obtain ⟨rest, hparts⟩ := reverse_pathParts u h
  simp [passes, hparts]

/-- A directory checked by the names it has files behind. -/
theorem holds_of_names {root : Bytes} {es : List (Bytes × Disk)} {paths : List Bytes}
    (h : paths.map (components 47)
      = (FileTree.names (.dir es)).map (components 47 root ++ ·)) : Holds root (.dir es) paths := by
  intro ns
  rw [← FileTree.mem_names]
  refine ⟨?_, ?_⟩
  · intro hns
    have hmem : components 47 root ++ ns ∈ paths.map (components 47) := by
      rw [h]
      exact List.mem_map.mpr ⟨ns, hns, rfl⟩
    exact List.mem_map.mp hmem
  · intro hp
    obtain ⟨p, hp, heq⟩ := hp
    have hmem : components 47 p ∈ paths.map (components 47) := List.mem_map.mpr ⟨p, hp, rfl⟩
    rw [h] at hmem
    obtain ⟨ns', hns', heq'⟩ := List.mem_map.mp hmem
    exact List.append_cancel_left (heq'.trans heq) ▸ hns'

/-- The same of what a run leaves. -/
theorem wp_holds {φ : Type} {x : PyM φ PUnit} {s : Session φ} {root : Bytes}
    {es : List (Bytes × Disk)}
    (h : wp x s (fun _ t => (t.updates.map (·.path)).map (components 47)
      = (FileTree.names (.dir es)).map (components 47 root ++ ·)) noThrow) :
    wp x s (fun _ t => Holds root (.dir es) (t.updates.map (·.path))) noThrow :=
  wp_mono h (fun _ _ hnames => holds_of_names hnames) fun _ _ hno => hno

/-- The files of one instance. -/
def instanceDir : Disk :=
  .dir [(bytes "cpu.wsp", .file), (bytes "mem.wsp", .file), (bytes "disk_read_req.wsp", .file),
    (bytes "disk_write_req.wsp", .file)]

end CloudMon.Proof
