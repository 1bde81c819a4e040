import CloudMon.Collector.Stdin
import CloudMon.Lib.Paths
import CloudMon.Proof.Metrics

/-!
# Names and the files they have

The key of a metric becomes a path by turning its dots into slashes, so a host name
with dots in it is several directories deep. What the file system makes of the path
is its components: those of the data directory, `servers`, the labels of the host
name, those of the uuid, and the file.

A host name is what its name service would take: labels between single dots. A uuid
is one label. Between such names files tell everything apart; between arbitrary
strings they do not, because nothing in a path says where the host ends.
-/

namespace CloudMon.Proof

open CloudMon Words Paths

/-- The directories a name is turned into. -/
def labels (name : Bytes) : List Bytes := components 47 (replace 46 47 name)

/-- Labels between single dots. -/
structure HostName (host : Bytes) : Prop extends PlainHost host where
  noNul : (0 : UInt8) ∉ host
  label_ne_nil : ∀ l ∈ host.splitOn 46, l ≠ []

/-- One label. -/
structure PartName (part : Bytes) : Prop extends PlainPart part where
  noNul : (0 : UInt8) ∉ part

theorem mem_of_mem_splitOn {s l : Bytes} {sep b : UInt8} (h : l ∈ s.splitOn sep) (hb : b ∈ l) :
    b ≠ sep ∧ b ∈ s := by
  rw [List.splitOn_eq_splitOnP] at h
  obtain ⟨hsep, hs⟩ := mem_splitOnP h b hb
  exact ⟨by simpa using hsep, hs⟩

theorem labels_eq_splitOn {name : Bytes} (hslash : (47 : UInt8) ∉ name)
    (hne : ∀ l ∈ name.splitOn 46, l ≠ []) : labels name = name.splitOn 46 := by
  rw [labels, ← intercalate_splitOn_replace, components]
  refine @words_intercalate _ (· == 47) _ (beq_self_eq_true _) _ fun l hl => ⟨hne l hl, ?_⟩
  intro b hb
  rw [beq_eq_false_iff_ne]
  intro hb47
  exact hslash (hb47 ▸ (mem_of_mem_splitOn hl hb).2)

theorem HostName.labels_eq {host : Bytes} (h : HostName host) : labels host = host.splitOn 46 :=
  labels_eq_splitOn h.noSlash h.label_ne_nil

theorem HostName.labels_ne_nil {host : Bytes} (h : HostName host) : labels host ≠ [] := by
  rw [h.labels_eq]
  exact List.splitOn_ne_nil _ _

/-- A host name is put together again from its labels. -/
theorem HostName.intercalate_labels {host : Bytes} (h : HostName host) :
    [46].intercalate (labels host) = host := by
  rw [h.labels_eq, List.intercalate_splitOn]

theorem PartName.labels_eq {part : Bytes} (h : PartName part) : labels part = [part] := by
  rw [labels, replace_of_not_mem h.noDot, components_of_not_mem h.ne_nil h.noSlash]

/-- What a label of any name is made of. -/
theorem mem_label {name l : Bytes} (h : l ∈ labels name) {b : UInt8} (hb : b ∈ l) :
    b ≠ 47 ∧ b ≠ 46 ∧ b ∈ name := by
  have hslash : b ≠ 47 := fun hb47 => not_mem_of_mem_components h (hb47 ▸ hb)
  have hreplace := mem_of_mem_component h hb
  refine ⟨hslash, ?_, mem_of_mem_replace hreplace hslash⟩
  intro hdot
  subst hdot
  obtain ⟨c, -, hc⟩ := List.mem_map.mp hreplace
  split at hc
  · exact absurd hc (by decide)
  · contradiction

/-- The labels of a name without white space or NULs are proper ones. -/
theorem partName_label {name l : Bytes} (hspace : ∀ b ∈ name, isSpace b = false)
    (hnul : (0 : UInt8) ∉ name) (h : l ∈ labels name) : PartName l where
  ne_nil := ne_nil_of_mem_components h
  noSpace b hb := hspace b (mem_label h hb).2.2
  noDot hdot := (mem_label h hdot).2.1 rfl
  noSlash := not_mem_of_mem_components h
  noNul h0 := hnul (mem_label h h0).2.2

theorem mem_intercalate {α : Type} {sep x : α} : ∀ {ls : List (List α)},
    x ∈ [sep].intercalate ls → x = sep ∨ ∃ l ∈ ls, x ∈ l
  | [], h => by simp at h
  | [l], h => by
      rw [List.intercalate_singleton] at h
      exact Or.inr ⟨l, List.mem_singleton_self l, h⟩
  | l :: m :: ls, h => by
      rw [List.intercalate_cons_cons, List.mem_append, List.mem_append, List.mem_singleton] at h
      rcases h with (h | h) | h
      · exact Or.inr ⟨l, List.mem_cons_self .., h⟩
      · exact Or.inl h
      · rcases mem_intercalate h with h | ⟨k, hk, hx⟩
        · exact Or.inl h
        · exact Or.inr ⟨k, List.mem_cons_of_mem _ hk, hx⟩

/-- Labels with dots between them are a host name. -/
theorem hostName_intercalate {ls : List Bytes} (hne : ls ≠ []) (h : ∀ l ∈ ls, PartName l) :
    HostName ([46].intercalate ls) ∧ labels ([46].intercalate ls) = ls := by
  have hsplit : ([46].intercalate ls).splitOn 46 = ls :=
    List.splitOn_intercalate 46 (fun l hl => (h l hl).noDot) hne
  -- whatever holds of a dot and of every label
  have hmem : ∀ P : UInt8 → Prop, P 46 → (∀ l ∈ ls, ∀ b ∈ l, P b) →
      ∀ b ∈ [46].intercalate ls, P b := by
    intro P hdot hP b hb
    rcases mem_intercalate hb with rfl | ⟨l, hl, hb⟩
    · exact hdot
    · exact hP l hl b hb
  have hslash : (47 : UInt8) ∉ [46].intercalate ls := fun hb =>
    hmem (· ≠ 47) (by decide) (fun l hl b hb hb47 => (h l hl).noSlash (hb47 ▸ hb)) 47 hb rfl
  have hlabel : ∀ l ∈ ([46].intercalate ls).splitOn 46, l ≠ [] := by
    rw [hsplit]
    exact fun l hl => (h l hl).ne_nil
  have hhost : HostName ([46].intercalate ls) := {
    ne_nil := by
      intro hnil
      obtain ⟨l, ls, rfl⟩ := List.exists_cons_of_ne_nil hne
      rw [hnil, List.splitOn_nil] at hsplit
      exact (h l (List.mem_cons_self ..)).ne_nil (List.cons.inj hsplit).1.symm
    noSpace := hmem (isSpace · = false) (by decide) fun l hl => (h l hl).noSpace
    noSlash := hslash
    noNul := fun hb =>
      hmem (· ≠ 0) (by decide) (fun l hl b hb hb0 => (h l hl).noNul (hb0 ▸ hb)) 0 hb rfl
    label_ne_nil := hlabel }
  exact ⟨hhost, by rw [hhost.labels_eq, hsplit]⟩

/-! ## Files -/

theorem components_below (root p : Bytes) :
    components 47 (below root ++ p) = components 47 root ++ components 47 p := by
  unfold below
  split
  · rename_i h
    rcases h with rfl | h
    · rfl
    · -- the root ends in a slash already
      obtain ⟨r, hr⟩ := List.getLast?_eq_some_iff.mp h
      subst hr
      rw [List.append_assoc, List.singleton_append, components_append_cons, components_concat]
  · rw [List.append_assoc, List.singleton_append, components_append_cons]

/-- The file of a key. -/
def fileOf (u : Updater) (key : Bytes) : Bytes := osPathJoin u.root (metricOf key) ++ bytes ".wsp"

/-- The same place in the file system. -/
def SameFile (p q : Bytes) : Prop := components 47 p = components 47 q

theorem fileOf_keyOf (u : Updater) (host uuid : Bytes) (metric : Metric) :
    fileOf u (keyOf host uuid metric) = below u.root ++ (bytes "servers/"
      ++ (replace 46 47 host
        ++ 47 :: (replace 46 47 uuid ++ 47 :: (metric.name ++ bytes ".wsp")))) := by
  have hmetric : metricOf (keyOf host uuid metric)
      = bytes "servers/"
        ++ (replace 46 47 host ++ 47 :: (replace 46 47 uuid ++ 47 :: metric.name)) := by
    rw [metricOf, keyOf_eq, serversKey_path]
    simp only [replace_append, replace_cons_self, replace_of_not_mem (plainPart_name metric).noDot]
  rw [fileOf, hmetric, osPathJoin_servers]
  simp only [List.append_assoc, List.cons_append]

/-- With a proper uuid the path is the one of the agreement between writer and updater. -/
theorem fileOf_eq_metricPath (u : Updater) (host : Bytes) {uuid : Bytes} (huuid : PlainPart uuid)
    (metric : Metric) : fileOf u (keyOf host uuid metric) = metricPath u host uuid metric := by
  rw [fileOf_keyOf, replace_of_not_mem huuid.noDot, metricPath, relPath]
  simp only [List.append_assoc, List.cons_append]

/-- The last component of a file. -/
def wspName (metric : Metric) : Bytes := metric.name ++ bytes ".wsp"

theorem wspName_injective {metric metric' : Metric} (h : wspName metric = wspName metric') :
    metric = metric' := name_injective (List.append_cancel_right h)

/-- **Where a metric's file is.** -/
theorem components_fileOf (u : Updater) (host uuid : Bytes) (metric : Metric) :
    components 47 (fileOf u (keyOf host uuid metric))
      = components 47 u.root
        ++ bytes "servers" :: (labels host ++ labels uuid ++ [wspName metric]) := by
  have hname : components 47 (metric.name ++ bytes ".wsp") = [wspName metric] := by
    refine components_of_not_mem ?_ ?_
    · cases metric <;> decide
    · cases metric <;> decide
  have hdir : components 47 (bytes "servers") = [bytes "servers"] :=
    components_of_not_mem (by decide) (by decide)
  rw [fileOf_keyOf, components_below, bytes_serversSlash, List.append_assoc,
    List.singleton_append, components_append_cons, components_append_cons,
    components_append_cons, hname, hdir, List.append_assoc]
  rfl

/-- Names share a file when they are the same labels, wherever the host ends. -/
theorem sameFile_iff (u : Updater) {host uuid host' uuid' : Bytes} {metric metric' : Metric} :
    SameFile (fileOf u (keyOf host uuid metric)) (fileOf u (keyOf host' uuid' metric'))
      ↔ labels host ++ labels uuid = labels host' ++ labels uuid' ∧ metric = metric' := by
  rw [SameFile, components_fileOf, components_fileOf]
  refine ⟨fun h => ?_, fun h => by rw [h.1, h.2]⟩
  obtain ⟨hlabels, hname⟩ := List.append_inj' (List.cons.inj (List.append_cancel_left h)).2 rfl
  exact ⟨hlabels, wspName_injective (List.cons.inj hname).1⟩

/-- **Proper names that share a file are the same.** -/
theorem names_of_sameFile {u : Updater} {host uuid host' uuid' : Bytes} {metric metric' : Metric}
    (hhost : HostName host) (huuid : PartName uuid) (hhost' : HostName host')
    (huuid' : PartName uuid')
    (h : SameFile (fileOf u (keyOf host uuid metric)) (fileOf u (keyOf host' uuid' metric'))) :
    host = host' ∧ uuid = uuid' ∧ metric = metric' := by
  obtain ⟨hlabels, hmetric⟩ := (sameFile_iff u).mp h
  rw [huuid.labels_eq, huuid'.labels_eq] at hlabels
  obtain ⟨hl, hu⟩ := List.append_inj' hlabels rfl
  refine ⟨?_, (List.cons.inj hu).1, hmetric⟩
  rw [← hhost.intercalate_labels, hl, hhost'.intercalate_labels]

end CloudMon.Proof
