import CloudMon.Proof.Names

/-!
# No key leads out of the data directory

A key is split at every dot and joined again with slashes, so the path made from it
has no dot in it but the one of the suffix, and without dots there is no way up. Nor
can it start at the root of the file system: it starts with `servers`, which is why
`os.path.join` puts it behind the data directory.

The file itself is always below `servers`. The directory made for it need not be: the
key `monitor.servers.x` has its file in `servers`, and `servers` is what `mkdirs` is
given.
-/

namespace CloudMon.Proof

open CloudMon Wp Words Paths

/-! ## Paths below `servers` -/

/-- The root, `servers`, and a tail that only leads down. -/
structure Within (root p tail : Bytes) : Prop where
  text : p = below root ++ (bytes "servers" ++ tail)
  /-- `servers` is a whole component. -/
  starts : tail = [] ∨ tail.head? = some 47
  descends : ∀ c ∈ components 47 tail, Descends 46 c
  absolute : p.head? = some 47
  normal : normal 46 (components 47 p)
    = normal 46 (components 47 root) ++ bytes "servers" :: components 47 tail

/-- Normalising takes nothing back of what is behind the root. -/
theorem within_of {root tail : Bytes} (habs : root.head? = some 47)
    (hstarts : tail = [] ∨ tail.head? = some 47)
    (hdescends : ∀ c ∈ components 47 tail, Descends 46 c) :
    Within root (below root ++ (bytes "servers" ++ tail)) tail := by
  have hservers : components 47 (bytes "servers") = [bytes "servers"] :=
    components_of_not_mem (by decide) (by decide)
  have htail : components 47 (bytes "servers" ++ tail) = bytes "servers" :: components 47 tail := by
    rcases hstarts with rfl | hslash
    · rw [List.append_nil, hservers]
      rfl
    · obtain ⟨t, rfl⟩ := List.head?_eq_some_iff.mp hslash
      rw [components_append_cons, hservers, components_cons]
      rfl
  refine ⟨rfl, hstarts, hdescends, ?_, ?_⟩
  · obtain ⟨r, rfl⟩ := List.head?_eq_some_iff.mp habs
    unfold below
    split
    · rfl
    · rfl
  · rw [components_below, htail]
    refine normal_append (fun c hc => ?_) _
    rcases List.mem_cons.mp hc with rfl | hc
    · exact .of_not_mem (by decide) (by decide)
    · exact hdescends c hc

/-! ## From the key to the path -/

/-- The key of an update line starts with the longer of the two prefixes. -/
theorem isPrefixOf_of_command {line key rest : Bytes} (h : command line = some (.update key rest)) :
    (bytes "monitor.servers.").isPrefixOf key = true := by
  obtain ⟨toks, -, -, hservers⟩ := command_eq_update.mp h
  exact hservers

theorem metricOf_eq {key : Bytes} (h : (bytes "monitor.servers.").isPrefixOf key = true) :
    ∃ t, (46 : UInt8) ∉ t ∧ metricOf key = bytes "servers/" ++ t := by
  obtain ⟨t, rfl⟩ := List.isPrefixOf_iff_prefix.mp h
  refine ⟨replace 46 47 t, fun hdot => ?_, ?_⟩
  · obtain ⟨b, -, hb⟩ := List.mem_map.mp hdot
    split at hb
    · exact absurd hb (by decide)
    · contradiction
  · rw [metricOf, serversKey_path]

/-- A text up to its last slash, and what is behind it. -/
theorem exists_dir_name (t : Bytes) :
    ∃ dir name, t = dir ++ name ∧ (47 : UInt8) ∉ name ∧ (dir = [] ∨ ∃ d, dir = d ++ [47]) := by
  refine ⟨t.rdropWhile (· != 47), t.rtakeWhile (· != 47),
    List.rdropWhile_append_rtakeWhile.symm, fun h => ?_, ?_⟩
  · exact absurd (List.mem_rtakeWhile_imp h) (by decide)
  · by_cases hnil : t.rdropWhile (· != 47) = []
    · exact Or.inl hnil
    · have hlast := List.rdropWhile_last_not _ _ hnil
      rw [bne_iff_ne, ne_eq, not_not] at hlast
      exact Or.inr ⟨_, hlast ▸ (List.dropLast_append_getLast hnil).symm⟩

theorem components_dir_name {dir name : Bytes} (hname : (47 : UInt8) ∉ name) (hne : name ≠ [])
    (hdir : dir = [] ∨ ∃ d, dir = d ++ [47]) :
    components 47 (dir ++ name) = components 47 dir ++ [name] := by
  rcases hdir with rfl | ⟨d, rfl⟩
  · exact components_of_not_mem hne hname
  · rw [List.append_assoc, List.singleton_append, components_append_cons, components_concat,
      components_of_not_mem hne hname]

/-- The components of a text without dots, and with the suffix put behind it. -/
theorem components_wsp {t : Bytes} (hdot : (46 : UInt8) ∉ t) :
    components 47 (t ++ bytes ".wsp") ≠ []
      ∧ ∀ c ∈ components 47 (t ++ bytes ".wsp"), Descends 46 c := by
  obtain ⟨dir, name, rfl, hname, hdir⟩ := exists_dir_name t
  have hfile : (47 : UInt8) ∉ name ++ bytes ".wsp" := by
    intro h
    rcases List.mem_append.mp h with h | h
    · exact hname h
    · exact absurd h (by decide)
  rw [List.append_assoc, components_dir_name hfile (by simp [bytes]) hdir]
  refine ⟨by simp, fun c hc => ?_⟩
  rcases List.mem_append.mp hc with hc | hc
  · exact .of_not_mem (fun h => hdot (List.mem_append_left _ (mem_of_mem_component hc h)))
      (ne_nil_of_mem_components hc)
  · -- the last component has the letters of the suffix in it
    rw [List.mem_singleton.mp hc]
    exact .of_mem (x := 119) (List.mem_append_right _ (by decide)) (by decide)

/-- **The file** is below `servers`. -/
theorem within_file {root : Bytes} (habs : root.head? = some 47) {t : Bytes}
    (hdot : (46 : UInt8) ∉ t) :
    ∃ tail, Within root (below root ++ (bytes "servers/" ++ t) ++ bytes ".wsp") tail
      ∧ components 47 tail ≠ [] := by
  have htext : below root ++ (bytes "servers/" ++ t) ++ bytes ".wsp"
      = below root ++ (bytes "servers" ++ 47 :: (t ++ bytes ".wsp")) := by
    rw [show bytes "servers/" = bytes "servers" ++ [47] by decide]
    simp only [List.append_assoc, List.cons_append, List.nil_append]
  obtain ⟨hne, hdescends⟩ := components_wsp hdot
  rw [← components_cons] at hne hdescends
  exact ⟨_, htext ▸ within_of habs (Or.inr rfl) hdescends, hne⟩

theorem osPathDirname_eq {dir name : Bytes} (hname : (47 : UInt8) ∉ name)
    (hdir : ∃ d, dir = d ++ [47]) {b : UInt8} (hb : b ∈ dir) (hne : b ≠ 47) :
    osPathDirname (dir ++ name) = dir.rdropWhile (· == 47) := by
  have hhead : (dir ++ name).rdropWhile (· != 47) = dir := by
    obtain ⟨d, rfl⟩ := hdir
    rw [List.rdropWhile, List.reverse_append, List.dropWhile_append_of_pos fun x hx => ?_]
    · simp
    · rw [bne_iff_ne]
      intro hx47
      exact hname (hx47 ▸ List.mem_reverse.mp hx)
  have hall : dir.all (· == 47) = false := by
    rw [List.all_eq_false]
    exact ⟨b, hb, by simpa using hne⟩
  unfold osPathDirname
  change (let head := (dir ++ name).rdropWhile (· != 47)
    if head.all (· == 47) then head else head.rdropWhile (· == 47)) = _
  simp only [hhead, hall, Bool.false_eq_true, if_false]

theorem rdropWhile_append_of_last {α : Type} {p : α → Bool} {l : List α} (h : l.rdropWhile p = l)
    (r : List α) : (l ++ r).rdropWhile p = l ++ r.rdropWhile p := by
  induction r using List.reverseRecOn with
  | nil => rw [List.append_nil, h, List.rdropWhile_nil, List.append_nil]
  | append_singleton r x ih =>
      rw [← List.append_assoc, List.rdropWhile_concat, List.rdropWhile_concat]
      split
      · exact ih
      · rw [List.append_assoc]

/-- **The directory made for it** is below `servers`, or is `servers`. -/
theorem within_dir {root : Bytes} (habs : root.head? = some 47) {t : Bytes}
    (hdot : (46 : UInt8) ∉ t) :
    ∃ tail, Within root
      (osPathDirname (below root ++ (bytes "servers/" ++ t) ++ bytes ".wsp")) tail := by
  obtain ⟨dir, name, rfl, hname, hdir⟩ := exists_dir_name t
  have hfile : (47 : UInt8) ∉ name ++ bytes ".wsp" := by
    intro h
    rcases List.mem_append.mp h with h | h
    · exact hname h
    · exact absurd h (by decide)
  have hend : ∃ d, below root ++ (bytes "servers/" ++ dir) = d ++ [47] := by
    rcases hdir with rfl | ⟨d, rfl⟩
    · exact ⟨below root ++ bytes "servers",
        by rw [List.append_nil, bytes_serversSlash, List.append_assoc]⟩
    · exact ⟨below root ++ (bytes "servers/" ++ d), by simp only [List.append_assoc]⟩
  have hletter : (115 : UInt8) ∈ below root ++ (bytes "servers/" ++ dir) :=
    List.mem_append_right _ (List.mem_append_left _ (by decide))
  have hpath : below root ++ (bytes "servers/" ++ (dir ++ name)) ++ bytes ".wsp"
      = (below root ++ (bytes "servers/" ++ dir)) ++ (name ++ bytes ".wsp") := by
    simp only [List.append_assoc]
  rw [hpath, osPathDirname_eq hfile hend hletter (by decide)]
  -- the slashes taken off were all behind `servers`
  have hkeep : (below root ++ bytes "servers").rdropWhile (· == 47)
      = below root ++ bytes "servers" := by
    rw [show bytes "servers" = bytes "server" ++ [115] by decide, ← List.append_assoc,
      List.rdropWhile_concat_neg _ _ _ (by decide)]
  have htext : (below root ++ (bytes "servers/" ++ dir)).rdropWhile (· == 47)
      = below root ++ (bytes "servers" ++ (47 :: dir).rdropWhile (· == 47)) :=
    calc (below root ++ (bytes "servers/" ++ dir)).rdropWhile (· == 47)
        = (below root ++ bytes "servers" ++ 47 :: dir).rdropWhile (· == 47) := by
          rw [bytes_serversSlash]
          simp only [List.append_assoc, List.singleton_append]
      _ = below root ++ bytes "servers" ++ (47 :: dir).rdropWhile (· == 47) :=
          rdropWhile_append_of_last hkeep _
      _ = below root ++ (bytes "servers" ++ (47 :: dir).rdropWhile (· == 47)) :=
          List.append_assoc ..
  refine ⟨_, htext ▸ within_of habs ?_ fun c hc => ?_⟩
  · have hpre : (47 :: dir).rdropWhile (· == 47) <+: 47 :: dir :=
      List.rdropWhile_prefix _ (47 :: dir)
    cases hcut : (47 :: dir).rdropWhile (· == 47) with
    | nil => exact Or.inl rfl
    | cons x xs =>
        rw [hcut, List.cons_prefix_cons] at hpre
        exact Or.inr (congrArg some hpre.1)
  · rw [components_rdropWhile, components_cons] at hc
    exact .of_not_mem (fun h => hdot (List.mem_append_left _ (mem_of_mem_component hc h)))
      (ne_nil_of_mem_components hc)

/-! ## Every path handed on -/

/-- A path given to the file system or to whisper. -/
inductive Handed where
  | pathExists (p : Bytes)
  | makedirs (p : Bytes)
  | create (p : Bytes)
  | update (p : Bytes)
deriving DecidableEq

def Handed.path : Handed → Bytes
  | .pathExists p | .makedirs p | .create p | .update p => p

variable {φ : Type}

/-- The same storage, with a note of every path it is given. -/
def noting (st : Storage φ) : Storage (φ × List Handed) where
  pathExists p w := ((st.pathExists p w.1).1, (st.pathExists p w.1).2, w.2 ++ [.pathExists p])
  makedirs p w := ((st.makedirs p w.1).1, (st.makedirs p w.1).2, w.2 ++ [.makedirs p])
  create p a w := ((st.create p a w.1).1, (st.create p a w.1).2, w.2 ++ [.create p])
  update c w := ((st.update c w.1).1, (st.update c w.1).2, w.2 ++ [.update c.path])

/-- A path that leads below `servers`. -/
def StrictlyBelow (root p : Bytes) : Prop := ∃ tail, Within root p tail ∧ components 47 tail ≠ []

/-- Where a path may lead: a file below `servers`, a directory to `servers` or below. -/
def Confined (root : Bytes) : Handed → Prop
  | .makedirs p => ∃ tail, Within root p tail
  | .pathExists p | .create p | .update p => StrictlyBelow root p

/-- Nothing that was handed on leads elsewhere. -/
def AllConfined (root : Bytes) (s : Session (φ × List Handed)) : Prop :=
  ∀ h ∈ s.world.2, Confined root h

theorem allConfined_call {α : Type} {root : Bytes} {f : φ × List Handed → α × φ × List Handed}
    {h : Handed} (hf : ∀ w, (f w).2.2 = w.2 ++ [h]) (hh : Confined root h) :
    Preserves (AllConfined root) (call f) := by
  intro s hs
  rw [wp_call]
  intro h' hh'
  rw [hf] at hh'
  rcases List.mem_append.mp hh' with hh' | hh'
  · exact hs h' hh'
  · exact List.mem_singleton.mp hh' ▸ hh

theorem allConfined_whisperCall {root : Bytes} {f : φ × List Handed → Bool × φ × List Handed}
    {h : Handed} (hf : ∀ w, (f w).2.2 = w.2 ++ [h]) (hh : Confined root h) :
    Preserves (AllConfined root) (whisperCall f) :=
  (allConfined_call hf hh).bind fun _ => .ite (.throw _) (.pure _)

theorem allConfined_emit {root : Bytes} (e : Effect) :
    Preserves (AllConfined (φ := φ) root) (emit e) := fun _ hs => hs

theorem allConfined_item {root : Bytes} (xs : List Bytes) (i : Nat) :
    Preserves (AllConfined (φ := φ) root) (item xs i) := by
  unfold item
  split
  · exact .pure _
  · exact .throw _

theorem allConfined_float {root : Bytes} (s : Bytes) :
    Preserves (AllConfined (φ := φ) root) (float s) := by
  unfold float
  split
  · exact .pure _
  · exact .throw _

theorem allConfined_createDatabase {root : Bytes} (habs : root.head? = some 47) (st : Storage φ)
    {t : Bytes} (hdot : (46 : UInt8) ∉ t) :
    Preserves (AllConfined root) (Updater.createDatabase (noting st)
      (below root ++ (bytes "servers/" ++ t) ++ bytes ".wsp")) := by
  have hdir : Confined root (.makedirs
      (osPathDirname (below root ++ (bytes "servers/" ++ t) ++ bytes ".wsp"))) :=
    within_dir habs hdot
  refine .bind (.bind (allConfined_call (fun _ => rfl) hdir) fun errno => ?_) fun _ =>
    .bind (allConfined_emit _) fun _ => allConfined_whisperCall (fun _ => rfl)
      (h := .create _) (within_file habs hdot)
  cases errno with
  | none => exact .pure _
  | some errno => exact .ite (.throw _) (.pure _)

theorem allConfined_update (u : Updater) (habs : u.root.head? = some 47) (st : Storage φ)
    {t : Bytes} (hdot : (46 : UInt8) ∉ t) (dataline : Bytes) :
    Preserves (AllConfined u.root) (u.update (noting st) (bytes "servers/" ++ t) dataline) := by
  unfold Updater.update
  simp only [osPathJoin_servers]
  have hfile := within_file habs hdot
  refine .bind (.ite (.throw _) (allConfined_call (h := .pathExists _) (fun _ => rfl) hfile))
    fun _ => ?_
  refine .ite (.bind (allConfined_createDatabase habs st hdot) fun _ => ?_) ?_
  all_goals
    exact .bind (allConfined_item _ _) fun _ => .bind (allConfined_float _) fun _ =>
      .bind (allConfined_item _ _) fun _ => .bind (allConfined_float _) fun _ =>
        .bind (allConfined_emit _) fun _ =>
          allConfined_whisperCall (h := .update _) (fun _ => rfl) hfile

/--
**No line leads out of the data directory**, whatever storage answers: every file
looked for, made or written is strictly below `servers`, and every directory made is
`servers` or below it. The second half also covers a key with a NUL in it, which
`os.path.exists` refuses.
-/
theorem paths_confined (u : Updater) (habs : u.root.head? = some 47) (st : Storage φ)
    (line : Bytes) (w : φ) :
    wp (u.processCmd (noting st) line) ⟨(w, []), []⟩ (fun _ s => AllConfined u.root s)
        (fun _ s => AllConfined u.root s)
      ∧ ∀ key rest, command line = some (.update key rest) →
        Confined u.root (.pathExists (fileOf u key)) := by
  have hnone : AllConfined u.root (⟨(w, []), []⟩ : Session (φ × List Handed)) := nofun
  refine ⟨?_, fun key rest hcmd => ?_⟩
  · rw [Updater.processCmd_eq]
    cases hcmd : command line with
    | none => exact hnone
    | some cmd =>
        cases cmd with
        | ignored => exact hnone
        | terminate whichInstance => exact hnone
        | update key rest =>
            obtain ⟨t, hdot, hmetric⟩ := metricOf_eq (isPrefixOf_of_command hcmd)
            show wp (u.update (noting st) (metricOf key) rest) _ _ _
            rw [hmetric]
            exact allConfined_update u habs st hdot rest _ hnone
  · obtain ⟨t, hdot, hmetric⟩ := metricOf_eq (isPrefixOf_of_command hcmd)
    rw [fileOf, hmetric, osPathJoin_servers]
    exact within_file habs hdot

/-- A key that tries to lead up. -/
theorem paths_confined_dots :
    wp (dataUpdater.processCmd (noting emptyDisk) (bytes "monitor.servers../../etc.passwd 1 2"))
        ⟨((), []), []⟩ (fun _ s => AllConfined (bytes "/data") s)
        (fun _ s => AllConfined (bytes "/data") s)
      ∧ ∀ key rest,
        command (bytes "monitor.servers../../etc.passwd 1 2") = some (.update key rest) →
        Confined (bytes "/data") (.pathExists (fileOf dataUpdater key)) :=
  paths_confined dataUpdater (by decide) emptyDisk (bytes "monitor.servers../../etc.passwd 1 2") ()

/-- The directory of a key with a single component is `servers`, which is not below itself. -/
theorem mkdirs_not_below :
    wp (dataUpdater.processCmd (noting emptyDisk) (bytes "monitor.servers.x 1 2")) ⟨((), []), []⟩
      (fun _ s => ¬ ∀ h ∈ s.world.2, StrictlyBelow (bytes "/data") h.path) (fun _ _ => False) := by
  have hlog : wp (dataUpdater.processCmd (noting emptyDisk) (bytes "monitor.servers.x 1 2"))
      ⟨((), []), []⟩ (fun _ s => Handed.makedirs (bytes "/data/servers") ∈ s.world.2)
      (fun _ _ => False) := by decide +kernel
  refine wp_mono hlog (fun _ s hs hall => ?_) fun _ _ h => h
  obtain ⟨tail, hwithin, hne⟩ := hall _ hs
  have htext : bytes "/data/servers" = bytes "/data/servers" ++ tail := hwithin.text
  rw [List.self_eq_append_right] at htext
  subst htext
  exact hne rfl

end CloudMon.Proof
