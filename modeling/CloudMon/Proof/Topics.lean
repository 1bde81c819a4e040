import CloudMon.Collector.Topics
import CloudMon.Lib.Wp
import Mathlib.Data.List.DropRight
import Mathlib.Data.List.Infix

/-!
# mkdir -p

The paths a key is cut into are its prefixes up to each dot, so each is the one before
it, one name and a slash; the name is empty where two dots meet. `createDirectory` is
therefore always asked for a name in a directory that the turn before has made sure of.

Once a directory has been made the next name is looked for in an empty one, and nothing
can be in the way any more. So a turn fails in the state the call found or not at all.
-/

namespace CloudMon.Proof

open Directories Wp

/-! ## The paths -/

theorem pubsubTopicToPath_concat (key : Bytes) (b : UInt8) :
    pubsubTopicToPath (key ++ [b]) = pubsubTopicToPath key ++ [if b = 46 then 47 else b] :=
  Words.replace_append key [b]

theorem addCharacter_foldl (key : Bytes) :
    key.foldl addCharacter ([], []) = (pubsubTopicToPathComponents key, pubsubTopicToPath key) := by
  refine Prod.ext rfl ?_
  induction key using List.reverseRecOn with
  | nil => rfl
  | append_singleton key b ih =>
      have ih : (key.foldl addCharacter ([], [])).2 = pubsubTopicToPath key := ih
      rw [List.foldl_append, List.foldl_cons, List.foldl_nil, pubsubTopicToPath_concat,
        addCharacter, ih]
      split <;> rfl

/-- One more character is one more path if it is a dot. -/
theorem components_concat (key : Bytes) (b : UInt8) :
    pubsubTopicToPathComponents (key ++ [b]) = pubsubTopicToPathComponents key
      ++ if b = 46 then [pubsubTopicToPath (key ++ [b])] else [] := by
  rw [pubsubTopicToPathComponents, List.foldl_append, addCharacter_foldl, pubsubTopicToPath_concat]
  rw [List.foldl_cons, List.foldl_nil, addCharacter]
  split
  · rfl
  · exact (List.append_nil _).symm

theorem components_length (key : Bytes) :
    (pubsubTopicToPathComponents key).length = key.count 46 := by
  induction key using List.reverseRecOn with
  | nil => rfl
  | append_singleton key b ih =>
      rw [components_concat, List.length_append, ih, List.count_append]
      split
      · rename_i hb
        rw [hb]
        rfl
      · rename_i hb
        rw [List.count_singleton, if_neg (by simpa using hb)]
        rfl

/-- **The `k`-th path** is made of the prefix that ends in the `k`-th dot. -/
theorem components_getElem {key pre : Bytes} {k : Nat} (hpre : pre <+: key)
    (hlast : pre.getLast? = some 46) (hcount : pre.count 46 = k + 1) :
    (pubsubTopicToPathComponents key)[k]? = some (pubsubTopicToPath pre) := by
  induction key using List.reverseRecOn with
  | nil =>
      rw [List.prefix_nil.mp hpre] at hlast
      cases hlast
  | append_singleton key b ih =>
      rw [components_concat]
      rcases List.prefix_concat_iff.mp hpre with rfl | hpre
      · rw [List.getLast?_concat] at hlast
        obtain rfl := Option.some.inj hlast
        rw [List.count_append, List.count_singleton_self, Nat.add_right_cancel_iff] at hcount
        rw [if_pos rfl, ← hcount, ← components_length, List.getElem?_concat_length]
      · have hk := ih hpre
        rw [List.getElem?_append_left (List.getElem?_eq_some_iff.mp hk).1, hk]

theorem prefix_of_mem_components {key p : Bytes} (h : p ∈ pubsubTopicToPathComponents key) :
    p <+: pubsubTopicToPath key := by
  induction key using List.reverseRecOn with
  | nil => exact absurd h List.not_mem_nil
  | append_singleton key b ih =>
      rw [components_concat] at h
      rcases List.mem_append.mp h with h | h
      · rw [pubsubTopicToPath_concat]
        exact (ih h).trans (List.prefix_append _ _)
      · split at h
        · rw [List.mem_singleton.mp h]
        · exact absurd h List.not_mem_nil

theorem components_pairwise (key : Bytes) :
    (pubsubTopicToPathComponents key).Pairwise fun p q => p <+: q ∧ p ≠ q := by
  induction key using List.reverseRecOn with
  | nil => exact .nil
  | append_singleton key b ih =>
      rw [components_concat]
      split
      · refine List.pairwise_append.mpr ⟨ih, List.pairwise_singleton _ _, fun p hp q hq => ?_⟩
        rw [List.mem_singleton.mp hq, pubsubTopicToPath_concat]
        have hpre := prefix_of_mem_components hp
        refine ⟨hpre.trans (List.prefix_append _ _), fun heq => ?_⟩
        have hlen := hpre.length_le
        rw [heq, List.length_append, List.length_singleton] at hlen
        omega
      · rw [List.append_nil]
        exact ih

/-- The last of some paths, or the place all of them begin at. -/
def lead (paths : List Bytes) : Bytes := paths.getLast?.getD []

/-- **The last path** is the whole one cut after its last slash. -/
theorem lead_components {key : Bytes} (h : (47 : UInt8) ∉ key) :
    lead (pubsubTopicToPathComponents key) = (pubsubTopicToPath key).rdropWhile (· != 47) := by
  induction key using List.reverseRecOn with
  | nil => rfl
  | append_singleton key b ih =>
      rw [List.mem_append, not_or, List.mem_singleton] at h
      rw [components_concat, pubsubTopicToPath_concat]
      split
      · rw [List.rdropWhile_concat_neg _ _ _ (by decide), lead, List.getLast?_concat]
        rfl
      · rw [List.append_nil, ih h.1, List.rdropWhile_concat_pos]
        exact bne_iff_ne.mpr fun hb => h.2 hb.symm

theorem nul_of_mem_components {key p : Bytes} (h : (0 : UInt8) ∉ key)
    (hp : p ∈ pubsubTopicToPathComponents key) : (0 : UInt8) ∉ p := by
  intro hmem
  exact h (Words.mem_of_mem_replace ((prefix_of_mem_components hp).subset hmem) (by decide))

/-! ## Each below the one before -/

/-- `p` is `a`, a name and a slash; the name may be empty. -/
structure Below (a p : Bytes) : Prop where
  slash : a ≠ [] → ∃ r, a = r ++ [47]
  name : ∃ w, p = a ++ (w ++ [47]) ∧ (47 : UInt8) ∉ w ∧ (46 : UInt8) ∉ w

theorem slash_of_mem_components {key p : Bytes} (h : p ∈ pubsubTopicToPathComponents key) :
    ∃ r, p = r ++ [47] := by
  induction key using List.reverseRecOn with
  | nil => exact absurd h List.not_mem_nil
  | append_singleton key b ih =>
      rw [components_concat] at h
      rcases List.mem_append.mp h with h | h
      · exact ih h
      · split at h
        · rename_i hb
          rw [List.mem_singleton.mp h, pubsubTopicToPath_concat, if_pos hb]
          exact ⟨_, rfl⟩
        · exact absurd h List.not_mem_nil

theorem lead_eq_or_mem (paths : List Bytes) : lead paths = [] ∨ lead paths ∈ paths := by
  unfold lead
  cases h : paths.getLast? with
  | none => exact Or.inl rfl
  | some p => exact Or.inr (List.mem_of_getLast? h)

/-- What is new in a key is the name after its last dot. -/
theorem below_lead {key : Bytes} (h : (47 : UInt8) ∉ key) :
    Below (lead (pubsubTopicToPathComponents key)) (pubsubTopicToPath key ++ [47]) := by
  refine ⟨fun hne => ?_, (pubsubTopicToPath key).rtakeWhile (· != 47), ?_, ?_, ?_⟩
  · exact slash_of_mem_components ((lead_eq_or_mem _).resolve_left hne)
  · rw [lead_components h, ← List.append_assoc, List.rdropWhile_append_rtakeWhile]
  · intro hmem
    exact absurd (List.mem_rtakeWhile_imp hmem) (by decide)
  · intro hmem
    have hmem := (List.rtakeWhile_suffix _ _).subset hmem
    obtain ⟨b, -, hb⟩ := List.mem_map.mp hmem
    split at hb
    · exact absurd hb (by decide)
    · contradiction

theorem below_components {key : Bytes} (h : (47 : UInt8) ∉ key) {done todo : List Bytes} {p : Bytes}
    (hsplit : pubsubTopicToPathComponents key = done ++ p :: todo) : Below (lead done) p := by
  induction key using List.reverseRecOn generalizing todo with
  | nil => exact absurd (show [] = _ from hsplit) (by simp)
  | append_singleton key b ih =>
      rw [List.mem_append, not_or] at h
      rw [components_concat] at hsplit
      split at hsplit
      · rename_i hb
        rcases List.eq_nil_or_concat todo with rfl | ⟨todo, q, rfl⟩
        · obtain ⟨hdone, hp⟩ := List.append_inj' hsplit rfl
          obtain rfl := List.singleton_injective hp
          rw [← hdone, pubsubTopicToPath_concat, if_pos hb]
          exact below_lead h.1
        · rw [List.concat_eq_append, ← List.cons_append, ← List.append_assoc] at hsplit
          exact ih h.1 (List.append_inj' hsplit rfl).1
      · rw [List.append_nil] at hsplit
        exact ih h.1 hsplit

/-! ## Looking a path up -/

/-- The directory that `p` is looked up in, where it is below `a`. -/
def Under (fs : FileSystem Bytes) (a p : Bytes) (d : Nat) : Prop :=
  fs.resolve ⟨(readPath p).absolute, (readPath a).comps⟩ = some d

theorem components_slash {a : Bytes} (hslash : a ≠ [] → ∃ r, a = r ++ [47]) (w : Bytes) :
    Paths.components 47 (a ++ w) = Paths.components 47 a ++ Paths.components 47 w := by
  rcases eq_or_ne a [] with rfl | hne
  · rfl
  · obtain ⟨r, rfl⟩ := hslash hne
    rw [List.append_assoc, List.singleton_append, Paths.components_append_cons,
      Paths.components_concat]

/-- **A path below another** has its components, and one more if the name is not empty. -/
theorem Below.comps {a p : Bytes} (h : Below a p) :
    (readPath p).comps = (readPath a).comps
      ∨ ∃ w, (readPath p).comps = (readPath a).comps ++ [.name w] := by
  obtain ⟨w, rfl, hslash, hdot⟩ := h.name
  unfold readPath
  dsimp only
  rw [components_slash h.slash, Paths.components_concat, List.map_append]
  rcases eq_or_ne w [] with rfl | hne
  · exact Or.inl (List.append_nil _)
  · rw [Paths.components_of_not_mem hne hslash]
    have hdescends := Paths.Descends.of_not_mem hdot hne
    refine Or.inr ⟨w, congrArg _ ?_⟩
    rw [List.map_singleton, component, if_neg hdescends.ne_dot, if_neg hdescends.ne_dotDot]

theorem Below.absolute {a p : Bytes} (h : Below a p) (hne : a ≠ []) :
    (readPath p).absolute = (readPath a).absolute := by
  obtain ⟨w, rfl, -⟩ := h.name
  unfold readPath
  rw [List.head?_append_of_ne_nil _ hne]

theorem Below.ne_nil {a p : Bytes} (h : Below a p) : p ≠ [] := by
  obtain ⟨w, rfl, -⟩ := h.name
  simp

theorem isDirectory_iff {fs : FileSystem Bytes} {p : Bytes} (hne : p ≠ []) :
    isDirectory fs p = true ↔ ∃ d, fs.resolve (readPath p) = some d := by
  rw [isDirectory, Bool.and_eq_true, decide_eq_true_iff, and_iff_right hne,
    Option.isSome_iff_exists]

theorem exists_under {fs : FileSystem Bytes} {a p : Bytes} (h : Below a p)
    (hdir : a ≠ [] → isDirectory fs a = true) : ∃ d, Under fs a p d := by
  unfold Under
  rcases eq_or_ne a [] with rfl | hne
  · exact ⟨_, congrArg (Option.map Prod.snd) (FileSystem.walk.eq_1 ..)⟩
  · rw [h.absolute hne]
    exact (isDirectory_iff hne).mp (hdir hne)

/-! ## One turn -/

/-- A directory is left alone, and anything else is up to `mkdir`. -/
theorem createDirectory_spec {p : Bytes} (hnul : (0 : UInt8) ∉ p) (s : Shell) :
    wp (createDirectory p) s
      (fun _ s' => isDirectory s.fs p = true ∧ s'.fs = s.fs
        ∨ isDirectory s.fs p = false ∧ mkdir s.fs p = some s'.fs)
      (fun e s' => s'.fs = s.fs ∧ isDirectory s.fs p = false ∧ mkdir s.fs p = none
        ∧ e = ⟨bytes "unable to create directory: " ++ p⟩) := by
  unfold createDirectory say
  rw [cString_of_not_mem hnul]
  simp only [wp_bind, wp_modify, wp_get, wp_ite, wp_pure]
  refine ⟨fun hdir => Or.inl ⟨hdir, trivial⟩, fun hdir => ?_⟩
  have hdir : isDirectory s.fs p = false := Bool.eq_false_iff.mpr hdir
  split
  · rename_i fs' hmade
    exact Or.inr ⟨hdir, hmade⟩
  · rename_i hfail
    exact ⟨rfl, hdir, hfail, rfl⟩

/-- Its name is taken, by something that is no directory. -/
def Obstructed (fs : FileSystem Bytes) (p : Bytes) : Prop :=
  isDirectory fs p = false ∧ ∃ d n e, fs.place (readPath p) = some (d, n) ∧ fs.entry d n = some e

section Turn

variable {fs fs' : FileSystem Bytes} {a p : Bytes} {d : Nat}

theorem place_of_not_directory (hbelow : Below a p) (hunder : Under fs a p d)
    (hdir : isDirectory fs p = false) : ∃ n, fs.place (readPath p) = some (d, n) := by
  have hnone : fs.resolve (readPath p) = none := by
    rw [Option.eq_none_iff_forall_ne_some]
    intro d' hd'
    exact absurd ((isDirectory_iff hbelow.ne_nil).mpr ⟨d', hd'⟩) (by rw [hdir]; decide)
  rcases hbelow.comps with hsame | ⟨n, hname⟩
  · rw [Under, ← hsame] at hunder
    exact absurd (hnone.symm.trans hunder) nofun
  · have hplace := FileSystem.place_below (n := n) hunder
    rw [← hname] at hplace
    exact ⟨n, hplace⟩

/-- **Below a directory `mkdir` fails only if the name is taken.** -/
theorem obstructed_of_mkdir (hbelow : Below a p) (hunder : Under fs a p d)
    (hdir : isDirectory fs p = false) (hfail : mkdir fs p = none) :
    ∃ n e, fs.place (readPath p) = some (d, n) ∧ fs.entry d n = some e := by
  obtain ⟨n, hplace⟩ := place_of_not_directory hbelow hunder hdir
  rw [mkdir, if_neg hbelow.ne_nil] at hfail
  obtain ⟨e, he⟩ := FileSystem.mkdir_eq_none hplace hfail
  exact ⟨n, e, hplace, he⟩

/-- In an empty directory only the directory itself is one. -/
theorem resolve_in_empty (hbelow : Below a p) (hunder : Under fs a p d)
    (hempty : ∀ n, fs.entry d n = none) (hdir : isDirectory fs p = true) :
    fs.resolve (readPath p) = some d := by
  rcases hbelow.comps with hsame | ⟨n, hname⟩
  · rw [Under, ← hsame] at hunder
    exact hunder
  · obtain ⟨d', hd'⟩ := (isDirectory_iff hbelow.ne_nil).mp hdir
    have hnone := FileSystem.resolve_below hunder (hempty n)
    rw [← hname] at hnone
    exact absurd (hnone.symm.trans hd') nofun

end Turn

/-! ## The loop -/

/-- What `mkdir -p` makes of a file system: some of the paths are directories now that were
not, and nothing else is new. -/
structure MadeParents (paths : List Bytes) (fs fs' : FileSystem Bytes) : Prop where
  directories : ∀ p ∈ paths, isDirectory fs' p = true
  kept : fs.Extends fs'
  added : ∀ {d n e}, fs'.entry d n = some e → fs.entry d n = some e
    ∨ (∃ d', e = .directory d')
      ∧ ∃ p ∈ paths, isDirectory fs p = false ∧ fs'.place (readPath p) = some (d, n)

/-- Nothing has been made so far, or the last path leads to an empty directory. -/
def Untouched (fs₀ fs : FileSystem Bytes) (done : List Bytes) : Prop :=
  fs = fs₀ ∨ lead done ≠ [] ∧ ∃ d, fs.resolve (readPath (lead done)) = some d
    ∧ ∀ n, fs.entry d n = none

theorem isDirectory_mono {fs fs' : FileSystem Bytes} {p : Bytes} (h : fs.Extends fs')
    (hdir : isDirectory fs p = true) : isDirectory fs' p = true := by
  have hne : p ≠ [] := by
    rintro rfl
    exact Bool.false_ne_true hdir
  obtain ⟨d, hd⟩ := (isDirectory_iff hne).mp hdir
  exact (isDirectory_iff hne).mpr ⟨d, h.resolve hd⟩

section Loop

variable {fs₀ fs fs' : FileSystem Bytes} {done : List Bytes} {p : Bytes} {d : Nat}

theorem lead_concat (done : List Bytes) (p : Bytes) : lead (done ++ [p]) = p := by
  rw [lead, List.getLast?_concat]
  rfl

theorem MadeParents.lead_directory (h : MadeParents done fs₀ fs) (hne : lead done ≠ []) :
    isDirectory fs (lead done) = true :=
  h.directories _ ((lead_eq_or_mem done).resolve_left hne)

/-- A path that is a directory already. -/
theorem MadeParents.skip (h : MadeParents done fs₀ fs) (hdir : isDirectory fs p = true) :
    MadeParents (done ++ [p]) fs₀ fs where
  directories q hq := by
    rcases List.mem_append.mp hq with hq | hq
    · exact h.directories q hq
    · rw [List.mem_singleton.mp hq, hdir]
  kept := h.kept
  added he := (h.added he).imp_right fun ⟨hd, q, hq, hold, hplace⟩ =>
    ⟨hd, q, List.mem_append_left _ hq, hold, hplace⟩

/-- A path that has just been made. -/
theorem MadeParents.make (h : MadeParents done fs₀ fs) (hne : p ≠ [])
    (hdir : isDirectory fs p = false) (hmade : fs.mkdir (readPath p) = some fs') :
    MadeParents (done ++ [p]) fs₀ fs' := by
  have hext := FileSystem.mkdir_extends hmade
  obtain ⟨d, n, hd, hplace, -, rfl⟩ := FileSystem.mkdir_eq_some hmade
  refine ⟨fun q hq => ?_, h.kept.trans hext, fun {d' n' e} he => ?_⟩
  · rcases List.mem_append.mp hq with hq | hq
    · exact isDirectory_mono hext (h.directories q hq)
    · rw [List.mem_singleton.mp hq]
      exact (isDirectory_iff hne).mpr ⟨_, (FileSystem.mkdir_resolve hmade).1⟩
  · by_cases hnew : d' = d ∧ n' = n
    · obtain ⟨rfl, rfl⟩ := hnew
      rw [FileSystem.add_entry_self] at he
      refine Or.inr ⟨⟨_, (Option.some.inj he).symm⟩, p, by simp, ?_, hext.place hplace⟩
      -- what was a directory at first would be one still
      exact Bool.eq_false_iff.mpr fun hold =>
        absurd (hdir.symm.trans (isDirectory_mono h.kept hold)) Bool.false_ne_true
    · rw [FileSystem.add_entry_of_ne hd hnew] at he
      exact (h.added he).imp_right fun ⟨hdir', q, hq, hold, hplace'⟩ =>
        ⟨hdir', q, List.mem_append_left _ hq, hold, hext.place hplace'⟩

theorem Untouched.skip (h : Untouched fs₀ fs done) (hbelow : Below (lead done) p)
    (hdir : isDirectory fs p = true) : Untouched fs₀ fs (done ++ [p]) := by
  refine h.imp_right ?_
  rintro ⟨hne, d, hresolve, hempty⟩
  rw [lead_concat]
  refine ⟨hbelow.ne_nil, d, resolve_in_empty hbelow ?_ hempty hdir, hempty⟩
  rw [Under, hbelow.absolute hne]
  exact hresolve

/-- **In an empty directory nothing is in the way.** -/
theorem Untouched.of_fail (h : Untouched fs₀ fs done) (hbelow : Below (lead done) p)
    (hunder : Under fs (lead done) p d) (hdir : isDirectory fs p = false)
    (hfail : mkdir fs p = none) : fs = fs₀ ∧ Obstructed fs₀ p := by
  obtain ⟨n, e, hplace, he⟩ := obstructed_of_mkdir hbelow hunder hdir hfail
  rcases h with rfl | ⟨hne, d', hresolve, hempty⟩
  · exact ⟨rfl, hdir, d, n, e, hplace, he⟩
  · rw [Under, hbelow.absolute hne] at hunder
    obtain rfl : d' = d := Option.some.inj (hresolve.symm.trans hunder)
    rw [hempty n] at he
    cases he

end Loop

/-- The loop over the paths of a key. -/
theorem createDirectories_spec {key : Bytes} (hslash : (47 : UInt8) ∉ key)
    (hnul : (0 : UInt8) ∉ key) (s : Shell) :
    wp (createDirectoriesFromPubsubKey key) s
      (fun _ s' => MadeParents (pubsubTopicToPathComponents key) s.fs s'.fs)
      (fun e s' => s'.fs = s.fs ∧ ∃ p ∈ pubsubTopicToPathComponents key,
        Obstructed s.fs p ∧ e = ⟨bytes "unable to create directory: " ++ p⟩) := by
  refine wp_mono (wp_forM (fun done t => MadeParents done s.fs t.fs ∧ Untouched s.fs t.fs done)
    (fun done p todo t hsplit ht => ?_) ?_) (fun _ t ht => ht.1) (fun _ _ he => he)
  · obtain ⟨hmade, huntouched⟩ := ht
    have hmem : p ∈ pubsubTopicToPathComponents key := hsplit ▸ by simp
    have hbelow := below_components hslash hsplit
    obtain ⟨d, hunder⟩ := exists_under hbelow hmade.lead_directory
    refine wp_mono (createDirectory_spec (nul_of_mem_components hnul hmem) t)
      (fun _ t' ht' => ?_) fun e t' ht' => ?_
    · rcases ht' with ⟨hdir, hsame⟩ | ⟨hdir, hmkdir⟩
      · rw [hsame]
        exact ⟨hmade.skip hdir, huntouched.skip hbelow hdir⟩
      · rw [mkdir, if_neg hbelow.ne_nil] at hmkdir
        refine ⟨hmade.make hbelow.ne_nil hdir hmkdir, Or.inr ?_⟩
        rw [lead_concat]
        exact ⟨hbelow.ne_nil, _, FileSystem.mkdir_resolve hmkdir⟩
    · obtain ⟨hsame, hdir, hfail, rfl⟩ := ht'
      obtain ⟨hfs, hobstructed⟩ := huntouched.of_fail hbelow hunder hdir hfail
      exact ⟨hsame.trans hfs, p, hmem, hobstructed, rfl⟩
  · exact ⟨⟨nofun, .refl _, Or.inl⟩, Or.inl rfl⟩

/-- Where every path is a directory there is nothing to do. -/
theorem createDirectories_of_directories {key : Bytes} (hnul : (0 : UInt8) ∉ key) {s : Shell}
    (hdirs : ∀ p ∈ pubsubTopicToPathComponents key, isDirectory s.fs p = true) :
    wp (createDirectoriesFromPubsubKey key) s (fun _ s' => s'.fs = s.fs) noThrow := by
  refine wp_forM (fun _ (t : Shell) => t.fs = s.fs) (fun done p todo t hsplit ht => ?_) rfl
  have hmem : p ∈ pubsubTopicToPathComponents key := hsplit ▸ by simp
  have hdir : isDirectory t.fs p = true := ht ▸ hdirs p hmem
  refine wp_mono (createDirectory_spec (nul_of_mem_components hnul hmem) t)
    (fun _ t' ht' => ?_) fun e t' ht' => ?_
  · rcases ht' with ⟨-, hsame⟩ | ⟨hnot, -⟩
    · exact hsame.trans ht
    · exact absurd (hnot.symm.trans hdir) Bool.false_ne_true
  · exact absurd (ht'.2.1.symm.trans hdir) Bool.false_ne_true

/--
**`mkdir -p` of a key's dirname.** There is one path for each dot, each the beginning of
the next, the last of them the whole path cut after its last slash. Creating them either
makes every one a directory, adding what was missing and nothing else, so that a second
call finds nothing to do; or it throws, with nothing changed, because the name of one was
taken by something that is no directory.
-/
theorem createDirectories_like_mkdir {key : Bytes} (hslash : (47 : UInt8) ∉ key)
    (hnul : (0 : UInt8) ∉ key) :
    ((pubsubTopicToPathComponents key).length = key.count 46
      ∧ (∀ k pre, pre <+: key → pre.getLast? = some 46 → pre.count 46 = k + 1 →
        (pubsubTopicToPathComponents key)[k]? = some (pubsubTopicToPath pre))
      ∧ (pubsubTopicToPathComponents key).Pairwise (fun p q => p <+: q ∧ p ≠ q)
      ∧ lead (pubsubTopicToPathComponents key)
        = (pubsubTopicToPath key).rdropWhile (· != 47))
    ∧ ∀ s : Shell, wp (createDirectoriesFromPubsubKey key) s
      (fun _ s' => MadeParents (pubsubTopicToPathComponents key) s.fs s'.fs
        ∧ wp (createDirectoriesFromPubsubKey key) s' (fun _ s'' => s''.fs = s'.fs) noThrow)
      (fun e s' => s'.fs = s.fs ∧ ∃ p ∈ pubsubTopicToPathComponents key,
        Obstructed s.fs p ∧ e = ⟨bytes "unable to create directory: " ++ p⟩) := by
  refine ⟨⟨components_length key, fun k pre => components_getElem, components_pairwise key,
    lead_components hslash⟩, fun s => ?_⟩
  refine wp_mono (createDirectories_spec hslash hnul s) (fun _ s' hmade => ?_) fun _ _ he => he
  exact ⟨hmade, createDirectories_of_directories hnul hmade.directories⟩

/-- A key with two dots in a row. -/
theorem createDirectories_like_mkdir_abc :
    pubsubTopicToPathComponents (bytes "a..b.c") = [bytes "a/", bytes "a//", bytes "a//b/"]
    ∧ ∀ s : Shell, wp (createDirectoriesFromPubsubKey (bytes "a..b.c")) s
      (fun _ s' => isDirectory s'.fs (bytes "a//b/") = true)
      (fun _ s' => s'.fs = s.fs) := by
  have hpaths : pubsubTopicToPathComponents (bytes "a..b.c")
      = [bytes "a/", bytes "a//", bytes "a//b/"] := by decide
  refine ⟨hpaths, fun s => ?_⟩
  refine wp_mono ((createDirectories_like_mkdir (by decide) (by decide)).2 s)
    (fun _ s' hs' => hs'.1.directories _ ?_) fun _ s' hs' => hs'.1
  rw [hpaths]
  decide

end CloudMon.Proof
