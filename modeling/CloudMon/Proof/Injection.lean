import CloudMon.Collector.Receiver
import CloudMon.Proof.Names

/-!
# Names that are commands

The proxy pastes names from the network between the words of a line, and the updater
takes the line apart at white space. So a name with a newline in it is the end of one
command and the start of another, a blank moves the rest of the key into the value, and
a dot or a slash moves the place where the host name ends. Nothing on the way looks
at the names.

What is right about a message can therefore be said of its names alone, and exactly:
no NUL, no white space, a key that fits its buffer, and a host and uuid that the path
keeps apart from every other host's.
-/

namespace CloudMon.Proof

open CloudMon Words Paths

/-! ## A message's own commands -/

/-- The commands of an aggregate are its own, and so are the files they are about. -/
structure OwnCommands (u : Updater) (agg : AggregateDomainStats) (cmds : List Command) : Prop where
  own : List.Forall₂ (fun e c => ∃ rest, c = .update (keyOf agg.hostname e.1.domainUuid e.2) rest)
    (entries agg) cmds
  /-- A file that any host has is the file of this host, this domain and this metric. -/
  files : ∀ e ∈ entries agg, ∀ host uuid metric, HostName host → PartName uuid →
    SameFile (fileOf u (keyOf agg.hostname e.1.domainUuid e.2))
      (fileOf u (keyOf host uuid metric)) →
    host = agg.hostname ∧ uuid = e.1.domainUuid ∧ metric = e.2
  apart : ∀ e ∈ entries agg, ∀ metric,
    SameFile (fileOf u (keyOf agg.hostname e.1.domainUuid e.2))
      (fileOf u (keyOf agg.hostname e.1.domainUuid metric)) → metric = e.2

/-- The path says which host it is, or leads to no host's directory at all. -/
def OwnPlace (host uuid : Bytes) : Prop :=
  HostName host ∧ PartName uuid ∨ (labels host ++ labels uuid).length < 2

/-- Names that the lines and the paths carry as they are. -/
structure SafeNames (host uuid : Bytes) : Prop where
  noNul : (0 : UInt8) ∉ host ∧ (0 : UInt8) ∉ uuid
  noSpace : (∀ b ∈ host, isSpace b = false) ∧ ∀ b ∈ uuid, isSpace b = false
  fits : ∀ metric, (keyOf host uuid metric).length ≤ 511
  place : OwnPlace host uuid

/-- Only the first line of a terminated instance's name is a command. -/
def OneCommand (whichInstance : Bytes) : Prop :=
  ∀ line ∈ (inputLines (cString whichInstance ++ [10])).tail,
    command line = none ∨ command line = some .ignored

/-! ## Places -/

/-- **The path keeps a host apart** exactly when it is a host's path to begin with. -/
theorem ownPlace_iff (u : Updater) {host uuid : Bytes} {metric : Metric}
    (hnul : (0 : UInt8) ∉ host ∧ (0 : UInt8) ∉ uuid)
    (hspace : (∀ b ∈ host, isSpace b = false) ∧ ∀ b ∈ uuid, isSpace b = false) :
    (∀ host' uuid' metric', HostName host' → PartName uuid' →
      SameFile (fileOf u (keyOf host uuid metric)) (fileOf u (keyOf host' uuid' metric')) →
      host' = host ∧ uuid' = uuid ∧ metric' = metric) ↔ OwnPlace host uuid := by
  refine ⟨fun h => ?_, fun h host' uuid' metric' hhost' huuid' hsame => ?_⟩
  · rcases Nat.lt_or_ge (labels host ++ labels uuid).length 2 with hfew | hmany
    · exact Or.inr hfew
    · -- the labels, read as those of a host and one more
      have hne : labels host ++ labels uuid ≠ [] := by
        intro hnil
        rw [hnil] at hmany
        exact absurd hmany (by decide)
      have hlabel : ∀ l ∈ labels host ++ labels uuid, PartName l := by
        intro l hl
        rcases List.mem_append.mp hl with hl | hl
        · exact partName_label hspace.1 hnul.1 hl
        · exact partName_label hspace.2 hnul.2 hl
      have hinit : (labels host ++ labels uuid).dropLast ≠ [] := by
        intro hnil
        have hlen := congrArg List.length hnil
        rw [List.length_dropLast, List.length_nil] at hlen
        omega
      obtain ⟨hhost', hlabels⟩ := hostName_intercalate hinit fun l hl =>
        hlabel l (List.dropLast_subset _ hl)
      have hlast := hlabel _ (List.getLast_mem hne)
      obtain ⟨hh, hu, -⟩ := h _ _ metric hhost' hlast ((sameFile_iff u).mpr
        ⟨by rw [hlabels, hlast.labels_eq, List.dropLast_append_getLast], rfl⟩)
      exact Or.inl ⟨hh ▸ hhost', hu ▸ hlast⟩
  · rcases h with ⟨hhost, huuid⟩ | hfew
    · obtain ⟨hh, hu, hm⟩ := names_of_sameFile hhost huuid hhost' huuid' hsame
      exact ⟨hh.symm, hu.symm, hm.symm⟩
    · -- a host's path has a label for the host and one for the domain
      obtain ⟨hlabels, -⟩ := (sameFile_iff u).mp hsame
      have hlen := congrArg List.length hlabels
      rw [huuid'.labels_eq, @List.length_append _ (labels host'), List.length_singleton] at hlen
      have hpos := List.length_pos_of_ne_nil hhost'.labels_ne_nil
      omega

/-! ## Lines -/

theorem mem_of_mem_inputLines {input line : Bytes} (h : line ∈ inputLines input) {b : UInt8}
    (hb : b ∈ line) : b ∈ input := by
  rw [← inputLines_flatten input]
  exact List.mem_flatten.mpr ⟨line, h, hb⟩

/-- The key of any command is a word of the input. -/
theorem key_of_commands {input key rest : Bytes} (h : Command.update key rest ∈ commands input) :
    IsWord isSpace key ∧ ∀ b ∈ key, b ∈ input := by
  obtain ⟨line, hline, hcmd⟩ := List.mem_filterMap.mp h
  obtain ⟨hcmd, -⟩ := Option.filter_eq_some_iff.mp hcmd
  obtain ⟨toks, hsplit, -, -⟩ := command_eq_update.mp hcmd
  have hkey : key ∈ words isSpace line := by
    rw [split] at hsplit
    rw [hsplit]
    exact List.mem_cons_self ..
  exact ⟨isWord_of_mem_words hkey,
    fun b hb => mem_of_mem_inputLines hline (mem_of_mem_words hkey hb)⟩

theorem zero_not_mem_of_isNumChar {s : Bytes} (h : ∀ b ∈ s, Decimal.isNumChar b = true) :
    (0 : UInt8) ∉ s := fun h0 => absurd (h 0 h0) (by decide)

theorem formatF_noNul (d : Double) : (0 : UInt8) ∉ formatF d := by
  cases d with
  | fin q => exact zero_not_mem_of_isNumChar (Decimal.fixedText_isNumChar 6 q)
  | negZero => decide
  | inf neg => cases neg <;> decide
  | nan neg => cases neg <;> decide

theorem valueText_noNul (metric : Metric) (dom : DomainStats) :
    (0 : UInt8) ∉ metric.valueText dom := by
  cases metric with
  | cpu => exact formatF_noNul _
  | mem => exact formatF_noNul _
  | diskReadReq => exact zero_not_mem_of_isNumChar (Decimal.intText_isNumChar _)
  | diskWriteReq => exact zero_not_mem_of_isNumChar (Decimal.intText_isNumChar _)

/-- The names of a line end at their first NUL, and nothing else in it has one. -/
theorem whisperLine_noNul (agg : AggregateDomainStats) (dom : DomainStats) (metric : Metric) :
    (0 : UInt8) ∉ whisperLine agg dom metric := by
  intro h
  have htext := snprintf_subset h
  simp only [whisperLineText, List.mem_append] at htext
  rcases htext with (((hkey | hblank) | hvalue) | hblank) | htime
  · have hkey := snprintf_subset hkey
    simp only [statKeyText, List.mem_append] at hkey
    rcases hkey with ((((hp | hh) | hd) | hu) | hd) | hm
    · exact absurd hp (by decide)
    · exact zero_not_mem_cString _ hh
    · exact absurd hd (by decide)
    · exact zero_not_mem_cString _ hu
    · exact absurd hd (by decide)
    · exact name_noNul metric hm
  · exact absurd hblank (by decide)
  · exact valueText_noNul metric dom hvalue
  · exact absurd hblank (by decide)
  · exact formatF_noNul agg.tov htime

/-- With clean names, a line's first word is its key, as far as it fits. -/
theorem whisperLine_eq_word {agg : AggregateDomainStats} {dom : DomainStats} (metric : Metric)
    (hnul : (0 : UInt8) ∉ agg.hostname ∧ (0 : UInt8) ∉ dom.domainUuid)
    (hspace : (∀ b ∈ agg.hostname, isSpace b = false) ∧ ∀ b ∈ dom.domainUuid, isSpace b = false) :
    (10 : UInt8) ∉ whisperLine agg dom metric
      ∧ ∃ toks, split (whisperLine agg dom metric)
        = (keyOf agg.hostname dom.domainUuid metric).take 511 :: toks := by
  have hkey : statKey agg.hostname dom.domainUuid metric
      = (keyOf agg.hostname dom.domainUuid metric).take 511 := by
    rw [statKey, statKeyText_eq hnul.1 hnul.2]
    rfl
  have hwhole := isWord_keyOf hspace.1 hspace.2 metric
  have hword : IsWord isSpace ((keyOf agg.hostname dom.domainUuid metric).take 511) :=
    ⟨by simp [keyOf, bytes], fun b hb => hwhole.noSpace b (List.mem_of_mem_take hb)⟩
  have hnewline : ∀ {s : Bytes}, (∀ b ∈ s, isSpace b = false) → (10 : UInt8) ∉ s :=
    fun hs h10 => absurd (hs 10 h10) (by decide)
  refine ⟨fun h => ?_, ?_⟩
  · -- a newline could only come from the names
    have htext := snprintf_subset h
    simp only [whisperLineText, hkey, List.mem_append] at htext
    rcases htext with (((hk | hblank) | hvalue) | hblank) | htime
    · exact hnewline hword.noSpace hk
    · exact absurd hblank (by decide)
    · exact hnewline (isWord_valueText metric dom).noSpace hvalue
    · exact absurd hblank (by decide)
    · exact hnewline (isWord_formatF agg.tov).noSpace htime
  · -- the key is shorter than the line's buffer, and a blank comes next
    have hlen : ((keyOf agg.hostname dom.domainUuid metric).take 511).length ≤ 511 :=
      List.length_take_le _ _
    have hline : whisperLine agg dom metric
        = (keyOf agg.hostname dom.domainUuid metric).take 511
          ++ (bytes " " ++ metric.valueText dom ++ bytes " " ++ formatF agg.tov).take
            (1023 - ((keyOf agg.hostname dom.domainUuid metric).take 511).length) := by
      rw [whisperLine, snprintf, whisperLineText, hkey]
      simp only [List.append_assoc]
      rw [List.take_append, List.take_of_length_le (by omega)]
    have hblank : ∀ b ∈ ((bytes " " ++ metric.valueText dom ++ bytes " " ++ formatF agg.tov).take
        (1023 - ((keyOf agg.hostname dom.domainUuid metric).take 511).length)).head?,
        isSpace b = true := by
      obtain ⟨n, hn⟩ : ∃ n,
          1023 - ((keyOf agg.hostname dom.domainUuid metric).take 511).length = n + 1 :=
        ⟨1022 - ((keyOf agg.hostname dom.domainUuid metric).take 511).length, by omega⟩
      intro b hb
      rw [hn, show bytes " " = [32] by decide, List.singleton_append, List.cons_append,
        List.cons_append, List.take_succ_cons] at hb
      obtain rfl : 32 = b := by simpa using hb
      decide
    exact ⟨_, by rw [hline, split, words_word_append hword hblank]⟩

/-- The commands of a line whose key fits. -/
theorem commands_whisperLine {agg : AggregateDomainStats} {dom : DomainStats} (metric : Metric)
    (h : SafeNames agg.hostname dom.domainUuid) :
    ∃ rest, commands (whisperLine agg dom metric ++ [10])
      = [.update (keyOf agg.hostname dom.domainUuid metric) rest] := by
  obtain ⟨hnewline, toks, hsplit⟩ := whisperLine_eq_word metric h.noNul h.noSpace
  rw [List.take_of_length_le (h.fits metric)] at hsplit
  have hcmd := command_eq_update.mpr
    ⟨toks, hsplit, rfl, servers_isPrefixOf_keyOf agg.hostname dom.domainUuid metric⟩
  exact ⟨[32].intercalate toks, by rw [commands_line hnewline, hcmd]; rfl⟩

theorem commands_getWhisperUpdates (agg : AggregateDomainStats) :
    commands (piped (getWhisperUpdates agg))
      = (entries agg).flatMap fun e => commands (whisperLine agg e.1 e.2 ++ [10]) := by
  rw [commands_piped, getWhisperUpdates_eq, List.flatMap_map]

/-! ## Messages -/

theorem forall₂_flatMap {α β : Type} {R : α → β → Prop} {f : α → List β} :
    ∀ {xs : List α}, (∀ x ∈ xs, ∃ y, f x = [y] ∧ R x y) → List.Forall₂ R xs (xs.flatMap f)
  | [], _ => .nil
  | x :: xs, h => by
      obtain ⟨y, hy, hxy⟩ := h x (List.mem_cons_self ..)
      rw [List.flatMap_cons, hy]
      exact .cons hxy (forall₂_flatMap fun z hz => h z (List.mem_cons_of_mem _ hz))

theorem exists_of_forall₂ {α β : Type} {R : α → β → Prop} {xs : List α} {ys : List β}
    (h : List.Forall₂ R xs ys) {x : α} (hx : x ∈ xs) : ∃ y ∈ ys, R x y := by
  induction h with
  | nil => exact nomatch hx
  | cons hxy _ ih =>
      rcases List.mem_cons.mp hx with rfl | hx
      · exact ⟨_, List.mem_cons_self .., hxy⟩
      · obtain ⟨y, hy, hR⟩ := ih hx
        exact ⟨y, List.mem_cons_of_mem _ hy, hR⟩

/-- A name written as part of a key. -/
theorem mem_keyOf {host uuid : Bytes} {metric : Metric} {b : UInt8} (h : b ∈ host ∨ b ∈ uuid) :
    b ∈ keyOf host uuid metric := by
  simp only [keyOf, List.mem_append, List.mem_cons]
  rcases h with h | h
  · exact Or.inr (Or.inr (Or.inr (Or.inl h)))
  · exact Or.inr (Or.inr (Or.inr (Or.inr (Or.inr (Or.inl h)))))

theorem piped_noNul (agg : AggregateDomainStats) : (0 : UInt8) ∉ piped (getWhisperUpdates agg) := by
  intro h0
  rw [piped, getWhisperUpdates_eq, List.flatMap_map] at h0
  obtain ⟨e, -, h0⟩ := List.mem_flatMap.mp h0
  rcases List.mem_append.mp h0 with h0 | h0
  · exact whisperLine_noNul agg e.1 e.2 h0
  · exact absurd h0 (by decide)

/-- A key that came through the pipe as a word has clean names in it. -/
theorem clean_of_commands {agg : AggregateDomainStats} {host uuid rest : Bytes} {metric : Metric}
    (h : Command.update (keyOf host uuid metric) rest ∈ commands (piped (getWhisperUpdates agg))) :
    ((0 : UInt8) ∉ host ∧ (0 : UInt8) ∉ uuid)
      ∧ (∀ b ∈ host, isSpace b = false) ∧ ∀ b ∈ uuid, isSpace b = false := by
  obtain ⟨hword, hmem⟩ := key_of_commands h
  have hnul : (0 : UInt8) ∉ keyOf host uuid metric := fun h0 => piped_noNul agg (hmem 0 h0)
  exact ⟨⟨fun h0 => hnul (mem_keyOf (Or.inl h0)), fun h0 => hnul (mem_keyOf (Or.inr h0))⟩,
    fun b hb => hword.noSpace b (mem_keyOf (Or.inl hb)),
    fun b hb => hword.noSpace b (mem_keyOf (Or.inr hb))⟩

/-- With clean names all around, every key that comes out was cut at its buffer. -/
theorem length_of_commands {agg : AggregateDomainStats} {key rest : Bytes}
    (hclean : ∀ e ∈ entries agg, ((0 : UInt8) ∉ agg.hostname ∧ (0 : UInt8) ∉ e.1.domainUuid)
      ∧ (∀ b ∈ agg.hostname, isSpace b = false) ∧ ∀ b ∈ e.1.domainUuid, isSpace b = false)
    (h : Command.update key rest ∈ commands (piped (getWhisperUpdates agg))) :
    key.length ≤ 511 := by
  rw [commands_getWhisperUpdates] at h
  obtain ⟨e, he, hcmd⟩ := List.mem_flatMap.mp h
  obtain ⟨hnul, hspace⟩ := hclean e he
  obtain ⟨hnewline, toks, hsplit⟩ := whisperLine_eq_word e.2 hnul hspace
  rw [commands_line hnewline, Option.mem_toList] at hcmd
  obtain ⟨toks', hsplit', -, -⟩ := command_eq_update.mp (Option.filter_eq_some_iff.mp hcmd).1
  rw [hsplit, List.cons.injEq] at hsplit'
  rw [← hsplit'.1]
  exact List.length_take_le _ _

/-- Names whose own commands come out of the pipe are safe. -/
theorem safeNames_of_ownCommands {u : Updater} {agg : AggregateDomainStats}
    (h : OwnCommands u agg (commands (piped (getWhisperUpdates agg)))) {dom : DomainStats}
    (hdom : dom ∈ agg.domainStats) : SafeNames agg.hostname dom.domainUuid := by
  have hkey : ∀ e ∈ entries agg, ∃ rest,
      Command.update (keyOf agg.hostname e.1.domainUuid e.2) rest
        ∈ commands (piped (getWhisperUpdates agg)) := by
    intro e he
    obtain ⟨c, hc, rest, rfl⟩ := exists_of_forall₂ h.own he
    exact ⟨rest, hc⟩
  have hclean := fun e he => clean_of_commands (hkey e he).choose_spec
  obtain ⟨hnul, hspace⟩ := hclean _ (mem_entries hdom .cpu)
  -- with clean names a key that is too long would have come out cut
  refine ⟨hnul, hspace, fun metric => ?_,
    (ownPlace_iff u hnul hspace).mp (h.files _ (mem_entries hdom .cpu))⟩
  obtain ⟨rest, hcmd⟩ := hkey _ (mem_entries hdom metric)
  exact length_of_commands hclean hcmd

theorem ownCommands_iff (u : Updater) (agg : AggregateDomainStats) :
    OwnCommands u agg (commands (piped (getWhisperUpdates agg)))
      ↔ ∀ dom ∈ agg.domainStats, SafeNames agg.hostname dom.domainUuid := by
  refine ⟨fun h dom hdom => safeNames_of_ownCommands h hdom, fun h => ?_⟩
  have hsafe : ∀ e ∈ entries agg, SafeNames agg.hostname e.1.domainUuid :=
    fun e he => h e.1 (mem_domainStats_of_entry he)
  refine ⟨?_, fun e he => ?_, fun e he metric hsame => (((sameFile_iff u).mp hsame).2).symm⟩
  · -- one command a line, and each with its own key
    rw [commands_getWhisperUpdates]
    refine forall₂_flatMap fun e he => ?_
    obtain ⟨rest, hrest⟩ := commands_whisperLine e.2 (hsafe e he)
    exact ⟨_, hrest, rest, rfl⟩
  · exact (ownPlace_iff u (hsafe e he).noNul (hsafe e he).noSpace).mpr (hsafe e he).place

/-- A line that begins with the other command is that command, whatever follows on it. -/
theorem command_termInstance (rest : Bytes) :
    ∃ w, command (termInstance ++ 32 :: rest) = some (.terminate w) := by
  have hword : IsWord isSpace termInstance := ⟨by decide, noSpace_of_all (by decide)⟩
  have hsplit : split (termInstance ++ 32 :: rest) = termInstance :: words isSpace rest := by
    rw [split, words_append_cons hword (by decide)]
  refine ⟨[32].intercalate (words isSpace rest), ?_⟩
  unfold command
  simp only [hsplit]
  rw [if_neg (by decide)]
  exact if_pos rfl

theorem filter_eq_none_iff {c : Option Command} :
    c.filter (· ≠ .ignored) = none ↔ c = none ∨ c = some .ignored := by
  cases c with
  | none => exact iff_of_true rfl (Or.inl rfl)
  | some c => simp [Option.filter_some]

/-- **A name is one command** exactly when none of its later lines is one. -/
theorem oneCommand_iff (whichInstance : Bytes) :
    (∃ w, commands (piped [termInstance ++ bytes " " ++ cString whichInstance]) = [.terminate w])
      ↔ OneCommand whichInstance := by
  obtain ⟨first, later, hlines⟩ : ∃ first later,
      inputLines (cString whichInstance ++ [10]) = first :: later := by
    refine List.exists_cons_of_ne_nil fun hnil => ?_
    have hflat := inputLines_flatten (cString whichInstance ++ [10])
    rw [hnil] at hflat
    simp at hflat
  have hinput : piped [termInstance ++ bytes " " ++ cString whichInstance]
      = (termInstance ++ bytes " ") ++ (cString whichInstance ++ [10]) := by
    simp only [piped, List.flatMap_cons, List.flatMap_nil, List.append_nil, List.append_assoc]
  obtain ⟨w, hw⟩ := command_termInstance first
  have hcmds : commands (piped [termInstance ++ bytes " " ++ cString whichInstance])
      = .terminate w :: later.filterMap fun line => (command line).filter (· ≠ .ignored) := by
    rw [commands, hinput, inputLines_prepend (by decide) hlines, List.filterMap_cons,
      List.append_assoc, show bytes " " = [32] by decide, List.singleton_append, hw]
    rfl
  rw [hcmds, OneCommand, hlines, List.tail_cons]
  refine ⟨fun h line hline => ?_, fun h => ⟨w, ?_⟩⟩
  · obtain ⟨w', h⟩ := h
    exact filter_eq_none_iff.mp (List.filterMap_eq_nil_iff.mp (List.cons.inj h).2 line hline)
  · rw [List.filterMap_eq_nil_iff.mpr fun line hline => filter_eq_none_iff.mpr (h line hline)]

/--
**What the proxy writes for a message is that message's commands and no others**
exactly when its names are safe.
-/
theorem injected_iff {ο : Type} (u : Updater) (mp : Msgpack ο) (key : Bytes) (msg : ο) :
    (key = termInstance → ∀ whichInstance, mp.toString msg = some whichInstance →
      ((∃ lines, updateImmediate mp key msg = some lines ∧
        ∃ w, commands (piped lines) = [.terminate w]) ↔ OneCommand whichInstance))
    ∧ (key ≠ termInstance → ∀ agg, mp.toAggregate msg = some agg →
      ((∃ lines, updateImmediate mp key msg = some lines ∧
        OwnCommands u agg (commands (piped lines)))
        ↔ ∀ dom ∈ agg.domainStats, SafeNames agg.hostname dom.domainUuid)) := by
  refine ⟨fun hkey whichInstance hmsg => ?_, fun hkey agg hmsg => ?_⟩
  · -- its string is pasted behind the key as far as its first NUL
    have hlines : updateImmediate mp key msg
        = some [termInstance ++ bytes " " ++ cString whichInstance] := by
      rw [updateImmediate, if_pos hkey, hmsg, hkey, cString_of_not_mem (by decide)]
      rfl
    rw [hlines, ← oneCommand_iff]
    exact ⟨fun ⟨_, h, hw⟩ => Option.some.inj h ▸ hw, fun h => ⟨_, rfl, h⟩⟩
  · have hlines : updateImmediate mp key msg = some (getWhisperUpdates agg) := by
      rw [updateImmediate, if_neg hkey, hmsg]
      rfl
    rw [hlines, ← ownCommands_iff u agg]
    exact ⟨fun ⟨_, h, hw⟩ => Option.some.inj h ▸ hw, fun h => ⟨_, rfl, h⟩⟩

/-! ## A host name with a command in it -/

/-- Values that are already unpacked. -/
def unpackedMsgpack : Msgpack (Bytes ⊕ AggregateDomainStats) where
  packString _ := []
  packAggregate _ := []
  unpack _ := none
  toString := Sum.getLeft?
  toAggregate := Sum.getRight?

/-- Its second line is an update of another host's file. -/
def intruder : Bytes :=
  bytes "x 0 1400000000" ++ 10 :: (bytes "monitor.servers.victim.u-1.cpu 1 1400000000" ++ [10])

theorem injected_iff_dottedHost :
    ((∃ lines, updateImmediate unpackedMsgpack termInstance (.inl (bytes "servers.a.u-1"))
        = some lines ∧ ∃ w, commands (piped lines) = [.terminate w])
      ↔ OneCommand (bytes "servers.a.u-1"))
    ∧ ((∃ lines, updateImmediate unpackedMsgpack (bytes "monitor.servers.a.b")
        (.inr (aggregateOf (bytes "a.b"))) = some lines ∧
        OwnCommands dataUpdater (aggregateOf (bytes "a.b")) (commands (piped lines)))
      ↔ ∀ dom ∈ (aggregateOf (bytes "a.b")).domainStats,
        SafeNames (aggregateOf (bytes "a.b")).hostname dom.domainUuid) :=
  ⟨(injected_iff dataUpdater unpackedMsgpack termInstance (.inl (bytes "servers.a.u-1"))).1 rfl
      _ rfl,
    (injected_iff dataUpdater unpackedMsgpack (bytes "monitor.servers.a.b")
      (.inr (aggregateOf (bytes "a.b")))).2 (by decide) _ rfl⟩

/-- The aggregate of one host writes the cpu file of another. -/
theorem not_ownCommands_intruder :
    ¬ OwnCommands dataUpdater (aggregateOf intruder)
        (commands (piped (getWhisperUpdates (aggregateOf intruder))))
      ∧ .update (keyOf (bytes "victim") (bytes "u-1") .cpu) (bytes "1 1400000000")
        ∈ commands (piped (getWhisperUpdates (aggregateOf intruder))) := by
  refine ⟨fun h => ?_, by decide +kernel⟩
  have hlen := h.own.length_eq
  revert hlen
  decide +kernel

end CloudMon.Proof
