import CloudMon.Collector.Format
import CloudMon.Collector.Updater

/-!
# The metric lines and the updater agree

A line is three words: a key, a value and a time. The writer puts them together
with two `snprintf`s, the updater takes them apart at white space and then takes
the key apart at its dots, so the two agree as long as nothing in the names looks
like a separator and nothing is cut short. The dots of a host name are the one
separator that is allowed in a name: they become slashes, and the last two slashes
of the path still mark where the host ends.

One byte more has to be kept out of the names. To the writer they are C strings,
so a name with a NUL in it is written up to there, and two hosts that agree up to
their first NUL share their files.
-/

namespace CloudMon.Proof

open CloudMon Wp Words

/-! ## Numbers -/

/-- What `%f` keeps of a double: six decimals of a number, and anything else as it is. -/
def Near : Double → Double → Prop
  | .fin q, d => ∃ q', d.toRat? = some q' ∧ |q' - q| ≤ 1 / 2 / 10 ^ 6
  | d, d' => d' = d

theorem toRat_ofRat (neg : Bool) (q : ℚ) : (Double.ofRat neg q).toRat? = some q := by
  unfold Double.ofRat
  split
  · rename_i h
    subst h
    cases neg <;> rfl
  · rfl

theorem le_of_isNumChar {b : UInt8} (h : Decimal.isNumChar b = true) : b.toNat ≤ 57 := by
  simp only [Decimal.isNumChar, Bool.or_eq_true, beq_iff_eq, Decimal.isDigit_iff] at h
  rcases h with (h | h) | h
  · exact h.2
  · subst h; decide
  · subst h; decide

theorem lower_of_isNumChar {b : UInt8} (h : Decimal.isNumChar b = true) : lower b = b := by
  have hb := le_of_isNumChar h
  have h65 : ¬ (65 : UInt8) ≤ b := by
    rw [UInt8.le_iff_toNat_le]
    show ¬ 65 ≤ b.toNat
    omega
  simp [lower, h65]

/-- A written number is none of the special texts. -/
theorem floatSpecial_of_isNumChar {s : Bytes} (h : ∀ b ∈ s, Decimal.isNumChar b = true) :
    floatSpecial s = none := by
  -- a special text has a letter in it, with or without a sign before
  have hrest : ∀ r : Bytes, (∀ b ∈ r, Decimal.isNumChar b = true) →
      ¬ (r.map lower = bytes "inf" ∨ r.map lower = bytes "infinity") ∧
        r.map lower ≠ bytes "nan" := by
    intro r hr
    have hlower : r.map lower = r :=
      (List.map_congr_left fun b hb => lower_of_isNumChar (hr b hb)).trans (List.map_id r)
    rw [hlower]
    refine ⟨?_, ?_⟩
    · intro hinf
      rcases hinf with rfl | rfl
      · exact absurd (hr 105 (by decide)) (by decide)
      · exact absurd (hr 105 (by decide)) (by decide)
    · intro hnan
      subst hnan
      exact absurd (hr 110 (by decide)) (by decide)
  unfold floatSpecial
  split
  rename_i neg r hr
  have hsub : ∀ b ∈ r, Decimal.isNumChar b = true := by
    intro b hb
    refine h b ?_
    split at hr
    · cases hr; exact List.mem_cons_of_mem _ hb
    · cases hr; exact List.mem_cons_of_mem _ hb
    · cases hr; exact hb
  obtain ⟨hinf, hnan⟩ := hrest r hsub
  simp only [if_neg hinf, if_neg hnan]

theorem pyFloat_of_parse {s : Bytes} {q : ℚ} (h : ∀ b ∈ s, Decimal.isNumChar b = true)
    (hq : Decimal.parse s = some q) : pyFloat s = some (Double.ofRat (s.head? = some 45) q) := by
  rw [pyFloat, floatSpecial_of_isNumChar h, hq]
  rfl

/-- **Integers are read back exactly**, sign included. -/
theorem pyFloat_formatLld (v : Int64) : pyFloat (formatLld v) = some (.fin v.toInt) := by
  unfold formatLld
  generalize v.toInt = z
  rw [pyFloat_of_parse (Decimal.intText_isNumChar z) (Decimal.parse_intText z), Double.ofRat]
  by_cases hz : z = 0
  · subst hz; rfl
  · rw [if_neg (by exact_mod_cast hz)]

/-- **Doubles are read back to six decimals.** -/
theorem pyFloat_formatF (d : Double) : ∃ d', pyFloat (formatF d) = some d' ∧ Near d d' := by
  cases d with
  | fin q =>
      obtain ⟨q', hq', hnear⟩ := Decimal.parse_fixedText 6 q
      exact ⟨_, pyFloat_of_parse (Decimal.fixedText_isNumChar 6 q) hq', q', toRat_ofRat _ q', hnear⟩
  | negZero => exact ⟨.negZero, by decide +kernel, rfl⟩
  | inf neg => exact ⟨.inf neg, by cases neg <;> decide, rfl⟩
  | nan neg => exact ⟨.nan neg, by cases neg <;> decide, rfl⟩

/-! ## Words -/

/-- A known text is looked through byte by byte. -/
theorem noSpace_of_all {s : Bytes} (h : (s.all fun b => !isSpace b) = true) :
    ∀ b ∈ s, isSpace b = false := fun b hb => by simpa using List.all_eq_true.mp h b hb

theorem isSpace_of_isNumChar {b : UInt8} (h : Decimal.isNumChar b = true) : isSpace b = false := by
  by_contra hs
  rw [Bool.not_eq_false] at hs
  have hle : b.toNat ≤ 32 := by
    simp only [isSpace, Bool.or_eq_true, beq_iff_eq, Bool.and_eq_true, decide_eq_true_eq,
      UInt8.le_iff_toNat_le] at hs
    rcases hs with hs | hs
    · subst hs; decide
    · have h13 : b.toNat ≤ 13 := hs.2
      omega
  simp only [Decimal.isNumChar, Bool.or_eq_true, beq_iff_eq, Decimal.isDigit_iff] at h
  rcases h with (h | h) | h
  · omega
  · subst h; exact absurd hle (by decide)
  · subst h; exact absurd hle (by decide)

/-- Words joined by a blank are what `split` finds. -/
theorem split_join {ws : List Bytes} (h : ∀ w ∈ ws, IsWord isSpace w) :
    split ([32].intercalate ws) = ws := by
  rw [split, words_intercalate (by decide) h]

theorem isWord_of_isNumChar {s : Bytes} (hne : s ≠ [])
    (h : ∀ b ∈ s, Decimal.isNumChar b = true) : IsWord isSpace s :=
  ⟨hne, fun b hb => isSpace_of_isNumChar (h b hb)⟩

theorem isWord_formatLld (v : Int64) : IsWord isSpace (formatLld v) :=
  isWord_of_isNumChar (Decimal.intText_ne_nil _) (Decimal.intText_isNumChar _)

theorem isWord_formatF (d : Double) : IsWord isSpace (formatF d) := by
  cases d with
  | fin q =>
      exact isWord_of_isNumChar (Decimal.fixedText_ne_nil 6 q) (Decimal.fixedText_isNumChar 6 q)
  | negZero => exact ⟨by decide, noSpace_of_all (by decide)⟩
  | inf neg => cases neg <;> exact ⟨by decide, noSpace_of_all (by decide)⟩
  | nan neg => cases neg <;> exact ⟨by decide, noSpace_of_all (by decide)⟩

theorem isWord_valueText (metric : Metric) (dom : DomainStats) :
    IsWord isSpace (metric.valueText dom) := by
  cases metric with
  | cpu => exact isWord_formatF _
  | mem => exact isWord_formatF _
  | diskReadReq => exact isWord_formatLld _
  | diskWriteReq => exact isWord_formatLld _

/-! ## Names -/

/-- A host name as the lines can carry it. Dots are allowed. -/
structure PlainHost (host : Bytes) : Prop where
  ne_nil : host ≠ []
  noSpace : ∀ b ∈ host, isSpace b = false
  noSlash : (47 : UInt8) ∉ host

/-- A uuid as the lines can carry it, or anything else between two dots of a key. -/
structure PlainPart (part : Bytes) : Prop where
  ne_nil : part ≠ []
  noSpace : ∀ b ∈ part, isSpace b = false
  noDot : (46 : UInt8) ∉ part
  noSlash : (47 : UInt8) ∉ part

/-- The lines of an aggregate, each with what it is about. -/
def entries (agg : AggregateDomainStats) : List (DomainStats × Metric) :=
  agg.domainStats.flatMap fun dom => Metric.all.map fun metric => (dom, metric)

theorem getWhisperUpdates_eq (agg : AggregateDomainStats) :
    getWhisperUpdates agg = (entries agg).map fun e => whisperLine agg e.1 e.2 := by
  rw [getWhisperUpdates, entries, List.map_flatMap]
  simp only [List.map_map, Function.comp_def]

/-- An aggregate with plain names whose keys and lines fit the two buffers. -/
structure Plain (agg : AggregateDomainStats) : Prop where
  host : PlainHost agg.hostname
  uuids : ∀ dom ∈ agg.domainStats, PlainPart dom.domainUuid
  keys : ∀ e ∈ entries agg, (statKeyText agg.hostname e.1.domainUuid e.2).length ≤ 511
  lines : ∀ e ∈ entries agg, (whisperLineText agg e.1 e.2).length ≤ 1023

/-- No name of an aggregate ends early when it is taken as a C string. -/
structure NulFree (agg : AggregateDomainStats) : Prop where
  host : (0 : UInt8) ∉ agg.hostname
  uuids : ∀ dom ∈ agg.domainStats, (0 : UInt8) ∉ dom.domainUuid

theorem mem_domainStats_of_entry {agg : AggregateDomainStats} {e : DomainStats × Metric}
    (he : e ∈ entries agg) : e.1 ∈ agg.domainStats := by
  obtain ⟨dom, hdom, hmem⟩ := List.mem_flatMap.mp he
  obtain ⟨metric, -, rfl⟩ := List.mem_map.mp hmem
  exact hdom

theorem mem_entries {agg : AggregateDomainStats} {dom : DomainStats} (h : dom ∈ agg.domainStats)
    (metric : Metric) : (dom, metric) ∈ entries agg := by
  refine List.mem_flatMap.mpr ⟨dom, h, List.mem_map.mpr ⟨metric, ?_, rfl⟩⟩
  cases metric <;> decide

/-! ## Keys -/

theorem bytes_monitorServers :
    bytes "monitor.servers." = bytes "monitor" ++ 46 :: bytes "servers." := by decide

theorem bytes_serversSlash : bytes "servers/" = bytes "servers" ++ [47] := by decide

/-- The key of a metric, its names as they are. -/
def keyOf (host uuid : Bytes) (metric : Metric) : Bytes :=
  bytes "monitor" ++ 46 :: (bytes "servers." ++ (host ++ 46 :: (uuid ++ 46 :: metric.name)))

theorem keyOf_eq (host uuid : Bytes) (metric : Metric) : keyOf host uuid metric
    = bytes "monitor.servers." ++ (host ++ 46 :: (uuid ++ 46 :: metric.name)) := by
  rw [keyOf, bytes_monitorServers, List.append_assoc, List.cons_append]

theorem statKeyText_eq {host uuid : Bytes} (hhost : (0 : UInt8) ∉ host)
    (huuid : (0 : UInt8) ∉ uuid) (metric : Metric) :
    statKeyText host uuid metric = keyOf host uuid metric := by
  have hdot : bytes "." = [46] := by decide
  rw [statKeyText, keyOf_eq, cString_of_not_mem hhost, cString_of_not_mem huuid, hdot]
  simp only [List.append_assoc, List.cons_append, List.nil_append]

theorem monitor_isPrefixOf_keyOf (host uuid : Bytes) (metric : Metric) :
    (bytes "monitor").isPrefixOf (keyOf host uuid metric) = true :=
  List.isPrefixOf_iff_prefix.mpr (List.prefix_append ..)

theorem servers_isPrefixOf_keyOf (host uuid : Bytes) (metric : Metric) :
    (bytes "monitor.servers.").isPrefixOf (keyOf host uuid metric) = true := by
  rw [List.isPrefixOf_iff_prefix, keyOf_eq]
  exact List.prefix_append ..

/-- No metric's key is the other command: the two part at the first letter after the dot. -/
theorem keyOf_ne_termInstance (host uuid : Bytes) (metric : Metric) :
    keyOf host uuid metric ≠ bytes "monitor.term_instance" := by
  intro h
  have hstart := servers_isPrefixOf_keyOf host uuid metric
  rw [h] at hstart
  exact absurd hstart (by decide)

theorem plainPart_name (metric : Metric) : PlainPart metric.name := by
  cases metric <;> exact ⟨by decide, noSpace_of_all (by decide), by decide, by decide⟩

theorem name_noNul (metric : Metric) : (0 : UInt8) ∉ metric.name := by cases metric <;> decide

theorem name_injective {metric metric' : Metric} (h : metric.name = metric'.name) :
    metric = metric' := by
  cases metric <;> cases metric' <;> first | rfl | exact absurd h (by decide)

theorem isWord_keyOf {host uuid : Bytes} (hhost : ∀ b ∈ host, isSpace b = false)
    (huuid : ∀ b ∈ uuid, isSpace b = false) (metric : Metric) :
    IsWord isSpace (keyOf host uuid metric) := by
  refine ⟨by simp [keyOf], fun b hb => ?_⟩
  have hdot : isSpace 46 = false := by decide
  simp only [keyOf, List.mem_append, List.mem_cons] at hb
  rcases hb with hb | rfl | hb | hb | rfl | hb | rfl | hb
  · exact noSpace_of_all (s := bytes "monitor") (by decide) b hb
  · exact hdot
  · exact noSpace_of_all (s := bytes "servers.") (by decide) b hb
  · exact hhost b hb
  · exact hdot
  · exact huuid b hb
  · exact hdot
  · exact (plainPart_name metric).noSpace b hb

/-- The key with its first component off and its dots exchanged for slashes. -/
def relPath (host uuid : Bytes) (metric : Metric) : Bytes :=
  bytes "servers/" ++ (replace 46 47 host ++ 47 :: (uuid ++ 47 :: metric.name))

/-- **What the updater makes of any key of a server.** -/
theorem serversKey_path (t : Bytes) :
    [47].intercalate (((bytes "monitor.servers." ++ t).splitOn 46).drop 1)
      = bytes "servers/" ++ replace 46 47 t := by
  have hmonitor : (46 : UInt8) ∉ bytes "monitor" := by decide
  have hservers : replace 46 47 (bytes "servers.") = bytes "servers/" := by decide
  rw [bytes_monitorServers, List.append_assoc, List.cons_append,
    List.splitOn_append_cons_self_of_not_mem hmonitor, List.drop_one, List.tail_cons,
    intercalate_splitOn_replace, replace_append, hservers]

/-- What it makes of a metric's. -/
theorem keyOf_path {host uuid : Bytes} (huuid : PlainPart uuid) (metric : Metric) :
    [47].intercalate (((keyOf host uuid metric).splitOn 46).drop 1) = relPath host uuid metric := by
  rw [keyOf_eq, serversKey_path, relPath]
  simp only [replace_append, replace_cons_self, replace_of_not_mem huuid.noDot,
    replace_of_not_mem (plainPart_name metric).noDot]

/-! ## Paths -/

/-- A directory's name, ready for what comes below it. -/
def below (dir : Bytes) : Bytes :=
  if dir = [] ∨ dir.getLast? = some 47 then dir else dir ++ [47]

/-- `root/servers/<host, its dots slashes>/<uuid>/<metric>.wsp` -/
def metricPath (u : Updater) (host uuid : Bytes) (metric : Metric) : Bytes :=
  below u.root ++ relPath host uuid metric ++ bytes ".wsp"

/-- A path that does not start at the root goes below the directory. -/
theorem osPathJoin_eq {dir t : Bytes} (h : t.head? ≠ some 47) :
    osPathJoin dir t = below dir ++ t := by
  rw [osPathJoin, if_neg h, below]
  split
  · rfl
  · rw [List.append_assoc, List.singleton_append]

theorem osPathJoin_servers (dir t : Bytes) :
    osPathJoin dir (bytes "servers/" ++ t) = below dir ++ (bytes "servers/" ++ t) := by
  refine osPathJoin_eq ?_
  rw [List.head?_append_of_ne_nil _ (by decide)]
  decide

theorem metricPath_noNul {u : Updater} {host uuid : Bytes} (hhost : (0 : UInt8) ∉ host)
    (huuid : (0 : UInt8) ∉ uuid) (metric : Metric) :
    (0 : UInt8) ∉ metricPath u host uuid metric := by
  have hbelow : (0 : UInt8) ∉ below u.root := by
    unfold below
    split
    · exact u.noNul
    · intro h
      rcases List.mem_append.mp h with h | h
      · exact u.noNul h
      · exact absurd h (by decide)
  intro h
  simp only [metricPath, relPath, List.mem_append, List.mem_cons] at h
  rcases h with (h | h | h | h | h | h | h) | h
  · exact hbelow h
  · exact absurd h (by decide)
  · exact hhost (mem_of_mem_replace h (by decide))
  · exact absurd h (by decide)
  · exact huuid h
  · exact absurd h (by decide)
  · exact name_noNul metric h
  · exact absurd h (by decide)

/-- **The path determines the names.** Its last two slashes end the host and the uuid. -/
theorem metricPath_injective {u : Updater} {host host' uuid uuid' : Bytes}
    {metric metric' : Metric} (hhost : PlainHost host) (hhost' : PlainHost host')
    (huuid : PlainPart uuid) (huuid' : PlainPart uuid')
    (h : metricPath u host uuid metric = metricPath u host' uuid' metric') :
    host = host' ∧ uuid = uuid' ∧ metric = metric' := by
  -- the root and the suffix are the same; what is between comes apart from the end
  have hrel : relPath host uuid metric = relPath host' uuid' metric' :=
    List.append_cancel_left (List.append_cancel_right h)
  have hrest := List.append_cancel_left hrel
  rw [← List.cons_append, ← List.cons_append, ← List.append_assoc, ← List.append_assoc] at hrest
  obtain ⟨hnames, hmetric⟩ := append_cons_inj_of_last (plainPart_name metric).noSlash
    (plainPart_name metric').noSlash hrest
  obtain ⟨hreplace, hu⟩ := append_cons_inj_of_last huuid.noSlash huuid'.noSlash hnames
  exact ⟨replace_inj hhost.noSlash hhost'.noSlash hreplace, hu, name_injective hmetric⟩

/-! ## One line -/

section

variable {φ : Type} {st : Storage φ}

/-- An exception that came from outside: from whisper, or from a directory that cannot be made. -/
inductive Foreign (st : Storage φ) : PyError → Prop
  | whisper : Foreign st .whisperException
  | makedirs {dir : Bytes} {w : φ} {errno : Nat} (h : (st.makedirs dir w).1 = some errno)
      (hne : errno ≠ eexist) : Foreign st (.osError errno)

@[simp] theorem wp_call {α : Type} {f : φ → α × φ} {s : Session φ} {Q : α → Session φ → Prop}
    {E : PyError → Session φ → Prop} :
    wp (call f) s Q E ↔ Q (f s.world).1 { s with world := (f s.world).2 } := Iff.rfl

/-- A call into whisper leaves the trail alone, whether it raises or not. -/
theorem whisperCall_spec (f : φ → Bool × φ) (s : Session φ) :
    wp (whisperCall f) s (fun _ s' => s'.effects = s.effects)
      (fun e s' => Foreign st e ∧ s'.effects = s.effects) := by
  rw [whisperCall, wp_bind, wp_call, wp_ite]
  exact ⟨fun _ => ⟨.whisper, rfl⟩, fun _ => rfl⟩

theorem mkdirs_spec (path : Bytes) (s : Session φ) :
    wp (mkdirs st path) s (fun _ s' => s'.effects = s.effects)
      (fun e s' => Foreign st e ∧ s'.effects = s.effects) := by
  rw [mkdirs, wp_bind, wp_call]
  cases herrno : (st.makedirs path s.world).1 with
  | none => rfl
  | some errno =>
      dsimp only
      rw [wp_ite]
      exact ⟨fun hne => ⟨.makedirs herrno hne, rfl⟩, fun _ => rfl⟩

/-- Making a database is no update, whether it succeeds or not. -/
theorem createDatabase_spec (metric : Bytes) (s : Session φ) :
    wp (Updater.createDatabase st metric) s (fun _ s' => s'.updates = s.updates)
      (fun e s' => Foreign st e ∧ s'.updates = s.updates) := by
  unfold Updater.createDatabase
  simp only [wp_bind, emit, wp_modify]
  refine wp_mono (mkdirs_spec _ s) (fun _ t ht => ?_) (fun e t ht => ⟨ht.1, ?_⟩)
  · have hcreate : Session.updates ⟨t.world, t.effects
        ++ [.whisperCreate metric [(metricSecPerPoint, metricPointsToStore)]]⟩ = s.updates := by
      simp [Session.updates, ht]
    refine wp_mono (whisperCall_spec _ _) (fun _ s' hs' => ?_) (fun e s' hs' => ⟨hs'.1, ?_⟩)
    · rw [← hcreate, Session.updates, hs']; rfl
    · rw [← hcreate, Session.updates, hs'.2]; rfl
  · rw [Session.updates, ht.2]; rfl

/-- What an update leaves that was cut short: its call of whisper was made, or not. -/
def AtMostOneMore (s s' : Session φ) (call : WhisperUpdate) : Prop :=
  s'.updates = s.updates ∨ s'.updates = s.updates ++ [call]

/-- The end of `update`, once the line's two numbers are known. -/
theorem record_spec {data : List Bytes} {text time path : Bytes} {value timestamp : Double}
    (hdata : data = [text, time]) (hvalue : pyFloat text = some value)
    (htime : pyFloat time = some timestamp) {s t : Session φ} (ht : t.updates = s.updates) :
    wp (do
        let value ← float (← item data 0)
        let timestamp ← float (← item data 1)
        emit (.whisperUpdate ⟨path, value, timestamp⟩)
        whisperCall (st.update ⟨path, value, timestamp⟩)) t
      (fun _ s' => s'.updates = s.updates ++ [⟨path, value, timestamp⟩])
      (fun e s' => Foreign st e ∧ AtMostOneMore s s' ⟨path, value, timestamp⟩) := by
  subst hdata
  simp only [item, float, wp_bind, List.getElem?_cons_zero, List.getElem?_cons_succ, wp_pure,
    hvalue, htime, emit, wp_modify]
  have hcall : Session.updates ⟨t.world, t.effects ++ [.whisperUpdate ⟨path, value, timestamp⟩]⟩
      = s.updates ++ [⟨path, value, timestamp⟩] := by
    rw [← ht]
    simp [Session.updates]
  refine wp_mono (whisperCall_spec _ _) (fun _ s' hs' => ?_) (fun e s' hs' => ⟨hs'.1, Or.inr ?_⟩)
  · rw [← hcall, Session.updates, hs']; rfl
  · rw [← hcall, Session.updates, hs'.2]; rfl

/-- **One update** is a single call of whisper, whatever the storage answers. -/
theorem update_spec {u : Updater} {metric dataline path text time : Bytes}
    {value timestamp : Double} (hpath : osPathJoin u.root metric ++ bytes ".wsp" = path)
    (hnul : (0 : UInt8) ∉ path) (hdata : split dataline = [text, time])
    (hvalue : pyFloat text = some value) (htime : pyFloat time = some timestamp)
    (s : Session φ) :
    wp (u.update st metric dataline) s
      (fun _ s' => s'.updates = s.updates ++ [⟨path, value, timestamp⟩])
      (fun e s' => Foreign st e ∧ AtMostOneMore s s' ⟨path, value, timestamp⟩) := by
  unfold Updater.update
  simp only [hpath, osPathExists, if_neg hnul]
  rw [wp_bind, wp_call, wp_ite]
  refine ⟨fun _ => ?_, fun _ => record_spec hdata hvalue htime rfl⟩
  -- no file yet: one is made first, which is no update
  rw [wp_bind]
  exact wp_mono (createDatabase_spec path _) (fun _ t ht => record_spec hdata hvalue htime ht)
    fun e t ht => ⟨ht.1, Or.inl ht.2⟩

/-- A value as it comes back: counters exactly, percentages to six decimals. -/
def Recovered : Metric → DomainStats → Double → Prop
  | .cpu, dom, v => Near dom.cpuUtilizationPct v
  | .mem, dom, v => Near dom.memUtilizationPct v
  | .diskReadReq, dom, v => v = .fin dom.diskReadReq.toInt
  | .diskWriteReq, dom, v => v = .fin dom.diskWriteReq.toInt

/-- A call of whisper that is the line of an entry, arrived. -/
structure Arrives (u : Updater) (agg : AggregateDomainStats) (e : DomainStats × Metric)
    (call : WhisperUpdate) : Prop where
  path : call.path = metricPath u agg.hostname e.1.domainUuid e.2
  value : Recovered e.2 e.1 call.value
  timestamp : Near agg.tov call.timestamp

theorem pyFloat_valueText (metric : Metric) (dom : DomainStats) :
    ∃ v, pyFloat (metric.valueText dom) = some v ∧ Recovered metric dom v := by
  cases metric with
  | cpu => exact pyFloat_formatF _
  | mem => exact pyFloat_formatF _
  | diskReadReq => exact ⟨_, pyFloat_formatLld _, rfl⟩
  | diskWriteReq => exact ⟨_, pyFloat_formatLld _, rfl⟩

/-- A line that is not cut short is its three words. -/
theorem whisperLine_eq {agg : AggregateDomainStats} (h : Plain agg) (hnul : NulFree agg)
    {e : DomainStats × Metric} (he : e ∈ entries agg) :
    whisperLine agg e.1 e.2
      = [32].intercalate [keyOf agg.hostname e.1.domainUuid e.2, e.2.valueText e.1,
          formatF agg.tov] := by
  have hspace : bytes " " = [32] := by decide
  have hkey := statKeyText_eq hnul.host (hnul.uuids _ (mem_domainStats_of_entry he)) e.2
  rw [whisperLine, snprintf_of_fits (h.lines e he), whisperLineText, statKey,
    snprintf_of_fits (h.keys e he), hkey, hspace, List.intercalate_cons_cons,
    List.intercalate_cons_cons, List.intercalate_singleton]
  simp only [List.append_assoc]

/-- The updater finds the words again. -/
theorem split_whisperLine {agg : AggregateDomainStats} (h : Plain agg) (hnul : NulFree agg)
    {e : DomainStats × Metric} (he : e ∈ entries agg) :
    split (whisperLine agg e.1 e.2)
      = [keyOf agg.hostname e.1.domainUuid e.2, e.2.valueText e.1, formatF agg.tov] := by
  rw [whisperLine_eq h hnul he]
  refine split_join fun w hw => ?_
  simp only [List.mem_cons, List.not_mem_nil, or_false] at hw
  rcases hw with rfl | rfl | rfl
  · exact isWord_keyOf h.host.noSpace (h.uuids _ (mem_domainStats_of_entry he)).noSpace e.2
  · exact isWord_valueText e.2 e.1
  · exact isWord_formatF agg.tov

/-- And again in what is left of the line behind its key. -/
theorem split_data (agg : AggregateDomainStats) (e : DomainStats × Metric) :
    split ([32].intercalate [e.2.valueText e.1, formatF agg.tov])
      = [e.2.valueText e.1, formatF agg.tov] := by
  refine split_join fun w hw => ?_
  rcases List.mem_pair.mp hw with rfl | rfl
  · exact isWord_valueText e.2 e.1
  · exact isWord_formatF agg.tov

/-- A line of three words with a metric's key is an update. -/
theorem processCmd_eq (u : Updater) {line host uuid text time : Bytes} {metric : Metric}
    (huuid : PlainPart uuid) (hline : split line = [keyOf host uuid metric, text, time]) :
    u.processCmd st line
      = u.update st (relPath host uuid metric) ([32].intercalate [text, time]) := by
  unfold Updater.processCmd
  -- it is no other command, so the third branch is taken
  simp only [hline, item, List.getElem?_cons_zero, pure_bind]
  rw [monitor_isPrefixOf_keyOf, servers_isPrefixOf_keyOf, if_neg (by decide),
    if_neg (keyOf_ne_termInstance _ _ _), if_pos rfl, keyOf_path huuid, List.drop_one,
    List.tail_cons]

/-- A call that is an entry's line, arrived, at the very time that was written. -/
structure Recorded (u : Updater) (agg : AggregateDomainStats) (e : DomainStats × Metric)
    (call : WhisperUpdate) : Prop extends Arrives u agg e call where
  written : pyFloat (formatF agg.tov) = some call.timestamp

/-- **One line**: it becomes one call of whisper, with what the line was written from. -/
theorem processCmd_records (u : Updater) {agg : AggregateDomainStats} (h : Plain agg)
    (hnul : NulFree agg) {e : DomainStats × Metric} (he : e ∈ entries agg) (s : Session φ) :
    wp (u.processCmd st (whisperLine agg e.1 e.2)) s
      (fun _ s' => ∃ call, Recorded u agg e call ∧ s'.updates = s.updates ++ [call])
      (fun err s' => Foreign st err ∧ ∃ call, Recorded u agg e call ∧ AtMostOneMore s s' call) := by
  have hdom := mem_domainStats_of_entry he
  rw [processCmd_eq u (h.uuids _ hdom) (split_whisperLine h hnul he)]
  obtain ⟨value, hvalue, hrecovered⟩ := pyFloat_valueText e.2 e.1
  obtain ⟨timestamp, htime, hnear⟩ := pyFloat_formatF agg.tov
  have hpath : osPathJoin u.root (relPath agg.hostname e.1.domainUuid e.2) ++ bytes ".wsp"
      = metricPath u agg.hostname e.1.domainUuid e.2 := by
    rw [relPath, osPathJoin_servers, metricPath, relPath]
  have hfree := metricPath_noNul (u := u) hnul.host (hnul.uuids _ hdom) e.2
  have hrecords : Recorded u agg e
      ⟨metricPath u agg.hostname e.1.domainUuid e.2, value, timestamp⟩ :=
    ⟨⟨rfl, hrecovered, hnear⟩, htime⟩
  exact wp_mono (update_spec hpath hfree (split_data agg e) hvalue htime s)
    (fun _ s' hs' => ⟨_, hrecords, hs'⟩) fun err s' hs' => ⟨hs'.1, _, hrecords, hs'.2⟩

theorem processCmd_spec (u : Updater) {agg : AggregateDomainStats} (h : Plain agg)
    (hnul : NulFree agg) {e : DomainStats × Metric} (he : e ∈ entries agg) (s : Session φ) :
    wp (u.processCmd st (whisperLine agg e.1 e.2)) s
      (fun _ s' => ∃ call, Arrives u agg e call ∧ s'.updates = s.updates ++ [call])
      (fun err s' => Foreign st err ∧ ∃ call, Arrives u agg e call ∧ AtMostOneMore s s' call) := by
  refine wp_mono (processCmd_records u h hnul he s) ?_ ?_
  · rintro _ s' ⟨call, hcall, hs'⟩
    exact ⟨call, hcall.toArrives, hs'⟩
  · rintro err s' ⟨hforeign, call, hcall, hs'⟩
    exact ⟨hforeign, call, hcall.toArrives, hs'⟩

/-! ## All lines -/

/--
**The writer and the updater agree.** Each line becomes one call of whisper, in
order, on the file and with the numbers it was written from. Only an exception from
outside can end this early, and then the calls made are those of the first lines.
No two files are the same for different names.
-/
theorem metricLines_arrive (u : Updater) (st : Storage φ) {agg : AggregateDomainStats}
    (h : Plain agg) (hnul : NulFree agg) (w : φ) :
    wp (u.processCmds st (getWhisperUpdates agg)) ⟨w, []⟩
        (fun _ s => List.Forall₂ (Arrives u agg) (entries agg) s.updates)
        (fun err s => Foreign st err ∧
          ∃ done, done <+: entries agg ∧ List.Forall₂ (Arrives u agg) done s.updates) ∧
      ∀ host uuid metric host' uuid' metric', PlainHost host → PlainPart uuid →
        PlainHost host' → PlainPart uuid' →
        metricPath u host uuid metric = metricPath u host' uuid' metric' →
        host = host' ∧ uuid = uuid' ∧ metric = metric' := by
  refine ⟨?_, fun host uuid metric host' uuid' metric' hhost huuid hhost' huuid' heq =>
    metricPath_injective hhost hhost' huuid huuid' heq⟩
  rw [Updater.processCmds, getWhisperUpdates_eq, List.forM_eq_forM, List.forM_map,
    ← List.forM_eq_forM]
  refine wp_forM (fun done (s : Session φ) => List.Forall₂ (Arrives u agg) done s.updates) ?_ .nil
  intro done e todo s hsplit hdone
  have he : e ∈ entries agg := hsplit ▸ List.mem_append_right _ (List.mem_cons_self ..)
  have hnext : ∀ {call} {s' : Session φ}, Arrives u agg e call → s'.updates = s.updates ++ [call] →
      List.Forall₂ (Arrives u agg) (done ++ [e]) s'.updates := by
    intro call s' hcall hs'
    rw [hs']
    exact List.rel_append hdone (.cons hcall .nil)
  refine wp_mono (processCmd_spec u h hnul he s) ?_ ?_
  · intro _ s' hs'
    obtain ⟨call, hcall, hs'⟩ := hs'
    exact hnext hcall hs'
  · intro err s' hs'
    rcases hs' with ⟨hforeign, call, hcall, hs' | hs'⟩
    -- the exception came before this line's call, or out of it
    · exact ⟨hforeign, done, ⟨e :: todo, hsplit.symm⟩, hs' ▸ hdone⟩
    · exact ⟨hforeign, done ++ [e], ⟨todo, by rw [hsplit, List.append_assoc]; rfl⟩,
        hnext hcall hs'⟩

end

/-! ## A host with dots, and one with a NUL -/

/-- A disk with nothing on it, where everything can be made. -/
def emptyDisk : Storage Unit where
  pathExists _ w := (false, w)
  makedirs _ w := (none, w)
  create _ _ w := (true, w)
  update _ w := (true, w)

/-- A disk where no directory can be made. -/
def readOnlyDisk : Storage Unit := { emptyDisk with makedirs := fun _ w => (some 30, w) }

/-- An updater that writes below `/data`. -/
def dataUpdater : Updater := ⟨bytes "/data", by decide⟩

example : metricPath dataUpdater (bytes "a.b") (bytes "u-1") .cpu
    = bytes "/data/servers/a/b/u-1/cpu.wsp" := by decide

/-- One domain of a host. -/
def aggregateOf (host : Bytes) : AggregateDomainStats where
  tov := .fin (3 / 2)
  hostname := host
  domainStats := [
    { domainUuid := bytes "u-1"
      cpuUtilizationPct := .fin (1 / 3)
      diskReadReq := -5 }]

theorem plain_dottedHost : Plain (aggregateOf (bytes "a.b")) where
  host := ⟨by decide, noSpace_of_all (by decide), by decide⟩
  uuids := fun _ hdom => List.mem_singleton.mp hdom ▸
    ⟨by decide, noSpace_of_all (by decide), by decide, by decide⟩
  keys := by decide +kernel
  lines := by decide +kernel

theorem plain_nulHost : Plain (aggregateOf [97, 0, 98]) where
  host := ⟨by decide, noSpace_of_all (by decide), by decide⟩
  uuids := fun _ hdom => List.mem_singleton.mp hdom ▸
    ⟨by decide, noSpace_of_all (by decide), by decide, by decide⟩
  keys := by decide +kernel
  lines := by decide +kernel

theorem nulFree_dottedHost : NulFree (aggregateOf (bytes "a.b")) :=
  ⟨by decide, fun _ hdom => List.mem_singleton.mp hdom ▸ by decide⟩

/-- A host with a dot in its name, on a disk that still has to make every file. -/
theorem metricLines_arrive_dottedHost :
    wp (dataUpdater.processCmds emptyDisk (getWhisperUpdates (aggregateOf (bytes "a.b")))) ⟨(), []⟩
      (fun _ s => List.Forall₂ (Arrives dataUpdater (aggregateOf (bytes "a.b")))
        (entries (aggregateOf (bytes "a.b"))) s.updates)
      (fun err _ => Foreign emptyDisk err) :=
  wp_mono (metricLines_arrive dataUpdater emptyDisk plain_dottedHost nulFree_dottedHost ()).1
    (fun _ _ h => h) fun _ _ h => h.1

/--
The domain of a host with a NUL in its name is written to a file of another host,
and a disk that makes no directories ends the updater before whisper is called.
-/
theorem metricLines_not_arrive :
    (Plain (aggregateOf [97, 0, 98]) ∧
      ¬ wp (dataUpdater.processCmds emptyDisk (getWhisperUpdates (aggregateOf [97, 0, 98])))
        ⟨(), []⟩
        (fun _ s => List.Forall₂ (Arrives dataUpdater (aggregateOf [97, 0, 98]))
          (entries (aggregateOf [97, 0, 98])) s.updates)
        (fun _ _ => True)) ∧
      Plain (aggregateOf (bytes "a.b")) ∧
      wp (dataUpdater.processCmds readOnlyDisk (getWhisperUpdates (aggregateOf (bytes "a.b"))))
        ⟨(), []⟩ (fun _ _ => False) (fun err s => err = .osError 30 ∧ s.effects = []) := by
  refine ⟨⟨plain_nulHost, ?_⟩, plain_dottedHost, by decide +kernel⟩
  have hpaths : wp (dataUpdater.processCmds emptyDisk
      (getWhisperUpdates (aggregateOf [97, 0, 98]))) ⟨(), []⟩
      (fun _ s => (s.updates.map WhisperUpdate.path).head?
        ≠ some (metricPath dataUpdater [97, 0, 98] (bytes "u-1") .cpu)) (fun _ _ => False) := by
    decide +kernel
  refine wp_not.mp (wp_mono hpaths (fun _ s hs hall => hs ?_) fun _ _ h => h.elim)
  obtain ⟨call, calls, hfirst, -, hupdates⟩ := List.forall₂_cons_left_iff.mp hall
  rw [hupdates]
  exact congrArg some hfirst.path

end CloudMon.Proof
