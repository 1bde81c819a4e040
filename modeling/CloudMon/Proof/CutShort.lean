import CloudMon.Collector.Pipe
import CloudMon.Proof.Collected
import CloudMon.Proof.Injection

/-!
# What a killed collector leaves

The updater reads its input to the end, whether or not there was to be more. When the
collector is killed that end is wherever the stream's buffer happened to be cut, and the
last line may be a piece of one.

The buffer holds terminations only. Each line of an aggregate is flushed, together with
what was waiting before it, so between two messages no reading is missing; and a piece of
a termination is never taken for an update, as it starts no other way than a termination
does. So the files on disk are what they would be had the collector shut down in order.
-/

namespace CloudMon.Proof

open CloudMon Wp Words Pipeline

/-! ## The lines tell the calls -/

/-- The lines the proxy flushes. -/
def flushed (line : Bytes) : Bool := serversPrefix.isPrefixOf line

/-- The calls that write some lines. -/
def stdio (lines : List Bytes) : List StdioCall := Buffered.records flushed (· ++ [10]) lines

theorem text_stdio (lines : List Bytes) : Buffered.text (stdio lines) = piped lines :=
  Buffered.text_records lines

theorem stdio_append (lines more : List Bytes) :
    stdio (lines ++ more) = stdio lines ++ stdio more := Buffered.records_append lines more

theorem flushed_whisperLine (agg : AggregateDomainStats) (dom : DomainStats) (metric : Metric) :
    flushed (whisperLine agg dom metric) = true := by
  have hkey : serversPrefix <+: statKey agg.hostname dom.domainUuid metric := by
    rw [statKey, snprintf, List.prefix_take_iff, statKeyText, List.append_assoc, List.append_assoc,
      List.append_assoc]
    exact ⟨List.prefix_append _ _, by decide⟩
  rw [flushed, List.isPrefixOf_iff_prefix, whisperLine, snprintf, List.prefix_take_iff,
    whisperLineText, List.append_assoc, List.append_assoc, List.append_assoc]
  exact ⟨hkey.trans (List.prefix_append _ _), by decide⟩

section Calls

variable {ο : Type}

theorem proxyCalls_eq (mp : Msgpack ο) (next : Message) :
    proxyCalls mp next = (proxyLines mp next).map stdio := by
  unfold proxyCalls proxyLines
  cases mp.unpack next.data with
  | none => rfl
  | some msg =>
      rw [Option.bind_some, Option.bind_some, updateImmediateCalls, updateImmediate]
      split
      · rename_i hkey
        rw [Option.map_map, hkey]
        rfl
      · rw [Option.map_map]
        refine congrArg (Option.map · _) (funext fun agg => ?_)
        rw [Function.comp_apply, stdio, Buffered.records]
        refine List.flatMap_congr fun line hline => ?_
        rw [getWhisperUpdates_eq] at hline
        obtain ⟨e, _, rfl⟩ := List.mem_map.mp hline
        rw [Buffered.record, flushed_whisperLine, if_pos rfl,
          cString_of_not_mem (whisperLine_noNul agg e.1 e.2)]

/-- **A turn's calls write the turn's lines.** -/
theorem turnCalls_eq (mp : Msgpack ο) (role : Role) (upper : UInt32) (r : Receiver)
    (arrived : List Frame) : turnCalls mp role upper r arrived
      = stdio (r.turn mp role upper arrived).lines := by
  unfold turnCalls Receiver.turn
  split
  · rfl
  · cases Message.receive upper (r.pending ++ arrived) with
    | blocked => rfl
    | aborted => rfl
    | message next rest =>
        cases role with
        | intermediateReceiver => rfl
        | basicReceiver => rfl
        | whisperProxy =>
            simp only [proxyCalls_eq, loopBody]
            cases proxyLines mp next with
            | none => rfl
            | some lines => rfl

end Calls

variable {μ ο δ φ : Type} [DecidableEq μ] {net : Network μ ο} {gethostname : μ → Option Bytes}
  {tov : μ → Double} {s : System μ δ} {cs : List StdioCall}

/-- **The calls of a run** are those that write its lines. -/
theorem stdio_of_piped (h : PipedRuns net gethostname tov s cs) :
    Runs net gethostname tov s ∧ cs = stdio (s.written.map Prod.snd) := by
  induction h with
  | init => exact ⟨.init, rfl⟩
  | @update s s' cs _ hupdate ih =>
      refine ⟨ih.1.update hupdate, ih.2.trans ?_⟩
      cases hupdate with
      | returned => rfl
      | threw => rfl
  | @turn s cs sender m frames rest upper _ hlink halive ih =>
      refine ⟨ih.1.deliver (.turn sender m frames rest upper hlink halive), ?_⟩
      rw [ih.2, turnCalls_eq, ← stdio_append]
      refine congrArg _ ?_
      rw [System.afterTurn, List.map_append, List.map_map]
      exact congrArg _ (List.map_id _).symm

theorem exists_piped (h : Runs net gethostname tov s) :
    ∃ cs, PipedRuns net gethostname tov s cs := by
  induction h with
  | init => exact ⟨_, .init⟩
  | update _ hupdate ih =>
      obtain ⟨cs, hcs⟩ := ih
      exact ⟨cs, hcs.update hupdate⟩
  | deliver _ hdeliver ih =>
      obtain ⟨cs, hcs⟩ := ih
      cases hdeliver with
      | turn sender m frames rest upper hlink halive =>
          exact ⟨_, .turn sender m frames rest upper hcs hlink halive⟩

omit [DecidableEq μ] in
/-- What waits of some lines while the calls that write them are made. -/
theorem waiting_of_stdio {lines : List Bytes} {made : List StdioCall} (hmade : made <+: stdio lines)
    {f : Buffered.Stream UInt8} (hf : Buffered.After made f) :
    ∃ done late part, done ++ late <+: lines ∧ f.handed = piped done ++ part
      ∧ part ++ f.kept = piped late ∧ (∀ line ∈ late.dropLast, flushed line = false)
      ∧ (made = stdio lines → done ++ late = lines ∧ ∀ line ∈ late, flushed line = false) := by
  by_cases hall : made = stdio lines
  · obtain ⟨done, late, hlines, hlate, hpending⟩ :=
      Buffered.pending_records flushed (· ++ [10]) lines
    have htext : Buffered.text made = piped done ++ piped late := by
      rw [hall, text_stdio, hlines, piped, List.flatMap_append]
      rfl
    obtain ⟨part, hpart, hrest⟩ := hf.cut htext (hall ▸ hpending)
    exact ⟨done, late, part, hlines ▸ List.prefix_rfl, hpart, hrest,
      fun line hline => hlate line (List.mem_of_mem_dropLast hline), fun _ => ⟨hlines.symm, hlate⟩⟩
  · obtain ⟨done, late, hlines, hlate, htext, hpending⟩ := Buffered.pending_prefix hmade
    obtain ⟨part, hpart, hrest⟩ := hf.cut htext hpending
    exact ⟨done, late, part, hlines, hpart, hrest, hlate, fun heq => absurd heq hall⟩

/--
**Only terminations wait.** At any moment of any run, also between the calls for one
message, the pipe has all lines written but some at the end, with at most a piece of
these, and none of them is a metric's unless it is the very last one, which is being
written. Between two messages none is at all.
-/
theorem waiting_of_runs (net : Network μ ο) (gethostname : μ → Option Bytes) (tov : μ → Double)
    (s : System μ δ) (cs made : List StdioCall) (h : PipedRuns net gethostname tov s cs)
    (hmade : made <+: cs) (f : Buffered.Stream UInt8) (hf : Buffered.After made f) :
    ∃ done late part, done ++ late <+: s.written.map Prod.snd ∧ f.handed = piped done ++ part
      ∧ part ++ f.kept = piped late ∧ (∀ line ∈ late.dropLast, flushed line = false)
      ∧ (made = cs → done ++ late = s.written.map Prod.snd ∧ ∀ line ∈ late, flushed line = false)
      := by
  obtain ⟨_, rfl⟩ := stdio_of_piped h
  exact waiting_of_stdio hmade hf

/-! ## A piece of a line -/

theorem inputLines_piece {piece : Bytes} (h : (10 : UInt8) ∉ piece) :
    inputLines piece = if piece = [] then [] else [piece] := by
  induction piece with
  | nil => rfl
  | cons b piece ih =>
      rw [List.mem_cons, not_or] at h
      rw [inputLines, if_neg (fun hb => h.1 hb.symm), ih h.2, if_neg (List.cons_ne_nil _ _)]
      by_cases hnil : piece = []
      · rw [if_pos hnil, hnil]
      · rw [if_neg hnil]

theorem inputLines_piped_append (lines : List Bytes) (rest : Bytes) :
    inputLines (piped lines ++ rest) = inputLines (piped lines) ++ inputLines rest := by
  induction lines with
  | nil => rfl
  | cons line lines ih =>
      have hline : ∀ more : Bytes, piped (line :: lines) ++ more
          = line ++ 10 :: (piped lines ++ more) := by
        intro more
        rw [piped, List.flatMap_cons, List.append_assoc, List.append_assoc, List.singleton_append]
        rfl
      have hcut := hline []
      rw [List.append_nil, List.append_nil] at hcut
      rw [hline, hcut, inputLines_append, inputLines_append line (piped lines), ih,
        List.append_assoc]

theorem processCmd_strip (u : Updater) (st : Storage φ) (line : Bytes) :
    u.processCmd st (strip line) = u.processCmd st line := by
  rw [Updater.processCmd_eq, Updater.processCmd_eq, command_strip]

/-- Behind whole lines the loop goes on with the rest. -/
theorem mainLoop_append (u : Updater) (st : Storage φ) (lines : List Bytes) (rest : Bytes) :
    u.mainLoop st (piped lines ++ rest) = (do
      u.mainLoop st (piped lines)
      u.mainLoop st rest) := by
  rw [Updater.mainLoop, inputLines_piped_append, List.forM_eq_forM, List.forM_append]
  rfl

/-- At the end of its input the loop takes what is there for a line. -/
theorem mainLoop_torn (u : Updater) (st : Storage φ) (lines : List Bytes) {piece : Bytes}
    (hpiece : (10 : UInt8) ∉ piece) : u.mainLoop st (piped lines ++ piece) = (do
      u.mainLoop st (piped lines)
      if piece = [] then pure ⟨⟩ else u.processCmd st piece) := by
  rw [mainLoop_append]
  refine congrArg _ (funext fun _ => ?_)
  rw [Updater.mainLoop, inputLines_piece hpiece]
  split
  · rfl
  · rw [List.forM_eq_forM, List.forM_cons, List.forM_nil, processCmd_strip]
    exact bind_pure_unit

/-- **A piece of a termination's line** is a termination, or nothing. -/
theorem command_piece {ident piece : Bytes} (hident : IsWord isSpace ident) (hne : piece ≠ [])
    (h : piece <+: (Item.ended ident).line) :
    command piece = some .ignored
      ∨ ∃ cut, cut <+: ident ∧ command piece = some (.terminate cut) := by
  have hterm : IsWord isSpace termInstance := ⟨by decide, noSpace_of_all (by decide)⟩
  have hbare : command termInstance = some (.terminate []) := by decide +kernel
  have hline : (Item.ended ident).line = termInstance ++ 32 :: ident := by
    rw [Item.line, List.append_assoc]
    rfl
  rw [hline] at h
  rcases List.prefix_or_prefix_of_prefix h (List.prefix_append _ _) with hkey | ⟨more, rfl⟩
  · -- a piece of the key
    have hsplit : split piece = [piece] := by
      rw [split, words_word ⟨hne, fun b hb => hterm.2 b (hkey.subset hb)⟩]
    have hnot : (bytes "monitor.servers.").isPrefixOf piece = false := by
      refine Bool.eq_false_iff.mpr fun hservers => ?_
      exact absurd ((List.isPrefixOf_iff_prefix.mp hservers).trans hkey) (by decide)
    unfold command
    simp only [hsplit, hnot]
    split
    · exact Or.inl rfl
    · split
      · exact Or.inr ⟨[], List.nil_prefix, rfl⟩
      · exact Or.inl rfl
  · rw [List.prefix_append_right_inj] at h
    refine Or.inr ?_
    cases more with
    | nil =>
        refine ⟨[], List.nil_prefix, ?_⟩
        rw [List.append_nil]
        exact hbare
    | cons b cut =>
        obtain ⟨rfl, hcut⟩ := List.cons_prefix_cons.mp h
        refine ⟨cut, hcut, ?_⟩
        by_cases hnil : cut = []
        · rw [hnil, command, split, words_concat_space _ (by decide), ← split, ← command]
          exact hbare
        · have hword : IsWord isSpace cut := ⟨hnil, fun b hb => hident.2 b (hcut.subset hb)⟩
          rw [← command_ended hword, Item.line, List.append_assoc]
          rfl

/-! ## The updater on what is left -/

/-- Nothing, or the beginning of the line of the end that comes next. -/
def PieceOf (next : Option Bytes) (piece : Bytes) : Prop :=
  piece = [] ∨ ∃ ident, next = some ident ∧ piece <+: (Item.ended ident).line

/-- No piece of a line has a newline in it. -/
theorem PieceOf.noNewline {next : Option Bytes} {piece : Bytes} (h : PieceOf next piece)
    (hnext : ∀ ident, next = some ident → IsWord isSpace ident) : (10 : UInt8) ∉ piece := by
  rcases h with rfl | ⟨ident, hident, hsub⟩
  · exact List.not_mem_nil
  · exact fun hmem => Item.Legible.noNewline (z := .ended ident) (hnext ident hident)
      (hsub.subset hmem)

/-- All that the updater has done is what some items asked for, but for a text it may have
printed of the end that comes next. -/
structure ObeyedTorn (u : Updater) (zs : List Item) (next : Option Bytes) (s : Session φ) :
    Prop where
  updates : Follows u (zs.filterMap Item.reading?) s.updates
  printed : ∃ torn, s.printed = (zs.filterMap Item.ended?).map terminationText ++ torn
    ∧ (torn = [] ∨ ∃ ident cut, next = some ident ∧ cut <+: ident ∧ torn = [terminationText cut])

theorem Obeyed.torn {u : Updater} {zs : List Item} {s : Session φ} (h : Obeyed u zs s)
    (next : Option Bytes) : ObeyedTorn u zs next s :=
  ⟨h.updates, [], h.printed.trans (List.append_nil _).symm, Or.inl rfl⟩

/-- **Lines, and a piece of one**: the lines are obeyed, and the piece asks for no update. -/
theorem wp_mainLoop_torn (u : Updater) (st : Storage φ) {zs : List Item} {next : Option Bytes}
    {piece : Bytes} (h : ∀ z ∈ zs, z.Legible)
    (hnext : ∀ ident, next = some ident → IsWord isSpace ident) (hpiece : PieceOf next piece)
    (w : φ) :
    wp (u.mainLoop st (piped (zs.map Item.line) ++ piece)) ⟨w, []⟩
      (fun _ s => ObeyedTorn u zs next s)
      (fun err s => Foreign st err ∧ ∃ done, done <+: zs ∧ Obeyed u done s) := by
  rw [mainLoop_torn u st _ (hpiece.noNewline hnext), wp_bind]
  refine wp_mono (wp_mainLoop_items u st h w) (fun _ s hs => ?_) fun _ _ herr => herr
  by_cases hne : piece = []
  · rw [if_pos hne]
    exact hs.torn next
  · obtain ⟨ident, hident, hsub⟩ := hpiece.resolve_left hne
    rw [if_neg hne, Updater.processCmd_eq]
    rcases command_piece (hnext ident hident) hne hsub with hcmd | ⟨cut, hcut, hcmd⟩
    · rw [hcmd]
      exact hs.torn next
    · rw [hcmd]
      refine ⟨?_, [terminationText cut], ?_, Or.inr ⟨ident, cut, hident, hcut, rfl⟩⟩
      · show Follows u _
          (Session.updates ⟨s.world, s.effects ++ [.printed (terminationText cut)]⟩)
        rw [Session.updates, List.filterMap_append]
        exact (List.append_nil s.updates).symm ▸ hs.updates
      · show Session.printed ⟨s.world, s.effects ++ [.printed (terminationText cut)]⟩ = _
        rw [Session.printed, List.filterMap_append, ← hs.printed]
        rfl

/-! ## At the end of a run -/

/-- The end among some items that comes first. -/
def nextEnd (zs : List (μ × Item)) : Option Bytes := (endedItems zs).head?.map Prod.snd

omit [DecidableEq μ] in
/-- **What the pipe has** of some items' lines: the lines of all but some ends, and a piece of
the first of these. -/
theorem handed_of_stdio {all : List (μ × Item)} {f : Buffered.Stream UInt8}
    (hf : Buffered.After (stdio (all.map fun z => z.2.line)) f) :
    ∃ (zs late : List (μ × Item)) (piece : Bytes), all = zs ++ late
      ∧ f.handed = piped ((zs.map Prod.snd).map Item.line) ++ piece
      ∧ (∀ z ∈ late, z.2.reading? = none) ∧ PieceOf (nextEnd late) piece
      ∧ (f.kept = [] → late = []) := by
  obtain ⟨done, late, part, _, hhanded, hrest, _, hquiet⟩ := waiting_of_stdio List.prefix_rfl hf
  obtain ⟨hsplit, hunflushed⟩ := hquiet rfl
  obtain ⟨whole, rest, piece, rfl, hpart, hpiece⟩ := Buffered.exists_torn ⟨_, hrest⟩
  -- the same cuts through the items
  rw [← List.append_assoc, eq_comm] at hsplit
  obtain ⟨zs, zrest, rfl, hzs, hzrest⟩ := List.map_eq_append_iff.mp hsplit
  have hends : ∀ z ∈ zrest, ∃ m ident, z = (m, Item.ended ident) := by
    rintro ⟨m, z⟩ hz
    cases z with
    | ended ident => exact ⟨m, ident, rfl⟩
    | reading agg e =>
        have hmem : whisperLine agg e.1 e.2 ∈ whole ++ rest :=
          List.mem_append_right _ (hzrest ▸ List.mem_map.mpr ⟨_, hz, rfl⟩)
        exact absurd ((hunflushed _ hmem).symm.trans (flushed_whisperLine agg e.1 e.2))
          Bool.false_ne_true
  refine ⟨zs, zrest, piece, rfl, ?_, fun z hz => ?_, ?_, fun hkept => ?_⟩
  · rw [hhanded, hpart, ← List.append_assoc, List.map_map]
    refine congrArg (· ++ piece) ?_
    have hmap : zs.map (Item.line ∘ Prod.snd) = done ++ whole := hzs
    rw [hmap, piped, piped, List.flatMap_append]
  · obtain ⟨m, ident, rfl⟩ := hends z hz
    rfl
  · refine hpiece.imp_right ?_
    rintro ⟨line, hhead, hsub, hne⟩
    cases zrest with
    | nil =>
        rw [← hzrest] at hhead
        cases hhead
    | cons z zrest =>
        obtain ⟨m, ident, rfl⟩ := hends z (List.mem_cons_self ..)
        rw [← hzrest] at hhead
        obtain rfl : (Item.ended ident).line = line := Option.some.inj hhead
        exact ⟨ident, rfl, (List.prefix_concat_iff.mp hsub).resolve_left hne⟩
  · -- then the piece is all of the rest, and less than the first line of it
    have hall : piece = piped rest := by
      rw [hkept, List.append_nil, hpart, piped, List.flatMap_append] at hrest
      exact List.append_cancel_left hrest
    refine List.map_eq_nil_iff.mp (hzrest.trans ?_)
    cases rest with
    | nil => rfl
    | cons line rest =>
        rw [piped, List.flatMap_cons] at hall
        rcases hpiece with rfl | ⟨r, hr, hsub, hne⟩
        · simp at hall
        · obtain rfl : line = r := Option.some.inj hr
          have hlength : (line ++ [10]).length ≤ piece.length :=
            (hall ▸ List.prefix_append _ _ : line ++ [10] <+: piece).length_le
          exact absurd (hsub.eq_of_length_le hlength) hne

omit [DecidableEq μ] in
theorem exists_of_nextEnd {late : List (μ × Item)} {ident : Bytes} (h : nextEnd late = some ident) :
    ∃ m rest, endedItems late = (m, ident) :: rest := by
  unfold nextEnd at h
  cases hends : endedItems late with
  | nil =>
      rw [hends] at h
      cases h
  | cons e rest =>
      rw [hends] at h
      obtain rfl : e.2 = ident := Option.some.inj h
      exact ⟨e.1, rest, rfl⟩

omit [DecidableEq μ] in
theorem endedItems_append (zs late : List (μ × Item)) :
    endedItems (zs ++ late) = endedItems zs ++ endedItems late := List.filterMap_append

/-- The end that comes next is one its monitor has published. -/
theorem Traced.next {sent : μ → List Publication} {zs late : List (μ × Item)}
    (h : Traced sent (zs ++ late)) {ident : Bytes} (hnext : nextEnd late = some ident) :
    ∃ m, only m (endedItems zs) ++ [ident] <+: endsOf (sent m) := by
  obtain ⟨m, rest, hends⟩ := exists_of_nextEnd hnext
  have hall := h.ends m
  rw [endedItems_append, only_append, hends, only_cons_self, List.append_cons] at hall
  exact ⟨m, (List.prefix_append _ _).trans hall⟩

omit [DecidableEq μ] in
theorem word_of_nextEnd {late : List (μ × Item)} (h : ∀ z ∈ late.map Prod.snd, z.Legible)
    {ident : Bytes} (hnext : nextEnd late = some ident) : IsWord isSpace ident := by
  obtain ⟨m, rest, hends⟩ := exists_of_nextEnd hnext
  obtain ⟨⟨m', z⟩, hmem, hz⟩ :=
    List.mem_filterMap.mp (hends ▸ List.mem_cons_self : (m, ident) ∈ endedItems late)
  cases z with
  | reading agg e => cases hz
  | ended ident' =>
      cases hz
      exact h (.ended ident) (List.mem_map.mpr ⟨_, hmem, rfl⟩)

omit [DecidableEq μ] in
/-- **The updater on what the pipe has** obeys all items but some ends that come last. -/
theorem wp_mainLoop_handed {all : List (μ × Item)} {f : Buffered.Stream UInt8}
    (hf : Buffered.After (stdio (all.map fun z => z.2.line)) f)
    (hall : ∀ z ∈ all.map Prod.snd, z.Legible) (u : Updater) (st : Storage φ) (w : φ) :
    wp (u.mainLoop st f.handed) ⟨w, []⟩
      (fun _ sess => ∃ zs late, all = zs ++ late ∧ (∀ z ∈ late, z.2.reading? = none)
        ∧ (f.kept = [] → late = []) ∧ ObeyedTorn u (zs.map Prod.snd) (nextEnd late) sess)
      (fun err sess => Foreign st err ∧ ∃ done, done <+: all.map Prod.snd ∧ Obeyed u done sess)
      := by
  obtain ⟨zs, late, piece, rfl, hhanded, hlate, hpiece, hkept⟩ := handed_of_stdio hf
  rw [List.map_append] at hall
  rw [hhanded]
  refine wp_mono (wp_mainLoop_torn u st (fun z hz => hall z (List.mem_append_left _ hz))
    (fun ident hnext => word_of_nextEnd (fun z hz => hall z (List.mem_append_right _ hz)) hnext)
    hpiece w) ?_ ?_
  · intro _ sess hsess
    exact ⟨zs, late, rfl, hlate, hkept, hsess⟩
  · intro err sess herr
    obtain ⟨hforeign, done, hdone, hobeyed⟩ := herr
    exact ⟨hforeign, done, by rw [List.map_append]; exact hdone.trans (List.prefix_append _ _),
      hobeyed⟩

/-- **At the end of a run** it has done for each monitor what it sent, but for some ends. -/
theorem wp_mainLoop_piped (h : PipedRuns net gethostname tov s cs) {f : Buffered.Stream UInt8}
    (hf : Buffered.After cs f)
    (hplain : ∀ m, ∀ agg ∈ aggregatesOf (s.monitors m).sent, Plain agg) (u : Updater)
    (st : Storage φ) (w : φ) :
    wp (u.mainLoop st f.handed) ⟨w, []⟩
      (fun _ sess => ∃ zs late, Traced (fun m => (s.monitors m).sent) (zs ++ late)
        ∧ (∀ z ∈ late, z.2.reading? = none)
        ∧ (∀ m, inFlight net s m = [] → only m (zs ++ late) = (s.monitors m).sent.flatMap items)
        ∧ ObeyedTorn u (zs.map Prod.snd) (nextEnd late) sess)
      (fun err sess => Foreign st err
        ∧ ∃ zs, Attributed u (fun m => (s.monitors m).sent) zs sess) := by
  obtain ⟨hr, rfl⟩ := stdio_of_piped h
  obtain ⟨all, hwritten, hsent⟩ := written_traced hr
  have htraced : Traced (fun m => (s.monitors m).sent) all := fun m => (hsent m).1
  rw [hwritten, List.map_map] at hf
  have hlegible := htraced.stems.legible (sources_of_runs hr hplain)
  refine wp_mono (wp_mainLoop_handed hf hlegible u st w) ?_ ?_
  · intro _ sess hsess
    obtain ⟨zs, late, rfl, hlate, -, hobeyed⟩ := hsess
    exact ⟨zs, late, htraced, hlate, fun m => (hsent m).2, hobeyed⟩
  · intro err sess herr
    obtain ⟨hforeign, done, hdone, hobeyed⟩ := herr
    exact ⟨hforeign, htraced.attributed hdone hobeyed⟩

/-- Items without readings have none for any monitor. -/
theorem readings_nil {late : List (μ × Item)} (h : ∀ z ∈ late, z.2.reading? = none) (m : μ) :
    (only m late).filterMap Item.reading? = [] := by
  refine List.filterMap_eq_nil_iff.mpr fun z hz => ?_
  exact h (m, z) (mem_of_mem_only hz)

/-! ## The files -/

/-- Nothing has been done to the files between two moments. -/
structure SameFiles (s t : Session φ) : Prop where
  world : t.world = s.world
  updates : t.updates = s.updates

theorem wp_terminate (ident : Bytes) (s : Session φ) :
    wp (Updater.terminateInstance ident) s (fun _ t => SameFiles s t) noThrow := by
  refine ⟨rfl, ?_⟩
  show Session.updates ⟨s.world, s.effects ++ [.printed (terminationText ident)]⟩ = s.updates
  rw [Session.updates, List.filterMap_append]
  exact List.append_nil _

/-- **Terminations** do nothing to the files. -/
theorem wp_mainLoop_ended (u : Updater) (st : Storage φ) {zs : List Item}
    (hzs : ∀ z ∈ zs, z.Legible) (hnone : ∀ z ∈ zs, z.reading? = none) (s : Session φ) :
    wp (u.mainLoop st (piped (zs.map Item.line))) s (fun _ t => SameFiles s t) noThrow := by
  have hlines : ∀ line ∈ zs.map Item.line, (10 : UInt8) ∉ line := by
    intro line hline
    obtain ⟨z, hz, rfl⟩ := List.mem_map.mp hline
    exact (hzs z hz).noNewline
  rw [mainLoop_piped u st hlines, List.forM_eq_forM, List.forM_map, ← List.forM_eq_forM]
  refine wp_forM (fun _ t => SameFiles s t) ?_ ⟨rfl, rfl⟩
  intro done z todo t hsplit ht
  have hz : z ∈ zs := hsplit ▸ List.mem_append_right _ (List.mem_cons_self ..)
  cases z with
  | reading agg e => cases hnone _ hz
  | ended ident =>
      rw [Updater.processCmd_eq, command_ended (hzs _ hz)]
      exact wp_mono (wp_terminate ident t)
        (fun _ _ hu => ⟨hu.world.trans ht.world, hu.updates.trans ht.updates⟩) fun _ _ he => he

/-- Nor does a piece of one. -/
theorem wp_piece (u : Updater) (st : Storage φ) {next : Option Bytes} {piece : Bytes}
    (hnext : ∀ ident, next = some ident → IsWord isSpace ident) (hpiece : PieceOf next piece)
    (s : Session φ) : wp (if piece = [] then pure ⟨⟩ else u.processCmd st piece) s
      (fun _ t => SameFiles s t) noThrow := by
  by_cases hne : piece = []
  · rw [if_pos hne]
    exact ⟨rfl, rfl⟩
  · obtain ⟨ident, hident, hsub⟩ := hpiece.resolve_left hne
    rw [if_neg hne, Updater.processCmd_eq]
    rcases command_piece (hnext ident hident) hne hsub with hcmd | ⟨cut, _, hcmd⟩
    · rw [hcmd]
      exact ⟨rfl, rfl⟩
    · rw [hcmd]
      exact wp_terminate cut s

/-- What does nothing to the files can come last, or be left out. -/
theorem session_of_quiet {u : Updater} {st : Storage φ} {input first : Bytes} {more : PyM φ PUnit}
    (hloop : u.mainLoop st input = (do
      u.mainLoop st first
      more))
    (hquiet : ∀ s, wp more s (fun _ t => SameFiles s t) noThrow) (w : φ) :
    (u.session st w input).1 = (u.session st w first).1
      ∧ SameFiles (u.session st w first).2 (u.session st w input).2 := by
  unfold Updater.session
  cases hrun : u.mainLoop st first ⟨w, []⟩ with
  | error err sess =>
      rw [hloop, bind_error hrun]
      exact ⟨rfl, rfl, rfl⟩
  | ok _ sess =>
      obtain ⟨_, sess', hmore, hsame⟩ := wp_noThrow (hquiet sess)
      have hall : u.mainLoop st input ⟨w, []⟩ = .ok ⟨⟩ sess' := by
        rw [hloop]
        exact bind_ok hrun hmore
      rw [hall]
      exact ⟨rfl, hsame⟩

/-- The destructor leaves nothing in the buffer: the updater can read all that was written. -/
theorem handed_of_destroyed (h : PipedRuns net gethostname tov s cs) {f : Buffered.Stream UInt8}
    (hf : Buffered.After (cs ++ destroyCalls) f) : f.handed = piped (s.written.map Prod.snd) := by
  obtain ⟨_, rfl⟩ := stdio_of_piped h
  have hkept : f.kept = [] := List.suffix_nil.mp (Buffered.pending_concat_flush _ ▸ hf.kept)
  have hwhole := hf.whole
  rw [hkept, List.append_nil, Buffered.text_append, text_stdio] at hwhole
  exact hwhole.trans (List.append_nil _)

/-- On what the pipe has of a run's lines the updater does to the files what it does on all. -/
theorem session_of_piped (h : PipedRuns net gethostname tov s cs) {f : Buffered.Stream UInt8}
    (hf : Buffered.After cs f)
    (hplain : ∀ m, ∀ agg ∈ aggregatesOf (s.monitors m).sent, Plain agg) (u : Updater)
    (st : Storage φ) (w : φ) :
    (u.session st w f.handed).1 = (u.session st w (piped (s.written.map Prod.snd))).1
      ∧ SameFiles (u.session st w (piped (s.written.map Prod.snd))).2
        (u.session st w f.handed).2 := by
  obtain ⟨hr, rfl⟩ := stdio_of_piped h
  obtain ⟨all, hwritten, hsent⟩ := written_traced hr
  have htraced : Traced (fun m => (s.monitors m).sent) all := fun m => (hsent m).1
  have hlegible := htraced.stems.legible (sources_of_runs hr hplain)
  rw [hwritten, List.map_map] at hf
  rw [lines_of_written hwritten]
  obtain ⟨zs, late, piece, rfl, hhanded, hlate, hpiece, -⟩ := handed_of_stdio hf
  rw [List.map_append] at hlegible
  have hended : ∀ z ∈ late.map Prod.snd, z.Legible := fun z hz =>
    hlegible z (List.mem_append_right _ hz)
  have hnext : ∀ ident, nextEnd late = some ident → IsWord isSpace ident := fun _ =>
    word_of_nextEnd hended
  have hquiet : ∀ z ∈ late.map Prod.snd, z.reading? = none := by
    intro z hz
    obtain ⟨⟨m, z⟩, hmem, rfl⟩ := List.mem_map.mp hz
    exact hlate _ hmem
  -- both are the same lines, and then a piece of the ends or all of them
  have hkilled := session_of_quiet (hhanded ▸ mainLoop_torn u st _ (hpiece.noNewline hnext))
    (wp_piece u st hnext hpiece) w
  have hwhole := session_of_quiet (mainLoop_append u st ((zs.map Prod.snd).map Item.line) _)
    (wp_mainLoop_ended u st hended hquiet) w
  have horderly : piped (((zs ++ late).map Prod.snd).map Item.line)
      = piped ((zs.map Prod.snd).map Item.line) ++ piped ((late.map Prod.snd).map Item.line) := by
    rw [List.map_append, List.map_append, piped, piped, piped, List.flatMap_append]
  rw [horderly]
  exact ⟨hkilled.1.trans hwhole.1.symm, hkilled.2.world.trans hwhole.2.world.symm,
    hkilled.2.updates.trans hwhole.2.updates.symm⟩

/--
**Killing the collector costs no reading.** Kill it between any two messages of any run, with
whatever is in its buffer then. On what it has left behind the updater does what it does after
an orderly end: it ends in the same way, and has called whisper for the same readings and left
the same files.
-/
theorem session_of_killed (net : Network μ ο) (gethostname : μ → Option Bytes) (tov : μ → Double)
    (s : System μ δ) (cs : List StdioCall) (h : PipedRuns net gethostname tov s cs)
    (f g : Buffered.Stream UInt8) (hf : Buffered.After cs f)
    (hg : Buffered.After (cs ++ destroyCalls) g)
    (hplain : ∀ m, ∀ agg ∈ aggregatesOf (s.monitors m).sent, Plain agg) (u : Updater)
    (st : Storage φ) (w : φ) :
    (u.session st w f.handed).1 = (u.session st w g.handed).1
      ∧ (u.session st w f.handed).2.updates = (u.session st w g.handed).2.updates
      ∧ (u.session st w f.handed).2.world = (u.session st w g.handed).2.world := by
  rw [handed_of_destroyed h hg]
  obtain ⟨hend, hsame⟩ := session_of_piped h hf hplain u st w
  exact ⟨hend, hsame.updates, hsame.world⟩

/--
**What it may cost is ends.** The ends printed are the first ones of every monitor, and at
most one text more, which is the beginning of the end that was to come next.
-/
theorem ends_of_killed (net : Network μ ο) (gethostname : μ → Option Bytes) (tov : μ → Double)
    (s : System μ δ) (cs : List StdioCall) (h : PipedRuns net gethostname tov s cs)
    (f : Buffered.Stream UInt8) (hf : Buffered.After cs f)
    (hplain : ∀ m, ∀ agg ∈ aggregatesOf (s.monitors m).sent, Plain agg) (u : Updater)
    (st : Storage φ) (w : φ) :
    wp (u.mainLoop st f.handed) ⟨w, []⟩
      (fun _ sess => ∃ (ends : List (μ × Bytes)) (torn : List Bytes),
        sess.printed = ends.map (fun e => terminationText e.2) ++ torn
          ∧ (∀ m, only m ends <+: endsOf (s.monitors m).sent)
          ∧ (torn = [] ∨ ∃ m ident cut, torn = [terminationText cut] ∧ cut <+: ident
            ∧ only m ends ++ [ident] <+: endsOf (s.monitors m).sent))
      (fun err sess => Foreign st err ∧ ∃ ends : List (μ × Bytes),
        sess.printed = ends.map (fun e => terminationText e.2)
          ∧ ∀ m, only m ends <+: endsOf (s.monitors m).sent) := by
  have hmap : ∀ zs : List (μ × Item),
      ((zs.map Prod.snd).filterMap Item.ended?).map terminationText
        = (endedItems zs).map fun e => terminationText e.2 := by
    intro zs
    rw [← endedItems_snd, List.map_map]
    rfl
  refine wp_mono (wp_mainLoop_piped h hf hplain u st w) ?_ ?_
  · intro _ sess hdone
    obtain ⟨zs, late, htraced, hlate, hall, hobeyed⟩ := hdone
    obtain ⟨torn, hprinted, htorn⟩ := hobeyed.printed
    refine ⟨endedItems zs, torn, hmap zs ▸ hprinted, htraced.left.ends, htorn.imp_right ?_⟩
    rintro ⟨ident, cut, hnext, hcut, rfl⟩
    obtain ⟨m, hm⟩ := htraced.next hnext
    exact ⟨m, ident, cut, rfl, hcut, hm⟩
  · intro err sess herr
    obtain ⟨hforeign, zs, hatt⟩ := herr
    exact ⟨hforeign, endedItems zs, hmap zs ▸ hatt.1.printed, hatt.2.ends⟩

/-! ## The domain that comes and goes -/

/-- Its run comes to rest, and the collector is killed then. -/
theorem killed_afterSecond : ∃ (s : System Unit DomId) (cs : List StdioCall)
    (f : Buffered.Stream UInt8), s.monitors = afterSecond.monitors
      ∧ PipedRuns noRelay (fun _ => none) (fun _ => .fin 0) s cs ∧ Buffered.After cs f
      ∧ ∀ m, inFlight noRelay s m = [] := by
  obtain ⟨s, hr, hsame, hrest⟩ := exists_quiet runs_afterSecond
  obtain ⟨cs, hcs⟩ := exists_piped hr
  exact ⟨s, cs, _, hsame, hcs, Buffered.after_handed cs, hrest⟩

theorem waiting_of_runs_afterSecond : ∃ (s : System Unit DomId) (f : Buffered.Stream UInt8)
    (done late : List Bytes) (part : Bytes), s.monitors = afterSecond.monitors
      ∧ done ++ late = s.written.map Prod.snd ∧ f.handed = piped done ++ part
      ∧ part ++ f.kept = piped late ∧ ∀ line ∈ late, flushed line = false := by
  obtain ⟨s, cs, f, hsame, hcs, hf, -⟩ := killed_afterSecond
  obtain ⟨done, late, part, -, hhanded, hkept, -, hall⟩ :=
    waiting_of_runs noRelay _ _ s cs cs hcs List.prefix_rfl f hf
  exact ⟨s, f, done, late, part, hsame, (hall rfl).1, hhanded, hkept, (hall rfl).2⟩

/-- Its end is what has not been flushed. -/
theorem pending_afterSecond {s : System Unit DomId} {cs : List StdioCall}
    (hcs : PipedRuns noRelay (fun _ => none) (fun _ => .fin 0) s cs)
    (hsame : s.monitors = afterSecond.monitors) (hrest : inFlight noRelay s () = []) :
    Buffered.pending cs = bytes "monitor.term_instance servers.unknown-host.uuid-1\n" := by
  obtain ⟨hr, rfl⟩ := stdio_of_piped hcs
  have hwritten := (flowing_runs hr).delivered ()
  rw [hrest, hsame, sent_afterSecond, List.flatMap_nil, List.append_nil,
    only_of_subsingleton] at hwritten
  rw [hwritten]
  decide +kernel

/-- With its end still in the buffer the domain's readings are recorded like without. -/
theorem session_of_killed_afterSecond : ∃ (s : System Unit DomId) (f g : Buffered.Stream UInt8),
    s.monitors = afterSecond.monitors
      ∧ f.kept = bytes "monitor.term_instance servers.unknown-host.uuid-1\n"
      ∧ g.handed = piped (s.written.map Prod.snd)
      ∧ (dataUpdater.session emptyDisk () f.handed).1
        = (dataUpdater.session emptyDisk () g.handed).1
      ∧ (dataUpdater.session emptyDisk () f.handed).2.updates
        = (dataUpdater.session emptyDisk () g.handed).2.updates := by
  obtain ⟨s, cs, -, hsame, hcs, -, hrest⟩ := killed_afterSecond
  obtain ⟨front, hf⟩ := Buffered.after_pending cs
  have hg := Buffered.after_handed (cs ++ destroyCalls)
  obtain ⟨hupdates, hworld⟩ := session_of_killed noRelay _ _ s cs hcs _ _ hf hg
    (fun _ => hsame ▸ plain_afterSecond) dataUpdater emptyDisk ()
  exact ⟨s, _, _, hsame, pending_afterSecond hcs hsame (hrest ()), handed_of_destroyed hcs hg,
    hupdates, hworld.1⟩

theorem ends_of_killed_afterSecond : ∃ f : Buffered.Stream UInt8,
    wp (dataUpdater.mainLoop emptyDisk f.handed) ⟨(), []⟩
      (fun _ sess => ∃ (ends : List (Unit × Bytes)) (torn : List Bytes),
        sess.printed = ends.map (fun e => terminationText e.2) ++ torn
          ∧ only () ends <+: [bytes "servers.unknown-host.uuid-1"])
      (fun err _ => Foreign emptyDisk err) := by
  obtain ⟨s, cs, f, hsame, hcs, hf, -⟩ := killed_afterSecond
  refine ⟨f, wp_mono (ends_of_killed noRelay _ _ s cs hcs f hf
    (fun _ => hsame ▸ plain_afterSecond) dataUpdater emptyDisk ()) ?_ fun _ _ herr => herr.1⟩
  intro _ sess hdone
  obtain ⟨ends, torn, hprinted, hends, -⟩ := hdone
  have hsent := hends ()
  rw [hsame, sent_afterSecond] at hsent
  exact ⟨ends, torn, hprinted, hsent⟩

end CloudMon.Proof
