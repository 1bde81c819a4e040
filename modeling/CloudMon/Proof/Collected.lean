import CloudMon.Collector.Stdin
import CloudMon.Proof.Announce
import CloudMon.Proof.Recorded

/-!
# What the collector makes of a run

Behind the proxy the lines of all monitors are one stream, and nothing in the updater
knows of monitors. Still every line can be traced back to a publication, and what the
updater does for it depends on the line alone, so what it does for one monitor is what
it would do if there were no other: the same calls of whisper on the same files, and
the same lines printed, in the same order.

What keeps the monitors apart on disk is their names. Two hosts of one name share their
files; two of different names share none.
-/

namespace CloudMon.Proof

open CloudMon Wp Words Pipeline

/-! ## What a line stands for -/

/-- What a monitor published that a single line is written for. -/
inductive Item where
  | reading (agg : AggregateDomainStats) (e : DomainStats × Metric)
  | ended (ident : Bytes)

def Item.line : Item → Bytes
  | .reading agg e => whisperLine agg e.1 e.2
  | .ended ident => termInstance ++ bytes " " ++ ident

def Item.reading? : Item → Option (AggregateDomainStats × DomainStats × Metric)
  | .reading agg e => some (agg, e)
  | .ended _ => none

def Item.ended? : Item → Option Bytes
  | .reading _ _ => none
  | .ended ident => some ident

def items : Publication → List Item
  | .aggregate _ agg => (entries agg).map (.reading agg)
  | .termInstance ident => [.ended ident]

theorem expectedLines_eq (p : Publication) : expectedLines p = (items p).map Item.line := by
  cases p with
  | aggregate key agg =>
      rw [expectedLines, getWhisperUpdates_eq, items, List.map_map]
      rfl
  | termInstance ident => rfl

theorem flatMap_expectedLines (ps : List Publication) :
    ps.flatMap expectedLines = (ps.flatMap items).map Item.line := by
  rw [List.map_flatMap]
  exact List.flatMap_congr fun p _ => expectedLines_eq p

/-- The aggregates among some publications. -/
def aggregatesOf (ps : List Publication) : List AggregateDomainStats :=
  ps.filterMap fun
    | .aggregate _ agg => some agg
    | .termInstance _ => none

/-- The instances that ended, as they were named. -/
def endsOf (ps : List Publication) : List Bytes :=
  ps.filterMap fun
    | .aggregate _ _ => none
    | .termInstance ident => some ident

theorem reading?_items (ps : List Publication) :
    (ps.flatMap items).filterMap Item.reading? = historyEntries (aggregatesOf ps) := by
  induction ps with
  | nil => rfl
  | cons p ps ih =>
      rw [List.flatMap_cons, List.filterMap_append, ih]
      cases p with
      | termInstance ident => rfl
      | aggregate key agg =>
          have hcons : historyEntries (agg :: aggregatesOf ps)
              = ((entries agg).map fun e => (agg, e)) ++ historyEntries (aggregatesOf ps) :=
            List.flatMap_cons
          refine Eq.trans ?_ hcons.symm
          rw [items, List.filterMap_map, ← List.filterMap_eq_map]
          rfl

theorem ended?_items (ps : List Publication) :
    (ps.flatMap items).filterMap Item.ended? = endsOf ps := by
  induction ps with
  | nil => rfl
  | cons p ps ih =>
      rw [List.flatMap_cons, List.filterMap_append, ih]
      cases p with
      | termInstance ident => rfl
      | aggregate key agg =>
          have hnone : (items (.aggregate key agg)).filterMap Item.ended? = [] := by
            rw [items, List.filterMap_map]
            exact List.filterMap_eq_nil_iff.mpr fun _ _ => rfl
          rw [hnone]
          rfl

/-! ## What a line makes the updater do -/

/-- Names that the updater finds again in the line. -/
def Item.Legible : Item → Prop
  | .reading agg e => Plain agg ∧ NulFree agg ∧ e ∈ entries agg
  | .ended ident => IsWord isSpace ident

/-- What the updater prints of an instance that ended. -/
def terminationText (ident : Bytes) : Bytes := bytes "instance terminated: " ++ ident

/-- All that the updater has done is what some items asked for, in order. -/
structure Obeyed {φ : Type} (u : Updater) (zs : List Item) (s : Session φ) : Prop where
  updates : Follows u (zs.filterMap Item.reading?) s.updates
  printed : s.printed = (zs.filterMap Item.ended?).map terminationText

section

variable {φ : Type} {st : Storage φ}

/-- An update prints nothing, however it ends. -/
theorem preserves_printed_update (u : Updater) (st : Storage φ) (metric dataline : Bytes)
    (texts : List Bytes) :
    Preserves (fun s => s.printed = texts) (u.update st metric dataline) := by
  have hcall : ∀ {α : Type} (f : φ → α × φ), Preserves (fun s => s.printed = texts) (call f) :=
    fun f s hs => hs
  have hemit : ∀ e : Effect, (∀ text, e ≠ .printed text) →
      Preserves (fun s : Session φ => s.printed = texts) (emit e) := by
    intro e he s hs
    have hnone : Session.printed ⟨s.world, s.effects ++ [e]⟩ = s.printed := by
      rw [Session.printed, List.filterMap_append]
      cases e with
      | printed text => exact absurd rfl (he text)
      | whisperCreate path archives => exact List.append_nil _
      | whisperUpdate call => exact List.append_nil _
    exact hnone.trans hs
  have hwhisper : ∀ f : φ → Bool × φ,
      Preserves (fun s => s.printed = texts) (whisperCall f) := fun f =>
    Preserves.bind (hcall f) fun _ => Preserves.ite (Preserves.throw _) (Preserves.pure _)
  have hitem : ∀ (xs : List Bytes) (i : Nat),
      Preserves (fun s : Session φ => s.printed = texts) (item xs i) := by
    intro xs i
    unfold item
    split
    · exact Preserves.pure _
    · exact Preserves.throw _
  have hfloat : ∀ text : Bytes,
      Preserves (fun s : Session φ => s.printed = texts) (float text) := by
    intro text
    unfold float
    split
    · exact Preserves.pure _
    · exact Preserves.throw _
  have hmkdirs : ∀ path : Bytes,
      Preserves (fun s => s.printed = texts) (mkdirs st path) := fun path =>
    Preserves.bind (hcall _) fun r => by
      split
      · exact Preserves.pure _
      · exact Preserves.ite (Preserves.throw _) (Preserves.pure _)
  have hcreate : Preserves (fun s => s.printed = texts)
      (Updater.createDatabase st (osPathJoin u.root metric ++ bytes ".wsp")) :=
    Preserves.bind (hmkdirs _) fun _ =>
      Preserves.bind (hemit _ nofun) fun _ => hwhisper _
  have hrecord : ∀ data : List Bytes, Preserves (fun s => s.printed = texts) (do
      let value ← float (← item data 0)
      let timestamp ← float (← item data 1)
      emit (.whisperUpdate ⟨osPathJoin u.root metric ++ bytes ".wsp", value, timestamp⟩)
      whisperCall (st.update ⟨osPathJoin u.root metric ++ bytes ".wsp", value, timestamp⟩)) := by
    intro data
    refine Preserves.bind (hitem _ _) fun value => Preserves.bind (hfloat value) fun _ => ?_
    refine Preserves.bind (hitem _ _) fun time => Preserves.bind (hfloat time) fun _ => ?_
    exact Preserves.bind (hemit _ nofun) fun _ => hwhisper _
  -- a new database, where one is made, comes first
  refine Preserves.bind (Preserves.ite (Preserves.throw _) (hcall _)) fun there => ?_
  exact Preserves.ite (Preserves.bind hcreate fun _ => hrecord _) (hrecord _)

theorem ended_line (ident : Bytes) :
    (Item.ended ident).line = [32].intercalate [termInstance, ident] := by
  rw [List.intercalate_cons_cons, List.intercalate_singleton]
  rfl

/-- A termination's line is the other command, with the instance's name behind it. -/
theorem command_ended {ident : Bytes} (h : IsWord isSpace ident) :
    command (Item.ended ident).line = some (.terminate ident) := by
  have hword : IsWord isSpace termInstance := ⟨by decide, noSpace_of_all (by decide)⟩
  have hsplit : split (Item.ended ident).line = [termInstance, ident] := by
    rw [ended_line]
    refine split_join fun w hw => ?_
    rcases List.mem_pair.mp hw with rfl | rfl
    · exact hword
    · exact h
  unfold command
  simp only [hsplit]
  rw [if_neg (by decide), List.intercalate_singleton]
  exact if_pos rfl

/-- **One line** does what its item asks for, or an exception from outside ends the updater. -/
theorem processCmd_obeys (u : Updater) {done : List Item} {z : Item} (hz : z.Legible)
    {s : Session φ} (hs : Obeyed u done s) :
    wp (u.processCmd st z.line) s (fun _ t => Obeyed u (done ++ [z]) t)
      (fun err t => Foreign st err ∧ (Obeyed u done t ∨ Obeyed u (done ++ [z]) t)) := by
  cases z with
  | ended ident =>
      rw [Updater.processCmd_eq, command_ended hz]
      refine ⟨?_, ?_⟩
      · rw [List.filterMap_append]
        have hsame : Session.updates ⟨s.world, s.effects ++ [.printed (terminationText ident)]⟩
            = s.updates := by
          rw [Session.updates, List.filterMap_append]
          exact List.append_nil _
        show Follows u _
          (Session.updates ⟨s.world, s.effects ++ [.printed (terminationText ident)]⟩)
        rw [hsame]
        exact (List.append_nil (done.filterMap Item.reading?)).symm ▸ hs.updates
      · show Session.printed ⟨s.world, s.effects ++ [.printed (terminationText ident)]⟩ = _
        rw [Session.printed, List.filterMap_append, List.filterMap_append, List.map_append,
          ← hs.printed]
        rfl
  | reading agg e =>
      obtain ⟨hplain, hnul, he⟩ := hz
      have hquiet : Preserves (fun t : Session φ => t.printed = s.printed)
          (u.processCmd st (whisperLine agg e.1 e.2)) := by
        rw [processCmd_eq u (hplain.uuids _ (mem_domainStats_of_entry he))
          (split_whisperLine hplain hnul he)]
        exact preserves_printed_update u st _ _ _
      have hsame : ∀ {t : Session φ}, t.printed = s.printed →
          t.printed = ((done ++ [Item.reading agg e]).filterMap Item.ended?).map
            terminationText := by
        intro t ht
        rw [List.filterMap_append]
        exact (ht.trans hs.printed).trans (congrArg _ (List.append_nil _).symm)
      have hmore : ∀ {t : Session φ} {call : WhisperUpdate}, Recorded u agg e call →
          t.updates = s.updates ++ [call] →
          Follows u ((done ++ [Item.reading agg e]).filterMap Item.reading?) t.updates := by
        intro t call hcall ht
        rw [ht, List.filterMap_append]
        exact List.rel_append hs.updates (.cons hcall .nil)
      refine wp_mono (wp_and (processCmd_records u hplain hnul he s) (hquiet s rfl)) ?_ ?_
      · intro _ t ht
        obtain ⟨⟨call, hcall, hupd⟩, hprint⟩ := ht
        exact ⟨hmore hcall hupd, hsame hprint⟩
      · intro err t ht
        obtain ⟨⟨hforeign, call, hcall, hupd⟩, hprint⟩ := ht
        refine ⟨hforeign, ?_⟩
        rcases hupd with hupd | hupd
        · exact Or.inl ⟨hupd ▸ hs.updates, hprint.trans hs.printed⟩
        · exact Or.inr ⟨hmore hcall hupd, hsame hprint⟩

/-- No legible line has a newline in it. -/
theorem Item.Legible.noNewline {z : Item} (hz : z.Legible) : (10 : UInt8) ∉ z.line := by
  -- a newline would be in one of the words, or between two of them
  have hnone : ∀ {ws : List Bytes}, (∀ w ∈ ws, IsWord isSpace w) →
      (10 : UInt8) ∉ [32].intercalate ws := by
    intro ws hws hmem
    rcases mem_intercalate hmem with h | ⟨w, hw, hmem⟩
    · exact absurd h (by decide)
    · exact absurd ((hws w hw).2 10 hmem) (by decide)
  cases z with
  | ended ident =>
      rw [ended_line]
      refine hnone fun w hw => ?_
      rcases List.mem_pair.mp hw with rfl | rfl
      · exact ⟨by decide, noSpace_of_all (by decide)⟩
      · exact hz
  | reading agg e =>
      obtain ⟨hplain, hnul, he⟩ := hz
      rw [Item.line, whisperLine_eq hplain hnul he]
      refine hnone fun w hw => ?_
      simp only [List.mem_cons, List.not_mem_nil, or_false] at hw
      rcases hw with rfl | rfl | rfl
      · exact isWord_keyOf hplain.host.noSpace
          (hplain.uuids _ (mem_domainStats_of_entry he)).noSpace e.2
      · exact isWord_valueText e.2 e.1
      · exact isWord_formatF agg.tov

/-- Lines without newlines are read one by one. -/
theorem inputLines_piped_of_not_mem {lines : List Bytes}
    (h : ∀ line ∈ lines, (10 : UInt8) ∉ line) :
    inputLines (piped lines) = lines.map (· ++ [10]) := by
  rw [inputLines_piped, ← List.flatMap_singleton' (lines.map _), List.flatMap_map]
  exact List.flatMap_congr fun line hline => inputLines_of_not_mem (h line hline)

theorem mainLoop_piped (u : Updater) (st : Storage φ) {lines : List Bytes}
    (h : ∀ line ∈ lines, (10 : UInt8) ∉ line) :
    u.mainLoop st (piped lines) = lines.forM (u.processCmd st) := by
  have hline : ∀ line : Bytes, u.processCmd st (strip (line ++ [10])) = u.processCmd st line := by
    intro line
    rw [Updater.processCmd_eq, Updater.processCmd_eq, command_strip, command_concat_newline]
  rw [Updater.mainLoop, inputLines_piped_of_not_mem h, List.forM_eq_forM, List.forM_map]
  exact congrArg _ (funext hline)

/-- **A stream of lines** is obeyed line by line, up to where an exception ends the updater. -/
theorem wp_mainLoop_items (u : Updater) (st : Storage φ) {zs : List Item}
    (h : ∀ z ∈ zs, z.Legible) (w : φ) :
    wp (u.mainLoop st (piped (zs.map Item.line))) ⟨w, []⟩ (fun _ s => Obeyed u zs s)
      (fun err s => Foreign st err ∧ ∃ done, done <+: zs ∧ Obeyed u done s) := by
  have hlines : ∀ line ∈ zs.map Item.line, (10 : UInt8) ∉ line := by
    intro line hline
    obtain ⟨z, hz, rfl⟩ := List.mem_map.mp hline
    exact (h z hz).noNewline
  rw [mainLoop_piped u st hlines, List.forM_eq_forM, List.forM_map, ← List.forM_eq_forM]
  refine wp_forM (fun done (s : Session φ) => Obeyed u done s) ?_ ⟨.nil, rfl⟩
  intro done z todo s hsplit hdone
  have hz : z.Legible := h z (hsplit ▸ List.mem_append_right _ (List.mem_cons_self ..))
  refine wp_mono (processCmd_obeys u hz hdone) (fun _ _ ht => ht) fun err t ht => ⟨ht.1, ?_⟩
  rcases ht.2 with ht | ht
  · exact ⟨done, ⟨z :: todo, hsplit.symm⟩, ht⟩
  · exact ⟨done ++ [z], ⟨todo, by rw [hsplit, List.append_assoc]; rfl⟩, ht⟩

end

/-! ## What the monitors of a run publish -/

theorem aggregatesOf_append (ps qs : List Publication) :
    aggregatesOf (ps ++ qs) = aggregatesOf ps ++ aggregatesOf qs := List.filterMap_append

theorem aggregatesOf_farewells (host : Bytes) (ds : List DomainStats) :
    aggregatesOf (ds.map (farewell host)) = [] := by
  refine List.filterMap_eq_nil_iff.mpr fun p hp => ?_
  obtain ⟨d, _, rfl⟩ := List.mem_map.mp hp
  rfl

theorem aggregatesOf_announcements (host : Bytes) (old : List DomainStats)
    (aggs : List AggregateDomainStats) : aggregatesOf (announcements host old aggs) = aggs := by
  induction aggs generalizing old with
  | nil => rfl
  | cons agg aggs ih =>
      rw [announcements, aggregatesOf_append, aggregatesOf_farewells, List.nil_append]
      exact congrArg (agg :: ·) (ih agg.domainStats)

theorem mem_lastStats {old : List DomainStats} {aggs : List AggregateDomainStats} {d : DomainStats}
    (h : d ∈ lastStats old aggs) : d ∈ old ∨ ∃ agg ∈ aggs, d ∈ agg.domainStats := by
  induction aggs generalizing old with
  | nil => exact Or.inl h
  | cons agg aggs ih =>
      rcases ih h with h | ⟨agg', hagg', h⟩
      · exact Or.inr ⟨agg, List.mem_cons_self .., h⟩
      · exact Or.inr ⟨agg', List.mem_cons_of_mem _ hagg', h⟩

/-- Whatever is announced is an aggregate, or the end of an entry of one. -/
theorem mem_announcements {host : Bytes} {old : List DomainStats}
    {aggs : List AggregateDomainStats} {p : Publication} (h : p ∈ announcements host old aggs) :
    (∃ agg ∈ aggs, p = .aggregate (aggregateKey host) agg)
      ∨ ∃ d, (d ∈ old ∨ ∃ agg ∈ aggs, d ∈ agg.domainStats) ∧ p = farewell host d := by
  induction aggs generalizing old with
  | nil => cases h
  | cons agg aggs ih =>
      rw [announcements, List.mem_append, List.mem_cons] at h
      rcases h with h | rfl | h
      · obtain ⟨d, hd, rfl⟩ := List.mem_map.mp h
        exact Or.inr ⟨d, Or.inl (List.mem_of_mem_filter hd), rfl⟩
      · exact Or.inl ⟨agg, List.mem_cons_self .., rfl⟩
      · rcases ih h with ⟨agg', hagg', rfl⟩ | ⟨d, hd, rfl⟩
        · exact Or.inl ⟨agg', List.mem_cons_of_mem _ hagg', rfl⟩
        · refine Or.inr ⟨d, Or.inr ?_, rfl⟩
          rcases hd with hd | ⟨agg', hagg', hd⟩
          · exact ⟨agg, List.mem_cons_self .., hd⟩
          · exact ⟨agg', List.mem_cons_of_mem _ hagg', hd⟩

variable {δ : Type}

theorem Account.aggregatesOf_sent {host : Bytes} {ps : List Publication}
    {aggs : List AggregateDomainStats} {cut : List DomainStats}
    (h : Account host ps aggs cut) : aggregatesOf ps = aggs := by
  rw [h.sent, aggregatesOf_append, aggregatesOf_announcements, aggregatesOf_farewells,
    List.append_nil]

theorem Account.hostname {host : Bytes} {ps : List Publication}
    {aggs : List AggregateDomainStats} {cut : List DomainStats} (h : Account host ps aggs cut)
    {agg : AggregateDomainStats} (hagg : agg ∈ aggregatesOf ps) : agg.hostname = host :=
  (h.hosts agg (h.aggregatesOf_sent ▸ hagg)).hostname

/-- Plain names in the aggregates are plain names in the ends, too. -/
theorem Account.legible {host : Bytes} {ps : List Publication} {aggs : List AggregateDomainStats}
    {cut : List DomainStats} (h : Account host ps aggs cut) (hnul : (0 : UInt8) ∉ host)
    (hplain : ∀ agg ∈ aggregatesOf ps, Plain agg) : ∀ z ∈ ps.flatMap items, z.Legible := by
  rw [h.aggregatesOf_sent] at hplain
  have hword : ∀ agg ∈ aggs, ∀ d ∈ agg.domainStats,
      IsWord isSpace (termInstanceIdent host d.domainUuid) := by
    intro agg hagg d hd
    have hhost := (h.hosts agg hagg).hostname ▸ (hplain agg hagg).host.noSpace
    have huuid := ((hplain agg hagg).uuids d hd).noSpace
    refine ⟨by simp [termInstanceIdent, bytes], fun b hb => ?_⟩
    simp only [termInstanceIdent, List.mem_append] at hb
    rcases hb with ((hb | hb) | hb) | hb
    · exact noSpace_of_all (s := bytes "servers.") (by decide) b hb
    · exact hhost b hb
    · exact noSpace_of_all (s := bytes ".") (by decide) b hb
    · exact huuid b hb
  intro z hz
  obtain ⟨p, hp, hz⟩ := List.mem_flatMap.mp hz
  have hends : ∀ d, (∃ agg ∈ aggs, d ∈ agg.domainStats) → p = farewell host d → z.Legible := by
    rintro d ⟨agg, hagg, hd⟩ rfl
    rw [List.mem_singleton.mp hz]
    exact hword agg hagg d hd
  rw [h.sent, List.mem_append] at hp
  rcases hp with hp | hp
  · rcases mem_announcements hp with ⟨agg, hagg, rfl⟩ | ⟨d, hd | hd, hpd⟩
    · obtain ⟨e, he, rfl⟩ := List.mem_map.mp hz
      have hof := h.hosts agg hagg
      exact ⟨hplain agg hagg, ⟨hof.hostname ▸ hnul, hof.uuids⟩, he⟩
    · cases hd
    · exact hends d hd hpd
  · obtain ⟨d, hd, hpd⟩ := List.mem_map.mp hp
    rcases mem_lastStats (h.ends.subset hd) with hd | hd
    · cases hd
    · exact hends d hd hpd.symm

section Runs

variable {μ ο φ : Type} [DecidableEq μ] {net : Network μ ο} {gethostname : μ → Option Bytes}
  {tov : μ → Double} {s : System μ δ}

omit [DecidableEq μ] in
theorem lines_of_written {written : List (μ × Bytes)} {zs : List (μ × Item)}
    (h : written = zs.map fun z => (z.1, z.2.line)) :
    written.map Prod.snd = (zs.map Prod.snd).map Item.line := by
  rw [h, List.map_map, List.map_map]
  rfl

/-- Lines that are the first ones of every monitor's publications are of their items. -/
theorem exists_items {written : List (μ × Bytes)} {sent : μ → List Publication}
    {late : μ → List Bytes} (h : ∀ m, only m written ++ late m = (sent m).flatMap expectedLines) :
    ∃ zs : List (μ × Item), written = zs.map (fun z => (z.1, z.2.line))
      ∧ ∀ m, only m zs <+: (sent m).flatMap items
        ∧ (late m = [] → only m zs = (sent m).flatMap items) := by
  have hlines : ∀ m, only m written ++ late m = ((sent m).flatMap items).map Item.line := fun m =>
    (h m).trans (flatMap_expectedLines _)
  obtain ⟨zs, hzs, hsent⟩ := exists_traced (f := Item.line) fun m => ⟨_, hlines m⟩
  refine ⟨zs, hzs.symm, fun m => ⟨hsent m, fun hempty => (hsent m).eq_of_length ?_⟩⟩
  have hall := congrArg List.length (hlines m)
  rw [hempty, List.append_nil, ← hzs, only_map_snd, List.length_map, List.length_map] at hall
  exact hall

/-- **Every line written can be traced back** to what a publication has lines for. -/
theorem written_traced (hr : Runs net gethostname tov s) :
    ∃ zs : List (μ × Item), s.written = zs.map (fun z => (z.1, z.2.line))
      ∧ ∀ m, only m zs <+: (s.monitors m).sent.flatMap items
        ∧ (inFlight net s m = [] → only m zs = (s.monitors m).sent.flatMap items) := by
  obtain ⟨zs, hzs, hsent⟩ := exists_items (flowing_runs hr).delivered
  exact ⟨zs, hzs, fun m => ⟨(hsent m).1, fun hempty => (hsent m).2 (by rw [hempty]; rfl)⟩⟩

/-- What is known of the publications that lines stem from. -/
structure Sources (names : μ → Bytes) (sent : μ → List Publication) : Prop where
  legible : ∀ m, ∀ z ∈ (sent m).flatMap items, z.Legible
  /-- Every monitor's aggregates are of its own host. -/
  hosts : ∀ m, ∀ agg ∈ aggregatesOf (sent m), agg.hostname = names m

omit [DecidableEq μ] in
theorem Sources.sublist {names : μ → Bytes} {sent kept : μ → List Publication}
    (h : Sources names sent) (hkept : ∀ m, (kept m).Sublist (sent m)) : Sources names kept where
  legible m z hz := by
    obtain ⟨p, hp, hz⟩ := List.mem_flatMap.mp hz
    exact h.legible m z (List.mem_flatMap.mpr ⟨p, (hkept m).subset hp, hz⟩)
  hosts m agg hagg := h.hosts m agg (((hkept m).filterMap _).subset hagg)

theorem sources_of_runs (hr : Runs net gethostname tov s)
    (hplain : ∀ m, ∀ agg ∈ aggregatesOf (s.monitors m).sent, Plain agg) :
    Sources (fun m => mHostname (gethostname m)) fun m => (s.monitors m).sent := by
  refine ⟨fun m => ?_, fun m agg hagg => ?_⟩
  · obtain ⟨aggs, cut, htold⟩ := (telling_of_runs hr m).told
    exact htold.legible (zero_not_mem_mHostname _) (hplain m)
  · obtain ⟨aggs, cut, htold⟩ := (telling_of_runs hr m).told
    exact htold.hostname hagg

end Runs

section Traced

variable {μ φ : Type} [DecidableEq μ] {names : μ → Bytes} {sent : μ → List Publication}
  {zs : List (μ × Item)}

/-- Some items, each of which its monitor sent. -/
def Stems (sent : μ → List Publication) (zs : List (μ × Item)) : Prop :=
  ∀ m z, (m, z) ∈ zs → z ∈ (sent m).flatMap items

/-- Some items, every monitor's first ones in the order it sent them. -/
def Traced (sent : μ → List Publication) (zs : List (μ × Item)) : Prop :=
  ∀ m, only m zs <+: (sent m).flatMap items

/-- What the updater has done by a time, sorted by the monitors it did it for. -/
def Attributed (u : Updater) (sent : μ → List Publication) (zs : List (μ × Item))
    (sess : Session φ) : Prop :=
  Obeyed u (zs.map Prod.snd) sess ∧ Traced sent zs

theorem Traced.stems (h : Traced sent zs) : Stems sent zs := fun m z hz =>
  (h m).subset (List.mem_filterMap.mpr ⟨(m, z), hz, if_pos rfl⟩)

theorem Traced.left {late : List (μ × Item)} (h : Traced sent (zs ++ late)) : Traced sent zs :=
  fun m => ((List.prefix_append zs late).filterMap _).trans (h m)

omit [DecidableEq μ] in
/-- They are legible, if the names are. -/
theorem Stems.legible (h : Stems sent zs) (hsent : Sources names sent) :
    ∀ z ∈ zs.map Prod.snd, z.Legible := by
  intro z hz
  obtain ⟨⟨m, z⟩, hmem, rfl⟩ := List.mem_map.mp hz
  exact hsent.legible m z (h m z hmem)

/-- The items done are the first ones, for every monitor. -/
theorem Traced.attributed (h : Traced sent zs) {u : Updater} {done : List Item}
    {sess : Session φ} (hdone : done <+: zs.map Prod.snd) (hobeyed : Obeyed u done sess) :
    ∃ zs', Attributed u sent zs' sess := by
  have hpart : done = (zs.take done.length).map Prod.snd := by
    rw [List.map_take]
    exact List.prefix_iff_eq_take.mp hdone
  refine ⟨zs.take done.length, hpart ▸ hobeyed, fun m => ?_⟩
  exact ((List.take_prefix _ zs).filterMap _).trans (h m)

/-- **The updater on traced lines** has done for each monitor what it sent, in order. -/
theorem wp_mainLoop_traced (h : Traced sent zs) (hsent : Sources names sent) (u : Updater)
    (st : Storage φ) (w : φ) :
    wp (u.mainLoop st (piped ((zs.map Prod.snd).map Item.line))) ⟨w, []⟩
      (fun _ sess => Attributed u sent zs sess)
      (fun err sess => Foreign st err ∧ ∃ zs, Attributed u sent zs sess) := by
  refine wp_mono (wp_mainLoop_items u st (h.stems.legible hsent) w) ?_ ?_
  · intro _ sess hobeyed
    exact ⟨hobeyed, h⟩
  · intro err sess herr
    obtain ⟨hforeign, done, hdone, hobeyed⟩ := herr
    exact ⟨hforeign, h.attributed hdone hobeyed⟩

omit [DecidableEq μ] in
/-- What the updater has recorded stems from an aggregate of the item's own monitor. -/
theorem Stems.reading (h : Stems sent zs) (hsent : Sources names sent) {m : μ}
    {agg : AggregateDomainStats} {e : DomainStats × Metric} (hz : (m, Item.reading agg e) ∈ zs) :
    agg ∈ aggregatesOf (sent m) ∧ Plain agg ∧ agg.hostname = names m ∧ e ∈ entries agg := by
  have hitem : (agg, e) ∈ historyEntries (aggregatesOf (sent m)) := by
    rw [← reading?_items]
    exact List.mem_filterMap.mpr ⟨_, h m _ hz, rfl⟩
  obtain ⟨agg', hagg, hpair⟩ := List.mem_flatMap.mp hitem
  obtain ⟨e', he, heq⟩ := List.mem_map.mp hpair
  cases heq
  exact ⟨hagg, (hsent.legible m _ (h m _ hz)).1, hsent.hosts m agg hagg, he⟩

end Traced

/-! ## One file -/

theorem forall₂_filter {α β : Type} {R : α → β → Prop} {xs : List α} {ys : List β} {p : α → Bool}
    {q : β → Bool} (h : List.Forall₂ R xs ys) (hpq : ∀ x ∈ xs, ∀ y, R x y → p x = q y) :
    List.Forall₂ R (xs.filter p) (ys.filter q) := by
  induction h with
  | nil => exact .nil
  | @cons x y xs ys hxy _ ih =>
      have hrest := ih fun x' hx' => hpq x' (List.mem_cons_of_mem _ hx')
      have hsame := hpq x (List.mem_cons_self ..) y hxy
      rw [List.filter_cons, List.filter_cons, hsame]
      split
      · exact .cons hxy hrest
      · exact hrest

/-- Whether a reading is of one metric of one instance. -/
def isOf (r : Coordinates) (x : AggregateDomainStats × DomainStats × Metric) : Bool :=
  decide (x.1.hostname = r.host ∧ x.2.1.domainUuid = r.uuid ∧ x.2.2 = r.metric)

/-- The calls on one file are the readings of one metric of one instance. -/
theorem follows_file {u : Updater} {xs : List (AggregateDomainStats × DomainStats × Metric)}
    {calls : List WhisperUpdate} (h : Follows u xs calls) {r : Coordinates}
    (hhost : PlainHost r.host) (huuid : PlainPart r.uuid)
    (hplain : ∀ x ∈ xs, PlainHost x.1.hostname ∧ PlainPart x.2.1.domainUuid) :
    Follows u (xs.filter (isOf r)) (calls.filter fun call => call.path = r.path u) := by
  refine forall₂_filter h fun x hx call hcall => ?_
  rw [isOf, decide_eq_decide, hcall.path]
  refine ⟨?_, fun heq => metricPath_injective (hplain x hx).1 hhost (hplain x hx).2 huuid heq⟩
  rintro ⟨hh, hu, hm⟩
  rw [hh, hu, hm, Coordinates.path]

/-- What a monitor has published of one metric of one instance, in order. -/
def readingsOf (r : Coordinates) (sent : List Publication) :
    List (AggregateDomainStats × DomainStats × Metric) :=
  (historyEntries (aggregatesOf sent)).filter (isOf r)

section Traced

variable {μ φ : Type} [DecidableEq μ] {names : μ → Bytes} {sent : μ → List Publication}
  {zs : List (μ × Item)}

/-- Readings of one host are the readings of its monitor. -/
theorem readings_only {m : μ} {r : Coordinates}
    (h : ∀ m' agg e, (m', Item.reading agg e) ∈ zs → m' ≠ m → agg.hostname ≠ r.host) :
    ((zs.map Prod.snd).filterMap Item.reading?).filter (isOf r)
      = ((only m zs).filterMap Item.reading?).filter (isOf r) := by
  induction zs with
  | nil => rfl
  | cons z zs ih =>
      obtain ⟨m', z⟩ := z
      have hrest := ih fun m'' agg e hmem => h m'' agg e (List.mem_cons_of_mem _ hmem)
      rw [List.map_cons]
      by_cases hm : m' = m
      · subst hm
        rw [only_cons_self, List.filterMap_cons, List.filterMap_cons]
        cases z with
        | ended ident => exact hrest
        | reading agg e =>
            show List.filter _ (_ :: _) = List.filter _ (_ :: _)
            rw [List.filter_cons, List.filter_cons, hrest]
      · rw [only_cons_of_ne hm, List.filterMap_cons]
        cases z with
        | ended ident => exact hrest
        | reading agg e =>
            have hother : isOf r (agg, e) = false := by
              refine decide_eq_false fun hsame => ?_
              exact h m' agg e (List.mem_cons_self ..) hm hsame.1
            show List.filter _ (_ :: _) = _
            rw [List.filter_cons_of_neg (by rw [hother]; decide), hrest]

/-- The calls on a file of monitor `m`'s host follow a part of what `m` has sent. -/
theorem Stems.file (h : Stems sent zs) (hsent : Sources names sent) {u : Updater}
    {calls : List WhisperUpdate}
    (hcalls : Follows u ((zs.map Prod.snd).filterMap Item.reading?) calls)
    (hdistinct : ∀ m m', names m = names m' → m = m') {m : μ} {r : Coordinates}
    (hhost : r.host = names m) (hplainHost : PlainHost r.host) (huuid : PlainPart r.uuid) :
    Follows u (((only m zs).filterMap Item.reading?).filter (isOf r))
      (calls.filter fun call => call.path = r.path u) := by
  rw [← readings_only (r := r) (m := m)]
  · refine follows_file hcalls hplainHost huuid fun x hx => ?_
    obtain ⟨z, hz, hread⟩ := List.mem_filterMap.mp hx
    obtain ⟨⟨m', z⟩, hmem, rfl⟩ := List.mem_map.mp hz
    cases z with
    | ended ident => cases hread
    | reading agg e =>
        cases hread
        obtain ⟨_, hplain, _, he⟩ := h.reading hsent hmem
        exact ⟨hplain.host, hplain.uuids _ (mem_domainStats_of_entry he)⟩
  · intro m' agg e hmem hne hsame
    refine hne (hdistinct m' m ?_)
    rw [← (h.reading hsent hmem).2.2.1, hsame, hhost]

theorem Traced.readings (h : Traced sent zs) (m : μ) (r : Coordinates) :
    ((only m zs).filterMap Item.reading?).filter (isOf r) <+: readingsOf r (sent m) := by
  rw [readingsOf, ← reading?_items]
  exact ((h m).filterMap _).filter _

/-- The ends among some items, still with the monitors they stem from. -/
def endedItems (zs : List (μ × Item)) : List (μ × Bytes) :=
  zs.filterMap fun z => z.2.ended?.map fun ident => (z.1, ident)

theorem only_endedItems (m : μ) (zs : List (μ × Item)) :
    only m (endedItems zs) = (only m zs).filterMap Item.ended? := by
  induction zs with
  | nil => rfl
  | cons z zs ih =>
      obtain ⟨m', z⟩ := z
      by_cases hm : m' = m
      · subst hm
        rw [only_cons_self, List.filterMap_cons]
        cases z with
        | reading agg e => exact ih
        | ended ident => exact (only_cons_self m' ident _).trans (congrArg (ident :: ·) ih)
      · rw [only_cons_of_ne hm]
        cases z with
        | reading agg e => exact ih
        | ended ident => exact (only_cons_of_ne hm ident _).trans ih

theorem Traced.ends (h : Traced sent zs) (m : μ) :
    only m (endedItems zs) <+: endsOf (sent m) := by
  rw [only_endedItems, ← ended?_items]
  exact (h m).filterMap _

omit [DecidableEq μ] in
theorem endedItems_snd (zs : List (μ × Item)) :
    (endedItems zs).map Prod.snd = (zs.map Prod.snd).filterMap Item.ended? := by
  rw [endedItems, List.map_filterMap, List.filterMap_map]
  refine List.filterMap_congr fun z _ => ?_
  obtain ⟨m, z⟩ := z
  cases z <;> rfl

/-- **One file, from traced lines**: the readings of its own monitor, in order. -/
theorem file_of_traced (h : Traced sent zs) (hsent : Sources names sent)
    (hdistinct : ∀ m m', names m = names m' → m = m') (u : Updater) (st : Storage φ) (w : φ)
    {m : μ} {r : Coordinates} (hhost : r.host = names m) (hplainHost : PlainHost r.host)
    (huuid : PlainPart r.uuid) :
    wp (u.mainLoop st (piped ((zs.map Prod.snd).map Item.line))) ⟨w, []⟩
      (fun _ sess => ∃ done, done <+: readingsOf r (sent m)
        ∧ Follows u done (sess.updates.filter fun call => call.path = r.path u)
        ∧ (only m zs = (sent m).flatMap items → done = readingsOf r (sent m)))
      (fun err sess => Foreign st err ∧ ∃ done, done <+: readingsOf r (sent m)
        ∧ Follows u done (sess.updates.filter fun call => call.path = r.path u)) := by
  refine wp_mono (wp_mainLoop_traced h hsent u st w) ?_ ?_
  · intro _ sess hatt
    refine ⟨_, hatt.2.readings m r,
      hatt.2.stems.file hsent hatt.1.updates hdistinct hhost hplainHost huuid, fun hall => ?_⟩
    rw [hall, reading?_items, readingsOf]
  · intro err sess herr
    obtain ⟨hforeign, zs, hatt⟩ := herr
    exact ⟨hforeign, _, hatt.2.readings m r,
      hatt.2.stems.file hsent hatt.1.updates hdistinct hhost hplainHost huuid⟩

end Traced

section Runs

variable {μ ο φ : Type} [DecidableEq μ] {net : Network μ ο} {gethostname : μ → Option Bytes}
  {tov : μ → Double} {s : System μ δ}

/--
**One file, at the end of a run without a break**: the readings of its own monitor. What
monitors of other names publish, and when, makes no difference to the file.
-/
theorem file_of_runs (net : Network μ ο) (gethostname : μ → Option Bytes) (tov : μ → Double)
    (s : System μ δ) (hr : Runs net gethostname tov s)
    (hdistinct : ∀ m m', mHostname (gethostname m) = mHostname (gethostname m') → m = m')
    (hplain : ∀ m, ∀ agg ∈ aggregatesOf (s.monitors m).sent, Plain agg) (u : Updater)
    (st : Storage φ) (w : φ) (m : μ) (r : Coordinates)
    (hhost : r.host = mHostname (gethostname m)) (hplainHost : PlainHost r.host)
    (huuid : PlainPart r.uuid) :
    wp (u.mainLoop st (piped (s.written.map Prod.snd))) ⟨w, []⟩
      (fun _ sess => ∃ done, done <+: readingsOf r (s.monitors m).sent
        ∧ Follows u done (sess.updates.filter fun call => call.path = r.path u)
        ∧ (inFlight net s m = [] → done = readingsOf r (s.monitors m).sent))
      (fun err sess => Foreign st err ∧ ∃ done, done <+: readingsOf r (s.monitors m).sent
        ∧ Follows u done (sess.updates.filter fun call => call.path = r.path u)) := by
  obtain ⟨zs, hwritten, hsent⟩ := written_traced hr
  rw [lines_of_written hwritten]
  refine wp_mono (file_of_traced (fun m => (hsent m).1) (sources_of_runs hr hplain) hdistinct u st w
    hhost hplainHost huuid) ?_ fun _ _ herr => herr
  intro _ sess hdone
  obtain ⟨done, hpart, hfollows, hall⟩ := hdone
  exact ⟨done, hpart, hfollows, fun hempty => hall ((hsent m).2 hempty)⟩

/-- Where nothing can be delivered, nothing is under way. -/
theorem inFlight_of_quiet (hr : Runs net gethostname tov s) (hquiet : ∀ s', ¬ Deliver net s s')
    (m : μ) : inFlight net s m = [] := by
  refine List.flatMap_eq_nil_iff.mpr fun sender _ => ?_
  show only m (s.links sender) = []
  cases hq : s.links sender with
  | nil => rfl
  | cons e rest =>
      refine absurd (.turn sender e.1 e.2 rest 0 hq ?_) (hquiet _)
      rw [(flowing_runs hr).receivers]

/-- **Every run can come to rest** without another update. -/
theorem exists_quiet [Finite μ] (hr : Runs net gethostname tov s) :
    ∃ s', Runs net gethostname tov s' ∧ s'.monitors = s.monitors
      ∧ ∀ m, inFlight net s' m = [] := by
  have := Fintype.ofFinite μ
  induction hload : load (connections net) (turnsLeft net) s.links
    using Nat.strong_induction_on generalizing s with
  | _ n ih =>
      by_cases hmore : ∃ t, Deliver net s t
      · obtain ⟨t, ht⟩ := hmore
        have hless := load_deliver (flowing_runs hr) ht
        obtain ⟨s', hs', hsame, hrest⟩ := ih _ (hload ▸ hless) (hr.deliver ht) rfl
        refine ⟨s', hs', hsame.trans ?_, hrest⟩
        cases ht
        rfl
      · exact ⟨s, hr, rfl, inFlight_of_quiet hr (not_exists.mp hmore)⟩

end Runs

/-! ## The domain that comes and goes -/

theorem plain_oneDomain : Plain oneDomain where
  host := ⟨by decide, noSpace_of_all (by decide), by decide⟩
  uuids := fun _ hdom => List.mem_singleton.mp hdom ▸
    ⟨by decide, noSpace_of_all (by decide), by decide, by decide⟩
  keys := by decide +kernel
  lines := by decide +kernel

theorem plain_noDomain : Plain noDomain where
  host := plain_oneDomain.host
  uuids := by intro _ hdom; cases hdom
  keys := by intro _ he; cases he
  lines := by intro _ he; cases he

theorem plain_afterSecond : ∀ agg ∈ aggregatesOf (afterSecond.monitors ()).sent, Plain agg := by
  intro agg hagg
  rw [sent_afterSecond] at hagg
  rcases List.mem_pair.mp hagg with rfl | rfl
  · exact plain_oneDomain
  · exact plain_noDomain

end CloudMon.Proof
