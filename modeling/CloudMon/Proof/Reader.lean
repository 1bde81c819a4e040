import CloudMon.Collector.Reader
import CloudMon.Proof.BadLines
import CloudMon.Proof.CutShort

/-!
# A pipe that may break

As long as no line ends the updater, the pipe has a reader and end-to-end delivery is what
it was. Once a line has ended it, any later write may be the collector's last.

A run in which that has happened is compared with the one in which the collector had gone
on printing the message it died of, and then been given no more turns: the same monitors
have published the same, the same messages are under way, and the lines printed are the
first ones of those printed there. The updater never got to the others. So what it has done
is the same in both, and whatever is known of the files from runs without a break holds of
these runs, too.
-/

namespace CloudMon.Proof

open CloudMon Wp Pipeline

/-! ## A line that ends the updater -/

section Updater

variable {φ : Type} {u : Updater} {st : Storage φ} {w : φ}

/-- Once the updater has come to such a line, nothing behind it matters. -/
theorem mainLoop_of_ends {handed : Bytes} (h : u.Ends st w handed) :
    ∃ err sess, ∀ more, u.mainLoop st (handed ++ more) ⟨w, []⟩ = .error err sess := by
  obtain ⟨lines, rest, err, sess, rfl, herr⟩ := h
  refine ⟨err, sess, fun more => ?_⟩
  rw [List.append_assoc, mainLoop_append]
  exact bind_error herr

/-- Whole lines end it if the loop over them throws. -/
theorem ends_piped {lines : List Bytes} : u.Ends st w (piped lines)
    ↔ ∃ err sess, u.mainLoop st (piped lines) ⟨w, []⟩ = .error err sess := by
  refine ⟨fun h => ?_, fun h => ?_⟩
  · obtain ⟨err, sess, herr⟩ := mainLoop_of_ends h
    have hall := herr []
    rw [List.append_nil] at hall
    exact ⟨err, sess, hall⟩
  · obtain ⟨err, sess, herr⟩ := h
    exact ⟨lines, [], err, sess, (List.append_nil _).symm, herr⟩

theorem ends_iff_badLine {lines : List Bytes} :
    u.Ends st w (piped lines) ↔ ¬ NoBadLine u st w (inputLines (piped lines)) := by
  have hrun := wp_mainLoop u st (inputLines (piped lines)) ⟨w, []⟩
  rw [ends_piped]
  refine ⟨fun h => ?_, fun h => ?_⟩
  · obtain ⟨err, sess, herr⟩ := h
    exact wp_of_error hrun herr
  · obtain ⟨err, sess, herr, -⟩ :=
      wp_throws (wp_mono hrun (fun _ _ hgood => h hgood.1) fun _ _ hbad => hbad)
    exact ⟨err, sess, herr⟩

theorem session_of_noBadLine {lines : List Bytes}
    (h : NoBadLine u st w (inputLines (piped lines))) :
    (u.session st w (piped lines)).1 = none := by
  unfold Updater.session
  cases hrun : u.mainLoop st (piped lines) ⟨w, []⟩ with
  | ok _ sess => rfl
  | error err sess => exact absurd h (ends_iff_badLine.mp (ends_piped.mpr ⟨err, sess, hrun⟩))

theorem ends_mono {handed input : Bytes} (h : u.Ends st w handed) (hsub : handed <+: input) :
    u.Ends st w input := by
  obtain ⟨lines, rest, err, sess, rfl, herr⟩ := h
  obtain ⟨more, rfl⟩ := hsub
  exact ⟨lines, rest ++ more, err, sess, List.append_assoc .., herr⟩

end Updater

/-- The calls for some lines, up to anywhere, have printed the first of the lines. -/
theorem printed_of_stdio {lines : List Bytes} {made : List StdioCall} (h : made <+: stdio lines) :
    printedLines made <+: lines ∧ Buffered.text made = piped (printedLines made) := by
  obtain ⟨done, hdone, hprints⟩ := Buffered.prints_prefix h
  have hlines : printedLines made = done := by
    rw [printedLines, hprints, List.map_map]
    exact (List.map_congr_left fun line _ => List.dropLast_concat).trans (List.map_id _)
  rw [hlines, ← Buffered.flatten_prints, hprints]
  exact ⟨hdone, rfl⟩

theorem printedLines_concat (done : List Bytes) (line : Bytes) :
    printedLines (stdio done ++ [.print (line ++ [10])]) = done ++ [line] := by
  rw [printedLines, Buffered.prints_append, stdio, Buffered.prints_records, List.map_append,
    List.map_map]
  exact congrArg₂ _ ((List.map_congr_left fun line _ => List.dropLast_concat).trans (List.map_id _))
    (congrArg (fun l => [l]) List.dropLast_concat)

/-! ## Runs with a break -/

section Runs

variable {μ ο δ φ : Type} [DecidableEq μ] {net : Network μ ο} {gethostname : μ → Option Bytes}
  {tov : μ → Double} {u : Updater} {st : Storage φ} {w : φ} {s : System μ δ}
  {cs : List StdioCall}

/-- The receivers with the collector's process gone. -/
def receiversWithout (hops k : Nat) : Receiver :=
  { stopped := decide (k = hops ∨ k = hops + 1) }

/-- A run without a break that `s` differs from only in what the collector has come to. -/
structure Outlived (net : Network μ ο) (gethostname : μ → Option Bytes) (tov : μ → Double)
    (u : Updater) (st : Storage φ) (w : φ) (s s₀ : System μ δ) : Prop where
  runs : Runs net gethostname tov s₀
  monitors : s₀.monitors = s.monitors
  links : s₀.links = s.links
  receivers : s.receivers = receiversWithout net.hops
  written : s.written <+: s₀.written
  ended : u.Ends st w (piped (s.written.map Prod.snd))

/-- The other run can take every step that is still possible. -/
theorem Outlived.update {s₀ s' : System μ δ} (h : Outlived net gethostname tov u st w s s₀)
    (hstep : Update net s s') : ∃ s₁, Outlived net gethostname tov u st w s' s₁ := by
  obtain ⟨hruns, hmonitors, hlinks, hreceivers, hwritten, hended⟩ := h
  obtain ⟨monitors, links, receivers, written⟩ := s₀
  obtain rfl : monitors = s.monitors := hmonitors
  obtain rfl : links = s.links := hlinks
  cases hstep with
  | returned m slotFirst host w' t halive hrun hsend =>
      exact ⟨_, hruns.update (.returned m slotFirst host w' t halive hrun hsend), rfl, rfl,
        hreceivers, hwritten, hended⟩
  | threw m slotFirst host w' e t halive hrun hsend =>
      exact ⟨_, hruns.update (.threw m slotFirst host w' e t halive hrun hsend), rfl, rfl,
        hreceivers, hwritten, hended⟩

theorem Outlived.turn {s₀ : System μ δ} (h : Outlived net gethostname tov u st w s s₀)
    {sender : Sender μ} {m : μ} {frames : List Frame} {rest : List (μ × List Frame)}
    (upper : UInt32) (hq : s.links sender = (m, frames) :: rest)
    (halive : (s.receivers (net.target sender)).stopped = false) :
    ∃ s₁, Outlived net gethostname tov u st w (s.afterTurn net sender m frames rest upper) s₁ := by
  obtain ⟨hruns, hmonitors, hlinks, hreceivers, hwritten, hended⟩ := h
  have hflow := flowing_runs hruns
  have hq₀ : s₀.links sender = (m, frames) :: rest := hlinks ▸ hq
  have hfirst : (m, frames) ∈ s₀.links sender := hq₀ ▸ List.mem_cons_self
  obtain ⟨p, hp, rfl⟩ := hflow.carried sender m frames hfirst
  have hidle : s.receivers (net.target sender) = {} := by
    rw [hreceivers] at halive ⊢
    exact congrArg (fun stopped => ({ stopped := stopped } : Receiver)) halive
  -- whoever still takes turns is a relay, and writes nothing
  have hk : net.target sender ≤ net.hops := by
    by_contra hk
    have hlast := eq_last_of_target (hflow.onPath sender m _ hfirst) hk
    rw [hreceivers, hlast] at halive
    exact absurd (of_decide_eq_false halive) (not_not_intro (Or.inr rfl))
  have hsame := hruns.deliver (.turn sender m _ rest upper hq₀ (by rw [hflow.receivers]))
  rw [afterTurn_eq hflow hp rest upper] at hsame
  rw [afterTurn_of_idle hidle hp rest upper]
  simp only [hk, if_true, List.append_nil, hlinks] at hsame ⊢
  exact ⟨_, hsame, hmonitors, rfl, hreceivers, hwritten, hended⟩

/-- Where the pipe breaks, the other run begins. -/
theorem outlived_afterBreak (h : PipedRuns net gethostname tov s cs) {m : μ} {frames : List Frame}
    {rest : List (μ × List Frame)} {upper : UInt32} {made : List StdioCall} {call : StdioCall}
    {f : Buffered.Stream UInt8} (hq : s.links (.relay net.hops) = (m, frames) :: rest)
    (hmade : made ++ [call]
      <+: turnCalls net.mp .whisperProxy upper (s.receivers (net.hops + 1)) frames)
    (hf : Buffered.After (cs ++ made) f) (hbreaks : Breaks u st w f call) :
    ∃ s₀, Outlived net gethostname tov u st w (s.afterBreak net m rest made) s₀ := by
  obtain ⟨hruns, rfl⟩ := stdio_of_piped h
  have hflow := flowing_runs hruns
  have hfirst : (m, frames) ∈ s.links (.relay net.hops) := hq ▸ List.mem_cons_self
  obtain ⟨p, hp, rfl⟩ := hflow.carried (.relay net.hops) m frames hfirst
  have hk : ¬ net.target (.relay net.hops : Sender μ) ≤ net.hops := Nat.not_succ_le_self _
  have hlines : made <+: stdio (expectedLines p) := by
    rw [turnCalls_eq, hflow.receivers, (turn_toMessage hp .whisperProxy upper).2.2, if_pos rfl]
      at hmade
    exact (List.prefix_append _ _).trans hmade
  obtain ⟨hprinted, htext⟩ := printed_of_stdio hlines
  -- the message as a whole, had there been a reader
  have hwhole := hruns.deliver
    (.turn (.relay net.hops) m _ rest upper hq (by rw [hflow.receivers]))
  rw [afterTurn_eq hflow hp rest upper] at hwhole
  simp only [hk, if_false, List.append_nil] at hwhole
  refine ⟨_, hwhole, rfl, ?_, funext fun k => ?_, ?_, ends_mono hbreaks.ended ⟨f.kept, ?_⟩⟩
  · exact update_target net s.links (.relay net.hops) rest
  · show Function.update (Function.update s.receivers net.hops _) (net.hops + 1) _ k = _
    rw [receiversWithout]
    by_cases hproxy : k = net.hops + 1
    · subst hproxy
      rw [Function.update_self, decide_eq_true (Or.inr rfl)]
    · rw [Function.update_of_ne hproxy]
      by_cases hbasic : k = net.hops
      · subst hbasic
        rw [Function.update_self, decide_eq_true (Or.inl rfl)]
      · rw [Function.update_of_ne hbasic, hflow.receivers,
          decide_eq_false (not_or.mpr ⟨hbasic, hproxy⟩)]
  · exact (List.prefix_append_right_inj _).mpr (hprinted.map _)
  · rw [hf.whole, Buffered.text_append, text_stdio, htext, System.afterBreak, List.map_append,
      List.map_map, piped, piped, piped, List.flatMap_append]
    exact congrArg _ (congrArg _ (List.map_id _).symm)

/-- **A run with a break** is like one without, as far as anybody but the collector can see. -/
theorem outlived_of_read (h : ReadRuns net gethostname tov u st w s cs) :
    PipedRuns net gethostname tov s cs ∨ ∃ s₀, Outlived net gethostname tov u st w s s₀ := by
  induction h with
  | init => exact Or.inl .init
  | update _ hstep ih =>
      rcases ih with hpiped | ⟨s₀, hover⟩
      · exact Or.inl (hpiped.update hstep)
      · exact Or.inr (hover.update hstep)
  | turn sender m frames rest upper _ hq halive ih =>
      rcases ih with hpiped | ⟨s₀, hover⟩
      · exact Or.inl (hpiped.turn sender m frames rest upper hq halive)
      · exact Or.inr (hover.turn upper hq halive)
  | broken m frames rest upper made call f _ hq halive hmade hf hbreaks ih =>
      rcases ih with hpiped | ⟨s₀, hover⟩
      · exact Or.inr (outlived_afterBreak hpiped hq hmade hf hbreaks)
      · rw [hover.receivers] at halive
        exact absurd (of_decide_eq_false halive) (not_not_intro (Or.inr rfl))

/-- **The updater does the same** in both, so what it does says nothing of a break. -/
theorem Outlived.mainLoop {s₀ : System μ δ} (h : Outlived net gethostname tov u st w s s₀) :
    u.mainLoop st (piped (s.written.map Prod.snd)) ⟨w, []⟩
      = u.mainLoop st (piped (s₀.written.map Prod.snd)) ⟨w, []⟩ := by
  obtain ⟨more, hmore⟩ := h.written
  obtain ⟨err, sess, herr⟩ := mainLoop_of_ends h.ended
  have hall := herr []
  rw [List.append_nil] at hall
  rw [hall, ← hmore, List.map_append, piped, List.flatMap_append]
  exact (herr _).symm

theorem exists_runs_of_read (h : ReadRuns net gethostname tov u st w s cs) :
    ∃ s₀ : System μ δ, Runs net gethostname tov s₀ ∧ s₀.monitors = s.monitors
      ∧ s₀.links = s.links ∧ u.mainLoop st (piped (s.written.map Prod.snd)) ⟨w, []⟩
        = u.mainLoop st (piped (s₀.written.map Prod.snd)) ⟨w, []⟩ := by
  rcases outlived_of_read h with hpiped | ⟨s₀, hover⟩
  · exact ⟨s, (stdio_of_piped hpiped).1, rfl, rfl, rfl⟩
  · exact ⟨s₀, hover.runs, hover.monitors, hover.links, hover.mainLoop⟩

theorem readRuns_of_piped (u : Updater) (st : Storage φ) (w : φ)
    (h : PipedRuns net gethostname tov s cs) : ReadRuns net gethostname tov u st w s cs := by
  induction h with
  | init => exact .init
  | update _ hstep ih => exact ih.update hstep
  | turn sender m frames rest upper _ hq halive ih =>
      exact ih.turn sender m frames rest upper hq halive

/--
**End-to-end delivery, as long as no line ends the updater.** In every run whose lines so far
have all been good ones no receiver stops; a monitor publishes only aggregates and
terminations of its own host; the lines written for it, followed by those still under way,
are the lines of everything it has published, in order. Deliveries among finitely many
monitors come to an end, and once nothing can be delivered any more, the lines written are
all of them.
-/
theorem delivered_in_order (net : Network μ ο) (gethostname : μ → Option Bytes) (tov : μ → Double)
    (u : Updater) (st : Storage φ) (w : φ) (s : System μ δ) (cs : List StdioCall)
    (hr : ReadRuns net gethostname tov u st w s cs)
    (hgood : NoBadLine u st w (inputLines (piped (s.written.map Prod.snd)))) :
    (∀ k, (s.receivers k).stopped = false)
      ∧ (∀ m, ∀ p ∈ (s.monitors m).sent, Wellformed (mHostname (gethostname m)) p)
      ∧ (∀ m, only m s.written ++ (inFlight net s m).flatMap (arrivingLines net)
        = (s.monitors m).sent.flatMap expectedLines)
      ∧ (Finite μ → ∀ run : Nat → System μ δ, run 0 = s →
        ∃ i, ¬ Deliver net (run i) (run (i + 1)))
      ∧ ((∀ s', ¬ Deliver net s s') →
        ∀ m, only m s.written = (s.monitors m).sent.flatMap expectedLines) := by
  rcases outlived_of_read hr with hpiped | ⟨s₀, hover⟩
  · exact delivered_of_runs net gethostname tov s (stdio_of_piped hpiped).1
  · exact absurd hgood (ends_iff_badLine.mp hover.ended)

/-- **Once a line has ended it**, the next one that is flushed may be the collector's last. -/
theorem exists_break {p : Publication} {done more : List Bytes} {line : Bytes}
    (h : PipedRuns net gethostname tov s cs) (hp : Deliverable net.mp p)
    (hlines : expectedLines p = done ++ line :: more) (hflushed : flushed line = true)
    (hended : u.Ends st w (piped (s.written.map Prod.snd ++ done))) :
    (s.receivers (net.hops + 1)).stopped = false
      ∧ stdio done ++ [.print (line ++ [10])] ++ [.flush] <+: turnCalls net.mp .whisperProxy 0
        (s.receivers (net.hops + 1)) (toMessage net.mp p).send
      ∧ ∃ f, Buffered.After (cs ++ (stdio done ++ [.print (line ++ [10])])) f
        ∧ Breaks u st w f .flush := by
  obtain ⟨hruns, hcs⟩ := stdio_of_piped h
  have hidle := (flowing_runs hruns).receivers (net.hops + 1)
  refine ⟨by rw [hidle], ?_, ⟨piped (s.written.map Prod.snd ++ done), line ++ [10]⟩, ?_,
    by simp, hended⟩
  · rw [turnCalls_eq, hidle, (turn_toMessage hp .whisperProxy 0).2.2, if_pos rfl, hlines,
      stdio_append, List.append_assoc, List.prefix_append_right_inj]
    refine ⟨stdio more, ?_⟩
    rw [stdio, stdio, Buffered.records, Buffered.records, List.flatMap_cons, Buffered.record,
      if_pos hflushed]
    rfl
  · -- the library hands on what it has at each flush
    have hhanded := Buffered.after_handed (cs ++ stdio done)
    rw [hcs, ← stdio_append, text_stdio] at hhanded
    rw [← List.append_assoc, hcs, ← stdio_append]
    have hprint : Buffered.After (stdio (s.written.map Prod.snd ++ done) ++ [.print (line ++ [10])])
        ⟨piped (s.written.map Prod.snd ++ done) ++ [], line ++ [10]⟩ := hhanded.print rfl
    rw [List.append_nil] at hprint
    exact hprint

/-! ## A disk that refuses nothing -/

/-- What every call of the updater's comes back from. -/
structure Accepting (st : Storage φ) : Prop where
  makedirs : ∀ path w, (st.makedirs path w).1 = none ∨ (st.makedirs path w).1 = some eexist
  create : ∀ path archives w, (st.create path archives w).1 = true
  update : ∀ call w, (st.update call w).1 = true

theorem Accepting.takes (h : Accepting st) (c : WhisperUpdate) (w : φ) :
    (takes st c w).1 = true := by
  have hmakes : ∀ w, (makes st c.path w).1 = true := by
    intro w
    simp only [makes, h.makedirs, if_true, h.create]
  simp only [Proof.takes, hmakes, if_true]
  split
  · exact h.update _ _
  · exact h.update _ _

/-- A legible line is served. -/
theorem Accepting.serveLine (h : Accepting st) (u : Updater) {z : Item} (hz : z.Legible) (w : φ) :
    ∃ made w', serveLine u st w (z.line ++ [10]) = some (made, w') := by
  unfold Proof.serveLine
  rw [command_concat_newline]
  cases z with
  | ended ident =>
      rw [command_ended hz]
      exact ⟨_, _, rfl⟩
  | reading agg e =>
      obtain ⟨hplain, hnul, he⟩ := hz
      have hdom := mem_domainStats_of_entry he
      have huuid := hplain.uuids _ hdom
      obtain ⟨value, hvalue, -⟩ := pyFloat_valueText e.2 e.1
      obtain ⟨timestamp, htime, -⟩ := pyFloat_formatF agg.tov
      have hfree := metricPath_noNul (u := u) hnul.host (hnul.uuids _ hdom) e.2
      rw [Item.line, command_eq_update.mpr ⟨_, split_whisperLine hplain hnul he, rfl,
        servers_isPrefixOf_keyOf _ _ _⟩]
      simp only [asked, fileOf_eq_metricPath u _ huuid, if_neg hfree, split_data, fields, hvalue,
        htime, Option.bind_eq_bind, Option.bind_some, h.takes, if_true]
      exact ⟨_, _, rfl⟩

theorem Accepting.noBadLine (h : Accepting st) (u : Updater) {zs : List Item}
    (hzs : ∀ z ∈ zs, z.Legible) (w : φ) :
    NoBadLine u st w (inputLines (piped (zs.map Item.line))) := by
  have hlines : ∀ line ∈ zs.map Item.line, (10 : UInt8) ∉ line := by
    intro line hline
    obtain ⟨z, hz, rfl⟩ := List.mem_map.mp hline
    exact (hzs z hz).noNewline
  rw [inputLines_piped_of_not_mem hlines, List.map_map]
  clear hlines
  induction zs generalizing w with
  | nil => trivial
  | cons z zs ih =>
      obtain ⟨made, w', hserve⟩ := h.serveLine u (hzs z (List.mem_cons_self ..)) w
      exact ⟨made, w', hserve, ih (fun z' hz' => hzs z' (List.mem_cons_of_mem _ hz')) w'⟩

theorem Accepting.noBadLine_of_runs (h : Accepting st) (hr : Runs net gethostname tov s)
    (hplain : ∀ m, ∀ agg ∈ aggregatesOf (s.monitors m).sent, Plain agg) (u : Updater) (w : φ) :
    NoBadLine u st w (inputLines (piped (s.written.map Prod.snd))) := by
  obtain ⟨zs, hwritten, hsent⟩ := written_traced hr
  have htraced : Traced (fun m => (s.monitors m).sent) zs := fun m => (hsent m).1
  rw [lines_of_written hwritten]
  exact h.noBadLine u (htraced.stems.legible (sources_of_runs hr hplain)) w

/-- **Where the disk refuses nothing** and the names are plain, no line is a bad one. -/
theorem noBadLine_of_accepting (hst : Accepting st)
    (h : ReadRuns net gethostname tov u st w s cs)
    (hplain : ∀ m, ∀ agg ∈ aggregatesOf (s.monitors m).sent, Plain agg) :
    NoBadLine u st w (inputLines (piped (s.written.map Prod.snd))) := by
  rcases outlived_of_read h with hpiped | ⟨s₀, hover⟩
  · exact hst.noBadLine_of_runs (stdio_of_piped hpiped).1 hplain u w
  · -- the line that ended the updater would be one of the other run's
    have hgood := hst.noBadLine_of_runs hover.runs (hover.monitors ▸ hplain) u w
    have hsub : piped (s.written.map Prod.snd) <+: piped (s₀.written.map Prod.snd) := by
      obtain ⟨more, hmore⟩ := hover.written
      refine ⟨piped (more.map Prod.snd), ?_⟩
      rw [← hmore, List.map_append, piped, piped, piped, List.flatMap_append]
    exact absurd hgood (ends_iff_badLine.mp (ends_mono hover.ended hsub))

/--
**Every file holds its own monitor's readings**, also when the pipe has broken. At the end of
any run of the system the updater has called whisper on the file of a metric of an instance
for exactly the readings the instance's monitor has published of that metric, in order; while
messages are still under way, or once an exception from outside has ended the updater, for
the first of them. What monitors of other names publish, and when, makes no difference.
-/
theorem file_of_read (net : Network μ ο) (gethostname : μ → Option Bytes) (tov : μ → Double)
    (u : Updater) (st : Storage φ) (w : φ) (s : System μ δ) (cs : List StdioCall)
    (hr : ReadRuns net gethostname tov u st w s cs)
    (hdistinct : ∀ m m', mHostname (gethostname m) = mHostname (gethostname m') → m = m')
    (hplain : ∀ m, ∀ agg ∈ aggregatesOf (s.monitors m).sent, Plain agg) (m : μ) (r : Coordinates)
    (hhost : r.host = mHostname (gethostname m)) (hplainHost : PlainHost r.host)
    (huuid : PlainPart r.uuid) :
    wp (u.mainLoop st (piped (s.written.map Prod.snd))) ⟨w, []⟩
      (fun _ sess => ∃ done, done <+: readingsOf r (s.monitors m).sent
        ∧ Follows u done (sess.updates.filter fun call => call.path = r.path u)
        ∧ (inFlight net s m = [] → done = readingsOf r (s.monitors m).sent))
      (fun err sess => Foreign st err ∧ ∃ done, done <+: readingsOf r (s.monitors m).sent
        ∧ Follows u done (sess.updates.filter fun call => call.path = r.path u)) := by
  obtain ⟨s₀, hruns, hmonitors, hlinks, hloop⟩ := exists_runs_of_read hr
  have hflying : inFlight net s m = inFlight net s₀ m := by rw [inFlight, inFlight, hlinks]
  rw [← hmonitors] at hplain ⊢
  rw [hflying, wp, hloop]
  exact file_of_runs net gethostname tov s₀ hruns hdistinct hplain u st w m r hhost hplainHost huuid

end Runs

/-! ## A domain that comes and goes, read to the end -/

theorem accepting_emptyDisk : Accepting emptyDisk where
  makedirs _ _ := Or.inl rfl
  create _ _ _ := rfl
  update _ _ := rfl

/-- Its run comes to rest with all its lines good ones. -/
theorem delivered_in_order_afterSecond : ∃ (s : System Unit DomId) (cs : List StdioCall),
    s.monitors = afterSecond.monitors
      ∧ ReadRuns noRelay (fun _ => none) (fun _ => .fin 0) dataUpdater emptyDisk () s cs
      ∧ (∀ k, (s.receivers k).stopped = false)
      ∧ (∀ m, ∀ p ∈ (s.monitors m).sent, Wellformed (mHostname none) p)
      ∧ (∀ m, only m s.written ++ (inFlight noRelay s m).flatMap (arrivingLines noRelay)
        = (s.monitors m).sent.flatMap expectedLines)
      ∧ (Finite Unit → ∀ run : Nat → System Unit DomId, run 0 = s →
        ∃ i, ¬ Deliver noRelay (run i) (run (i + 1)))
      ∧ ((∀ s', ¬ Deliver noRelay s s') →
        ∀ m, only m s.written = (s.monitors m).sent.flatMap expectedLines) := by
  obtain ⟨s, cs, -, hsame, hcs, -, -⟩ := killed_afterSecond
  have hread := readRuns_of_piped dataUpdater emptyDisk () hcs
  exact ⟨s, cs, hsame, hread, delivered_in_order noRelay _ _ dataUpdater emptyDisk () s cs hread
    (noBadLine_of_accepting accepting_emptyDisk hread fun _ => hsame ▸ plain_afterSecond)⟩

/-- The one reading there was of the domain's memory is recorded. -/
theorem file_of_read_afterSecond : ∃ s : System Unit DomId, s.monitors = afterSecond.monitors
    ∧ wp (dataUpdater.mainLoop emptyDisk (piped (s.written.map Prod.snd))) ⟨(), []⟩
      (fun _ sess => Follows dataUpdater
        (readingsOf ⟨bytes "unknown-host", bytes "uuid-1", .mem⟩ (afterSecond.monitors ()).sent)
        (sess.updates.filter fun call =>
          call.path = bytes "/data/servers/unknown-host/uuid-1/mem.wsp"))
      (fun err _ => Foreign emptyDisk err) := by
  obtain ⟨s, cs, -, hsame, hcs, -, hrest⟩ := killed_afterSecond
  have hpath : (⟨bytes "unknown-host", bytes "uuid-1", .mem⟩ : Coordinates).path dataUpdater
      = bytes "/data/servers/unknown-host/uuid-1/mem.wsp" := by decide
  refine ⟨s, hsame, wp_mono (file_of_read noRelay _ _ dataUpdater emptyDisk () s cs
    (readRuns_of_piped _ _ _ hcs) (fun _ _ _ => rfl) (fun _ => hsame ▸ plain_afterSecond) ()
    ⟨bytes "unknown-host", bytes "uuid-1", .mem⟩ rfl plain_oneDomain.host
    ⟨by decide, noSpace_of_all (by decide), by decide, by decide⟩) ?_ fun _ _ herr => herr.1⟩
  intro _ sess hdone
  obtain ⟨done, _, hfollows, hall⟩ := hdone
  rw [hall (hrest ()), hsame, hpath] at hfollows
  exact hfollows

/-! ## A line that whisper refuses -/

/-- A disk whose whisper takes no time: all are older than what it keeps. -/
def expiredDisk : Storage Unit := { emptyDisk with update := fun _ w => (false, w) }

def firstPublication : Publication :=
  .aggregate (bytes "monitor.servers.unknown-host") oneDomain

/-- The lines of the domain's CPU and of its memory, which come first. -/
def firstLine : Bytes := whisperLine oneDomain (oneDomain.domainStats.headD {}) .cpu

def secondLine : Bytes := whisperLine oneDomain (oneDomain.domainStats.headD {}) .mem

theorem links_afterFirst :
    afterFirst.links (.monitor ()) = [((), (toMessage noRelay.mp firstPublication).send)] := by
  show ([] : List (Unit × List Frame))
    ++ (transmitted ((published firstUpdate.events).map _)).map _ = _
  rw [published_firstUpdate]
  rfl

theorem sent_afterFirst : (afterFirst.monitors ()).sent = [firstPublication] := by
  show [] ++ published firstUpdate.events = _
  rw [published_firstUpdate]
  rfl

theorem deliverable_firstPublication : Deliverable noRelay.mp firstPublication := by
  have hsent : firstPublication ∈ (afterFirst.monitors ()).sent :=
    sent_afterFirst ▸ List.mem_singleton_self _
  exact ⟨_, zero_not_mem_mHostname none, (flowing_runs runs_afterFirst).wellformed () _ hsent,
    by decide +kernel, by decide +kernel⟩

/-- The first aggregate has been passed on to the proxy. -/
def atTheProxy : System Unit DomId :=
  afterFirst.afterTurn noRelay (.monitor ()) () (toMessage noRelay.mp firstPublication).send [] 0

theorem runs_atTheProxy : Runs noRelay (fun _ => none) (fun _ => .fin 0) atTheProxy :=
  runs_afterFirst.deliver (.turn (.monitor ()) () _ [] 0 links_afterFirst rfl)

theorem atTheProxy_eq : atTheProxy = { afterFirst with
    links := Function.update (fun _ => []) (.relay 0)
      [((), (toMessage noRelay.mp firstPublication).send)] } := by
  have hlinks : Function.update afterFirst.links (.monitor ()) [] = fun _ => [] :=
    (Function.update_idem _ _ _).trans (Function.update_eq_self (Sender.monitor ()) fun _ => [])
  rw [atTheProxy, afterTurn_eq (flowing_runs runs_afterFirst) deliverable_firstPublication, hlinks]
  rfl

theorem written_atTheProxy : atTheProxy.written = [] := by
  rw [atTheProxy_eq]
  rfl

theorem links_atTheProxy :
    atTheProxy.links (.relay 0) = [((), (toMessage noRelay.mp firstPublication).send)] := by
  rw [atTheProxy_eq]
  rfl

/-- The proxy prints the second line there, and that may be its last. -/
theorem break_atTheProxy {cs : List StdioCall}
    (h : PipedRuns noRelay (fun _ => none) (fun _ => .fin 0) atTheProxy cs) :
    (atTheProxy.receivers (noRelay.hops + 1)).stopped = false
      ∧ stdio [firstLine] ++ [.print (secondLine ++ [10])] ++ [.flush]
        <+: turnCalls noRelay.mp .whisperProxy 0 (atTheProxy.receivers (noRelay.hops + 1))
          (toMessage noRelay.mp firstPublication).send
      ∧ ∃ f, Buffered.After (cs ++ (stdio [firstLine] ++ [.print (secondLine ++ [10])])) f
        ∧ Breaks dataUpdater expiredDisk () f .flush := by
  have hrefused : wp (dataUpdater.mainLoop expiredDisk (piped [firstLine])) ⟨(), []⟩
      (fun _ _ => False) (fun _ _ => True) := by decide +kernel
  obtain ⟨err, sess, herr, -⟩ := wp_throws hrefused
  have hended : dataUpdater.Ends expiredDisk ()
      (piped (atTheProxy.written.map Prod.snd ++ [firstLine])) := by
    rw [written_atTheProxy]
    exact ends_piped.mpr ⟨err, sess, herr⟩
  exact exists_break h deliverable_firstPublication rfl (flushed_whisperLine _ _ _) hended

/--
The domain's first line is refused, and the proxy dies printing the second: two of four lines
are written and the relay has stopped, with nothing left to deliver.
-/
theorem not_delivered_expired : ∃ (s : System Unit DomId) (cs : List StdioCall),
    ReadRuns noRelay (fun _ => none) (fun _ => .fin 0) dataUpdater expiredDisk () s cs
      ∧ (s.receivers noRelay.hops).stopped = true ∧ (∀ s', ¬ Deliver noRelay s s')
      ∧ only () s.written ≠ (s.monitors ()).sent.flatMap expectedLines := by
  obtain ⟨cs, hpiped⟩ := exists_piped runs_atTheProxy
  obtain ⟨hidle, hmade, f, hf, hbreaks⟩ := break_atTheProxy hpiped
  have hbroken := (readRuns_of_piped dataUpdater expiredDisk () hpiped).broken () _ [] 0 _ _ f
    links_atTheProxy hidle hmade hf hbreaks
  refine ⟨_, _, hbroken, rfl, fun s' hstep => ?_, fun hall => ?_⟩
  · -- the one message there was has been taken
    cases hstep with
    | turn sender m frames rest upper hq halive =>
        change Function.update atTheProxy.links (.relay 0) [] sender = _ at hq
        rw [atTheProxy_eq, Function.update_idem] at hq
        by_cases hsender : sender = .relay 0
        · rw [hsender, Function.update_self] at hq
          cases hq
        · rw [Function.update_of_ne hsender] at hq
          cases hq
  · have hsent : (atTheProxy.monitors ()).sent = [firstPublication] := by
      rw [atTheProxy_eq]
      exact sent_afterFirst
    change only () (atTheProxy.written ++ _) = (atTheProxy.monitors ()).sent.flatMap _ at hall
    rw [written_atTheProxy, hsent, List.nil_append, only_map_self] at hall
    exact absurd (congrArg List.length hall) (by decide)

end CloudMon.Proof
