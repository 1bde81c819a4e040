import CloudMon.Collector.Restarts
import CloudMon.Proof.Faults
import CloudMon.Proof.Reader

/-!
# The files over many collectors

The lines that all the collectors have written, one after the other, are those of one run,
short of what a broken pipe has cut off. So a run with collectors that die goes along with
one in which messages are lost and restarts happen and no pipe breaks, and what is known of
that is known of it, too.

Each collector has written its own share of the lines, and its own updater has done what the
share asks for: short of what was in the buffer when the collector died, which is
terminations, or of what an exception kept it from. Nothing of this needs the updaters to
know of each other, or one to be done before the next begins: an updater has no state but
the files, and what it does for a line depends on the line alone.
-/

namespace CloudMon.Proof

open CloudMon Wp Words Pipeline

variable {μ ο δ φ : Type} [DecidableEq μ] {net : Network μ ο} {gethostname : μ → Option Bytes}
  {tov : μ → Double} {u : Updater} {s : System μ δ} {f : Faults μ} {c : Collectors μ φ}

/-! ## What has come of the publications -/

/-- Some of what has been sent, short of as many publications as have been lost. -/
def Left (s : System μ δ) (f : Faults μ) (kept : μ → List Publication) : Prop :=
  ∀ m, (kept m).Sublist (s.monitors m).sent
    ∧ (kept m).length + f.lost m = (s.monitors m).sent.length

omit [DecidableEq μ] in
theorem eq_of_left {kept : μ → List Publication} (h : Left s .none kept) (m : μ) :
    kept m = (s.monitors m).sent := (h m).1.eq_of_length (h m).2

/-- The lines of some publications in order; of `n` of them the last lines may be missing. -/
inductive Shortened : Nat → List Publication → List Bytes → Prop where
  | nil : Shortened 0 [] []
  | whole {n : Nat} {ps : List Publication} {lines : List Bytes} (p : Publication) :
      Shortened n ps lines → Shortened n (ps ++ [p]) (lines ++ expectedLines p)
  | cut {n : Nat} {ps : List Publication} {lines first : List Bytes} (p : Publication) :
      Shortened n ps lines → first <+: expectedLines p →
      Shortened (n + 1) (ps ++ [p]) (lines ++ first)

/-- The system as it would be had its collectors written something else. -/
def withWritten (s : System μ δ) (full : List (μ × Bytes)) : System μ δ :=
  { s with written := full }

/-- What has come of the publications; `full` is what would have been written without a break. -/
structure Ledger (net : Network μ ο) (gethostname : μ → Option Bytes) (tov : μ → Double)
    (u : Updater) (s : System μ δ) (f : Faults μ) (c : Collectors μ φ)
    (full : List (μ × Bytes)) (taken late : μ → List Publication) : Prop where
  runs : FaultyRuns net gethostname tov (withWritten s full) f
  surviving : Surviving net (fun m => mHostname (gethostname m)) (withWritten s full) taken late
  left : Left s f fun m => taken m ++ late m
  short : ∀ m, Shortened (c.cut m) (taken m) (only m s.written)
  part : s.written.Sublist full
  /-- A pipe breaks only where an exception has ended an updater. -/
  whole : (∀ x ∈ c.past, (x.session u).1 = none) → s.written = full ∧ ∀ m, c.cut m = 0

section Steps

variable {full : List (μ × Bytes)} {taken late : μ → List Publication}

theorem ledger_init (gethostname : μ → Option Bytes) (tov : μ → Double) (u : Updater)
    (st : Storage φ) (w : φ) :
    Ledger net gethostname tov u (System.init gethostname tov : System μ δ) .none
      ⟨[], st, w, [], fun _ => 0⟩ [] (fun _ => []) fun _ => [] where
  runs := .init
  surviving := surviving_init gethostname tov
  left _ := ⟨.refl _, rfl⟩
  short _ := .nil
  part := .refl _
  whole _ := ⟨rfl, fun _ => rfl⟩

theorem Ledger.idle (h : Ledger net gethostname tov u s f c full taken late) (k : Nat) :
    s.receivers k = {} := h.surviving.flowing.receivers k

/-- A receiver is between two messages anyway. -/
theorem Ledger.afterReceiver (h : Ledger net gethostname tov u s f c full taken late) (k : Nat) :
    s.afterReceiver k = s := by
  rw [System.afterReceiver, ← h.idle k, Function.update_eq_self]

theorem left_afterUpdate (h : Left s f fun m => taken m ++ late m) {m : μ} {ω : Type}
    (x : MonitorState ω δ) (alive : Bool) :
    Left (s.afterUpdate net m x alive) f
      fun m' => taken m' ++ Function.update late m (late m ++ published x.events) m' := by
  intro m'
  show (taken m' ++ Function.update late m _ m').Sublist (Function.update s.monitors m _ m').sent
    ∧ (taken m' ++ Function.update late m _ m').length + f.lost m'
      = (Function.update s.monitors m _ m').sent.length
  obtain ⟨hsub, hlength⟩ := h m'
  by_cases hm : m' = m
  · subst hm
    rw [Function.update_self, Function.update_self, ← List.append_assoc]
    refine ⟨hsub.append_right _, ?_⟩
    simp only [List.length_append] at hlength ⊢
    omega
  · rw [Function.update_of_ne hm, Function.update_of_ne hm]
    exact ⟨hsub, hlength⟩

theorem ledger_update (h : Ledger net gethostname tov u s f c full taken late)
    {s' : System μ δ} (hstep : Update net s s') :
    ∃ late', Ledger net gethostname tov u s' f c full taken late' := by
  have hclean : ∀ {m : μ} {ω : Type} (w : ω), (s.monitors m).alive = true →
      Clean (mHostname (gethostname m)) ((s.monitors m).pub.inWorld w) := fun w halive =>
    ⟨h.surviving.flowing.clean _ halive, fun p hp => absurd hp List.not_mem_nil⟩
  cases hstep with
  | returned m slotFirst host w x halive hrun hsend =>
      have hx := wp_of_ok (wp_update_clean slotFirst host (hclean w halive)) hrun
      exact ⟨_, h.runs.update (.returned m slotFirst host w x halive hrun hsend),
        surviving_afterUpdate h.surviving (zero_not_mem_mHostname _) hx hsend,
        left_afterUpdate h.left x true, h.short, h.part, h.whole⟩
  | threw m slotFirst host w e x halive hrun hsend =>
      have hx := wp_of_error (wp_update_clean slotFirst host (hclean w halive)) hrun
      exact ⟨_, h.runs.update (.threw m slotFirst host w e x halive hrun hsend),
        surviving_afterUpdate h.surviving (zero_not_mem_mHostname _) hx hsend,
        left_afterUpdate h.left x false, h.short, h.part, h.whole⟩

/-- What has been taken grows by one publication, and so do its lines. -/
theorem shortened_update {n : μ → Nat} {written : List (μ × Bytes)} {m : μ} {p : Publication}
    {lines : List Bytes} {k : Nat} (h : ∀ m, Shortened (n m) (taken m) (only m written))
    (hm : Shortened k (taken m ++ [p]) (only m written ++ lines)) (m' : μ) :
    Shortened (Function.update n m k m') (Function.update taken m (taken m ++ [p]) m')
      (only m' (written ++ lines.map fun line => (m, line))) := by
  by_cases hm' : m' = m
  · subst hm'
    rw [Function.update_self, Function.update_self, only_append, only_map_self]
    exact hm
  · rw [Function.update_of_ne hm', Function.update_of_ne hm', only_append,
      only_map_of_ne (Ne.symm hm'), List.append_nil]
    exact h m'

theorem ledger_turn (h : Ledger net gethostname tov u s f c full taken late) {sender : Sender μ}
    {m : μ} {frames : List Frame} {rest : List (μ × List Frame)} (upper : UInt32)
    (hq : s.links sender = (m, frames) :: rest) (calls : List StdioCall) :
    ∃ full' taken' late', Ledger net gethostname tov u
      (s.afterTurn net sender m frames rest upper) f (c.made calls) full' taken' late' := by
  have hruns := h.runs.deliver (.turn sender m frames rest upper hq
    (congrArg Receiver.stopped (h.idle _)))
  by_cases hk : net.target sender ≤ net.hops
  · have hsurviving := surviving_afterTurn_relay h.surviving upper hq hk
    obtain ⟨p, hp, rfl⟩ := h.surviving.flowing.carried sender m frames
      (hq ▸ List.mem_cons_self : (m, frames) ∈ s.links sender)
    have hlines := turn_lines (h.idle (net.target sender)) hp (net.target sender) upper
    rw [if_pos hk] at hlines
    have hwritten : (s.afterTurn net sender m (toMessage net.mp p).send rest upper).written
        = s.written := by
      rw [System.afterTurn, hlines]
      exact List.append_nil _
    refine ⟨_, taken, late, hruns, hsurviving, h.left, ?_, h.part.append (.refl _), fun hnone => ?_⟩
    · rw [hwritten]
      exact h.short
    · rw [System.afterTurn, (h.whole hnone).1]
      exact ⟨rfl, (h.whole hnone).2⟩
  · obtain ⟨p, more, rfl, hp, hlate, hsurviving⟩ :=
      surviving_afterTurn_proxy h.surviving upper hq hk
    have hlines := turn_lines (h.idle (net.target sender)) hp (net.target sender) upper
    rw [if_neg hk] at hlines
    refine ⟨_, _, _, hruns, hsurviving, (append_update hlate).symm ▸ h.left, fun m' => ?_,
      h.part.append (.refl _), fun hnone => ?_⟩
    · rw [System.afterTurn, hlines]
      have hshort := shortened_update h.short ((h.short m).whole p) m'
      rwa [Function.update_eq_self] at hshort
    · rw [System.afterTurn, (h.whole hnone).1]
      exact ⟨rfl, (h.whole hnone).2⟩

theorem ledger_mishap (h : Ledger net gethostname tov u s f c full taken late) {s' : System μ δ}
    {f' : Faults μ} (hstep : Mishap net gethostname s f s' f') :
    ∃ late', Ledger net gethostname tov u s' f' c full taken late' := by
  cases hstep with
  | loss sender m frames before after hq =>
      obtain ⟨early, p, more, hlate, hsurviving⟩ := surviving_afterLoss h.surviving hq
      refine ⟨_, h.runs.mishap (.loss sender m frames before after hq), hsurviving, fun m' => ?_,
        h.short, h.part, h.whole⟩
      obtain ⟨hsub, hlength⟩ : (taken m' ++ late m').Sublist (s.monitors m').sent
        ∧ (taken m' ++ late m').length + f.lost m' = (s.monitors m').sent.length := h.left m'
      show (taken m' ++ Function.update late m _ m').Sublist (s.monitors m').sent
        ∧ (taken m' ++ Function.update late m _ m').length + Function.update f.lost m _ m'
          = (s.monitors m').sent.length
      by_cases hm : m' = m
      · -- one publication less is left, and one more is lost
        subst hm
        rw [Function.update_self, Function.update_self]
        rw [hlate] at hsub hlength
        refine ⟨.trans (.append_left (.append_left (List.sublist_cons_self ..) _) _) hsub, ?_⟩
        simp only [List.length_append, List.length_cons] at hlength ⊢
        omega
      · rw [Function.update_of_ne hm, Function.update_of_ne hm]
        exact ⟨hsub, hlength⟩
  | restart m tov' =>
      refine ⟨late, h.runs.mishap (.restart m tov'), surviving_afterRestart h.surviving tov',
        fun m' => ?_, h.short, h.part, h.whole⟩
      rw [sent_afterRestart]
      exact h.left m'
  | relay k _ =>
      rw [h.afterReceiver]
      exact ⟨late, h⟩

theorem ledger_killed (h : Ledger net gethostname tov u s f c full taken late)
    (stream : Buffered.Stream UInt8) (st : Storage φ) (w : φ) :
    Ledger net gethostname tov u (s.afterCollector net) f (c.next stream st w c.cut) full taken
      late := by
  rw [System.afterCollector, h.afterReceiver, h.afterReceiver]
  exact ⟨h.runs, h.surviving, h.left, h.short, h.part,
    fun hnone => h.whole fun x hx => hnone x (List.mem_append_left _ hx)⟩

/-- The message a collector dies at is one that has been carried there whole. -/
theorem Ledger.atBreak (h : Ledger net gethostname tov u s f c full taken late) {m : μ}
    {frames : List Frame} {rest : List (μ × List Frame)} {upper : UInt32} {made : List StdioCall}
    {call : StdioCall} (hq : s.links (.relay net.hops) = (m, frames) :: rest)
    (hmade : made ++ [call]
      <+: turnCalls net.mp .whisperProxy upper (s.receivers (net.hops + 1)) frames) :
    ∃ p, Deliverable net.mp p ∧ frames = (toMessage net.mp p).send
      ∧ printedLines made <+: expectedLines p
      ∧ Buffered.text made = piped (printedLines made) := by
  obtain ⟨p, hp, rfl⟩ := h.surviving.flowing.carried (.relay net.hops) m frames
    (hq ▸ List.mem_cons_self : (m, frames) ∈ s.links (.relay net.hops))
  rw [turnCalls_eq, h.idle, (turn_toMessage hp .whisperProxy upper).2.2, if_pos rfl] at hmade
  exact ⟨p, hp, rfl, printed_of_stdio ((List.prefix_append _ _).trans hmade)⟩

/-- The run beside takes the whole message; the new collector is as good as the old one. -/
theorem afterBreak_eq {p : Publication} (hidle : ∀ k, s.receivers k = {})
    (hp : Deliverable net.mp p) (m : μ) (rest : List (μ × List Frame)) (upper : UInt32)
    (made : List StdioCall) :
    (withWritten s full).afterTurn net (.relay net.hops) m (toMessage net.mp p).send rest upper
      = withWritten ((s.afterBreak net m rest made).afterCollector net)
        (full ++ (expectedLines p).map fun line => (m, line)) := by
  have hreceivers : s.receivers
      = ((s.afterBreak net m rest made).afterCollector net).receivers := by
    funext k
    show _ = Function.update (Function.update (Function.update (Function.update s.receivers
      net.hops _) (net.hops + 1) _) net.hops _) (net.hops + 1) _ k
    by_cases hproxy : k = net.hops + 1
    · rw [hproxy, Function.update_self, hidle]
    · rw [Function.update_of_ne hproxy]
      by_cases hbasic : k = net.hops
      · rw [hbasic, Function.update_self, hidle]
      · rw [Function.update_of_ne hbasic, Function.update_of_ne hproxy,
          Function.update_of_ne hbasic]
  have hk : ¬ net.target (.relay net.hops : Sender μ) ≤ net.hops := Nat.not_succ_le_self _
  rw [afterTurn_of_idle (s := withWritten s full) (hidle _) hp rest upper, if_neg hk, if_neg hk,
    List.append_nil, update_target, withWritten, withWritten, hreceivers]
  rfl

/-- A session on what ends the updater is one that has ended. -/
theorem session_of_ends {st : Storage φ} {w : φ} {handed : Bytes} (h : u.Ends st w handed) :
    (u.session st w handed).1 ≠ none
      ∧ ∀ more, u.session st w (handed ++ more) = u.session st w handed := by
  obtain ⟨err, sess, herr⟩ := mainLoop_of_ends h
  have hall := herr []
  rw [List.append_nil] at hall
  unfold Updater.session
  refine ⟨?_, fun more => ?_⟩
  · rw [hall]
    exact nofun
  · rw [hall, herr more]

theorem ledger_broken (h : Ledger net gethostname tov u s f c full taken late) {m : μ}
    {frames : List Frame} {rest : List (μ × List Frame)} {upper : UInt32} {made : List StdioCall}
    {call : StdioCall} {stream : Buffered.Stream UInt8}
    (hq : s.links (.relay net.hops) = (m, frames) :: rest)
    (hmade : made ++ [call]
      <+: turnCalls net.mp .whisperProxy upper (s.receivers (net.hops + 1)) frames)
    (hbreaks : Breaks u c.storage c.world stream call) (st : Storage φ) (w : φ) :
    ∃ full' taken' late', Ledger net gethostname tov u
      ((s.afterBreak net m rest made).afterCollector net) f
      (c.next stream st w (Function.update c.cut m (c.cut m + 1))) full' taken' late' := by
  obtain ⟨p, hp, rfl, hprinted, -⟩ := h.atBreak hq hmade
  have hk : ¬ net.target (.relay net.hops : Sender μ) ≤ net.hops := Nat.not_succ_le_self _
  have hruns := h.runs.deliver (.turn (.relay net.hops) m _ rest upper hq
    (congrArg Receiver.stopped (h.idle _)))
  obtain ⟨q, more, hframes, hq', hlate, hsurviving⟩ :=
    surviving_afterTurn_proxy h.surviving upper hq hk
  -- both have been sent in the same frames, so they have the same lines
  have hlines : expectedLines q = expectedLines p := by
    rw [← arrivingLines_toMessage hq', ← arrivingLines_toMessage hp, hframes]
  rw [afterBreak_eq h.idle hp m rest upper made] at hruns hsurviving
  refine ⟨_, _, _, hruns, hsurviving, (append_update hlate).symm ▸ h.left, ?_,
    h.part.append (hprinted.sublist.map _), fun hnone => ?_⟩
  · exact shortened_update h.short ((h.short m).cut q (hlines ▸ hprinted))
  · refine absurd (hnone ⟨c.storage, c.world, stream⟩ ?_) (session_of_ends hbreaks.ended).1
    exact List.mem_append_right _ (List.mem_singleton_self _)

end Steps

/-- **Every run has its ledger.** -/
theorem exists_ledger (h : CollectorRuns net gethostname tov u s f c) :
    ∃ full taken late, Ledger net gethostname tov u s f c full taken late := by
  induction h with
  | init st w => exact ⟨_, _, _, ledger_init gethostname tov u st w⟩
  | update _ hstep ih =>
      obtain ⟨full, taken, late, hledger⟩ := ih
      exact ⟨full, taken, ledger_update hledger hstep⟩
  | turn sender m frames rest upper _ hq _ ih =>
      obtain ⟨full, taken, late, hledger⟩ := ih
      exact ledger_turn hledger upper hq _
  | mishap _ hstep ih =>
      obtain ⟨full, taken, late, hledger⟩ := ih
      exact ⟨full, taken, ledger_mishap hledger hstep⟩
  | killed stream st w _ _ ih =>
      obtain ⟨full, taken, late, hledger⟩ := ih
      exact ⟨full, taken, late, ledger_killed hledger stream st w⟩
  | broken m frames rest upper made call stream st w _ hq _ hmade _ hbreaks ih =>
      obtain ⟨full, taken, late, hledger⟩ := ih
      exact ledger_broken hledger hq hmade hbreaks st w

/--
**What goes wrong costs messages, and ends of them.** In every run in which messages are lost
and monitors, relays and collectors die, the collectors between two messages or of a broken
pipe, nothing is left standing still: of what a monitor has sent as many publications are
missing as messages were lost; the lines of the others have been written, in order, or are
under way, and only where a pipe broke are the last lines of one message missing. No pipe
breaks before an exception has ended an updater.
-/
theorem written_of_collectors (net : Network μ ο) (gethostname : μ → Option Bytes)
    (tov : μ → Double) (u : Updater) (s : System μ δ) (f : Faults μ) (c : Collectors μ φ)
    (h : CollectorRuns net gethostname tov u s f c) :
    (∀ k, (s.receivers k).stopped = false)
      ∧ (∃ kept, Left s f kept ∧ ∀ m, ∃ taken late, kept m = taken ++ late
        ∧ inFlight net s m = late.map (fun p => (toMessage net.mp p).send)
        ∧ Shortened (c.cut m) taken (only m s.written))
      ∧ ((∀ x ∈ c.past, (x.session u).1 = none) → ∀ m, c.cut m = 0) := by
  obtain ⟨full, taken, late, hledger⟩ := exists_ledger h
  exact ⟨fun k => congrArg Receiver.stopped (hledger.idle k),
    ⟨_, hledger.left, fun m => ⟨taken m, late m, rfl, hledger.surviving.flying m, hledger.short m⟩⟩,
    fun hnone => (hledger.whole hnone).2⟩

/-! ## Each collector's share -/

/-- The collector's updater does what it would do for some lines that may wait in the buffer. -/
def Serves (u : Updater) (lines : List Bytes) (x : Collector φ) : Prop :=
  ∃ g, Buffered.After (stdio lines) g ∧ x.session u = u.session x.storage x.world g.handed
    ∧ ((x.session u).1 = none → g = x.stream)

theorem serves_of_after {lines : List Bytes} {stream : Buffered.Stream UInt8}
    (h : Buffered.After (stdio lines) stream) (st : Storage φ) (w : φ) :
    Serves u lines ⟨st, w, stream⟩ := ⟨stream, h, rfl, fun _ => rfl⟩

/-- Where the pipe broke, it would have done no more for the lines as a whole. -/
theorem serves_of_breaks {lines first : List Bytes} {made : List StdioCall} {call : StdioCall}
    {stream : Buffered.Stream UInt8} {st : Storage φ} {w : φ}
    (h : Buffered.After (stdio lines ++ made) stream) (htext : Buffered.text made = piped first)
    (hbreaks : Breaks u st w stream call) : Serves u (lines ++ first) ⟨st, w, stream⟩ := by
  obtain ⟨hended, hsame⟩ := session_of_ends hbreaks.ended
  have hwhole := h.whole
  rw [Buffered.text_append, text_stdio, htext] at hwhole
  have hall := Buffered.after_handed (stdio (lines ++ first))
  rw [text_stdio, piped, List.flatMap_append] at hall
  refine ⟨_, hall, ?_, fun hnone => absurd hnone hended⟩
  show _ = u.session st w (piped lines ++ piped first)
  rw [← hwhole]
  exact (hsame _).symm

/-- **Every line written** is in the share of one collector. -/
theorem shares_of_collectors (h : CollectorRuns net gethostname tov u s f c) :
    ∃ (shares : List (List (μ × Bytes))) (last : List (μ × Bytes)),
      shares.flatten ++ last = s.written
        ∧ List.Forall₂ (fun share x => Serves u (share.map Prod.snd) x) shares c.past
        ∧ c.calls = stdio (last.map Prod.snd) := by
  induction h with
  | init => exact ⟨[], [], rfl, .nil, rfl⟩
  | update _ hstep ih =>
      cases hstep with
      | returned => exact ih
      | threw => exact ih
  | @turn s f c sender m frames rest upper _ _ _ ih =>
      obtain ⟨shares, last, hwritten, hserves, hcalls⟩ := ih
      refine ⟨shares, last ++ ((s.receivers (net.target sender)).turn net.mp
        (net.role (net.target sender)) upper frames).lines.map fun line => (m, line), ?_, hserves,
        ?_⟩
      · rw [System.afterTurn, ← hwritten, List.append_assoc]
      · rw [Collectors.made, hcalls, turnCalls_eq, ← stdio_append, List.map_append, List.map_map]
        exact congrArg (fun more => stdio (last.map Prod.snd ++ more)) (List.map_id _).symm
  | mishap _ hstep ih =>
      cases hstep with
      | loss => exact ih
      | restart => exact ih
      | relay => exact ih
  | @killed s f c stream st w _ hstream ih =>
      obtain ⟨shares, last, hwritten, hserves, hcalls⟩ := ih
      refine ⟨shares ++ [last], [], ?_, List.rel_append hserves (.cons ?_ .nil), rfl⟩
      · rw [List.flatten_append, List.flatten_singleton, List.append_nil]
        exact hwritten
      · exact serves_of_after (hcalls ▸ hstream) c.storage c.world
  | @broken s f c m frames rest upper made call stream st w hruns hq _ hmade hstream hbreaks ih =>
      obtain ⟨shares, last, hwritten, hserves, hcalls⟩ := ih
      obtain ⟨full, taken, late, hledger⟩ := exists_ledger hruns
      obtain ⟨-, -, -, -, htext⟩ := hledger.atBreak hq hmade
      refine ⟨shares ++ [last ++ (printedLines made).map fun line => (m, line)], [], ?_,
        List.rel_append hserves (.cons ?_ .nil), rfl⟩
      · rw [List.flatten_append, List.flatten_singleton, List.append_nil, ← List.append_assoc,
          hwritten]
        rfl
      · rw [List.map_append, List.map_map]
        refine serves_of_breaks (hcalls ▸ hstream) ?_ hbreaks
        rw [htext]
        exact congrArg piped (List.map_id _).symm

/-- A list cut into pieces is the image of one cut in the same places. -/
theorem exists_flatten_of_map {α β : Type} {g : α → β} {zs : List α} {batches : List (List β)}
    (h : batches.flatten = zs.map g) :
    ∃ parts : List (List α), parts.flatten = zs ∧ parts.map (List.map g) = batches := by
  induction batches generalizing zs with
  | nil => exact ⟨[], (List.map_eq_nil_iff.mp h.symm).symm, rfl⟩
  | cons batch batches ih =>
      obtain ⟨part, rest, rfl, hpart, hrest⟩ := List.map_eq_append_iff.mp h.symm
      obtain ⟨parts, rfl, hparts⟩ := ih hrest.symm
      exact ⟨part :: parts, rfl, by rw [List.map_cons, hpart, hparts]⟩

/-- What the collectors have been told, each its own part, of what has not been lost. -/
structure Shares (net : Network μ ο) (gethostname : μ → Option Bytes) (u : Updater)
    (s : System μ δ) (xs : List (Collector φ)) (kept : μ → List Publication)
    (parts : List (List (μ × Item))) : Prop where
  sources : Sources (fun m => mHostname (gethostname m)) kept
  part : ∀ m, (only m parts.flatten).Sublist ((kept m).flatMap items)
  serves : List.Forall₂ (fun part x => Serves u (part.map fun z => z.2.line) x) parts xs
  whole : (∀ x ∈ xs, (x.session u).1 = none) → ∀ m, inFlight net s m = [] →
    only m parts.flatten = (kept m).flatMap items

theorem Shares.stems {xs : List (Collector φ)} {kept : μ → List Publication}
    {parts : List (List (μ × Item))} (h : Shares net gethostname u s xs kept parts) :
    Stems kept parts.flatten := fun m z hz =>
  (h.part m).subset (List.mem_filterMap.mpr ⟨(m, z), hz, if_pos rfl⟩)

theorem Shares.legible {xs : List (Collector φ)} {kept : μ → List Publication}
    {parts : List (List (μ × Item))} (h : Shares net gethostname u s xs kept parts) :
    ∀ z ∈ parts.flatten.map Prod.snd, z.Legible := h.stems.legible h.sources

theorem exists_shares (h : CollectorRuns net gethostname tov u s f c)
    {last : Buffered.Stream UInt8} (hlast : Buffered.After c.calls last)
    (hplain : ∀ m, ∀ agg ∈ aggregatesOf (s.monitors m).sent, Plain agg) :
    ∃ kept parts, Left s f kept ∧ Shares net gethostname u s (c.all last) kept parts := by
  obtain ⟨full, taken, late, hledger⟩ := exists_ledger h
  obtain ⟨shares, mine, hwritten, hserves, hcalls⟩ := shares_of_collectors h
  obtain ⟨zs, rfl, hzs⟩ := exists_items hledger.surviving.flowing.delivered
  -- the items of the lines that were written after all
  obtain ⟨ys, hsub, hys⟩ := List.sublist_map_iff.mp hledger.part
  have hshares : (shares ++ [mine]).flatten = ys.map fun z => (z.1, z.2.line) := by
    rw [List.flatten_append, List.flatten_singleton, hwritten, hys]
  obtain ⟨parts, rfl, hparts⟩ := exists_flatten_of_map hshares
  have hall : List.Forall₂ (fun share x => Serves u (share.map Prod.snd) x) (shares ++ [mine])
      (c.all last) :=
    List.rel_append hserves (.cons (serves_of_after (hcalls ▸ hlast) c.storage c.world) .nil)
  rw [← hparts, List.forall₂_map_left_iff] at hall
  refine ⟨_, parts, hledger.left,
    (sources_of_faultyRuns hledger.runs hplain).sublist fun m => (hledger.left m).1,
    fun m => (hsub.filterMap _).trans (hzs m).1.sublist, ?_, fun hnone m hempty => ?_⟩
  · refine hall.imp fun part x hx => ?_
    rw [List.map_map] at hx
    exact hx
  · have hsame := (hledger.whole fun x hx => hnone x (List.mem_append_left _ hx)).1
    have hzs' : parts.flatten = zs :=
      hsub.eq_of_length (by rw [← List.length_map, ← hys, hsame, List.length_map])
    rw [hzs']
    refine (hzs m).2 ?_
    have hflying : inFlight net (withSent (withWritten s (zs.map fun z => (z.1, z.2.line)))
        fun m => taken m ++ late m) m = [] := hempty
    rw [hflying]
    rfl

/-! ## What the updaters do -/

/-- What an updater has done is what some items asked for, and at most a text more. -/
structure Done (u : Updater) (all : List (μ × Item)) (x : Collector φ) (ys : List (μ × Item)) :
    Prop where
  part : ys ⊆ all
  foreign : ∀ err, (x.session u).1 = some err → Foreign x.storage err
  updates : Follows u ((ys.map Prod.snd).filterMap Item.reading?) (x.session u).2.updates
  printed : ∃ torn, (x.session u).2.printed
      = (endedItems ys).map (fun e => terminationText e.2) ++ torn
    ∧ (torn = [] ∨ ∃ m ident cut, torn = [terminationText cut] ∧ cut <+: ident
      ∧ (m, ident) ∈ endedItems all)

omit [DecidableEq μ] in
theorem Done.mono {all more ys : List (μ × Item)} {x : Collector φ} (h : Done u all x ys)
    (hsub : all ⊆ more) : Done u more x ys := by
  obtain ⟨torn, hprinted, htorn⟩ := h.printed
  refine ⟨List.Subset.trans h.part hsub, h.foreign, h.updates, torn, hprinted,
    htorn.imp_right ?_⟩
  rintro ⟨m, ident, cut, rfl, hcut, hmem⟩
  exact ⟨m, ident, cut, rfl, hcut, List.filterMap_subset _ hsub hmem⟩

omit [DecidableEq μ] in
/-- **One updater** has done what its collector was told, but for ends, or until an exception. -/
theorem session_done {part : List (μ × Item)} {x : Collector φ}
    (hx : Serves u (part.map fun z => z.2.line) x) (hpart : ∀ z ∈ part.map Prod.snd, z.Legible) :
    ∃ ys late, ys ++ late = part ∧ Done u part x ys
      ∧ ((x.session u).1 = none →
        (∀ z ∈ late, z.2.reading? = none) ∧ (x.stream.kept = [] → late = [])) := by
  obtain ⟨g, hg, hsession, hstream⟩ := hx
  have hwp := wp_mainLoop_handed hg hpart u x.storage x.world
  unfold Updater.session at hsession
  have hprinted : ∀ (ys : List (μ × Item)) {texts : List Bytes},
      texts = ((ys.map Prod.snd).filterMap Item.ended?).map terminationText →
      texts = (endedItems ys).map fun e => terminationText e.2 := by
    intro ys texts htexts
    rw [htexts, ← endedItems_snd, List.map_map]
    rfl
  cases hrun : u.mainLoop x.storage g.handed ⟨x.world, []⟩ with
  | ok _ sess =>
      obtain ⟨ys, late, rfl, hlate, hkept, hobeyed⟩ := wp_of_ok hwp hrun
      rw [hrun] at hsession
      obtain ⟨torn, hsess, htorn⟩ := hobeyed.printed
      refine ⟨ys, late, rfl, ?_, fun hnone => ⟨hlate, hstream hnone ▸ hkept⟩⟩
      refine ⟨List.subset_append_left _ _, ?_, ?_, torn, ?_, htorn.imp_right ?_⟩
      · rw [hsession]
        exact nofun
      · rw [hsession]
        exact hobeyed.updates
      · rw [hsession, ← hprinted ys rfl]
        exact hsess
      · rintro ⟨ident, cut, hnext, hcut, rfl⟩
        obtain ⟨m, rest, hends⟩ := exists_of_nextEnd hnext
        refine ⟨m, ident, cut, rfl, hcut, ?_⟩
        rw [endedItems_append, hends]
        exact List.mem_append_right _ (List.mem_cons_self ..)
  | error err sess =>
      obtain ⟨hforeign, done, hdone, hobeyed⟩ := wp_of_error hwp hrun
      rw [hrun] at hsession
      have hpart' : done = (part.take done.length).map Prod.snd := by
        rw [List.map_take]
        exact List.prefix_iff_eq_take.mp hdone
      rw [hpart'] at hobeyed
      refine ⟨_, _, List.take_append_drop done.length part, ?_, fun hnone => ?_⟩
      · refine ⟨List.take_subset _ _, fun err' herr => ?_, ?_, [], ?_, Or.inl rfl⟩
        · rw [hsession] at herr
          exact Option.some.inj herr ▸ hforeign
        · rw [hsession]
          exact hobeyed.updates
        · rw [hsession, List.append_nil]
          exact hprinted _ hobeyed.printed
      · rw [hsession] at hnone
        cases hnone

/-- **All of them** together have done what the collectors were told. -/
theorem sessions_done {parts : List (List (μ × Item))} {xs : List (Collector φ)}
    (h : List.Forall₂ (fun part x => Serves u (part.map fun z => z.2.line) x) parts xs)
    (hall : ∀ z ∈ parts.flatten.map Prod.snd, z.Legible) :
    ∃ yss, List.Forall₂ (Done u parts.flatten) xs yss ∧ yss.flatten.Sublist parts.flatten
      ∧ ((∀ x ∈ xs, (x.session u).1 = none) → ∀ m,
        (only m yss.flatten).filterMap Item.reading?
          = (only m parts.flatten).filterMap Item.reading?)
      ∧ ((∀ x ∈ xs, (x.session u).1 = none ∧ x.stream.kept = []) →
        yss.flatten = parts.flatten) := by
  induction h with
  | nil => exact ⟨[], .nil, .slnil, fun _ _ => rfl, fun _ => rfl⟩
  | @cons part x parts xs hx _ ih =>
      rw [List.flatten_cons, List.map_append] at hall
      obtain ⟨ys, late, rfl, hdone, hquiet⟩ :=
        session_done hx fun z hz => hall z (List.mem_append_left _ hz)
      obtain ⟨yss, hdones, hsub, hreadings, hwhole⟩ :=
        ih fun z hz => hall z (List.mem_append_right _ hz)
      refine ⟨ys :: yss, .cons (hdone.mono (List.subset_append_left _ _))
        (hdones.imp fun _ _ hy => hy.mono (List.subset_append_right _ _)), ?_, fun hnone m => ?_,
        fun hnone => ?_⟩
      · exact (List.sublist_append_left ys late).append hsub
      · have hlate := readings_nil (hquiet (hnone x (List.mem_cons_self ..))).1 m
        simp only [List.flatten_cons, only_append, List.filterMap_append, hlate, List.append_nil,
          hreadings (fun y hy => hnone y (List.mem_cons_of_mem _ hy)) m]
      · obtain ⟨herr, hkept⟩ := hnone x (List.mem_cons_self ..)
        rw [List.flatten_cons, List.flatten_cons, (hquiet herr).2 hkept, List.append_nil,
          hwhole fun y hy => hnone y (List.mem_cons_of_mem _ hy)]

/-- The readings of one metric of one instance among some items of `m`'s. -/
def recordedOf (r : Coordinates) (m : μ) (ys : List (μ × Item)) :
    List (AggregateDomainStats × DomainStats × Metric) :=
  ((only m ys).filterMap Item.reading?).filter (isOf r)

theorem flatten_recordedOf (r : Coordinates) (m : μ) (yss : List (List (μ × Item))) :
    (yss.map (recordedOf r m)).flatten = recordedOf r m yss.flatten := by
  rw [recordedOf, only, List.filterMap_flatten, List.filterMap_flatten, List.filter_flatten,
    List.map_map, List.map_map]
  rfl

/--
**Every file holds what has not been lost**, over any number of collectors and updaters,
which may be at work at the same time. Each updater has called whisper on the file of a
metric of an instance for readings of the publications that were not lost, in order, and what
one has called it for comes before what the next one has in the monitor's order. Together
they have for all of these readings, as long as no exception from outside has ended one of
them and no message is under way.
-/
theorem file_of_collectors (net : Network μ ο) (gethostname : μ → Option Bytes)
    (tov : μ → Double) (u : Updater) (s : System μ δ) (f : Faults μ) (c : Collectors μ φ)
    (h : CollectorRuns net gethostname tov u s f c) (last : Buffered.Stream UInt8)
    (hlast : Buffered.After c.calls last)
    (hdistinct : ∀ m m', mHostname (gethostname m) = mHostname (gethostname m') → m = m')
    (hplain : ∀ m, ∀ agg ∈ aggregatesOf (s.monitors m).sent, Plain agg) :
    (∀ x ∈ c.all last, ∀ err, (x.session u).1 = some err → Foreign x.storage err)
      ∧ ∃ kept, Left s f kept ∧ ∀ (m : μ) (r : Coordinates), r.host = mHostname (gethostname m) →
        PlainHost r.host → PlainPart r.uuid →
        ∃ dones, List.Forall₂ (fun x done => Follows u done
            ((x.session u).2.updates.filter fun call => call.path = r.path u)) (c.all last) dones
          ∧ dones.flatten.Sublist (readingsOf r (kept m))
          ∧ ((∀ x ∈ c.all last, (x.session u).1 = none) → inFlight net s m = [] →
            dones.flatten = readingsOf r (kept m)) := by
  obtain ⟨kept, parts, hleft, hshares⟩ := exists_shares h hlast hplain
  obtain ⟨yss, hdones, hsub, hreadings, -⟩ :=
    sessions_done hshares.serves hshares.legible
  have hforeign := hdones.imp fun _ _ hdone => And.intro hdone.foreign hdone
  refine ⟨((List.forall₂_and_left _ _).mp hforeign).1, kept, hleft,
    fun m r hhost hplainHost huuid => ?_⟩
  refine ⟨yss.map (recordedOf r m), ?_, ?_, fun hnone hempty => ?_⟩
  · rw [List.forall₂_map_right_iff]
    refine hdones.imp fun x ys hdone => ?_
    have hstem : Stems kept ys := fun m z hz => hshares.stems m z (hdone.part hz)
    exact hstem.file hshares.sources hdone.updates hdistinct hhost hplainHost huuid
  · rw [flatten_recordedOf, readingsOf, ← reading?_items]
    exact (((hsub.filterMap _).trans (hshares.part m)).filterMap _).filter _
  · rw [flatten_recordedOf, recordedOf, hreadings hnone m, hshares.whole hnone m hempty,
      reading?_items, readingsOf]

/--
**Every end is printed once at most**, over any number of collectors and updaters. What each
updater has printed are ends that the monitors have published and that were not lost, and at
most one text more, which begins such an end. Together they have printed every monitor's in
order and none twice; and all of them, if no exception has ended an updater, no collector has
died with something in its buffer, and no message is under way.
-/
theorem ends_of_collectors (net : Network μ ο) (gethostname : μ → Option Bytes)
    (tov : μ → Double) (u : Updater) (s : System μ δ) (f : Faults μ) (c : Collectors μ φ)
    (h : CollectorRuns net gethostname tov u s f c) (last : Buffered.Stream UInt8)
    (hlast : Buffered.After c.calls last)
    (hplain : ∀ m, ∀ agg ∈ aggregatesOf (s.monitors m).sent, Plain agg) :
    ∃ kept, Left s f kept ∧ ∃ endss : List (List (μ × Bytes)),
      List.Forall₂ (fun x ends => ∃ torn, (x.session u).2.printed
          = ends.map (fun e => terminationText e.2) ++ torn
        ∧ (torn = [] ∨ ∃ m ident cut, torn = [terminationText cut] ∧ cut <+: ident
          ∧ ident ∈ endsOf (kept m))) (c.all last) endss
        ∧ ∀ m, (only m endss.flatten).Sublist (endsOf (kept m))
          ∧ ((∀ x ∈ c.all last, (x.session u).1 = none ∧ x.stream.kept = []) →
            inFlight net s m = [] → only m endss.flatten = endsOf (kept m)) := by
  obtain ⟨kept, parts, hleft, hshares⟩ := exists_shares h hlast hplain
  obtain ⟨yss, hdones, hsub, -, hwhole⟩ :=
    sessions_done hshares.serves hshares.legible
  have hends : ∀ m, (only m (endedItems parts.flatten)).Sublist (endsOf (kept m)) := by
    intro m
    rw [only_endedItems, ← ended?_items]
    exact (hshares.part m).filterMap _
  have hflatten : (yss.map endedItems).flatten = endedItems yss.flatten :=
    List.filterMap_flatten.symm
  refine ⟨kept, hleft, yss.map endedItems, ?_, fun m => ⟨?_, fun hnone hempty => ?_⟩⟩
  · rw [List.forall₂_map_right_iff]
    refine hdones.imp fun x ys hdone => ?_
    obtain ⟨torn, hprinted, htorn⟩ := hdone.printed
    refine ⟨torn, hprinted, htorn.imp_right ?_⟩
    rintro ⟨m, ident, cut, rfl, hcut, hmem⟩
    exact ⟨m, ident, cut, rfl, hcut,
      (hends m).subset (List.mem_filterMap.mpr ⟨(m, ident), hmem, if_pos rfl⟩)⟩
  · rw [hflatten]
    exact ((hsub.filterMap _).filterMap _).trans (hends m)
  · rw [hflatten, hwhole hnone, only_endedItems,
      hshares.whole (fun x hx => (hnone x hx).1) m hempty, ended?_items]

/-! ## Where nothing is refused -/

omit [DecidableEq μ] in
/-- An updater to which nothing is refused reads what it has been handed to the end. -/
theorem session_of_accepting {part : List (μ × Item)} {x : Collector φ}
    (hx : Serves u (part.map fun z => z.2.line) x) (hpart : ∀ z ∈ part.map Prod.snd, z.Legible)
    (hst : Accepting x.storage) : (x.session u).1 = none := by
  obtain ⟨g, hg, hsession, -⟩ := hx
  obtain ⟨zs, late, piece, rfl, hhanded, -, hpiece, -⟩ := handed_of_stdio hg
  rw [List.map_append] at hpart
  have hnext : ∀ ident, nextEnd late = some ident → IsWord isSpace ident := fun _ =>
    word_of_nextEnd fun z hz => hpart z (List.mem_append_right _ hz)
  -- the lines are served, and a piece of another raises nothing
  have hquiet := session_of_quiet
    (hhanded ▸ mainLoop_torn u x.storage _ (hpiece.noNewline hnext))
    (wp_piece u x.storage hnext hpiece) x.world
  rw [hsession, hquiet.1]
  exact session_of_noBadLine
    (hst.noBadLine u (fun z hz => hpart z (List.mem_append_left _ hz)) x.world)

/--
**Where nothing is refused nothing breaks.** As long as no file system and no whisper refuses
anything, every updater reads to the end of what it has been handed and no pipe breaks, however
often collectors are killed between two messages. The lines written for a monitor, followed by
those still under way, are then the lines of what it has published and was not lost, in order.
-/
theorem unbroken_of_accepting (net : Network μ ο) (gethostname : μ → Option Bytes)
    (tov : μ → Double) (u : Updater) (s : System μ δ) (f : Faults μ) (c : Collectors μ φ)
    (h : CollectorRuns net gethostname tov u s f c) (last : Buffered.Stream UInt8)
    (hlast : Buffered.After c.calls last)
    (hplain : ∀ m, ∀ agg ∈ aggregatesOf (s.monitors m).sent, Plain agg)
    (hst : ∀ x ∈ c.all last, Accepting x.storage) :
    (∀ x ∈ c.all last, (x.session u).1 = none) ∧ (∀ m, c.cut m = 0)
      ∧ ∃ kept, Left s f kept ∧ ∀ m,
        only m s.written ++ (inFlight net s m).flatMap (arrivingLines net)
          = (kept m).flatMap expectedLines := by
  obtain ⟨kept, parts, -, hshares⟩ := exists_shares h hlast hplain
  have hnone : ∀ x ∈ c.all last, (x.session u).1 = none := by
    intro x hx
    obtain ⟨part, hpart, hserves⟩ := exists_of_forall₂ hshares.serves.flip hx
    refine session_of_accepting hserves (fun z hz => hshares.legible z ?_) (hst x hx)
    obtain ⟨y, hy, rfl⟩ := List.mem_map.mp hz
    exact List.mem_map_of_mem (List.mem_flatten.mpr ⟨part, hpart, hy⟩)
  obtain ⟨full, taken, late, hledger⟩ := exists_ledger h
  obtain ⟨rfl, hcut⟩ := hledger.whole fun x hx => hnone x (List.mem_append_left _ hx)
  exact ⟨hnone, hcut, _, hledger.left, hledger.surviving.flowing.delivered⟩

/-! ## A collector that is killed, and one whose pipe breaks -/

theorem collectors_of_piped {cs : List StdioCall} (h : PipedRuns net gethostname tov s cs)
    (u : Updater) (st : Storage φ) (w : φ) :
    CollectorRuns net gethostname tov u s .none ⟨[], st, w, cs, fun _ => 0⟩ := by
  induction h with
  | init => exact .init st w
  | update _ hstep ih => exact ih.update hstep
  | turn sender m frames rest upper _ hq halive ih =>
      exact ih.turn sender m frames rest upper hq halive

/-- The domain that comes and goes has had one collector killed and a new one started. -/
theorem collectors_afterSecond : ∃ (s : System Unit DomId) (cs : List StdioCall),
    s.monitors = afterSecond.monitors ∧ (∀ m, inFlight noRelay s m = [])
      ∧ Buffered.pending cs = bytes "monitor.term_instance servers.unknown-host.uuid-1\n"
      ∧ ∀ f, Buffered.After cs f → (dataUpdater.session emptyDisk () f.handed).1 = none
        ∧ CollectorRuns noRelay (fun _ => none) (fun _ => .fin 0) dataUpdater
          (s.afterCollector noRelay) .none
          ((⟨[], emptyDisk, (), cs, fun _ => 0⟩ : Collectors Unit Unit).next f emptyDisk ()
            fun _ => 0) := by
  obtain ⟨s, cs, -, hsame, hcs, -, hrest⟩ := killed_afterSecond
  have hplain : ∀ m : Unit, ∀ agg ∈ aggregatesOf (s.monitors m).sent, Plain agg :=
    fun _ => hsame ▸ plain_afterSecond
  have hr := (stdio_of_piped hcs).1
  refine ⟨s, cs, hsame, hrest, pending_afterSecond hcs hsame (hrest ()), fun f hf =>
    ⟨?_, (collectors_of_piped hcs dataUpdater emptyDisk ()).killed f emptyDisk () hf⟩⟩
  rw [(session_of_piped hcs hf hplain dataUpdater emptyDisk ()).1]
  exact session_of_noBadLine (accepting_emptyDisk.noBadLine_of_runs hr hplain dataUpdater ())

/-- The first collector dies with the domain's end in its buffer; the readings are all there. -/
theorem file_of_collectors_afterSecond : ∃ (first second : Collector Unit)
    (dones : List (List (AggregateDomainStats × DomainStats × Metric))),
    first.stream.kept = bytes "monitor.term_instance servers.unknown-host.uuid-1\n"
      ∧ List.Forall₂ (fun x done => Follows dataUpdater done
          ((x.session dataUpdater).2.updates.filter fun call =>
            call.path = bytes "/data/servers/unknown-host/uuid-1/mem.wsp")) [first, second] dones
      ∧ dones.flatten
        = readingsOf ⟨bytes "unknown-host", bytes "uuid-1", .mem⟩
          (afterSecond.monitors ()).sent := by
  obtain ⟨s, cs, hsame, hrest, hpending, hkill⟩ := collectors_afterSecond
  obtain ⟨handed, hf⟩ := Buffered.after_pending cs
  have hpath : (⟨bytes "unknown-host", bytes "uuid-1", .mem⟩ : Coordinates).path dataUpdater
      = bytes "/data/servers/unknown-host/uuid-1/mem.wsp" := by decide
  obtain ⟨_, kept, hleft, hfile⟩ := file_of_collectors noRelay _ _ dataUpdater
    (s.afterCollector noRelay) .none _ (hkill _ hf).2 ⟨[], []⟩ .opened (fun _ _ _ => rfl)
    (fun _ => hsame ▸ plain_afterSecond)
  have hkept : kept () = (afterSecond.monitors ()).sent :=
    (eq_of_left hleft ()).trans (by rw [← hsame]; rfl)
  obtain ⟨dones, hfollows, -, hwhole⟩ := hfile () ⟨bytes "unknown-host", bytes "uuid-1", .mem⟩ rfl
    plain_oneDomain.host ⟨by decide, noSpace_of_all (by decide), by decide, by decide⟩
  rw [hpath] at hfollows
  refine ⟨_, _, dones, hpending, hfollows, ?_⟩
  rw [hwhole ?_ (hrest ()), hkept]
  intro x hx
  rcases List.mem_pair.mp hx with rfl | rfl
  · exact (hkill _ hf).1
  · rfl

/-- It dies with nothing in its buffer, and the end is printed. -/
theorem ends_of_collectors_afterSecond : ∃ (first second : Collector Unit)
    (endss : List (List (Unit × Bytes))),
    List.Forall₂ (fun x ends => ∃ torn, (x.session dataUpdater).2.printed
        = ends.map (fun e => terminationText e.2) ++ torn) [first, second] endss
      ∧ only () endss.flatten = [bytes "servers.unknown-host.uuid-1"] := by
  obtain ⟨s, cs, hsame, hrest, -, hkill⟩ := collectors_afterSecond
  have hf := Buffered.after_handed cs
  obtain ⟨kept, hleft, endss, hprinted, hends⟩ := ends_of_collectors noRelay _ _ dataUpdater
    (s.afterCollector noRelay) .none _ (hkill _ hf).2 ⟨[], []⟩ .opened
    (fun _ => hsame ▸ plain_afterSecond)
  have hkept : kept () = (afterSecond.monitors ()).sent :=
    (eq_of_left hleft ()).trans (by rw [← hsame]; rfl)
  refine ⟨_, _, endss, hprinted.imp fun x ends h => h.imp fun torn ht => ht.1, ?_⟩
  rw [(hends ()).2 ?_ (hrest ()), hkept, sent_afterSecond]
  · rfl
  · intro x hx
    rcases List.mem_pair.mp hx with rfl | rfl
    · exact ⟨(hkill _ hf).1, rfl⟩
    · exact ⟨rfl, rfl⟩

/-- The end that is lost with the first one is a line that was written. -/
theorem unbroken_of_accepting_afterSecond : ∃ (s : System Unit DomId) (first : Collector Unit),
    first.stream.kept = bytes "monitor.term_instance servers.unknown-host.uuid-1\n"
      ∧ (first.session dataUpdater).1 = none
      ∧ only () s.written = (afterSecond.monitors ()).sent.flatMap expectedLines := by
  obtain ⟨s, cs, hsame, hrest, hpending, hkill⟩ := collectors_afterSecond
  obtain ⟨handed, hf⟩ := Buffered.after_pending cs
  have haccepting : ∀ x ∈ [(⟨emptyDisk, (), ⟨handed, Buffered.pending cs⟩⟩ : Collector Unit),
      ⟨emptyDisk, (), ⟨[], []⟩⟩], Accepting x.storage :=
    List.forall_mem_cons.mpr
      ⟨accepting_emptyDisk, List.forall_mem_singleton.mpr accepting_emptyDisk⟩
  obtain ⟨hnone, -, kept, hleft, hall⟩ := unbroken_of_accepting noRelay _ _ dataUpdater
    (s.afterCollector noRelay) .none _ (hkill _ hf).2 ⟨[], []⟩ .opened
    (fun _ => hsame ▸ plain_afterSecond) haccepting
  have hkept : kept () = (afterSecond.monitors ()).sent :=
    (eq_of_left hleft ()).trans (by rw [← hsame]; rfl)
  refine ⟨s, _, hpending, hnone _ (List.mem_cons_self ..), ?_⟩
  have hwritten := hall ()
  rw [hkept, show inFlight noRelay (s.afterCollector noRelay) () = [] from hrest (),
    List.flatMap_nil, List.append_nil] at hwritten
  exact hwritten

/-- Whisper refuses the domain's first line; the collector dies printing the second. -/
theorem written_of_collectors_expired : ∃ (s : System Unit DomId) (c : Collectors Unit Unit),
    s.written = [((), firstLine), ((), secondLine)] ∧ c.cut () = 1
      ∧ (∀ k, (s.receivers k).stopped = false)
      ∧ (∃ kept, Left s .none kept ∧ ∀ m, ∃ taken late, kept m = taken ++ late
        ∧ inFlight noRelay s m = late.map (fun p => (toMessage noRelay.mp p).send)
        ∧ Shortened (c.cut m) taken (only m s.written)) := by
  obtain ⟨cs, hpiped⟩ := exists_piped runs_atTheProxy
  obtain ⟨hidle, hmade, f, hf, hbreaks⟩ := break_atTheProxy hpiped
  have hruns := (collectors_of_piped hpiped dataUpdater expiredDisk ()).broken () _ [] 0 _ _ f
    expiredDisk () links_atTheProxy hidle hmade hf hbreaks
  obtain ⟨hon, hcome, -⟩ := written_of_collectors noRelay _ _ dataUpdater _ .none _ hruns
  refine ⟨_, _, ?_, rfl, hon, hcome⟩
  show atTheProxy.written ++ (printedLines _).map _ = _
  rw [written_atTheProxy, printedLines_concat]
  rfl

end CloudMon.Proof
