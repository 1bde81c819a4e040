import CloudMon.Collector.System
import CloudMon.Monitor.Snapshot
import CloudMon.Proof.Clean
import Mathlib.Data.Fintype.EquivFin
import Mathlib.Data.List.Nodup

/-!
# End-to-end delivery

What one monitor has published and the updater has not been told yet sits in the
queues on that monitor's path: the proxy's connection, then those of the relays
back to the monitor's own. Read in that order the queues are the monitor's
outgoing messages, oldest first. A relay's turn moves the oldest of them one queue
on, the proxy's turn takes the oldest out and writes its lines, an update adds to
the other end; a step for another monitor is not seen.

That list, together with the lines already written, always makes up exactly what
the monitor has published. Delivery in order is the case of empty queues, and the
queues do become empty: every turn brings a message nearer to the proxy.

All of this is about runs in which the pipe has a reader.
-/

namespace CloudMon.Proof

open CloudMon Wp Pipeline

variable {μ ο δ : Type}

/-! ## One message -/

/-- The lines the updater is to be given for a publication. -/
def expectedLines : Publication → List Bytes
  | .aggregate _ agg => getWhisperUpdates agg
  | .termInstance ident => [termInstance ++ bytes " " ++ ident]

/-- An aggregate's key passes the filters and is a C string; it is not a termination's. -/
theorem aggregateKey_facts (host : Bytes) :
    serversPrefix <+: snprintf 512 (serversPrefix ++ cString host)
      ∧ 0 ∉ snprintf 512 (serversPrefix ++ cString host)
      ∧ snprintf 512 (serversPrefix ++ cString host) ≠ termInstance := by
  have htake : snprintf 512 (serversPrefix ++ cString host)
      = serversPrefix ++ (cString host).take 495 := by
    unfold snprintf
    rw [List.take_append]
    rfl
  have hstart : serversPrefix <+: snprintf 512 (serversPrefix ++ cString host) := ⟨_, htake.symm⟩
  refine ⟨hstart, fun hmem => ?_, fun he => ?_⟩
  · rcases List.mem_append.mp (snprintf_subset hmem) with hm | hm
    · exact absurd hm (by decide)
    · exact zero_not_mem_cString _ hm
  · rw [he] at hstart
    exact absurd hstart (by decide)

theorem zero_not_mem_termInstanceIdent {host uuid : Bytes} (hhost : 0 ∉ host) (huuid : 0 ∉ uuid) :
    0 ∉ termInstanceIdent host uuid := by
  unfold termInstanceIdent
  simp only [List.mem_append, not_or]
  exact ⟨⟨⟨by decide, hhost⟩, by decide⟩, huuid⟩

/-- What a monitor may publish: under C strings, and sendable. -/
def Deliverable (mp : Msgpack ο) (p : Publication) : Prop :=
  ∃ host, 0 ∉ host ∧ Wellformed host p ∧ Sendable mp p

/-- **A publication arrives as what it was**, at any receiver. -/
theorem handle_toMessage {mp : Msgpack ο} {p : Publication} (hp : Deliverable mp p) :
    subscribed (toMessage mp p).send = true ∧ decodes mp (toMessage mp p) = true
      ∧ proxyLines mp (toMessage mp p) = some (expectedLines p) := by
  obtain ⟨host, hhost, hw, hs⟩ := hp
  have hlines : proxyLines mp (toMessage mp p) = some (expectedLines p) := by
    cases p with
    | aggregate key agg =>
        obtain ⟨rfl, _⟩ := hw
        obtain ⟨_, hnul, hne⟩ := aggregateKey_facts host
        obtain ⟨hlen, hround⟩ := hs
        obtain ⟨msg, hmsg, hagg⟩ := Option.bind_eq_some_iff.mp hround
        have hkey : cString (snprintf 512 (serversPrefix ++ cString host)) ≠ termInstance := by
          rw [cString_of_not_mem hnul]; exact hne
        show (mp.unpack (clip (mp.packAggregate agg))).bind (updateImmediate mp (cString _)) = _
        rw [clip_of_lt hlen, hmsg, Option.bind_some, updateImmediate, if_neg hkey, hagg]
        rfl
    | termInstance ident =>
        obtain ⟨uuid, huuid, rfl⟩ := hw
        obtain ⟨hlen, hround⟩ := hs
        obtain ⟨msg, hmsg, hstr⟩ := Option.bind_eq_some_iff.mp hround
        have hkey : cString termInstance = termInstance := by decide
        show (mp.unpack (clip (mp.packString (termInstanceIdent host uuid)))).bind
          (updateImmediate mp (cString termInstance)) = _
        rw [clip_of_lt hlen, hmsg, Option.bind_some, updateImmediate, hkey, if_pos rfl, hstr,
          Option.map_some, cString_of_not_mem (zero_not_mem_termInstanceIdent hhost huuid), hkey]
        rfl
  refine ⟨?_, by rw [← proxyLines_isSome, hlines]; rfl, hlines⟩
  cases p with
  | aggregate key agg =>
      obtain ⟨rfl, _⟩ := hw
      obtain ⟨hstart, hnul, _⟩ := aggregateKey_facts host
      have hkey : (toMessage mp (.aggregate (snprintf 512 (serversPrefix ++ cString host)) agg)).key
          = snprintf 512 (serversPrefix ++ cString host) := cString_of_not_mem hnul
      rw [subscribed_send, hkey, List.isPrefixOf_iff_prefix.mpr hstart, Bool.true_or]
  | termInstance ident => rfl

/-- What each kind of receiver does with it. -/
theorem turn_toMessage {mp : Msgpack ο} {p : Publication} (hp : Deliverable mp p)
    (role : Role) (upper : UInt32) :
    (({} : Receiver).turn mp role upper (toMessage mp p).send).receiver = {}
      ∧ (({} : Receiver).turn mp role upper (toMessage mp p).send).forwarded
        = (if role = .whisperProxy then none else some (toMessage mp p))
      ∧ (({} : Receiver).turn mp role upper (toMessage mp p).send).lines
        = (if role = .whisperProxy then expectedLines p else []) := by
  obtain ⟨_, hdec, hlines⟩ := handle_toMessage hp
  have hturn : ({} : Receiver).turn mp role upper (toMessage mp p).send
      = loopBody mp (toMessage mp p) [] role := by
    have hrec : Message.receive upper (toMessage mp p).send = .message (toMessage mp p) [] := by
      cases p with
      | aggregate key agg => exact Message.receive_send upper _ _
      | termInstance ident => exact Message.receive_send upper _ _
    simp only [Receiver.turn, List.nil_append, hrec, Bool.false_eq_true, if_false]
  rw [hturn]
  cases role with
  | intermediateReceiver =>
      refine ⟨?_, rfl, rfl⟩
      show ({ pending := [], stopped := !decodes mp (toMessage mp p) } : Receiver) = {}
      rw [hdec]; rfl
  | basicReceiver => exact ⟨rfl, rfl, rfl⟩
  | whisperProxy =>
      have hbody : loopBody mp (toMessage mp p) [] .whisperProxy
          = { receiver := {}, lines := expectedLines p } := by simp only [loopBody, hlines]
      rw [hbody]
      exact ⟨rfl, rfl, rfl⟩

/-! ## The path of a monitor -/

section Path

variable (net : Network μ ο) (m : μ)

/-- The connections a monitor's messages pass through, the last one first. -/
def path : List (Sender μ) :=
  (List.range' (net.entry m) (net.hops + 1 - net.entry m)).reverse.map .relay ++ [.monitor m]

variable {net m}

theorem relay_mem_path {k : Nat} :
    Sender.relay k ∈ path net m ↔ net.entry m ≤ k ∧ k ≤ net.hops := by
  have hle := net.entry_le m
  simp only [path, List.mem_append, List.mem_map, List.mem_reverse, List.mem_range'_1,
    Sender.relay.injEq, exists_eq_right, List.mem_singleton, reduceCtorEq, or_false]
  omega

theorem monitor_mem_path {m' : μ} : Sender.monitor m' ∈ path net m ↔ m' = m := by
  simp [path]

theorem path_nodup (net : Network μ ο) (m : μ) : (path net m).Nodup := by
  refine List.nodup_append.mpr ⟨?_, List.nodup_singleton _, ?_⟩
  · refine List.Nodup.map (fun a b h => Sender.relay.inj h) ?_
    exact List.nodup_reverse.mpr List.nodup_range'
  · intro s hs t ht
    obtain ⟨k, _, rfl⟩ := List.mem_map.mp hs
    rw [List.mem_singleton.mp ht]
    simp

/-- The monitor's own connection comes last. -/
theorem path_start (net : Network μ ο) (m : μ) :
    ∃ pre, path net m = pre ++ [.monitor m] ∧ Sender.monitor m ∉ pre := by
  refine ⟨_, rfl, fun h => ?_⟩
  obtain ⟨k, _, hk⟩ := List.mem_map.mp h
  cases hk

/-- The proxy's connection comes first. -/
theorem path_end (net : Network μ ο) (m : μ) : ∃ post, path net m = .relay net.hops :: post := by
  have hle := net.entry_le m
  have hlen : net.hops + 1 - net.entry m = (net.hops - net.entry m) + 1 := by omega
  refine ⟨(List.range' (net.entry m) (net.hops - net.entry m)).reverse.map .relay ++ [.monitor m],
    ?_⟩
  rw [path, hlen, List.range'_concat, List.reverse_append]
  have hlast : net.entry m + 1 * (net.hops - net.entry m) = net.hops := by omega
  rw [hlast]
  rfl

/-- Any other connection comes right after the one its receiver forwards to. -/
theorem path_next {s : Sender μ} (hs : s ∈ path net m) (ht : net.target s ≤ net.hops) :
    ∃ pre post, path net m = pre ++ .relay (net.target s) :: s :: post := by
  have hle := net.entry_le m
  cases s with
  | monitor m' =>
      have hm := monitor_mem_path.mp hs
      subst hm
      have hlen : net.hops + 1 - net.entry m' = 1 + (net.hops - net.entry m') := by omega
      refine ⟨(List.range' (net.entry m' + 1) (net.hops - net.entry m')).reverse.map .relay, [], ?_⟩
      rw [path, hlen, Nat.add_comm 1, List.range'_succ, List.reverse_cons, List.map_append,
        List.append_assoc]
      rfl
  | relay k =>
      obtain ⟨hk, _⟩ := relay_mem_path.mp hs
      have hk' : k + 1 ≤ net.hops := ht
      -- the relays before `k`, then `k` and `k + 1`, then those after
      have hsplit : List.range' (net.entry m) (net.hops + 1 - net.entry m)
          = List.range' (net.entry m) (k - net.entry m)
            ++ k :: (k + 1) :: List.range' (k + 2) (net.hops - (k + 1)) := by
        have hlen : net.hops + 1 - net.entry m
            = (k - net.entry m) + (net.hops - (k + 1) + 1 + 1) := by omega
        rw [hlen, ← List.range'_append, List.range'_succ, List.range'_succ]
        have hstart : net.entry m + 1 * (k - net.entry m) = k := by omega
        rw [hstart]
      refine ⟨(List.range' (k + 2) (net.hops - (k + 1))).reverse.map .relay,
        (List.range' (net.entry m) (k - net.entry m)).reverse.map .relay ++ [.monitor m], ?_⟩
      rw [path, hsplit]
      simp [Network.target]

/-- The connection to the proxy is the last one. -/
theorem eq_last_of_target {sender : Sender μ} (hon : sender ∈ path net m)
    (hk : ¬ net.target sender ≤ net.hops) : sender = .relay net.hops := by
  cases sender with
  | monitor m' => exact absurd (net.entry_le m') hk
  | relay k =>
      have hk' : ¬ k + 1 ≤ net.hops := hk
      have hle := (relay_mem_path.mp hon).2
      rw [show k = net.hops by omega]

end Path

/-- What the proxy would write for a message on its way. -/
def arrivingLines (net : Network μ ο) (frames : List Frame) : List Bytes :=
  (({} : Receiver).turn net.mp .whisperProxy 0 frames).lines

/-- Every publication of a clean update is transmitted. -/
theorem transmitted_map {net : Network μ ο} {ps : List Publication}
    (h : ∀ p ∈ ps, Deliverable net.mp p) :
    transmitted (ps.map (toMessage net.mp)) = ps.map fun p => (toMessage net.mp p).send := by
  unfold transmitted
  rw [List.map_map, List.filter_eq_self.mpr]
  · rfl
  · intro frames hf
    obtain ⟨p, hp, rfl⟩ := List.mem_map.mp hf
    exact (handle_toMessage (h p hp)).1

theorem arrivingLines_toMessage {net : Network μ ο} {p : Publication}
    (hp : Deliverable net.mp p) :
    arrivingLines net (toMessage net.mp p).send = expectedLines p :=
  (turn_toMessage hp .whisperProxy 0).2.2

/-! ## The invariant -/

section Invariant

variable [DecidableEq μ] (net : Network μ ο) (names : μ → Bytes)

/-- A monitor's messages that have not reached the proxy, oldest first. -/
def inFlight (s : System μ δ) (m : μ) : List (List Frame) :=
  content (lane m s.links) (path net m)

/-- **Nothing is lost, altered or reordered on the way.** -/
structure Flowing (s : System μ δ) : Prop where
  /-- Every receiver is between two messages, and none has stopped. -/
  receivers : ∀ k, s.receivers k = {}
  /-- What is under way is what some monitor sent. -/
  carried : ∀ sender m frames, (m, frames) ∈ s.links sender →
    ∃ p, Deliverable net.mp p ∧ frames = (toMessage net.mp p).send
  /-- A monitor's messages are on its path. -/
  onPath : ∀ sender m frames, (m, frames) ∈ s.links sender → sender ∈ path net m
  clean : ∀ m, (s.monitors m).alive = true → CleanNames (names m) (s.monitors m).pub
  wellformed : ∀ m, ∀ p ∈ (s.monitors m).sent, Wellformed (names m) p
  delivered : ∀ m, only m s.written ++ (inFlight net s m).flatMap (arrivingLines net)
    = (s.monitors m).sent.flatMap expectedLines

variable {net names}

theorem flowing_init (gethostname : μ → Option Bytes) (tov : μ → Double) :
    Flowing net (fun m => mHostname (gethostname m)) (System.init gethostname tov : System μ δ)
    where
  receivers _ := rfl
  carried := by intro _ _ _ h; cases h
  onPath := by intro _ _ _ h; cases h
  clean _ _ := cleanNames_init _ _
  wellformed := by intro _ _ h; cases h
  delivered m := by
    have hempty : inFlight net (System.init gethostname tov : System μ δ) m = [] :=
      List.flatMap_eq_nil_iff.mpr fun _ _ => rfl
    rw [hempty]
    rfl

/-! ### An update -/

section

variable {s : System μ δ} {m : μ} {ω : Type} {u : MonitorState ω δ} {alive : Bool}

/-- What is on a connection after an update was there before, or the update has just sent it. -/
theorem mem_links_afterUpdate (hgood : ∀ p ∈ published u.events, Deliverable net.mp p)
    {sender : Sender μ} {m' : μ} {frames : List Frame}
    (hmem : (m', frames) ∈ (s.afterUpdate net m u alive).links sender) :
    (m', frames) ∈ s.links sender ∨ sender = .monitor m ∧ m' = m
      ∧ ∃ p ∈ published u.events, frames = (toMessage net.mp p).send := by
  change (m', frames) ∈ Function.update s.links _ _ sender at hmem
  by_cases hsender : sender = .monitor m
  · subst hsender
    rw [Function.update_self, transmitted_map hgood, List.mem_append, List.map_map] at hmem
    rcases hmem with hmem | hmem
    · exact Or.inl hmem
    · obtain ⟨p, hp, he⟩ := List.mem_map.mp hmem
      cases he
      exact Or.inr ⟨rfl, rfl, p, hp, rfl⟩
  · rw [Function.update_of_ne hsender] at hmem
    exact Or.inl hmem

/-- A monitor's own messages join at the start of its path, behind those under way. -/
theorem inFlight_afterUpdate_self (hgood : ∀ p ∈ published u.events, Deliverable net.mp p) :
    inFlight net (s.afterUpdate net m u alive) m
      = inFlight net s m ++ (published u.events).map fun p => (toMessage net.mp p).send := by
  obtain ⟨pre, hpath, hpre⟩ := path_start net m
  show content (lane m (Function.update s.links _ _)) _ = _
  rw [lane_update, only_append, only_map_self, transmitted_map hgood]
  exact content_push hpath hpre

/-- Another monitor's are not in its lane. -/
theorem inFlight_afterUpdate_of_ne {m' : μ} (hm : m' ≠ m) :
    inFlight net (s.afterUpdate net m u alive) m' = inFlight net s m' := by
  show content (lane m' (Function.update s.links _ _)) _ = _
  rw [lane_update_of_only_eq]
  · rfl
  · rw [only_append, only_map_of_ne (Ne.symm hm), List.append_nil]

end

/-- **An update puts its publications in at the start.** -/
theorem flowing_afterUpdate {s : System μ δ} (hs : Flowing net names s) {m : μ} {ω : Type}
    {u : MonitorState ω δ} {alive : Bool} (hnul : 0 ∉ names m) (hclean : Clean (names m) u)
    (hsend : ∀ p ∈ published u.events, Sendable net.mp p) :
    Flowing net names (s.afterUpdate net m u alive) := by
  have hform : ∀ p ∈ published u.events, Wellformed (names m) p := by
    intro p hp
    refine hclean.sent p ?_
    obtain ⟨e, he, hep⟩ := List.mem_filterMap.mp hp
    cases e <;> simp at hep
    exact hep ▸ he
  have hgood : ∀ p ∈ published u.events, Deliverable net.mp p := fun p hp =>
    ⟨names m, hnul, hform p hp, hsend p hp⟩
  refine ⟨hs.receivers, fun sender m' frames hmem => ?_, fun sender m' frames hmem => ?_,
    fun m' halive => ?_, fun m' => ?_, fun m' => ?_⟩
  · rcases mem_links_afterUpdate hgood hmem with hold | ⟨_, _, p, hp, rfl⟩
    · exact hs.carried sender m' frames hold
    · exact ⟨p, hgood p hp, rfl⟩
  · rcases mem_links_afterUpdate hgood hmem with hold | ⟨rfl, rfl, _⟩
    · exact hs.onPath sender m' frames hold
    · exact monitor_mem_path.mpr rfl
  · by_cases hm : m' = m
    · subst hm
      show CleanNames (names m') (Function.update s.monitors m' _ m').pub
      rw [Function.update_self]
      exact hclean.names
    · change (Function.update s.monitors m _ m').alive = true at halive
      show CleanNames (names m') (Function.update s.monitors m _ m').pub
      rw [Function.update_of_ne hm] at halive ⊢
      exact hs.clean m' halive
  · show ∀ p ∈ (Function.update s.monitors m _ m').sent, Wellformed (names m') p
    by_cases hm : m' = m
    · subst hm
      intro p hp
      rw [Function.update_self] at hp
      rcases List.mem_append.mp hp with hp | hp
      · exact hs.wellformed m' p hp
      · exact hform p hp
    · rw [Function.update_of_ne hm]
      exact hs.wellformed m'
  · by_cases hm : m' = m
    · subst hm
      rw [inFlight_afterUpdate_self hgood, List.flatMap_append, ← List.append_assoc]
      show only m' s.written ++ _ ++ _ = (Function.update s.monitors m' _ m').sent.flatMap _
      rw [hs.delivered m', Function.update_self, List.flatMap_append]
      congr 1
      rw [List.flatMap_map]
      exact List.flatMap_congr fun p hp => arrivingLines_toMessage (hgood p hp)
    · rw [inFlight_afterUpdate_of_ne hm]
      show only m' s.written ++ _ = (Function.update s.monitors m _ m').sent.flatMap _
      rw [Function.update_of_ne hm]
      exact hs.delivered m'

/-! ### A turn -/

omit [DecidableEq μ] in
theorem target_ne (net : Network μ ο) (sender : Sender μ) :
    sender ≠ .relay (net.target sender) := by
  cases sender with
  | monitor m => simp
  | relay k => simp [Network.target]

/-- A receiver that passes nothing on leaves the next connection as it is. -/
theorem update_target {β : Type} (net : Network μ ο) (links : Sender μ → List β)
    (sender : Sender μ) (rest : List β) :
    Function.update (Function.update links sender rest) (.relay (net.target sender))
      (links (.relay (net.target sender))) = Function.update links sender rest := by
  have hsame : links (.relay (net.target sender))
      = Function.update links sender rest (.relay (net.target sender)) :=
    (Function.update_of_ne (target_ne net sender).symm _ _).symm
  rw [hsame, Function.update_eq_self]

omit [DecidableEq μ] in
/-- The proxy is behind the last relay. -/
theorem role_eq_whisperProxy_iff (net : Network μ ο) (k : Nat) :
    net.role k = .whisperProxy ↔ ¬ k ≤ net.hops := by
  unfold Network.role
  by_cases hlt : k < net.hops
  · simp [hlt, hlt.le]
  · by_cases heq : k = net.hops
    · simp [heq]
    · simp [hlt, heq, Nat.lt_of_le_of_ne (Nat.le_of_not_lt hlt) (Ne.symm heq)]

omit [DecidableEq μ] in
/-- Only there are lines written. -/
theorem turn_lines {r : Receiver} (hidle : r = {}) {p : Publication} (hp : Deliverable net.mp p)
    (k : Nat) (upper : UInt32) :
    (r.turn net.mp (net.role k) upper (toMessage net.mp p).send).lines
      = if k ≤ net.hops then [] else expectedLines p := by
  rw [hidle, (turn_toMessage hp (net.role k) upper).2.2]
  by_cases hk : k ≤ net.hops
  · rw [if_pos hk, if_neg (fun hrole => (role_eq_whisperProxy_iff net k).mp hrole hk)]
  · rw [if_neg hk, if_pos ((role_eq_whisperProxy_iff net k).mpr hk)]

/-- A turn, field by field: `frames` move on to the next connection, or their lines are written. -/
theorem afterTurn_of_idle {s : System μ δ} {sender : Sender μ}
    (hidle : s.receivers (net.target sender) = {}) {m : μ} {p : Publication}
    (hp : Deliverable net.mp p) (rest : List (μ × List Frame)) (upper : UInt32) :
    s.afterTurn net sender m (toMessage net.mp p).send rest upper
      = { s with
          links := Function.update (Function.update s.links sender rest)
            (.relay (net.target sender)) (s.links (.relay (net.target sender))
              ++ if net.target sender ≤ net.hops then [(m, (toMessage net.mp p).send)] else [])
          written := s.written
            ++ if net.target sender ≤ net.hops then []
              else (expectedLines p).map fun line => (m, line) } := by
  obtain ⟨hrecv, hfwd, hlines⟩ := turn_toMessage hp (net.role (net.target sender)) upper
  have hreceivers : Function.update s.receivers (net.target sender) {} = s.receivers := by
    rw [← hidle]; exact Function.update_eq_self _ _
  have hother : Function.update s.links sender rest (.relay (net.target sender))
      = s.links (.relay (net.target sender)) :=
    Function.update_of_ne (target_ne net sender).symm _ _
  have hgood : ∀ q ∈ [p], Deliverable net.mp q := fun q hq => List.mem_singleton.mp hq ▸ hp
  have htrans : transmitted [toMessage net.mp p] = [(toMessage net.mp p).send] :=
    transmitted_map hgood
  unfold System.afterTurn
  simp only [hidle, hrecv, hfwd, hlines, hreceivers, hother]
  by_cases hk : net.target sender ≤ net.hops
  · simp [hk, role_eq_whisperProxy_iff, htrans]
  · simp [hk, role_eq_whisperProxy_iff, transmitted]

theorem afterTurn_eq {s : System μ δ} (hs : Flowing net names s) {sender : Sender μ} {m : μ}
    {p : Publication} (hp : Deliverable net.mp p) (rest : List (μ × List Frame)) (upper : UInt32) :
    s.afterTurn net sender m (toMessage net.mp p).send rest upper
      = { s with
          links := Function.update (Function.update s.links sender rest)
            (.relay (net.target sender)) (s.links (.relay (net.target sender))
              ++ if net.target sender ≤ net.hops then [(m, (toMessage net.mp p).send)] else [])
          written := s.written
            ++ if net.target sender ≤ net.hops then []
              else (expectedLines p).map fun line => (m, line) } :=
  afterTurn_of_idle (hs.receivers _) hp rest upper

section

variable {s : System μ δ} (hs : Flowing net names s) {sender : Sender μ} {m : μ} {p : Publication}
  {rest : List (μ × List Frame)} (hp : Deliverable net.mp p) (upper : UInt32)
  (hq : s.links sender = (m, (toMessage net.mp p).send) :: rest)

include hs hp hq

/-- What is on a connection after a turn was there before, or the turn has moved it there. -/
theorem mem_links_afterTurn {sender' : Sender μ} {m' : μ} {frames : List Frame}
    (hmem : (m', frames)
      ∈ (s.afterTurn net sender m (toMessage net.mp p).send rest upper).links sender') :
    (m', frames) ∈ s.links sender' ∨ sender' = .relay (net.target sender)
      ∧ net.target sender ≤ net.hops ∧ m' = m ∧ frames = (toMessage net.mp p).send := by
  rw [afterTurn_eq hs hp rest upper] at hmem
  dsimp only at hmem
  by_cases hs' : sender' = .relay (net.target sender)
  · subst hs'
    rw [Function.update_self, List.mem_append] at hmem
    rcases hmem with hmem | hmem
    · exact Or.inl hmem
    · split at hmem
      · rename_i hk
        cases List.mem_singleton.mp hmem
        exact Or.inr ⟨rfl, hk, rfl, rfl⟩
      · cases hmem
  · rw [Function.update_of_ne hs'] at hmem
    by_cases hss : sender' = sender
    · subst hss
      rw [Function.update_self] at hmem
      exact Or.inl (by rw [hq]; exact List.mem_cons_of_mem _ hmem)
    · rw [Function.update_of_ne hss] at hmem
      exact Or.inl hmem

/-- A relay's turn changes nothing a monitor has under way but the place of one message. -/
theorem delivered_afterTurn_relay (hon : sender ∈ path net m)
    (hk : net.target sender ≤ net.hops) :
    only m (s.afterTurn net sender m (toMessage net.mp p).send rest upper).written
        ++ (inFlight net (s.afterTurn net sender m (toMessage net.mp p).send rest upper) m).flatMap
          (arrivingLines net)
      = (s.monitors m).sent.flatMap expectedLines := by
  have hlane := lane_eq_cons hq
  obtain ⟨pre, post, hpath⟩ := path_next hon hk
  have hbefore := hs.delivered m
  rw [afterTurn_eq hs hp rest upper]
  unfold inFlight at hbefore ⊢
  simp only [lane_update, only_append, hk, if_true, only_cons_self, only_nil, List.append_nil]
  rw [← hbefore]
  exact congrArg (fun fs => only m s.written ++ fs.flatMap (arrivingLines net))
    (content_move hpath (path_nodup net _) hlane)

/-- The proxy's turn takes a message off the last connection and writes its lines. -/
theorem delivered_afterTurn_proxy (hon : sender ∈ path net m)
    (hk : ¬ net.target sender ≤ net.hops) :
    only m (s.afterTurn net sender m (toMessage net.mp p).send rest upper).written
        ++ (inFlight net (s.afterTurn net sender m (toMessage net.mp p).send rest upper) m).flatMap
          (arrivingLines net)
      = (s.monitors m).sent.flatMap expectedLines := by
  have hlane := lane_eq_cons hq
  have hlast := eq_last_of_target hon hk
  obtain ⟨post, hpath⟩ := path_end net m
  have hnd := path_nodup net m
  rw [hpath] at hnd
  have hoff : Sender.relay (net.target sender) ∉ path net m := fun hmem =>
    hk (relay_mem_path.mp hmem).2
  have hpop := content_pop (hpath.trans (by rw [hlast])) (hlast ▸ (List.nodup_cons.mp hnd).1) hlane
  have hbefore := hs.delivered m
  rw [afterTurn_eq hs hp rest upper]
  unfold inFlight at hbefore ⊢
  simp only [lane_update, only_append, hk, if_false, List.append_nil, only_map_self]
  rw [content_update_of_not_mem hoff, ← hbefore, hpop, List.flatMap_cons,
    arrivingLines_toMessage hp, List.append_assoc]

/-- A turn on another monitor's message leaves this lane as it was. -/
theorem delivered_afterTurn_of_ne {m' : μ} (hm : m' ≠ m) :
    only m' (s.afterTurn net sender m (toMessage net.mp p).send rest upper).written
        ++ (inFlight net (s.afterTurn net sender m (toMessage net.mp p).send rest upper) m').flatMap
          (arrivingLines net)
      = (s.monitors m').sent.flatMap expectedLines := by
  have hlane : only m' rest = lane m' s.links sender := by
    show _ = only m' (s.links sender)
    rw [hq, only_cons_of_ne (Ne.symm hm)]
  have hmoved : only m' (if net.target sender ≤ net.hops
      then [(m, (toMessage net.mp p).send)] else []) = [] := by
    split
    · rw [only_cons_of_ne (Ne.symm hm), only_nil]
    · rfl
  have hlines : only m' (if net.target sender ≤ net.hops then []
      else (expectedLines p).map fun line => (m, line)) = [] := by
    split
    · rfl
    · exact only_map_of_ne (Ne.symm hm) _
  have hsame : only m' (s.links (.relay (net.target sender)))
      = lane m' s.links (.relay (net.target sender)) := rfl
  have hbefore := hs.delivered m'
  rw [afterTurn_eq hs hp rest upper]
  unfold inFlight at hbefore ⊢
  simp only [lane_update, only_append]
  rw [hmoved, hlines, List.append_nil, List.append_nil, hlane, Function.update_eq_self, hsame,
    Function.update_eq_self]
  exact hbefore

end

/-- **A turn moves a message one connection on**, or writes its lines. -/
theorem flowing_afterTurn {s : System μ δ} (hs : Flowing net names s) {sender : Sender μ} {m : μ}
    {frames : List Frame} {rest : List (μ × List Frame)} (upper : UInt32)
    (hq : s.links sender = (m, frames) :: rest) :
    Flowing net names (s.afterTurn net sender m frames rest upper) := by
  have hfirst : (m, frames) ∈ s.links sender := by rw [hq]; exact List.mem_cons_self ..
  have hon := hs.onPath sender m frames hfirst
  obtain ⟨p, hp, rfl⟩ := hs.carried sender m frames hfirst
  refine ⟨?_, fun sender' m' frames' hmem => ?_, fun sender' m' frames' hmem => ?_,
    ?_, ?_, fun m' => ?_⟩
  · rw [afterTurn_eq hs hp rest upper]
    exact hs.receivers
  · rcases mem_links_afterTurn hs hp upper hq hmem with hold | ⟨_, _, _, rfl⟩
    · exact hs.carried sender' m' frames' hold
    · exact ⟨p, hp, rfl⟩
  · rcases mem_links_afterTurn hs hp upper hq hmem with hold | ⟨rfl, hk, rfl, _⟩
    · exact hs.onPath sender' m' frames' hold
    · obtain ⟨pre, post, hpath⟩ := path_next hon hk
      rw [hpath]
      simp
  · rw [afterTurn_eq hs hp rest upper]
    exact hs.clean
  · rw [afterTurn_eq hs hp rest upper]
    exact hs.wellformed
  · have hsent : ((s.afterTurn net sender m (toMessage net.mp p).send rest upper).monitors m').sent
        = (s.monitors m').sent := by
      rw [afterTurn_eq hs hp rest upper]
    rw [hsent]
    by_cases hm : m' = m
    · subst hm
      by_cases hk : net.target sender ≤ net.hops
      · exact delivered_afterTurn_relay hs hp upper hq hon hk
      · exact delivered_afterTurn_proxy hs hp upper hq hon hk
    · exact delivered_afterTurn_of_ne hs hp upper hq hm

/-- **Every run keeps messages flowing.** -/
theorem flowing_runs {gethostname : μ → Option Bytes} {tov : μ → Double} {s : System μ δ}
    (hr : Runs net gethostname tov s) :
    Flowing net (fun m => mHostname (gethostname m)) s := by
  have hclean : ∀ {s : System μ δ} {m : μ} {ω : Type} (w : ω),
      Flowing net (fun m => mHostname (gethostname m)) s → (s.monitors m).alive = true →
      Clean (mHostname (gethostname m)) ((s.monitors m).pub.inWorld w) := fun w hs halive =>
    ⟨hs.clean _ halive, fun p hp => by cases hp⟩
  induction hr with
  | init => exact flowing_init _ _
  | update _ hstep ih =>
      cases hstep with
      | returned m slotFirst h w u halive hrun hsend =>
          have hu := wp_of_ok (wp_update_clean slotFirst h (hclean w ih halive)) hrun
          exact flowing_afterUpdate ih (zero_not_mem_mHostname _) hu hsend
      | threw m slotFirst h w e u halive hrun hsend =>
          have hu := wp_of_error (wp_update_clean slotFirst h (hclean w ih halive)) hrun
          exact flowing_afterUpdate ih (zero_not_mem_mHostname _) hu hsend
  | deliver _ hstep ih =>
      cases hstep with
      | turn sender m frames rest upper hq _ => exact flowing_afterTurn ih upper hq

/-! ## Deliveries end -/

/-- How many turns a message on a connection still needs. -/
def turnsLeft (net : Network μ ο) (sender : Sender μ) : Nat := net.hops + 2 - net.target sender

/-- All connections there are. -/
def connections [Fintype μ] (net : Network μ ο) : Finset (Sender μ) :=
  Finset.univ.image .monitor ∪ (Finset.range (net.hops + 1)).image .relay

theorem mem_connections [Fintype μ] {m : μ} {sender : Sender μ} (hon : sender ∈ path net m) :
    sender ∈ connections net := by
  cases sender with
  | monitor m' =>
      exact Finset.mem_union_left _ (Finset.mem_image_of_mem _ (Finset.mem_univ m'))
  | relay k =>
      have hk := (relay_mem_path.mp hon).2
      exact Finset.mem_union_right _ (Finset.mem_image_of_mem _ (Finset.mem_range.mpr (by omega)))

/-- **Every delivery leaves fewer turns to take.** -/
theorem load_deliver [Fintype μ] {s s' : System μ δ} (hs : Flowing net names s)
    (hstep : Deliver net s s') :
    load (connections net) (turnsLeft net) s'.links
      < load (connections net) (turnsLeft net) s.links := by
  cases hstep with
  | turn sender m frames rest upper hq _ =>
      have hfirst : (m, frames) ∈ s.links sender := by rw [hq]; exact List.mem_cons_self ..
      have hon := hs.onPath sender m frames hfirst
      obtain ⟨p, hp, rfl⟩ := hs.carried sender m frames hfirst
      rw [afterTurn_eq hs hp rest upper]
      by_cases hk : net.target sender ≤ net.hops
      · -- passed on: one turn fewer for this message
        obtain ⟨pre, post, hpath⟩ := path_next hon hk
        have hnext : Sender.relay (net.target sender) ∈ path net m := by rw [hpath]; simp
        have hless : turnsLeft net (.relay (net.target sender)) < turnsLeft net sender := by
          unfold turnsLeft
          show net.hops + 2 - (net.target sender + 1) < _
          omega
        simp only [hk, if_true]
        exact load_move_lt (mem_connections hon) (mem_connections hnext) (target_ne net sender) hq
          hless _
      · -- written: the proxy puts nothing on a connection
        have hleft : 0 < turnsLeft net sender := by
          have hle : net.target sender ≤ net.hops + 1 := by
            cases sender with
            | monitor m' => exact Nat.le_succ_of_le (net.entry_le m')
            | relay k => exact Nat.succ_le_succ (relay_mem_path.mp hon).2
          unfold turnsLeft
          omega
        simp only [hk, if_false, List.append_nil]
        rw [update_target]
        exact load_pop_lt (mem_connections hon) hq hleft

/-- **Deliveries come to an end**, in whatever order they are made. -/
theorem deliveries_end [Finite μ] {gethostname : μ → Option Bytes} {tov : μ → Double}
    {run : Nat → System μ δ} (hr : Runs net gethostname tov (run 0)) :
    ∃ i, ¬ Deliver net (run i) (run (i + 1)) := by
  by_contra hall
  push Not at hall
  have := Fintype.ofFinite μ
  have hruns : ∀ i, Runs net gethostname tov (run i) := by
    intro i
    induction i with
    | zero => exact hr
    | succ i ih => exact .deliver ih (hall i)
  have hload : ∀ i, load (connections net) (turnsLeft net) (run i).links + i
      ≤ load (connections net) (turnsLeft net) (run 0).links := by
    intro i
    induction i with
    | zero => exact Nat.le_refl _
    | succ i ih =>
        have := load_deliver (flowing_runs (hruns i)) (hall i)
        omega
  have := hload (load (connections net) (turnsLeft net) (run 0).links + 1)
  omega

end Invariant

/--
**End-to-end delivery**, as long as there is somebody to deliver to. No receiver stops; a
monitor publishes only aggregates and terminations of its own host; the lines written for
it, followed by those still under way, are the lines of everything it has published, in
order. Deliveries among finitely many monitors come to an end, and once nothing can be
delivered any more, the lines written are all of them.
-/
theorem delivered_of_runs [DecidableEq μ] (net : Network μ ο) (gethostname : μ → Option Bytes)
    (tov : μ → Double) (s : System μ δ) (hr : Runs net gethostname tov s) :
    (∀ k, (s.receivers k).stopped = false)
      ∧ (∀ m, ∀ p ∈ (s.monitors m).sent, Wellformed (mHostname (gethostname m)) p)
      ∧ (∀ m, only m s.written ++ (inFlight net s m).flatMap (arrivingLines net)
        = (s.monitors m).sent.flatMap expectedLines)
      ∧ (Finite μ → ∀ run : Nat → System μ δ, run 0 = s →
        ∃ i, ¬ Deliver net (run i) (run (i + 1)))
      ∧ ((∀ s', ¬ Deliver net s s') →
        ∀ m, only m s.written = (s.monitors m).sent.flatMap expectedLines) := by
  have hs := flowing_runs hr
  refine ⟨fun k => by rw [hs.receivers k], hs.wellformed, hs.delivered,
    fun _ run hrun => deliveries_end (hrun ▸ hr), fun hquiet m => ?_⟩
  have hempty : inFlight net s m = [] := by
    refine List.flatMap_eq_nil_iff.mpr fun sender _ => ?_
    show only m (s.links sender) = []
    cases hq : s.links sender with
    | nil => rfl
    | cons e rest =>
        obtain ⟨m', frames⟩ := e
        exact absurd (.turn sender m' frames rest 0 hq (by rw [hs.receivers]))
          (hquiet (s.afterTurn net sender m' frames rest 0))
  rw [← hs.delivered m, hempty]
  simp

/-! ## One domain -/

/-- What a monitor publishes first when one domain runs and no time has passed. -/
def oneDomain : AggregateDomainStats where
  tov := .fin 0
  hostname := bytes "unknown-host"
  domainStats := [
    { domainId := 1
      domainUuid := bytes "uuid-1"
      cpuUtilizationPct := .nan true
      memUtilizationPct := .fin (1 / 2) }]

/-- The same, as msgpack packs it: an array of three, whose last is an array of one of seventeen. -/
def oneDomainPacked : Bytes :=
  [0x93, 0xcb, 0, 0, 0, 0, 0, 0, 0, 0, 0xac] ++ bytes "unknown-host"
    ++ [0x91, 0xdc, 0, 17, 1, 0xa6] ++ bytes "uuid-1"
    ++ [0xcb, 0xff, 0xf8, 0, 0, 0, 0, 0, 0, 0xcb, 0x3f, 0xe0, 0, 0, 0, 0, 0, 0]
    ++ List.replicate 13 0

/-- msgpack, on short strings and on the one aggregate. -/
def oneDomainMsgpack : Msgpack AggregateDomainStats where
  packString s := (0xa0 + UInt8.ofNat s.length) :: s
  packAggregate agg := if agg = oneDomain then oneDomainPacked else []
  unpack b := if b = oneDomainPacked then some oneDomain else none
  toString _ := none
  toAggregate := some

def firstUpdate : MonitorState Unit DomId :=
  match LibvirtDomainStatPublisher.update false (fixedHost Unit [1])
    ((Publisher.init none (.fin 0)).inWorld ()) with
  | .ok _ u => u
  | .error _ u => u

theorem published_firstUpdate : published firstUpdate.events
    = [.aggregate (bytes "monitor.servers.unknown-host") oneDomain] := by
  decide +kernel

end CloudMon.Proof
