import CloudMon.Collector.Stream
import CloudMon.Proof.Delivery

/-!
# Where the relays lose the frame boundary

`Message::receive` asks whether a second frame follows the key and never whether a
third one follows the second. A message of one frame fails its assertion, or, when
the uninitialised half of `more` happens not to be zero, takes the next message's
key for its data. A message of three or more leaves frames behind, and the third
one is the next key.

So a relay stays in step exactly as long as every message has two frames. The
invariant is that the frames still unread are those of the messages still to come.
What is forwarded is, besides, a C string and a length of 32 bits: a key with a NUL
in it and a payload of 4 GiB come out shorter than they went in.
-/

namespace CloudMon.Proof

open CloudMon

variable {ο : Type} {mp : Msgpack ο} {role : Role} {inbound : List Multipart}

/-! ## Frames and boundaries -/

theorem flagged_length : ∀ bs : List Bytes, (flagged bs).length = bs.length
  | [] => rfl
  | [_] => rfl
  | _ :: c :: rest => by
      rw [flagged, List.length_cons, List.length_cons, flagged_length (c :: rest)]

theorem frames_length (msg : Multipart) : msg.frames.length = msg.others.length + 1 := by
  rw [Multipart.frames, flagged_length, List.length_cons]

@[simp] theorem stream_nil : stream [] = [] := rfl

@[simp] theorem stream_cons (msg : Multipart) (msgs : List Multipart) :
    stream (msg :: msgs) = msg.frames ++ stream msgs := List.flatMap_cons

theorem stream_append (xs ys : List Multipart) : stream (xs ++ ys) = stream xs ++ stream ys :=
  List.flatMap_append

/-- A message of two frames or more starts with its key, and says so. -/
theorem frames_cons {msg : Multipart} {data : Bytes} {more : List Bytes}
    (h : msg.others = data :: more) : msg.frames = ⟨msg.first, true⟩ :: flagged (data :: more) := by
  rw [Multipart.frames, h, flagged]

/-- The frames of a message behind its second one. -/
theorem exists_flagged (data : Bytes) (more : List Bytes) :
    ∃ flag, flagged (data :: more) = ⟨data, flag⟩ :: flagged more := by
  cases more with
  | nil => exact ⟨false, rfl⟩
  | cons c rest => exact ⟨true, rfl⟩

/-- A position in the stream is the start of at most one message. -/
theorem boundary_unique {before before' after after' : List Multipart} {msg msg' : Multipart}
    (h : before ++ msg :: after = before' ++ msg' :: after')
    (hlen : (stream before).length = (stream before').length) : before = before' ∧ msg = msg' := by
  rcases List.append_eq_append_iff.mp h with ⟨mid, hb, ha⟩ | ⟨mid, hb, ha⟩
  · cases mid with
    | nil =>
        rw [List.append_nil] at hb
        rw [List.nil_append, List.cons.injEq] at ha
        exact ⟨hb.symm, ha.1⟩
    | cons m mid =>
        -- another message in between would have made a difference of a frame
        rw [hb, stream_append, stream_cons, List.length_append, List.length_append,
          frames_length] at hlen
        omega
  · cases mid with
    | nil =>
        rw [List.append_nil] at hb
        rw [List.nil_append, List.cons.injEq] at ha
        exact ⟨hb, ha.1.symm⟩
    | cons m mid =>
        rw [hb, stream_append, stream_cons, List.length_append, List.length_append,
          frames_length] at hlen
        omega

/-- No message starts inside another one. -/
theorem no_boundary_inside {before before' after after' : List Multipart} {msg msg' : Multipart}
    (h : before ++ msg :: after = before' ++ msg' :: after') {n : Nat} (hn : 0 < n)
    (hlt : n < msg.frames.length) : (stream before').length ≠ (stream before).length + n := by
  intro hlen
  rcases List.append_eq_append_iff.mp h with ⟨mid, hb, ha⟩ | ⟨mid, hb, ha⟩
  · cases mid with
    | nil =>
        rw [List.append_nil] at hb
        rw [hb] at hlen
        omega
    | cons m mid =>
        rw [List.cons_append, List.cons.injEq] at ha
        rw [hb, stream_append, stream_cons, List.length_append, List.length_append, ← ha.1] at hlen
        omega
  · rw [hb, stream_append, List.length_append] at hlen
    omega

/-! ## Messages of two frames -/

/-- The `j`-th message forwarded is the first two frames of the message that starts there. -/
def Paired (inbound : List Multipart) (j : Nat) (m : Message) : Prop :=
  ∃ before msg after data more, inbound = before ++ msg :: after
    ∧ (stream before).length = 2 * j ∧ msg.others = data :: more ∧ m = ⟨msg.first, data⟩

/-- A key that starts with one of the two filters. -/
def SubscribedKey (key : Bytes) : Prop :=
  serversPrefix.isPrefixOf key = true ∨ termInstance.isPrefixOf key = true

/-- **The framing never slips**, however the loop goes on. -/
structure NeverSlips (mp : Msgpack ο) (role : Role) (inbound : List Multipart) : Prop where
  paired : ∀ r forwarded, Loops mp role inbound r forwarded →
    ∀ j m, forwarded[j]? = some m → Paired inbound j m
  keys : ∀ r forwarded, Loops mp role inbound r forwarded → ∀ m ∈ forwarded, SubscribedKey m.key
  noAbort : ∀ r forwarded, Loops mp role inbound r forwarded → r.stopped = false →
    ∀ upper, Message.receive upper r.pending ≠ .aborted

/--
Two frames each, that fit a C string and 32 bits. An intermediate receiver ends at
a message it cannot decode, and no frame behind that one's second matters.
-/
def TwoFramed (mp : Msgpack ο) (role : Role) : List Multipart → Prop
  | [] => True
  | msg :: rest => ∃ data more, msg.others = data :: more ∧ (0 : UInt8) ∉ msg.first
    ∧ data.length < 2 ^ 32
    ∧ (role = .intermediateReceiver ∧ decodes mp ⟨msg.first, data⟩ = false
      ∨ more = [] ∧ TwoFramed mp role rest)

/-! ## One turn -/

theorem forwarded_loopBody (hrole : role ≠ .whisperProxy) (next : Message) (rest : List Frame) :
    (loopBody mp next rest role).forwarded.toList = [next] := by
  cases role with
  | intermediateReceiver => rfl
  | basicReceiver => rfl
  | whisperProxy => exact absurd rfl hrole

theorem pending_loopBody (hrole : role ≠ .whisperProxy) (next : Message) (rest : List Frame) :
    (loopBody mp next rest role).receiver.pending = rest := by
  cases role with
  | intermediateReceiver => rfl
  | basicReceiver => rfl
  | whisperProxy => exact absurd rfl hrole

theorem stopped_loopBody (hrole : role ≠ .whisperProxy) (next : Message) (rest : List Frame) :
    (loopBody mp next rest role).receiver.stopped = false
      ↔ ¬ (role = .intermediateReceiver ∧ decodes mp next = false) := by
  cases role with
  | intermediateReceiver => simp [loopBody]
  | basicReceiver => simp [loopBody]
  | whisperProxy => exact absurd rfl hrole

/-- A key with a frame behind it is received with that frame, whatever it belongs to. -/
theorem receive_two (upper : UInt32) (key data : Bytes) (flag : Bool) (rest : List Frame) :
    Message.receive upper (⟨key, true⟩ :: ⟨data, flag⟩ :: rest)
      = .message ⟨cString key, clip data⟩ rest := rfl

/-- A frame that is the last of its message is no key, when the variable is zero above. -/
theorem receive_last (key : Bytes) (rest : List Frame) :
    Message.receive 0 (⟨key, false⟩ :: rest) = .aborted := rfl

theorem not_mem_of_cString_eq {b : Bytes} (h : cString b = b) : (0 : UInt8) ∉ b :=
  h ▸ zero_not_mem_cString b

theorem lt_of_clip_eq {b : Bytes} (h : clip b = b) : b.length < 2 ^ 32 := by
  have hmod : b.length % 2 ^ 32 < 2 ^ 32 := Nat.mod_lt _ (by decide)
  have hlen : (clip b).length ≤ b.length % 2 ^ 32 := List.length_take_le _ _
  rw [h] at hlen
  omega

/-! ## Messages of two frames keep the loop in step -/

/-- What is unread are the frames of the messages to come, which are still of two each. -/
def BetweenTurns (mp : Msgpack ο) (role : Role) (inbound : List Multipart) (r : Receiver)
    (forwarded : List Message) : Prop :=
  ∃ before after, inbound = before ++ after ∧ (stream before).length = 2 * forwarded.length
    ∧ r.pending = stream after ∧ TwoFramed mp role after

/-- In step, a turn takes one whole message and is in step again, or ends the loop. -/
theorem betweenTurns_turn (hrole : role ≠ .whisperProxy) {r : Receiver} {forwarded : List Message}
    {next : Message} {rest : List Frame} {upper : UInt32}
    (h : BetweenTurns mp role inbound r forwarded)
    (hreceive : Message.receive upper r.pending = .message next rest) :
    Paired inbound forwarded.length next
      ∧ ((loopBody mp next rest role).receiver.stopped = false →
        BetweenTurns mp role inbound (loopBody mp next rest role).receiver
          (forwarded ++ [next])) := by
  obtain ⟨before, after, hin, hlen, hpending, htwo⟩ := h
  cases after with
  | nil =>
      rw [hpending] at hreceive
      exact nomatch hreceive
  | cons msg after =>
      obtain ⟨data, more, hmsg, hnul, hshort, hlast⟩ := htwo
      obtain ⟨flag, hflag⟩ := exists_flagged data more
      rw [hpending, stream_cons, frames_cons hmsg, hflag, List.cons_append, List.cons_append,
        receive_two, cString_of_not_mem hnul, clip_of_lt hshort] at hreceive
      obtain ⟨rfl, rfl⟩ : _ = next ∧ _ = rest := by
        injection hreceive with hnext hrest
        exact ⟨hnext, hrest⟩
      refine ⟨⟨before, msg, after, data, more, hin, hlen, hmsg, rfl⟩, fun hgo => ?_⟩
      -- a loop that goes on has decoded the message, so nothing follows its second frame
      rcases hlast with hstops | ⟨hmore, hrest⟩
      · exact absurd hstops ((stopped_loopBody hrole _ _).mp hgo)
      · refine ⟨before ++ [msg], after, by rw [hin, List.append_assoc]; rfl, ?_, ?_, hrest⟩
        · rw [stream_append, List.length_append, hlen, stream_cons, stream_nil, List.append_nil,
            frames_length, hmsg, hmore, List.length_append]
          simp only [List.length_cons, List.length_nil]
          omega
        · rw [pending_loopBody hrole, hmore]
          rfl

theorem loops_betweenTurns (hrole : role ≠ .whisperProxy) (htwo : TwoFramed mp role inbound)
    {r : Receiver} {forwarded : List Message} (h : Loops mp role inbound r forwarded) :
    (∀ j m, forwarded[j]? = some m → Paired inbound j m)
      ∧ (r.stopped = false → BetweenTurns mp role inbound r forwarded) := by
  induction h with
  | start =>
      refine ⟨fun j m hm => by simp at hm, fun _ => ⟨[], inbound, rfl, rfl, rfl, htwo⟩⟩
  | @turn r forwarded next rest upper _ hgo hreceive ih =>
      rw [forwarded_loopBody hrole]
      obtain ⟨hnext, hstep⟩ := betweenTurns_turn hrole (ih.2 hgo) hreceive
      refine ⟨fun j m hm => ?_, hstep⟩
      rcases Nat.lt_or_ge j forwarded.length with hj | hj
      · rw [List.getElem?_append_left hj] at hm
        exact ih.1 j m hm
      · -- the message of this turn
        rw [List.getElem?_append_right hj, List.getElem?_singleton] at hm
        split at hm
        · rename_i hzero
          obtain rfl : j = forwarded.length := by omega
          exact Option.some.inj hm ▸ hnext
        · exact nomatch hm

/-- In step, the key is never the last frame of its message. -/
theorem receive_ne_aborted {r : Receiver} {forwarded : List Message}
    (h : BetweenTurns mp role inbound r forwarded) (upper : UInt32) :
    Message.receive upper r.pending ≠ .aborted := by
  obtain ⟨before, after, hin, hlen, hpending, htwo⟩ := h
  rw [hpending]
  cases after with
  | nil => exact nofun
  | cons msg after =>
      obtain ⟨data, more, hmsg, -⟩ := htwo
      obtain ⟨flag, hflag⟩ := exists_flagged data more
      rw [stream_cons, frames_cons hmsg, hflag]
      exact nofun

theorem neverSlips_of_twoFramed (hrole : role ≠ .whisperProxy)
    (hsub : ∀ msg ∈ inbound, subscribed msg.frames = true) (htwo : TwoFramed mp role inbound) :
    NeverSlips mp role inbound where
  paired r forwarded h := (loops_betweenTurns hrole htwo h).1
  keys r forwarded h m hm := by
    obtain ⟨j, hj⟩ := List.getElem?_of_mem hm
    obtain ⟨before, msg, after, data, more, rfl, -, hmsg, rfl⟩ :=
      (loops_betweenTurns hrole htwo h).1 j m hj
    have hmsg' := hsub msg (List.mem_append_right _ (List.mem_cons_self ..))
    rw [frames_cons hmsg] at hmsg'
    exact (Bool.or_eq_true _ _).mp hmsg'
  noAbort r forwarded h hgo upper :=
    receive_ne_aborted ((loops_betweenTurns hrole htwo h).2 hgo) upper

/-! ## Anything else throws it off -/

/-- A frame left over from a message of three or more is the next key, and gives it away. -/
theorem leftover_slips (hrole : role ≠ .whisperProxy) (h : NeverSlips mp role inbound)
    {before after : List Multipart} {msg : Multipart} {data third : Bytes} {more : List Bytes}
    (hin : inbound = before ++ msg :: after) (hmsg : msg.others = data :: third :: more)
    {r : Receiver} {forwarded : List Message} (hloop : Loops mp role inbound r forwarded)
    (hgo : r.stopped = false) (hpending : r.pending = flagged (third :: more) ++ stream after)
    (hlen : 2 * forwarded.length = (stream before).length + 2) : False := by
  cases more with
  | nil =>
      refine h.noAbort r forwarded hloop hgo 0 ?_
      rw [hpending]
      rfl
  | cons fourth more =>
      obtain ⟨flag, hflag⟩ := exists_flagged fourth more
      have hreceive : Message.receive 0 r.pending
          = .message ⟨cString third, clip fourth⟩ (flagged more ++ stream after) := by
        rw [hpending, flagged, hflag]
        rfl
      have hslip := Loops.turn 0 hloop hgo hreceive
      rw [forwarded_loopBody hrole] at hslip
      -- what it forwards would have to start where a message does
      obtain ⟨b, m, a, -, -, hin', hlen', -⟩ :=
        h.paired _ _ hslip forwarded.length _ List.getElem?_concat_length
      refine no_boundary_inside (n := 2) (hin ▸ hin') (by omega) ?_ (hlen'.trans hlen)
      rw [frames_length, hmsg, List.length_cons, List.length_cons, List.length_cons]
      omega

/--
The other direction, from any place between two messages. Every turn here is taken
with a variable that is zero above, which is as good a value as any other.
-/
theorem twoFramed_of_neverSlips (hrole : role ≠ .whisperProxy)
    (h : NeverSlips mp role inbound) {after : List Multipart} : ∀ {before : List Multipart}
    {r : Receiver} {forwarded : List Message}, inbound = before ++ after →
    Loops mp role inbound r forwarded → r.stopped = false → r.pending = stream after →
    (stream before).length = 2 * forwarded.length → TwoFramed mp role after := by
  induction after with
  | nil => intros; trivial
  | cons msg after ih =>
      intro before r forwarded hin hloop hgo hpending hlen
      cases hmsg : msg.others with
      | nil =>
          -- one frame: the assertion fails
          have hquiet := h.noAbort r forwarded hloop hgo 0
          rw [hpending, stream_cons, Multipart.frames, hmsg] at hquiet
          exact absurd (receive_last _ _) hquiet
      | cons data more =>
          obtain ⟨flag, hflag⟩ := exists_flagged data more
          have hreceive : Message.receive 0 r.pending
              = .message ⟨cString msg.first, clip data⟩ (flagged more ++ stream after) := by
            rw [hpending, stream_cons, frames_cons hmsg, hflag]
            rfl
          have hnext := Loops.turn 0 hloop hgo hreceive
          rw [forwarded_loopBody hrole] at hnext
          -- what was forwarded is this message's two frames as they were
          obtain ⟨before', msg', after', data', more', hin', hlen', hmsg', heq⟩ :=
            h.paired _ _ hnext forwarded.length _ List.getElem?_concat_length
          obtain ⟨rfl, rfl⟩ := boundary_unique (hin ▸ hin') (hlen.trans hlen'.symm)
          rw [hmsg, List.cons.injEq] at hmsg'
          obtain ⟨rfl, rfl⟩ := hmsg'
          injection heq with hkey hdata
          refine ⟨data, more, hmsg, not_mem_of_cString_eq hkey, lt_of_clip_eq hdata, ?_⟩
          rw [hkey, hdata] at hnext
          by_cases hstops : role = .intermediateReceiver ∧ decodes mp ⟨msg.first, data⟩ = false
          · exact Or.inl hstops
          have hgo' := (stopped_loopBody hrole _ (flagged more ++ stream after)).mpr hstops
          have hpending' := @pending_loopBody _ mp _ hrole ⟨msg.first, data⟩
            (flagged more ++ stream after)
          have hturns : 2 * (forwarded ++ [(⟨msg.first, data⟩ : Message)]).length
              = (stream before).length + 2 := by
            rw [hlen, List.length_append, List.length_singleton]
            omega
          cases more with
          | nil =>
              refine Or.inr ⟨rfl, @ih (before ++ [msg]) _ _ (by rw [hin, List.append_assoc]; rfl)
                hnext hgo' hpending' ?_⟩
              rw [hturns, stream_append, List.length_append, stream_cons, stream_nil,
                List.append_nil, frames_length, hmsg, List.length_singleton]
          | cons third more =>
              exact (leftover_slips hrole h hin hmsg hnext hgo' hpending' hturns).elim

/--
**The relays keep the frame boundary exactly for messages of two frames** that the
two fields of `Message` can hold, whatever the uninitialised halves were.
-/
theorem neverSlips_iff (hrole : role ≠ .whisperProxy)
    (hsub : ∀ msg ∈ inbound, subscribed msg.frames = true) :
    NeverSlips mp role inbound ↔ TwoFramed mp role inbound :=
  ⟨fun h => @twoFramed_of_neverSlips _ _ _ _ hrole h _ [] _ _ rfl .start rfl rfl rfl,
    neverSlips_of_twoFramed hrole hsub⟩

/-! ## One frame too few -/

/-- A message that is all key, and one as the monitors send them. -/
def keyOnly : List Multipart :=
  [⟨bytes "monitor.servers.a", []⟩, ⟨bytes "monitor.servers.b", [[0xc0]]⟩]

theorem neverSlips_iff_keyOnly :
    NeverSlips oneDomainMsgpack .basicReceiver keyOnly
      ↔ TwoFramed oneDomainMsgpack .basicReceiver keyOnly :=
  neverSlips_iff (by decide) (by decide)

/--
`basic_receiver` aborts on the first message when the variable is zero above, and
otherwise forwards the one host's key with the other's for its data.
-/
theorem slips_keyOnly :
    (∀ msg ∈ keyOnly, subscribed msg.frames = true)
      ∧ ¬ NeverSlips oneDomainMsgpack .basicReceiver keyOnly
      ∧ ∃ r, Loops oneDomainMsgpack .basicReceiver keyOnly r
        [⟨bytes "monitor.servers.a", bytes "monitor.servers.b"⟩] := by
  refine ⟨by decide, fun h => ?_, ?_⟩
  · exact h.noAbort _ _ .start rfl 0 (by decide)
  · exact ⟨_, .turn 1 .start rfl (by decide : Message.receive 1 (stream keyOnly)
      = .message ⟨bytes "monitor.servers.a", bytes "monitor.servers.b"⟩ [⟨[0xc0], false⟩])⟩

end CloudMon.Proof
