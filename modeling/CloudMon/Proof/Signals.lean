import CloudMon.Proof.Commands

/-!
# Who is signalled

`stop` signals whatever number it finds in the pidfile, and a number there is a process
of this machine, or all of a group, whether or not it was ever launched by `start`. So
what is in the pidfile has to be a pid that some `fork` has returned, and that is so in
every run, however its commands overlap, as long as no pid is written over a longer one:
`write` starts at the beginning of the file and takes nothing away behind what it writes.
-/

namespace CloudMon.Proof

open SmCtl Script Crowd

/-- A fork has returned this pid. -/
def Forked (made : List (Made Op Op.Answer)) (pid : Pid) : Prop := ⟨.fork, pid⟩ ∈ made

/-- What a pidfile holds: nothing yet, or the pid of a daemon that was launched. -/
def PidText (made : List (Made Op Op.Answer)) (text : Bytes) : Prop :=
  text = [] ∨ ∃ pid, Forked made pid ∧ text = Decimal.natText pid.val

/-- Only pids that were forked are signalled, or written down, and only such are read. -/
def launchedOnly : Terms Op Op.Answer where
  allows made
    | .kill n => ∃ pid, Forked made pid ∧ n = pid.val
    | .write _ text => ∃ pid, Forked made pid ∧ text = Decimal.natText pid.val
    | _ => True
  tells made
    | .read _, text => PidText made text
    | _, _ => True

variable {which : Program} {made : List (Made Op Op.Answer)}

theorem Forked.after {pid : Pid} (h : Forked made pid) (later : List (Made Op Op.Answer)) :
    Forked (made ++ later) pid := List.mem_append_left later h

theorem PidText.after {text : Bytes} (h : PidText made text) (later : List (Made Op Op.Answer)) :
    PidText (made ++ later) text :=
  h.imp_right fun ⟨pid, hpid, htext⟩ => ⟨pid, hpid.after later, htext⟩

/-! ## The programs keep to it -/

theorem keeps_record {pid : Pid} (h : Forked made pid) :
    (record which pid).Keeps launchedOnly made := by
  refine fun later => ⟨trivial, fun file _ later' => ⟨⟨pid, ?_, rfl⟩, fun _ _ => ?_⟩⟩
  · exact ((h.after _).after _).after _
  · exact fun _ => ⟨trivial, fun _ _ => trivial⟩

theorem keeps_launch : (launch which).Keeps launchedOnly made :=
  fun _ => ⟨trivial, fun _ _ => keeps_record (List.mem_append_right _ (List.mem_singleton_self _))⟩

theorem int_nil : int [] = .throw .valueError := rfl

/-- What `readpid` goes on with, if it goes on, is a pid that was forked. -/
theorem keeps_readpid {f : Int → Sm Unit} (hnone : ∀ later, (f (-1)).Keeps launchedOnly later)
    (hf : ∀ pid later, Forked later pid → (f pid.val).Keeps launchedOnly later) :
    (readpid >>= f).Keeps launchedOnly made := by
  refine fun later => ⟨trivial, fun r _ => ?_⟩
  cases r with
  | error e =>
      cases e with
      | osError errno => exact hnone _
      | runtimeError text => trivial
      | ioError errno => trivial
      | valueError => trivial
  | ok file =>
      refine fun later => ⟨trivial, fun text htext => ?_⟩
      change (((int text).tryCatch _).bind f).Keeps _ _
      rcases htext with rfl | ⟨pid, hpid, rfl⟩
      · rw [int_nil]
        trivial
      · rw [int_natText]
        exact hf pid _ (hpid.after _)

theorem keeps_start : (SmCtl.start which).Keeps launchedOnly made := by
  refine fun later => ⟨trivial, fun found _ => ?_⟩
  cases found with
  | false => exact keeps_launch
  | true => exact keeps_readpid (fun _ => trivial) fun _ _ _ => trivial

theorem keeps_stop : (stop which).Keeps launchedOnly made := by
  refine fun later => ⟨trivial, fun found _ => ?_⟩
  cases found with
  | false => trivial
  | true =>
      refine keeps_readpid (fun _ => trivial) fun pid later hpid => ?_
      rw [if_neg (pid_ne_neg_one pid)]
      refine fun later' => ⟨⟨pid, hpid.after _, rfl⟩, fun r _ => ?_⟩
      cases r with
      | error e => trivial
      | ok u =>
          refine fun _ => ⟨trivial, fun _ _ _ => ⟨trivial, fun r _ => ?_⟩⟩
          cases r with
          | error e => trivial
          | ok u => trivial

/-! ## The machine honours it -/

/-- A pid is not written over a longer one. -/
def Covers (c : Crowd.Call Op Op.Answer Error Unit Machine) : Prop :=
  ∀ file text, c.op = .write file text → (c.before.texts file).length ≤ text.length

/-- What the calls so far account for. -/
structure Attested (made : List (Made Op Op.Answer)) (m : Machine) : Prop where
  /-- Whatever a pidfile holds, or one that was removed while open. -/
  texts : ∀ file, PidText made (m.texts file)
  /-- A SIGINT was meant for the daemon that has it. -/
  signalled : ∀ d ∈ m.daemons, d.interrupted = true → ∃ r, ⟨.kill d.pid.val, r⟩ ∈ made

variable {m m' : Machine}

theorem Attested.after (h : Attested made m) (later : List (Made Op Op.Answer)) :
    Attested (made ++ later) m where
  texts file := (h.texts file).after later
  signalled d hd hint := by
    obtain ⟨r, hr⟩ := h.signalled d hd hint
    exact ⟨r, List.mem_append_left later hr⟩

/-- A file gets a new text. -/
theorem Attested.update {text : Bytes} (h : Attested made m) (file : Nat)
    (htext : PidText made text) (htexts : m'.texts = Function.update m.texts file text)
    (hdaemons : m'.daemons = m.daemons) : Attested made m' where
  texts other := by
    rw [htexts]
    by_cases hother : other = file
    · rw [hother, Function.update_self]
      exact htext
    · rw [Function.update_of_ne hother]
      exact h.texts other
  signalled d hd hint := h.signalled d (hdaemons ▸ hd) hint

theorem attested_opened (h : Attested made m) : Attested made m.opened := by
  unfold Machine.opened
  split
  · exact h.update _ (Or.inl rfl) rfl rfl
  · exact h.update _ (Or.inl rfl) rfl rfl

theorem attested_written {file : Nat} {pid : Pid} (h : Attested made m)
    (hpid : Forked made pid) (hcovers : (m.texts file).length ≤ (Decimal.natText pid.val).length) :
    Attested made (m.written file (Decimal.natText pid.val)) := by
  refine h.update file (Or.inr ⟨pid, hpid, rfl⟩) ?_ rfl
  rw [Machine.written, List.drop_eq_nil_of_le hcovers, List.append_nil]

theorem attested_launched (h : Attested made m) (pid : Pid) :
    Attested made (m.launched pid) where
  texts := h.texts
  signalled d hd hint := by
    rcases List.mem_append.mp hd with hd | hd
    · exact h.signalled d hd hint
    · rw [List.mem_singleton.mp hd] at hint
      exact absurd hint Bool.false_ne_true

/-- **A signal to one pid** is accounted for by itself. -/
theorem attested_interrupt {n : Int} {r : Except Error Unit} (h : Attested made m) :
    Attested (made ++ [⟨.kill n, r⟩]) (m.interrupt fun p => (p.val : Int) = n) where
  texts file := (h.texts file).after _
  signalled d' hd' hint := by
    obtain ⟨d, hd, rfl⟩ := List.mem_map.mp hd'
    rcases Bool.or_eq_true_iff.mp hint with hint | hit
    · obtain ⟨r', hr'⟩ := h.signalled d hd hint
      exact ⟨r', List.mem_append_left _ hr'⟩
    · rw [of_decide_eq_true hit]
      exact ⟨r, List.mem_append_right _ (List.mem_singleton_self _)⟩

theorem attested_exits (h : Attested made m) (hexits : Exits m m') : Attested made m' := by
  obtain ⟨hm⟩ := hexits
  rename_i ds ds' d
  refine ⟨h.texts, fun d' hd' => h.signalled d' ?_⟩
  rw [hm]
  exact (List.sublist_append_right [d] ds').append_left ds |>.subset hd'

theorem honours_rules : Honours (rules which) Covers launchedOnly Attested where
  call := by
    rintro made ⟨others, m, op, a, rest⟩ m' h hallowed hexec hguard
    cases op with
    | pathExists => exact ⟨trivial, hexec.2 ▸ h.after _⟩
    | openRead => exact ⟨trivial, hexec.2 ▸ h.after _⟩
    | read file => exact ⟨hexec.1 ▸ h.texts file, hexec.2 ▸ h.after _⟩
    | openWrite => exact ⟨trivial, hexec.2 ▸ attested_opened (h.after _)⟩
    | write file text =>
        obtain ⟨pid, hpid, rfl⟩ := hallowed
        obtain rfl : m' = m.written file _ := hexec
        exact ⟨trivial, attested_written (h.after _) (hpid.after _) (hguard file _ rfl)⟩
    | fork => exact ⟨trivial, hexec.2 ▸ attested_launched (h.after _) a⟩
    | kill n =>
        obtain ⟨pid, hpid, rfl⟩ := hallowed
        refine ⟨trivial, ?_⟩
        -- the pid is positive, so this is no signal to a group
        simp only [rules, exec, Int.natCast_pos.mpr pid.2, if_true] at hexec
        split at hexec
        · exact hexec.2 ▸ attested_interrupt h
        · obtain rfl : m' = m := hexec.2
          exact h.after _
    | unlink =>
        refine ⟨trivial, hexec.2 ▸ ?_⟩
        exact ⟨(h.after _).texts, (h.after _).signalled⟩
    | print text =>
        obtain rfl : m' = m := hexec
        exact ⟨trivial, h.after _⟩
  drift := attested_exits

theorem attested_init : Attested [] Machine.init := ⟨fun _ => Or.inl rfl, nofun⟩

theorem keeps_starts (p : Sm Unit) (h : (rules which).starts p) : p.Keeps launchedOnly [] := by
  rcases h with rfl | rfl
  · exact keeps_start
  · exact keeps_stop

variable {c : Crowd Op Op.Answer Error Unit Machine}

/-- The call that one program among others comes to next. -/
theorem logged_next {guard : Crowd.Call Op Op.Answer Error Unit Machine → Prop}
    {l k : List (Sm Unit)} {p q : Sm Unit} {m₀ : Machine}
    (h : Logged (rules which) guard m₀ made ⟨l ++ p :: k, m⟩) (op : Op)
    {next : op.Answer → Sm Unit} {a : op.Answer} (hp : p = .call op next) (hexec : exec op m a m')
    (hguard : guard ⟨l ++ k, m, op, a, next a⟩) (hq : q = next a) :
    Logged (rules which) guard m₀ (made ++ [⟨op, a⟩]) ⟨l ++ q :: k, m'⟩ := by
  rw [hp] at h
  exact hq ▸ h.call hexec hguard

theorem covers_of_ne {c : Crowd.Call Op Op.Answer Error Unit Machine}
    (h : ∀ file text, c.op ≠ .write file text) : Covers c :=
  fun file text hop => absurd hop (h file text)

/-- `start`, and `stop` after it, up to its signal. -/
theorem logged_startStop : ∃ made c, Logged (rules .monitor) Covers Machine.init made c
    ∧ c.world.daemons = [⟨⟨100, by decide⟩, true⟩]
    ∧ ∃ earlier, made = earlier ++ [⟨.kill 100, .ok ()⟩] := by
  have h₀ : Logged (rules .monitor) Covers Machine.init []
      ⟨[] ++ SmCtl.start .monitor :: [], Machine.init⟩ := Logged.none.start (Or.inl rfl)
  have h₁ := logged_next h₀ .pathExists rfl (a := false) ⟨rfl, rfl⟩ (covers_of_ne nofun) rfl
  have h₂ := logged_next h₁ .fork rfl (a := ⟨100, by decide⟩) ⟨nofun, rfl⟩ (covers_of_ne nofun) rfl
  have h₃ := logged_next h₂ .openWrite rfl (a := 0) ⟨rfl, rfl⟩ (covers_of_ne nofun) rfl
  have h₄ := logged_next h₃ (.write 0 (Decimal.natText 100)) rfl (a := ()) rfl
    (by rintro file text ⟨⟩; exact Nat.zero_le _) rfl
  have h₅ := h₄.start (p := stop .monitor) (Or.inr rfl)
  have h₆ := logged_next h₅ .pathExists rfl (a := true) ⟨rfl, rfl⟩ (covers_of_ne nofun) rfl
  have h₇ := logged_next h₆ .openRead rfl (a := .ok 0) ⟨rfl, rfl⟩ (covers_of_ne nofun) rfl
  have h₈ := logged_next h₇ (.read 0) rfl (a := Decimal.natText 100) ⟨rfl, rfl⟩
    (covers_of_ne nofun) rfl
  have h₉ := logged_next h₈ (.kill 100) rfl (a := .ok ()) ⟨rfl, rfl⟩ (covers_of_ne nofun) rfl
  exact ⟨_, _, h₉, rfl, _, rfl⟩

/--
**Only what was launched is signalled.** In every run in which no pid is written over a
longer one, whatever the commands and however they overlap, each `kill` is of a pid that a
fork before it has returned. So it is never of a group, and never of a stranger.
-/
theorem kill_forked (h : Logged (rules which) Covers Machine.init made c)
    {earlier later : List (Made Op Op.Answer)} {n : Int} {r : Except Error Unit}
    (hkill : made = earlier ++ ⟨.kill n, r⟩ :: later) : ∃ pid, Forked earlier pid ∧ n = pid.val :=
  h.allowed honours_rules attested_init keeps_starts hkill

theorem kill_forked_startStop : ∃ made earlier, made = earlier ++ [⟨.kill 100, .ok ()⟩]
    ∧ ∃ pid : Pid, Forked earlier pid ∧ (100 : Int) = pid.val := by
  obtain ⟨made, c, h, -, earlier, hmade⟩ := logged_startStop
  exact ⟨made, earlier, hmade, kill_forked h hmade⟩

/--
**Every SIGINT was meant.** In every such run a live daemon that has been sent SIGINT is
one whose own pid some `stop` has signalled.
-/
theorem interrupted_killed (h : Logged (rules which) Covers Machine.init made c) {d : Daemon}
    (hd : d ∈ c.world.daemons) (hint : d.interrupted = true) :
    ∃ r, ⟨.kill d.pid.val, r⟩ ∈ made :=
  (h.keeps honours_rules attested_init keeps_starts).1.signalled d hd hint

theorem interrupted_killed_startStop : ∃ (made : List (Made Op Op.Answer)) (d : Daemon),
    d.interrupted = true ∧ ∃ r, ⟨.kill d.pid.val, r⟩ ∈ made := by
  obtain ⟨made, c, h, hdaemons, -⟩ := logged_startStop
  exact ⟨made, ⟨⟨100, by decide⟩, true⟩, rfl,
    interrupted_killed h (hdaemons ▸ List.mem_singleton_self _) rfl⟩

/--
**A stranger.** Two `start`s pass their tests and launch 100 and 99. Both open the pidfile,
and only then does either write: what they leave is 990, and `stop` signals that.
-/
theorem stranger_signalled : ∃ (earlier : List (Made Op Op.Answer)) (r : Except Error Unit) (c : _),
    Logged (rules .monitor) unguarded Machine.init (earlier ++ [⟨.kill 990, r⟩]) c
      ∧ ∀ pid, Forked earlier pid → pid.val = 100 ∨ pid.val = 99 := by
  have h₀ : Logged (rules .monitor) unguarded Machine.init []
      ⟨[SmCtl.start .monitor] ++ SmCtl.start .monitor :: [], Machine.init⟩ :=
    (Logged.none.start (Or.inl rfl)).start (Or.inl rfl)
  have h₁ := logged_next h₀ .pathExists rfl (a := false) ⟨rfl, rfl⟩ trivial rfl
  have h₂ := logged_next (l := []) h₁ .pathExists rfl (a := false) ⟨rfl, rfl⟩ trivial rfl
  have h₃ := logged_next (l := []) h₂ .fork rfl (a := ⟨100, by decide⟩) ⟨nofun, rfl⟩ trivial rfl
  have h₄ := logged_next (l := [_]) h₃ .fork rfl (a := ⟨99, by decide⟩)
    ⟨by rintro d (_ | ⟨_, ⟨⟩⟩) ⟨⟩, rfl⟩ trivial rfl
  have h₅ := logged_next (l := []) h₄ .openWrite rfl (a := 0) ⟨rfl, rfl⟩ trivial rfl
  have h₆ := logged_next (l := [_]) h₅ .openWrite rfl (a := 0) ⟨rfl, rfl⟩ trivial rfl
  have h₇ := logged_next (l := []) h₆ (.write 0 (Decimal.natText 100)) rfl (a := ()) rfl trivial rfl
  have h₈ := logged_next (l := [_]) h₇ (.write 0 (Decimal.natText 99)) rfl (a := ()) rfl trivial
    rfl
  have h₉ := h₈.start (p := stop .monitor) (Or.inr rfl)
  have h₁₀ := logged_next h₉ .pathExists rfl (a := true) ⟨rfl, rfl⟩ trivial rfl
  have h₁₁ := logged_next h₁₀ .openRead rfl (a := .ok 0) ⟨rfl, rfl⟩ trivial rfl
  have h₁₂ := logged_next h₁₁ (.read 0) rfl (a := Decimal.natText 990) ⟨rfl, rfl⟩ trivial rfl
  have h₁₃ := logged_next h₁₂ (.kill 990) rfl (a := .error (.osError esrch)) ⟨rfl, rfl⟩ trivial rfl
  refine ⟨_, _, _, h₁₃, fun pid hpid => ?_⟩
  have hcases : (⟨.fork, pid⟩ : Made Op Op.Answer) = ⟨.fork, ⟨100, by decide⟩⟩
      ∨ (⟨.fork, pid⟩ : Made Op Op.Answer) = ⟨.fork, ⟨99, by decide⟩⟩ := by
    simpa [Forked] using hpid
  refine hcases.imp (fun h => ?_) fun h => ?_
  · exact congrArg Subtype.val (eq_of_heq (Sigma.mk.inj h).2)
  · exact congrArg Subtype.val (eq_of_heq (Sigma.mk.inj h).2)

end CloudMon.Proof
