import CloudMon.Proof.Commands

/-!
# One daemon at a time

The pidfile is a lock that is tested before the fork and written after it, and that is
released once the holder has been told to exit, not once it has. A `start` that passes
its test may therefore do so while a daemon is shutting down, while another `start` is
past its own test, or while another has launched a daemon and not yet written it down.
An unlink may take away the pidfile of a daemon nobody has signalled.

These are all the ways. A run without them keeps an invariant: the live daemons and the
commands about to fork are one at most, and a daemon that nobody has signalled is
covered, by the pidfile or by the command that is about to open it.
-/

namespace CloudMon.Proof

open SmCtl Script Crowd

/-- Where a call leads: to a fork only from the test, and from a fork to `record`. -/
def Leads (which : Program) : (op : Op) → op.Answer → Sm Unit → Prop
  | .pathExists, found, rest => atFork rest = true → found = false
  | .fork, pid, rest => rest = record which pid
  | _, _, rest => atFork rest = false

variable {which : Program}

theorem leads_of_passive {op : Op} {a : op.Answer} {rest : Sm Unit} (hop : Passive op)
    (hrest : atFork rest = false) : Leads which op a rest := by
  cases op with
  | pathExists => exact fun h => absurd (hrest.symm.trans h) Bool.false_ne_true
  | fork => exact hop.elim
  | _ => exact hrest

theorem along_record (pid : Pid) : (record which pid).Along (Leads which) :=
  fun _ => ⟨rfl, fun _ => ⟨rfl, fun _ => ⟨rfl, trivial⟩⟩⟩

theorem along_starts {p : Sm Unit} (h : (rules which).starts p) :
    p.Along (Leads which) ∧ atFork p = false := by
  rcases h with rfl | rfl
  · refine ⟨fun found => ?_, rfl⟩
    cases found with
    | false => exact ⟨fun _ => rfl, fun _ => ⟨rfl, along_record _⟩⟩
    | true => exact ⟨nofun, along_refusal fun _ _ _ => leads_of_passive⟩
  · exact ⟨along_stop fun _ _ _ => leads_of_passive, rfl⟩

/-! ## The invariant -/

/-- The calls that leave the lock alone, or find it in order. -/
structure Orderly (which : Program) (c : Crowd.Call Op Op.Answer Error Unit Machine) :
    Prop where
  /-- When `start` passes its test, no daemon is shutting down, none is about to be written
  down, and no other `start` has passed. -/
  test : atFork c.rest = true → (∀ d ∈ c.before.daemons, d.interrupted = false)
    ∧ (∀ d ∈ c.before.daemons, record which d.pid ∉ c.others)
    ∧ ∀ p ∈ c.others, atFork p = false
  /-- When the pidfile is removed, every daemon has been signalled. -/
  unlink : c.op = .unlink → c.before.pidfile.isSome = true →
    ∀ d ∈ c.before.daemons, d.interrupted = true

structure Exclusive (which : Program) (c : Crowd Op Op.Answer Error Unit Machine) : Prop where
  one : c.world.daemons.length + c.programs.countP atFork ≤ 1
  covered : ∀ d ∈ c.world.daemons, d.interrupted = false →
    c.world.pidfile.isSome = true ∨ record which d.pid ∈ c.programs

/-- No daemon more, none less signalled, and the pidfile not gone. -/
structure Settles (m m' : Machine) : Prop where
  fewer : m'.daemons.length ≤ m.daemons.length
  signalled : ∀ d' ∈ m'.daemons, d'.interrupted = false →
    ∃ d ∈ m.daemons, d.interrupted = false ∧ d.pid = d'.pid
  kept : m.pidfile.isSome = true → m'.pidfile.isSome = true

theorem Settles.of_eq {m m' : Machine} (hdaemons : m'.daemons = m.daemons)
    (hfile : m'.pidfile = m.pidfile) : Settles m m' where
  fewer := (congrArg List.length hdaemons).le
  signalled d' hd' hnot := ⟨d', hdaemons ▸ hd', hnot, rfl⟩
  kept h := hfile ▸ h

theorem settles_interrupt (m : Machine) (hit : Pid → Bool) : Settles m (m.interrupt hit) where
  fewer := (List.length_map _).le
  signalled d' hd' hnot := by
    obtain ⟨d, hd, rfl⟩ := List.mem_map.mp hd'
    exact ⟨d, hd, (Bool.or_eq_false_iff.mp hnot).1, rfl⟩
  kept h := h

theorem settles_exits {m m' : Machine} (h : Exits m m') : Settles m m' := by
  obtain ⟨hm⟩ := h
  rename_i ds ds' d
  refine ⟨?_, fun d' hd' hnot => ⟨d', ?_, hnot, rfl⟩, fun h => h⟩
  · rw [hm, List.length_append, List.length_append, List.length_cons]
    omega
  · rw [hm]
    exact (List.sublist_append_right [d] ds').append_left ds |>.subset hd'

theorem Exclusive.settle {ps ps' : List (Sm Unit)} {m m' : Machine}
    (h : Exclusive which ⟨ps, m⟩) (hm : Settles m m')
    (hcount : ps'.countP atFork ≤ ps.countP atFork)
    (hrecord : ∀ pid, record which pid ∈ ps → record which pid ∈ ps') :
    Exclusive which ⟨ps', m'⟩ where
  one := le_trans (add_le_add hm.fewer hcount) h.one
  covered d' hd' hnot := by
    obtain ⟨d, hd, hdnot, heq⟩ := hm.signalled d' hd' hnot
    refine (h.covered d hd hdnot).imp hm.kept fun hrec => ?_
    rw [← heq]
    exact hrecord _ hrec

/-- A program that is at any other call than `open` is none that is about to open. -/
theorem record_mem {pid : Pid} {ps qs : List (Sm Unit)} {op : Op} {next : op.Answer → Sm Unit}
    (hop : op ≠ .openWrite) (h : record which pid ∈ ps ++ .call op next :: qs) :
    record which pid ∈ ps ++ qs := by
  rcases List.mem_append.mp h with h | h
  · exact List.mem_append_left _ h
  · rcases List.mem_cons.mp h with h | h
    · cases h
      exact absurd rfl hop
    · exact List.mem_append_right _ h

theorem sublist_beside (ps qs : List (Sm Unit)) (q : Sm Unit) :
    (ps ++ qs).Sublist (ps ++ q :: qs) :=
  (List.sublist_cons_self q qs).append_left ps

theorem mem_beside {p q : Sm Unit} {ps qs : List (Sm Unit)} (h : p ∈ ps ++ qs) :
    p ∈ ps ++ q :: qs := (sublist_beside ps qs q).subset h

theorem countP_beside {p : Sm Unit} (h : atFork p = false) (ps qs : List (Sm Unit)) :
    (ps ++ p :: qs).countP atFork = (ps ++ qs).countP atFork := by
  rw [List.countP_append, List.countP_append, List.countP_cons_of_neg (by rw [h]; decide)]

theorem countP_beside_fork {p : Sm Unit} (h : atFork p = true) (ps qs : List (Sm Unit)) :
    (ps ++ p :: qs).countP atFork = (ps ++ qs).countP atFork + 1 := by
  rw [List.countP_append, List.countP_append, List.countP_cons_of_pos h, add_assoc]

section Step

variable {ps qs : List (Sm Unit)} {m m' : Machine}

/-- A call other than the fork, the `open` and the unlink, if it is not a test that passes. -/
theorem Exclusive.call_settles {op : Op} {next : op.Answer → Sm Unit} {a : op.Answer}
    (h : Exclusive which ⟨ps ++ .call op next :: qs, m⟩) (hop : op ≠ .openWrite)
    (hm : Settles m m') (hrest : atFork (next a) = false) :
    Exclusive which ⟨ps ++ next a :: qs, m'⟩ := by
  refine h.settle hm ?_ fun pid hpid => mem_beside (record_mem hop hpid)
  rw [countP_beside hrest]
  exact (sublist_beside ps qs _).countP_le

/-- **A test that passes** finds no daemon: none is signalled, and any other would be covered. -/
theorem Exclusive.test_passes {next : Bool → Sm Unit} {found : Bool}
    (h : Exclusive which ⟨ps ++ .call .pathExists next :: qs, m⟩) (hfile : m.pidfile.isSome = false)
    (hsignalled : ∀ d ∈ m.daemons, d.interrupted = false)
    (hrecord : ∀ d ∈ m.daemons, record which d.pid ∉ ps ++ qs)
    (hfork : ∀ p ∈ ps ++ qs, atFork p = false) :
    Exclusive which ⟨ps ++ next found :: qs, m⟩ := by
  have hnone : m.daemons = [] := by
    refine List.eq_nil_iff_forall_not_mem.mpr fun d hd => ?_
    rcases h.covered d hd (hsignalled d hd) with hsome | hrec
    · exact absurd (hfile.symm.trans hsome) Bool.false_ne_true
    · exact hrecord d hd (record_mem (by rintro ⟨⟩) hrec)
  refine ⟨?_, fun d hd => absurd (hnone ▸ hd) List.not_mem_nil⟩
  have hzero : (ps ++ qs).countP atFork = 0 := List.countP_eq_zero.mpr fun p hp => by
    rw [hfork p hp]
    exact Bool.false_ne_true
  show m.daemons.length + _ ≤ 1
  rw [hnone]
  cases hrest : atFork (next found) with
  | false => rw [countP_beside hrest, hzero]; decide
  | true => rw [countP_beside_fork hrest, hzero]; decide

/-- **A fork** turns the command into the daemon it counted for. -/
theorem Exclusive.fork {next : Pid → Sm Unit} {pid : Pid}
    (h : Exclusive which ⟨ps ++ .call .fork next :: qs, m⟩) (hrest : next pid = record which pid) :
    Exclusive which ⟨ps ++ next pid :: qs, m.launched pid⟩ := by
  refine ⟨?_, fun d hd hnot => ?_⟩
  · have hone : m.daemons.length + _ ≤ 1 := h.one
    rw [countP_beside_fork rfl] at hone
    show (m.daemons ++ [_]).length + _ ≤ 1
    rw [countP_beside (by rw [hrest]; rfl), List.length_append, List.length_singleton]
    omega
  · rcases List.mem_append.mp hd with hd | hd
    · exact (h.covered d hd hnot).imp_right fun hrec => mem_beside (record_mem (by rintro ⟨⟩) hrec)
    · rw [List.mem_singleton.mp hd, hrest]
      exact Or.inr (List.mem_append_right _ List.mem_cons_self)

/-- **An unlink** uncovers only daemons that have been signalled. -/
theorem Exclusive.unlink {r : Except Error Unit} {next : Except Error Unit → Sm Unit}
    (h : Exclusive which ⟨ps ++ .call .unlink next :: qs, m⟩)
    (hsignalled : m.pidfile.isSome = true → ∀ d ∈ m.daemons, d.interrupted = true)
    (hrest : atFork (next r) = false) :
    Exclusive which ⟨ps ++ next r :: qs, { m with pidfile := none }⟩ := by
  refine ⟨?_, fun d hd hnot => ?_⟩
  · have hone : m.daemons.length + _ ≤ 1 := h.one
    rw [countP_beside rfl] at hone
    show m.daemons.length + _ ≤ 1
    rw [countP_beside hrest]
    exact hone
  · rcases h.covered d hd hnot with hsome | hrec
    · exact absurd (hnot.symm.trans (hsignalled hsome d hd)) Bool.false_ne_true
    · exact Or.inr (mem_beside (record_mem (by rintro ⟨⟩) hrec))

/-- **An `open` for writing** covers whatever there is. -/
theorem Exclusive.openWrite {next : Nat → Sm Unit} {file : Nat}
    (h : Exclusive which ⟨ps ++ .call .openWrite next :: qs, m⟩)
    (hrest : atFork (next file) = false) :
    Exclusive which ⟨ps ++ next file :: qs, m.opened⟩ := by
  obtain ⟨hfile, -, hdaemons⟩ := opened_file m
  refine ⟨?_, fun d _ _ => Or.inl (Option.isSome_of_eq_some hfile)⟩
  have hone : m.daemons.length + _ ≤ 1 := h.one
  rw [countP_beside rfl] at hone
  show m.opened.daemons.length + _ ≤ 1
  rw [hdaemons, countP_beside hrest]
  exact hone

/-- One call, of whatever kind. -/
theorem Exclusive.call {op : Op} {next : op.Answer → Sm Unit} {a : op.Answer}
    (h : Exclusive which ⟨ps ++ .call op next :: qs, m⟩) (hexec : exec op m a m')
    (hguard : Orderly which ⟨ps ++ qs, m, op, a, next a⟩) (hleads : Leads which op a (next a)) :
    Exclusive which ⟨ps ++ next a :: qs, m'⟩ := by
  cases op with
  | pathExists =>
      obtain ⟨hfound, rfl⟩ := hexec
      cases hrest : atFork (next a) with
      | false => exact h.call_settles (by rintro ⟨⟩) (.of_eq rfl rfl) hrest
      | true =>
          obtain ⟨hsignalled, hrecord, hfork⟩ := hguard.test hrest
          exact h.test_passes (hfound.symm.trans (hleads hrest)) hsignalled hrecord hfork
  | openRead =>
      obtain ⟨-, rfl⟩ := hexec
      exact h.call_settles (by rintro ⟨⟩) (.of_eq rfl rfl) hleads
  | read file =>
      obtain ⟨-, rfl⟩ := hexec
      exact h.call_settles (by rintro ⟨⟩) (.of_eq rfl rfl) hleads
  | openWrite =>
      obtain ⟨-, rfl⟩ := hexec
      exact h.openWrite hleads
  | write file text =>
      obtain rfl : m' = m.written file text := hexec
      exact h.call_settles (by rintro ⟨⟩) (.of_eq rfl rfl) hleads
  | fork =>
      obtain ⟨-, rfl⟩ := hexec
      exact h.fork hleads
  | kill pid =>
      have hsettles : Settles m m' := by
        rw [exec] at hexec
        split at hexec
        · split at hexec
          · exact hexec.2 ▸ settles_interrupt m _
          · exact hexec.2 ▸ .of_eq rfl rfl
        · obtain ⟨hit, rfl⟩ := hexec
          exact settles_interrupt m hit
      exact h.call_settles (by rintro ⟨⟩) hsettles hleads
  | unlink =>
      obtain ⟨-, rfl⟩ := hexec
      exact h.unlink (hguard.unlink rfl) hleads
  | print text =>
      obtain rfl : m' = m := hexec
      exact h.call_settles (by rintro ⟨⟩) (.of_eq rfl rfl) hleads

end Step

variable {c c' : Crowd Op Op.Answer Error Unit Machine}

theorem exclusive_step (h : Exclusive which c)
    (halong : ∀ p ∈ c.programs, p.Along (Leads which))
    (hstep : Crowd.Step (rules which) (Orderly which) c c') : Exclusive which c' := by
  cases hstep with
  | @start ps m p hp =>
      refine h.settle (.of_eq rfl rfl) ?_ fun pid hpid => List.mem_append_left _ hpid
      rw [countP_beside (along_starts hp).2, List.append_nil]
  | @call ps qs m m' op next a hexec hguard =>
      have hleads := halong _ (List.mem_append_right _ List.mem_cons_self) a
      exact h.call hexec hguard hleads.1
  | drift hexits => exact h.settle (settles_exits hexits) le_rfl fun pid hpid => hpid

theorem exclusive_reached (h : Crowd.Reached (rules which) (Orderly which) Machine.init c) :
    Exclusive which c := by
  have halong : ∀ {c}, Crowd.Reached (rules which) (Orderly which) Machine.init c →
      ∀ p ∈ c.programs, p.Along (Leads which) :=
    fun hreach => hreach.along fun p hp => (along_starts hp).1
  induction h with
  | refl => exact ⟨by decide, fun d hd => absurd hd List.not_mem_nil⟩
  | tail hreach hstep ih => exact exclusive_step ih (halong hreach) hstep

/--
**One daemon at a time.** In every state of every run whose tests and unlinks find the
lock in order, at most one daemon is live.
-/
theorem atMostOne_of_orderly
    (h : Crowd.Reached (rules which) (Orderly which) Machine.init c) :
    c.world.daemons.length ≤ 1 :=
  le_trans (Nat.le_add_right _ _) (exclusive_reached h).one

/-! ## One command after the other -/

/-- A call as it goes while no other command is at work, and in which the lock is in order. -/
def calmly (op : Op) (m : Machine) (a : op.Answer) (m' : Machine) : Prop :=
  exec op m a m' ∧ match op, a with
    | .pathExists, found => found = false → m.daemons = []
    | .unlink, _ => ∀ d ∈ m.daemons, d.interrupted = true
    | _, _ => True

/-- Beside commands that have come to an end such a call is an orderly one. -/
theorem orderly_of_calmly {ps : List (Sm Unit)} (hps : ∀ p ∈ ps, atFork p = false) (op : Op)
    (a : op.Answer) (rest : Sm Unit) (m m' : Machine) (hleads : Leads which op a rest)
    (hcall : calmly op m a m') : exec op m a m' ∧ Orderly which ⟨ps, m, op, a, rest⟩ := by
  obtain ⟨hexec, hcalm⟩ := hcall
  refine ⟨hexec, fun hrest => ?_, ?_⟩
  · cases op with
    | pathExists =>
        have hnone : m.daemons = [] := hcalm (hleads hrest)
        exact ⟨fun d hd => absurd (hnone ▸ hd) List.not_mem_nil,
          fun d hd => absurd (hnone ▸ hd) List.not_mem_nil, hps⟩
    | fork =>
        obtain rfl : rest = record which a := hleads
        exact absurd hrest Bool.false_ne_true
    | _ => exact absurd (hrest.symm.trans hleads) (by decide)
  · rintro rfl _
    exact hcalm

theorem atFork_ofExcept (r : Except Error Unit) : atFork (ofExcept r) = false := by
  cases r with
  | error e => rfl
  | ok u => rfl

theorem reached_command {ps : List (Sm Unit)} {m m' : Machine} {p : Sm Unit}
    {r : Except Error Unit} (h : Crowd.Reached (rules which) (Orderly which) Machine.init ⟨ps, m⟩)
    (hps : ∀ p ∈ ps, atFork p = false) (hp : (rules which).starts p)
    (hout : p.Outcome calmly m r m') :
    Crowd.Reached (rules which) (Orderly which) Machine.init ⟨ps ++ [ofExcept r], m'⟩
      ∧ ∀ p ∈ ps ++ [ofExcept r], atFork p = false := by
  refine ⟨reached_outcome (orderly_of_calmly hps) (along_starts hp).1 (h.tail (.start hp)) hout,
    fun q hq => ?_⟩
  rcases List.mem_append.mp hq with hq | hq
  · exact hps q hq
  · exact List.mem_singleton.mp hq ▸ atFork_ofExcept r

/-- `start` on a machine without daemons. -/
theorem start_calmly (which : Program) {m : Machine} (hfile : m.pidfile = none)
    (hnone : m.daemons = []) (pid : Pid) :
    ∃ m', (SmCtl.start which).Outcome calmly m (.ok ()) m' ∧ Records m' pid
      ∧ m'.daemons = [⟨pid, false⟩] := by
  obtain ⟨hopened, hempty, hdaemons⟩ := opened_file (m.launched pid)
  refine ⟨_, ⟨false, m, ⟨⟨by rw [hfile]; rfl, rfl⟩, fun _ => hnone⟩, pid, m.launched pid,
    ⟨⟨fun d hd => absurd (hnone ▸ hd) List.not_mem_nil, rfl⟩, trivial⟩, _, _, ⟨⟨rfl, rfl⟩, trivial⟩,
    (), _, ⟨rfl, trivial⟩, (), _, ⟨rfl, trivial⟩, rfl, rfl⟩, records_written hopened hempty, ?_⟩
  show (m.launched pid).opened.daemons = _
  rw [hdaemons, Machine.launched, hnone]
  rfl

/-- `stop` for the only daemon there is. -/
theorem stop_calmly (which : Program) {m : Machine} {pid : Pid} (h : Records m pid)
    (hone : m.daemons = [⟨pid, false⟩]) :
    ∃ m', (stop which).Outcome calmly m (.ok ()) m' ∧ m'.pidfile = none
      ∧ m'.daemons = [⟨pid, true⟩] := by
  obtain ⟨file, hfile, htext⟩ := h
  have hdaemons : (m.interrupt fun p => (p.val : Int) = pid.val).daemons = [⟨pid, true⟩] := by
    simp [Machine.interrupt, hone]
  have hkill : calmly (.kill pid.val) m (.ok ())
      (m.interrupt fun p => (p.val : Int) = pid.val) := by
    refine ⟨?_, trivial⟩
    rw [exec, if_pos (by exact_mod_cast pid.2),
      if_pos ⟨⟨pid, false⟩, hone ▸ List.mem_singleton_self _, rfl⟩]
    exact ⟨rfl, rfl⟩
  have hunlink : calmly .unlink (m.interrupt fun p => (p.val : Int) = pid.val) (.ok ())
      { m.interrupt fun p => (p.val : Int) = pid.val with pidfile := none } := by
    refine ⟨⟨?_, rfl⟩, ?_⟩
    · rw [Machine.interrupt, hfile]
      rfl
    · rw [hdaemons]
      exact fun d hd => List.mem_singleton.mp hd ▸ rfl
  refine ⟨{ m.interrupt fun p => (p.val : Int) = pid.val with pidfile := none },
    ⟨true, m, ⟨⟨by rw [hfile]; rfl, rfl⟩, fun hno => absurd hno (by decide)⟩,
      .ok file, m, ⟨⟨by rw [hfile], rfl⟩, trivial⟩,
      m.texts file, m, ⟨⟨rfl, rfl⟩, trivial⟩, ?_⟩, rfl, hdaemons⟩
  -- what is read is the pid, and no error
  change (((int (m.texts file)).tryCatch _).bind _).Outcome _ _ _ _
  rw [htext, int_natText]
  simp only [Script.tryCatch, Script.bind, if_neg (pid_ne_neg_one pid)]
  exact ⟨.ok (), _, hkill, (), _, ⟨rfl, trivial⟩, .ok (), _, hunlink, rfl, rfl⟩

/-- `start` and `stop`, the daemon exits, and `start` again: the guard lets all of it pass. -/
theorem atMostOne_startedAgain : ∃ (c : Crowd Op Op.Answer Error Unit Machine) (pid : Pid),
    c.programs.length = 3 ∧ c.world.daemons = [⟨pid, false⟩] ∧ c.world.daemons.length ≤ 1 := by
  have hinit : Crowd.Reached (rules .monitor) (Orderly .monitor) Machine.init ⟨[], Machine.init⟩ :=
    .refl
  obtain ⟨m₁, hout₁, hrec, hdaemons₁⟩ :=
    start_calmly .monitor (m := Machine.init) rfl rfl ⟨100, by decide⟩
  obtain ⟨hstarted, hps₁⟩ := reached_command hinit nofun (Or.inl rfl) hout₁
  obtain ⟨m₂, hout₂, hfile₂, hdaemons₂⟩ := stop_calmly .monitor hrec hdaemons₁
  obtain ⟨hstopped, hps₂⟩ := reached_command hstarted hps₁ (Or.inr rfl) hout₂
  have hexited := hstopped.tail (.drift (@Exits.exit m₂ [] [] _ hdaemons₂))
  obtain ⟨m₃, hout₃, -, hdaemons₃⟩ := start_calmly .monitor
    (m := { m₂ with daemons := [] }) hfile₂ rfl ⟨101, by decide⟩
  obtain ⟨hagain, -⟩ := reached_command hexited hps₂ (Or.inl rfl) hout₃
  exact ⟨_, ⟨101, by decide⟩, rfl, hdaemons₃, atMostOne_of_orderly hagain⟩

/--
**Two daemons.** `start`, `stop`, `start`, one after the other: the first daemon has been
signalled and its pidfile removed, and it need not have exited when the second is launched.
-/
theorem two_daemons : ∃ c p q, Crowd.Reached (rules .monitor) unguarded Machine.init c
    ∧ c.world.daemons = [⟨p, true⟩, ⟨q, false⟩] := by
  obtain ⟨_, m₁, hout₁, rfl, p, -, hrec, hdaemons₁⟩ :=
    (@start_launches .monitor Machine.init rfl).exists_outcome
  have hlive : Alive m₁ p := ⟨⟨p, false⟩, hdaemons₁ ▸ List.mem_singleton_self _, rfl⟩
  obtain ⟨_, m₂, hout₂, rfl, rfl⟩ :=
    (@stop_signals .monitor _ _ hrec hlive).exists_outcome
  obtain ⟨_, m₃, hout₃, rfl, q, -, -, hdaemons₃⟩ :=
    (@start_launches .monitor { m₁.interrupt _ with pidfile := none } rfl).exists_outcome
  have h₀ : Crowd.Reached (rules .monitor) unguarded Machine.init ⟨[], Machine.init⟩ := .refl
  have h₃ := ((h₀.command (Or.inl rfl) hout₁).command (Or.inr rfl) hout₂).command (Or.inl rfl) hout₃
  refine ⟨_, p, q, h₃, ?_⟩
  rw [hdaemons₃]
  simp [Machine.interrupt, hdaemons₁, Machine.init]

end CloudMon.Proof
