import CloudMon.Proof.Commands

/-!
# Bringing the service back

`start` refuses while the pidfile exists, and `stop` removes it only after `kill` has
returned. A daemon that dies leaves its pidfile behind, so from then on `stop` raises
at the signal and `start` at its test: each names the other as the way out, and the
state is the same afterwards.

Between two commands there is either no pidfile or one with a pid in it. Among these
states, the ones that a `stop` and a `start` lead out of are those in which no pid is
recorded that nobody has.
-/

namespace CloudMon.Proof

open SmCtl Script

variable {which : Program} {m m' : Machine} {pid : Pid}

/-- The machines that commands one after the other lead to, daemons dying at any moment. -/
inductive Commanded (which : Program) : Machine → Prop where
  | init : Commanded which Machine.init
  | command {m m' : Machine} {p : Sm Unit} {r : Except Error Unit} : Commanded which m →
      (rules which).starts p → p.Outcome (amid exec Exits) m r m' → Commanded which m'
  | exits {m m' : Machine} : Commanded which m → Exits m m' → Commanded which m'

/-- **The service is back** after a `stop`, whatever that comes to, and a `start`. -/
def BroughtBack (which : Program) (m : Machine) : Prop :=
  (stop which).Ends exec m fun _ m₁ => ∀ m₂, Relation.ReflTransGen Exits m₁ m₂ →
    (SmCtl.start which).Ends exec m₂ fun r m₃ =>
      r = .ok () ∧ ∃ pid, ¬ Alive m₂ pid ∧ Records m₃ pid ∧ ⟨pid, false⟩ ∈ m₃.daemons

/-! ## Between two commands -/

/-- A pidfile that exists has a pid in it. -/
def InOrder (m : Machine) : Prop := m.pidfile = none ∨ ∃ pid, Records m pid

theorem exits_file (h : Relation.ReflTransGen Exits m m') :
    m'.pidfile = m.pidfile ∧ m'.texts = m.texts := by
  induction h with
  | refl => exact ⟨rfl, rfl⟩
  | tail _ hstep ih =>
      obtain ⟨-⟩ := hstep
      exact ih

theorem InOrder.of_file (h : InOrder m) (hfile : m'.pidfile = m.pidfile ∧ m'.texts = m.texts) :
    InOrder m' := by
  unfold InOrder Records
  rw [hfile.1, hfile.2]
  exact h

/-- What launches nothing and writes nothing may take the pidfile away, no more. -/
theorem InOrder.passive {op : Op} {a : op.Answer} (hop : Passive op) (hexec : exec op m a m')
    (h : InOrder m) : InOrder m' := by
  cases op with
  | fork => exact hop.elim
  | openWrite => exact hop.elim
  | write file text => exact hop.elim
  | pathExists =>
      obtain ⟨-, rfl⟩ := hexec
      exact h
  | openRead =>
      obtain ⟨-, rfl⟩ := hexec
      exact h
  | read file =>
      obtain ⟨-, rfl⟩ := hexec
      exact h
  | kill pid =>
      refine h.of_file ?_
      rw [exec] at hexec
      split at hexec
      · split at hexec
        · exact hexec.2 ▸ ⟨rfl, rfl⟩
        · exact hexec.2 ▸ ⟨rfl, rfl⟩
      · obtain ⟨hit, rfl⟩ := hexec
        exact ⟨rfl, rfl⟩
  | unlink =>
      obtain ⟨-, rfl⟩ := hexec
      exact Or.inl rfl
  | print text =>
      obtain rfl : m' = m := hexec
      exact h

theorem InOrder.along {p : Sm Unit} {r : Except Error Unit} (h : InOrder m)
    (hp : p.Along fun op _ _ => Passive op) (hout : p.Outcome (amid exec Exits) m r m') :
    InOrder m' := by
  refine hp.outcome (fun op a _ t t' hop hcall ht => ?_) hout h
  obtain ⟨u, u', hbefore, hexec, hafter⟩ := hcall
  exact ((ht.of_file (exits_file hbefore)).passive hop hexec).of_file (exits_file hafter)

/-- Once a pid is written to a file that has just been opened, it is recorded. -/
theorem records_of_record {r : Except Error Unit}
    (hout : (record which pid).Outcome (amid exec Exits) m r m') : Records m' pid := by
  obtain ⟨file, m₁, ⟨t₁, _, -, ⟨rfl, rfl⟩, hopen⟩, hout⟩ := hout
  obtain ⟨_, m₂, ⟨t₂, _, hbefore, hwrite, hafter⟩, hout⟩ := hout
  obtain ⟨_, m₃, ⟨t₃, _, hbefore', hprint, hafter'⟩, -, rfl⟩ := hout
  obtain rfl := hwrite
  obtain rfl := hprint
  obtain ⟨hfile, hempty, -⟩ := opened_file t₁
  -- nothing but the write itself happens to the file that was opened
  have hsame := exits_file (hopen.trans hbefore)
  have hwritten : Records (t₂.written _ _) pid :=
    records_written (hsame.1.trans hfile) (hsame.2 ▸ hempty)
  have hlater := exits_file ((hafter.trans hbefore').trans hafter')
  unfold Records
  rw [hlater.1, hlater.2]
  exact hwritten

theorem InOrder.starts {p : Sm Unit} {r : Except Error Unit} (h : InOrder m)
    (hp : (rules which).starts p) (hout : p.Outcome (amid exec Exits) m r m') : InOrder m' := by
  rcases hp with rfl | rfl
  · obtain ⟨found, m₁, ⟨t, t', hbefore, ⟨-, rfl⟩, hafter⟩, hout⟩ := hout
    cases found with
    | true =>
        have h₁ : InOrder m₁ := h.of_file (exits_file (hbefore.trans hafter))
        exact h₁.along (along_refusal fun _ _ _ hop _ => hop) hout
    | false =>
        obtain ⟨pid, m₂, -, hrecord⟩ := hout
        exact Or.inr ⟨pid, records_of_record hrecord⟩
  · exact h.along (along_stop fun _ _ _ hop _ => hop) hout

/-- **Between two commands** there is no pidfile, or one with a pid in it. -/
theorem inOrder_commanded (h : Commanded which m) : InOrder m := by
  induction h with
  | init => exact Or.inl rfl
  | command _ hp hout ih => exact ih.starts hp hout
  | exits _ hexits ih => exact ih.of_file (exits_file (.single hexits))

/-! ## Back or not -/

/-- **Where nobody has the recorded pid**, both commands raise and change nothing. -/
theorem commands_raise {p : Sm Unit} {r : Except Error Unit} (hrec : Records m pid)
    (hdead : ¬ Alive m pid) (hp : (rules which).starts p) (hout : p.Outcome exec m r m') :
    (∃ e, r = .error e) ∧ m' = m := by
  rcases hp with rfl | rfl
  · obtain ⟨hr, hm⟩ := (start_refuses hrec).of_outcome hout
    exact ⟨⟨_, hr⟩, hm⟩
  · obtain ⟨hr, hm⟩ := (stop_raises hrec hdead).of_outcome hout
    exact ⟨⟨_, hr⟩, hm⟩

theorem not_broughtBack (hrec : Records m pid) (hdead : ¬ Alive m pid) :
    ¬ BroughtBack which m := by
  intro hback
  obtain ⟨_, _, hstop, rfl, rfl⟩ := (@stop_raises which _ _ hrec hdead).exists_outcome
  have hstart := hback.of_outcome hstop _ .refl
  obtain ⟨r, m', hout, hok, -⟩ := hstart.exists_outcome
  obtain ⟨⟨e, herr⟩, -⟩ := commands_raise hrec hdead (Or.inl rfl) hout
  exact absurd (hok.symm.trans herr) nofun

/-- Once there is no pidfile, it stays so until the next `start`, which launches. -/
theorem start_back (h : m.pidfile = none) {m₂ : Machine}
    (hexits : Relation.ReflTransGen Exits m m₂) :
    (SmCtl.start which).Ends exec m₂ fun r m₃ =>
      r = .ok () ∧ ∃ pid, ¬ Alive m₂ pid ∧ Records m₃ pid ∧ ⟨pid, false⟩ ∈ m₃.daemons := by
  refine (start_launches ((exits_file hexits).1.trans h)).mono ?_
  rintro r m₃ ⟨hr, pid, hfree, hrec, hdaemons⟩
  exact ⟨hr, pid, hfree, hrec, hdaemons ▸ List.mem_append_right _ (List.mem_singleton_self _)⟩

/--
**When the service can be brought back.** From a state that commands and deaths have led
to, a `stop` and a `start` launch and record a daemon just in case no pid is recorded
that no daemon has.
-/
theorem broughtBack_iff (h : Commanded which m) :
    BroughtBack which m ↔ ∀ pid, Records m pid → Alive m pid := by
  constructor
  · intro hback pid hrec
    by_contra hdead
    exact not_broughtBack hrec hdead hback
  · intro halive
    rcases inOrder_commanded h with hnone | ⟨pid, hrec⟩
    · refine (stop_refuses hnone).mono ?_
      rintro _ _ ⟨-, rfl⟩ m₂ hexits
      exact start_back hnone hexits
    · refine (stop_signals hrec (halive pid hrec)).mono ?_
      rintro _ _ ⟨-, rfl⟩ m₂ hexits
      exact start_back rfl hexits

/-- Right after the first `start`. -/
theorem broughtBack_started :
    ∃ m, m.daemons ≠ [] ∧ Commanded .monitor m ∧ BroughtBack .monitor m := by
  obtain ⟨_, m, hout, -, pid, -, hrec, hdaemons⟩ :=
    (@start_launches .monitor Machine.init rfl).exists_outcome
  have hcommanded : Commanded .monitor m := .command .init (Or.inl rfl) hout.amidDrift
  refine ⟨m, hdaemons ▸ List.cons_ne_nil _ _, hcommanded,
    (broughtBack_iff hcommanded).mpr fun pid' hrec' => ?_⟩
  exact ⟨⟨pid, false⟩, hdaemons ▸ List.mem_singleton_self _, Subtype.ext (hrec'.unique hrec)⟩

/-- **Not back.** One `start`, and the daemon dies: what a `stop` and a `start` do then is raise. -/
theorem not_broughtBack_after_death : ∃ m, Commanded .monitor m ∧ ¬ BroughtBack .monitor m := by
  obtain ⟨_, m, hout, -, pid, -, hrec, hdaemons⟩ :=
    (@start_launches .monitor Machine.init rfl).exists_outcome
  have hcommanded : Commanded .monitor m := .command .init (Or.inl rfl) hout.amidDrift
  have hexits : Exits m { m with daemons := [] } := .exit hdaemons
  exact ⟨_, hcommanded.exits hexits, @not_broughtBack _ _ pid hrec fun ⟨d, hd, _⟩ => nomatch hd⟩

end CloudMon.Proof
