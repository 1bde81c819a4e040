import CloudMon.Control.SmCtl
import Mathlib.Data.Fintype.EquivFin

/-!
# What one command does

`start` and `stop` run alone, each in every state that the pidfile can be in between
two commands. There are three: no pidfile, a pidfile with the pid of a live daemon, and
one with the pid of a daemon that is gone. The last one makes both commands raise, and
neither changes anything about it.
-/

namespace CloudMon.Proof

open SmCtl Script

/-- The pidfile is there and names `pid`. -/
def Records (m : Machine) (pid : Pid) : Prop :=
  ∃ file, m.pidfile = some file ∧ m.texts file = Decimal.natText pid.val

/-- One of the daemons has this pid. -/
def Alive (m : Machine) (pid : Pid) : Prop := ∃ d ∈ m.daemons, d.pid = pid

theorem Records.unique {m : Machine} {pid pid' : Pid} (h : Records m pid) (h' : Records m pid') :
    (pid' : ℕ) = pid := by
  obtain ⟨file, hfile, htext⟩ := h
  obtain ⟨file', hfile', htext'⟩ := h'
  obtain rfl : file = file' := Option.some.inj (hfile.symm.trans hfile')
  rw [htext'] at htext
  have hvalue := Decimal.value_natText pid'.val
  rwa [htext, Decimal.value_natText, eq_comm] at hvalue

/-! ## Reading the pidfile -/

theorem strip_natText (n : ℕ) : strip (Decimal.natText n) = Decimal.natText n := by
  have hspace : ∀ b ∈ Decimal.natText n, isSpace b = false := by
    intro b hb
    have hdigit := Decimal.isDigit_iff.mp (Decimal.natText_isDigit b hb)
    simp only [isSpace, Bool.or_eq_false_iff, beq_eq_false_iff_ne, Bool.and_eq_false_iff,
      decide_eq_false_iff_not, ne_eq, ← UInt8.toNat_inj, UInt8.le_iff_toNat_le, UInt8.reduceToNat]
    omega
  rw [strip, List.dropWhile_eq_self_iff.mpr, List.rdropWhile_eq_self_iff.mpr]
  · intro hne
    rw [hspace _ (List.getLast_mem hne)]
    exact Bool.false_ne_true
  · intro hlen
    rw [hspace _ (List.getElem_mem hlen)]
    exact Bool.false_ne_true

/-- **A pid reads back as itself.** -/
theorem pyInt_natText (n : ℕ) : pyInt (Decimal.natText n) = some (n : Int) := by
  rw [pyInt, strip_natText, Decimal.parseExponent_natText]

theorem int_natText (n : ℕ) : int (Decimal.natText n) = pure (n : Int) := by
  unfold int
  rw [pyInt_natText]
  rfl

variable {which : Program} {m : Machine} {pid : Pid}

theorem readpid_records (h : Records m pid) :
    readpid.Ends exec m fun r m' => r = .ok (pid.val : Int) ∧ m' = m := by
  obtain ⟨file, hfile, htext⟩ := h
  have hopen : ∀ r m', exec .openRead m r m' ↔ r = .ok file ∧ m' = m := by
    intro r m'
    rw [exec, hfile]
  have hread : ∀ text m', exec (.read file) m text m' ↔ text = m.texts file ∧ m' = m :=
    fun _ _ => Iff.rfl
  refine ends_tryCatch.mpr (ends_bind.mpr ((ends_perform hopen).mpr ?_))
  refine ends_bind.mpr (ends_ofExcept.mpr (ends_bind.mpr ((ends_perform hread).mpr ?_)))
  dsimp only
  rw [htext, int_natText]
  exact ⟨rfl, rfl⟩

theorem exec_pathExists (found : Bool) (m' : Machine) :
    exec .pathExists m found m' ↔ found = m.pidfile.isSome ∧ m' = m := Iff.rfl

theorem exec_write (file : Nat) (text : Bytes) (m : Machine) (u : Unit) (m' : Machine) :
    exec (.write file text) m u m' ↔ u = () ∧ m' = m.written file text :=
  (and_iff_right (Subsingleton.elim _ _)).symm

theorem exec_print (text : Bytes) (m : Machine) (u : Unit) (m' : Machine) :
    exec (.print text) m u m' ↔ u = () ∧ m' = m := (and_iff_right (Subsingleton.elim _ _)).symm

/-- Both commands test for the pidfile and then read it. -/
theorem found_ends (h : Records m pid) {f : Int → Sm Unit} {rest : Sm Unit}
    {Q : Except Error Unit → Machine → Prop} (hf : (f pid.val).Ends exec m Q) :
    Script.Ends exec (do
      if ← SmCtl.perform .pathExists then readpid >>= f else rest) m Q := by
  obtain ⟨file, hfile, -⟩ := id h
  refine ends_bind.mpr ((ends_perform exec_pathExists).mpr ?_)
  rw [hfile, Option.isSome_some]
  refine ends_bind.mpr ((readpid_records h).mono ?_)
  rintro _ _ ⟨rfl, rfl⟩
  exact hf

/-! ## start -/

/-- `start` refuses while a pid is recorded, whoever it belongs to. -/
theorem start_refuses (h : Records m pid) :
    (SmCtl.start which).Ends exec m fun r m' =>
      r = .error (.runtimeError (alreadyRunning which pid.val)) ∧ m' = m :=
  found_ends h ⟨rfl, rfl⟩

/-- `open` leaves an empty pidfile, and that is the file it answers. -/
theorem opened_file (m : Machine) : m.opened.pidfile = some (m.pidfile.getD m.files)
    ∧ m.opened.texts (m.pidfile.getD m.files) = [] ∧ m.opened.daemons = m.daemons := by
  unfold Machine.opened
  split
  · rename_i file hfile
    rw [hfile, Option.getD_some]
    exact ⟨rfl, Function.update_self .., rfl⟩
  · rename_i hfile
    rw [hfile, Option.getD_none]
    exact ⟨rfl, Function.update_self .., rfl⟩

theorem records_written {file : Nat} (hfile : m.pidfile = some file) (hempty : m.texts file = []) :
    Records (m.written file (Decimal.natText pid.val)) pid := by
  refine ⟨file, hfile, ?_⟩
  rw [Machine.written, hempty, List.drop_nil, List.append_nil]
  exact Function.update_self ..

/-- What the parent leaves behind: a pidfile with the pid it was given. -/
theorem record_ends (m : Machine) :
    (record which pid).Ends exec m fun r m' =>
      r = .ok () ∧ Records m' pid ∧ m'.daemons = m.daemons := by
  obtain ⟨hfile, hempty, hdaemons⟩ := opened_file m
  refine ends_bind.mpr ((ends_perform fun _ _ => Iff.rfl).mpr ?_)
  refine ends_bind.mpr ((ends_perform (exec_write _ _ _)).mpr ?_)
  exact (ends_perform (exec_print _ _)).mpr ⟨rfl, records_written hfile hempty, hdaemons⟩

/-- Some pid is free. -/
theorem exists_not_alive (m : Machine) : ∃ pid : Pid, ∀ d ∈ m.daemons, d.pid ≠ pid := by
  obtain ⟨n, hn⟩ := Infinite.exists_notMem_finset
    (insert 0 (m.daemons.map fun d => d.pid.val).toFinset)
  rw [Finset.mem_insert, not_or, List.mem_toFinset, List.mem_map] at hn
  refine ⟨⟨n, Nat.pos_of_ne_zero hn.1⟩, fun d hd heq => hn.2 ⟨d, hd, ?_⟩⟩
  rw [heq]

/-- **Without a pidfile `start` launches a daemon and records it.** -/
theorem start_launches (h : m.pidfile = none) :
    (SmCtl.start which).Ends exec m fun r m' =>
      r = .ok () ∧ ∃ pid, ¬ Alive m pid ∧ Records m' pid
        ∧ m'.daemons = m.daemons ++ [⟨pid, false⟩] := by
  refine ends_bind.mpr ((ends_perform exec_pathExists).mpr ?_)
  rw [h, Option.isSome_none]
  refine ends_bind.mpr ⟨?_, ?_⟩
  · obtain ⟨pid, hpid⟩ := exists_not_alive m
    exact ⟨pid, _, hpid, rfl⟩
  · rintro pid _ ⟨hpid, rfl⟩
    refine (record_ends (m.launched pid)).mono ?_
    rintro _ m' ⟨rfl, hrec, hdaemons⟩
    exact ⟨rfl, pid, fun ⟨d, hd, heq⟩ => hpid d hd heq, hrec, hdaemons⟩

/-! ## stop -/

/-- Without a pidfile `stop` raises and leaves everything as it is. -/
theorem stop_refuses (h : m.pidfile = none) :
    (stop which).Ends exec m fun r m' => (∃ e, r = .error e) ∧ m' = m := by
  refine ends_bind.mpr ((ends_perform exec_pathExists).mpr ?_)
  rw [h, Option.isSome_none]
  exact ⟨⟨_, rfl⟩, rfl⟩

theorem pid_ne_neg_one (pid : Pid) : (pid.val : Int) ≠ -1 := by
  omega

/-- With a pid recorded `stop` comes to its signal. -/
theorem stop_ends (h : Records m pid) {Q : Except Error Unit → Machine → Prop}
    (hrest : Script.Ends exec (do
      ofExcept (← SmCtl.perform (.kill pid.val))
      SmCtl.perform (.print (bytes "shutting down " ++ which.name ++ bytes " (pid "
        ++ Decimal.intText pid.val ++ bytes ")"))
      ofExcept (← SmCtl.perform .unlink)) m Q) : (stop which).Ends exec m Q := by
  refine found_ends h ?_
  rw [if_neg (pid_ne_neg_one pid)]
  exact hrest

/-- **A live daemon is signalled and its pidfile removed**, before it is gone. -/
theorem stop_signals (h : Records m pid) (hlive : Alive m pid) :
    (stop which).Ends exec m fun r m' =>
      r = .ok () ∧ m' = { m.interrupt fun p => (p.val : Int) = pid.val with pidfile := none } := by
  obtain ⟨file, hfile, -⟩ := id h
  have hkill : ∀ r m', exec (.kill pid.val) m r m' ↔
      r = .ok () ∧ m' = m.interrupt fun p => (p.val : Int) = pid.val := by
    intro r m'
    obtain ⟨d, hd, heq⟩ := hlive
    rw [exec, if_pos (by exact_mod_cast pid.2), if_pos ⟨d, hd, by rw [heq]⟩]
  have hunlink : ∀ r m', exec .unlink (m.interrupt fun p => (p.val : Int) = pid.val) r m' ↔
      r = .ok () ∧ m' = { m.interrupt fun p => (p.val : Int) = pid.val with pidfile := none } := by
    intro r m'
    rw [exec, Machine.interrupt, hfile, Option.isSome_some, if_pos rfl]
  refine stop_ends h (ends_bind.mpr ((ends_perform hkill).mpr ?_))
  refine ends_bind.mpr (ends_ofExcept.mpr (ends_bind.mpr ((ends_perform (exec_print _ _)).mpr ?_)))
  exact ends_bind.mpr ((ends_perform hunlink).mpr (ends_ofExcept.mpr ⟨rfl, rfl⟩))

/-- **A dead daemon's pidfile stays**: the signal raises before the file is removed. -/
theorem stop_raises (h : Records m pid) (hdead : ¬ Alive m pid) :
    (stop which).Ends exec m fun r m' => r = .error (.osError esrch) ∧ m' = m := by
  have hkill : ∀ r m', exec (.kill pid.val) m r m' ↔ r = .error (.osError esrch) ∧ m' = m := by
    intro r m'
    rw [exec, if_pos (by exact_mod_cast pid.2), if_neg]
    rintro ⟨d, hd, heq⟩
    exact hdead ⟨d, hd, Subtype.ext (by exact_mod_cast heq)⟩
  refine stop_ends h (ends_bind.mpr ((ends_perform hkill).mpr ?_))
  exact ends_bind.mpr (ends_ofExcept.mpr ⟨rfl, rfl⟩)

/-! ## What a command may do next -/

/-- It has passed its test. -/
def atFork : Sm Unit → Bool
  | .call .fork _ => true
  | _ => false

/-- The calls that launch nothing and write nothing. -/
def Passive : Op → Prop
  | .fork => False
  | .openWrite => False
  | .write _ _ => False
  | _ => True

theorem int_eq (text : Bytes) : (∃ n, int text = .pure n) ∨ int text = .throw .valueError := by
  unfold int
  cases pyInt text with
  | some n => exact Or.inl ⟨n, rfl⟩
  | none => exact Or.inr rfl

section Along

variable {R : (op : Op) → op.Answer → Sm Unit → Prop}
  (hR : ∀ op a p, Passive op → atFork p = false → R op a p)

include hR

/-- However `readpid` ends, no fork comes of it that does not come of what follows. -/
theorem along_readpid {f : Int → Sm Unit} (hf : ∀ n, atFork (f n) = false ∧ (f n).Along R) :
    (readpid >>= f).Along R := by
  intro r
  cases r with
  | error e =>
      cases e with
      | osError errno => exact ⟨hR _ _ _ trivial (hf (-1)).1, (hf (-1)).2⟩
      | runtimeError text => exact ⟨hR _ _ _ trivial rfl, trivial⟩
      | ioError errno => exact ⟨hR _ _ _ trivial rfl, trivial⟩
      | valueError => exact ⟨hR _ _ _ trivial rfl, trivial⟩
  | ok file =>
      refine ⟨hR _ _ _ trivial rfl, fun text => ?_⟩
      change R _ text (((int text).tryCatch _).bind f) ∧ (((int text).tryCatch _).bind f).Along _
      rcases int_eq text with ⟨n, h⟩ | h
      · rw [h]
        exact ⟨hR _ _ _ trivial (hf n).1, (hf n).2⟩
      · rw [h]
        exact ⟨hR _ _ _ trivial rfl, trivial⟩

theorem along_refusal : (readpid >>= fun pid =>
    (.throw (.runtimeError (alreadyRunning which pid)) : Sm Unit)).Along R :=
  along_readpid hR fun _ => ⟨rfl, trivial⟩

theorem along_stop : (stop which).Along R := by
  intro found
  cases found with
  | false => exact ⟨hR _ _ _ trivial rfl, trivial⟩
  | true =>
      refine ⟨hR _ _ _ trivial rfl, along_readpid hR fun n => ?_⟩
      by_cases hn : n = -1
      · rw [if_pos hn]
        exact ⟨rfl, trivial⟩
      · rw [if_neg hn]
        refine ⟨rfl, fun r => ?_⟩
        cases r with
        | error e => exact ⟨hR _ _ _ trivial rfl, trivial⟩
        | ok u =>
            refine ⟨hR _ _ _ trivial rfl, fun _ => ⟨hR _ _ _ trivial rfl, fun r => ?_⟩⟩
            cases r with
            | error e => exact ⟨hR _ _ _ trivial rfl, trivial⟩
            | ok u => exact ⟨hR _ _ _ trivial rfl, trivial⟩

end Along

end CloudMon.Proof
