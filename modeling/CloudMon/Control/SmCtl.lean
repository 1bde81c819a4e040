import CloudMon.Collector.Stdin
import CloudMon.Lib.Script

/-!
# Starting and stopping a program

`sm_ctl` keeps the pid of what it launched in a file, one for each program. `start`
refuses while that file exists, `stop` signals the pid in it and removes it; nobody
else touches it.

All of this is about one program, so the calls do not name the file. They are the
system calls of the script: between two of them another `sm_ctl` may run, and a daemon
may exit. A daemon that has been sent SIGINT is still a live process until it does. The
directory of the file is taken to be there and writable, `fork` to succeed, and a pid
that belongs to no daemon launched here to belong to no process.
-/

namespace CloudMon.SmCtl

inductive Program where
  | monitor
  | collector
deriving DecidableEq

def Program.name : Program → Bytes
  | .monitor => bytes "monitor"
  | .collector => bytes "collector"

/-- Python's exceptions, as far as `sm_ctl` can raise them. -/
inductive Error where
  | runtimeError (text : Bytes)
  | ioError (errno : Nat)
  | osError (errno : Nat)
  | valueError
deriving DecidableEq

def enoent : Nat := 2

def esrch : Nat := 3

/-- What `fork` returns to the parent. -/
abbrev Pid := { n : Nat // 0 < n }

/-! ## The machine -/

/-- A live process that `start` launched. -/
structure Daemon where
  pid : Pid
  /-- It has been sent SIGINT. -/
  interrupted : Bool
deriving DecidableEq

structure Machine where
  /-- The file the pidfile's name stands for, if it exists. -/
  pidfile : Option Nat
  /-- What the files hold that had this name; one of them may be open without it. -/
  texts : Nat → Bytes
  /-- How many there have been. -/
  files : Nat
  daemons : List Daemon

namespace Machine

/-- Nothing has been started yet. -/
def init : Machine where
  pidfile := none
  texts _ := []
  files := 0
  daemons := []

/-- `open(pidfile, 'w')`: an empty file, the one that was there or a new one. -/
def opened (m : Machine) : Machine :=
  match m.pidfile with
  | some file => { m with texts := Function.update m.texts file [] }
  | none =>
    { m with
      pidfile := some m.files
      texts := Function.update m.texts m.files []
      files := m.files + 1 }

/-- A text written to an open file, over what is there since it was opened. -/
def written (m : Machine) (file : Nat) (text : Bytes) : Machine :=
  { m with texts := Function.update m.texts file (text ++ (m.texts file).drop text.length) }

def launched (m : Machine) (pid : Pid) : Machine :=
  { m with daemons := m.daemons ++ [⟨pid, false⟩] }

/-- SIGINT to those daemons that `hit` names. -/
def interrupt (m : Machine) (hit : Pid → Bool) : Machine :=
  { m with daemons := m.daemons.map fun d =>
      { d with interrupted := d.interrupted || hit d.pid } }

end Machine

/-! ## The calls -/

inductive Op where
  /-- `os.path.exists` -/
  | pathExists
  /-- `open` for reading -/
  | openRead
  | read (file : Nat)
  /-- `open` for writing -/
  | openWrite
  | write (file : Nat) (text : Bytes)
  | fork
  | kill (pid : Int)
  | unlink
  | print (text : Bytes)

@[reducible] def Op.Answer : Op → Type
  | .pathExists => Bool
  | .openRead => Except Error Nat
  | .read _ => Bytes
  | .openWrite => Nat
  | .write _ _ => Unit
  | .fork => Pid
  | .kill _ => Except Error Unit
  | .unlink => Except Error Unit
  | .print _ => Unit

/-- What a call may answer. A pid that is not positive stands for a group of processes. -/
def exec : (op : Op) → Machine → op.Answer → Machine → Prop
  | .pathExists, m, found, m' => found = m.pidfile.isSome ∧ m' = m
  | .openRead, m, r, m' =>
    r = (match m.pidfile with
      | some file => .ok file
      | none => .error (.ioError enoent)) ∧ m' = m
  | .read file, m, text, m' => text = m.texts file ∧ m' = m
  | .openWrite, m, file, m' => file = m.pidfile.getD m.files ∧ m' = m.opened
  | .write file text, m, _, m' => m' = m.written file text
  | .fork, m, pid, m' => (∀ d ∈ m.daemons, d.pid ≠ pid) ∧ m' = m.launched pid
  | .kill pid, m, r, m' =>
    if 0 < pid then
      if ∃ d ∈ m.daemons, (d.pid.val : Int) = pid then
        r = .ok () ∧ m' = m.interrupt fun p => (p.val : Int) = pid
      else r = .error (.osError esrch) ∧ m' = m
    else ∃ hit, m' = m.interrupt hit
  | .unlink, m, r, m' =>
    r = (if m.pidfile.isSome then .ok () else .error (.osError enoent))
      ∧ m' = { m with pidfile := none }
  | .print _, m, _, m' => m' = m

/-- What happens without `sm_ctl`: a daemon exits, by itself or at last after a SIGINT. -/
inductive Exits : Machine → Machine → Prop where
  | exit {m : Machine} {ds ds' : List Daemon} {d : Daemon} : m.daemons = ds ++ d :: ds' →
      Exits m { m with daemons := ds ++ ds' }

/-! ## The script -/

/-- A piece of the script. -/
abbrev Sm := Script Op Op.Answer Error

def perform (op : Op) : Sm op.Answer := Script.perform op

/-- `int(s)`, `none` where it raises. -/
def pyInt (s : Bytes) : Option Int := Decimal.parseExponent (strip s)

def int (s : Bytes) : Sm Int :=
  match pyInt s with
  | some n => pure n
  | none => throw .valueError

/-- `readpid`. Opening a file that is not there raises an `IOError`, which is no `OSError`. -/
def readpid : Sm Int :=
  tryCatch
    (do
      let f ← ofExcept (← perform .openRead)
      int (← perform (.read f)))
    fun
      | .osError _ => pure (-1)
      | e => throw e

/-- The refusal of `start`. -/
def alreadyRunning (which : Program) (pid : Int) : Bytes :=
  which.name ++ bytes " appears to be already running (pid " ++ Decimal.intText pid
    ++ bytes ") -- use 'stop' first"

/-- What `start` does in the parent. The child is the daemon from here on. -/
def record (which : Program) (pid : Pid) : Sm Unit := do
  let f ← perform .openWrite
  perform (.write f (Decimal.natText pid))
  perform (.print (bytes "started " ++ which.name ++ bytes " [pid " ++ Decimal.natText pid
    ++ bytes "]"))

/-- `start` after its test. -/
def launch (which : Program) : Sm Unit := do
  let pid ← perform .fork
  record which pid

def start (which : Program) : Sm Unit := do
  if ← perform .pathExists then
    let pid ← readpid
    throw (.runtimeError (alreadyRunning which pid))
  else
    launch which

def stop (which : Program) : Sm Unit := do
  if ← perform .pathExists then
    let pid ← readpid
    if pid = -1 then
      throw (.runtimeError (bytes "error: can't find collector pid (try 'pkill'?)"))
    else
      ofExcept (← perform (.kill pid))
      perform (.print (bytes "shutting down " ++ which.name ++ bytes " (pid "
        ++ Decimal.intText pid ++ bytes ")"))
      ofExcept (← perform .unlink)
  else
    throw (.runtimeError (which.name ++ bytes " does not appear to be running (try 'pkill'?)"))

/-- The invocations of `sm_ctl` for one program, beside one another and beside its daemons. -/
def rules (which : Program) : Crowd.Rules Op Op.Answer Error Unit Machine where
  exec := exec
  starts p := p = start which ∨ p = stop which
  drift := Exits

end CloudMon.SmCtl
