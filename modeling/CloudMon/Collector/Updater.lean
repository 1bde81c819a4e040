import CloudMon.Basic
import CloudMon.Lib.Decimal
import CloudMon.Lib.Words
import CloudMon.Lib.Wp

/-!
# whisper_updater.py

The Python program at the end of the pipeline. It reads text lines and turns each
into a call of `whisper.update` on a file whose path is made from the line's key.

The strings are Python 2's, so byte strings. The file system and the whisper
package are a table of calls over a world `φ`, as libvirt is for the monitor; what
the program does to them, and what it prints, is its trail of effects.
-/

namespace CloudMon

/-- The exceptions that can leave the updater. -/
inductive PyError where
  | indexError
  /-- A file name with a NUL in it. -/
  | typeError
  | valueError
  | osError (errno : Nat)
  /-- Whatever the whisper package raises. -/
  | whisperException
deriving DecidableEq

/-! ## Python's own operations -/

/-- The white space `str.split` cuts at. -/
def isSpace (b : UInt8) : Bool := b == 32 || (9 ≤ b && b ≤ 13)

/-- `s.split()`. Irreducible, so that nothing tries to compute it on a line that is not known. -/
@[irreducible] def split (s : Bytes) : List Bytes := Words.words isSpace s

/-- `os.path.join(a, b)` -/
def osPathJoin (a b : Bytes) : Bytes :=
  if b.head? = some 47 then b
  else if a = [] ∨ a.getLast? = some 47 then a ++ b
  else a ++ 47 :: b

/-- `os.path.dirname(p)` -/
def osPathDirname (p : Bytes) : Bytes :=
  -- up to and with the last slash
  let head := (p.reverse.dropWhile (· != 47)).reverse
  if head.all (· == 47) then head else (head.reverse.dropWhile (· == 47)).reverse

def lower (b : UInt8) : UInt8 := if 65 ≤ b && b ≤ 90 then b + 32 else b

/-- The texts of `float` that are not numbers. -/
def floatSpecial (s : Bytes) : Option Double :=
  let (neg, r) := match s with
    | 45 :: r => (true, r)
    | 43 :: r => (false, r)
    | r => (false, r)
  let r := r.map lower
  if r = bytes "inf" ∨ r = bytes "infinity" then some (.inf neg)
  else if r = bytes "nan" then some (.nan neg)
  else none

/-- A number as a double; zero keeps its sign. -/
def Double.ofRat (neg : Bool) (q : ℚ) : Double := if q = 0 then .zero neg else .fin q

/--
`float(s)` for a text without white space at its ends, `none` where it raises. The
number is taken as exact.
-/
def pyFloat (s : Bytes) : Option Double :=
  match floatSpecial s with
  | some d => some d
  | none => (Decimal.parse s).map (Double.ofRat (s.head? = some 45))

/-! ## The calls that leave the program -/

structure WhisperUpdate where
  path : Bytes
  value : Double
  timestamp : Double
deriving DecidableEq

inductive Effect where
  | printed (text : Bytes)
  | whisperCreate (path : Bytes) (archiveList : List (Nat × Nat))
  | whisperUpdate (u : WhisperUpdate)
deriving DecidableEq

/-- The file system and the whisper package. -/
structure Storage (φ : Type) where
  /-- `os.path.exists` -/
  pathExists : Bytes → φ → Bool × φ
  /-- `os.makedirs`: the `errno` of the `OSError` it raises, if it does. -/
  makedirs : Bytes → φ → Option Nat × φ
  /-- `whisper.create`: whether it returns. -/
  create : Bytes → List (Nat × Nat) → φ → Bool × φ
  /-- `whisper.update`: whether it returns. -/
  update : WhisperUpdate → φ → Bool × φ

/-- The world the updater runs in, and what it has done so far. -/
structure Session (φ : Type) where
  world : φ
  effects : List Effect

variable {φ : Type}

/-- The calls of `whisper.update`, in order. -/
def Session.updates (s : Session φ) : List WhisperUpdate :=
  s.effects.filterMap fun
    | .whisperUpdate u => some u
    | _ => none

/-- The lines printed, in order. -/
def Session.printed (s : Session φ) : List Bytes :=
  s.effects.filterMap fun
    | .printed text => some text
    | _ => none

abbrev PyM (φ : Type) := EStateM PyError (Session φ)

/-- A call out of the program. -/
def call {α : Type} (f : φ → α × φ) : PyM φ α := fun s =>
  .ok (f s.world).1 { s with world := (f s.world).2 }

def emit (e : Effect) : PyM φ PUnit := modify fun s => { s with effects := s.effects ++ [e] }

/-- A call into the whisper package, which may raise. -/
def whisperCall (f : φ → Bool × φ) : PyM φ PUnit := do
  if !(← call f) then throw .whisperException

/-- `os.path.exists(p)`. The call under it refuses a NUL with an exception nobody catches. -/
def osPathExists (st : Storage φ) (p : Bytes) : PyM φ Bool :=
  if 0 ∈ p then throw .typeError else call (st.pathExists p)

/-- `xs[i]` -/
def item (xs : List Bytes) (i : Nat) : PyM φ Bytes :=
  match xs[i]? with
  | some x => pure x
  | none => throw .indexError

/-- `float(s)` -/
def float (s : Bytes) : PyM φ Double :=
  match pyFloat s with
  | some d => pure d
  | none => throw .valueError

/-! ## The program -/

def metricSecPerPoint : Nat := 1

def metricPointsToStore : Nat := 60 * 15

/-- `EEXIST` -/
def eexist : Nat := 17

def mkdirs (st : Storage φ) (path : Bytes) : PyM φ PUnit := do
  match ← call (st.makedirs path) with
  | none => pure ⟨⟩
  | some errno => if errno ≠ eexist then throw (.osError errno)

/-- An updater. `main` has made its directory, which no name with a NUL survives. -/
structure Updater where
  root : Bytes
  noNul : (0 : UInt8) ∉ root

namespace Updater

def terminateInstance (whichInstance : Bytes) : PyM φ PUnit :=
  emit (.printed (bytes "instance terminated: " ++ whichInstance))

/-- The branch of `update` for a metric without a file. -/
def createDatabase (st : Storage φ) (metric : Bytes) : PyM φ PUnit := do
  let archives := [(metricSecPerPoint, metricPointsToStore)]
  mkdirs st (osPathDirname metric)
  emit (.whisperCreate metric archives)
  whisperCall (st.create metric archives)

def update (u : Updater) (st : Storage φ) (metric dataline : Bytes) : PyM φ PUnit := do
  let data := split dataline
  let metric := osPathJoin u.root metric ++ bytes ".wsp"
  if !(← osPathExists st metric) then
    createDatabase st metric
  let value ← float (← item data 0)
  let timestamp ← float (← item data 1)
  emit (.whisperUpdate ⟨metric, value, timestamp⟩)
  whisperCall (st.update ⟨metric, value, timestamp⟩)

def processCmd (u : Updater) (st : Storage φ) (line : Bytes) : PyM φ PUnit := do
  let toks := split line
  let key ← item toks 0
  let rest := [32].intercalate (toks.drop 1)
  if !(bytes "monitor").isPrefixOf key then
    pure ⟨⟩
  else if key = bytes "monitor.term_instance" then
    terminateInstance rest
  else if (bytes "monitor.servers.").isPrefixOf key then
    let path := [47].intercalate ((key.splitOn 46).drop 1)
    update u st path rest

/-- Line after line, until an exception ends the program. -/
def processCmds (u : Updater) (st : Storage φ) (lines : List Bytes) : PyM φ PUnit :=
  lines.forM (processCmd u st)

end Updater

end CloudMon
