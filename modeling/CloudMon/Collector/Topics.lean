import CloudMon.Collector.Updater
import CloudMon.Lib.Directories
import CloudMon.Lib.Paths

/-!
# Directories for a topic

`common.cc` can make the directories that a key's path names, one for each dot, from
the top downwards. Every path it makes ends in a slash, and what it prints to either
stream comes in the order in which it prints it.

`stat` and `mkdir` are those of a file system nobody else changes: `mkdir` fails where
the directory above is none, and where the name exists.
-/

namespace CloudMon

open Directories

/-! ## Paths -/

def pubsubTopicToPath (key : Bytes) : Bytes := Words.replace 46 47 key

/-- One turn of the loop over a key's characters. -/
def addCharacter (st : List Bytes × Bytes) (b : UInt8) : List Bytes × Bytes :=
  let (out, cur) := st
  if b = 46 then (out ++ [cur ++ [47]], cur ++ [47]) else (out, cur ++ [b])

def pubsubTopicToPathComponents (key : Bytes) : List Bytes := (key.foldl addCharacter ([], [])).1

/-! ## System calls -/

def component (c : Bytes) : Comp Bytes :=
  if c = [46] then .here else if c = [46, 46] then .up else .name c

/-- A path as the system calls read it. -/
def readPath (p : Bytes) : Path Bytes where
  absolute := p.head? = some 47
  comps := (Paths.components 47 p).map component

/-- `stat(path, &sb) == 0 && S_ISDIR(sb.st_mode)`. The empty path leads nowhere. -/
def isDirectory (fs : FileSystem Bytes) (p : Bytes) : Bool :=
  p ≠ [] && (fs.resolve (readPath p)).isSome

/-- `mkdir(path, 0755)` -/
def mkdir (fs : FileSystem Bytes) (p : Bytes) : Option (FileSystem Bytes) :=
  if p = [] then none else fs.mkdir (readPath p)

/-! ## Creating directories -/

inductive Output where
  | cout (text : Bytes)
  /-- `perror` with this prefix. -/
  | perror (what : Bytes)
deriving DecidableEq

structure Shell where
  fs : FileSystem Bytes
  printed : List Output

/-- `std::runtime_error` -/
structure RuntimeError where
  what : Bytes
deriving DecidableEq

abbrev ShellM := EStateM RuntimeError Shell

def say (o : Output) : ShellM PUnit := modify fun s => { s with printed := s.printed ++ [o] }

/-- One turn of the loop over the paths. -/
def createDirectory (p : Bytes) : ShellM PUnit := do
  let path := cString p
  say (.cout (bytes "create directory: " ++ path ++ [10]))
  let fs := (← get).fs
  if isDirectory fs path then
    pure ⟨⟩
  else
    match mkdir fs path with
    | some fs' => modify fun s => { s with fs := fs' }
    | none =>
      say (.perror (bytes "mkdir"))
      throw ⟨bytes "unable to create directory: " ++ p⟩

def createDirectoriesFromPubsubKey (key : Bytes) : ShellM PUnit :=
  (pubsubTopicToPathComponents key).forM createDirectory

end CloudMon
