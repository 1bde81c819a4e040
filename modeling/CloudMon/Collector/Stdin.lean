import CloudMon.Collector.Updater
import Mathlib.Data.List.DropRight

/-!
# The updater's main loop

`main` reads its standard input line by line and hands each line, stripped, to
`process_cmd`. What a line tells the updater to do is decided by its first word and
by nothing else, before anything outside is touched; that part of `process_cmd` is
`command` here, and `processCmd_eq` puts the two together again.
-/

namespace CloudMon

variable {φ : Type}

/-- `s.strip()` -/
def strip (s : Bytes) : Bytes := (s.dropWhile isSpace).rdropWhile isSpace

theorem split_strip (s : Bytes) : split (strip s) = split s := by
  rw [split, split, strip, Words.words_rdropWhile, Words.words_dropWhile]

/-- What `readline` returns, call after call, up to the empty string at the end of the input. -/
def inputLines : Bytes → List Bytes
  | [] => []
  | b :: rest =>
    if b = 10 then [b] :: inputLines rest
    else
      match inputLines rest with
      | [] => [[b]]
      | line :: lines => (b :: line) :: lines

/-- A newline ends a line, whatever comes before it and behind. -/
theorem inputLines_append (l rest : Bytes) :
    inputLines (l ++ 10 :: rest) = inputLines (l ++ [10]) ++ inputLines rest := by
  induction l with
  | nil => rfl
  | cons b l ih =>
      rw [List.cons_append, List.cons_append, inputLines, inputLines, ih]
      split
      · rfl
      · -- the line `b` is put in front of is the same one
        cases h : inputLines (l ++ [10]) with
        | nil =>
            exfalso
            revert h
            cases l with
            | nil => exact nofun
            | cons c l =>
                rw [List.cons_append, inputLines]
                split
                · exact nofun
                · split <;> exact nofun
        | cons line lines => rfl

theorem inputLines_of_not_mem {l : Bytes} (h : (10 : UInt8) ∉ l) :
    inputLines (l ++ [10]) = [l ++ [10]] := by
  induction l with
  | nil => rfl
  | cons b l ih =>
      rw [List.mem_cons, not_or] at h
      rw [List.cons_append, inputLines, if_neg (fun hb => h.1 hb.symm), ih h.2]

/-- Nothing is lost between the lines. -/
theorem inputLines_flatten (input : Bytes) : (inputLines input).flatten = input := by
  induction input with
  | nil => rfl
  | cons b rest ih =>
      rw [inputLines]
      split
      · rw [List.flatten_cons, ih]
        rfl
      · cases h : inputLines rest with
        | nil =>
            rw [h, List.flatten_nil] at ih
            rw [← ih]
            rfl
        | cons line lines =>
            rw [h, List.flatten_cons] at ih
            rw [← ih]
            rfl

/-- A text without newlines is put in front of the first line. -/
theorem inputLines_prepend {l input first : Bytes} {later : List Bytes} (h : (10 : UInt8) ∉ l)
    (hin : inputLines input = first :: later) :
    inputLines (l ++ input) = (l ++ first) :: later := by
  induction l with
  | nil => exact hin
  | cons b l ih =>
      rw [List.mem_cons, not_or] at h
      rw [List.cons_append, inputLines, if_neg (fun hb => h.1 hb.symm), ih h.2]
      rfl

/-- What the proxy writes into the pipe: each line with an end. -/
def piped (lines : List Bytes) : Bytes := lines.flatMap (· ++ [10])

theorem inputLines_piped (lines : List Bytes) :
    inputLines (piped lines) = lines.flatMap fun line => inputLines (line ++ [10]) := by
  induction lines with
  | nil => rfl
  | cons line lines ih =>
      have hcut := inputLines_append line (piped lines)
      rw [piped, List.flatMap_cons, List.flatMap_cons, List.append_assoc, List.singleton_append,
        ← ih]
      exact hcut

/-- What a line tells the updater to do. -/
inductive Command where
  | ignored
  | terminate (whichInstance : Bytes)
  | update (key rest : Bytes)
deriving DecidableEq

/-- `none` is the `IndexError` of a line without a word. -/
def command (line : Bytes) : Option Command :=
  match split line with
  | [] => none
  | key :: toks =>
    let rest := [32].intercalate toks
    if !(bytes "monitor").isPrefixOf key then
      some .ignored
    else if key = bytes "monitor.term_instance" then
      some (.terminate rest)
    else if (bytes "monitor.servers.").isPrefixOf key then
      some (.update key rest)
    else some .ignored

/-- The metric of a key: its dots become slashes, without what was before the first. -/
def metricOf (key : Bytes) : Bytes := [47].intercalate ((key.splitOn 46).drop 1)

/-- The first word decides, and the longer prefix is neither of the other two cases. -/
theorem command_eq_update {line key rest : Bytes} :
    command line = some (.update key rest) ↔ ∃ toks, split line = key :: toks
      ∧ rest = [32].intercalate toks ∧ (bytes "monitor.servers.").isPrefixOf key = true := by
  unfold command
  cases split line with
  | nil => exact iff_of_false nofun fun h => by simp at h
  | cons k toks =>
      simp only [List.cons.injEq]
      refine ⟨fun h => ?_, fun h => ?_⟩
      · split at h
        · exact nomatch h
        · split at h
          · exact nomatch h
          · split at h
            · rename_i hservers
              injection h with h
              injection h with hkey hrest
              exact ⟨toks, ⟨hkey, rfl⟩, hrest.symm, hkey ▸ hservers⟩
            · exact nomatch h
      · obtain ⟨toks', ⟨rfl, rfl⟩, rfl, hservers⟩ := h
        obtain ⟨t, rfl⟩ := List.isPrefixOf_iff_prefix.mp hservers
        have hmonitor : (bytes "monitor").isPrefixOf (bytes "monitor.servers." ++ t) = true := by
          rw [List.isPrefixOf_iff_prefix]
          exact ⟨bytes ".servers." ++ t, by rw [← List.append_assoc]; rfl⟩
        have hterm : bytes "monitor.servers." ++ t ≠ bytes "monitor.term_instance" := by
          intro heq
          rw [heq] at hservers
          exact absurd hservers (by decide)
        rw [hmonitor, if_neg (by decide), if_neg hterm, if_pos hservers]

/--
The commands in an input, without the lines that do nothing. A line without a word is left
out, too, although the loop ends there, with an `IndexError`, and what is behind it is lost.
-/
def commands (input : Bytes) : List Command :=
  (inputLines input).filterMap fun line => (command line).filter (· ≠ .ignored)

namespace Updater

/-- Doing it. -/
def obey (u : Updater) (st : Storage φ) : Option Command → PyM φ PUnit
  | none => throw .indexError
  | some .ignored => pure ⟨⟩
  | some (.terminate whichInstance) => terminateInstance whichInstance
  | some (.update key rest) => u.update st (metricOf key) rest

theorem processCmd_eq (u : Updater) (st : Storage φ) (line : Bytes) :
    u.processCmd st line = u.obey st (command line) := by
  unfold processCmd command
  cases split line with
  | nil => rfl
  | cons key toks =>
      simp only [item, List.getElem?_cons_zero, pure_bind, List.drop_succ_cons, List.drop_zero]
      -- the same three questions, asked in the same order
      split
      · rfl
      · split
        · rfl
        · split <;> rfl

/-- The loop of `main`. -/
def mainLoop (u : Updater) (st : Storage φ) (input : Bytes) : PyM φ PUnit :=
  (inputLines input).forM fun line => u.processCmd st (strip line)

/-- One updater on its input: the exception that ended it, if one did, and what it has done. -/
def session (u : Updater) (st : Storage φ) (w : φ) (input : Bytes) :
    Option PyError × Session φ :=
  match u.mainLoop st input ⟨w, []⟩ with
  | .ok _ sess => (none, sess)
  | .error err sess => (some err, sess)

end Updater

theorem command_strip (line : Bytes) : command (strip line) = command line := by
  rw [command, command, split_strip]

theorem command_concat_newline (line : Bytes) : command (line ++ [10]) = command line := by
  rw [command, command, split, split, Words.words_concat_space _ (by decide)]

theorem commands_piped (lines : List Bytes) :
    commands (piped lines) = lines.flatMap fun line => commands (line ++ [10]) := by
  rw [commands, inputLines_piped, List.filterMap_flatMap]
  rfl

/-- A line with no newline in it is at most one command. -/
theorem commands_line {line : Bytes} (h : (10 : UInt8) ∉ line) :
    commands (line ++ [10]) = ((command line).filter (· ≠ .ignored)).toList := by
  rw [commands, inputLines_of_not_mem h, List.filterMap_cons, command_concat_newline]
  cases (command line).filter (· ≠ .ignored) <;> rfl

end CloudMon
