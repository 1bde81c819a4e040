import CloudMon.Collector.Updater
import CloudMon.Lib.FileTree

/-!
# utils.py

How the dashboards find whisper's files. One function walks a directory and collects
them, three narrow a list of files down by one component of their paths each, and a
fourth does all of it in one walk, with filters that may be left out.

A filter is a text to be found somewhere in its component.
-/

namespace CloudMon

/-- What `os.listdir` and `os.path.isfile` show of a directory. -/
abbrev Disk := FileTree Bytes

/-- The calls `os.path.walk` makes: a directory, and what it lists. -/
def osPathWalk (top : Bytes) (disk : Disk) : List (Bytes × List (Bytes × Disk)) :=
  disk.walk osPathJoin top

/-- The files of one directory whose paths end in `.wsp`. -/
def whisperFilesIn (dirname : Bytes) (fnames : List (Bytes × Disk)) : List Bytes :=
  fnames.filterMap fun f =>
    let whisperFile := osPathJoin dirname f.1
    if f.2.isFile && (bytes ".wsp").isSuffixOf whisperFile then some whisperFile else none

def getWhisperFiles (topdir : Bytes) (disk : Disk) : List Bytes :=
  (osPathWalk topdir disk).flatMap fun d => whisperFilesIn d.1 d.2

/-- `path.split('/')` -/
def pathParts (path : Bytes) : List Bytes := path.splitOn 47

/-- `path.split('/')[-back]` -/
def partFromEnd (back : Nat) (path : Bytes) : Except PyError Bytes :=
  match (pathParts path).reverse[back - 1]? with
  | some part => .ok part
  | none => .error .indexError

/-- The three functions that look at one component of every path. -/
def getWhisperFilesBy (back : Nat) (wanted : Bytes) (files : List Bytes) :
    Except PyError (List Bytes) :=
  files.filterM fun f => do
    let part ← partFromEnd back f
    return decide (wanted <:+: part)

def getWhisperFilesByNode (node : Bytes) : List Bytes → Except PyError (List Bytes) :=
  getWhisperFilesBy 3 node

def getWhisperFilesByInstanceId (instanceId : Bytes) : List Bytes → Except PyError (List Bytes) :=
  getWhisperFilesBy 2 instanceId

def getWhisperFilesByMetric (metric : Bytes) : List Bytes → Except PyError (List Bytes) :=
  getWhisperFilesBy 1 metric

/-- `match_filter` -/
def matchFilter (nfilt ifilt mfilt : Option Bytes) (path : Bytes) : Except PyError Bool :=
  if nfilt = none ∧ ifilt = none ∧ mfilt = none then
    .ok true
  else
    let matchNfilt := false
    -- it is the third flag that is set where there is no node filter
    let matchMfilt := nfilt.isNone
    let matchIfilt := ifilt.isNone
    let matchMfilt := matchMfilt || mfilt.isNone
    match (pathParts path).reverse.take 3 with
    | [fname, instanceId, node] =>
      let matchNfilt := matchNfilt || nfilt.any (· <:+: node)
      let matchIfilt := matchIfilt || ifilt.any (· <:+: instanceId)
      let matchMfilt := matchMfilt || mfilt.any (· <:+: fname)
      .ok (matchNfilt && matchIfilt && matchMfilt)
    -- too few values to unpack, which is no `IndexError`
    | _ => .error .valueError

/-- The same walk as in `get_whisper_files`, with `match_filter` asked of each file it finds. -/
def getWhisperFilesList (topdir : Bytes) (disk : Disk)
    (nodeFilter instanceFilter metricFilter : Option Bytes) : Except PyError (List Bytes) :=
  (getWhisperFiles topdir disk).filterM (matchFilter nodeFilter instanceFilter metricFilter)

/-! ## Filtering with a test that may raise -/

section

variable {ε α : Type} {p : α → Except ε Bool} {xs : List α}

/-- Where the test raises on nothing, it is a filter. -/
theorem filterM_eq_ok {q : α → Bool} (h : ∀ x ∈ xs, p x = .ok (q x)) :
    xs.filterM p = .ok (xs.filter q) := by
  have haux : ∀ acc, List.filterAuxM p xs acc = .ok ((xs.filter q).reverse ++ acc) := by
    induction xs with
    | nil => exact fun _ => rfl
    | cons x xs ih =>
        intro acc
        have hrest := ih fun y hy => h y (List.mem_cons_of_mem _ hy)
        rw [List.filterAuxM, h x (List.mem_cons_self ..)]
        show List.filterAuxM p xs (cond (q x) (x :: acc) acc) = _
        rw [hrest, List.filter_cons]
        cases q x <;> simp
  rw [List.filterM, haux]
  show Except.ok ((xs.filter q).reverse ++ []).reverse = _
  simp

/-- Where it raises on something, so does the loop. -/
theorem filterM_ne_ok {x : α} {e : ε} (hx : x ∈ xs) (he : p x = .error e) (out : List α) :
    xs.filterM p ≠ .ok out := by
  have haux : ∀ acc, ∃ e', List.filterAuxM p xs acc = .error e' := by
    induction xs with
    | nil => cases hx
    | cons y ys ih =>
        intro acc
        rw [List.filterAuxM]
        cases hy : p y with
        | error e' => exact ⟨e', rfl⟩
        | ok b =>
            rcases List.mem_cons.mp hx with rfl | hx
            · rw [he] at hy; cases hy
            · exact ih hx _
  obtain ⟨e', he'⟩ := haux []
  rw [List.filterM, he']
  exact nofun

end

end CloudMon
