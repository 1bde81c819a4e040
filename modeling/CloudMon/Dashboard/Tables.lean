import CloudMon.Dashboard.Files

/-!
# tables.py

A cell of the dashboards' table is the newest value of one of an instance's files. The
files are found by name, the first one found is asked for its values over a stretch of
time, and the values are looked through from the back.
-/

namespace CloudMon

/-- What a column's function returns. -/
inductive Cell where
  /-- `"N/A"` -/
  | na
  | number (v : Double)
deriving DecidableEq

/-- `val * 100` -/
def Double.timesHundred : Double → Double
  | .fin q => .fin (q * 100)
  | d => d

/-- `(start, end, step)`, the first half of what `whisper.fetch` returns. -/
abbrev TimeInfo := ℤ × ℤ × ℤ

/-- `whisper.fetch(path, fromTime)` -/
abbrev Fetch := Bytes → ℚ → TimeInfo × List (Option Double)

/-- The two functions that show one metric, `now` being `time.time()`. -/
def utilizationSnapshot (metric whisperDbsPrefix : Bytes) (disk : Disk) (fetch : Fetch) (now : ℚ)
    (instanceId : Bytes) (back : ℚ) : Except PyError Cell := do
  let instanceFiles ← getWhisperFilesByInstanceId instanceId (getWhisperFiles whisperDbsPrefix disk)
  match ← getWhisperFilesByMetric metric instanceFiles with
  | [] => return .na
  | file :: _ =>
    let (_, data) := fetch file (now - back)
    -- the most recent data point that is not `None`
    match data.reverse.findSome? id with
    | some val => return .number val.timesHundred
    | none => return .na

def getCpuUtilizationSnapshot (whisperDbsPrefix : Bytes) (disk : Disk) (fetch : Fetch) (now : ℚ)
    (instanceId : Bytes) (back : ℚ) : Except PyError Cell :=
  utilizationSnapshot (bytes "cpu") whisperDbsPrefix disk fetch now instanceId back

def getMemUtilizationSnapshot (whisperDbsPrefix : Bytes) (disk : Disk) (fetch : Fetch) (now : ℚ)
    (instanceId : Bytes) (back : ℚ) : Except PyError Cell :=
  utilizationSnapshot (bytes "mem") whisperDbsPrefix disk fetch now instanceId back

theorem Double.timesHundred_injective {v v' : Double} (h : v.timesHundred = v'.timesHundred) :
    v = v' := by
  cases v <;> cases v' <;> simp_all [Double.timesHundred]

end CloudMon
