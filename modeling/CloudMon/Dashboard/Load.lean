import CloudMon.Collector.Format
import CloudMon.Dashboard.Tables

/-!
# The load averages

One more column of the table, and the only one that computes: the mean of an instance's
CPU values over the last minute, five minutes and a quarter of an hour. What is outside
0 to 110 is left out of a mean, and so is what is not there. A NaN is neither below the one
nor above the other.

Between the three means the clock goes on and the file may change, so each has its own
`time.time()` and its own `whisper.fetch`.
-/

namespace CloudMon

namespace Double

/-- `d < q` -/
def below (d : Double) (q : ℚ) : Bool :=
  match d with
  | .fin p => p < q
  | .negZero => 0 < q
  | .inf neg => neg
  | .nan _ => false

/-- `d > q` -/
def above (d : Double) (q : ℚ) : Bool :=
  match d with
  | .fin p => q < p
  | .negZero => q < 0
  | .inf neg => !neg
  | .nan _ => false

/-- IEEE addition, of exact numbers. -/
def add : Double → Double → Double
  | .nan neg, _ => .nan neg
  | _, .nan neg => .nan neg
  | .inf neg, .inf neg' => if neg = neg' then .inf neg else .nan true
  | .inf neg, _ => .inf neg
  | _, .inf neg => .inf neg
  | .negZero, d => d
  | d, .negZero => d
  | .fin p, .fin q => .fin (p + q)

end Double

/-- `_in_range`, which lets no `None` pass. -/
def inRange (dp : Option Double) (low hi : ℚ) : Bool :=
  match dp with
  | none => false
  | some dp => if dp.below low || dp.above hi then false else true

/-- `average`, with the default bounds of `_in_range`. -/
def average (dataPoints : List (Option Double)) : Double :=
  let l := dataPoints.filterMap fun p => if inRange p 0 110 then p else none
  if l = [] then .fin 0
  else (l.foldl Double.add (.fin 0)).div (.fin l.length)

/-- Python's `%f`, which gives no sign to a NaN. -/
def pyFormatF : Double → Bytes
  | .nan _ => bytes "nan"
  | d => formatF d

/-- `fetch` and `now` are `whisper.fetch` and `time.time()`, in the turn for each duration. -/
def getVcpuLoadAvgs (whisperDbsPrefix : Bytes) (disk : Disk) (fetch : ℕ → Fetch) (now : ℕ → ℚ)
    (instanceId : Bytes) : Except PyError Bytes := do
  let instanceFiles ← getWhisperFilesByInstanceId instanceId (getWhisperFiles whisperDbsPrefix disk)
  match ← getWhisperFilesByMetric (bytes "cpu") instanceFiles with
  | [] => return bytes "N/A"
  | f :: _ =>
    let avgs := [1, 5, 15].map fun duration : ℕ =>
      let (_, data) := fetch duration f (now duration - 60 * duration)
      average data
    return (bytes " | ").intercalate (avgs.map pyFormatF)

end CloudMon
