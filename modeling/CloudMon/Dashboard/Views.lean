import CloudMon.Dashboard.Files
import Mathlib.Data.Finset.Dedup

/-!
# views.py

What a view knows of an instance is a list of whisper's files. The metrics it can show
are read off the names of the files; to show one, it looks for the metric's text in
the paths of the files, and reads the first file that has it.
-/

namespace CloudMon

/-- `os.path.basename(p)` -/
def osPathBasename (p : Bytes) : Bytes := (p.reverse.takeWhile (· != 47)).reverse

theorem osPathBasename_append {dir name : Bytes} (h : (47 : UInt8) ∉ name) :
    osPathBasename (dir ++ 47 :: name) = name := by
  have hname : ∀ b ∈ name.reverse, (b != 47) = true := by
    intro b hb
    rw [bne_iff_ne]
    exact fun hb47 => h (hb47 ▸ List.mem_reverse.mp hb)
  rw [osPathBasename, List.reverse_append, List.reverse_cons, List.append_assoc,
    List.takeWhile_append_of_pos hname, List.singleton_append,
    List.takeWhile_cons_of_neg (by decide), List.append_nil, List.reverse_reverse]

/-- One set of `.wsp` files, there being several of them for different metrics. -/
structure MonitoredDomain where
  files : List Bytes

namespace MonitoredDomain

variable {ρ : Type}

def getMetricNames (dom : MonitoredDomain) : Finset Bytes :=
  (dom.files.map fun f => Words.replaceAll (bytes ".wsp") [] (osPathBasename f)).toFinset

def mapMetricToFiles (dom : MonitoredDomain) (metric : Bytes) : List Bytes :=
  dom.files.filter fun f => metric <:+: f

/-- `fetch` is `whisper.fetch`, whatever it returns or raises. -/
def extractData (fetch : Bytes → ℚ → Option ℚ → ρ) (dom : MonitoredDomain) (metric : Bytes)
    (start : ℚ) (endTime : Option ℚ) : Option ρ :=
  match dom.mapMetricToFiles metric with
  | [] => none
  | f :: _ => some (fetch f start endTime)

end MonitoredDomain

end CloudMon
