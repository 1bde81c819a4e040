import CloudMon.Lib.Decimal
import CloudMon.Monitor.Publisher

/-!
# get_whisper_updates

One text line for each of four metrics of each domain, put together with two
`snprintf`s: the metric's key into a buffer of 512 bytes, and key, value and time
into one of 1024.
-/

namespace CloudMon

/-- `printf`'s `%f`. -/
def formatF : Double → Bytes
  | .fin q => Decimal.fixedText 6 q
  | .negZero => bytes "-0.000000"
  | .inf neg => if neg then bytes "-inf" else bytes "inf"
  | .nan neg => if neg then bytes "-nan" else bytes "nan"

/-- `printf`'s `%lld`. -/
def formatLld (v : Int64) : Bytes := Decimal.intText v.toInt

/-- The four metrics written for a domain. -/
inductive Metric where
  | cpu | mem | diskReadReq | diskWriteReq
deriving DecidableEq

namespace Metric

/-- The last component of the metric's key. -/
def name : Metric → Bytes
  | cpu => bytes "cpu"
  | mem => bytes "mem"
  | diskReadReq => bytes "disk_read_req"
  | diskWriteReq => bytes "disk_write_req"

/-- Its value, as the line has it. -/
def valueText : Metric → DomainStats → Bytes
  | cpu, dom => formatF dom.cpuUtilizationPct
  | mem, dom => formatF dom.memUtilizationPct
  | diskReadReq, dom => formatLld dom.diskReadReq
  | diskWriteReq, dom => formatLld dom.diskWriteReq

/-- In the order they are written. -/
def all : List Metric := [cpu, mem, diskReadReq, diskWriteReq]

end Metric

/-- `"monitor.servers.%s.%s.<metric>"`, before it is cut to the buffer. -/
def statKeyText (hostname uuid : Bytes) (metric : Metric) : Bytes :=
  bytes "monitor.servers." ++ cString hostname ++ bytes "." ++ cString uuid ++ bytes "."
    ++ metric.name

def statKey (hostname uuid : Bytes) (metric : Metric) : Bytes :=
  snprintf 512 (statKeyText hostname uuid metric)

/-- `"%s <value> %f"`, before it is cut to the buffer. -/
def whisperLineText (agg : AggregateDomainStats) (dom : DomainStats) (metric : Metric) : Bytes :=
  statKey agg.hostname dom.domainUuid metric ++ bytes " " ++ metric.valueText dom ++ bytes " "
    ++ formatF agg.tov

def whisperLine (agg : AggregateDomainStats) (dom : DomainStats) (metric : Metric) : Bytes :=
  snprintf 1024 (whisperLineText agg dom metric)

def getWhisperUpdates (agg : AggregateDomainStats) : List Bytes :=
  agg.domainStats.flatMap fun dom => Metric.all.map (whisperLine agg dom)

end CloudMon
