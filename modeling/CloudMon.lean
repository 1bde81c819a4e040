import CloudMon.Proof.Silence
import CloudMon.Proof.Metrics
import CloudMon.Proof.Identity
import CloudMon.Proof.CpuTime
import CloudMon.Proof.Vanish
import CloudMon.Proof.Interrupted
import CloudMon.Proof.Framing
import CloudMon.Proof.Injection
import CloudMon.Proof.BadLines
import CloudMon.Proof.Confined
import CloudMon.Proof.Filters
import CloudMon.Proof.Nodes
import CloudMon.Proof.Latest
import CloudMon.Proof.Exclusion
import CloudMon.Proof.Recovery
import CloudMon.Proof.Topics
import CloudMon.Proof.Seconds
import CloudMon.Proof.Domains
import CloudMon.Proof.Announce
import CloudMon.Proof.Collected
import CloudMon.Proof.Shown
import CloudMon.Proof.Signals
import CloudMon.Proof.CutShort
import CloudMon.Proof.Load
import CloudMon.Proof.Faults
import CloudMon.Proof.Restarts
import CloudMon.Proof.Lifetime
