import Acdc.Accounting
import Acdc.Histograms
import Acdc.Access
import Acdc.Slots
import Acdc.Collections
import Acdc.HeapRuns
import Acdc.Contents
import Acdc.Racing
import Acdc.Assertions
import Acdc.Divisors
import Acdc.Drain
import Acdc.Drift
import Acdc.Baseline
import Acdc.Nulloc
import Acdc.Reproducible
import Acdc.WellLinked
import Acdc.TreeShape
import Acdc.VisitOrder
import Acdc.Sequences
import Acdc.Splice
import Acdc.Receivers
import Acdc.Prng
import Acdc.Addresses
import Acdc.StartUp
import Acdc.SpinBarrier
import Acdc.OsxBarrier
import Acdc.Quanta
import Acdc.Termination
import Acdc.Capacity
import Acdc.Percentages
import Acdc.NumaMaps
import Acdc.CommandLine
import Acdc.ProcStatus
import Acdc.Layout
import Acdc.Process
import Acdc.Refinement
