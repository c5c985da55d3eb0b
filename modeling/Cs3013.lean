import Cs3013.Library.Faulting
import Cs3013.Library.Transition
import Cs3013.Library.Sojourn
import Cs3013.Library.Tally
import Cs3013.Library.Budget
import Cs3013.Library.CText
import Cs3013.Library.CMemory
import Cs3013.Library.Slots
import Cs3013.Library.Search
import Cs3013.Library.Interception
import Cs3013.Library.Processes
import Cs3013.Library.Nesting
import Cs3013.Library.Simulation
import Cs3013.Shell.Queue
import Cs3013.Shell.Leaving
import Cs3013.Shell.Prompts
import Cs3013.Shell.Dispatch
import Cs3013.Shell.CommandLine
import Cs3013.Shell.Mc0
import Cs3013.Shell.Mc1
import Cs3013.Shell.Foreground
import Cs3013.Memory.FrameRuns
import Cs3013.Memory.Contents
import Cs3013.Memory.SwappedPath
import Cs3013.Memory.SwapLog
import Cs3013.Memory.SwapRead
import Cs3013.Memory.TableTrip
import Cs3013.Memory.Removal
import Cs3013.Memory.Policy
import Cs3013.Memory.Idempotence
import Cs3013.Memory.Remapping
import Cs3013.Memory.Reader
import Cs3013.Memory.Growth
import Cs3013.Memory.Faults
import Cs3013.Memory.Mmu
import Cs3013.Memory.Journal
import Cs3013.Memory.TableMoves
import Cs3013.Memory.RoundRobin
import Cs3013.Memory.Pace
import Cs3013.Memory.Session
import Cs3013.Bathroom.Exclusion
import Cs3013.Bathroom.Waiting
import Cs3013.Bathroom.Histograms
import Cs3013.Bathroom.VacantTime
import Cs3013.Bathroom.QueueTimes
import Cs3013.Bathroom.Finalize
import Cs3013.Bathroom.Completion
import Cs3013.Kernel.Interceptors
import Cs3013.Kernel.Collected
import Cs3013.Kernel.TableSearch
import Cs3013.Kernel.VirusScan
import Cs3013.Kernel.ScanCopy
import Cs3013.Kernel.Mediation
