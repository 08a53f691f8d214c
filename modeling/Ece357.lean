import Ece357.Machine.Run
import Ece357.Machine.TasLock
import Ece357.Machine.Scan
import Ece357.Machine.History
import Ece357.Semaphore.Model
import Ece357.Semaphore.Exclusion
import Ece357.Semaphore.Registry
import Ece357.Semaphore.WakeUp
import Ece357.Semaphore.Handler
import Ece357.ProcTable.Basic
import Ece357.ProcTable.Waiting
import Ece357.ProcTable.Family
import Ece357.Sched.Model
import Ece357.Sched.Moves
import Ece357.Sched.Sound
import Ece357.Sched.Steps
import Ece357.Sched.Records
import Ece357.Sched.Refine
import Ece357.Sched.Waiting
import Ece357.Sched.Signals
import Ece357.Sched.Counting
import Ece357.Sched.Parentage
import Ece357.Sched.Contexts
import Ece357.Sched.Driver
import Ece357.Sched.Exiting
import Ece357.Sched.Selection
import Ece357.Sched.Running
import Ece357.Machine.Ghost
import Ece357.Sched.Ticks
import Ece357.Sched.Priority
import Ece357.Sched.Fairness
import Ece357.Sched.Stacks
import Ece357.Copycat.Model
import Ece357.CatGrepMore.Copy
import Ece357.Copycat.Exact
import Ece357.CatGrepMore.Model
import Ece357.CatGrepMore.PipeEnds
import Ece357.Shell.Model
import Ece357.Shell.Tree
import Ece357.TasTest.Model
import Ece357.TasTest.Counting
import Ece357.Semaphore.TryResult
import Ece357.Semaphore.Masks
import Ece357.Semaphore.Targets
import Ece357.CatGrepMore.Residue
import Ece357.CatGrepMore.Continues
import Ece357.CatGrepMore.Interrupts
import Ece357.Sched.ExitCode
import Ece357.Sched.Childless
import Ece357.Sched.Switching
import Ece357.Machine.Words
import Ece357.Sched.Adjstack
import Ece357.Sched.ChildStack
import Ece357.Sched.Startup
import Ece357.Shell.Tokens
import Ece357.Shell.Bounds
import Ece357.Machine.Halting
import Ece357.Sched.Termination
import Ece357.Copycat.Operands
import Ece357.Machine.Traces
import Ece357.Walker.Model
import Ece357.Walker.Filters
import Ece357.Walker.Walk
import Ece357.Walker.Postorder
import Ece357.Walker.Unreadable
import Ece357.Walker.Buffers
import Ece357.Machine.Bytes
import Ece357.Machine.X86
import Ece357.Machine.Sharing
import Ece357.Sched.Savectx
import Ece357.TasTest.Processors
import Ece357.Sched.ForkBytes
import Ece357.FifoTest.Runs
import Ece357.Sched.Settling
import Ece357.Shell.Script
import Ece357.Copycat.Disk
import Ece357.Copycat.Delivery
import Ece357.Walker.Lines
import Ece357.Machine.Permits
import Ece357.Semaphore.Progress
import Ece357.Semaphore.Atomic
import Ece357.TasTest.Progress
import Ece357.CatGrepMore.Statistics
