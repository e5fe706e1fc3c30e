import Poet.Locks.Program
import Poet.Domain.Fixpoint
import Poet.Domain.FixpointActions
import Poet.Exploration.Causality
import Poet.Exploration.History
import Poet.Exploration.AddEvent
import Poet.Exploration.Invariant
import Poet.Exploration.Extend
import Poet.Exploration.Explore
import Poet.Exploration.Duplicates
import Poet.Locks.Steps
import Poet.Locks.Invariant
import Poet.Locks.Unfold
import Poet.Locks.Alternatives
import Poet.Locks.Explore
import Poet.Domain.Interval.Offset
import Poet.Domain.Interval.OffsetMerge
import Poet.Domain.Interval.OffsetPointwise
import Poet.Lib.OrdMap
import Poet.Domain.Interval.State
import Poet.Domain.Interval.Regions
import Poet.Model.Interpreter
import Poet.Domain.FixpointSound
import Poet.Domain.FixpointTerminates
import Poet.Exploration.Cutoff
import Poet.Domain.Concrete.Value
import Poet.Domain.Concrete.Transformers
import Poet.Domain.Effects
import Poet.Domain.Concrete.Collapse
import Poet.Domain.Concrete.Threads
import Poet.Domain.Concrete.Mutex
import Poet.Domain.Concrete.Waiting
import Poet.Domain.Layout
import Poet.Lib.Simulation
import Poet.Domain.Interval.Arithmetic
import Poet.Domain.Interval.Transformers
import Poet.Domain.Interval.Simulation
import Poet.Domain.Interval.Filter
import Poet.Exploration.Delete
import Poet.Exploration.Histories
import Poet.Lib.Search
import Poet.Exploration.Conflicts
import Poet.Domain.Interval.Interference
import Poet.Domain.Interval.Subsumption
import Poet.Domain.Interval.ArrayAssign
import Poet.Exploration.Calls
import Poet.Locks.Execution
import Poet.Locks.Calls
import Poet.Locks.Histories
import Poet.Locks.Past
import Poet.Locks.Enabled
import Poet.Locks.Tree
import Poet.Lib.Trace
import Poet.Locks.Traces
import Poet.Domain.Interval.Closure
import Poet.Domain.Interval.Division
import Poet.Domain.Interval.Widening
import Poet.Exploration.LocalState
import Poet.Domain.FixpointMarks
import Poet.Domain.Interval.Run
import Poet.Domain.Slots
import Poet.Domain.Unmentioned
import Poet.Domain.Concrete.Declaration
import Poet.Domain.Concrete.Sequential
import Poet.Lib.CompTree
import Poet.Model.DfsTree
import Poet.Exploration.Statistics
import Poet.Domain.Synchron
import Poet.Lib.Schedule
import Poet.Domain.Replay
import Poet.Locks.Above
import Poet.Locks.AllTraces
import Poet.Exploration.Replay
import Poet.Exploration.Report
