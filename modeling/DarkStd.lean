import DarkStd.Semantics.System
import DarkStd.Semantics.Infinite
import DarkStd.Semantics.Bisimulation
import DarkStd.Semantics.Refinement
import DarkStd.Semantics.HappensBefore
import DarkStd.Semantics.Word
import DarkStd.Semantics.Body
import DarkStd.Sync.Container
import DarkStd.Sync.Moves
import DarkStd.Sync.Registry
import DarkStd.Sync.Accounting
import DarkStd.Sync.Exclusion
import DarkStd.Sync.Content
import DarkStd.Sync.Sections
import DarkStd.Sync.History
import DarkStd.Sync.Methods
import DarkStd.Sync.Linearization
import DarkStd.Sync.Rejection
import DarkStd.Sync.Reentrancy
import DarkStd.Sync.Items
import DarkStd.Sync.Unwinding
import DarkStd.Sync.Quiescence
import DarkStd.Sync.Containers
import DarkStd.Sync.Nesting
import DarkStd.Sync.Solo
import DarkStd.Sync.Exclusive
import DarkStd.Sync.Starvation
import DarkStd.Sync.Fairness
import DarkStd.Sync.Leak
import DarkStd.Sync.Lock
import DarkStd.Sync.Races
import DarkStd.Sync.Orderings
import DarkStd.Sync.Equality
import DarkStd.Sync.Snapshot
import DarkStd.Sync.Balance
import DarkStd.Sync.Comparisons
import DarkStd.Sync.Deadlock
import DarkStd.Sync.Progress
import DarkStd.Sync.Completion
import DarkStd.Sync.Slots
import DarkStd.Sync.Coherence
import DarkStd.Sync.Cached
import DarkStd.WaitGroup.Group
import DarkStd.WaitGroup.Moves
import DarkStd.WaitGroup.Release
import DarkStd.WaitGroup.Additions
import DarkStd.WaitGroup.Batch
import DarkStd.WaitGroup.Waiting
import DarkStd.WaitGroup.Rounds
import DarkStd.WaitGroup.Waiters
import DarkStd.WaitGroup.Cancel
import DarkStd.WaitGroup.Wakeup
import DarkStd.WaitGroup.Visibility
import DarkStd.Sync.Duration
