import Pbist.Functional.Build
import Pbist.Functional.Content
import Pbist.Functional.Frame
import Pbist.Functional.Policy
import Pbist.Functional.Tree
import Pbist.Functional.Update
import Pbist.Functional.Volume
import Pbist.Library.Blocks
import Pbist.Library.Checked
import Pbist.Library.Interleaving
import Pbist.Library.Levels
import Pbist.Library.Machine
import Pbist.Library.ParallelFor
import Pbist.Library.Rounding
import Pbist.Library.Runs
import Pbist.Library.Separation
import Pbist.Library.Sorted
import Pbist.Memory.Arrays
import Pbist.Memory.Building
import Pbist.Memory.Flattening
import Pbist.Memory.Lookup
import Pbist.Memory.Ownership
import Pbist.Memory.Reading
import Pbist.Memory.Routing
import Pbist.Memory.Runs
import Pbist.Memory.Space
import Pbist.Memory.Tree
import Pbist.Memory.Updating
import Pbist.Refinement.Build
import Pbist.Refinement.Building
import Pbist.Refinement.Contains
import Pbist.Refinement.Dump
import Pbist.Refinement.Flatten
import Pbist.Refinement.Levels
import Pbist.Refinement.Routing
import Pbist.Refinement.Schedules
import Pbist.Refinement.Shallow
import Pbist.Refinement.Tree
import Pbist.Refinement.Update
import Pbist.Runs.Amortised
import Pbist.Runs.Batches
import Pbist.Runs.Correctness
import Pbist.Runs.Counters
import Pbist.Runs.Frame
import Pbist.Runs.InMemory
import Pbist.Runs.Invariants
import Pbist.Runs.Reachable
import Pbist.Runs.WideKeys
import Pbist.Search.Adequate
import Pbist.Search.Agreement
import Pbist.Search.Borders
import Pbist.Search.Cost
import Pbist.Search.Index
import Pbist.Search.Interpolation
import Pbist.Search.Rounded
import Pbist.Source.Batch
import Pbist.Source.Build
import Pbist.Source.Flatten
import Pbist.Source.Memory
import Pbist.Source.MemoryBatch
import Pbist.Source.Node
import Pbist.Source.Search
import Pbist.Source.Tree
import Pbist.Spec.FiniteSet
