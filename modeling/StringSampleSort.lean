import StringSampleSort.Library.BigEndian
import StringSampleSort.Library.Bits
import StringSampleSort.Library.WordBytes
import StringSampleSort.Tools.StringSet
import StringSampleSort.Tools.CheckOrder
import StringSampleSort.Tools.KeyPacking
import StringSampleSort.Tools.KeyOrder
import StringSampleSort.Library.Transition
import StringSampleSort.Tools.JobQueue
import StringSampleSort.Tools.LoopEnds
import StringSampleSort.Tools.TeamLoop
import StringSampleSort.Tools.LazyCounter
import StringSampleSort.Parallel.SortStep
import StringSampleSort.Parallel.StepCompletion
import StringSampleSort.Parallel.StepLifetime
import StringSampleSort.Library.PerfectTree
import StringSampleSort.Tools.TreeCalculations
import StringSampleSort.Tools.TreeIndex
import StringSampleSort.Sequential.TreeBuilder
import StringSampleSort.Sequential.BuilderBounds
import StringSampleSort.Sequential.Classifier
import StringSampleSort.Sequential.ClassifierLaws
import StringSampleSort.Library.SortedList
import StringSampleSort.Sequential.EqualBuckets
import StringSampleSort.Sequential.PermuteInPlace
import StringSampleSort.Sequential.PermuteBounds
import StringSampleSort.Tools.GetChar
import StringSampleSort.Tools.KeyWindow
import StringSampleSort.Sequential.SampleSort
import StringSampleSort.Library.Slice
import StringSampleSort.Library.LcpOrder
import StringSampleSort.Library.InsertionSort
import StringSampleSort.Library.Distribute
import StringSampleSort.Library.BucketSort
import StringSampleSort.Tools.StringOrder
import StringSampleSort.Tools.WideKeys
import StringSampleSort.Tbb.TurnTaking
import StringSampleSort.Tbb.PageInvariant
import StringSampleSort.Tbb.PageSteps
import StringSampleSort.Tbb.Linearizable
import StringSampleSort.Tbb.Progress
import StringSampleSort.Tbb.Destroy
import StringSampleSort.Tools.LcpSearch
import StringSampleSort.Tools.LcpVerify
import StringSampleSort.Tools.StringPtr
import StringSampleSort.Tools.PointerChains
import StringSampleSort.Sequential.InsertionSort
import StringSampleSort.Sequential.InssortBounds
import StringSampleSort.Sequential.BucketOrder
import StringSampleSort.Sequential.RadixSort
import StringSampleSort.Sequential.RadixBounds
import StringSampleSort.Sequential.BucketRecursion
import StringSampleSort.Sequential.GenericSort
import StringSampleSort.Sequential.StandAlone
import StringSampleSort.Parallel.SampleLevel
import StringSampleSort.Parallel.Termination
import StringSampleSort.Library.StableDistribute
import StringSampleSort.Sequential.SubtreeBuilder
import StringSampleSort.Sequential.SubtreeSort
import StringSampleSort.Parallel.Distribute
import StringSampleSort.Library.ForkJoin
import StringSampleSort.Library.ForkJoinGroup
import StringSampleSort.Library.FairRun
import StringSampleSort.Parallel.SortTask
import StringSampleSort.Parallel.BaseCase
import StringSampleSort.Library.SplitEnd
import StringSampleSort.Parallel.PieceSplit
import StringSampleSort.Parallel.CacheSort
import StringSampleSort.Library.CheckedArray
import StringSampleSort.Parallel.MkqsStep
import StringSampleSort.Parallel.MkqsSort
import StringSampleSort.Parallel.MkqsBounds
import StringSampleSort.Parallel.BoundaryLcp
import StringSampleSort.Library.FreedStack
import StringSampleSort.Parallel.SampleStep
import StringSampleSort.Parallel.FreedWork
import StringSampleSort.Parallel.SmallsortJob
import StringSampleSort.Parallel.JobStacks
import StringSampleSort.Parallel.WorkSharing
import StringSampleSort.Parallel.WorkSharingSteps
import StringSampleSort.Parallel.ExactlyOnce
import StringSampleSort.Parallel.JobInvariant
import StringSampleSort.Parallel.JobFreeWork
import StringSampleSort.Parallel.JobSteps
import StringSampleSort.Parallel.SampleSortJobs
import StringSampleSort.Parallel.SampleSortInvariant
import StringSampleSort.Parallel.SampleSortSteps
import StringSampleSort.Parallel.ParallelSort
import StringSampleSort.Parallel.SortMethods
import StringSampleSort.Parallel.NumaSort
import StringSampleSort.Parallel.SortResult
import StringSampleSort.Parallel.JobBuffer
import StringSampleSort.Library.X86
import StringSampleSort.Sequential.AssemblerTree
import StringSampleSort.Sequential.AssemblerSearch
import StringSampleSort.Sequential.LevelOrderTree
