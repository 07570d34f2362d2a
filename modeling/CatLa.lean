import CatLa.Gc.HeapAccounting
import CatLa.Gc.ReferenceCount
import CatLa.Gc.WaitingCascade
import CatLa.Gc.DeferredRelease
import CatLa.Gc.ReleaseCascade
import CatLa.Foundations.GraphSearch
import CatLa.Foundations.TrialDeletion
import CatLa.Gc.CycleCollector
import CatLa.Gc.LockPhase
import CatLa.Gc.Marking
import CatLa.Gc.Consistency
import CatLa.Gc.RootCollection
import CatLa.Gc.GarbageCollection
import CatLa.Gc.FieldOperations
import CatLa.Gc.MutatorSteps
import CatLa.Gc.CollectorRuns
import CatLa.Gc.GarbageProgress
import CatLa.Gc.CascadeSteps
import CatLa.Gc.ThreadAccounting
import CatLa.Gc.ConcurrentMarking
import CatLa.Foundations.Lockstep
import CatLa.Vm.Bytecode
import CatLa.Vm.ControlFlow
import CatLa.Foundations.ByteMemory
import CatLa.Heap.HeapLayout
import CatLa.Heap.ChunkInvariant
import CatLa.Heap.ChunkMalloc
import CatLa.Heap.HeapAllocator
import CatLa.Heap.AllocatorRuns
import CatLa.Heap.SharedAllocator
import CatLa.Heap.SharedInvariant
import CatLa.Heap.SharedRuns
import CatLa.Util.RWLock
import CatLa.Vm.BorrowProtocol
import CatLa.Vm.FieldOrders
import CatLa.Gc.TrialMarking
import CatLa.Foundations.ReleaseClosure
import CatLa.Gc.ReleaseSteps
import CatLa.Gc.ReleaseFates
import CatLa.Gc.ReleaseRuns
import CatLa.Gc.ReleaseTraces
import CatLa.Gc.CascadeOutcome
import CatLa.Gc.FieldWords
import CatLa.Gc.CollectorWords
import CatLa.Gc.FollowedWords
import CatLa.Gc.CollectorVisits
import CatLa.Gc.FollowedReferences
import CatLa.Foundations.Pattern
import CatLa.Parser.Scanner
import CatLa.Parser.ConstSection
import CatLa.Parser.LineLoop
import CatLa.Parser.OrderLine
import CatLa.Parser.FunctionSection
import CatLa.Parser.ModuleText
import CatLa.Vm.ModuleLoader
import CatLa.Foundations.TablePass
import CatLa.Vm.FailedLoads
import CatLa.Vm.ImportClosure
import CatLa.Foundations.Lineage
import CatLa.Vm.LinkPasses
import CatLa.Heap.CellSearch
import CatLa.Heap.CellReuse
import CatLa.Vm.IntegerAddition
import CatLa.Vm.OperandKinds
import CatLa.Parser.ConstCursor
import CatLa.Parser.TypeSection
import CatLa.Parser.ModuleRoundTrip
import CatLa.Vm.RepeatedLoads
import CatLa.Vm.LinkedModules
import CatLa.Parser.ParsedModule
import CatLa.Vm.LoadedNames
import CatLa.Vm.TypeLayouts
import CatLa.Vm.LoadedModules
import CatLa.Vm.UsedTypes
import CatLa.Vm.Declarations
import CatLa.Vm.ObjectSizes
import CatLa.Vm.LinkSoundness
import CatLa.Vm.PassesReturn
import CatLa.Heap.ChunkList
import CatLa.Heap.SizeClasses
import CatLa.Parser.SpacesIgnored
import CatLa.Parser.IndexTables
import CatLa.Parser.StrictConsts
import CatLa.Parser.LineChecks
import CatLa.Parser.MalformedText
import CatLa.Parser.TableAccess
import CatLa.Vm.LayoutPass
import CatLa.Vm.LaterPasses
import CatLa.Vm.CompleteLoads
import CatLa.Vm.SafeRuns
import CatLa.Foundations.ObjectStore
import CatLa.Gc.ClientRuns
import CatLa.Gc.ExactCollection
import CatLa.Gc.LeakedGarbage
import CatLa.Gc.MainProgram
import CatLa.Vm.SourceRuns
