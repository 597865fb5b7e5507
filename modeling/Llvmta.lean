import Llvmta.Library.LruSet
import Llvmta.Library.CheckedVector
import Llvmta.Library.CollectingRun
import Llvmta.Memory.AgedTag
import Llvmta.Memory.LruMaxAgeAbstractCache
import Llvmta.Memory.LruMaxAgeEntries
import Llvmta.Memory.LruMaxAgeOperations
import Llvmta.Memory.LruMaxAgeJoin
import Llvmta.Memory.LruMaxAgeSoundness
import Llvmta.Memory.LruMinAgeAbstractCache
import Llvmta.Memory.LruMinAgeOperations
import Llvmta.Memory.LruMinAgeJoin
import Llvmta.Memory.LruMinAgeSoundness
import Llvmta.Library.CyclicInterval
import Llvmta.Memory.AbstractCache
import Llvmta.Memory.CacheSetInterval
import Llvmta.Library.LruPath
import Llvmta.Memory.ConditionalMustPersistence
import Llvmta.Library.BudgetCover
import Llvmta.Memory.SetWiseCountingPersistence
import Llvmta.Memory.SetWiseCountingSoundness
import Llvmta.Library.LruConflict
import Llvmta.Memory.ArrayAwareMustAges
import Llvmta.Memory.LruMaxAgeArrayAwareCache
import Llvmta.Memory.ArrayAwareOperations
import Llvmta.Memory.ArrayAwareSoundness
import Llvmta.Memory.ArrayAwareRuns
import Llvmta.AnalysisFramework.GraphIterator
import Llvmta.AnalysisFramework.GraphIteratorSoundness
import Llvmta.Library.LeastFirst
import Llvmta.AnalysisFramework.GraphIteratorTermination
import Llvmta.Memory.MustAgeConflictPowerset
import Llvmta.Memory.MustAgeConflictPowersetSoundness
import Llvmta.Library.OrderedMap
import Llvmta.Library.LruWriteback
import Llvmta.Memory.DirtinessAnalysis
import Llvmta.Memory.DirtinessSoundness
import Llvmta.Memory.DirtinessRuns
import Llvmta.Library.LruInterference
import Llvmta.Memory.SharedClassification
import Llvmta.Memory.MultiScopePersistence
import Llvmta.Memory.MultiScopeSoundness
import Llvmta.Memory.SharedPersistence
import Llvmta.Library.ByteMemory
import Llvmta.Library.MapEntries
import Llvmta.PreprocessingAnalysis.ConstantValueDomain
import Llvmta.PreprocessingAnalysis.ConstantValueDomainRISCV
import Llvmta.PreprocessingAnalysis.MachineRISCV
import Llvmta.PreprocessingAnalysis.SoundnessRISCV
import Llvmta.PreprocessingAnalysis.ConstantValueDomainARM
import Llvmta.PreprocessingAnalysis.MachineARM
import Llvmta.PreprocessingAnalysis.TrackedMemoryARM
import Llvmta.PreprocessingAnalysis.RegistersARM
import Llvmta.Library.CompletionTimes
import Llvmta.Library.Successors
import Llvmta.Memory.AbstractCyclingMemory
import Llvmta.Memory.BlockingCyclingMemory
import Llvmta.Memory.CompositionalAbstractCache
import Llvmta.Memory.JJYSeparateCachesMemoryTopology
import Llvmta.Memory.TopologyOutcomes
import Llvmta.Library.EncodedTop
import Llvmta.PathAnalysis.CoRunnerSensitivePathAnalysis
import Llvmta.PathAnalysis.CoRunnerSoundness
import Llvmta.LLVMPasses.AddressListsSoundness
import Llvmta.PathAnalysis.GraphConstraint
import Llvmta.PathAnalysis.PersistenceCounting
import Llvmta.PathAnalysis.PersistenceSoundness
import Llvmta.PathAnalysis.FlowConstraintProvider
import Llvmta.PathAnalysis.ProgramRuns
import Llvmta.PathAnalysis.UpperFlowSoundness
import Llvmta.Library.Fifo
import Llvmta.Library.LastBefore
import Llvmta.Library.ListUpdates
import Llvmta.Library.RingBuffer
import Llvmta.Memory.FixedLatencyCyclingMemory
import Llvmta.MicroarchitecturalAnalysis.MicroArchitecturalState
import Llvmta.MicroarchitecturalAnalysis.OutOfOrderConservation
import Llvmta.MicroarchitecturalAnalysis.OutOfOrderFetch
import Llvmta.MicroarchitecturalAnalysis.OutOfOrderOperands
import Llvmta.MicroarchitecturalAnalysis.OutOfOrderScopeEntrances
import Llvmta.MicroarchitecturalAnalysis.OutOfOrderScopes
import Llvmta.Library.Interleaving
import Llvmta.MicroarchitecturalAnalysis.InOrderAccesses
import Llvmta.MicroarchitecturalAnalysis.InOrderCompletion
import Llvmta.MicroarchitecturalAnalysis.InOrderScopes
import Llvmta.LLVMPasses.DispatchPathAnalysis
import Llvmta.Memory.Crpd.CacheRelatedPreemptionDelay
import Llvmta.PathAnalysis.LoopBoundInfo
import Llvmta.PathAnalysis.PersistenceWidths
import Llvmta.Util.Muticoreinfo
import Llvmta.Util.MuticoreinfoWindows
import Llvmta.LLVMPasses.StaticAddressLayout
import Llvmta.PathAnalysis.SCEVBounds
import Llvmta.MicroarchitecturalAnalysis.OutOfOrderDataAccesses
import Llvmta.Memory.TopologyDataUpdates
import Llvmta.PartitionUtil.ContextStack
import Llvmta.Memory.LruMaxAgeRepresentation
import Llvmta.Memory.LruMinAgeRepresentation
import Llvmta.Library.WrappingCounter
import Llvmta.Memory.AbstractCacheLoops
import Llvmta.Memory.ArrayPersistentScopes
import Llvmta.Memory.TopologyProgress
import Llvmta.Library.AgreeingResults
import Llvmta.Library.Interning
import Llvmta.Library.LexicographicWalk
import Llvmta.Memory.Crpd.ConstrainedAges
import Llvmta.Memory.Crpd.UsefulCacheBlocks
import Llvmta.Memory.LruSharedCaches
import Llvmta.Memory.PersistenceCoherence
import Llvmta.Memory.PersistenceComparisons
import Llvmta.AnalysisFramework.EdgeEffects
import Llvmta.AnalysisFramework.GraphIteratorWalks
import Llvmta.Library.LruPreemption
import Llvmta.Memory.Crpd.EvictingCacheBlocks
import Llvmta.Memory.Crpd.PreemptionCost
import Llvmta.Memory.Crpd.DCPreemptionCost
import Llvmta.AnalysisFramework.ContextMaps
import Llvmta.AnalysisFramework.ContextUpdates
import Llvmta.AnalysisFramework.EdgeTransfers
