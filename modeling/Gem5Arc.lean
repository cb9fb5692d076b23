import Gem5Arc.Arc.Isolation
import Gem5Arc.Arc.Size
import Gem5Arc.Arc.Victim
import Gem5Arc.Base.AddrRangeMap
import Gem5Arc.Base.IntMath
import Gem5Arc.Base.Interleaving
import Gem5Arc.Base.SatCounter
import Gem5Arc.CPU.BPredUnit
import Gem5Arc.CPU.FoldedHistory
import Gem5Arc.CPU.HistoryRepair
import Gem5Arc.CPU.LoopPredictor
import Gem5Arc.CPU.Rename
import Gem5Arc.CPU.ReturnAddrStack
import Gem5Arc.Cache.BRRIP
import Gem5Arc.Cache.BackLink
import Gem5Arc.Cache.PartitionedTags
import Gem5Arc.Cache.PrefetchQueues
import Gem5Arc.Cache.SatisfyRequest
import Gem5Arc.Cache.SectorBlk
import Gem5Arc.Cache.SetAssociative
import Gem5Arc.Cache.Skewed
import Gem5Arc.Cache.StackDistance
import Gem5Arc.Cache.SuperBlk
import Gem5Arc.Cache.TargetFlags
import Gem5Arc.Compressors.BaseDeltaSizes
import Gem5Arc.Compressors.DictionaryBounds
import Gem5Arc.Compressors.FPCSizes
import Gem5Arc.Compressors.FrequentValues
import Gem5Arc.MESITwoLevel.DMAWrite
import Gem5Arc.MIExample.Safety
import Gem5Arc.Mem.AbstractMemory
import Gem5Arc.Mem.DRAMAddress
import Gem5Arc.Mem.ReadResponses
import Gem5Arc.Mem.WriteQueue
import Gem5Arc.Ruby.Capacity
import Gem5Arc.Ruby.Coalescing
import Gem5Arc.Ruby.DMARequests
import Gem5Arc.Ruby.DataBlockAssignment
import Gem5Arc.Ruby.Delivery
import Gem5Arc.Ruby.Eviction
import Gem5Arc.Ruby.GhostHit
import Gem5Arc.Ruby.NotPresent
import Gem5Arc.Ruby.StallAndWait
import Gem5Arc.Sim.DebugVerify
import Gem5Arc.Sim.FutexMap
import Gem5Arc.Sim.MemImage
import Gem5Arc.Sim.MemPool
