import LabKernel.AddressSpace
import LabKernel.ArgumentPassing
import LabKernel.Barrier
import LabKernel.BitMaps
import LabKernel.BlindPrograms
import LabKernel.BlockCache
import LabKernel.BlockFreeing
import LabKernel.BlockHolders
import LabKernel.BlockObject
import LabKernel.BlockOwnership
import LabKernel.BlockPairs
import LabKernel.BuddyCanonical
import LabKernel.BuddyContract
import LabKernel.BuddyPool
import LabKernel.BuddyRefinement
import LabKernel.BuddySafety
import LabKernel.BuddyTree
import LabKernel.ByteMemory
import LabKernel.CacheCoherence
import LabKernel.CacheRecency
import LabKernel.CacheTraffic
import LabKernel.CacheTransparency
import LabKernel.CallPairs
import LabKernel.CallSafety
import LabKernel.CalmMachines
import LabKernel.CatOutput
import LabKernel.ComposedPrograms
import LabKernel.ContextSwitch
import LabKernel.CrowdedDirectory
import LabKernel.DecimalText
import LabKernel.DeletedData
import LabKernel.DirectData
import LabKernel.DirectTransfers
import LabKernel.Directories
import LabKernel.DirectoryCalls
import LabKernel.DirectorySizes
import LabKernel.DirectoryTrees
import LabKernel.ExitRace
import LabKernel.FileContents
import LabKernel.FileOpens
import LabKernel.FileStore
import LabKernel.FileWrites
import LabKernel.FormattedText
import LabKernel.Formatting
import LabKernel.FsCode
import LabKernel.FsLayout
import LabKernel.FsPairs
import LabKernel.FsPrimitives
import LabKernel.FsRuns
import LabKernel.FsTables
import LabKernel.FsView
import LabKernel.HandlePool
import LabKernel.HandleRecycling
import LabKernel.HandleSafety
import LabKernel.HardLinks
import LabKernel.ImageLoading
import LabKernel.ImagePacking
import LabKernel.IndexPairs
import LabKernel.IndexWrites
import LabKernel.InertReads
import LabKernel.IntegerParsing
import LabKernel.IoMappings
import LabKernel.KernelHalf
import LabKernel.KernelHeap
import LabKernel.KernelHeapContract
import LabKernel.KernelObjects
import LabKernel.LibcHeap
import LabKernel.LibcPool
import LabKernel.Lifetimes
import LabKernel.LinkCounts
import LabKernel.LinkRuns
import LabKernel.Mailbox
import LabKernel.MailboxMessages
import LabKernel.MailboxNames
import LabKernel.MailboxProgress
import LabKernel.MappedAddresses
import LabKernel.MindedRuns
import LabKernel.MkdirPaths
import LabKernel.MutexCalls
import LabKernel.MutexLock
import LabKernel.MutexOwnership
import LabKernel.NameInsertion
import LabKernel.ObjectCounting
import LabKernel.ObjectIds
import LabKernel.OffsetPaths
import LabKernel.PageCalls
import LabKernel.PageRuns
import LabKernel.PageTable
import LabKernel.PageUpdates
import LabKernel.PairedRuns
import LabKernel.PairedWrites
import LabKernel.ParameterRestart
import LabKernel.PathWalks
import LabKernel.PrintedNumbers
import LabKernel.PrintingCalls
import LabKernel.ProcessLife
import LabKernel.ProcessTermination
import LabKernel.ProgramLogic
import LabKernel.PromptPath
import LabKernel.QueueUniqueness
import LabKernel.ReadyQueue
import LabKernel.ReceiveRing
import LabKernel.Rounding
import LabKernel.Scheduler
import LabKernel.SchedulerChoice
import LabKernel.ScreenCursor
import LabKernel.ScreenOutput
import LabKernel.SerialTerminal
import LabKernel.SharedPages
import LabKernel.Simulation
import LabKernel.SingleHart
import LabKernel.SpaceReturned
import LabKernel.SteadyPrograms
import LabKernel.StoreRefinement
import LabKernel.StoreRuns
import LabKernel.StringCopy
import LabKernel.SuperBlockCopy
import LabKernel.SystemParameters
import LabKernel.TableLookups
import LabKernel.Teardown
import LabKernel.ThreadRetention
import LabKernel.TidyCalls
import LabKernel.TidyDisk
import LabKernel.TidyRuns
import LabKernel.TransitionSystem
import LabKernel.TransmitRing
import LabKernel.TrieLookup
import LabKernel.TrieMap
import LabKernel.UnwrittenBytes
import LabKernel.UserIsolation
import LabKernel.WaitQueue
