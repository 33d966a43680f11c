import LayeredStore.Store
import LayeredStore.Proofs.HeapOrder
import LayeredStore.Proofs.Recency
import LayeredStore.Proofs.RecencyMerge
import LayeredStore.Proofs.FaultyMerges
import LayeredStore.Proofs.BlockRecords
import LayeredStore.Proofs.BlockSeek
import LayeredStore.Proofs.BlockRoundTrip
import LayeredStore.Proofs.BlockPositions
import LayeredStore.Proofs.ChecksumBursts
import LayeredStore.Proofs.IndexLookup
import LayeredStore.Proofs.IndexCodec
import LayeredStore.Proofs.RunImage
import LayeredStore.Proofs.DiskPrograms
import LayeredStore.Proofs.FolderOperations
import LayeredStore.Proofs.RunWriting
import LayeredStore.Proofs.LayerScans
import LayeredStore.Proofs.BlockSelection
import LayeredStore.Proofs.RunFolder
import LayeredStore.Proofs.RunRoundTrip
import LayeredStore.Proofs.Compacting
import LayeredStore.Proofs.Compaction
import LayeredStore.Proofs.FolderContents
import LayeredStore.Proofs.Recovering
import LayeredStore.Proofs.CrashSafety
import LayeredStore.Proofs.Layers
import LayeredStore.Proofs.Snapshots
import LayeredStore.Proofs.PrefixScans
import LayeredStore.Proofs.HeldLayers
import LayeredStore.Proofs.Sessions
import LayeredStore.Proofs.StoreInvariants
import LayeredStore.Proofs.StoreOperations
import LayeredStore.Proofs.Refinement
import LayeredStore.Proofs.Opening
import LayeredStore.Proofs.Histories
import LayeredStore.Proofs.BackgroundWork
import LayeredStore.Proofs.Crashes
import LayeredStore.Proofs.RecoveredFolder
import LayeredStore.Proofs.DamagedRuns
import LayeredStore.Proofs.DamagedBlocks
import LayeredStore.Proofs.WholeRuns
import LayeredStore.Proofs.TornRuns
import LayeredStore.Proofs.EmptyMerges
import LayeredStore.Proofs.WriteOrder
import LayeredStore.Proofs.Closing
import LayeredStore.Proofs.SingleFlight
import LayeredStore.Proofs.WriteAdmission
import LayeredStore.Proofs.FailedCompactions
import LayeredStore.Proofs.FailedFlushes
import LayeredStore.Proofs.KeyPrefixes
import LayeredStore.Proofs.OpenMerges
import LayeredStore.Proofs.StoreGrowth
import LayeredStore.Proofs.OpenScans
import LayeredStore.Proofs.Mailbox
import LayeredStore.Proofs.FaithfulQueue
import LayeredStore.Proofs.FailureReports
import LayeredStore.Proofs.SessionReports
import LayeredStore.Proofs.StaleGenerations
import LayeredStore.Proofs.SealedBuffers
import LayeredStore.Proofs.SuccessfulCompactions
import LayeredStore.Proofs.LockFrames
import LayeredStore.Proofs.DamagedIndexes
import LayeredStore.Proofs.Tenants
import LayeredStore.Proofs.Ownership
import LayeredStore.Proofs.NamedRunFiles
