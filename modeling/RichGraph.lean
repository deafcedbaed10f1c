import RichGraph.UpdateReads
import RichGraph.Snapshots
import RichGraph.MergeLeftovers
import RichGraph.AttachFaults
import RichGraph.CsrPublication
import RichGraph.CsrUpdates
import RichGraph.CompactionWrites
import RichGraph.DeltaFileReads
import RichGraph.UpdateCapacity
import RichGraph.SubcompactionWork
import RichGraph.CompactionInputs
import RichGraph.ScanInterleavings
import RichGraph.SequenceRecovery
import RichGraph.PayloadColumns
import RichGraph.JoinedScans
import RichGraph.WayBuffers
import RichGraph.SkipList
import RichGraph.DeltaFileNames
import RichGraph.FlushOffsets
import RichGraph.BlockManager
import RichGraph.SchemaInit
import RichGraph.StoreRuns
