import Vast.Bitmap.EwahOperands
import Vast.Bitmap.EwahOperations
import Vast.Catalog.BufferedSynopsis
import Vast.Catalog.MinMaxSynopsis
import Vast.Core.Fields
import Vast.Detail.Escapers
import Vast.Detail.Varbyte
import Vast.DiskMonitor.Rounds
import Vast.Fbs.FlatbufferContainer
import Vast.Index.EventIds
import Vast.Index.ProtocolRun
import Vast.Index.Refinement
import Vast.Parse.Integral
import Vast.Parse.Time
import Vast.Partition.KeptEvents
import Vast.Partition.PersistRun
import Vast.Query.ConceptNegation
import Vast.Query.Tailored
import Vast.Queue.Priority
import Vast.Rebuild.Progress
import Vast.Rebuild.Rebatch
import Vast.Rebuild.Statistics
import Vast.Sigma.Base64Offset
import Vast.Store.Counting
import Vast.Store.Segment
import Vast.Store.SegmentStore
import Vast.Transform.Deliveries
import Vast.Transform.Distribution
import Vast.Transform.PipelineExecutor
import Vast.Transform.Recovery
import Vast.Transform.Summarize
import Vast.ValueIndex.HashPacking
import Vast.ValueIndex.Integers
