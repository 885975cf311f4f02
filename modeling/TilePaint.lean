import TilePaint.Config.Environment
import TilePaint.Scheduler.Coalesce
import TilePaint.TileCache.Display
import TilePaint.TileCache.Invalidate
import TilePaint.TileCache.Regrid
import TilePaint.Proofs.CacheRun
import TilePaint.Proofs.CacheInvariant
import TilePaint.Proofs.PixelProvenance
import TilePaint.Proofs.BatchAccounts
import TilePaint.Proofs.BatchTurns
import TilePaint.Proofs.BatchProgress
import TilePaint.Proofs.BatchCompletion
import TilePaint.Proofs.Coalescing
import TilePaint.Proofs.PublicationGate
import TilePaint.Proofs.StaleRender
import TilePaint.Proofs.RequestCoverage
import TilePaint.Proofs.RangeJoins
import TilePaint.Proofs.TaskMerging
import TilePaint.Proofs.DuplicateRequests
import TilePaint.Proofs.BitSetRefinement
import TilePaint.Proofs.FlagOwnership
import TilePaint.Proofs.WorkerProgress
import TilePaint.Proofs.BatchSilence
import TilePaint.Proofs.DestroyedBatches
import TilePaint.Proofs.PaintSequence
import TilePaint.Proofs.PoolAccounts
import TilePaint.Proofs.ConfigLoading
import TilePaint.Proofs.RemainingScan
import TilePaint.Proofs.SnapshotPixels
import TilePaint.Proofs.CanvasDisplay
import TilePaint.Proofs.FallbackPixels
import TilePaint.Proofs.RectInvalidation
import TilePaint.Proofs.RegridOutcome
import TilePaint.Proofs.TaskExtension
import TilePaint.Proofs.BarrierCalls
import TilePaint.Proofs.ConfigLines
import TilePaint.Proofs.ConfigSaving
import TilePaint.Proofs.WindowBands
import TilePaint.Proofs.RangeCounting
import TilePaint.Proofs.FlagSharing
