import Dbtrail.Query.LatestInBinlog
import Dbtrail.Archive.Newest
import Dbtrail.Query.Redaction
import Dbtrail.Query.PKRange
import Dbtrail.Query.Windows
import Dbtrail.Reconstruct.SingleRow
import Dbtrail.Reconstruct.TailEquiv
import Dbtrail.Reconstruct.Arithmetic
import Dbtrail.Reconstruct.Compact
import Dbtrail.Reconstruct.FoldChain
import Dbtrail.Reconstruct.PgFolds
import Dbtrail.Reconstruct.CutFloor
import Dbtrail.Reconstruct.Boundary
import Dbtrail.Reconstruct.Gap
import Dbtrail.Reconstruct.PKFilter
import Dbtrail.Reconstruct.PgShape
import Dbtrail.Indexer.TxnVisibility
import Dbtrail.Streamrun.Position
import Dbtrail.Streamrun.GTID
import Dbtrail.Streamrun.Renumbered
import Dbtrail.Pgstreamrun.Recovery
import Dbtrail.Rotation.Future
import Dbtrail.Indexer.LossBound
import Dbtrail.Sqlsandbox.SlotRuns
import Dbtrail.Copymirror.Whole
import Dbtrail.Parser.FileParser
import Dbtrail.Parser.Resend
import Dbtrail.Parser.Skips
import Dbtrail.Recovery.Invert
import Dbtrail.Cascade.Closure
import Dbtrail.Stmtclock.Clock
import Dbtrail.Hiderules.Hidden
import Dbtrail.Icebergexport.Fold
import Dbtrail.Event.QueryText
import Dbtrail.Consistency.Checksum
import Dbtrail.Keyidx.Reader
import Dbtrail.Reconstruct.PositionWindow
import Dbtrail.Query.PlanCover
import Dbtrail.Baseline.DeadMask
import Dbtrail.Baseline.ReaderTab
import Dbtrail.Query.NewestWalk
