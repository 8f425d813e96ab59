import Leibrix.IntervalLattice
import Leibrix.SqlTimestamps
import Leibrix.LdpPlacement
import Leibrix.ModeAgreement
import Leibrix.DecimalText
import Leibrix.DispatcherAgree
import Leibrix.EpochRanges
import Leibrix.FlightIsolation
import Leibrix.SqlBounded
import Leibrix.SqlIdempotent
import Leibrix.PlanLexical
import Leibrix.LocalExchange
import Leibrix.WindowPartitions
import Leibrix.JoinKeys
import Leibrix.PlanClauses
import Leibrix.ConnectionPool
import Leibrix.GatherSafety
import Leibrix.HashTypes
import Leibrix.HashStream
import Leibrix.EpochTotals
import Leibrix.BroadcastLimits
import Leibrix.FailedLoads
import Leibrix.EpochKeys
import Leibrix.ScanColumns
import Leibrix.EmptyResults
import Leibrix.DispatcherDrain
import Leibrix.SessionCommands
import Leibrix.KeyColumns
import Leibrix.SessionTasks
import Leibrix.OutputLimits
import Leibrix.StageOrder
