import GridEngine.EventDelivery
import GridEngine.EventRegistration
import GridEngine.SubordinateRuns
import GridEngine.JobSplitPlaces
import GridEngine.HostGroupSteps
import GridEngine.CullHashRuns
import GridEngine.TaskDependChunks
import GridEngine.TaskDependRuns
import GridEngine.QueueEndTimes
import GridEngine.MessageRoundTrip
import GridEngine.FifoLockRuns
import GridEngine.JobCategoryRuns
import GridEngine.TimedEventRuns
import GridEngine.UsageRuns
import GridEngine.LoadAlarm
import GridEngine.ParallelRuns
import GridEngine.PeSelection
import GridEngine.SequentialAssignment
import GridEngine.RqsRuleSets
import GridEngine.JobTaskIds
import GridEngine.CullCounting
import GridEngine.CullTrailing
import GridEngine.JobHoldLists
import GridEngine.RangePrint
import GridEngine.EventClientIds
import GridEngine.HashKeyTypes
import GridEngine.RqsScopes
import GridEngine.BitfieldRuns
import GridEngine.SlotwiseTreeRuns
import GridEngine.QinstanceConfigRuns
import GridEngine.CalendarStateAt
import GridEngine.CalendarWeekdays
import GridEngine.Dstring
import GridEngine.CullWhere
import GridEngine.ShareTreeTickets
import GridEngine.ReferenceTableBounds
import GridEngine.LoadFormulaEvaluation
import GridEngine.OverrideBruteForce
import GridEngine.CoreLinear
import GridEngine.CoreStriding
import GridEngine.ExplicitSyntax
import GridEngine.HostileHeaders
import GridEngine.LoadThresholdSlots
import GridEngine.QueueReferences
import GridEngine.UrgencyRanking
import GridEngine.GdiPacketRoundTrip
import GridEngine.ResourceSchedule
import GridEngine.JobDependencies
import GridEngine.EnvironmentFile
