import AgentPulse.Lib.Transition
import AgentPulse.Lib.StrideSearch
import AgentPulse.Lib.KeyedList
import AgentPulse.Lib.Calendar
import AgentPulse.Lib.QuotedLexer
import AgentPulse.Lib.Utf8
import AgentPulse.Lib.RowTable
import AgentPulse.Text
import AgentPulse.Cron
import AgentPulse.Config
import AgentPulse.Db
import AgentPulse.SharedState
import AgentPulse.Jobs.JobSet
import AgentPulse.Jobs.Restart
import AgentPulse.Alerts.Engine
import AgentPulse.Alerts.History
import AgentPulse.Alerts.Events
import AgentPulse.Alerts.SamplerLoop
import AgentPulse.Alerts.Notifier
import AgentPulse.Jobs.Worker
import AgentPulse.Jobs.Scheduler
import AgentPulse.Jobs.Steps
import AgentPulse.Jobs.Tasks
import AgentPulse.Jobs.Ownership
import AgentPulse.Jobs.TaskSafety
import AgentPulse.Jobs.ConcurrentCalls
import AgentPulse.Jobs.Firing
import AgentPulse.Jobs.CronFiring
import AgentPulse.Jobs.Records
import AgentPulse.Jobs.Tickets
import AgentPulse.Jobs.MissedScan
import AgentPulse.Jobs.Occurrences
import AgentPulse.Jobs.ProcessRunner
import AgentPulse.Jobs.DrainLoop
import AgentPulse.Jobs.Deadlock
import AgentPulse.Ipc.Json
import AgentPulse.Ipc.Api
import AgentPulse.Ipc.Answers
import AgentPulse.Jobs.Requests
import AgentPulse.Jobs.Publication
import AgentPulse.Jobs.Launches
import AgentPulse.Jobs.PlannedRuns
import AgentPulse.Jobs.SleepPolicy
import AgentPulse.Jobs.Removal
import AgentPulse.Jobs.Timeout
import AgentPulse.CronGrammar
import AgentPulse.LoadConfig
import AgentPulse.Ipc.AddJob
import AgentPulse.Ipc.Framing
import AgentPulse.App.Commands
import AgentPulse.App.Notifications
import AgentPulse.Metrics.CpuSampler
import AgentPulse.CronMeaning
import AgentPulse.CronInt
import AgentPulse.CronHorizon
import AgentPulse.Jobs.Intervals
import AgentPulse.Jobs.Retry
import AgentPulse.Jobs.Attempts
import AgentPulse.Jobs.Capture
import AgentPulse.Jobs.EarlyKill
import AgentPulse.Jobs.FailureDetail
import AgentPulse.DbRecords
import AgentPulse.DbRoundTrip
import AgentPulse.Power.SleepMonitor
import AgentPulse.Power.ThreadJoined
import AgentPulse.Ipc.Exchange
import AgentPulse.Ipc.RequestAnswered
import AgentPulse.Ipc.RequestDeadlock
import AgentPulse.DbRuns
import AgentPulse.Jobs.RunCache
import AgentPulse.Jobs.RestartRuns
import AgentPulse.App.Models
import AgentPulse.App.StatusPolls
import AgentPulse.Ipc.AcceptLoop
import AgentPulse.Ipc.ClientsServed
import AgentPulse.Ipc.StalledClient
import AgentPulse.App.AddJobForm
import AgentPulse.ConfigRoundTrip
import AgentPulse.Alerts.HotReload
import AgentPulse.Jobs.Descriptors
import AgentPulse.Metrics.MetricHistory
import AgentPulse.Metrics.ProcessSampler
import AgentPulse.Ipc.SocketPath
import AgentPulse.Cli.Arguments
