import Awb.Lib.Runs
import Awb.Isa.BlockReport
import Awb.Isa.InstProfile
import Awb.Nightly.GetParam
import Awb.Regression.Pruned
import Awb.Regression.Verifier
import Awb.Regression.Report
import Awb.Warmup.DoWarmUp
import Awb.Lib.StableInsert
import Awb.Lib.Multiples
import Awb.Classic.Conservation
import Awb.Classic.PeriodicItems
import Awb.Classic.WorkListPointers
import Awb.Classic.ReadyChecks
import Awb.Classic.CommandLine
import Awb.Classic.Events
import Awb.Classic.EventFlags
import Awb.Classic.PmSchedule
import Awb.Classic.Periods
import Awb.Builder.ShortName
import Awb.Builder.Visits
import Awb.Builder.Reconfigure
import Awb.Apm.WellTyped
import Awb.ModuleTree.Links
import Awb.ModuleTree.Replaced
import Awb.ModuleTree.DefaultModule
import Awb.ModuleTree.Health
import Awb.ModuleTree.Sources
import Awb.Inifile.Agreement
import Awb.Inifile.Reopen
import Awb.Systems.Execute
import Awb.Systems.CommitOrder
import Awb.Systems.Ape
import Awb.Dependency.Wakeups
import Awb.Dependency.RegisterRuns
import Awb.Transaction.Outcome
import Awb.Workbench.SkipAll
import Awb.Workbench.Sampling
import Awb.Workbench.Protect
import Awb.Workbench.Alternation
import Awb.Batch.ExitCodes
import Awb.Batch.Slots
import Awb.Batch.Scheduler
import Awb.Batch.StatusFiles
import Awb.Batch.SmartClass
import Awb.Batch.NetbatchFeeder
import Awb.Svn.ReadBack
import Awb.Workspace.CrossProducts
import Awb.Package.SerialNumbers
import Awb.Stats.Collected
import Awb.Stats.Faithful
import Awb.Stats.Combine
import Awb.Stats.CacheMisses
import Awb.Stats.Compare
import Awb.Stats.Submatrix
import Awb.Coverage.Impact
import Awb.Run.Experiments
import Awb.Run.Mirror
import Awb.Run.NamesAgree
import Awb.Run.CrossProduct
import Awb.Run.Ranges
import Awb.Dependency.Rotation
import Awb.Util.SplitString
import Awb.Util.Canonical
import Awb.Util.RelativePath
import Awb.Util.SubstituteAll
import Awb.Util.ExpandEnv
import Awb.Workspace.OptionGroups
import Awb.Workspace.Options
import Awb.Workspace.AddPath
import Awb.Workspace.RemovePath
import Awb.Inifile.Includes
import Awb.Apm.Endings
import Awb.Classic.ArgArrays
import Awb.Classic.ConfigStream
import Awb.SearchPath.RoundTrip
import Awb.SearchPath.Glob
import Awb.Repository.StableTag
import Awb.Package.StatsHistory
import Awb.Package.StatsReadBack
import Awb.Package.Dependents
import Awb.Benchmark.Returns
import Awb.Builder.Placeholders
import Awb.Builder.LineWrap
import Awb.Builder.CollectModules
import Awb.Builder.Suffix
import Awb.Apm.ModuleWords
