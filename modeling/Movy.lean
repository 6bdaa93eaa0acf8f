import Movy.Store.ChildRead
import Movy.Store.Commit
import Movy.Store.Interchange
import Movy.Store.ReadThrough
import Movy.Store.Snapshot
import Movy.Tracer.BitExact
import Movy.Tracer.Constraint
import Movy.Tracer.Tee
import Movy.Analysis.Producers
import Movy.Fuzz.Align
import Movy.Fuzz.Built
import Movy.Fuzz.WellTyped
import Movy.Fuzz.HookNames
import Movy.Fuzz.InfiniteLoop
import Movy.Fuzz.StageReplay
import Movy.Fuzz.Solution
import Movy.Fuzz.Strip
import Movy.Fuzz.MutateSequence
import Movy.Fuzz.Sampling
import Movy.Fuzz.Targets
import Movy.Fuzz.Readings
import Movy.Fuzz.TypeArguments
import Movy.Fuzz.RemoveHot
import Movy.Fuzz.StripRefs
import Movy.Fuzz.Overflow
import Movy.Fuzz.ValueMutation
import Movy.Fuzz.PureEncoding
import Movy.Sui.Relink
import Movy.Types.ChangeAddress
import Movy.Types.Convert
import Movy.Types.Instantiate
import Movy.Types.Published
import Movy.Types.ToPtb
import Movy.Fuzz.FailureStage
import Movy.Static.UnusedStruct
import Movy.Static.Common
import Movy.Sui.LcovReport
import Movy.Sui.NamedTypes
import Movy.Fuzz.Proceeds
import Movy.Types.EventLayout
import Movy.Analysis.PackageStructure
import Movy.Lib.Queues
import Movy.Fuzz.ObjectMapping
import Movy.Fuzz.MovyInit
import Movy.Store.Upperbound
import Movy.Sui.LocalDeps
import Movy.Replay.TargetDeployment
import Movy.Replay.BuildEnv
import Movy.Fuzz.TestRun
import Movy.Fuzz.Muting
import Movy.Sui.Listing
import Movy.Static.Stackless
import Movy.Replay.InnerTypes
import Movy.Replay.Metadata
import Movy.Fuzz.MagicNumbers
import Movy.Sui.MovedAbi
import Movy.Static.UnusedFunctions
import Movy.Store.PersistentDump
import Movy.Types.IdentText
