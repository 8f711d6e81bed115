import Logan.Sched.CoreWakeup
import Logan.Sched.RuntimeReplies
import Logan.Sched.ResidencyReplay
import Logan.Sched.ExecutorJobs
import Logan.Sched.ExecutorReports
import Logan.Expert.ExpertLayers
import Logan.State.TransactionEpochs
import Logan.Prefix.CacheFiles
import Logan.Plan.Feasibility
import Logan.Artifact.ManifestRoundTrip
import Logan.Format.VerifyOpens
import Logan.Llama.KvHistory
import Logan.Llama.KvCheckpoints
import Logan.Llama.KvStateDecode
import Logan.Llama.VerifyStream
import Logan.Llama.Dspark
import Logan.Qwen.MtpBlocks
import Logan.Source.SafetensorsExact
import Logan.Llama.SpeculativeLossless
import Logan.Qwen.ScheduledDecode
import Logan.Qwen.CachedTransparent
import Logan.Qwen.StageFreshness
import Logan.Qwen.StageFlight
import Logan.Qwen.PrefixReaders
import Logan.Source.GgufExact
import Logan.Chat.MiniCpm5Calls
import Logan.Expert.ExpertSlab
import Logan.Prefix.RamCache
import Logan.Sched.ResidencyAdmission
import Logan.Sched.AccelRollback
import Logan.Sched.RuntimeRetry
import Logan.Prefix.PrefixTiers
import Logan.Qwen.TileDecode
import Logan.Plan.MaterialPlans
import Logan.Plan.Graph
import Logan.Artifact.ManifestSafety
import Logan.Format.RansMetered
import Logan.Quant.Mxfp4Rows
import Logan.Llama.VerifyExact
import Logan.Qwen.MlxBits
import Logan.Llama.Placement
import Logan.Qwen.RoutePredictor
import Logan.Storage.InPlace
import Logan.Source.FusedSplit
