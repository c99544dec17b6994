import Vllm.Reasoning.Delimited
import Vllm.KvCache.EagleLookup
import Vllm.KvCache.StartupFit
import Vllm.Moe.DirectAssignment
import Vllm.Moe.Noninterference
import Vllm.Sched.EncoderBoundary
import Vllm.Sched.EncoderReferences
import Vllm.Sched.PriorityRuns
import Vllm.Sched.SkippedOrder
import Vllm.Worker.SlotMapping
import Vllm.Worker.EmbedsRuns
import Vllm.Worker.MaskRuns
import Vllm.Worker.BudgetRuns
import Vllm.Shm.QueueTimeouts
import Vllm.Shm.HeldObjects
import Vllm.Engine.ParallelRuns
import Vllm.Eplb.Rearrange
import Vllm.Eplb.Replicas
import Vllm.Dp.WaveMessages
import Vllm.Text.StreamAgreement
import Vllm.Text.StreamedText
import Vllm.Text.DeltaRuns
import Vllm.KvCache.CommonPrefixRuns
import Vllm.Offload.TieringRuns
import Vllm.Offload.ResetRuns
import Vllm.Offload.LookupExact
import Vllm.Offload.ConnectorRuns
import Vllm.Serial.MessageRoundTrip
import Vllm.SpecDecode.NgramKernel
import Vllm.ToolParser.JsonToolCall
import Vllm.ToolParser.Recovery
import Vllm.Sched.StopLaw
import Vllm.Moe.LaunchGrid
import Vllm.KvCache.RetainedHits
import Vllm.KvCache.FreeQueueRuns
import Vllm.KvCache.ModelLength
import Vllm.Sched.Repetition
import Vllm.Sched.AlignedChunks
import Vllm.Moe.BatchedAlign
import Vllm.Moe.LoraAlign
