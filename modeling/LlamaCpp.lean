import LlamaCpp.Kv.AttentionWidth
import LlamaCpp.Kv.DecodeBatch
import LlamaCpp.Kv.PrevTokens
import LlamaCpp.Kv.QnextState
import LlamaCpp.Kv.RopeShift
import LlamaCpp.Kv.Recurrent
import LlamaCpp.Kv.SeqPos
import LlamaCpp.Kv.SharedCells
import LlamaCpp.Kv.StateRoundTrip
import LlamaCpp.Dsv4.PerStepRestore
import LlamaCpp.Dsv4.VisibleRows
import LlamaCpp.Alloc.TallocRuns
import LlamaCpp.Grammar.LazyGrammar
import LlamaCpp.Grammar.MaskAgrees
import LlamaCpp.Grammar.MaskExact
import LlamaCpp.Grammar.ParsedTable
import LlamaCpp.Grammar.PartialChar
import LlamaCpp.Grammar.WrappedRepetition
import LlamaCpp.Peg.ExcludingPattern
import LlamaCpp.Peg.LenientPrefix
import LlamaCpp.Peg.RoundTrip
import LlamaCpp.Peg.Until
import LlamaCpp.Peg.Repeat
import LlamaCpp.Speculative.DflashRuns
import LlamaCpp.Speculative.Speculate
import LlamaCpp.Sampling.ExpiringBias
import LlamaCpp.Sampling.PenaltyWindow
import LlamaCpp.Sampling.Unbiased
import LlamaCpp.Server.BatchViews
import LlamaCpp.Server.TaskCancel
import LlamaCpp.Server.TaskPlaces
import LlamaCpp.Ngram.MapRuns
import LlamaCpp.Ngram.CacheCounts
import LlamaCpp.Server.SlotFiles
import LlamaCpp.Server.StopWords
import LlamaCpp.Server.AnthropicStream
import LlamaCpp.Rpc.GraphRebuild
import LlamaCpp.Gguf.Ranges
import LlamaCpp.Samplers.DryTable
import LlamaCpp.Samplers.QueueRuns
import LlamaCpp.Sched.SplitInputs
import LlamaCpp.Sched.ActiveExperts
import LlamaCpp.Sched.PreparedGraph
import LlamaCpp.Alloc.ReuseSafety
import LlamaCpp.Vocab.Rwkv
import LlamaCpp.Vocab.UgmNormalize
import LlamaCpp.Vocab.UgmTokenize
import LlamaCpp.Server.AdaptiveHistory
import LlamaCpp.Vocab.KimiSplit
import LlamaCpp.Vocab.InvalidText
import LlamaCpp.Common.TokenMatch
import LlamaCpp.Schema.NotStrings
import LlamaCpp.Schema.IntBounds
import LlamaCpp.Schema.ResolvesToString
import LlamaCpp.Peg.StringContent
