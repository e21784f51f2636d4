import LoraDb.OrderLimit
import LoraDb.ChangeRuns
import LoraDb.SlabRuns
import LoraDb.WalPayload
import LoraDb.HnswSound
import LoraDb.AdjacencyHeap
import LoraDb.FulltextQuery
import LoraDb.OrderedScan
import LoraDb.Coherence
import LoraDb.OptionalMatch
import LoraDb.ShortestPath
import LoraDb.HashAggregation
import LoraDb.SetRuns
import LoraDb.FoldCalls
import LoraDb.FilterMoves
import LoraDb.IdMapRuns
import LoraDb.IdSetRuns
import LoraDb.IdBitmapRuns
import LoraDb.OrdMapRuns
import LoraDb.HashTrieSlots
import LoraDb.PrintedTimes
import LoraDb.Recovery
