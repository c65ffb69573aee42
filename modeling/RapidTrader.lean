import RapidTrader.Lib.SortedMap
import RapidTrader.Lib.Loop
import RapidTrader.Lib.Relational
import RapidTrader.Lib.Keyed
import RapidTrader.Lib.Recency
import RapidTrader.Lib.Simulation
import RapidTrader.Lib.Probing
import RapidTrader.Order
import RapidTrader.Book
import RapidTrader.MapOrderBook
import RapidTrader.Machine
import RapidTrader.Effects
import RapidTrader.Retelling
import RapidTrader.Everywhere
import RapidTrader.Mutations
import RapidTrader.Linked
import RapidTrader.Queues
import RapidTrader.Invariant
import RapidTrader.Runs
import RapidTrader.Matching
import RapidTrader.FillOrKill
import RapidTrader.Representation
import RapidTrader.Uncrossed
import RapidTrader.Accounting
import RapidTrader.Cascade
import RapidTrader.Quiescence
import RapidTrader.StopFrame
import RapidTrader.TrailingDistance
import RapidTrader.Ratchet
import RapidTrader.Acts
import RapidTrader.Lifecycle
import RapidTrader.LimitPrice
import RapidTrader.Settlement
import RapidTrader.ExecutedPrice
import RapidTrader.LastPrice
import RapidTrader.Snapshots
import RapidTrader.Idle
import RapidTrader.AtRest
import RapidTrader.Cancellation
import RapidTrader.ThreadPool
import RapidTrader.Market
import RapidTrader.ConcurrentMarket
import RapidTrader.Sequential
import RapidTrader.Rendering
import RapidTrader.SymbolDeletion
import RapidTrader.Occurrences
import RapidTrader.InPlace
import RapidTrader.IdClash
import RapidTrader.NaiveBook
import RapidTrader.PriceTime
import RapidTrader.Volume
import RapidTrader.Untouched
import RapidTrader.Replacement
import RapidTrader.Undo
import RapidTrader.Releveling
import RapidTrader.Filling
import RapidTrader.Activation
import RapidTrader.Termination
import RapidTrader.FokLoop
import RapidTrader.Stages
import RapidTrader.Validation
import RapidTrader.TrailingPriority
import RapidTrader.MarketRuns
import RapidTrader.Progress
import RapidTrader.LockedQueue
import RapidTrader.LockedPool
import RapidTrader.Interleavings
import RapidTrader.LockedProgress
import RapidTrader.LockedMarket
import RapidTrader.ArrivalOrder
import RapidTrader.HashTable
import RapidTrader.TableValid
import RapidTrader.TableLookup
import RapidTrader.TableUpdate
import RapidTrader.TableBytes
import RapidTrader.TableGrowth
import RapidTrader.TableCalls
import RapidTrader.TableMap
