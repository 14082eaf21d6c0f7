import LimitOrderBook.Types
import LimitOrderBook.PriceLevel
import LimitOrderBook.LevelMap
import LimitOrderBook.OrderBook
import LimitOrderBook.MatchingEngine
import LimitOrderBook.Run
import LimitOrderBook.Reference
import LimitOrderBook.Walk
import LimitOrderBook.Submit
import LimitOrderBook.Invariant
import LimitOrderBook.RunInvariant
import LimitOrderBook.Fresh
import LimitOrderBook.Index
import LimitOrderBook.Quantities
import LimitOrderBook.Ledger
import LimitOrderBook.Quotes
import LimitOrderBook.BookPrinter
import LimitOrderBook.Termination
import LimitOrderBook.QueueBook
import LimitOrderBook.Refinement
import LimitOrderBook.Trading
import LimitOrderBook.Cli
import LimitOrderBook.Observers
import LimitOrderBook.Lifecycle
import LimitOrderBook.Session
