import Orderbook.Book.PoolHistory
import Orderbook.Book.SideHistory
import Orderbook.Engine.BestExecution
import Orderbook.Engine.Footprint
import Orderbook.Engine.Isolation
import Orderbook.Engine.Removals
import Orderbook.Engine.Symmetry
import Orderbook.Engine.Windows
import Orderbook.Feed.EngineThread
import Orderbook.Feed.FileBounds
import Orderbook.Feed.Frames
import Orderbook.Feed.PoolSize
import Orderbook.Feed.PoolThreads
import Orderbook.Feed.ReplayPackets
import Orderbook.Feed.SpscRing
import Orderbook.Feed.StaleBytes
import Orderbook.Feed.UmemRefinement
