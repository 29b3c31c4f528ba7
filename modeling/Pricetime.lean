import Pricetime.Impl.Book
import Pricetime.Impl.BookStats
import Pricetime.Impl.Engine
import Pricetime.Impl.FuzzItch
import Pricetime.Impl.GenItch
import Pricetime.Impl.IdMap
import Pricetime.Impl.Itch
import Pricetime.Impl.ItchReader
import Pricetime.Impl.ItchWriter
import Pricetime.Impl.Ladder
import Pricetime.Impl.Level
import Pricetime.Impl.MarketMaker
import Pricetime.Impl.MmSandbox
import Pricetime.Impl.MoldUdp64
import Pricetime.Impl.MultiBook
import Pricetime.Impl.QueuePosition
import Pricetime.Impl.RecvLoop
import Pricetime.Impl.ReferenceBook
import Pricetime.Impl.Replayer
import Pricetime.Impl.Server
import Pricetime.Impl.SpscQueue
import Pricetime.Impl.Stages
import Pricetime.Impl.Types
import Pricetime.Impl.Wire
import Pricetime.Proof.BookInvariant
import Pricetime.Proof.BookMoves
import Pricetime.Proof.BookRefines
import Pricetime.Proof.BookRep
import Pricetime.Proof.BookSim
import Pricetime.Proof.BookStats
import Pricetime.Proof.ClientView
import Pricetime.Proof.Conservation
import Pricetime.Proof.Crossing
import Pricetime.Proof.DenseBounds
import Pricetime.Proof.DenseLadder
import Pricetime.Proof.Engine
import Pricetime.Proof.EngineOrders
import Pricetime.Proof.Exposure
import Pricetime.Proof.Feed
import Pricetime.Proof.FeedIntegrity
import Pricetime.Proof.FeedRefines
import Pricetime.Proof.FillOrKill
import Pricetime.Proof.Fills
import Pricetime.Proof.Filtering
import Pricetime.Proof.FlatBook
import Pricetime.Proof.Framework.Accrual
import Pricetime.Proof.Framework.Directory
import Pricetime.Proof.Framework.Fairness
import Pricetime.Proof.Framework.Framing
import Pricetime.Proof.Framework.Keyed
import Pricetime.Proof.Framework.Links
import Pricetime.Proof.Framework.Precedence
import Pricetime.Proof.Framework.Probing
import Pricetime.Proof.Framework.Runs
import Pricetime.Proof.Framework.Tally
import Pricetime.Proof.Framework.Timeline
import Pricetime.Proof.Framework.Window
import Pricetime.Proof.FuzzItch
import Pricetime.Proof.GapTracker
import Pricetime.Proof.GenItch
import Pricetime.Proof.IdMap
import Pricetime.Proof.IdMapLayout
import Pricetime.Proof.IdMapRefines
import Pricetime.Proof.IdMapReserve
import Pricetime.Proof.Instantiations
import Pricetime.Proof.Itch
import Pricetime.Proof.ItchReader
import Pricetime.Proof.ItchStream
import Pricetime.Proof.ItchWriter
import Pricetime.Proof.Ladder
import Pricetime.Proof.LaddersAgree
import Pricetime.Proof.Lossless
import Pricetime.Proof.MarketData
import Pricetime.Proof.Markouts
import Pricetime.Proof.MatchProgress
import Pricetime.Proof.MatchSteps
import Pricetime.Proof.Matching
import Pricetime.Proof.MdLoop
import Pricetime.Proof.MmSandbox
import Pricetime.Proof.MoldUdp64
import Pricetime.Proof.MultiBook
import Pricetime.Proof.NodeRuns
import Pricetime.Proof.Nodes
import Pricetime.Proof.Observe
import Pricetime.Proof.OrderTypes
import Pricetime.Proof.Places
import Pricetime.Proof.PoolExact
import Pricetime.Proof.PooledRecycling
import Pricetime.Proof.PositionLimits
import Pricetime.Proof.PriceField
import Pricetime.Proof.Priority
import Pricetime.Proof.ProfitLoss
import Pricetime.Proof.QueueExact
import Pricetime.Proof.QueuePosition
import Pricetime.Proof.RecvLoop
import Pricetime.Proof.Reference
import Pricetime.Proof.ReferenceRefines
import Pricetime.Proof.ReferenceViews
import Pricetime.Proof.Rejection
import Pricetime.Proof.ReplayObserver
import Pricetime.Proof.ReplayerRefines
import Pricetime.Proof.Responses
import Pricetime.Proof.Routing
import Pricetime.Proof.RoutingIndex
import Pricetime.Proof.RoutingSteps
import Pricetime.Proof.SandboxSteps
import Pricetime.Proof.SelfTrade
import Pricetime.Proof.Server
import Pricetime.Proof.ServerEnds
import Pricetime.Proof.ServerFeed
import Pricetime.Proof.Sessions
import Pricetime.Proof.Shutdown
import Pricetime.Proof.SpecBook
import Pricetime.Proof.SpecReplayer
import Pricetime.Proof.SpscQueue
import Pricetime.Proof.Standing
import Pricetime.Proof.TrackedFeed
import Pricetime.Proof.TreeBook
import Pricetime.Proof.TreeLadder
import Pricetime.Proof.Wire
import Pricetime.Spec.Book
import Pricetime.Spec.Client
import Pricetime.Spec.Fifo
import Pricetime.Spec.IdMap
import Pricetime.Spec.Itch
import Pricetime.Spec.Owners
import Pricetime.Spec.Replayer
import Pricetime.Spec.Standing
import Pricetime.Spec.Wire
