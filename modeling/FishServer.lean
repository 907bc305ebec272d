import FishServer.Basic
import FishServer.Lib.Transition
import FishServer.Lib.Bitmap
import FishServer.Lib.LinkedList
import FishServer.Lib.Heap
import FishServer.Lib.Sha1
import FishServer.Lib.Base64
import FishServer.Lib.WsFrame
import FishServer.Lib.Printf
import FishServer.Lib.Table
import FishServer.Lib.LinkTree
import FishServer.Lib.SqlText
import FishServer.Lib.ListLoop
import FishServer.Lib.Chain
import FishServer.Lib.BubbleSort
import FishServer.Lib.Split
import FishServer.Lib.Holdings
import FishServer.Lib.ChainEdit
import FishServer.Lib.CellStore
import FishServer.Lib.Interleave
import FishServer.Lib.WsMessage
import FishServer.Lib.OrderedSearch
import FishServer.MemoryPool
import FishServer.PoolLayout
import FishServer.PoolRun
import FishServer.PoolGeometry
import FishServer.PoolSafety
import FishServer.PoolCursor
import FishServer.PoolRegions
import FishServer.PoolScan
import FishServer.PoolComplete
import FishServer.PoolAccounts
import FishServer.PoolStore
import FishServer.Fmsg
import FishServer.Emsg
import FishServer.Sha1
import FishServer.Sha1Refine
import FishServer.Base64
import FishServer.Handshake
import FishServer.HackBounds
import FishServer.FrameDecode
import FishServer.FrameBounds
import FishServer.FrameStream
import FishServer.JsonParse
import FishServer.JsonDepth
import FishServer.JsonBounds
import FishServer.JsonText
import FishServer.JsonTokens
import FishServer.JsonParts
import FishServer.JsonRoundTrip
import FishServer.JsonContent
import FishServer.JsonHeap
import FishServer.JsonBuild
import FishServer.JsonClear
import FishServer.JsonLists
import FishServer.JsonBuilder
import FishServer.JsonBuilderTree
import FishServer.JsonBuilderLength
import FishServer.JsonBuilderClear
import FishServer.JsonBuilderParse
import FishServer.GameObjects
import FishServer.ObjectRuns
import FishServer.FreshIds
import FishServer.Sweep
import FishServer.Server
import FishServer.Entry
import FishServer.ServerRun
import FishServer.SignKeySql
import FishServer.Play
import FishServer.Session
import FishServer.SessionSteps
import FishServer.SessionRefine
import FishServer.SessionRun
import FishServer.Seats
import FishServer.RoomCursor
import FishServer.Release
import FishServer.Winnings
import FishServer.Identity
import FishServer.Stock
import FishServer.RoomStock
import FishServer.RoomLists
import FishServer.RoomSteps
import FishServer.Ledger
import FishServer.Economy
import FishServer.PendingSave
import FishServer.Setting
import FishServer.JsonLookup
import FishServer.Logins
import FishServer.ForcedLogin
import FishServer.PlayerTable
import FishServer.SocketSearch
import FishServer.SlotTimes
import FishServer.IdleTimeout
import FishServer.SettingReload
import FishServer.SettingMemory
import FishServer.ReplyText
import FishServer.ReplyFields
import FishServer.Channel
import FishServer.Receive
import FishServer.RunLoop
import FishServer.Authority
import FishServer.FishPopulation
import FishServer.NullArguments
import FishServer.KeyLifetime
import FishServer.Account
import FishServer.Proper
import FishServer.Isolation
import FishServer.Progress
import FishServer.Furnished
import FishServer.Lifetimes
import FishServer.SavePass
import FishServer.BalanceSaves
import FishServer.FailedSave
import FishServer.Task
import FishServer.TaskRounds
import FishServer.TaskOrder
import FishServer.Decimal
import FishServer.LevelTable
import FishServer.ConnectLimit
import FishServer.TaskLoad
import FishServer.TaskWindow
import FishServer.TaskAward
import FishServer.TaskRecords
import FishServer.TaskGifts
import FishServer.UserTotals
import FishServer.UserTeardown
import FishServer.Explode
import FishServer.ExplodeChar
import FishServer.Conf
import FishServer.ConfLookup
