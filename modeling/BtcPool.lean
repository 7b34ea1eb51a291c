import BtcPool.Foundations.Bytes
import BtcPool.Foundations.Hex
import BtcPool.Foundations.Merkle
import BtcPool.Foundations.Checked
import BtcPool.Foundations.Codec
import BtcPool.Foundations.ScriptNum
import BtcPool.Foundations.Fallible
import BtcPool.Error
import BtcPool.Security
import BtcPool.Bitcoin.Transaction
import BtcPool.Bitcoin.Target
import BtcPool.Bitcoin.HashDifficulty
import BtcPool.Bitcoin.MerkleBranch
import BtcPool.Bitcoin.Coinbase
import BtcPool.Bitcoin.HeightPush
import BtcPool.Bitcoin.Template
import BtcPool.Bitcoin.Tripwires
import BtcPool.Mining.Identity
import BtcPool.Mining.Jobs
import BtcPool.Mining.Validator
import BtcPool.Mining.FoundBlock
import BtcPool.Mining.AssembledCoinbase
import BtcPool.Protocol.Messages
import BtcPool.Protocol.Agreement
import BtcPool.Foundations.Runs
import BtcPool.Foundations.Broadcast
import BtcPool.Foundations.LastSaid
import BtcPool.Foundations.Histories
import BtcPool.Foundations.Recents
import BtcPool.Foundations.Rows
import BtcPool.Mining.Recents
import BtcPool.Mining.Difficulty
import BtcPool.Foundations.SlidingWindow
import BtcPool.Security.Connections
import BtcPool.Mining.SessionCore
import BtcPool.Config
import BtcPool.Mining.CoinbaseFits
import BtcPool.Mining.BlockWeight
import BtcPool.Mining.Retargets
import BtcPool.Mining.Credit
import BtcPool.Mining.Windows
import BtcPool.Network.Effects
import BtcPool.Network.Extranonce
import BtcPool.Network.Session
import BtcPool.Network.SessionRefines
import BtcPool.Network.Dialogue
import BtcPool.Protocol.Sv2.Session
import BtcPool.Protocol.Sv2.SessionRefines
import BtcPool.Protocol.Sv2.Dialogue
import BtcPool.Protocol.Sv2.Channels
import BtcPool.Protocol.Sv2.Refusals
import BtcPool.Protocol.Sv2.Targets
import BtcPool.Network.Payouts
import BtcPool.Network.Told
import BtcPool.Network.Difficulties
import BtcPool.Network.ReadLine
import BtcPool.Network.LineChunks
import BtcPool.Mining.Headers
import BtcPool.Network.VersionBits
import BtcPool.Network.Configure
import BtcPool.Mining.Duplicates
import BtcPool.Network.Replays
import BtcPool.Network.Regions
import BtcPool.Network.SearchSpaces
import BtcPool.Mining.Engine
import BtcPool.Network.Pool
import BtcPool.Network.Work
import BtcPool.Protocol.Sv2.JobIds
import BtcPool.Network.Withdrawal
import BtcPool.Network.Tips
import BtcPool.Network.PrevHashes
import BtcPool.Network.Presence
import BtcPool.Foundations.Tasks
import BtcPool.Foundations.Sqlite
import BtcPool.Foundations.Grid
import BtcPool.Foundations.RetryQueue
import BtcPool.Stats.Store
import BtcPool.Stats.Writer
import BtcPool.Stats.Backlog
import BtcPool.Stats.Ledger
import BtcPool.Stats.Rollups
import BtcPool.Stats.LedgerStage
import BtcPool.Stats.WorkHistory
import BtcPool.Stats.WorkPoints
import BtcPool.Stats.Recovery
import BtcPool.Stats.WorkerTable
import BtcPool.Stats.PoolStats
import BtcPool.Stats.Books
import BtcPool.Stats.Meters
import BtcPool.Mining.Accounting
import BtcPool.Mining.Submission
import BtcPool.Mining.BlockCounts
import BtcPool.Mining.Confirm
import BtcPool.Stats.Round
import BtcPool.Stats.RoundTotals
import BtcPool.Stats.Restarts
import BtcPool.Stats.Tasks
import BtcPool.Stats.FinishedRounds
import BtcPool.Stats.Workers
import BtcPool.Network.Headcount
import BtcPool.Security.Bans
import BtcPool.Network.Departures
import BtcPool.Network.Server
import BtcPool.Network.Admission
import BtcPool.Foundations.TokenBucket
import BtcPool.Foundations.DecayingAverage
import BtcPool.Mining.Hashrate
import BtcPool.Security.ShareRate
import BtcPool.Network.Throttle
import BtcPool.Network.Replies
