import Boole.Library.Accounts
import Boole.Library.Best
import Boole.Library.Bisection
import Boole.Library.Bytes
import Boole.Library.Dense
import Boole.Library.Effect
import Boole.Library.Fallible
import Boole.Library.FirstFree
import Boole.Library.Firsts
import Boole.Library.Framing
import Boole.Library.FreshSet
import Boole.Library.Hex
import Boole.Library.HexBytes
import Boole.Library.Index
import Boole.Library.Instances
import Boole.Library.Json
import Boole.Library.JsonOrder
import Boole.Library.JsonSize
import Boole.Library.KeyedQueue
import Boole.Library.Levels
import Boole.Library.LineLog
import Boole.Library.Numeral
import Boole.Library.OrdMap
import Boole.Library.OrderedSet
import Boole.Library.Paging
import Boole.Library.Reader
import Boole.Library.Recognizer
import Boole.Library.Rlp
import Boole.Native.Chain
import Boole.Native.CommonAncestor
import Boole.Native.Envelope
import Boole.Native.ForkChoice
import Boole.Native.HeadHash
import Boole.Native.Issuance
import Boole.Native.Ledger
import Boole.Native.LedgerInvariant
import Boole.Native.LedgerUndo
import Boole.Native.Mining
import Boole.Native.Network
import Boole.Native.Node
import Boole.Native.NodeCrash
import Boole.Native.NodeInvariant
import Boole.Native.NodeQueue
import Boole.Native.PeerServer
import Boole.Native.Peers
import Boole.Native.PendingView
import Boole.Native.Replay
import Boole.Native.Retarget
import Boole.Native.SigningDigest
import Boole.Native.Spending
import Boole.Native.Survival
import Boole.Native.Template
import Boole.Derivation.Binding
import Boole.Derivation.Board
import Boole.Derivation.Capacity
import Boole.Derivation.Clock
import Boole.Derivation.Config
import Boole.Derivation.Deposits
import Boole.Derivation.Due
import Boole.Derivation.Effects
import Boole.Derivation.Fold
import Boole.Derivation.Forks
import Boole.Derivation.Invariants
import Boole.Derivation.ItemEffects
import Boole.Derivation.Items
import Boole.Derivation.Jobs
import Boole.Derivation.Journal
import Boole.Derivation.Lineage
import Boole.Derivation.Merkle
import Boole.Derivation.Onward
import Boole.Derivation.Parts
import Boole.Derivation.Payload
import Boole.Derivation.Pools
import Boole.Derivation.Prefetch
import Boole.Derivation.Queue
import Boole.Derivation.Reposes
import Boole.Derivation.Rewards
import Boole.Derivation.Roots
import Boole.Derivation.Rounds
import Boole.Derivation.Run
import Boole.Derivation.Slots
import Boole.Derivation.State
import Boole.Derivation.Statuses
import Boole.Derivation.Step
import Boole.Derivation.Targets
import Boole.Derivation.Windows
import Boole.Derivation.Wire
import Boole.Core.Admission
import Boole.Core.Block
import Boole.Core.Bounties
import Boole.Core.BountyLog
import Boole.Core.Builder
import Boole.Core.Conservation
import Boole.Core.Difficulty
import Boole.Core.Evidence
import Boole.Core.ForkChoice
import Boole.Core.Package
import Boole.Core.PackageCursor
import Boole.Core.PackageGrammar
import Boole.Core.PoolCounts
import Boole.Core.Promotion
import Boole.Core.RateLimiter
import Boole.Core.RateQuotas
import Boole.Core.Refunds
import Boole.Core.Replay
import Boole.Core.Settlement
import Boole.Core.SharePool
import Boole.Node.BootCrash
import Boole.Node.BountyEvents
import Boole.Node.ForkChoice
import Boole.Node.Healing
import Boole.Node.Ledgers
import Boole.Node.Lifecycle
import Boole.Node.LineReader
import Boole.Node.Lockstep
import Boole.Node.Runtime
import Boole.Node.Stores
