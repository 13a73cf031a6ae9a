import Kohl.Lib.Bytes
import Kohl.Lib.Blake2b
import Kohl.Lib.Scale
import Kohl.Lib.Codec
import Kohl.Lib.Hex
import Kohl.Lib.Delimited
import Kohl.Lib.Trapping
import Kohl.Lib.StorageMap
import Kohl.Lib.Trace
import Kohl.Lib.Merkle
import Kohl.Lib.MerklePath
import Kohl.Lib.RingChain
import Kohl.Lib.CoinLedger
import Kohl.Lib.BlockTree
import Kohl.Lib.Machine
import Kohl.Lib.LinearWeight
import Kohl.Lib.RoundRobin
import Kohl.Lib.Stride
import Kohl.Lib.Iteration
import Kohl.Lib.Ranges
import Kohl.Lib.LargestFirst
import Kohl.Primitives
import Kohl.Crypto.Native
import Kohl.Crypto.Cyclic
import Kohl.Crypto.Plane
import Kohl.Crypto.Clsag
import Kohl.MembershipTree
import Kohl.Crypto.SparseTree
import Kohl.Crypto.Fcmp
import Kohl.Crypto.Traps
import Kohl.Crypto.FcmpSpec
import Kohl.Crypto.SaLink
import Kohl.Pow.Mining
import Kohl.Pow.Seed
import Kohl.Pow.Miner
import Kohl.Difficulty.Lwma
import Kohl.Difficulty.Runs
import Kohl.Pallet.Types
import Kohl.Pallet.Codec
import Kohl.Pallet.Membership
import Kohl.Pallet.Calls
import Kohl.Pallet.Chain
import Kohl.Pallet.TreeInvariant
import Kohl.Pallet.KeyImages
import Kohl.Pallet.Ledger
import Kohl.Pallet.Commute
import Kohl.Pallet.Accounting
import Kohl.Pallet.Lag
import Kohl.Pallet.Backlog
import Kohl.Pallet.SparseTree
import Kohl.Pallet.Admission
import Kohl.Pallet.MatureSet
import Kohl.Pallet.RootWindow
import Kohl.Wallet.Stealth
import Kohl.Wallet.Membership
import Kohl.Wallet.Transfer
import Kohl.Wallet.Built
import Kohl.Wallet.Cache
import Kohl.Wallet.Completeness
import Kohl.Wallet.Accepted
import Kohl.Wallet.Fees
import Kohl.Wallet.Selection
import Kohl.Wallet.KeyReuse
import Kohl.Runtime.Api
import Kohl.Wallet.Text
import Kohl.Wallet.Client
import Kohl.Wallet.Send
import Kohl.Wallet.SendBuilt
import Kohl.Wallet.SendNode
import Kohl.Wallet.SendOutcome
import Kohl.Security.Inflation
import Kohl.Security.Overflow
import Kohl.Security.ReadBack
import Kohl.Security.EarlySpend
import Kohl.Security.SpendPath
import Kohl.Security.Pool
import Kohl.Security.Payment
import Kohl.Security.Arrival
import Kohl.Security.Reward
import Kohl.Security.Holdings
import Kohl.Security.SigningHash
import Kohl.Security.Balance
import Kohl.Dandelion.Engine
import Kohl.Dandelion.Epochs
import Kohl.Dandelion.Node
import Kohl.Dandelion.Routing
import Kohl.Dandelion.Flood
import Kohl.Dandelion.Relay
import Kohl.Dandelion.Embargo
import Kohl.Dandelion.Sweep
