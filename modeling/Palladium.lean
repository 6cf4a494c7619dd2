import Palladium.Arith.CompactRounding
import Palladium.Arith.Limbs
import Palladium.Chain.Locator
import Palladium.Chain.SkipList
import Palladium.Chain.VersionBitsReport
import Palladium.Mempool.AncestorLimits
import Palladium.Mempool.FeeDeltas
import Palladium.Mempool.Orderings
import Palladium.Mempool.Trim
import Palladium.Mempool.TxHashes
import Palladium.Merkle.RoundTrip
import Palladium.Mining.Selection
import Palladium.Net.Bloom
import Palladium.Net.DownloadAccounting
import Palladium.Net.GetHeaders
import Palladium.Net.Reconstruction
import Palladium.Net.RollingBloom
import Palladium.Net.TimeData
import Palladium.Pow.Lwma
import Palladium.Primitives.Compressor
import Palladium.Psbt.Accepted
import Palladium.Psbt.Combine
import Palladium.Scheduler.Liveness
import Palladium.Script.Builder
import Palladium.Script.ConditionStack
import Palladium.Script.CuckooCache
import Palladium.Script.PartialMultisig
import Palladium.Script.Safety
import Palladium.Script.ScriptCode
import Palladium.Script.SigOps
import Palladium.Script.TaprootTree
import Palladium.Script.TapscriptWeight
import Palladium.Validation.ChainWork
import Palladium.Validation.CheckQueue
import Palladium.Validation.CrashRecovery
import Palladium.Validation.LockPoints
import Palladium.Validation.Pruning
import Palladium.Validation.Restart
import Palladium.Validation.TaprootReset
import Palladium.Validation.WitnessCommitment
import Palladium.Wallet.IsMine
