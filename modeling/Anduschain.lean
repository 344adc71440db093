import Anduschain.FairnodeMessage
import Anduschain.OtprnDraws
import Anduschain.JoinNonce
import Anduschain.ChainIdentity
import Anduschain.BlockFetcher
import Anduschain.WorkerCommit
import Anduschain.RemoteInputs
import Anduschain.AcceptedBlocks
import Anduschain.HeaviestHead
import Anduschain.HeaderSafety
import Anduschain.BlockRoots
import Anduschain.PoolRefusal
import Anduschain.LeagueMembership
import Anduschain.LeagueStuck
import Anduschain.FairnodeSync
import Anduschain.LeaguePeers
import Anduschain.ResultStability
import Anduschain.FreeGas
import Anduschain.NonceSafety
import Anduschain.TxJson
import Anduschain.RlpCanonical
import Anduschain.PoolJoins
import Anduschain.SealCache
import Anduschain.SelfVotes
import Anduschain.SnapshotSearch
import Anduschain.RollupEvents
import Anduschain.L1MessageSync
import Anduschain.Orderer
import Anduschain.HeaderBatches
import Anduschain.MerkleProofs
import Anduschain.VmCalls
import Anduschain.VmArithmetic
