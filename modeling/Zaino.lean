import Zaino.ChainHead.Epochs
import Zaino.ChainHead.Coverage
import Zaino.ChainHead.Convergence
import Zaino.Transparent.ReportedScript
import Zaino.Transparent.Balance
import Zaino.Transparent.SpendStatus
import Zaino.Shielded.SubtreeCompletion
import Zaino.Persistence.Layout
import Zaino.Sync.Overlay
import Zaino.Lmdb.BulkMode
import Zaino.Lmdb.UnsyncedCrash
import Zaino.Store.RepairSoundness
import Zaino.ChainStore.V1.FailedWrite
import Zaino.Difficulty.CompactDifficulty
import Zaino.Core.BlockHash
import Zaino.BlockDecode.CoinbaseHeight
import Zaino.ChainStore.V1.MerkleBinding
import Zaino.ChainStore.V1.Validation
import Zaino.Lmdb.Checksum
import Zaino.Mempool.SuffixFilter
