import Atho.Library.Bytes
import Atho.Library.Codec
import Atho.Library.Journal
import Atho.Library.Sha3
import Atho.Library.Checked
import Atho.Core.Network
import Atho.Core.Transaction
import Atho.Library.PairTree
import Atho.Library.BestOf
import Atho.Library.Cursor
import Atho.Library.ParentWalk
import Atho.Core.TransactionCodec
import Atho.Core.Block
import Atho.Core.Subsidy
import Atho.Core.Pow
import Atho.Core.Retarget
import Atho.Core.RetargetArithmetic
import Atho.Core.Genesis
import Atho.Core.BlockCodec
import Atho.Core.WitnessLeaf
import Atho.Core.TxPolicy
import Atho.Core.PowSolver
import Atho.Core.Address
import Atho.Storage.Error
import Atho.Storage.Utxo
import Atho.Storage.UtxoJournal
import Atho.Storage.Validation
import Atho.Storage.BlockValidation
import Atho.Storage.AcceptedBlock
import Atho.Storage.Chainstate
import Atho.Storage.ChainStep
import Atho.Storage.CanonicalChain
import Atho.Storage.Recall
import Atho.Storage.Restart
import Atho.Storage.Supply
import Atho.Storage.Unpruned
import Atho.Storage.ForkChoice
import Atho.Storage.FailedSelection
import Atho.Storage.Finality
import Atho.Storage.SnapshotBundle
import Atho.Storage.Commitment
import Atho.Storage.Authorization
import Atho.Storage.SpendHistory
import Atho.Storage.OverlayMap
import Atho.Storage.BlockFiles
import Atho.Storage.FileDurability
import Atho.Storage.Database
import Atho.Storage.TableWrites
import Atho.Storage.Archive
import Atho.Storage.PruneWindow
import Atho.Storage.Persistence
import Atho.Storage.Image
import Atho.P2p.DownloadAssignments
import Atho.P2p.SyncState
import Atho.P2p.WireCodec
import Atho.Wallet.Datafile
import Atho.Wallet.Freshness
import Atho.Wallet.Relay
import Atho.Wallet.Tampering
import Atho.Node.Admission
import Atho.Node.ChainVerification
import Atho.Node.CompactAnnouncement
import Atho.Node.HandshakeGate
import Atho.Node.HeaderServing
import Atho.Node.PoolConsistency
import Atho.Node.PoolRelatives
import Atho.Node.Reorganization
import Atho.Node.ReportedFees
import Atho.Node.SideBranchPool
import Atho.Node.BufferedBranches
import Atho.Node.BranchProcessing
import Atho.Qt.Amounts
