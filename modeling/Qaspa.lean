import Qaspa.Utxo.RoundTrip
import Qaspa.Reachability.StagingCommit
import Qaspa.SelectedChain.Store
import Qaspa.Window.Transparency
import Qaspa.Header.CompressedParents
import Qaspa.Virtual.SinkSearch
import Qaspa.Virtual.MergeBound
import Qaspa.Relations.Refinement
import Qaspa.Depth.Building
import Qaspa.Pruning.Samples
import Qaspa.Script.SigOps
import Qaspa.Hashing.Tx
import Qaspa.Wallet.DelegationReplay
import Qaspa.Wallet.UtxoMaturity
import Qaspa.Wallet.StealthScan
import Qaspa.Mining.UtxoSet
import Qaspa.UtxoIndex.Paging
import Qaspa.Wallet.Pskt
import Qaspa.Wallet.ExtendedKey
import Qaspa.Core.Mass
import Qaspa.Math.Uint
import Qaspa.Bridge.ShareHandler
import Qaspa.Ghostdag.Agreement
