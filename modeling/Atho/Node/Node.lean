import Atho.Node.ChainVerification
import Atho.Node.Mempool
import Atho.Storage.SnapshotBundle

/-! The node: a chainstate and a mempool that follows it. -/

namespace Atho

/-- The fee that a transaction pays, if its inputs are all there. -/
def transactionFeeFromLookup (tx : Transaction) (lookup : UtxoKey → Option UtxoEntry) :
    Option UInt64 :=
  if tx.isCoinbase then none
  else do
    let inputTotal ← tx.inputs.foldlM
      (fun (total : UInt64) input => do total.checkedAdd (← lookup input.key).valueAtoms) 0
    inputTotal.checkedSub (← tx.checkedOutputValueAtoms)

structure Node (σ : Type) where
  chainstate : Chainstate σ
  mempool : Mempool

namespace Node

variable {σ : Type}

section

variable (crypto : Crypto)

def revalidateMempoolIfNeeded (node : Node σ) : Node σ :=
  if node.mempool.entries.isEmpty then node
  else
    { node with
      mempool := node.mempool.revalidate crypto node.chainstate.network node.chainstate.height
        node.chainstate.utxos.get }

/-- Offer a transaction of a disconnected block to the pool, whatever becomes of it. -/
def reoffer (chainstate : Chainstate σ) (pool : Mempool) (tx : Transaction) : Mempool :=
  match transactionFeeFromLookup tx chainstate.utxos.get with
  | none => pool
  | some feeAtoms =>
      (pool.admitEntry crypto (.new crypto tx feeAtoms) chainstate.network chainstate.height
        chainstate.utxos.get).2

/-- The transactions of disconnected blocks, without the first one of each. -/
def disconnectedTransactions (disconnected : List Block) : List Transaction :=
  disconnected.flatMap fun block => block.transactions.tail

end

def importSnapshotBundle (host : Host σ) (node : Node σ) (bundle : ChainSnapshotBundle) :
    Except NodeError Unit × Node σ :=
  match node.chainstate.importSnapshotBundle host bundle with
  | (.error err, chainstate) => (.error (.storage err), { node with chainstate := chainstate })
  | (.ok _, chainstate) =>
      (.ok (), { node with chainstate := chainstate }.revalidateMempoolIfNeeded host.crypto)

def connectBlock (host : Host σ) (now : UInt64) (node : Node σ) (block : Block) :
    Except NodeError Unit × Node σ :=
  match node.chainstate.connectBlock host now block with
  | (.error (.validation err), chainstate) =>
      (.error (.validation err), { node with chainstate := chainstate })
  | (.error err, chainstate) => (.error (.storage err), { node with chainstate := chainstate })
  | (.ok _, chainstate) =>
      (.ok (),
        revalidateMempoolIfNeeded host.crypto
          ⟨chainstate, node.mempool.removeBlockTransactions host.crypto block⟩)

def admitTransaction (crypto : Crypto) (node : Node σ) (entry : MempoolEntry) :
    Except NodeError (Bytes 48) × Node σ :=
  match node.mempool.admitEntry crypto entry node.chainstate.network node.chainstate.height
      node.chainstate.utxos.get with
  | (.error err, pool) => (.error (.validation err), { node with mempool := pool })
  | (.ok txid, pool) => (.ok txid, { node with mempool := pool })

def considerBranch (host : Host σ) (now : UInt64) (node : Node σ) (branch : List Block) :
    Except NodeError ChainSelectionResult × Node σ :=
  match node.chainstate.selectBranch host now branch with
  | (.error err, chainstate) => (.error (.storage err), { node with chainstate := chainstate })
  | (.ok selection, chainstate) =>
      let node := { node with chainstate := chainstate }
      if selection.outcome = .keptCurrent then (.ok selection, node)
      else
        let confirmed := branch.foldl (Mempool.removeBlockTransactions host.crypto) node.mempool
        let readmitted :=
          if selection.outcome = .reorged then
            (disconnectedTransactions selection.disconnected).foldl
              (reoffer host.crypto chainstate) confirmed
          else confirmed
        (.ok selection,
          { node with mempool := readmitted }.revalidateMempoolIfNeeded host.crypto)

/-! Runs. -/

/-- A call that changes the node, at the time it is made. -/
inductive Call where
  | importSnapshotBundle (bundle : ChainSnapshotBundle)
  | connectBlock (now : UInt64) (block : Block)
  | admitTransaction (entry : MempoolEntry)
  | considerBranch (now : UInt64) (branch : List Block)

def call (host : Host σ) (node : Node σ) : Call → Node σ
  | .importSnapshotBundle bundle => (node.importSnapshotBundle host bundle).2
  | .connectBlock now block => (node.connectBlock host now block).2
  | .admitTransaction entry => (node.admitTransaction host.crypto entry).2
  | .considerBranch now branch => (node.considerBranch host now branch).2

def run (host : Host σ) (node : Node σ) (calls : List Call) : Node σ :=
  calls.foldl (call host) node

end Node

end Atho
