import Atho.Core.Network

/-! Errors of the validator and of the storage layer. -/

namespace Atho

inductive ValidationError where
  | noInputs
  | noOutputs
  | feeBelowMinimum
  | transactionTooLarge
  | invalidTransactionVersion
  | duplicateInput
  | zeroValueOutput
  | dustOutput
  | tooManyOutputs
  | legacyLockFormatRejected
  | invalidWitness
  | wrongTransactionPowBits
  | invalidTransactionPowNonce
  | invalidCoinbase
  | coinbaseRewardMismatch
  | emptyBlock
  | blockTooLarge
  | blockMerkleRootMismatch
  | blockWitnessRootMismatch
  | blockTargetOutOfBounds
  | proofOfWorkInvalid
  | blockParentHashMismatch
  | duplicateTransactionId
  | missingUtxo
  | inputOwnershipMismatch
  | insufficientConfirmations
  | witnessInputReferenceMismatch
  | feeMismatch
  | mempoolConflict
  | invalidBlockHeight
  | invalidBlockVersion
  | invalidBlockTimestamp
  | blockNetworkMismatch
  | multipleCoinbaseTransactions
  deriving DecidableEq, Repr

inductive StorageError where
  | validation (error : ValidationError)
  | io
  | lmdb
  | pathUnavailable
  | corruptData
  | persistedGenesisMismatch
  | persistedTipMismatch
  | incompleteBlockHistory
  | missingUtxo
  | duplicateUtxo
  | crossNetworkReplay
  | legacyStorageLayout
  | schemaVersionMismatch (expected found : UInt32)
  | storageMetadataMismatch (field : String)
  | noBlockToDisconnect
  | emptyBranch
  | forkPointUnavailable
  | invalidBranchSequence
  | branchNotPreferred
  | reorgTooDeep (depth maxDepth forkHeight currentHeight : UInt64)
  | rollbackFailure
  deriving DecidableEq, Repr

end Atho
