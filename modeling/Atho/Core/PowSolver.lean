import Mathlib.Logic.Relation
import Atho.Core.TxPolicy
import Atho.Library.Race

/-! The proof-of-work solver for transactions with its worker threads. -/

namespace Atho

open Relation

def transactionPowIsValid (crypto : Crypto) (network : Network) (tx : Transaction)
    (feeAtoms : UInt64) : Bool :=
  transactionPowIsValidForBits crypto network tx (requiredTxPowBits network tx feeAtoms)

structure TxPowSolveConfig where
  autoThreads : Bool
  threadPercent : UInt8
  maxThreads : Option Nat
  minThreads : Nat

namespace TxPowSolveConfig

def resolvedThreadCountForAvailable (config : TxPowSolveConfig) (availableThreads : Nat) : Nat :=
  let availableThreads := max availableThreads 1
  let minThreads := min (max config.minThreads 1) availableThreads
  let maxThreads := min (max (config.maxThreads.getD availableThreads) 1) availableThreads
  let threads :=
    if config.autoThreads then
      let percent := max 1 (min config.threadPercent.toNat 100)
      min (availableThreads * percent) (2 ^ 64 - 1) / 100
    else maxThreads
  let threads := if threads = 0 then 1 else threads
  max (min (max threads minThreads) maxThreads) 1

end TxPowSolveConfig

inductive TxPowCancelled where
  | cancelled
  deriving DecidableEq

/-- What the solver works on. -/
structure PowJob where
  crypto : Crypto
  preimage : Bytes 32
  requiredBits : UInt8
  startNonce : UInt64
  workerCount : Nat

namespace PowJob

def Good (job : PowJob) (nonce : UInt64) : Prop :=
  job.requiredBits.toNat ≤ leadingZeroBits (transactionPowHash job.crypto job.preimage nonce).toList

instance (job : PowJob) (nonce : UInt64) : Decidable (job.Good nonce) :=
  inferInstanceAs (Decidable (_ ≤ _))

def advance (job : PowJob) (candidate : UInt64) : UInt64 :=
  candidate + UInt64.ofNat job.workerCount

end PowJob

/-- Where the calling thread is. -/
inductive PowCaller where
  | spawning (workerIndex : Nat)
  | joining
  | single (nonce : UInt64)
  | returned (result : Except TxPowCancelled UInt64)

structure PowSolver where
  tx : Transaction
  shared : Race.Shared UInt64
  spawnFailed : Bool
  searchers : List (Race.Phase UInt64)
  caller : PowCaller

namespace PowSolver

/-- Ends the call with a nonce. -/
def solved (solver : PowSolver) (nonce : UInt64) : PowSolver :=
  { solver with
    tx := { solver.tx with txPowNonce := nonce }
    caller := .returned (.ok nonce) }

def cancelled (solver : PowSolver) : PowSolver :=
  { solver with
    tx := { solver.tx with txPowNonce := 0 }
    caller := .returned (.error .cancelled) }

/-- One step of one thread. Once all workers are started, the calling thread searches along
with them and then waits for them. -/
inductive Step (job : PowJob) : PowSolver → PowSolver → Prop
  | spawn {solver workerIndex} (hcaller : solver.caller = .spawning workerIndex)
      (hmore : workerIndex < job.workerCount) :
      Step job solver { solver with
        searchers := solver.searchers ++
          [.polling (job.startNonce + UInt64.ofNat workerIndex)]
        caller := .spawning (workerIndex + 1) }
  | spawnFails {solver workerIndex} (hcaller : solver.caller = .spawning workerIndex)
      (hmore : workerIndex < job.workerCount) :
      Step job solver { solver with
        spawnFailed := true
        shared := { solver.shared with abort := true }
        caller := .joining }
  | join {solver workerIndex} (hcaller : solver.caller = .spawning workerIndex)
      (hall : ¬workerIndex < job.workerCount) :
      Step job solver { solver with
        searchers := solver.searchers ++ [.polling job.startNonce]
        caller := .joining }
  | search {solver phase shared next} (front back : List (Race.Phase UInt64))
      (hsearchers : solver.searchers = front ++ phase :: back)
      (hstep : Race.Step job.Good job.advance solver.shared phase shared next) :
      Step job solver { solver with shared := shared, searchers := front ++ next :: back }
  | collect {solver} (hcaller : solver.caller = .joining)
      (hfinished : ∀ phase ∈ solver.searchers, phase = .finished)
      (hfound : solver.shared.found = true) :
      Step job solver (solver.solved solver.shared.slot)
  | fallBack {solver} (hcaller : solver.caller = .joining)
      (hfinished : ∀ phase ∈ solver.searchers, phase = .finished)
      (hfound : solver.shared.found = false) :
      Step job solver { solver with caller := .single job.startNonce }
  | stop {solver} (hcaller : solver.caller = .joining)
      (hfinished : ∀ phase ∈ solver.searchers, phase = .finished)
      (hfound : solver.shared.found = false) (hspawned : solver.spawnFailed = false) :
      Step job solver solver.cancelled
  | singleStop {solver nonce} (hcaller : solver.caller = .single nonce) :
      Step job solver solver.cancelled
  | singleHit {solver nonce} (hcaller : solver.caller = .single nonce) (hgood : job.Good nonce) :
      Step job solver (solver.solved nonce)
  | singleMiss {solver nonce} (hcaller : solver.caller = .single nonce)
      (hbad : ¬job.Good nonce) :
      Step job solver { solver with caller := .single (nonce + 1) }

/-- The call of the search for a job. -/
def solveTransactionPowWithWorkerCountAndCancel (job : PowJob) (tx : Transaction) : PowSolver where
  tx := tx
  shared := { found := false, slot := 0, abort := false }
  spawnFailed := false
  searchers := []
  caller := if job.workerCount ≤ 1 then .single job.startNonce else .spawning 1

/-- The transaction with the bits it has to have and no nonce yet. -/
def staged (network : Network) (tx : Transaction) (feeAtoms : UInt64) : Transaction :=
  { tx with txPowBits := requiredTxPowBits network tx feeAtoms, txPowNonce := 0 }

/-- The job that a call sets up; the start is drawn at random and the number of threads that
the machine offers is read when the call is made. -/
def jobFor (crypto : Crypto) (network : Network) (tx : Transaction) (feeAtoms : UInt64)
    (config : TxPowSolveConfig) (availableThreads : Nat) (startNonce : UInt64) : PowJob where
  crypto := crypto
  preimage := transactionPowPreimage crypto network (staged network tx feeAtoms)
  requiredBits := requiredTxPowBits network tx feeAtoms
  startNonce := startNonce
  workerCount := max (config.resolvedThreadCountForAvailable availableThreads) 1

def solveTransactionPowWithConfigAndCancel (crypto : Crypto) (network : Network) (tx : Transaction)
    (feeAtoms : UInt64) (config : TxPowSolveConfig) (availableThreads : Nat)
    (startNonce : UInt64) : PowSolver :=
  let job := jobFor crypto network tx feeAtoms config availableThreads startNonce
  let start := solveTransactionPowWithWorkerCountAndCancel job (staged network tx feeAtoms)
  if job.requiredBits = 0 then { start with caller := .returned (.ok 0) } else start

/-! What holds under every interleaving. -/

/-- The transaction is touched in its nonce only, and a nonce that is returned is good and
written into it. -/
structure Sound (job : PowJob) (tx : Transaction) (solver : PowSolver) : Prop where
  race : Race.Consistent job.Good solver.shared solver.searchers
  frame : ∃ nonce, solver.tx = { tx with txPowNonce := nonce }
  result : ∀ nonce, solver.caller = .returned (.ok nonce) →
    solver.tx.txPowNonce = nonce ∧ job.Good nonce

variable {job : PowJob} {tx : Transaction} {solver next : PowSolver}

theorem Sound.solved (hsound : Sound job tx solver) {nonce : UInt64} (hgood : job.Good nonce) :
    Sound job tx (solver.solved nonce) := by
  obtain ⟨old, htx⟩ := hsound.frame
  refine ⟨hsound.race, ⟨nonce, by rw [PowSolver.solved, htx]⟩, ?_⟩
  intro returned hreturned
  obtain rfl : nonce = returned := by
    simpa [PowSolver.solved] using hreturned
  exact ⟨rfl, hgood⟩

theorem Sound.cancelled (hsound : Sound job tx solver) : Sound job tx solver.cancelled := by
  obtain ⟨old, htx⟩ := hsound.frame
  refine ⟨hsound.race, ⟨0, by rw [PowSolver.cancelled, htx]⟩, ?_⟩
  intro returned hreturned
  simp [PowSolver.cancelled] at hreturned

theorem Sound.step (hsound : Sound job tx solver) (hstep : Step job solver next) :
    Sound job tx next := by
  cases hstep with
  | spawn => exact ⟨hsound.race.start _, hsound.frame, by simp⟩
  | spawnFails => exact ⟨hsound.race.withAbort, hsound.frame, by simp⟩
  | join => exact ⟨hsound.race.start _, hsound.frame, by simp⟩
  | search front back hsearchers hstep =>
      have hrace := hsound.race
      rw [hsearchers] at hrace
      exact ⟨hrace.step hstep, hsound.frame, hsound.result⟩
  | collect hcaller hfinished hfound =>
      exact hsound.solved (hsound.race.good_slot hfinished hfound)
  | fallBack => exact ⟨hsound.race, hsound.frame, by simp⟩
  | stop => exact hsound.cancelled
  | singleStop => exact hsound.cancelled
  | singleHit hcaller hgood => exact hsound.solved hgood
  | singleMiss => exact ⟨hsound.race, hsound.frame, by simp⟩

theorem Sound.run (hsound : Sound job tx solver) (hrun : ReflTransGen (Step job) solver next) :
    Sound job tx next := by
  induction hrun with
  | refl => exact hsound
  | tail _ hstep ih => exact ih.step hstep

section

variable {crypto : Crypto} {network : Network} {feeAtoms : UInt64} {config : TxPowSolveConfig}
  {availableThreads : Nat} {startNonce : UInt64}

theorem sound_start :
    Sound (jobFor crypto network tx feeAtoms config availableThreads startNonce)
      (staged network tx feeAtoms)
      (solveTransactionPowWithConfigAndCancel crypto network tx feeAtoms config availableThreads
        startNonce) := by
  have hrace : Race.Consistent
      (jobFor crypto network tx feeAtoms config availableThreads startNonce).Good
      { found := false, slot := 0, abort := false } [] := ⟨by simp, by simp⟩
  unfold solveTransactionPowWithConfigAndCancel
  dsimp only
  split
  · next hzero =>
      refine ⟨hrace, ⟨0, rfl⟩, ?_⟩
      intro nonce hreturned
      obtain rfl : 0 = nonce := by simpa using hreturned
      refine ⟨rfl, ?_⟩
      rw [PowJob.Good, hzero]
      exact Nat.zero_le _
  · refine ⟨hrace, ⟨0, rfl⟩, ?_⟩
    intro nonce hreturned
    rw [solveTransactionPowWithWorkerCountAndCancel] at hreturned
    dsimp only at hreturned
    split at hreturned <;> cases hreturned

theorem run_returned {final : PowSolver} {nonce : UInt64}
    (hrun : ReflTransGen (Step (jobFor crypto network tx feeAtoms config availableThreads startNonce))
      (solveTransactionPowWithConfigAndCancel crypto network tx feeAtoms config availableThreads
        startNonce) final)
    (hreturned : final.caller = .returned (.ok nonce)) :
    final.tx = { staged network tx feeAtoms with txPowNonce := nonce } ∧
      (jobFor crypto network tx feeAtoms config availableThreads startNonce).Good nonce := by
  have hsound := sound_start.run hrun
  obtain ⟨hnonce, hgood⟩ := hsound.result nonce hreturned
  obtain ⟨written, htx⟩ := hsound.frame
  refine ⟨?_, hgood⟩
  rw [htx] at hnonce
  rw [htx, ← hnonce]

theorem run_refines {final : PowSolver} {nonce : UInt64}
    (hrun : ReflTransGen (Step (jobFor crypto network tx feeAtoms config availableThreads startNonce))
      (solveTransactionPowWithConfigAndCancel crypto network tx feeAtoms config availableThreads
        startNonce) final)
    (hreturned : final.caller = .returned (.ok nonce))
    (hbits : requiredTxPowBits network tx feeAtoms ≠ 0) :
    solveTransactionPow crypto network tx feeAtoms nonce = some final.tx := by
  obtain ⟨htx, hgood⟩ := run_returned hrun hreturned
  have hfirst (remaining : Nat) : findTransactionPowNonce crypto
      (transactionPowPreimage crypto network (staged network tx feeAtoms))
      (requiredTxPowBits network tx feeAtoms) (remaining + 1) nonce = some nonce :=
    if_pos hgood
  rw [solveTransactionPow, if_neg hbits, htx]
  exact congrArg (Option.map _) (hfirst (2 ^ 64 - 1))

/-- Whatever the threads do, a nonce that is returned is a proof of work for the transaction,
of which nothing else has changed. -/
theorem returned_transaction_valid {final : PowSolver} {nonce : UInt64}
    (hrun : ReflTransGen (Step (jobFor crypto network tx feeAtoms config availableThreads startNonce))
      (solveTransactionPowWithConfigAndCancel crypto network tx feeAtoms config availableThreads
        startNonce) final)
    (hreturned : final.caller = .returned (.ok nonce)) :
    transactionPowIsValid crypto network final.tx feeAtoms = true ∧
      final.tx = { tx with
        txPowNonce := final.tx.txPowNonce
        txPowBits := final.tx.txPowBits } := by
  obtain ⟨htx, hgood⟩ := run_returned hrun hreturned
  rw [htx]
  refine ⟨?_, rfl⟩
  -- neither the bits asked for nor what is hashed depend on the two fields
  change transactionPowIsValidForBits crypto network _ (requiredTxPowBits network tx feeAtoms) = true
  unfold transactionPowIsValidForBits
  split
  · rfl
  · exact (if_neg (not_not.mpr rfl)).trans (decide_eq_true hgood)

end

def racedPayment : Transaction where
  version := 1
  inputs := [⟨.ofNat 48 1, 0, []⟩]
  outputs := [⟨5000, List.replicate 32 7⟩]
  lockTime := 0
  witness := []
  txPowNonce := 0
  txPowBits := 0

def twoThreads : TxPowSolveConfig where
  autoThreads := false
  threadPercent := 75
  maxThreads := some 2
  minThreads := 1

/-- The second thread wins while the calling thread leaves its search. -/
theorem returned_transaction_valid_raced : ∃ final : PowSolver,
    final.caller = .returned (.ok 5632) ∧
      transactionPowIsValid .hashing .testnet final.tx 500 = true ∧
      final.tx = { racedPayment with
        txPowNonce := final.tx.txPowNonce
        txPowBits := final.tx.txPowBits } := by
  have hgood : (jobFor .hashing .testnet racedPayment 500 twoThreads 2 5631).Good 5632 := by
    decide +kernel
  have hrun := (((((((ReflTransGen.single
    (@Step.spawn _ (solveTransactionPowWithConfigAndCancel .hashing .testnet racedPayment 500
      twoThreads 2 5631) _ rfl (by decide))).tail
    (.join rfl (by decide))).tail
    (.search [] [.polling 5631] rfl .enter)).tail
    (.search [] [.polling 5631] rfl (.hit hgood))).tail
    (.search [] [.polling 5631] rfl (.claim rfl))).tail
    (.search [.publishing 5632] [] rfl (.leave true false false (fun _ => rfl) nofun rfl))).tail
    (.search [] [.finished] rfl .publish)).tail
    (.collect rfl (by simp) rfl)
  exact ⟨_, rfl, returned_transaction_valid hrun rfl⟩

end PowSolver

end Atho
