import Std.Data.TreeMap.Lemmas
import Atho.P2p.Protocol
import Atho.Storage.AcceptedBlock

/-! The target of the header sync: what the node has been told about the best chain. -/

namespace Atho

def maxOutstandingHeaderLocatorsPerPeer : Nat := 16

structure SyncState where
  bestHeight : UInt64 := 0
  headersSynced : Bool := false
  bestTip : Option Hash48 := none
  bestChainwork : Option Hash48 := none
  inflightHeadersPeer : Option String := none
  locatorHashes : List Hash48 := []
  requestedLocatorHashes : List Hash48 := []
  requestedLocatorHashesByPeer : Std.TreeMap String (List (List Hash48)) := ∅

structure ChainTipCandidate where
  height : UInt64
  tip : Option Hash48
  chainwork : Option Hash48

/-- Zero stands for work that is not known. -/
def knownChainwork (chainwork : Option Hash48) : Option Hash48 :=
  chainwork.filter (· ≠ .zero 48)

def compareTipCandidates (candidate current : ChainTipCandidate) : Ordering :=
  match candidate.chainwork, current.chainwork with
  | some candidateWork, some currentWork =>
      if candidateWork ≠ currentWork then compare candidateWork currentWork
      else compare candidate.height current.height
  | _, _ => compare candidate.height current.height

/-! Locators. -/

/-- The positions of a locator: ten single steps back, then steps that double. -/
def locatorIndexes : (rounds index step taken : Nat) → List Nat
  | 0, index, _, _ => [index]
  | rounds + 1, index, step, taken =>
      if index = 0 then [index]
      else
        let step := if 10 ≤ taken + 1 then step * 2 else step
        if index - step = 0 then [index, 0]
        else index :: locatorIndexes rounds (index - step) step (taken + 1)

def blockLocator (crypto : Crypto) (blocks : List Block) : List Hash48 :=
  if blocks.isEmpty then []
  else
    -- the position falls in every round, so that there are never more rounds than blocks
    (locatorIndexes (blocks.length - 1) (blocks.length - 1) 1 0).filterMap fun index =>
      blocks[index]?.map fun block => block.header.blockHash crypto

def chainworkHash (blocks : List Block) : Hash48 :=
  .ofNat 48 (accumulatedChainWork blocks)

namespace SyncState

def clearRequestedHeaderLocators (state : SyncState) : SyncState :=
  { state with
    inflightHeadersPeer := none
    requestedLocatorHashes := []
    requestedLocatorHashesByPeer := ∅ }

/-! Priming. -/

def primeWithLocatorAndChainwork (bestHeight : UInt64) (bestTip bestChainwork : Option Hash48)
    (locatorHashes : List Hash48) (state : SyncState) : SyncState :=
  { clearRequestedHeaderLocators { state with
      bestHeight := bestHeight
      bestTip := bestTip
      bestChainwork := knownChainwork bestChainwork
      locatorHashes := locatorHashes } with
    headersSynced := true }

def primeWithLocator (bestHeight : UInt64) (bestTip : Option Hash48)
    (locatorHashes : List Hash48) (state : SyncState) : SyncState :=
  state.primeWithLocatorAndChainwork bestHeight bestTip none locatorHashes

def prime (crypto : Crypto) (blocks : List Block) (state : SyncState) : SyncState :=
  state.primeWithLocatorAndChainwork ((blocks.getLast?.map fun block => block.header.height).getD 0)
    (blocks.getLast?.map fun block => block.header.blockHash crypto) (some (chainworkHash blocks))
    (blockLocator crypto blocks)

/-! Headers. -/

def requestHeaders (peer : String) (state : SyncState) : SyncState :=
  let locators := state.requestedLocatorHashesByPeer[peer]?.getD [] ++ [state.locatorHashes]
  { state with
    inflightHeadersPeer := some peer
    requestedLocatorHashes := state.locatorHashes
    requestedLocatorHashesByPeer := state.requestedLocatorHashesByPeer.insert peer
      (locators.drop (locators.length - maxOutstandingHeaderLocatorsPerPeer)) }

/-- Every header builds on the one before it. -/
def linked (crypto : Crypto) : List BlockHeader → Bool
  | left :: right :: rest =>
      right.previousBlockHash == left.blockHash crypto &&
        right.height == left.height.saturatingAdd 1 && linked crypto (right :: rest)
  | _ => true

def acceptHeadersWithLocator (crypto : Crypto) (network : Network) (headers : List BlockHeader)
    (requestedLocatorHashes : List Hash48) (state : SyncState) :
    Except ProtocolError SyncState := do
  rejectWhen (headers.length > maxHeadersPerMessage) .tooManyHeaders
  rejectWhen (headers.head?.any fun first => !requestedLocatorHashes.isEmpty &&
    !requestedLocatorHashes.contains first.previousBlockHash) .invalidHeadersSequence
  rejectWhen (headers.any fun header => header.networkId != network ||
    !targetWithinBounds header.difficultyTargetOrBits ||
    !meetsTarget (header.blockHash crypto) header.difficultyTargetOrBits) .invalidHeadersSequence
  rejectWhen (!linked crypto headers) .invalidHeadersSequence
  match headers.getLast? with
  | none => pure { state with headersSynced := true }
  | some last =>
      let reachesPriorTarget : Bool := last.height ≥ state.bestHeight
      let hash := last.blockHash crypto
      let advance := reachesPriorTarget || !state.headersSynced
      pure { state with
        bestHeight := max state.bestHeight last.height
        bestTip := if advance then some hash else state.bestTip
        locatorHashes :=
          if advance then (hash :: state.locatorHashes.filter (· ≠ hash)).take maxLocatorHashes
          else state.locatorHashes
        headersSynced :=
          if reachesPriorTarget then headers.length < maxHeadersPerMessage
          else state.headersSynced }

def acceptHeaders (crypto : Crypto) (network : Network) (headers : List BlockHeader)
    (state : SyncState) : Except ProtocolError Unit × SyncState :=
  match state.acceptHeadersWithLocator crypto network headers state.requestedLocatorHashes with
  | .error err => (.error err, state)
  | .ok accepted => (.ok (), accepted.clearRequestedHeaderLocators)

/-- The locator a batch of headers answers; it is no longer outstanding. -/
def takeRequestedLocatorForHeaders (peer : String) (headers : List BlockHeader)
    (state : SyncState) : Option (List Hash48) × SyncState :=
  match state.requestedLocatorHashesByPeer[peer]? with
  | none => (none, state)
  | some locators =>
      let (locator, isMatched, rest) : List Hash48 × Bool × List (List Hash48) :=
        match headers.head? with
        | some first =>
            match locators.findIdx? (·.contains first.previousBlockHash) with
            | some index => (locators.getD index [], true, locators.eraseIdx index)
            | none => (locators.headD [], false, locators)
        | none =>
            match locators with
            | [] => ([], false, [])
            | locator :: rest => (locator, true, rest)
      let others := state.requestedLocatorHashesByPeer.erase peer
      (some locator, { state with
        requestedLocatorHashesByPeer :=
          if !rest.isEmpty || !isMatched then others.insert peer rest else others })

def acceptHeadersFromPeer (crypto : Crypto) (peer : String) (network : Network)
    (headers : List BlockHeader) (state : SyncState) : Except ProtocolError Unit × SyncState :=
  let (locator, state) := state.takeRequestedLocatorForHeaders peer headers
  match state.acceptHeadersWithLocator crypto network headers
      (locator.getD state.requestedLocatorHashes) with
  | .error err => (.error err, state)
  | .ok accepted =>
      (.ok (), if accepted.inflightHeadersPeer = some peer then
        { accepted with inflightHeadersPeer := none } else accepted)

/-! Tips. -/

def target (state : SyncState) : ChainTipCandidate :=
  ⟨state.bestHeight, state.bestTip, state.bestChainwork⟩

def observeTip (observedHeight : UInt64) (observedTip observedChainwork : Option Hash48)
    (state : SyncState) : Bool × SyncState :=
  let observed : ChainTipCandidate :=
    ⟨observedHeight, observedTip, knownChainwork observedChainwork⟩
  if (compareTipCandidates observed state.target).isGT then
    (true, { state with
      bestHeight := observed.height
      bestTip := observed.tip
      bestChainwork := observed.chainwork
      headersSynced := false })
  else (false, state)

def noteLocalTip (localHeight : UInt64) (localTip localChainwork : Option Hash48)
    (state : SyncState) : SyncState :=
  let candidate : ChainTipCandidate := ⟨localHeight, localTip, knownChainwork localChainwork⟩
  if (compareTipCandidates candidate state.target).isGE then
    clearRequestedHeaderLocators { state with
      bestHeight := candidate.height
      bestTip := candidate.tip
      bestChainwork := candidate.chainwork.or state.bestChainwork
      headersSynced := true }
  else { state with headersSynced := false }

def localTipSatisfiesTarget (localHeight : UInt64) (localTip localChainwork : Option Hash48)
    (state : SyncState) : Bool :=
  (compareTipCandidates ⟨localHeight, localTip, knownChainwork localChainwork⟩ state.target).isGE

/-! Whole runs. -/

inductive Call where
  | observeTip (height : UInt64) (tip chainwork : Option Hash48)
  | noteLocalTip (height : UInt64) (tip chainwork : Option Hash48)
  | requestHeaders (peer : String)
  | acceptHeaders (network : Network) (headers : List BlockHeader)
  | acceptHeadersFromPeer (peer : String) (network : Network) (headers : List BlockHeader)

/-- The last header of a batch the call accepted, if any, and the state after it. -/
def perform (crypto : Crypto) (state : SyncState) : Call → Option BlockHeader × SyncState
  | .observeTip height tip chainwork => (none, (state.observeTip height tip chainwork).2)
  | .noteLocalTip height tip chainwork => (none, state.noteLocalTip height tip chainwork)
  | .requestHeaders peer => (none, state.requestHeaders peer)
  | .acceptHeaders network headers =>
      let (result, after) := state.acceptHeaders crypto network headers
      (if result.toBool then headers.getLast? else none, after)
  | .acceptHeadersFromPeer peer network headers =>
      let (result, after) := state.acceptHeadersFromPeer crypto peer network headers
      (if result.toBool then headers.getLast? else none, after)

def run (crypto : Crypto) (state : SyncState) (calls : List Call) : SyncState :=
  calls.foldl (fun state call => (state.perform crypto call).2) state

/-- The last headers of the batches that a run accepted. -/
def acceptedTips (crypto : Crypto) : SyncState → List Call → List BlockHeader
  | _, [] => []
  | state, call :: calls =>
      (state.perform crypto call).1.toList ++
        acceptedTips crypto (state.perform crypto call).2 calls

end SyncState

/-! One block tree. -/

/-- The header has this much work behind it in the tree that grows from `root`. -/
inductive HasWork (crypto : Crypto) (root : BlockHeader) : BlockHeader → Nat → Prop where
  | root (htarget : targetWithinBounds root.difficultyTargetOrBits = true) :
      HasWork crypto root root (blockProof root.difficultyTargetOrBits)
  | child {parent header : BlockHeader} {work : Nat} (hparent : HasWork crypto root parent work)
      (hprevious : header.previousBlockHash = parent.blockHash crypto)
      (hheight : header.height = parent.height.saturatingAdd 1)
      (htarget : targetWithinBounds header.difficultyTargetOrBits = true) :
      HasWork crypto root header (work + blockProof header.difficultyTargetOrBits)

/-- The arguments name a header of the tree with its own height and its own work. -/
def TrueTip (crypto : Crypto) (root : BlockHeader) (height : UInt64)
    (tip chainwork : Option Hash48) : Prop :=
  ∃ header work, HasWork crypto root header (Bytes.toNat work) ∧ height = header.height ∧
    tip = some (header.blockHash crypto) ∧ chainwork = some work

theorem blockProof_pos {target : Bytes 48} (htarget : targetWithinBounds target = true) :
    0 < blockProof target := by
  have hmax : maxDifficultyTarget.toNat = 0xFFF := by decide
  have hge : 0xFFF ≤ target.toNat := by
    rw [targetWithinBounds, Bool.and_eq_true, Bytes.compare_eq_compare_toNat, hmax] at htarget
    exact Nat.isGE_compare.mp htarget.1
  rw [blockProof, if_neg (by omega)]
  exact Nat.succ_pos _

variable {crypto : Crypto} {root : BlockHeader}

theorem HasWork.pos {header : BlockHeader} {work : Nat} (hwork : HasWork crypto root header work) :
    0 < work := by
  cases hwork with
  | root htarget => exact blockProof_pos htarget
  | child hparent hprevious hheight htarget => exact Nat.add_pos_right _ (blockProof_pos htarget)

theorem knownChainwork_of_pos {work : Hash48} (hpos : 0 < work.toNat) :
    knownChainwork (some work) = some work := by
  have hne : work ≠ .zero 48 := by
    rintro rfl
    exact absurd hpos (by decide)
  rw [knownChainwork, Option.filter_some, if_pos (decide_eq_true hne)]

theorem le_of_isGE {candidate current : ChainTipCandidate} {work target : Hash48}
    (hwork : candidate.chainwork = some work) (htarget : current.chainwork = some target)
    (hge : (compareTipCandidates candidate current).isGE) : target.toNat ≤ work.toNat := by
  rw [compareTipCandidates, hwork, htarget] at hge
  dsimp only at hge
  split at hge
  · rw [Bytes.compare_eq_compare_toNat] at hge
    exact Nat.isGE_compare.mp hge
  · next hsame => rw [not_not.mp hsame]

theorem le_of_not_isGT {candidate current : ChainTipCandidate} {work target : Hash48}
    (hwork : candidate.chainwork = some work) (htarget : current.chainwork = some target)
    (hgt : ¬(compareTipCandidates candidate current).isGT) : work.toNat ≤ target.toNat := by
  rw [compareTipCandidates, hwork, htarget] at hgt
  dsimp only at hgt
  split at hgt
  · rw [Bytes.compare_eq_compare_toNat, Ordering.isGT_iff_eq_gt, compare_gt_iff_gt] at hgt
    exact not_lt.mp hgt
  · next hsame => rw [not_not.mp hsame]

namespace SyncState

/-- The work a call reports for a tip. -/
def Call.reported : Call → Option Hash48
  | .observeTip _ _ chainwork => chainwork
  | .noteLocalTip _ _ chainwork => chainwork
  | _ => none

/-- Tips are reported as they are in the tree, and headers belong to it. -/
def Call.Truthful (crypto : Crypto) (root : BlockHeader) : Call → Prop
  | .observeTip height tip chainwork => TrueTip crypto root height tip chainwork
  | .noteLocalTip height tip chainwork => TrueTip crypto root height tip chainwork
  | .requestHeaders _ => True
  | .acceptHeaders _ headers => ∀ header ∈ headers, ∃ work, HasWork crypto root header work
  | .acceptHeadersFromPeer _ _ headers =>
      ∀ header ∈ headers, ∃ work, HasWork crypto root header work

theorem acceptHeadersWithLocator_chainwork {network : Network} {headers : List BlockHeader}
    {requested : List Hash48} {state accepted : SyncState}
    (haccept : state.acceptHeadersWithLocator crypto network headers requested = .ok accepted) :
    accepted.bestChainwork = state.bestChainwork := by
  simp only [acceptHeadersWithLocator, bind_eq_ok, rejectWhen_eq_ok] at haccept
  obtain ⟨-, -, -, -, -, -, -, -, haccept⟩ := haccept
  split at haccept <;> (obtain rfl := pure_eq_ok.mp haccept; rfl)

theorem takeRequestedLocator_chainwork {peer : String} {headers : List BlockHeader}
    {state : SyncState} :
    (state.takeRequestedLocatorForHeaders peer headers).2.bestChainwork = state.bestChainwork := by
  unfold takeRequestedLocatorForHeaders
  split <;> rfl

theorem acceptHeaders_chainwork {network : Network} {headers : List BlockHeader}
    {state : SyncState} :
    (state.acceptHeaders crypto network headers).2.bestChainwork = state.bestChainwork := by
  unfold acceptHeaders
  split
  · rfl
  · next accepted haccept =>
      have hsame := acceptHeadersWithLocator_chainwork haccept
      exact hsame

theorem acceptHeadersFromPeer_chainwork {peer : String} {network : Network}
    {headers : List BlockHeader} {state : SyncState} :
    (state.acceptHeadersFromPeer crypto peer network headers).2.bestChainwork =
      state.bestChainwork := by
  have htake := @takeRequestedLocator_chainwork peer headers state
  unfold acceptHeadersFromPeer
  dsimp only
  split
  · exact htake
  · next accepted haccept =>
      rw [← htake, ← acceptHeadersWithLocator_chainwork haccept]
      split <;> rfl

theorem perform_tracks {call : Call} {state : SyncState} {work : Hash48}
    (htruthful : call.Truthful crypto root) (hwork : state.bestChainwork = some work) :
    ∃ next : Hash48, (state.perform crypto call).2.bestChainwork = some next ∧
      work.toNat ≤ next.toNat ∧
      ∀ reported, call.reported = some reported → reported.toNat ≤ next.toNat := by
  cases call with
  | observeTip height tip chainwork =>
      obtain ⟨header, observed, htip, -, -, rfl⟩ := htruthful
      have hknown := knownChainwork_of_pos htip.pos
      simp only [perform, SyncState.observeTip, hknown]
      split
      · next hgt =>
          have hge : (compareTipCandidates ⟨height, tip, some observed⟩ state.target).isGE := by
            rw [Ordering.isGT_iff_eq_gt.mp hgt]
            rfl
          refine ⟨observed, rfl, le_of_isGE rfl hwork hge, ?_⟩
          rintro reported ⟨rfl⟩
          exact le_rfl
      · next hgt =>
          refine ⟨work, hwork, le_rfl, ?_⟩
          rintro reported ⟨rfl⟩
          exact @le_of_not_isGT ⟨height, tip, some observed⟩ state.target _ _ rfl hwork hgt
  | noteLocalTip height tip chainwork =>
      obtain ⟨header, noted, htip, -, -, rfl⟩ := htruthful
      have hknown := knownChainwork_of_pos htip.pos
      simp only [perform, SyncState.noteLocalTip, hknown]
      split
      · next hge =>
          have hle := @le_of_isGE ⟨height, tip, some noted⟩ state.target _ _ rfl hwork hge
          refine ⟨noted, rfl, hle, ?_⟩
          rintro reported ⟨rfl⟩
          exact le_rfl
      · next hge =>
          refine ⟨work, hwork, le_rfl, ?_⟩
          rintro reported ⟨rfl⟩
          refine @le_of_not_isGT ⟨height, tip, some noted⟩ state.target _ _ rfl hwork fun hgt => hge ?_
          rw [Ordering.isGT_iff_eq_gt.mp hgt]
          rfl
  | requestHeaders peer => exact ⟨work, hwork, le_rfl, nofun⟩
  | acceptHeaders network headers =>
      exact ⟨work, acceptHeaders_chainwork.trans hwork, le_rfl, nofun⟩
  | acceptHeadersFromPeer peer network headers =>
      exact ⟨work, acceptHeadersFromPeer_chainwork.trans hwork, le_rfl, nofun⟩

theorem run_tracks {calls : List Call} {state : SyncState} {work : Hash48}
    (htruthful : ∀ call ∈ calls, call.Truthful crypto root)
    (hwork : state.bestChainwork = some work) :
    ∃ final : Hash48, (state.run crypto calls).bestChainwork = some final ∧
      work.toNat ≤ final.toNat ∧
      ∀ call ∈ calls, ∀ reported, call.reported = some reported →
        reported.toNat ≤ final.toNat := by
  induction calls generalizing state work with
  | nil => exact ⟨work, hwork, le_rfl, nofun⟩
  | cons call calls ih =>
      obtain ⟨hcall, hcalls⟩ := List.forall_mem_cons.mp htruthful
      obtain ⟨next, hnext, hle, hreported⟩ := perform_tracks hcall hwork
      obtain ⟨final, hfinal, hle', hrest⟩ := ih hcalls hnext
      refine ⟨final, hfinal, hle.trans hle', List.forall_mem_cons.mpr ⟨?_, hrest⟩⟩
      exact fun reported hcall => (hreported reported hcall).trans hle'

/-- A local tip that satisfies the target has at least the work of everything the node was
told about, when no accepted header goes beyond the tips whose work was reported. -/
theorem satisfied_target_bounds_work (crypto : Crypto) (root : BlockHeader) (before : SyncState)
    (height : UInt64) (tip : Option Hash48) (chainwork : Hash48) (locator : List Hash48)
    (calls : List Call) (localHeight : UInt64) (localTip : Option Hash48) (localWork : Hash48)
    (hprimed : TrueTip crypto root height tip (some chainwork))
    (htruthful : ∀ call ∈ calls, call.Truthful crypto root)
    (hcovered : ∀ header ∈ acceptedTips crypto
        (before.primeWithLocatorAndChainwork height tip (some chainwork) locator) calls,
      ∀ work, HasWork crypto root header work → work ≤ chainwork.toNat ∨
        ∃ call ∈ calls, ∃ reported, call.reported = some reported ∧ work ≤ reported.toNat)
    (hlocal : TrueTip crypto root localHeight localTip (some localWork))
    (hsatisfied : ((before.primeWithLocatorAndChainwork height tip (some chainwork)
      locator).run crypto calls).localTipSatisfiesTarget localHeight localTip
        (some localWork) = true) :
    (∀ call ∈ calls, ∀ reported, call.reported = some reported →
        reported.toNat ≤ localWork.toNat) ∧
      ∀ header ∈ acceptedTips crypto
          (before.primeWithLocatorAndChainwork height tip (some chainwork) locator) calls,
        ∀ work, HasWork crypto root header work → work ≤ localWork.toNat := by
  obtain ⟨primed, primedWork, hprimedWork, -, -, hsame⟩ := hprimed
  obtain rfl := Option.some.inj hsame
  obtain ⟨header, work, hwork, -, -, hsame⟩ := hlocal
  obtain rfl := Option.some.inj hsame
  have hstart : (before.primeWithLocatorAndChainwork height tip (some chainwork)
      locator).bestChainwork = some chainwork := knownChainwork_of_pos hprimedWork.pos
  obtain ⟨final, hfinal, hle, hreported⟩ := run_tracks htruthful hstart
  rw [localTipSatisfiesTarget, knownChainwork_of_pos hwork.pos] at hsatisfied
  have hbound := le_of_isGE rfl hfinal hsatisfied
  refine ⟨fun call hcall reported hreport => (hreported call hcall reported hreport).trans hbound,
    fun header hheader work hwork => ?_⟩
  rcases hcovered header hheader work hwork with hprimed | ⟨call, hcall, reported, hreport, hle'⟩
  · exact hprimed.trans (hle.trans hbound)
  · exact hle'.trans ((hreported call hcall reported hreport).trans hbound)

/-! Runs on regnet that start from a state primed with genesis. -/

def regnetRoot : BlockHeader := (genesisBlock .hashing .regnet).header

/-- A mined block on `firstBlock`. -/
def secondBlock : Block :=
  rewardBlock .regnet 2 (List.replicate 32 8) 1773360700 12065 (2 ^ 368 - 1)
    335734957373109624165172270276793669974346526527100386999086402188496690271086784859156717988404397784657099773

/-- The work of a chain of `blocks` blocks at the initial difficulty. -/
def initialWork (blocks : Nat) : Nat := blocks * blockProof genesisTarget

theorem hasWork_regnetRoot : HasWork .hashing regnetRoot regnetRoot (initialWork 1) := by
  have hroot := @HasWork.root .hashing regnetRoot (by decide +kernel)
  rwa [show blockProof regnetRoot.difficultyTargetOrBits = initialWork 1 by decide +kernel] at hroot

theorem hasWork_firstBlock : HasWork .hashing regnetRoot firstBlock.header (initialWork 2) := by
  have hchild := @HasWork.child .hashing regnetRoot regnetRoot firstBlock.header _
    hasWork_regnetRoot (by decide +kernel) (by decide +kernel) (by decide +kernel)
  rwa [show initialWork 1 + blockProof firstBlock.header.difficultyTargetOrBits = initialWork 2 by
    decide +kernel] at hchild

theorem hasWork_secondBlock : HasWork .hashing regnetRoot secondBlock.header (initialWork 3) := by
  have hchild := @HasWork.child .hashing regnetRoot firstBlock.header secondBlock.header _
    hasWork_firstBlock (by decide +kernel) (by decide +kernel) (by decide +kernel)
  rwa [show initialWork 2 + blockProof secondBlock.header.difficultyTargetOrBits = initialWork 3 by
    decide +kernel] at hchild

/-- The state is primed with genesis and accepts two headers; a tip of the first of them
still satisfies the target, although the second has more work. -/
theorem accepted_header_outweighs_satisfied_tip :
    let primed := ({} : SyncState).prime .hashing [genesisBlock .hashing .regnet]
    let calls := [Call.acceptHeaders .regnet [firstBlock.header, secondBlock.header]]
    HasWork .hashing regnetRoot firstBlock.header (initialWork 2) ∧
      HasWork .hashing regnetRoot secondBlock.header (initialWork 3) ∧
      initialWork 2 < initialWork 3 ∧
      (Bytes.ofNat 48 (initialWork 2)).toNat = initialWork 2 ∧
      acceptedTips .hashing primed calls = [secondBlock.header] ∧
      (primed.run .hashing calls).localTipSatisfiesTarget 1
        (some (firstBlock.header.blockHash .hashing))
        (some (.ofNat 48 (initialWork 2))) = true :=
  ⟨hasWork_firstBlock, hasWork_secondBlock, by decide +kernel⟩

theorem hasWork_firstBlock_unique {work : Nat}
    (hwork : HasWork .hashing regnetRoot firstBlock.header work) : work = initialWork 2 := by
  have hfirst : firstBlock.header.height = 1 := by decide +kernel
  cases hwork with
  | child hparent hprevious hheight htarget =>
      cases hparent with
      | root htarget => decide +kernel
      | child hparent hprevious hheight' htarget =>
          have hone := congrArg UInt64.toNat (hfirst.symm.trans hheight)
          have hsecond := congrArg UInt64.toNat hheight'
          rw [UInt64.toNat_saturatingAdd] at hone hsecond
          simp only [UInt64.toNat_one] at hone hsecond
          omega

def firstWork : Hash48 := .ofNat 48 (initialWork 2)

def followedCalls : List Call :=
  [.observeTip 1 (some (firstBlock.header.blockHash .hashing)) (some firstWork),
    .acceptHeaders .regnet [firstBlock.header]]

/-- The work of the accepted header was reported before it, so the local tip that satisfies
the target has as much. -/
theorem followed_headers_bounded :
    let primed := ({} : SyncState).primeWithLocatorAndChainwork 0
      (some (regnetRoot.blockHash .hashing)) (some (.ofNat 48 (initialWork 1)))
      [regnetRoot.blockHash .hashing]
    (primed.run .hashing followedCalls).localTipSatisfiesTarget 1
        (some (firstBlock.header.blockHash .hashing)) (some firstWork) = true ∧
      acceptedTips .hashing primed followedCalls = [firstBlock.header] ∧
      ∀ header ∈ acceptedTips .hashing primed followedCalls, ∀ work,
        HasWork .hashing regnetRoot header work → work ≤ firstWork.toNat := by
  intro primed
  have hfirst : firstWork.toNat = initialWork 2 := by decide +kernel
  have hroot : (Bytes.ofNat 48 (initialWork 1)).toNat = initialWork 1 := by decide +kernel
  have hheights : regnetRoot.height = 0 ∧ firstBlock.header.height = 1 := by decide +kernel
  obtain ⟨hsatisfied, htips⟩ : (primed.run .hashing followedCalls).localTipSatisfiesTarget 1
        (some (firstBlock.header.blockHash .hashing)) (some firstWork) = true ∧
      acceptedTips .hashing primed followedCalls = [firstBlock.header] := by
    decide +kernel
  have htip : TrueTip .hashing regnetRoot 1 (some (firstBlock.header.blockHash .hashing))
      (some firstWork) :=
    ⟨firstBlock.header, firstWork, hfirst ▸ hasWork_firstBlock, hheights.2.symm, rfl, rfl⟩
  have hprimed : TrueTip .hashing regnetRoot 0 (some (regnetRoot.blockHash .hashing))
      (some (.ofNat 48 (initialWork 1))) :=
    ⟨regnetRoot, .ofNat 48 (initialWork 1), by rw [hroot]; exact hasWork_regnetRoot,
      hheights.1.symm, rfl, rfl⟩
  refine ⟨hsatisfied, htips, (satisfied_target_bounds_work .hashing regnetRoot {} 0 _ _ _
    followedCalls 1 _ firstWork hprimed ?_ ?_ htip hsatisfied).2⟩
  · intro call hcall
    rcases List.mem_pair.mp hcall with rfl | rfl
    · exact htip
    · intro header hheader
      obtain rfl := List.mem_singleton.mp hheader
      exact ⟨_, hasWork_firstBlock⟩
  · intro header hheader work hwork
    rw [htips] at hheader
    obtain rfl := List.mem_singleton.mp hheader
    refine .inr ⟨_, List.mem_cons_self, firstWork, rfl, ?_⟩
    rw [hasWork_firstBlock_unique hwork, hfirst]

end SyncState

end Atho
