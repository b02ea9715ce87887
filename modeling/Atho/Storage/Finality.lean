import Atho.Storage.Restart

/-! Finality: the depth limit on reorganizations, and which blocks it keeps. -/

namespace Atho

open Relation

namespace Chainstate

def finalizedHeight (host : Host σ) (state : Chainstate σ) : Option UInt64 :=
  state.height.checkedSub (state.maxReorgDepth host)

/-- The canonical block at a height, for a state that started at genesis. -/
def canonicalBlockAt (host : Host σ) (network : Network) (state : Chainstate σ)
    (height : UInt64) : Option Block :=
  (genesisBlock host.crypto network :: canonicalChain [] state.history)[height.toNat]?

/-- Looking a block up by its height finds the canonical one or nothing. -/
def FindsCanonical (host : Host σ) (network : Network) (state : Chainstate σ) : Prop :=
  ∀ height block, state.blockByHeight host height = .ok (some block) →
    state.canonicalBlockAt host network height = some block

/-- No call of the list ends at a lower height than it began at. -/
def Climbs (host : Host σ) : Chainstate σ → List (UInt64 × Call) → Prop
  | _, [] => True
  | state, timed :: later =>
      state.height ≤ (state.call host timed.1 timed.2).height ∧
        (state.call host timed.1 timed.2).Climbs host later

instance (host : Host σ) : (state : Chainstate σ) → (calls : List (UInt64 × Call)) →
    Decidable (state.Climbs host calls)
  | _, [] => .isTrue trivial
  | state, timed :: later =>
      have := instDecidableClimbs host (state.call host timed.1 timed.2) later
      inferInstanceAs (Decidable (_ ∧ _))

/-- The states that `start` can be brought to, and the run that ends in `final`
may have gone through. -/
structure Passes (host : Host σ) (start final state : Chainstate σ) : Prop where
  reached : Reaches host start state
  history : state.history <+: final.history

/-! What the operations do to the canonical chain. -/

section Chains

variable {host : Host σ} {now : UInt64} {state next : Chainstate σ}
  {result : Except StorageError Unit} {count : Nat}

theorem connectBlock_chain {block : Block}
    (hconnect : state.connectBlock host now block = (result, next)) :
    (∃ err, result = .error err) ∧
        canonicalChain [] next.history = canonicalChain [] state.history ∨
      result = .ok () ∧
        canonicalChain [] next.history = canonicalChain [] state.history ++ [block] := by
  unfold connectBlock at hconnect
  split at hconnect
  · next err hinvalid =>
      cases hconnect
      exact .inl ⟨⟨_, rfl⟩, rfl⟩
  · next hvalid =>
      split at hconnect
      · next err utxos happly =>
          cases hconnect
          exact .inl ⟨⟨_, rfl⟩, canonicalChain_snoc ..⟩
      · next undo utxos happly =>
          dsimp only at hconnect
          split at hconnect
          · next err failed hpersist =>
              obtain ⟨storage, rfl⟩ := eq_of_persist hpersist
              cases hconnect
              exact .inl ⟨⟨_, rfl⟩, canonicalChain_snoc ..⟩
          · next stored hpersist =>
              obtain ⟨storage, rfl⟩ := eq_of_persist hpersist
              cases hconnect
              exact .inr ⟨rfl, canonicalChain_snoc ..⟩

theorem disconnectLastBlock_chain
    (hdisconnect : state.disconnectLastBlock host = (result, next)) :
    (∃ err, result = .error err) ∧
        canonicalChain [] next.history = canonicalChain [] state.history ∨
      result = .ok () ∧
        canonicalChain [] next.history = (canonicalChain [] state.history).dropLast := by
  unfold disconnectLastBlock at hdisconnect
  split at hdisconnect
  · dsimp only at hdisconnect
    split at hdisconnect
    · next err failed hpersist =>
        obtain ⟨storage, rfl⟩ := eq_of_persist hpersist
        cases hdisconnect
        exact .inl ⟨⟨_, rfl⟩, canonicalChain_snoc ..⟩
    · next stored hpersist =>
        obtain ⟨storage, rfl⟩ := eq_of_persist hpersist
        cases hdisconnect
        exact .inr ⟨rfl, canonicalChain_snoc ..⟩
  · cases hdisconnect
    exact .inl ⟨⟨_, rfl⟩, rfl⟩

theorem connectBlocks_chain {blocks : List Block}
    (hconnect : state.connectBlocks host now blocks = (result, count, next)) :
    canonicalChain [] next.history = canonicalChain [] state.history ++ blocks.take count ∧
      count ≤ blocks.length := by
  induction blocks generalizing state count with
  | nil =>
      cases hconnect
      simp
  | cons block rest ih =>
      rw [connectBlocks] at hconnect
      split at hconnect
      · next err failed hfirst =>
          cases hconnect
          rcases connectBlock_chain hfirst with ⟨-, hsame⟩ | ⟨hok, -⟩
          · exact ⟨by rw [hsame, List.take_zero, List.append_nil], Nat.zero_le _⟩
          · cases hok
      · next mid hfirst =>
          rcases hrest : mid.connectBlocks host now rest with ⟨restResult, restCount, final⟩
          rw [hrest] at hconnect
          cases hconnect
          obtain ⟨hchain, hle⟩ := ih hrest
          rcases connectBlock_chain hfirst with ⟨⟨err, herr⟩, -⟩ | ⟨-, hmid⟩
          · cases herr
          · refine ⟨?_, Nat.succ_le_succ hle⟩
            rw [hchain, hmid, List.append_assoc, List.singleton_append, List.take_succ_cons]

theorem disconnectBlocks_chain {remaining : Nat}
    (hdisconnect : state.disconnectBlocks host remaining = (result, count, next)) :
    canonicalChain [] next.history =
        (canonicalChain [] state.history).take
          ((canonicalChain [] state.history).length - count) ∧
      count ≤ remaining := by
  induction remaining generalizing state count with
  | zero =>
      cases hdisconnect
      simp
  | succ remaining ih =>
      rw [disconnectBlocks] at hdisconnect
      split at hdisconnect
      · next err failed hfirst =>
          cases hdisconnect
          rcases disconnectLastBlock_chain hfirst with ⟨-, hsame⟩ | ⟨hok, -⟩
          · exact ⟨by rw [hsame, Nat.sub_zero, List.take_length], Nat.zero_le _⟩
          · cases hok
      · next mid hfirst =>
          rcases hrest : mid.disconnectBlocks host remaining with ⟨restResult, restCount, final⟩
          rw [hrest] at hdisconnect
          cases hdisconnect
          obtain ⟨hchain, hle⟩ := ih hrest
          rcases disconnectLastBlock_chain hfirst with ⟨⟨err, herr⟩, -⟩ | ⟨-, hmid⟩
          · cases herr
          · refine ⟨?_, Nat.succ_le_succ hle⟩
            rw [hchain, hmid, List.length_dropLast, List.dropLast_eq_take, List.take_take]
            congr 1
            omega

theorem replaceWithValidatedBranch_chain {forkHeight : UInt64} {branch : List Block}
    (hreplace : state.replaceWithValidatedBranch host now forkHeight branch = (result, next)) :
    canonicalChain [] next.history = canonicalChain [] state.history ∨
      ∃ canonical, state.canonicalPrefixThrough host forkHeight = .ok canonical ∧
        canonicalChain [] next.history = (canonical ++ branch).tail := by
  unfold replaceWithValidatedBranch at hreplace
  split at hreplace
  · cases hreplace
    exact .inl rfl
  · next canonical hcanonical =>
      dsimp only at hreplace
      split at hreplace
      · cases hreplace
        exact .inl rfl
      · next validated hvalidated =>
          split at hreplace
          · next err failed hpersist =>
              obtain ⟨storage, rfl⟩ := eq_of_persist hpersist
              cases hreplace
              exact .inl (canonicalChain_snoc ..)
          · next stored hpersist =>
              obtain ⟨storage, rfl⟩ := eq_of_persist hpersist
              cases hreplace
              exact .inr ⟨canonical, hcanonical, canonicalChain_snoc ..⟩

end Chains

/-! Looking up by height. -/

section Lookup

variable {host : Host σ} {network : Network} {state : Chainstate σ}

theorem blocksByHeight_ok {heights : List UInt64} {blocks : List Block}
    (hblocks : state.blocksByHeight host heights = .ok blocks) :
    List.Forall₂ (fun height block => state.blockByHeight host height = .ok (some block))
      heights blocks := by
  induction heights generalizing blocks with
  | nil =>
      cases hblocks
      exact .nil
  | cons height rest ih =>
      simp only [blocksByHeight, bind_eq_ok, okOr_eq_ok, pure_eq_ok] at hblocks
      obtain ⟨found, hfound, block, rfl, blocks, hrest, rfl⟩ := hblocks
      exact .cons hfound (ih hrest)

theorem length_canonicalBranchAfter {forkHeight : UInt64} {blocks : List Block}
    (hblocks : state.canonicalBranchAfter host forkHeight = .ok blocks) :
    blocks.length = state.height.toNat - forkHeight.toNat := by
  unfold canonicalBranchAfter at hblocks
  split at hblocks
  · next hle =>
      cases hblocks
      rw [UInt64.le_iff_toNat_le] at hle
      simp only [List.length_nil]
      omega
  · have hlength := (blocksByHeight_ok hblocks).length_eq
    simpa using hlength.symm

theorem FindsCanonical.canonicalPrefixThrough {forkHeight : UInt64} {blocks : List Block}
    (hfinds : state.FindsCanonical host network)
    (hblocks : state.canonicalPrefixThrough host forkHeight = .ok blocks) :
    blocks = (genesisBlock host.crypto network :: canonicalChain [] state.history).take
      (forkHeight.toNat + 1) := by
  have hfound := blocksByHeight_ok hblocks
  have hlength : blocks.length = forkHeight.toNat + 1 := by simpa using hfound.length_eq.symm
  have hlt := forkHeight.toNat_lt
  apply List.ext_getElem?
  intro index
  by_cases hindex : index < forkHeight.toNat + 1
  · have hat := List.forall₂_iff_get.mp hfound |>.2 index (by simpa using hindex)
      (by rwa [hlength])
    simp only [List.get_eq_getElem, List.getElem_map, List.getElem_range] at hat
    have hcanonical := hfinds _ _ hat
    rw [canonicalBlockAt, UInt64.toNat_ofNat_of_lt' (by omega : index < 2 ^ 64)] at hcanonical
    rw [List.getElem?_take_of_lt hindex, hcanonical, List.getElem?_eq_getElem (by rwa [hlength])]
  · rw [List.getElem?_eq_none (by omega),
      List.getElem?_eq_none (Nat.le_trans (List.length_take_le _ _) (by omega))]

end Lookup

/-! Calls that keep the beginning of the chain. -/

section Keeps

variable {host : Host σ} {network : Network} {now : UInt64} {state next : Chainstate σ}
  {result : Except StorageError Unit} {count : Nat} {base : List Block}

theorem connectBlocks_keeps {blocks : List Block}
    (hconnect : state.connectBlocks host now blocks = (result, count, next))
    (hbase : base <+: canonicalChain [] state.history) :
    base <+: canonicalChain [] next.history := by
  rw [(connectBlocks_chain hconnect).1]
  exact hbase.trans (List.prefix_append _ _)

theorem disconnectBlocks_keeps {remaining : Nat}
    (hdisconnect : state.disconnectBlocks host remaining = (result, count, next))
    (hbase : base <+: canonicalChain [] state.history)
    (hlong : base.length + remaining ≤ (canonicalChain [] state.history).length) :
    base <+: canonicalChain [] next.history := by
  obtain ⟨hchain, hle⟩ := disconnectBlocks_chain hdisconnect
  rw [hchain, List.prefix_take_iff]
  exact ⟨hbase, by omega⟩

theorem replaceWithValidatedBranch_keeps {forkHeight : UInt64} {branch : List Block}
    (hfinds : state.FindsCanonical host network)
    (hreplace : state.replaceWithValidatedBranch host now forkHeight branch = (result, next))
    (hbase : base <+: canonicalChain [] state.history) (hfork : base.length ≤ forkHeight.toNat) :
    base <+: canonicalChain [] next.history := by
  rcases replaceWithValidatedBranch_chain hreplace with hsame | ⟨canonical, hcanonical, hchain⟩
  · rwa [hsame]
  · rw [hchain, hfinds.canonicalPrefixThrough hcanonical, List.take_succ_cons, List.cons_append,
      List.tail_cons]
    exact (List.prefix_take_iff.mpr ⟨hbase, hfork⟩).trans (List.prefix_append _ _)

theorem failSwitch_keeps {journal : IncrementalBranchSwitchJournal} {err : StorageError}
    {final : Chainstate σ}
    (hfinds : ∀ reached, Operates host now state reached → reached.history <+: final.history →
      reached.FindsCanonical host network)
    (hfail : state.failSwitch host now journal err = (result, next))
    (hhistory : next.history <+: final.history)
    (hbase : base <+: canonicalChain [] state.history)
    (hlong : base.length + journal.connectedCount ≤ (canonicalChain [] state.history).length)
    (hfork : base.length ≤ journal.forkHeight.toNat) :
    base <+: canonicalChain [] next.history := by
  have hrollback : ∀ {outcome failed},
      state.rollbackIncrementalBranchSwitch host now journal = (outcome, failed) →
      base <+: canonicalChain [] failed.history := by
    intro outcome failed hrollback
    unfold rollbackIncrementalBranchSwitch at hrollback
    split at hrollback
    · next failure count stuck hdisconnect =>
        cases hrollback
        exact disconnectBlocks_keeps hdisconnect hbase hlong
    · next count back hdisconnect =>
        rcases hconnect : back.connectBlocks host now journal.disconnectedSuffixToRestore with
          ⟨outcome', count', failed'⟩
        rw [hconnect] at hrollback
        cases hrollback
        exact connectBlocks_keeps hconnect (disconnectBlocks_keeps hdisconnect hbase hlong)
  have hrestore : ∀ {outcome restored},
      state.restoreOriginalBranchFromJournal host now journal = (outcome, restored) →
      restored.history <+: final.history → base <+: canonicalChain [] restored.history := by
    intro outcome restored hrestore hprefix
    unfold restoreOriginalBranchFromJournal at hrestore
    split at hrestore
    · next back hback =>
        cases hrestore
        exact hrollback hback
    · next failure failed hfailed =>
        have hoperates := rollbackIncrementalBranchSwitch_operates host now state journal
        rw [hfailed] at hoperates
        have hlater := (replaceWithValidatedBranch_operates host now failed journal.forkHeight
          journal.disconnectedSuffixToRestore).steps.history_append
        rw [hrestore] at hlater
        obtain ⟨events, hevents⟩ := hlater
        have hfailedPrefix : failed.history <+: final.history :=
          (hevents ▸ List.prefix_append _ _).trans hprefix
        exact replaceWithValidatedBranch_keeps (hfinds failed hoperates hfailedPrefix) hrestore
          (hrollback hfailed) hfork
  unfold failSwitch at hfail
  split at hfail
  · next restored hresult =>
      cases hfail
      exact hrestore hresult hhistory
  · next failure failed hresult =>
      cases hfail
      exact hrestore hresult hhistory

theorem switchBranchIncrementally_keeps {forkHeight : UInt64} {disconnected branch : List Block}
    {final : Chainstate σ}
    (hfinds : ∀ reached, Operates host now state reached → reached.history <+: final.history →
      reached.FindsCanonical host network)
    (hswitch : state.switchBranchIncrementally host now forkHeight disconnected branch =
      (result, next))
    (hhistory : next.history <+: final.history)
    (hbase : base <+: canonicalChain [] state.history)
    (hlong : base.length + disconnected.length ≤ (canonicalChain [] state.history).length)
    (hfork : base.length ≤ forkHeight.toNat) :
    base <+: canonicalChain [] next.history := by
  have hdisconnects := disconnectBlocks_operates host now state disconnected.length
  unfold switchBranchIncrementally at hswitch
  split at hswitch
  · next err count failed hdisconnect =>
      rw [hdisconnect] at hdisconnects
      have hkept := disconnectBlocks_keeps hdisconnect hbase hlong
      exact failSwitch_keeps (fun reached hoperates =>
        hfinds reached (hdisconnects.trans hoperates)) hswitch hhistory hkept
        (by simpa using hkept.length_le) hfork
  · next count back hdisconnect =>
      rw [hdisconnect] at hdisconnects
      have hkept := disconnectBlocks_keeps hdisconnect hbase hlong
      have hconnects := connectBlocks_operates host now back branch
      split at hswitch
      · next err connected failed hconnect =>
          rw [hconnect] at hconnects
          obtain ⟨hchain, hle⟩ := connectBlocks_chain hconnect
          refine failSwitch_keeps (fun reached hoperates =>
            hfinds reached ((hdisconnects.trans hconnects).trans hoperates)) hswitch hhistory
            (connectBlocks_keeps hconnect hkept) ?_ hfork
          have hlength := hkept.length_le
          simp only [hchain, List.length_append, List.length_take]
          omega
      · next connected extended hconnect =>
          cases hswitch
          exact connectBlocks_keeps hconnect hkept

theorem extendWithValidatedBranch_keeps {branch : List Block}
    (hextend : state.extendWithValidatedBranch host now branch = (result, next))
    (hbase : base <+: canonicalChain [] state.history) :
    base <+: canonicalChain [] next.history := by
  unfold extendWithValidatedBranch at hextend
  split at hextend
  · next count extended hconnect =>
      cases hextend
      exact connectBlocks_keeps hconnect hbase
  · next err connected failed hconnect =>
      obtain ⟨hchain, hle⟩ := connectBlocks_chain hconnect
      have hlong : base.length + connected ≤ (canonicalChain [] failed.history).length := by
        have hlength := hbase.length_le
        simp only [hchain, List.length_append, List.length_take]
        omega
      have hkept := connectBlocks_keeps hconnect hbase
      split at hextend
      · next rollbackErr count stuck hdisconnect =>
          cases hextend
          exact disconnectBlocks_keeps hdisconnect hkept hlong
      · next count restored hdisconnect =>
          cases hextend
          exact disconnectBlocks_keeps hdisconnect hkept hlong

theorem planBranch_ok {branch : List Block} {maxReorgDepth : UInt64} {plan : BranchPlan}
    (hplan : state.planBranch host branch maxReorgDepth = .ok plan) :
    plan.disconnected.length = state.height.toNat - plan.forkHeight.toNat ∧
      (plan.disconnected ≠ [] →
        state.height.toNat ≤ plan.forkHeight.toNat + maxReorgDepth.toNat) := by
  cases branch with
  | nil => cases hplan
  | cons first rest =>
      simp only [planBranch, bind_eq_ok, rejectWhen_eq_ok] at hplan
      obtain ⟨-, -, forkHeight, -, -, -, disconnected, hdisconnected, hplan⟩ := hplan
      have hlength := length_canonicalBranchAfter hdisconnected
      split at hplan
      · cases hplan
      · next hdepth =>
          cases hplan
          refine ⟨hlength, fun hnonempty => ?_⟩
          by_contra hdeep
          refine hdepth _ (by simpa using hnonempty) (if_pos ?_)
          rw [UInt64.lt_iff_toNat_lt, UInt64.toNat_saturatingSub]
          dsimp only at hdeep
          omega

theorem selectBranchWithMaxReorgDepth_keeps {branch : List Block} {maxReorgDepth : UInt64}
    {selected : Except StorageError ChainSelectionResult} {final : Chainstate σ}
    (hfinds : ∀ reached, Operates host now state reached → reached.history <+: final.history →
      reached.FindsCanonical host network)
    (hselect : state.selectBranchWithMaxReorgDepth host now branch maxReorgDepth =
      (selected, next))
    (hhistory : next.history <+: final.history)
    (hheight : state.height.toNat ≤ (canonicalChain [] state.history).length)
    (hbase : base <+: canonicalChain [] state.history)
    (hdeep : base.length + maxReorgDepth.toNat ≤ state.height.toNat) :
    base <+: canonicalChain [] next.history := by
  have hlater := (selectBranchWithMaxReorgDepth_operates host now state branch
    maxReorgDepth).steps.history_append
  rw [hselect] at hlater
  obtain ⟨events, hevents⟩ := hlater
  have hstate : state.history <+: final.history :=
    (hevents ▸ List.prefix_append _ _).trans hhistory
  unfold selectBranchWithMaxReorgDepth at hselect
  split at hselect
  · cases hselect
    exact hbase
  · next plan hplan =>
      obtain ⟨hlength, hdepth⟩ := planBranch_ok hplan
      split_ifs at hselect with hextends hkept hincremental
      · cases hselect
        exact extendWithValidatedBranch_keeps rfl hbase
      · cases hselect
        exact hbase
      · cases hselect
        have hfork := hdepth hextends
        exact replaceWithValidatedBranch_keeps (hfinds state .refl hstate) rfl hbase (by omega)
      · cases hselect
        have hfork := hdepth hextends
        exact switchBranchIncrementally_keeps hfinds rfl hhistory hbase (by omega) (by omega)

end Keeps

theorem RecallsHistory.height_le {host : Host σ} {network : Network} {state : Chainstate σ}
    (hrecalls : state.RecallsHistory host network []) :
    state.height.toNat ≤ (canonicalChain [] state.history).length := by
  obtain ⟨last, hlast, -, -, hheight⟩ := hrecalls.tip
  have hnumber := hrecalls.numbered.getLast? hlast
  rw [hheight, hnumber, List.length_cons]
  omega

theorem memoryBlockIndexForHeight_eq_some {memory : ChainMemory} {height : UInt64} {index : Nat}
    (hindex : memory.memoryBlockIndexForHeight height = some index) :
    ∃ block, memory.blocks[index]? = some block ∧ block.header.height = height := by
  simp only [ChainMemory.memoryBlockIndexForHeight, Option.bind_eq_bind,
    Option.bind_eq_some_iff] at hindex
  obtain ⟨first, -, hindex⟩ := hindex
  split at hindex
  · cases hindex
  · obtain ⟨block, hblock, hindex⟩ := Option.bind_eq_some_iff.mp hindex
    split at hindex
    · next hheight =>
        cases hindex
        exact ⟨block, hblock, hheight⟩
    · cases hindex

theorem RecallsHistory.findsCanonical {host : Host σ} {network : Network}
    {state : Chainstate σ} (hrecalls : state.RecallsHistory host network [])
    (hstorage : state.storage = none)
    (hshort : (canonicalChain [] state.history).length < 2 ^ 64) :
    state.FindsCanonical host network := by
  intro height block hfound
  unfold blockByHeight at hfound
  split at hfound
  · next index hindex =>
      have hget : state.blocks[index]? = some block := Except.ok.inj hfound
      obtain ⟨found, hfound, hheight⟩ := memoryBlockIndexForHeight_eq_some hindex
      obtain rfl := Option.some.inj (hget.symm.trans hfound)
      -- Every resident block stands at its own height in the whole chain.
      obtain ⟨first, firstIndex, dropped, hblocks, hlt, hle, hfirst⟩ := hrecalls.cons
      obtain ⟨position, hposition⟩ : ∃ position,
          (genesisBlock host.crypto network :: canonicalChain [] state.history)[position]? =
            some block := by
        rw [hblocks] at hget
        rcases List.mem_cons.mp (List.mem_of_getElem? hget) with rfl | hmem
        · exact ⟨firstIndex, hfirst⟩
        · exact List.mem_iff_getElem?.mp (List.mem_of_mem_drop hmem)
      have hnumber := hrecalls.numbered position block hposition
      have hbound := List.getElem?_eq_some_iff.mp hposition |>.1
      rw [List.length_cons] at hbound
      rw [canonicalBlockAt, ← hheight, hnumber, Nat.min_eq_left (by omega), hposition]
  · simp only [hstorage] at hfound
    cases hfound

theorem call_keeps {host : Host σ} {network : Network} {now : UInt64} {state final : Chainstate σ}
    {call : Call} {base : List Block} (hcall : call ≠ .disconnectLastBlock)
    (hfinds : ∀ reached, Operates host now state reached → reached.history <+: final.history →
      reached.FindsCanonical host network)
    (hhistory : (state.call host now call).history <+: final.history)
    (hheight : state.height.toNat ≤ (canonicalChain [] state.history).length)
    (hbase : base <+: canonicalChain [] state.history)
    (hdeep : base.length + (state.maxReorgDepth host).toNat ≤ state.height.toNat) :
    base <+: canonicalChain [] (state.call host now call).history := by
  cases call with
  | connectBlock block =>
      rw [Chainstate.call]
      rcases hconnect : state.connectBlock host now block with ⟨result, next⟩
      rcases connectBlock_chain hconnect with ⟨-, hchain⟩ | ⟨-, hchain⟩
      · rwa [hchain]
      · rw [hchain]
        exact hbase.trans (List.prefix_append _ _)
  | disconnectLastBlock => exact absurd rfl hcall
  | selectBranch branch =>
      exact selectBranchWithMaxReorgDepth_keeps hfinds rfl hhistory hheight hbase hdeep

theorem run_keeps {host : Host σ} {network : Network} {start state final : Chainstate σ}
    {later : List (UInt64 × Call)} {base : List Block} (hfinal : state.run host later = final)
    (hreached : Reaches host start state)
    (hfinds : ∀ reached, Passes host start final reached → reached.FindsCanonical host network)
    (hcalls : ∀ timed ∈ later, timed.2 ≠ .disconnectLastBlock)
    (hclimbs : state.Climbs host later) (hnetwork : state.network = network)
    (hrecalls : state.RecallsHistory host network [])
    (hbase : base <+: canonicalChain [] state.history)
    (hdeep : base.length + (effectiveMaxReorgDepth host network).toNat ≤ state.height.toNat) :
    base <+: canonicalChain [] final.history := by
  induction later generalizing state with
  | nil =>
      cases hfinal
      exact hbase
  | cons timed later ih =>
      rw [List.forall_mem_cons] at hcalls
      obtain ⟨hrises, hclimbs⟩ := hclimbs
      rw [UInt64.le_iff_toNat_le] at hrises
      have hoperates := call_operates host timed.1 state timed.2
      obtain ⟨hnetwork', hrecalls'⟩ := run_recallsHistory hrecalls hnetwork [timed]
      obtain ⟨events, hevents⟩ :=
        (run_reaches host (state.call host timed.1 timed.2) later).history_append
      have hhistory : (state.call host timed.1 timed.2).history <+: final.history :=
        ⟨events, by rw [← hevents, ← hfinal, run, run, List.foldl_cons]⟩
      refine ih hfinal (hreached.tail ⟨_, hoperates⟩) hcalls.2 hclimbs hnetwork' hrecalls' ?_
        (Nat.le_trans hdeep hrises)
      refine call_keeps hcalls.1 (fun reached hstep hprefix => hfinds reached ⟨?_, hprefix⟩)
        hhistory hrecalls.height_le hbase (by rwa [maxReorgDepth, hnetwork])
      exact hreached.tail ⟨_, hstep⟩

/-- Once a block was canonical at a finalized height it stays canonical there over
every later run of block connections and branch selections in which no call lowers
the height, if the lookups by height that the run makes find canonical blocks. -/
theorem finalized_stays_canonical (host : Host σ) (network : Network) (storage : Option σ)
    (earlier later : List (UInt64 × Call)) (height : UInt64) (block : Block)
    (hcalls : ∀ timed ∈ later, timed.2 ≠ .disconnectLastBlock)
    (hclimbs : ((freshWithStorage host network storage).run host earlier).Climbs host later)
    (hfinds : ∀ state, Passes host (freshWithStorage host network storage)
      ((freshWithStorage host network storage).run host (earlier ++ later)) state →
      state.FindsCanonical host network)
    (hfinal : ∃ finalized ∈
      ((freshWithStorage host network storage).run host earlier).finalizedHeight host,
      height ≤ finalized)
    (hcanonical : ((freshWithStorage host network storage).run host earlier).canonicalBlockAt
      host network height = some block) :
    ((freshWithStorage host network storage).run host (earlier ++ later)).canonicalBlockAt
      host network height = some block := by
  obtain ⟨hnetwork, hrecalls⟩ :=
    run_recallsHistory (recallsHistory_fresh host network storage) rfl earlier
  obtain ⟨finalized, hfinalized, hle⟩ := hfinal
  have hdepth := UInt64.checkedSub_eq_some.mp hfinalized
  rw [maxReorgDepth, hnetwork] at hdepth
  rw [UInt64.le_iff_toNat_le] at hle
  have hlong := hrecalls.height_le
  have hkept := run_keeps (by rw [run, run, run, List.foldl_append])
    (run_reaches host _ earlier) hfinds hcalls hclimbs hnetwork hrecalls
    (List.take_prefix height.toNat _) (by rw [List.length_take]; omega)
  have htake := List.prefix_iff_eq_take.mp hkept
  rw [List.length_take, Nat.min_eq_left (by omega)] at htake
  rw [canonicalBlockAt, ← List.getElem?_take_of_lt (Nat.lt_succ_self _), List.take_succ_cons]
    at hcanonical ⊢
  rwa [← htake]

/-! A short chain without a database, and a small depth limit. -/

theorem Reaches.recallsHistory {host : Host σ} {network : Network} {state next : Chainstate σ}
    (hreaches : Reaches host state next) (hnetwork : state.network = network)
    (hrecalls : state.RecallsHistory host network []) :
    next.network = network ∧ next.RecallsHistory host network [] := by
  induction hreaches with
  | refl => exact ⟨hnetwork, hrecalls⟩
  | tail _ hoperates ih =>
      obtain ⟨now, hoperates⟩ := hoperates
      have hsteps := hoperates.steps
      clear hoperates
      induction hsteps with
      | refl => exact ih
      | tail _ hstep ih => exact ⟨hstep.network_eq.trans ih.1, ih.2.step hstep ih.1⟩

theorem Operation.storage_eq_none {host : Host σ} {now : UInt64} {state next : Chainstate σ}
    {result : Except StorageError Unit} (hoperation : Operation host now state result next)
    (hstorage : state.storage = none) : next.storage = none := by
  have hpersist := persist_of_none hstorage
  have hprune : ∀ state : Chainstate σ, state.storage = none →
      (state.pruneHistory host).storage = none := by
    intro state hstorage
    simp [pruneHistory, hstorage]
  cases hoperation with
  | connect block hconnect =>
      simp only [connectBlock, hpersist] at hconnect
      split at hconnect
      · cases hconnect
        exact hstorage
      · split at hconnect <;> cases hconnect
        · exact hstorage
        · exact hprune _ hstorage
  | disconnect hdisconnect =>
      simp only [disconnectLastBlock, hpersist] at hdisconnect
      split at hdisconnect <;> cases hdisconnect <;> exact hstorage
  | replace forkHeight branch hreplace =>
      simp only [replaceWithValidatedBranch, hpersist] at hreplace
      split at hreplace
      · cases hreplace
        exact hstorage
      · split at hreplace <;> cases hreplace
        · exact hstorage
        · exact hprune _ hstorage

theorem Reaches.storage_eq_none {host : Host σ} {state next : Chainstate σ}
    (hreaches : Reaches host state next) (hstorage : state.storage = none) :
    next.storage = none := by
  induction hreaches with
  | refl => exact hstorage
  | tail _ hoperates ih =>
      obtain ⟨now, hoperates⟩ := hoperates
      induction hoperates with
      | refl => exact ih
      | tail _ hoperation ih =>
          obtain ⟨result, hoperation⟩ := hoperation
          exact hoperation.storage_eq_none ih

def limitedHost (depth : UInt64) : Host Unit :=
  { exampleHost with prunetestMaxReorgDepth := some depth }

def finalityBlock (height : UInt64) (tag : UInt8) (offset nonce : UInt64)
    (target previous : Nat) : Block :=
  rewardBlock .prunetest height (List.replicate 31 tag ++ [height.toUInt8])
    (1773360490 + offset) nonce target previous

def finalBlock : Block :=
  finalityBlock 3 1 3 104802
    0xc28f5c28f5c28f5c28f5c28f5c28f5c28f5c28f5c28f5c28f5c28f5c28f5c28f5c28f5c28f5c28f5c28f5c28f5c1
    0xe7b14def5606196153c853133cffa71daba6d093b677f387ca5afdbed3bbada41cffef0bf46e3cfef6bfb6d125cf

/-- Three blocks a second apart, and four slow ones on top of them. -/
def slowChain : List Block :=
  [ finalityBlock 1 1 1 36439 (2 ^ 368 - 1)
      0x76ce84de168b72cbcb309ade2a0b0e4db57a8db8ee8b3fb1d324349a27c45f1040de1ba5d37deba74d0af4d0f7c0,
    finalityBlock 2 1 2 16346 (2 ^ 368 - 1)
      0xd00935a69813c3639718adf19bdfb9bbb1bc23418bbcce2b0e2598d918963c26a36c03adc7d177c4c91588562af3,
    finalBlock,
    finalityBlock 4 2 1003 52118
      0xb1d14e3bcd35a858793dd97f62b6ae7d566cf41f212d77318fc504816f0068db8bac710cb295e9e1b089a0275253
      0x661aab719d66c7a115c7fea0baf3e8817ec8dba6be28d98e82532f1cfa7c366d216b9bb1c835d38850f6d0f4bc97,
    finalityBlock 5 2 2003 8479 (2 ^ 368 - 1)
      0x927e2ecdce19f03b8c3cb037b66a45e62ad9d7585e3fe4249df820e6c94613967576a1ed188183056b8ced2fbc8c,
    finalityBlock 6 2 3003 40035 (2 ^ 368 - 1)
      0x2e885facf61db95f2e22e1136b7180793c49ac1675ab5b6fe4a9ba2cc742b1a24b70a9d87df7911529a4cd56163c,
    finalityBlock 7 2 4003 9062 (2 ^ 368 - 1)
      0x525f3214d6ec1f42ac6a8b5cc51dccec5ee54222e11ec0d20643401a74d5351e38d777502f64c8e759ccbaff69ea ]

/-- Three fast blocks that outweigh the four slow ones. -/
def fastBranch : List Block :=
  [ finalityBlock 4 3 4 34739
      0xb1d14e3bcd35a858793dd97f62b6ae7d566cf41f212d77318fc504816f0068db8bac710cb295e9e1b089a0275253
      0x661aab719d66c7a115c7fea0baf3e8817ec8dba6be28d98e82532f1cfa7c366d216b9bb1c835d38850f6d0f4bc97,
    finalityBlock 5 3 5 291400
      0xa68ecac1e8fc66a6b670f91fca590d70ba35a9be6335e8a883d092e3555db8d125b04c1bf0afb94ef9f181706651
      0x46d1017f94ea69e7d8c5ab452c9c57a849d66dc0ae04093f9d581ec9dc88a4dafefaa6917dff951a9e13f12b41b3,
    finalityBlock 6 3 6 18454
      0x9e2a703925e94b8b719093e450cfd4161a209579a738c16a70e4f2605d0fd35f90e212dcff4cd49cd2b6f47636ea
      0x273563b078f23f0bebea117180cdc6705fb7ada7d073a7001977a7d072cfd406adf02b116beae80e96d726c6dbcd ]

/-- Four blocks that replace the third block as well. -/
def deepBranch : List Block :=
  [ finalityBlock 3 4 3 4323
      0xc28f5c28f5c28f5c28f5c28f5c28f5c28f5c28f5c28f5c28f5c28f5c28f5c28f5c28f5c28f5c28f5c28f5c28f5c1
      0xe7b14def5606196153c853133cffa71daba6d093b677f387ca5afdbed3bbada41cffef0bf46e3cfef6bfb6d125cf,
    finalityBlock 4 4 4 118317
      0xb1d14e3bcd35a858793dd97f62b6ae7d566cf41f212d77318fc504816f0068db8bac710cb295e9e1b089a0275253
      0x7d344c81db34f37486d2d5354dc0e9ac4a39a08357878542a530c8365d4e08aef742b73945af6d96b106cec5adb1,
    finalityBlock 5 4 5 26126
      0xa68ecac1e8fc66a6b670f91fca590d70ba35a9be6335e8a883d092e3555db8d125b04c1bf0afb94ef9f181706651
      0x6b749f1d4f13fe90f099e6721eb8861e1f5ab76671bf0cf331aa9a8f22aa54f9e03ad6b6caaf3f270588163e4eb8,
    finalityBlock 6 4 6 46426
      0x9e2a703925e94b8b719093e450cfd4161a209579a738c16a70e4f2605d0fd35f90e212dcff4cd49cd2b6f47636ea
      0x5ffc5c57a5553a8a38b215d3e2a1a78583cb3b8d16137c04ad763cc4ce92fccf5b35a5dc654118970a1bc18f5b86 ]

/-- The heavier branch of three blocks lowers the height from 7 to 6. The limit is
then measured from there, and the third block, final before, is replaced. -/
theorem finalized_block_replaced :
    let before := (fresh (limitedHost 4) .prunetest).run (limitedHost 4)
      [(exampleClock, .selectBranch slowChain)]
    let after := before.run (limitedHost 4)
      [(exampleClock, .selectBranch fastBranch), (exampleClock, .selectBranch deepBranch)]
    before.finalizedHeight (limitedHost 4) = some 3 ∧
      before.canonicalBlockAt (limitedHost 4) .prunetest 3 = some finalBlock ∧
      after.canonicalBlockAt (limitedHost 4) .prunetest 3 = deepBranch[0]? ∧
      deepBranch[0]? ≠ some finalBlock := by
  decide +kernel

/-- Measured from the height at which the third block became final, the same branch
is too deep. -/
theorem finalized_block_stays :
    ((freshWithStorage (limitedHost 1) .prunetest none).run (limitedHost 1)
      ([(exampleClock, .selectBranch (slowChain.take 4))] ++
        [(exampleClock, .selectBranch deepBranch)])).canonicalBlockAt (limitedHost 1)
          .prunetest 3 = some finalBlock := by
  have hrun : ((freshWithStorage (limitedHost 1) .prunetest none).run (limitedHost 1)
        [(exampleClock, .selectBranch (slowChain.take 4))]).Climbs (limitedHost 1)
          [(exampleClock, .selectBranch deepBranch)] ∧
      (∃ finalized ∈ ((freshWithStorage (limitedHost 1) .prunetest none).run (limitedHost 1)
        [(exampleClock, .selectBranch (slowChain.take 4))]).finalizedHeight (limitedHost 1),
          3 ≤ finalized) ∧
      ((freshWithStorage (limitedHost 1) .prunetest none).run (limitedHost 1)
        [(exampleClock, .selectBranch (slowChain.take 4))]).canonicalBlockAt (limitedHost 1)
          .prunetest 3 = some finalBlock ∧
      ∀ history ∈ ((freshWithStorage (limitedHost 1) .prunetest none).run (limitedHost 1)
        ([(exampleClock, .selectBranch (slowChain.take 4))] ++
          [(exampleClock, .selectBranch deepBranch)])).history.inits,
        (canonicalChain [] history).length < 2 ^ 64 := by
    decide +kernel
  obtain ⟨hclimbs, hfinal, hcanonical, hshort⟩ := hrun
  refine finalized_stays_canonical (limitedHost 1) .prunetest none _ _ 3 _ (by simp) hclimbs ?_
    hfinal hcanonical
  intro state hpasses
  obtain ⟨-, hrecalls⟩ := hpasses.reached.recallsHistory rfl
    (recallsHistory_fresh (limitedHost 1) .prunetest none)
  exact hrecalls.findsCanonical (hpasses.reached.storage_eq_none rfl)
    (hshort _ ((List.mem_inits _ _).mpr hpasses.history))

end Chainstate

end Atho
