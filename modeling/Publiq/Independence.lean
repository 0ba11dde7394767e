import Publiq.BlockLedger

/-! What a node keeps to itself has no say in whether a block is valid, the role that
is configured for its own address apart. Two nodes that share the chain and the
settings of the network go through a block side by side. -/
namespace Publiq
open Message Checked

/-- The settings that every node of a network shares. -/
structure Context.SameNetwork (a b : Context) : Prop where
  testnet : a.config.testnet = b.config.testnet
  transferOnly : a.config.transferOnly = b.config.transferOnly
  blockRewardArray : a.blockRewardArray = b.blockRewardArray

/-- Two nodes of a network that hold the same chain. -/
structure Context.Shared (a b : Context) : Prop extends Context.SameNetwork a b where
  blockchain : a.blockchain = b.blockchain

def Ledger.withOwn (l : Ledger) (nodeAccounts : SparseMap String Coin) : Ledger :=
  { l with state := { l.state with nodeAccounts } }

def Ledger.Agree (a b : Ledger) : Prop := ∃ nodeAccounts, b = a.withOwn nodeAccounts

/-- A role for the node's own address that is not the configured one. -/
def Message.Action.againstConfig (ctx : Context) : Action → Prop
  | .role a => a.againstConfig ctx
  | _ => False

namespace Ledger

theorem Agree.refl (l : Ledger) : Agree l l := ⟨l.state.nodeAccounts, rfl⟩

theorem Agree.symm {a b : Ledger} (h : Agree a b) : Agree b a := by
  obtain ⟨n, rfl⟩ := h
  exact ⟨a.state.nodeAccounts, rfl⟩

theorem agree_iff {a b : Ledger} :
    Agree a b ↔ a.state.accounts = b.state.accounts ∧ a.state.roles = b.state.roles ∧
      a.documents = b.documents ∧ a.authorityManager = b.authorityManager := by
  rcases a with ⟨⟨accounts, own, roles⟩, documents, authorities⟩
  rcases b with ⟨⟨accounts', own', roles'⟩, documents', authorities'⟩
  constructor
  · rintro ⟨n, h⟩
    cases h
    exact ⟨rfl, rfl, rfl, rfl⟩
  · rintro ⟨rfl, rfl, rfl, rfl⟩
    exact ⟨own', rfl⟩

@[simp] theorem withOwn_documents (l : Ledger) (n : SparseMap String Coin) :
    (l.withOwn n).documents = l.documents := rfl

@[simp] theorem withOwn_authorityManager (l : Ledger) (n : SparseMap String Coin) :
    (l.withOwn n).authorityManager = l.authorityManager := rfl

@[simp] theorem signersPermitted_withOwn (l : Ledger) (n : SparseMap String Coin) (rtt : ℕ)
    (signers : List (String × String)) :
    signersPermitted (l.withOwn n) rtt signers = signersPermitted l rtt signers := by
  induction signers with
  | nil => rfl
  | cons signer rest ih => simp only [signersPermitted, withOwn_authorityManager, ih]

@[simp] theorem requireSigners_withOwn (l : Ledger) (n : SparseMap String Coin) (rtt : ℕ)
    (e : String × String → Failure) (signers : List (String × String)) :
    requireSigners (l.withOwn n) rtt e signers = requireSigners l rtt e signers := by
  induction signers with
  | nil => rfl
  | cons signer rest ih =>
      simp only [requireSigners, requireAuthority, withOwn_authorityManager, ih]

@[simp] theorem completePermitted_withOwn (complete : Bool) (l : Ledger)
    (n : SparseMap String Coin) (rtt : ℕ) (signers : List (String × String)) :
    completePermitted complete (l.withOwn n) rtt signers =
      completePermitted complete l rtt signers := by
  simp only [completePermitted, signersPermitted_withOwn]

@[simp] theorem requireComplete_withOwn (complete : Bool) (l : Ledger)
    (n : SparseMap String Coin) (rtt : ℕ) (signers : List (String × String)) :
    requireComplete complete (l.withOwn n) rtt signers = requireComplete complete l rtt signers := by
  simp only [requireComplete, requireSigners_withOwn]

@[simp] theorem unitsCorrespond_withOwn (content : Content) (l : Ledger)
    (n : SparseMap String Coin) (uris : List String) :
    content.unitsCorrespond (l.withOwn n) uris = content.unitsCorrespond l uris := by
  induction uris with
  | nil => rfl
  | cons uri rest ih => simp only [Content.unitsCorrespond, withOwn_documents, ih]

@[simp] theorem itemsProblem_withOwn (l : Ledger) (n : SparseMap String Coin)
    (nodeType : NodeType) (items : List ServiceStatisticsFile) :
    ServiceStatistics.itemsProblem (l.withOwn n) nodeType items =
      ServiceStatistics.itemsProblem l nodeType items := by
  induction items with
  | nil => rfl
  | cons item rest ih =>
      simp only [ServiceStatistics.itemsProblem, ih]
      rfl

theorem agree_increase {l l' : Ledger} (h : Agree l l') (a b : Context) (key : String)
    (amount : Message.Coin) (layer : StateLayer) :
    Alike Agree (l.increase a key amount layer) (l'.increase b key amount layer) := by
  obtain ⟨n, rfl⟩ := h
  refine alike_bind_same _ fun amount _ => ?_
  apply alike_ok
  rw [agree_iff]
  simp only [State.increaseBalance_accounts, State.increaseBalance_roles, withOwn, and_self]

theorem agree_decreaseBalance {l l' : Ledger} (h : Agree l l') (a b : Context) (key : String)
    (amount : Publiq.Coin) (layer : StateLayer) :
    Alike Agree (l.onState (State.decreaseBalance a.own key amount layer))
      (l'.onState (State.decreaseBalance b.own key amount layer)) := by
  obtain ⟨n, rfl⟩ := h
  simp only [onState, State.decreaseBalance]
  cases amount.isEmpty with
  | true => exact ⟨n, rfl⟩
  | false =>
      simp only [Bool.false_eq_true, if_false, bind_assoc]
      refine alike_bind_same _ fun _ _ => ?_
      refine alike_bind_same _ fun rest _ => ?_
      apply alike_ok
      rw [agree_iff]
      exact ⟨rfl, rfl, rfl, rfl⟩

theorem agree_decrease {l l' : Ledger} (h : Agree l l') (a b : Context) (key : String)
    (amount : Message.Coin) (layer : StateLayer) :
    Alike Agree (l.decrease a key amount layer) (l'.decrease b key amount layer) :=
  alike_bind_same _ fun _ _ => agree_decreaseBalance h a b key _ layer

end Ledger

section Actions

variable [Externals] {a b : Context} {signedTransaction : SignedTransaction} {l l' : Ledger}

omit [Externals] in
/-- Two nodes decide alike whether an action can be applied on the chain. -/
theorem actionCanApply_agree (shared : a.Shared b) (h : l.Agree l')
    (free : ¬ signedTransaction.transactionDetails.action.againstConfig a ∧
      ¬ signedTransaction.transactionDetails.action.againstConfig b) :
    actionCanApply b signedTransaction .chain l' = actionCanApply a signedTransaction .chain l := by
  obtain ⟨n, rfl⟩ := h
  have htransfer : requireTransferOnly b.config = requireTransferOnly a.config := by
    funext action
    simp only [requireTransferOnly, shared.transferOnly]
  unfold actionCanApply
  rw [htransfer]
  refine bind_congr fun _ => ?_
  cases haction : signedTransaction.transactionDetails.action with
  | contentUnit unit =>
      simp only [ContentUnit.actionCanApply, shared.blockchain, shared.testnet,
        Ledger.completePermitted_withOwn, Ledger.withOwn_documents]
  | role role =>
      rw [haction] at free
      simp only [Role.actionCanApply, if_neg (show ¬ role.againstConfig a from free.1),
        if_neg (show ¬ role.againstConfig b from free.2)]
      rfl
  | serviceStatistics statistics =>
      simp only [ServiceStatistics.actionCanApply, ServiceStatistics.problem,
        ServiceStatistics.sourceProblem, ServiceStatistics.coversLastBlock, shared.blockchain,
        Ledger.itemsProblem_withOwn]
      rfl
  | file file =>
      simp only [File.actionCanApply, Ledger.completePermitted_withOwn, Ledger.withOwn_documents]
  | content content =>
      simp only [Content.actionCanApply, Ledger.unitsCorrespond_withOwn]
      rfl
  | cancelSponsorContentUnit cancel =>
      simp only [CancelSponsorContentUnit.actionCanApply, CancelSponsorContentUnit.setUsed,
        shared.blockchain]
      rfl
  | _ => rfl

/-- Two nodes apply an action to the chain alike. -/
theorem actionApply_agree (shared : a.Shared b) (h : l.Agree l')
    (free : ¬ signedTransaction.transactionDetails.action.againstConfig a ∧
      ¬ signedTransaction.transactionDetails.action.againstConfig b) :
    Alike Ledger.Agree (actionApply a signedTransaction .chain l)
      (actionApply b signedTransaction .chain l') := by
  have htransfer : requireTransferOnly b.config = requireTransferOnly a.config := by
    funext action
    simp only [requireTransferOnly, shared.transferOnly]
  obtain ⟨n, rfl⟩ := h
  unfold actionApply
  rw [htransfer]
  refine alike_bind_same _ fun _ _ => ?_
  cases haction : signedTransaction.transactionDetails.action with
  | transfer transfer =>
      refine alike_bind_same _ fun _ _ => ?_
      exact (Ledger.agree_increase ⟨n, rfl⟩ a b _ _ _).bind fun _ _ h =>
        Ledger.agree_decrease h a b _ _ _
  | authorizationUpdate update =>
      refine alike_bind_same _ fun _ _ => ?_
      exact alike_bind_same _ fun _ _ => alike_ok ⟨n, rfl⟩
  | file file =>
      simp only [File.actionApply, Ledger.requireComplete_withOwn]
      refine alike_bind_same _ fun _ _ => ?_
      exact alike_bind_same _ fun _ _ => alike_ok ⟨n, rfl⟩
  | contentUnit unit =>
      simp only [ContentUnit.actionApply, shared.blockchain, shared.testnet,
        Ledger.requireComplete_withOwn, Ledger.withOwn_documents]
      refine alike_bind_same _ fun _ _ => ?_
      cases ContentUnit.contentUnitValidateCheck unit.fileUris b.blockchain.length
        b.config.testnet with
      | some duplicate => rfl
      | none =>
          refine alike_bind_same _ fun _ _ => ?_
          cases l.documents.filesMissing unit.fileUris with
          | some missing => rfl
          | none => exact alike_ok ⟨n, rfl⟩
  | content content =>
      simp only [Content.actionApply, Ledger.unitsCorrespond_withOwn, Ledger.withOwn_documents]
      refine alike_bind_same _ fun _ _ => ?_
      refine alike_bind_same _ fun _ _ => ?_
      cases l.documents.unitsMissing content.contentUnitUris with
      | some missing => rfl
      | none =>
          refine alike_bind_same _ fun _ _ => ?_
          exact alike_bind_same _ fun _ _ => alike_ok ⟨n, rfl⟩
  | role role =>
      rw [haction] at free
      simp only [Role.actionApply]
      refine alike_bind_same _ fun _ _ => ?_
      refine alike_bind_same _ fun _ _ => ?_
      rw [require_true (show ¬ role.againstConfig a from free.1),
        require_true (show ¬ role.againstConfig b from free.2), ok_bind, ok_bind]
      refine alike_bind_same _ fun _ _ => ?_
      simp only [Ledger.onState, State.insertRole, bind_assoc]
      refine alike_bind_same _ fun _ _ => ?_
      exact alike_ok ⟨n, rfl⟩
  | storageUpdate update =>
      refine alike_bind_same _ fun _ _ => ?_
      refine alike_bind_same _ fun _ _ => ?_
      refine alike_bind_same _ fun _ _ => ?_
      exact alike_bind_same _ fun _ _ => alike_ok ⟨n, rfl⟩
  | serviceStatistics statistics =>
      simp only [ServiceStatistics.actionApply, ServiceStatistics.problem,
        ServiceStatistics.sourceProblem, ServiceStatistics.coversLastBlock, shared.blockchain,
        Ledger.itemsProblem_withOwn]
      refine alike_bind_same _ fun _ _ => ?_
      refine alike_bind_same _ fun problem _ => ?_
      cases problem with
      | some e => rfl
      | none => exact alike_ok ⟨n, rfl⟩
  | sponsorContentUnit sponsor =>
      simp only [SponsorContentUnit.actionApply, shared.blockchain]
      refine alike_bind_same _ fun _ _ => ?_
      refine alike_bind_same _ fun _ _ => ?_
      refine alike_bind_same _ fun amount _ => ?_
      refine (Ledger.agree_decreaseBalance ⟨n, rfl⟩ a b _ _ _).bind fun _ _ h => ?_
      obtain ⟨n', rfl⟩ := h
      exact alike_bind_same _ fun _ _ => alike_ok ⟨n', rfl⟩
  | cancelSponsorContentUnit cancel =>
      simp only [CancelSponsorContentUnit.actionApply, CancelSponsorContentUnit.setUsed,
        shared.blockchain]
      refine alike_bind_same _ fun _ _ => ?_
      refine alike_bind_same _ fun _ _ => ?_
      refine alike_bind_same _ fun result _ => ?_
      exact alike_bind_same _ fun _ _ => alike_ok ⟨n, rfl⟩
  | unknown rtt => rfl

/-- Two nodes take an action back alike. -/
theorem actionRevert_agree (shared : a.Shared b) (h : l.Agree l') :
    Alike Ledger.Agree (actionRevert a signedTransaction .chain l)
      (actionRevert b signedTransaction .chain l') := by
  have htransfer : requireTransferOnly b.config = requireTransferOnly a.config := by
    funext action
    simp only [requireTransferOnly, shared.transferOnly]
  unfold actionRevert
  rw [htransfer]
  refine alike_bind_same _ fun _ _ => ?_
  cases signedTransaction.transactionDetails.action with
  | transfer transfer =>
      refine (Ledger.agree_increase h a b _ _ _).bind fun _ _ h => ?_
      refine (Ledger.agree_decrease h a b _ _ _).bind fun _ _ h => ?_
      obtain ⟨n, rfl⟩ := h
      exact alike_bind_same _ fun _ _ => alike_ok ⟨n, rfl⟩
  | sponsorContentUnit sponsor =>
      simp only [SponsorContentUnit.actionRevert, shared.blockchain]
      refine (Ledger.agree_increase h a b _ _ _).bind fun _ _ h => ?_
      obtain ⟨n, rfl⟩ := h
      refine Alike.bind (R := Ledger.Agree) ?_ fun _ _ h => ?_
      · exact alike_bind_same _ fun _ _ => alike_ok ⟨n, rfl⟩
      · obtain ⟨n', rfl⟩ := h
        exact alike_bind_same _ fun _ _ => alike_ok ⟨n', rfl⟩
  | file file =>
      obtain ⟨n, rfl⟩ := h
      refine alike_bind_same_of_eq ?_ fun _ _ => alike_ok ⟨n, rfl⟩
      exact Ledger.requireSigners_withOwn { l with documents := l.documents.removeFile file.uri }
        n _ _ _
  | contentUnit unit =>
      obtain ⟨n, rfl⟩ := h
      refine alike_bind_same_of_eq ?_ fun _ _ => alike_ok ⟨n, rfl⟩
      exact Ledger.requireSigners_withOwn { l with documents := l.documents.removeUnit unit.uri }
        n _ _ _
  | cancelSponsorContentUnit cancel =>
      obtain ⟨n, rfl⟩ := h
      simp only [CancelSponsorContentUnit.actionRevert, CancelSponsorContentUnit.setUsed,
        shared.blockchain]
      refine alike_bind_same _ fun _ _ => ?_
      refine alike_bind_same _ fun _ _ => ?_
      exact alike_bind_same _ fun _ _ => alike_ok ⟨n, rfl⟩
  | unknown rtt => rfl
  | _ =>
      obtain ⟨n, rfl⟩ := h
      exact alike_bind_same _ fun _ _ => alike_ok ⟨n, rfl⟩

omit [Externals] in
theorem feeCanApply_agree (h : l.Agree l') :
    feeCanApply signedTransaction l' = feeCanApply signedTransaction l := by
  obtain ⟨n, rfl⟩ := h
  rfl

omit [Externals] in
theorem feeApply_agree (h : l.Agree l') (feeReceiver : String) :
    Alike Ledger.Agree (feeApply a signedTransaction feeReceiver l)
      (feeApply b signedTransaction feeReceiver l') := by
  unfold feeApply
  split
  · exact h
  · refine alike_bind_same _ fun address _ => ?_
    exact (Ledger.agree_increase h a b _ _ _).bind fun _ _ h => Ledger.agree_decrease h a b _ _ _

theorem applyMined_agree (shared : a.Shared b) (h : l.Agree l') {miner : String}
    (named : miner ≠ "")
    (free : ¬ signedTransaction.transactionDetails.action.againstConfig a ∧
      ¬ signedTransaction.transactionDetails.action.againstConfig b) :
    Alike Ledger.Agree (applyMined a miner signedTransaction l)
      (applyMined b miner signedTransaction l') := by
  simp only [applyMined, applyTransaction, layerOf, if_neg named,
    actionCanApply_agree shared h free, bind_assoc]
  refine alike_bind_same _ fun canApply _ => ?_
  cases canApply with
  | false => rfl
  | true =>
      simp only [Bool.true_eq_false, if_false, bind_assoc]
      refine (actionApply_agree shared h free).bind fun _ _ h => ?_
      rw [feeCanApply_agree h]
      refine alike_bind_same _ fun feeOk _ => ?_
      cases feeOk with
      | false =>
          simp only [if_true, bind_assoc]
          exact (actionRevert_agree shared h).bind fun _ _ _ => rfl
      | true =>
          simp only [Bool.true_eq_false, if_false, bind_assoc]
          exact (feeApply_agree h miner).bind fun _ _ h => h

end Actions

section Blocks

variable {a b : Context} {l l' : Ledger}

theorem validateStatistics_agree (shared : a.Shared b) (docs : Documents)
    (channelProvided storageProvided : Provided) (blockNumber : ℕ) :
    validateStatistics b docs channelProvided storageProvided blockNumber =
      validateStatistics a docs channelProvided storageProvided blockNumber := by
  simp only [validateStatistics, shared.testnet]

theorem grantRewards_agree (shared : a.Shared b) (h : l.Agree l') (block : Block)
    (miner : String) (type : SetUsed) :
    grantRewards b block miner type l' = grantRewards a block miner type l := by
  obtain ⟨n, rfl⟩ := h
  simp only [grantRewards, validateStatistics_agree shared, shared.blockchain, composeRewards,
    shared.blockRewardArray]
  rfl

theorem increaseRewards_agree (h : l.Agree l') (rewards : List Reward) :
    Alike Ledger.Agree (increaseRewards a rewards l) (increaseRewards b rewards l') := by
  unfold increaseRewards
  refine alike_runAll ?_ h
  intro reward _ _ _ h
  exact Ledger.agree_increase h a b reward.target reward.amount .chain

theorem applyRewards_agree (shared : a.Shared b) (h : l.Agree l') (block : Block)
    (miner : String) :
    Alike Ledger.Agree (applyRewards a block miner l) (applyRewards b block miner l') := by
  simp only [applyRewards, checkRewards, grantRewards_agree shared h, bind_assoc]
  refine alike_bind_same _ fun granted _ => ?_
  refine alike_bind_same _ fun _ _ => ?_
  refine alike_bind_same _ fun _ _ => ?_
  obtain ⟨n, rfl⟩ := h
  exact increaseRewards_agree ⟨n, rfl⟩ _

variable [Externals]

theorem applyBlock_agree (shared : a.Shared b) (h : l.Agree l') (block : Block) {miner : String}
    (named : miner ≠ "")
    (free : ∀ signedTransaction ∈ block.signedTransactions,
      ¬ signedTransaction.transactionDetails.action.againstConfig a ∧
      ¬ signedTransaction.transactionDetails.action.againstConfig b) :
    Alike Ledger.Agree (applyBlock a block miner l) (applyBlock b block miner l') := by
  unfold applyBlock
  refine Alike.bind (R := Ledger.Agree) ?_ fun _ _ h => applyRewards_agree shared h block miner
  refine alike_runAll ?_ h
  intro signedTransaction hmem _ _ h
  exact applyMined_agree shared h named (free signedTransaction hmem)

/-- A transaction that is applied in a block is no role against the settings. -/
theorem not_againstConfig_of_applyMined {miner : String} {signedTransaction : SignedTransaction}
    (h : applyMined a miner signedTransaction l = .ok l') :
    ¬ signedTransaction.transactionDetails.action.againstConfig a := by
  intro against
  cases haction : signedTransaction.transactionDetails.action with
  | role role =>
      rw [haction] at against
      have hrole : role.againstConfig a := against
      simp only [applyMined, applyTransaction, bind_assoc, bind_ok_iff] at h
      obtain ⟨canApply, hcan, h⟩ := h
      have hfalse : canApply = false := by
        simp only [actionCanApply, haction, bind_ok_iff] at hcan
        obtain ⟨_, _, hcan⟩ := hcan
        simp only [Role.actionCanApply, bind_ok_iff, if_pos hrole] at hcan
        obtain ⟨permitted, _, hcan⟩ := hcan
        split_ifs at hcan <;> exact (pure_ok_iff.mp hcan).symm
      subst hfalse
      simp only [if_true, require_ok_iff, exists_const] at h
      obtain ⟨⟨applied, after⟩, heq, happlied, _⟩ := h
      cases pure_ok_iff.mp heq
      cases happlied
  | _ =>
      rw [haction] at against
      exact against

theorem not_againstConfig_of_applyBlock {block : Block} {miner : String}
    (h : applyBlock a block miner l = .ok l') :
    ∀ signedTransaction ∈ block.signedTransactions,
      ¬ signedTransaction.transactionDetails.action.againstConfig a := by
  obtain ⟨m, run, _⟩ := bind_ok_iff.mp h
  clear h
  generalize block.signedTransactions = transactions at run
  induction transactions generalizing l with
  | nil => simp
  | cons signedTransaction rest ih =>
      obtain ⟨t, first, run⟩ := runAll_cons_ok_iff.mp run
      intro other hmem
      rcases List.mem_cons.mp hmem with rfl | hmem
      · exact not_againstConfig_of_applyMined first
      · exact ih run other hmem

theorem replayBlock_agree (network : a.SameNetwork b) (h : l.Agree l') (chain : Blockchain)
    (next : SignedBlock) (signed : next.authorization.address ≠ "")
    (free : ∀ signedTransaction ∈ next.blockDetails.signedTransactions,
      ¬ signedTransaction.transactionDetails.action.againstConfig a ∧
      ¬ signedTransaction.transactionDetails.action.againstConfig b) :
    Alike (fun s s' : Blockchain × Ledger => s.1 = s'.1 ∧ s.2.Agree s'.2)
      (replayBlock a next (chain, l)) (replayBlock b next (chain, l')) := by
  unfold replayBlock
  refine alike_bind_same _ fun miner hminer => ?_
  have shared : (a.withChain chain).Shared (b.withChain chain) :=
    { testnet := network.testnet
      transferOnly := network.transferOnly
      blockRewardArray := network.blockRewardArray
      blockchain := rfl }
  refine (applyBlock_agree shared h next.blockDetails (getMiner_ne_empty signed hminer) free).bind
    fun _ _ h => ?_
  exact alike_bind_same _ fun _ _ => alike_ok ⟨rfl, h⟩

theorem agree_of_replayBlock (network : a.SameNetwork b) (h : l.Agree l') {chain : Blockchain}
    {next : SignedBlock} (signed : next.authorization.address ≠ "") {s s' : Blockchain × Ledger}
    (ha : replayBlock a next (chain, l) = .ok s) (hb : replayBlock b next (chain, l') = .ok s') :
    s.1 = s'.1 ∧ s.2.Agree s'.2 := by
  obtain ⟨_, _, ha'⟩ := bind_ok_iff.mp ha
  obtain ⟨_, ha', _⟩ := bind_ok_iff.mp ha'
  obtain ⟨_, _, hb'⟩ := bind_ok_iff.mp hb
  obtain ⟨_, hb', _⟩ := bind_ok_iff.mp hb'
  have free : ∀ signedTransaction ∈ next.blockDetails.signedTransactions,
      ¬ signedTransaction.transactionDetails.action.againstConfig a ∧
      ¬ signedTransaction.transactionDetails.action.againstConfig b := fun st hst =>
    ⟨not_againstConfig_of_applyBlock ha' st hst, not_againstConfig_of_applyBlock hb' st hst⟩
  obtain ⟨t, ht, hagree⟩ := (replayBlock_agree network h chain next signed free).ok_left ha
  rw [hb] at ht
  cases ht
  exact hagree

theorem agree_of_replayBlocks (network : a.SameNetwork b) {blocks : List SignedBlock}
    (signed : ∀ block ∈ blocks, block.authorization.address ≠ "")
    {start start' s s' : Blockchain × Ledger} (h : start.1 = start'.1 ∧ start.2.Agree start'.2)
    (ha : runAll (replayBlock a) blocks start = .ok s)
    (hb : runAll (replayBlock b) blocks start' = .ok s') : s.1 = s'.1 ∧ s.2.Agree s'.2 := by
  induction blocks generalizing start start' with
  | nil =>
      cases ha
      cases hb
      exact h
  | cons block rest ih =>
      rcases start with ⟨chain, l⟩
      rcases start' with ⟨chain', l'⟩
      obtain ⟨rfl, hagree⟩ := h
      obtain ⟨m, first, rest_a⟩ := runAll_cons_ok_iff.mp ha
      obtain ⟨m', first', rest_b⟩ := runAll_cons_ok_iff.mp hb
      have hnext := agree_of_replayBlock network hagree (signed block List.mem_cons_self)
        first first'
      exact ih (fun other hmem => signed other (List.mem_cons_of_mem block hmem)) hnext rest_a
        rest_b

theorem replay_agree (network : a.SameNetwork b) {genesis : SignedBlock}
    {blocks : List SignedBlock} (signed : ∀ block ∈ blocks, block.authorization.address ≠ "")
    {s s' : Blockchain × Ledger} (ha : replay a genesis blocks = .ok s)
    (hb : replay b genesis blocks = .ok s') : s.1 = s'.1 ∧ s.2.Agree s'.2 := by
  obtain ⟨chain, hchain, hrest⟩ := bind_ok_iff.mp ha
  obtain ⟨l, hl, hrun⟩ := bind_ok_iff.mp hrest
  obtain ⟨chain', hchain', hrest'⟩ := bind_ok_iff.mp hb
  obtain ⟨l', hl', hrun'⟩ := bind_ok_iff.mp hrest'
  rw [hchain] at hchain'
  cases hchain'
  obtain ⟨l'', hl'', hagree⟩ := (increaseRewards_agree (b := b.withChain chain)
    (Ledger.Agree.refl _) genesis.blockDetails.rewards).ok_left hl
  rw [hl'] at hl''
  cases hl''
  exact @agree_of_replayBlocks _ _ _ network _ signed (chain, l) (chain, l') _ _
    ⟨rfl, hagree⟩ hrun hrun'

/-- On two nodes that hold the same chain the next block is accepted by both or by none,
when it has no role against the settings of either; and where both accept a block they
hold the same ledger after it, the node's own copy of its balance apart. -/
theorem validity_independent (network : a.SameNetwork b) {genesis : SignedBlock}
    {blocks : List SignedBlock} {s s' : Blockchain × Ledger} (ha : replay a genesis blocks = .ok s)
    (hb : replay b genesis blocks = .ok s') (next : SignedBlock)
    (signed : ∀ block ∈ next :: blocks, block.authorization.address ≠ "") :
    ((∀ signedTransaction ∈ next.blockDetails.signedTransactions,
        ¬ signedTransaction.transactionDetails.action.againstConfig a ∧
        ¬ signedTransaction.transactionDetails.action.againstConfig b) →
      ((∃ t, replayBlock a next s = .ok t) ↔ ∃ t', replayBlock b next s' = .ok t')) ∧
    ∀ t t', replayBlock a next s = .ok t → replayBlock b next s' = .ok t' →
      t.1 = t'.1 ∧ t.2.state.accounts = t'.2.state.accounts ∧
        t.2.state.roles = t'.2.state.roles ∧ t.2.documents = t'.2.documents ∧
        t.2.authorityManager = t'.2.authorityManager := by
  have hnext := signed next List.mem_cons_self
  obtain ⟨hchain, hagree⟩ := replay_agree network
    (fun block hmem => signed block (List.mem_cons_of_mem next hmem)) ha hb
  rcases s with ⟨chain, l⟩
  rcases s' with ⟨chain', l'⟩
  cases hchain
  constructor
  · intro free
    have alike := replayBlock_agree network hagree chain next hnext free
    constructor
    · rintro ⟨t, ht⟩
      obtain ⟨t', ht', _⟩ := alike.ok_left ht
      exact ⟨t', ht'⟩
    · rintro ⟨t', ht'⟩
      obtain ⟨t, ht, _⟩ := alike.ok_right ht'
      exact ⟨t, ht⟩
  · intro t t' ht ht'
    obtain ⟨hsame, h⟩ := agree_of_replayBlock network hagree hnext ht ht'
    exact ⟨hsame, Ledger.agree_iff.mp h⟩

end Blocks

section Examples

def exampleGenesis : SignedBlock :=
  ⟨⟨⟨0, 0, 0, 1, "", 0⟩, [⟨"server", ⟨100000, 0⟩, .initial⟩], []⟩, ⟨"server", ""⟩⟩

def exampleNext (action : Action) : SignedBlock :=
  ⟨⟨⟨1, 0, 0, 1, "", 600⟩, [⟨"miner", ⟨1000, 0⟩, .miner⟩],
    [⟨⟨0, 3600, 0, action⟩, [⟨"server", ""⟩]⟩]⟩, ⟨"miner", ""⟩⟩

local instance plainNode : Externals := plainExternals

theorem exampleNode_sameNetwork (own other : String) (nodeType otherType : NodeType) :
    (exampleNode own nodeType).SameNetwork (exampleNode other otherType) := ⟨rfl, rfl, rfl⟩

def acceptsNext (ctx : Context) (next : SignedBlock) : Bool :=
  ((replay ctx exampleGenesis []).bind (replayBlock ctx next)).isOk

theorem acceptsNext_iff {ctx : Context} {s : Blockchain × Ledger}
    (h : replay ctx exampleGenesis [] = .ok s) (next : SignedBlock) :
    acceptsNext ctx next = true ↔ ∃ t, replayBlock ctx next s = .ok t := by
  rw [acceptsNext, h]
  exact isOk_iff

/-- A transfer of the server is taken by its own node and by another one. -/
theorem transfer_validity_independent :
    acceptsNext (exampleNode "server" .storage)
        (exampleNext (.transfer ⟨"server", "other", ⟨5, 0⟩, ""⟩)) = true ↔
      acceptsNext (exampleNode "other" .blockchain)
        (exampleNext (.transfer ⟨"server", "other", ⟨5, 0⟩, ""⟩)) = true := by
  obtain ⟨s, hs⟩ := isOk_iff.mp
    (show (replay (exampleNode "server" .storage) exampleGenesis []).isOk = true by decide)
  obtain ⟨s', hs'⟩ := isOk_iff.mp
    (show (replay (exampleNode "other" .blockchain) exampleGenesis []).isOk = true by decide)
  rw [acceptsNext_iff hs, acceptsNext_iff hs']
  apply (validity_independent (exampleNode_sameNetwork _ _ _ _) hs hs' _ (by decide)).1
  simp [exampleNext, Action.againstConfig]

/-- The node of a server that is configured as a storage refuses the block in which the
server becomes a channel. Every other node accepts it. -/
theorem validity_not_independent :
    ¬ ∀ (a b : Context) (genesis : SignedBlock) (blocks : List SignedBlock)
      (s s' : Blockchain × Ledger) (next : SignedBlock), a.SameNetwork b →
      replay a genesis blocks = .ok s → replay b genesis blocks = .ok s' →
      (∀ block ∈ next :: blocks, block.authorization.address ≠ "") →
      ((∃ t, replayBlock a next s = .ok t) ↔ ∃ t', replayBlock b next s' = .ok t') := by
  intro claim
  obtain ⟨s, hs⟩ := isOk_iff.mp
    (show (replay (exampleNode "server" .storage) exampleGenesis []).isOk = true by decide)
  obtain ⟨s', hs'⟩ := isOk_iff.mp
    (show (replay (exampleNode "other" .blockchain) exampleGenesis []).isOk = true by decide)
  have same := claim _ _ _ _ _ _ (exampleNext (.role ⟨"server", .channel⟩))
    (exampleNode_sameNetwork _ _ _ _) hs hs' (by decide)
  rw [← acceptsNext_iff hs, ← acceptsNext_iff hs'] at same
  have accepted : acceptsNext (exampleNode "other" .blockchain)
      (exampleNext (.role ⟨"server", .channel⟩)) = true := by decide
  have refused : acceptsNext (exampleNode "server" .storage)
      (exampleNext (.role ⟨"server", .channel⟩)) = false := by decide
  rw [same.mpr accepted] at refused
  cases refused

end Examples
end Publiq
