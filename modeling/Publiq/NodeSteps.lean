import Publiq.BlockLedger
import Publiq.Run

/-! What each step of a node leaves unchanged. Only blocks change the chain; the pool
and the cache are followed by the lemmas of the functions that write them. -/
namespace Publiq
open Message Checked

namespace NodeInternals

/-- The parts of a node that nothing but a new block, a restart or the outside changes. -/
def SameChain (a b : NodeInternals) : Prop :=
  b.ctx = a.ctx ∧ b.freezeBeforeBlock = a.freezeBeforeBlock

/-- The parts of a node that the ledger has no part in. -/
def SameQueues (a b : NodeInternals) : Prop :=
  SameChain a b ∧ b.transactionPool = a.transactionPool ∧ b.transactionCache = a.transactionCache

theorem SameChain.refl (a : NodeInternals) : SameChain a a := ⟨rfl, rfl⟩

theorem SameChain.trans {a b c : NodeInternals} (h : SameChain a b) (h' : SameChain b c) :
    SameChain a c := ⟨h'.1.trans h.1, h'.2.trans h.2⟩

theorem SameChain.blockchain {a b : NodeInternals} (h : SameChain a b) :
    b.blockchain = a.blockchain := congrArg Context.blockchain h.1

theorem SameQueues.trans {a b c : NodeInternals} (h : SameQueues a b) (h' : SameQueues b c) :
    SameQueues a c :=
  ⟨h.1.trans h'.1, h'.2.1.trans h.2.1, h'.2.2.trans h.2.2⟩

variable [Externals]

theorem applyTransaction_spec {key : String} {st : SignedTransaction} {node after : NodeInternals}
    {applied : Bool} (h : node.applyTransaction key st = .ok (applied, after)) :
    Publiq.applyTransaction node.ctx key st node.ledger = .ok (applied, after.ledger) ∧
      SameQueues node after ∧ after.actionLog = node.actionLog := by
  obtain ⟨⟨b, l⟩, hl, h⟩ := bind_ok_iff.mp h
  cases pure_ok_iff.mp h
  exact ⟨hl, ⟨⟨rfl, rfl⟩, rfl, rfl⟩, rfl⟩

theorem revertTransaction_spec {key : String} {st : SignedTransaction} {node after : NodeInternals}
    (h : node.revertTransaction key st = .ok after) :
    Publiq.revertTransaction node.ctx key st node.ledger = .ok after.ledger ∧
      SameQueues node after := by
  obtain ⟨l, hl, h⟩ := bind_ok_iff.mp h
  cases pure_ok_iff.mp h
  exact ⟨hl, ⟨rfl, rfl⟩, rfl, rfl⟩

theorem revertPooled_spec {st : SignedTransaction} {node after : NodeInternals}
    (h : node.revertPooled st = .ok after) :
    SameChain node after ∧ after.transactionPool = node.transactionPool ∧
      after.transactionCache = (TransactionCache.erasePool st node.transactionCache).2 ∧
      if (TransactionCache.erasePool st node.transactionCache).1 then
        Publiq.revertTransaction node.ctx "" st node.ledger = .ok after.ledger
      else after.ledger = node.ledger := by
  unfold revertPooled at h
  cases hcomplete : (TransactionCache.erasePool st node.transactionCache).1 with
  | true =>
      simp only [hcomplete, if_true] at h
      obtain ⟨log, _, h⟩ := bind_ok_iff.mp h
      obtain ⟨hl, hchain, hpool, hcache⟩ := revertTransaction_spec h
      exact ⟨hchain, hpool, hcache, hl⟩
  | false =>
      simp only [hcomplete, Bool.false_eq_true, if_false] at h
      cases pure_ok_iff.mp h
      exact ⟨⟨rfl, rfl⟩, rfl, rfl, rfl⟩

def dropPooled (transactions : List SignedTransaction) (cache : TransactionCache) :
    TransactionCache :=
  transactions.foldl (fun cache st => (TransactionCache.erasePool st cache).2) cache

theorem dropPooled_getElem? (transactions : List SignedTransaction) (cache : TransactionCache)
    (key : String) : (dropPooled transactions cache)[key]? =
      if key ∈ transactions.map transactionHash then none else cache[key]? := by
  induction transactions generalizing cache with
  | nil => simp [dropPooled]
  | cons st rest ih =>
      change (dropPooled rest (cache.erase (transactionHash st)))[key]? = _
      rw [ih, Std.ExtTreeMap.getElem?_erase]
      by_cases hkey : key = transactionHash st
      · simp [hkey]
      · simp [hkey, Ne.symm hkey]

theorem revertAll_spec {transactions : List SignedTransaction} {node after : NodeInternals}
    (h : runAll revertPooled transactions node = .ok after) :
    SameChain node after ∧ after.transactionPool = node.transactionPool ∧
      after.transactionCache = dropPooled transactions node.transactionCache := by
  induction transactions generalizing node with
  | nil =>
      cases h
      exact ⟨SameChain.refl _, rfl, rfl⟩
  | cons st rest ih =>
      obtain ⟨mid, first, run⟩ := runAll_cons_ok_iff.mp h
      obtain ⟨hchain, hpool, hcache, _⟩ := revertPooled_spec first
      obtain ⟨hchain', hpool', hcache'⟩ := ih run
      refine ⟨hchain.trans hchain', hpool'.trans hpool, ?_⟩
      rw [hcache', hcache]
      rfl

/-- `revert_pool` empties the pool and takes its transactions out of the cache. -/
theorem revertPool_spec {expiryTime : ℤ} {node after : NodeInternals}
    {unexpired : List SignedTransaction} (h : node.revertPool expiryTime = .ok (unexpired, after)) :
    SameChain node after ∧ after.transactionPool = [] ∧
      after.transactionCache = dropPooled node.transactionPool.reverse node.transactionCache ∧
      unexpired = node.transactionPool.filter fun st => expiryTime ≤ st.transactionDetails.expiry := by
  obtain ⟨mid, run, h⟩ := bind_ok_iff.mp h
  cases pure_ok_iff.mp h
  obtain ⟨hchain, hpool, hcache⟩ := revertAll_spec run
  exact ⟨hchain, hpool, hcache, rfl⟩

omit [Externals] in
theorem attempts_cases {complete attempt : Bool} {st : SignedTransaction} {node : NodeInternals}
    (h : node.attempts complete st = .ok attempt) :
    (attempt = true ∧
        (complete = true ∨ actionCanApply node.ctx st .pool node.ledger = .ok false)) ∨
      attempt = false ∧ complete = false ∧
        actionCanApply node.ctx st .pool node.ledger = .ok true := by
  unfold attempts at h
  cases complete with
  | true => exact .inl ⟨(pure_ok_iff.mp h).symm, .inl rfl⟩
  | false =>
      obtain ⟨canApply, hcan, h⟩ := bind_ok_iff.mp h
      cases canApply with
      | false => exact .inl ⟨(pure_ok_iff.mp h).symm, .inr hcan⟩
      | true => exact .inr ⟨(pure_ok_iff.mp h).symm, rfl, hcan⟩

theorem canApply_of_applied {st : SignedTransaction} {node mid : NodeInternals}
    (h : node.applyTransaction "" st = .ok (true, mid)) :
    actionCanApply node.ctx st .pool node.ledger = .ok true := by
  obtain ⟨canApply, hcan, h⟩ := bind_ok_iff.mp (applyTransaction_spec h).1
  cases canApply with
  | false =>
      cases pure_ok_iff.mp h
  | true => exact hcan

/-- What `repool` does with a transaction: drop it, or put it into the pool, after it was
applied or because it could be applied although it is not complete. -/
theorem repool_cases {complete : Bool} {st : SignedTransaction} {node after : NodeInternals}
    (h : node.repool complete st = .ok after) :
    (∃ mid, node.applyTransaction "" st = .ok (false, mid) ∧ after = mid) ∨
    (complete = true ∧ ∃ mid, node.applyTransaction "" st = .ok (true, mid) ∧
      after = pushPool st complete
        { mid with actionLog := mid.actionLog.logTransaction st }) ∨
    (complete = false ∧ actionCanApply node.ctx st .pool node.ledger = .ok true ∧
      after = pushPool st complete node) := by
  obtain ⟨attempt, hattempt, h⟩ := bind_ok_iff.mp h
  rcases attempts_cases hattempt with ⟨rfl, htried⟩ | ⟨rfl, hcomplete, hcan⟩
  · simp only [if_true] at h
    obtain ⟨⟨applied, mid⟩, happly, h⟩ := bind_ok_iff.mp h
    cases applied with
    | true =>
        simp only [if_true] at h
        refine .inr (.inl ⟨?_, mid, happly, (pure_ok_iff.mp h).symm⟩)
        rcases htried with hcomplete | hnot
        · exact hcomplete
        · rw [canApply_of_applied happly] at hnot
          cases hnot
    | false =>
        simp only [Bool.false_eq_true, if_false] at h
        exact .inl ⟨mid, happly, (pure_ok_iff.mp h).symm⟩
  · simp only [Bool.false_eq_true, if_false] at h
    exact .inr (.inr ⟨hcomplete, hcan, (pure_ok_iff.mp h).symm⟩)

theorem repool_sameChain {complete : Bool} {st : SignedTransaction} {node after : NodeInternals}
    (h : node.repool complete st = .ok after) : SameChain node after := by
  rcases repool_cases h with ⟨mid, happly, rfl⟩ | ⟨_, mid, happly, rfl⟩ | ⟨_, _, rfl⟩
  · exact (applyTransaction_spec happly).2.1.1
  · exact (applyTransaction_spec happly).2.1.1
  · exact ⟨rfl, rfl⟩

/-- What `mineTransaction` does with a transaction: it waits because it is known already,
it waits because it cannot be applied, or it becomes part of the block. -/
theorem mineTransaction_cases {st : SignedTransaction} {node after : NodeInternals}
    {s t : Selection} (h : mineTransaction st (node, s) = .ok (after, t)) :
    (TransactionCache.addChain st node.transactionCache = none ∧ after = node ∧
      t = { s with waiting := s.waiting ++ [st] }) ∨
    ∃ cache, TransactionCache.addChain st node.transactionCache = some cache ∧
      ((∃ mid, ({ node with transactionCache := cache } : NodeInternals).applyTransaction
          node.ctx.own st = .ok (true, mid) ∧ after = mid ∧
          t = { s with blockTransactions := s.blockTransactions ++ [st] }) ∨
        ∃ mid, ({ node with transactionCache := cache } : NodeInternals).applyTransaction
          node.ctx.own st = .ok (false, mid) ∧
          after = { mid with
            transactionCache := TransactionCache.eraseChain st mid.transactionCache } ∧
          t = { s with waiting := s.waiting ++ [st] }) := by
  simp only [mineTransaction] at h
  cases hadd : TransactionCache.addChain st node.transactionCache with
  | none =>
      simp only [hadd] at h
      cases pure_ok_iff.mp h
      exact .inl ⟨rfl, rfl, rfl⟩
  | some cache =>
      simp only [hadd] at h
      obtain ⟨⟨applied, mid⟩, happly, h⟩ := bind_ok_iff.mp h
      refine .inr ⟨cache, rfl, ?_⟩
      cases applied with
      | true =>
          simp only [if_true] at h
          cases pure_ok_iff.mp h
          exact .inl ⟨_, happly, rfl, rfl⟩
      | false =>
          simp only [Bool.false_eq_true, if_false] at h
          cases pure_ok_iff.mp h
          exact .inr ⟨mid, happly, rfl, rfl⟩

theorem appendBlock_spec {signedBlock : SignedBlock} {granted : Granted}
    {node after : NodeInternals} (h : node.appendBlock signedBlock granted = .ok after) :
    ∃ chain, node.blockchain.insert signedBlock = .ok chain ∧
      after.ctx = node.ctx.withChain chain ∧
      after.freezeBeforeBlock = node.freezeBeforeBlock ∧
      after.transactionPool = node.transactionPool ∧
      after.transactionCache = node.transactionCache ∧
      increaseRewards node.ctx signedBlock.blockDetails.rewards
        { node.ledger with documents := granted.documents } = .ok after.ledger := by
  obtain ⟨l, hl, h⟩ := bind_ok_iff.mp h
  obtain ⟨chain, hchain, h⟩ := bind_ok_iff.mp h
  obtain ⟨log, _, h⟩ := bind_ok_iff.mp h
  cases pure_ok_iff.mp h
  exact ⟨chain, hchain, rfl, rfl, rfl, rfl, hl⟩

theorem connectTransaction_spec {miner : String} {st : SignedTransaction}
    {node after : NodeInternals} {last next : ℤ}
    (h : connectTransaction miner st (node, last) = .ok (after, next)) :
    ∃ cache, TransactionCache.addChain st node.transactionCache = some cache ∧
      SameChain node after ∧ after.transactionPool = node.transactionPool ∧
      after.transactionCache = cache ∧
      Publiq.applyTransaction node.ctx miner st node.ledger = .ok (true, after.ledger) ∧
      last ≤ st.transactionDetails.creation ∧ next = st.transactionDetails.creation := by
  simp only [connectTransaction] at h
  cases hadd : TransactionCache.addChain st node.transactionCache with
  | none => simp [hadd] at h
  | some cache =>
      simp only [hadd] at h
      obtain ⟨⟨applied, mid⟩, happly, h⟩ := bind_ok_iff.mp h
      simp only [require_bind_ok_iff] at h
      obtain ⟨rfl, hsorted, h⟩ := h
      cases pure_ok_iff.mp h
      obtain ⟨hl, ⟨hchain, hpool, hcache⟩, _⟩ := applyTransaction_spec happly
      exact ⟨cache, rfl, hchain, hpool, hcache, hl, hsorted, rfl⟩

def addMined : List SignedTransaction → TransactionCache → Option TransactionCache
  | [], cache => some cache
  | st :: rest, cache => (TransactionCache.addChain st cache).bind (addMined rest)

theorem connectAll_spec {miner : String} {transactions : List SignedTransaction}
    {node after : NodeInternals} {last next : ℤ}
    (h : runAll (connectTransaction miner) transactions (node, last) = .ok (after, next)) :
    addMined transactions node.transactionCache = some after.transactionCache ∧
      SameChain node after ∧ after.transactionPool = node.transactionPool ∧
      runAll (applyMined node.ctx miner) transactions node.ledger = .ok after.ledger ∧
      (transactions.map fun st => st.transactionDetails.creation).Pairwise (· ≤ ·) ∧
      ∀ st ∈ transactions, last ≤ st.transactionDetails.creation := by
  induction transactions generalizing node last with
  | nil =>
      cases h
      exact ⟨rfl, SameChain.refl _, rfl, rfl, List.Pairwise.nil, fun _ h => nomatch h⟩
  | cons st rest ih =>
      obtain ⟨⟨mid, t⟩, first, run⟩ := runAll_cons_ok_iff.mp h
      obtain ⟨cache, hadd, hchain, hpool, hcache, hl, hlast, rfl⟩ := connectTransaction_spec first
      obtain ⟨hadd', hchain', hpool', hl', hsorted, hlast'⟩ := ih run
      refine ⟨?_, hchain.trans hchain', hpool'.trans hpool, ?_, ?_, ?_⟩
      · rw [addMined, hadd, Option.bind_some, ← hcache, hadd']
      · rw [hchain.1] at hl'
        rw [runAll_cons_ok_iff]
        refine ⟨mid.ledger, ?_, hl'⟩
        rw [applyMined, hl]
        rfl
      · rw [List.map_cons, List.pairwise_cons]
        refine ⟨?_, hsorted⟩
        intro creation hmem
        obtain ⟨other, hother, rfl⟩ := List.mem_map.mp hmem
        exact hlast' other hother
      · intro other hmem
        rcases List.mem_cons.mp hmem with rfl | hmem
        · exact hlast
        · exact hlast.trans (hlast' other hmem)

/-- A received block is applied to the ledger, its transactions are new to the cache, and
it stands at the end of the chain. -/
theorem connectBlock_spec {signedBlock : SignedBlock} {node after : NodeInternals}
    (h : node.connectBlock signedBlock = .ok after) :
    ∃ miner chain, getMiner signedBlock = .ok miner ∧ node.checkMiner signedBlock miner = .ok () ∧
      node.blockchain.insert signedBlock = .ok chain ∧ after.ctx = node.ctx.withChain chain ∧
      after.freezeBeforeBlock = node.freezeBeforeBlock ∧
      after.transactionPool = node.transactionPool ∧
      addMined signedBlock.blockDetails.signedTransactions node.transactionCache =
        some after.transactionCache ∧
      applyBlock node.ctx signedBlock.blockDetails miner node.ledger = .ok after.ledger ∧
      (signedBlock.blockDetails.signedTransactions.map
        fun st => st.transactionDetails.creation).Pairwise (· ≤ ·) := by
  obtain ⟨miner, hminer, h⟩ := bind_ok_iff.mp h
  obtain ⟨_, hcheck, h⟩ := bind_ok_iff.mp h
  obtain ⟨⟨mid, t⟩, run, h⟩ := bind_ok_iff.mp h
  obtain ⟨⟨mismatch, granted⟩, hrewards, h⟩ := bind_ok_iff.mp h
  obtain ⟨hmismatch, h⟩ := require_bind_ok_iff.mp h
  obtain ⟨hadd, hchain, hpool, hl, hsorted, _⟩ := connectAll_spec run
  obtain ⟨chain, hinsert, hctx, hfreeze, hpool', hcache', hl'⟩ := appendBlock_spec h
  rw [hchain.1] at hrewards hctx hl'
  rw [hchain.blockchain] at hinsert
  refine ⟨miner, chain, hminer, hcheck, hinsert, hctx, hfreeze.trans hchain.2,
    hpool'.trans hpool, ?_, ?_, hsorted⟩
  · rw [hadd, hcache']
  · rw [applyBlock, hl, ok_bind, applyRewards, hrewards, ok_bind]
    simp only [hmismatch, require_true, ok_bind]
    exact hl'

def eraseMined (transactions : List SignedTransaction) (cache : TransactionCache) :
    TransactionCache :=
  transactions.foldl (fun cache st => TransactionCache.eraseChain st cache) cache

theorem revertAllMined_spec {miner : String} {transactions : List SignedTransaction}
    {node after : NodeInternals} (h : runAll (revertMined miner) transactions node = .ok after) :
    SameChain node after ∧ after.transactionPool = node.transactionPool ∧
      after.transactionCache = eraseMined transactions node.transactionCache ∧
      runAll (Publiq.revertTransaction node.ctx miner) transactions node.ledger =
        .ok after.ledger := by
  induction transactions generalizing node with
  | nil =>
      cases h
      exact ⟨SameChain.refl _, rfl, rfl, rfl⟩
  | cons st rest ih =>
      obtain ⟨mid, first, run⟩ := runAll_cons_ok_iff.mp h
      obtain ⟨reverted, hrevert, first⟩ := bind_ok_iff.mp first
      cases pure_ok_iff.mp first
      obtain ⟨hl, hchain, hpool, hcache⟩ := revertTransaction_spec hrevert
      obtain ⟨hchain', hpool', hcache', hl'⟩ := ih run
      have hctx : reverted.ctx = node.ctx := hchain.1
      refine ⟨⟨hchain'.1.trans hctx, hchain'.2.trans hchain.2⟩, hpool'.trans hpool, ?_, ?_⟩
      · rw [hcache']
        simp only [hcache]
        rfl
      · rw [runAll_cons_ok_iff]
        exact ⟨reverted.ledger, hl, hctx ▸ hl'⟩

/-- The cache after the last block was taken away: its transactions are forgotten, and
those of the block that is as old as a transaction may get are known again. -/
def cacheWithout (chain : Blockchain) (cache : TransactionCache) : TransactionCache :=
  let erased := eraseMined chain.lastBlock.blockDetails.signedTransactions.reverse cache
  match chain.blocks[chain.length - 1 - blockCountPerTransactionLifetime]? with
  | some old =>
      if blockCountPerTransactionLifetime ≤ chain.length - 1 then recacheBlock old erased
      else erased
  | none => erased

/-- Removing the last block takes it back from the ledger. -/
theorem disconnectBlock_spec {node after : NodeInternals} (h : node.disconnectBlock = .ok after) :
    ∃ miner chain, getMiner node.blockchain.lastBlock = .ok miner ∧
      node.blockchain.removeLastBlock = .ok chain ∧ after.ctx = node.ctx.withChain chain ∧
      after.freezeBeforeBlock = node.freezeBeforeBlock ∧
      after.transactionPool = node.transactionPool ∧
      after.transactionCache = cacheWithout node.blockchain node.transactionCache ∧
      revertBlock (node.ctx.withChain chain) node.blockchain.lastBlock.blockDetails miner
        node.ledger = .ok after.ledger := by
  obtain ⟨chain, hremove, h⟩ := bind_ok_iff.mp h
  obtain ⟨log, _, h⟩ := bind_ok_iff.mp h
  obtain ⟨miner, hminer, h⟩ := bind_ok_iff.mp h
  obtain ⟨mid, hledger, h⟩ := bind_ok_iff.mp h
  obtain ⟨permitted, _, h⟩ := bind_ok_iff.mp h
  obtain ⟨_, h⟩ := require_bind_ok_iff.mp h
  obtain ⟨⟨mismatch, granted⟩, hrewards, hledger⟩ := bind_ok_iff.mp hledger
  obtain ⟨hmismatch, hledger⟩ := require_bind_ok_iff.mp hledger
  obtain ⟨l, hdecrease, run⟩ := bind_ok_iff.mp hledger
  obtain ⟨hchain, hpool, hcache, hl⟩ := revertAllMined_spec run
  have hrevert : revertBlock (node.ctx.withChain chain)
      node.blockchain.lastBlock.blockDetails miner node.ledger = .ok mid.ledger := by
    rw [revertBlock, revertRewards]
    rw [bind_assoc, hrewards, ok_bind]
    simp only [hmismatch, require_true, ok_bind]
    rw [bind_ok_iff]
    exact ⟨l, hdecrease, hl⟩
  refine ⟨miner, chain, hminer, hremove, ?_⟩
  split_ifs at h with hold
  · obtain ⟨old, hat, h⟩ := bind_ok_iff.mp h
    cases pure_ok_iff.mp h
    refine ⟨hchain.1, hchain.2, hpool, ?_, hrevert⟩
    rw [hchain.blockchain] at hat
    have hblock := Blockchain.blockAt_removeLastBlock hremove (Blockchain.blockAt_ok_iff.mp hat)
    rw [cacheWithout, hblock, hcache]
    simp only [if_pos hold]
  · cases pure_ok_iff.mp h
    refine ⟨hchain.1, hchain.2, hpool, ?_, hrevert⟩
    rw [hcache, cacheWithout]
    simp only [if_neg hold]
    split <;> rfl

/-- Going back removes blocks until the chain ends with the common one. -/
theorem disconnectTo_spec {common count : ℕ} {node after : NodeInternals}
    (enough : node.blockchain.length ≤ common + 1 + count)
    (h : disconnectTo common count node = .ok after) :
    after.blockchain.blocks = node.blockchain.blocks.take (common + 1) ∧
      after.ctx = node.ctx.withChain after.blockchain ∧
      after.freezeBeforeBlock = node.freezeBeforeBlock ∧
      after.transactionPool = node.transactionPool := by
  induction count generalizing node with
  | zero =>
      cases h
      refine ⟨?_, rfl, rfl, rfl⟩
      exact (List.take_of_length_le (by simpa [Blockchain.length] using enough)).symm
  | succ count ih =>
      simp only [disconnectTo] at h
      split_ifs at h with hlong
      · obtain ⟨mid, first, h⟩ := bind_ok_iff.mp h
        obtain ⟨_, chain, _, hremove, hctx, hfreeze, hpool, _⟩ := disconnectBlock_spec first
        have hblocks := (Blockchain.removeLastBlock_ok_iff.mp hremove).2
        have hmid : mid.blockchain = chain := congrArg Context.blockchain hctx
        have hlength : chain.length = node.blockchain.length - 1 := by
          rw [Blockchain.length, hblocks, List.length_dropLast]
          rfl
        obtain ⟨hblocks', hctx', hfreeze', hpool'⟩ := ih (by rw [hmid]; omega) h
        refine ⟨?_, ?_, hfreeze'.trans hfreeze, hpool'.trans hpool⟩
        · rw [hblocks', hmid, hblocks, List.dropLast_eq_take, List.take_take]
          congr 1
          rw [Blockchain.length] at hlong
          omega
        · rw [hctx', hctx]
          rfl
      · cases pure_ok_iff.mp h
        refine ⟨?_, rfl, rfl, rfl⟩
        exact (List.take_of_length_le (by simpa [Blockchain.length] using hlong)).symm

theorem connectBlocks_spec {signedBlocks : List SignedBlock} {node after : NodeInternals}
    (h : runAll connectBlock signedBlocks node = .ok after) :
    after.blockchain.blocks = node.blockchain.blocks ++ signedBlocks ∧
      after.ctx = node.ctx.withChain after.blockchain ∧
      after.freezeBeforeBlock = node.freezeBeforeBlock ∧
      after.transactionPool = node.transactionPool := by
  induction signedBlocks generalizing node with
  | nil =>
      cases h
      exact ⟨(List.append_nil _).symm, rfl, rfl, rfl⟩
  | cons signedBlock rest ih =>
      obtain ⟨mid, first, run⟩ := runAll_cons_ok_iff.mp h
      obtain ⟨_, chain, _, _, hinsert, hctx, hfreeze, hpool, _⟩ := connectBlock_spec first
      have hmid : mid.blockchain = chain := congrArg Context.blockchain hctx
      obtain ⟨hblocks', hctx', hfreeze', hpool'⟩ := ih run
      refine ⟨?_, ?_, hfreeze'.trans hfreeze, hpool'.trans hpool⟩
      · rw [hblocks', hmid, (Blockchain.insert_ok_iff.mp hinsert).2, List.append_assoc]
        rfl
      · rw [hctx', hctx]
        rfl

theorem repoolReceived_cases {now : ℤ} {st : SignedTransaction × Bool}
    {node after : NodeInternals} (h : repoolReceived now st node = .ok after) :
    after = node ∨ ∃ complete, (st.2 = true ∧ complete = true ∨
        st.2 = false ∧ actionIsComplete node.ctx.config st.1 = .ok complete) ∧
      now - nodesTimeShift ≤ st.1.transactionDetails.expiry ∧
      TransactionCache.holds node.transactionCache st.1 = false ∧
      node.repool complete st.1 = .ok after := by
  rcases st with ⟨st, fromBlock⟩
  obtain ⟨complete, hcomplete, h⟩ := bind_ok_iff.mp h
  split_ifs at h with hkeep
  · refine .inr ⟨complete, ?_, hkeep.1, hkeep.2, h⟩
    cases fromBlock with
    | true => exact .inl ⟨rfl, (pure_ok_iff.mp hcomplete).symm⟩
    | false => exact .inr ⟨rfl, hcomplete⟩
  · exact .inl (pure_ok_iff.mp h).symm

theorem repoolReceived_sameChain {now : ℤ} {st : SignedTransaction × Bool}
    {node after : NodeInternals} (h : repoolReceived now st node = .ok after) :
    SameChain node after := by
  rcases repoolReceived_cases h with rfl | ⟨_, _, _, _, h⟩
  · exact SameChain.refl _
  · exact repool_sameChain h

theorem repoolAll_sameChain {now : ℤ} {transactions : List (SignedTransaction × Bool)}
    {node after : NodeInternals} (h : runAll (repoolReceived now) transactions node = .ok after) :
    SameChain node after :=
  runAll_invariant (I := SameChain node)
    (fun _ _ _ _ hs step => hs.trans (repoolReceived_sameChain step)) (SameChain.refl node) h

/-- The stages of replacing blocks: the pool is taken back, then the blocks above the
common one, the received ones are applied, and what waits is applied to the pool. -/
theorem replaceBlocks_stages {now : ℤ} {common : ℕ} {syncBlocks : List SignedBlock}
    {clearPool : Bool} {node after : NodeInternals}
    (h : node.replaceBlocks now common syncBlocks clearPool = .ok after) :
    ∃ pool reverted lowered raised, node.revertPool now = .ok (pool, reverted) ∧
      disconnectTo common reverted.blockchain.length reverted = .ok lowered ∧
      runAll connectBlock syncBlocks lowered = .ok raised ∧
      if raised.blockchain.length < raised.freezeBeforeBlock then
        runAll (repoolReceived now) (waitingAfter common clearPool pool node.blockchain) raised =
          .ok after
      else after = raised := by
  obtain ⟨⟨pool, reverted⟩, hpool, h⟩ := bind_ok_iff.mp h
  obtain ⟨lowered, hlower, h⟩ := bind_ok_iff.mp h
  obtain ⟨_, h⟩ := require_bind_ok_iff.mp h
  obtain ⟨raised, hraise, h⟩ := bind_ok_iff.mp h
  refine ⟨pool, reverted, lowered, raised, hpool, hlower, hraise, ?_⟩
  by_cases hfreeze : raised.blockchain.length < raised.freezeBeforeBlock
  · rw [if_pos hfreeze] at h ⊢
    exact h
  · rw [if_neg hfreeze] at h ⊢
    exact (pure_ok_iff.mp h).symm

theorem replaceBlocks_blocks {now : ℤ} {common : ℕ} {syncBlocks : List SignedBlock}
    {clearPool : Bool} {node after : NodeInternals}
    (h : node.replaceBlocks now common syncBlocks clearPool = .ok after) :
    after.blockchain.blocks = node.blockchain.blocks.take (common + 1) ++ syncBlocks ∧
      after.ctx = node.ctx.withChain after.blockchain ∧
      after.freezeBeforeBlock = node.freezeBeforeBlock := by
  obtain ⟨pool, reverted, lowered, raised, hpool, hlower, hraise, hrest⟩ := replaceBlocks_stages h
  obtain ⟨hchain, _, _, _⟩ := revertPool_spec hpool
  obtain ⟨hblocks, hctx, hfreeze, _⟩ := disconnectTo_spec (by omega) hlower
  obtain ⟨hblocks', hctx', hfreeze', _⟩ := connectBlocks_spec hraise
  have hlast : SameChain raised after := by
    split_ifs at hrest with hfrozen
    · exact repoolAll_sameChain hrest
    · exact hrest ▸ SameChain.refl _
  have hafter : after.blockchain = raised.blockchain := hlast.blockchain
  refine ⟨?_, ?_, ?_⟩
  · rw [hafter, hblocks', hblocks, hchain.blockchain]
  · rw [hlast.1, hctx', hctx, hchain.1, hafter]
    rfl
  · rw [hlast.2, hfreeze', hfreeze, hchain.2]

theorem repoolWaiting_sameChain {st : SignedTransaction} {node after : NodeInternals}
    (h : repoolWaiting st node = .ok after) : SameChain node after := by
  obtain ⟨_, _, h⟩ := bind_ok_iff.mp h
  exact repool_sameChain h

theorem mineTransaction_sameChain {st : SignedTransaction} {a b : NodeInternals × Selection}
    (h : mineTransaction st a = .ok b) : SameChain a.1 b.1 := by
  rcases a with ⟨node, s⟩
  rcases b with ⟨after, t⟩
  rcases mineTransaction_cases h with ⟨_, rfl, _⟩ | ⟨cache, _, h⟩
  · exact SameChain.refl _
  · rcases h with ⟨mid, happly, rfl, _⟩ | ⟨mid, happly, rfl, _⟩
    · exact (applyTransaction_spec happly).2.1.1
    · exact (applyTransaction_spec happly).2.1.1

theorem mineAll_sameChain {transactions : List SignedTransaction}
    {a b : NodeInternals × Selection} (h : runAll mineTransaction transactions a = .ok b) :
    SameChain a.1 b.1 :=
  runAll_invariant (I := fun t : NodeInternals × Selection => SameChain a.1 t.1)
    (fun _ _ _ _ hs step => hs.trans (mineTransaction_sameChain step)) (SameChain.refl a.1) h

/-- The stages of mining: the pool is taken back, a selection of it is applied, the block
is put on the chain, and what waits is applied to the pool. -/
theorem mineBlock_stages {node after : NodeInternals} (h : node.mineBlock = .ok after) :
    ∃ header unexpired reverted selection mined s granted appended,
      node.nextHeader = .ok header ∧
      node.revertPool header.timeSigned = .ok (unexpired, reverted) ∧
      selectTransactions reverted.ctx.config reverted.ledger header unexpired = .ok selection ∧
      runAll mineTransaction (sortByCreation selection.blockTransactions)
        (reverted, ⟨[], selection.waiting⟩) = .ok (mined, s) ∧
      grantRewards mined.ctx ⟨header, [], s.blockTransactions⟩ mined.ctx.own .apply
        mined.ledger = .ok granted ∧
      mined.appendBlock (mined.signBlock ⟨header, granted.rewards, s.blockTransactions⟩)
        granted = .ok appended ∧
      runAll repoolWaiting (sortByCreation s.waiting) appended = .ok after := by
  obtain ⟨header, hheader, h⟩ := bind_ok_iff.mp h
  obtain ⟨⟨unexpired, reverted⟩, hpool, h⟩ := bind_ok_iff.mp h
  obtain ⟨selection, hselect, h⟩ := bind_ok_iff.mp h
  obtain ⟨⟨mined, s⟩, hmine, h⟩ := bind_ok_iff.mp h
  obtain ⟨granted, hgrant, h⟩ := bind_ok_iff.mp h
  obtain ⟨appended, happend, h⟩ := bind_ok_iff.mp h
  exact ⟨header, unexpired, reverted, selection, mined, s, granted, appended, hheader, hpool,
    hselect, hmine, hgrant, happend, h⟩

/-- What `mine_block` goes through. -/
structure Mining (node after : NodeInternals) where
  header : BlockHeader
  unexpired : List SignedTransaction
  /-- The node without its pool. -/
  reverted : NodeInternals
  selection : Selection
  /-- The node with the transactions of the block applied to it, and what waits. -/
  mined : NodeInternals
  filled : Selection
  granted : Granted
  /-- The node with the block on its chain. -/
  appended : NodeInternals
  nextHeader : node.nextHeader = .ok header
  revertPool : node.revertPool header.timeSigned = .ok (unexpired, reverted)
  selects : selectTransactions reverted.ctx.config reverted.ledger header unexpired =
    .ok selection
  mines : runAll mineTransaction (sortByCreation selection.blockTransactions)
    (reverted, ⟨[], selection.waiting⟩) = .ok (mined, filled)
  grants : grantRewards mined.ctx ⟨header, [], filled.blockTransactions⟩ mined.ctx.own .apply
    mined.ledger = .ok granted
  appends : mined.appendBlock (mined.signBlock ⟨header, granted.rewards, filled.blockTransactions⟩)
    granted = .ok appended
  repools : runAll repoolWaiting (sortByCreation filled.waiting) appended = .ok after

namespace Mining
variable {node after : NodeInternals}

def signedBlock (m : Mining node after) : SignedBlock :=
  m.mined.signBlock ⟨m.header, m.granted.rewards, m.filled.blockTransactions⟩

def ComesTo (m : Mining node after) (st : SignedTransaction) (turn : NodeInternals × Selection) :
    Prop :=
  RunComesTo mineTransaction (sortByCreation m.selection.blockTransactions)
    (m.reverted, ⟨[], m.selection.waiting⟩) st turn

/-- The loop that fills the pool again comes to a transaction. -/
def ComesBackTo (m : Mining node after) (st : SignedTransaction) (turn : NodeInternals) : Prop :=
  RunComesTo repoolWaiting (sortByCreation m.filled.waiting) m.appended st turn

theorem mined_sameChain (m : Mining node after) : SameChain node m.mined :=
  (revertPool_spec m.revertPool).1.trans (mineAll_sameChain m.mines)

theorem appended_sameChain (m : Mining node after) : SameChain m.appended after :=
  runAll_invariant (I := SameChain m.appended)
    (fun _ _ _ _ hs step => hs.trans (repoolWaiting_sameChain step)) (SameChain.refl _) m.repools

theorem insert_signedBlock (m : Mining node after) :
    node.blockchain.insert m.signedBlock = .ok after.blockchain := by
  obtain ⟨chain, hinsert, hctx, _, _⟩ := appendBlock_spec m.appends
  have hafter : after.blockchain = chain := by
    rw [m.appended_sameChain.blockchain]
    exact congrArg Context.blockchain hctx
  rw [m.mined_sameChain.blockchain] at hinsert
  exact hafter ▸ hinsert

end Mining

theorem mining_of_mineBlock {node after : NodeInternals} (h : node.mineBlock = .ok after) :
    Nonempty (Mining node after) := by
  obtain ⟨header, unexpired, reverted, selection, mined, s, granted, appended, hheader, hpool,
    hselect, hmine, hgrant, happend, hrest⟩ := mineBlock_stages h
  exact ⟨⟨header, unexpired, reverted, selection, mined, s, granted, appended, hheader, hpool,
    hselect, hmine, hgrant, happend, hrest⟩⟩

theorem mineBlock_blocks {node after : NodeInternals} (h : node.mineBlock = .ok after) :
    ∃ header signedBlock, node.nextHeader = .ok header ∧
      signedBlock.blockDetails.header = header ∧
      node.blockchain.insert signedBlock = .ok after.blockchain ∧
      after.ctx = node.ctx.withChain after.blockchain ∧
      after.freezeBeforeBlock = node.freezeBeforeBlock := by
  obtain ⟨header, unexpired, reverted, selection, mined, s, granted, appended, hheader, hpool, _,
    hmine, _, happend, hrest⟩ := mineBlock_stages h
  obtain ⟨hchain, _, _, _⟩ := revertPool_spec hpool
  have hmined : SameChain node mined := hchain.trans (mineAll_sameChain hmine)
  obtain ⟨chain, hinsert, hctx, hfreeze, _⟩ := appendBlock_spec happend
  have hlast : SameChain appended after := runAll_invariant (I := SameChain appended)
    (fun _ _ _ _ hs step => hs.trans (repoolWaiting_sameChain step)) (SameChain.refl _) hrest
  have hafter : after.blockchain = chain := by
    rw [hlast.blockchain]
    exact congrArg Context.blockchain hctx
  rw [hmined.blockchain] at hinsert
  refine ⟨header, _, hheader, rfl, hafter ▸ hinsert, ?_, ?_⟩
  · rw [hlast.1, hctx, hmined.1, hafter]
  · rw [hlast.2, hfreeze, hmined.2]

/-- A transaction that arrives is ignored, or it is new, it is valid, and it joins the
pool after it was applied or because it could be applied although it is not complete. -/
theorem receive_cases {now : ℤ} {st : SignedTransaction} {node after : NodeInternals}
    (h : node.receive now st = .ok after) :
    after = node ∨ ∃ complete, signedTransactionValidate st now nodesTimeShift = .ok () ∧
      actionIsComplete node.ctx.config st = .ok complete ∧
      actionValidate node.ctx.config st complete = .ok () ∧
      TransactionCache.holds node.transactionCache st = false ∧
      (((complete = true ∨ actionCanApply node.ctx st .pool node.ledger = .ok false) ∧
          ∃ ledger, actionApply node.ctx st .pool node.ledger = .ok ledger ∧
          feeValidate st ledger = .ok () ∧
          after = pushPool st complete
            { node with ledger := ledger, actionLog := node.actionLog.logTransaction st }) ∨
        complete = false ∧ actionCanApply node.ctx st .pool node.ledger = .ok true ∧
          after = pushPool st complete node) := by
  obtain ⟨_, hvalid, h⟩ := bind_ok_iff.mp h
  obtain ⟨⟨news, mid⟩, h, hmid⟩ := bind_ok_iff.mp h
  cases pure_ok_iff.mp hmid
  obtain ⟨_, _, h⟩ := bind_ok_iff.mp h
  obtain ⟨complete, hcomplete, h⟩ := bind_ok_iff.mp h
  obtain ⟨_, haction, h⟩ := bind_ok_iff.mp h
  split_ifs at h with hold hholds
  · cases pure_ok_iff.mp h
    exact .inl rfl
  · cases pure_ok_iff.mp h
    exact .inl rfl
  · obtain ⟨attempt, hattempt, h⟩ := bind_ok_iff.mp h
    refine .inr ⟨complete, hvalid, hcomplete, haction, by simpa using hholds, ?_⟩
    rcases attempts_cases hattempt with ⟨rfl, htried⟩ | ⟨rfl, rfl, hcan⟩
    · simp only [if_true] at h
      obtain ⟨l, hl, h⟩ := bind_ok_iff.mp h
      obtain ⟨_, hfee, h⟩ := bind_ok_iff.mp h
      cases pure_ok_iff.mp h
      exact .inl ⟨htried, l, hl, hfee, rfl⟩
    · simp only [Bool.false_eq_true, if_false] at h
      cases pure_ok_iff.mp h
      exact .inr ⟨rfl, hcan, rfl⟩

theorem receive_sameChain {now : ℤ} {st : SignedTransaction} {node after : NodeInternals}
    (h : node.receive now st = .ok after) : SameChain node after := by
  rcases receive_cases h with rfl | ⟨_, _, _, _, _, ⟨_, _, _, _, rfl⟩ | ⟨_, _, rfl⟩⟩
  · exact SameChain.refl _
  · exact ⟨rfl, rfl⟩
  · exact ⟨rfl, rfl⟩

theorem restart_spec {node after : NodeInternals} (h : node.restart = .ok after) :
    SameChain node after ∧ after.transactionPool = node.transactionPool ∧
      after.ledger = node.ledger ∧
      ∃ cache, runAll loadChain ((recentBlocks node.blockchain).flatMap fun signedBlock =>
          signedBlock.blockDetails.signedTransactions) ∅ = .ok cache ∧
        runAll (loadPool node.ctx.config) node.transactionPool cache =
          .ok after.transactionCache := by
  obtain ⟨_, h⟩ := require_bind_ok_iff.mp h
  obtain ⟨cache, hcache, h⟩ := bind_ok_iff.mp h
  obtain ⟨loaded, hload, h⟩ := bind_ok_iff.mp h
  cases pure_ok_iff.mp h
  exact ⟨⟨rfl, rfl⟩, rfl, rfl, cache, hcache, hload⟩

theorem nextHeader_spec {node : NodeInternals} {header : BlockHeader}
    (h : node.nextHeader = .ok header) :
    header.prevHash = node.blockchain.lastHash ∧
      header.timeSigned = node.blockchain.lastHeader.timeSigned + blockMineDelay ∧
      header.cSum = node.blockchain.lastHeader.cSum + header.delta ∧
      header.delta = calcDelta node.ctx.own node.getBalance.whole node.blockchain.lastHash
        node.blockchain.lastHeader.cConst := by
  obtain ⟨deltas, _, h⟩ := bind_ok_iff.mp h
  obtain ⟨checked, _, h⟩ := bind_ok_iff.mp h
  cases checked with
  | error e => simp at h
  | ok cConst =>
      cases pure_ok_iff.mp h
      exact ⟨rfl, rfl, rfl, rfl⟩

end NodeInternals
end Publiq
