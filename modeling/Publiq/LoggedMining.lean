import Publiq.LoggedChain

/-! Mining and the action log. What waits after the block is applied to the pool again
without asking the cache, so that no transaction joins the pool twice follows from where the
selection comes from, and from what is published. -/
namespace Publiq
open Message Checked

theorem exists_document {st : SignedTransaction} (h : st.isComplete = false) :
    ∃ uri authors, st.transactionDetails.action.document = some (uri, authors) := by
  cases hdocument : st.transactionDetails.action.document with
  | none =>
      rw [isComplete_of_document hdocument] at h
      cases h
  | some document => exact ⟨document.1, document.2, rfl⟩

namespace NodeInternals
variable [Externals] {visited : NodeInternals → Prop}
open ActionLog TransactionCache Selection Ledger

theorem sorts_mineAll {transactions : List SignedTransaction} {a b : NodeInternals × Selection}
    (h : runAll mineTransaction transactions a = .ok b) : Sorts a.2 transactions b.2 := by
  induction transactions generalizing a with
  | nil =>
      cases h
      exact .nil _
  | cons st rest ih =>
      obtain ⟨mid, first, h⟩ := runAll_cons_ok_iff.mp h
      rcases mineTransaction_cases first with ⟨_, _, hs⟩ | ⟨_, _, ⟨_, _, _, hs⟩ | ⟨_, _, _, hs⟩⟩
      · exact (hs ▸ ih h).toWaiting
      · exact (hs ▸ ih h).toBlock
      · exact (hs ▸ ih h).toWaiting

/-- No entry calls an incomplete transaction complete, unless what it publishes is published
already and it cannot be applied any more. -/
def Covered (transactions : List SignedTransaction) (node : NodeInternals) : Prop :=
  ∀ st ∈ transactions, st.isComplete = false → (erasePool st node.transactionCache).1 = false ∨
    node.ledger.documents.published st.transactionDetails.action = true

theorem Covered.mono {transactions : List SignedTransaction} {node after : NodeInternals}
    (covered : Covered transactions node)
    (cache : after.transactionCache = node.transactionCache)
    (published : ∀ action, node.ledger.documents.published action = true →
      after.ledger.documents.published action = true) : Covered transactions after := by
  intro st hst hincomplete
  rw [cache]
  exact (covered st hst hincomplete).imp_right (published _)

/-- A transaction of the block covers its copies, as it is published with it. -/
theorem Covered.mineTransaction (hash : Externals.Collisionless)
    {transactions : List SignedTransaction} {st : SignedTransaction}
    {a b : NodeInternals × Selection} (covered : Covered transactions a.1)
    (named : ∀ other ∈ transactions, other.Named)
    (h : NodeInternals.mineTransaction st a = .ok b) : Covered transactions b.1 := by
  rcases a with ⟨node, s⟩
  rcases b with ⟨after, t⟩
  rcases mineTransaction_cases h with ⟨_, rfl, _⟩ | ⟨cache, hadd, h⟩
  · exact covered
  rcases h with ⟨mid, happly, rfl, _⟩ | ⟨mid, happly, rfl, _⟩
  · obtain ⟨hledger, ⟨_, _, hcache⟩, _⟩ := applyTransaction_spec happly
    obtain ⟨hkeep, hnew, _⟩ := published_applyTransaction hledger
    intro other hother hincomplete
    rw [erasePool_fst, hcache, (addChain_eq_some hadd).2]
    split_ifs with hkey
    · refine .inr ?_
      obtain ⟨copy, hcopy, hdetails⟩ := exists_of_mem_chainKeys hkey
      rw [hash.transaction hcopy, hdetails]
      obtain ⟨uri, authors, hdocument⟩ := exists_document hincomplete
      have huri := named other hother uri authors hdocument
      rw [hash.transaction hcopy, hdetails] at hdocument
      exact hnew rfl uri authors hdocument huri
    · exact (covered other hother hincomplete).imp_right (hkeep _)
  · obtain ⟨hledger, ⟨_, _, hcache⟩, _⟩ := applyTransaction_spec happly
    obtain ⟨hkeep, _⟩ := published_applyTransaction hledger
    refine covered.mono ?_ hkeep
    change TransactionCache.eraseChain st mid.transactionCache = node.transactionCache
    rw [hcache]
    exact eraseChain_addChain hadd

/-- What holds while the transactions that wait are applied to the pool again. -/
structure Repooling (visited : NodeInternals → Prop) (rest : List SignedTransaction)
    (node : NodeInternals) : Prop where
  logged : node.Logged visited
  covered : Covered rest node
  documents : ∀ st ∈ node.transactionPool, st.isComplete = true →
    st.transactionDetails.action.document ≠ none →
      node.ledger.documents.published st.transactionDetails.action = true
  distinct : ∀ st : SignedTransaction, st.transactionDetails.action.document = none →
    rest.count st + node.transactionPool.count st ≤ 1
  named : ∀ st, st ∈ rest ∨ st ∈ node.transactionPool → st.Named

/-- An entry for a transaction that joins the pool tells nothing new of an incomplete one. -/
theorem Covered.push (hash : Externals.Collisionless) {transactions : List SignedTransaction}
    {node : NodeInternals} (covered : Covered transactions node) (st : SignedTransaction) :
    Covered transactions (node.pushPool st st.isComplete) := by
  intro other hother hincomplete
  refine (covered other hother hincomplete).imp_left fun hfree => ?_
  change (erasePool other (addPool st st.isComplete node.transactionCache)).1 = false
  rw [erasePool_fst, getElem?_addPool]
  split_ifs with hkey
  · rw [hash.transaction hkey.1, hincomplete]
    rfl
  · exact hfree

theorem Repooling.refuse {st : SignedTransaction} {rest : List SignedTransaction}
    {node after : NodeInternals} (repooling : Repooling visited (st :: rest) node)
    (h : node.applyTransaction "" st = .ok (false, after)) : Repooling visited rest after := by
  obtain ⟨hledger, ⟨hsame, hpool, hcache⟩, hlog⟩ := applyTransaction_spec h
  obtain ⟨hkeep, _⟩ := published_applyTransaction hledger
  refine ⟨⟨?_, ?_⟩, ?_, ?_, ?_, ?_⟩
  · rw [hpool]
    exact repooling.logged.logs.congr hsame hlog
  · rw [hpool, hcache]
    exact repooling.logged.keeps
  · refine Covered.mono (fun other hother => ?_) hcache hkeep
    exact repooling.covered other (List.mem_cons_of_mem _ hother)
  · rw [hpool]
    exact fun other hother hcomplete hdocument =>
      hkeep _ (repooling.documents other hother hcomplete hdocument)
  · intro other hnone
    have hcount := repooling.distinct other hnone
    have hless := List.count_le_count_cons (a := other) (b := st) (l := rest)
    rw [hpool]
    omega
  · rw [hpool]
    exact fun other hother => repooling.named other (hother.imp_left (List.mem_cons_of_mem _))

/-- A transaction that waits joins the pool, applied to the ledger if it is complete. -/
theorem Repooling.push (hash : Externals.Collisionless) {st : SignedTransaction}
    {rest : List SignedTransaction} {node mid : NodeInternals}
    (repooling : Repooling visited (st :: rest) node) (same : SameQueues node mid)
    (hlog : mid.actionLog =
      if st.isComplete then node.actionLog.logTransaction st else node.actionLog)
    (keep : ∀ action, node.ledger.documents.published action = true →
      mid.ledger.documents.published action = true)
    (new : st.isComplete = true → st.transactionDetails.action.document ≠ none →
      node.ledger.documents.published st.transactionDetails.action ≠ true ∧
        mid.ledger.documents.published st.transactionDetails.action = true)
    (free : st.isComplete = false → (erasePool st node.transactionCache).1 = false) :
    Repooling visited rest (mid.pushPool st st.isComplete) := by
  obtain ⟨hsame, hpool, hcache⟩ := same
  have fresh : st.isComplete = true → st ∉ node.transactionPool := by
    intro hcomplete hmem
    by_cases hnone : st.transactionDetails.action.document = none
    · have hcount := repooling.distinct st hnone
      have hin := List.count_pos_iff.mpr hmem
      rw [List.count_cons_self] at hcount
      omega
    · exact (new hcomplete hnone).1 (repooling.documents st hmem hcomplete hnone)
  refine ⟨?_, ?_, fun other hother hcomplete hdocument => ?_, fun other hnone => ?_,
    fun other hother => ?_⟩
  · refine repooling.logged.pushPool hsame hpool hlog ?_
    rw [hcache]
    exact repooling.logged.keeps.push hash fresh free
  · refine Covered.push hash ?_ st
    refine Covered.mono (fun other hother => ?_) hcache keep
    exact repooling.covered other (List.mem_cons_of_mem _ hother)
  · change other ∈ mid.transactionPool ++ [st] at hother
    rw [hpool] at hother
    rcases List.mem_append.mp hother with hother | hother
    · exact keep _ (repooling.documents other hother hcomplete hdocument)
    · rw [List.mem_singleton.mp hother] at hcomplete hdocument ⊢
      exact (new hcomplete hdocument).2
  · have hcount := repooling.distinct other hnone
    change rest.count other + (mid.transactionPool ++ [st]).count other ≤ 1
    rw [hpool, List.count_append]
    rw [List.count_cons] at hcount
    rw [List.count_singleton]
    omega
  · apply repooling.named
    rcases hother with hother | hother
    · exact .inl (List.mem_cons_of_mem _ hother)
    · change other ∈ mid.transactionPool ++ [st] at hother
      rw [hpool] at hother
      rcases List.mem_append.mp hother with hother | hother
      · exact .inr hother
      · exact .inl (List.mem_singleton.mp hother ▸ List.mem_cons_self)

theorem Repooling.step (hash : Externals.Collisionless) {st : SignedTransaction}
    {rest : List SignedTransaction} {node after : NodeInternals}
    (repooling : Repooling visited (st :: rest) node) (h : node.repoolWaiting st = .ok after) :
    Repooling visited rest after := by
  obtain ⟨complete, hcomplete, h⟩ := bind_ok_iff.mp h
  obtain rfl := isComplete_of_actionIsComplete hcomplete
  rcases repool_cases h with ⟨mid, happly, rfl⟩ | ⟨hwhole, mid, happly, rfl⟩ |
    ⟨hpart, hcan, rfl⟩
  · exact repooling.refuse happly
  · obtain ⟨hledger, hsame, hlog⟩ := applyTransaction_spec happly
    obtain ⟨hkeep, hnew, hblocked⟩ := published_applyTransaction hledger
    have hlogged : mid.actionLog.logTransaction st =
        if st.isComplete then node.actionLog.logTransaction st else node.actionLog := by
      rw [if_pos hwhole, ← hlog]
    refine @Repooling.push _ visited hash _ _ _
      { mid with actionLog := mid.actionLog.logTransaction st }
      repooling hsame hlogged hkeep (fun _ hdocument => ⟨fun hpublished => ?_, ?_⟩) fun hpart => ?_
    · cases hblocked hpublished
    · obtain ⟨⟨uri, authors⟩, hdocument⟩ := Option.ne_none_iff_exists'.mp hdocument
      exact hnew rfl uri authors hdocument
        (repooling.named st (.inl List.mem_cons_self) uri authors hdocument)
    · rw [hwhole] at hpart
      cases hpart
  · refine Repooling.push hash repooling ⟨SameChain.refl node, rfl, rfl⟩ ?_ (fun _ h => h) ?_ ?_
    · rw [if_neg (by simp [hpart])]
    · intro hwhole
      rw [hpart] at hwhole
      cases hwhole
    · intro _
      rcases repooling.covered st List.mem_cons_self hpart with hfree | hpublished
      · exact hfree
      · cases canApply_of_published hpublished hcan

theorem Repooling.run (hash : Externals.Collisionless) {transactions : List SignedTransaction}
    {node after : NodeInternals} (repooling : Repooling visited transactions node)
    (h : runAll repoolWaiting transactions node = .ok after) : Repooling visited [] after := by
  induction transactions generalizing node with
  | nil =>
      cases h
      exact repooling
  | cons st rest ih =>
      obtain ⟨mid, first, h⟩ := runAll_cons_ok_iff.mp h
      exact ih (repooling.step hash first) h

theorem count_pool_le_one {pool : List SignedTransaction} {cache : TransactionCache}
    (keeps : Keeps pool cache) {st : SignedTransaction}
    (hnone : st.transactionDetails.action.document = none) : pool.count st ≤ 1 := by
  have hcomplete := isComplete_of_document hnone
  rw [← List.count_filter hcomplete]
  exact List.nodup_iff_count_le_one.mp keeps.distinct.of_map st

/-- Mining keeps a cache without incomplete entries, and an empty pool. -/
theorem keeps_mineAll {transactions : List SignedTransaction} {a b : NodeInternals × Selection}
    (keeps : Keeps [] a.1.transactionCache) (empty : a.1.transactionPool = [])
    (h : runAll mineTransaction transactions a = .ok b) :
    Keeps [] b.1.transactionCache ∧ b.1.transactionPool = [] := by
  refine runAll_invariant (I := fun t : NodeInternals × Selection =>
    Keeps [] t.1.transactionCache ∧ t.1.transactionPool = []) ?_ ⟨keeps, empty⟩ h
  rintro st _ ⟨node, s⟩ ⟨after, t⟩ ⟨hkeeps, hempty⟩ step
  rcases mineTransaction_cases step with ⟨_, rfl, _⟩ | ⟨cache, hadd, step⟩
  · exact ⟨hkeeps, hempty⟩
  rcases step with ⟨mid, happly, rfl, _⟩ | ⟨mid, happly, rfl, _⟩
  · obtain ⟨_, ⟨_, hpool, hcache⟩, _⟩ := applyTransaction_spec happly
    exact ⟨hcache ▸ hkeeps.addChain hadd, hpool.trans hempty⟩
  · obtain ⟨_, ⟨_, hpool, hcache⟩, _⟩ := applyTransaction_spec happly
    refine ⟨?_, hpool.trans hempty⟩
    change Keeps [] (TransactionCache.eraseChain st mid.transactionCache)
    rw [hcache]
    exact (hkeeps.addChain hadd).eraseChain st

theorem Covered.mineAll (hash : Externals.Collisionless)
    {pool transactions : List SignedTransaction} {a b : NodeInternals × Selection}
    (covered : Covered pool a.1) (named : ∀ other ∈ pool, other.Named)
    (h : runAll NodeInternals.mineTransaction transactions a = .ok b) : Covered pool b.1 :=
  runAll_invariant (I := fun t : NodeInternals × Selection => Covered pool t.1)
    (fun _ _ _ _ hs step => hs.mineTransaction hash named step) covered h

theorem covered_revertPool {expiryTime : ℤ} {unexpired : List SignedTransaction}
    {node after : NodeInternals} (h : node.revertPool expiryTime = .ok (unexpired, after)) :
    Covered node.transactionPool after := by
  intro st hst _
  obtain ⟨_, _, hcache, _⟩ := revertPool_spec h
  refine .inl (erasePool_of_free ?_)
  rw [hcache, dropPooled_getElem?, if_pos (List.mem_map_of_mem (List.mem_reverse.mpr hst))]

theorem Covered.appendBlock {transactions : List SignedTransaction} {signedBlock : SignedBlock}
    {granted : Granted} {miner : String} {block : Block} {node after : NodeInternals}
    (covered : Covered transactions node)
    (grants : grantRewards node.ctx block miner .apply node.ledger = .ok granted)
    (h : node.appendBlock signedBlock granted = .ok after) : Covered transactions after := by
  obtain ⟨_, _, _, _, _, hcache, hledger⟩ := appendBlock_spec h
  have same := (Documents.sameUris_grantRewards grants).trans (sameUris_increaseRewards hledger)
  exact covered.mono hcache fun action hpublished => (same.published action).trans hpublished

/-- The transactions that a miner has selected, as it applied them. -/
structure Arranged (pool : List SignedTransaction) (s : Selection) : Prop where
  named : ∀ st ∈ s.all, st.Named
  known : ∀ st ∈ s.waiting, st.isComplete = false → st ∈ pool
  count : ∀ st : SignedTransaction, st.transactionDetails.action.document = none →
    s.waiting.count st ≤ pool.count st
  block : ∀ st ∈ s.blockTransactions, st.isComplete = true

omit [Externals] in
theorem arranged_of_selected {pool reverted : List SignedTransaction} {selection s : Selection}
    (named : ∀ st ∈ pool, st.Named) (sublist : reverted.Sublist pool)
    (selected : Selected reverted selection)
    (sorts : Sorts ⟨[], selection.waiting⟩ (sortByCreation selection.blockTransactions) s) :
    Arranged pool s := by
  have hperm : s.all.Perm selection.all :=
    sorts.all.trans ((List.perm_append_comm).trans
      ((sortByCreation_perm _).append_right selection.waiting))
  refine ⟨fun st hst => ?_, fun st hst hpart => ?_, fun st hnone => ?_, fun st hst => ?_⟩
  · rcases selected.member st (hperm.mem_iff.mp hst) with hst | ⟨_, copy, hcopy, hdetails⟩
    · exact named st (sublist.subset hst)
    · have hnamed := named copy (sublist.subset hcopy)
      rw [SignedTransaction.Named, ← hdetails] at hnamed
      exact hnamed
  · have hall : st ∈ s.all := List.mem_append_right _ hst
    rcases selected.member st (hperm.mem_iff.mp hall) with hst | ⟨hwhole, _⟩
    · exact sublist.subset hst
    · rw [hwhole] at hpart
      cases hpart
  · have hcount := selected.count st hnone
    rw [← hperm.count_eq, Selection.all, List.count_append] at hcount
    have hless := sublist.count_le st
    omega
  · rcases sorts.block st hst with hnil | hst
    · cases hnil
    · exact selected.block st ((sortByCreation_perm _).mem_iff.mp hst)

/-- Mining logs its block and keeps the log and the cache together; its transactions are
complete. -/
theorem Logged.mineBlock (hash : Externals.Collisionless) {node after : NodeInternals}
    (logged : node.Logged visited) (visits : visited node)
    (named : ∀ st ∈ node.transactionPool, st.Named) (h : node.mineBlock = .ok after) :
    after.Logged visited ∧ (∀ st ∈ after.transactionPool, st.Named) ∧
      after.ctx.config = node.ctx.config ∧ ∃ signedBlock,
        after.blockchain.blocks = node.blockchain.blocks ++ [signedBlock] ∧
        ∀ st ∈ signedBlock.blockDetails.signedTransactions, st.Named ∧ st.isComplete = true := by
  obtain ⟨m⟩ := mining_of_mineBlock h
  obtain ⟨hsame, hempty, _, hunexpired⟩ := revertPool_spec m.revertPool
  obtain ⟨hlogs, hkeeps⟩ := logged.logs.revertPool logged.keeps m.revertPool
  have hsublist : m.unexpired.Sublist node.transactionPool := hunexpired ▸ List.filter_sublist
  have arranged := arranged_of_selected named hsublist (selected_selectTransactions m.selects)
    (sorts_mineAll m.mines)
  have hmined := mineAll_sameChain m.mines
  obtain ⟨hkeeps, hempty⟩ := keeps_mineAll hkeeps hempty m.mines
  have hlogs : m.mined.LogsPool visited [] := hlogs.congr hmined (mineAll_log m.mines)
  have hcovered : Covered m.filled.waiting m.mined := by
    intro st hst hpart
    exact ((covered_revertPool m.revertPool).mineAll hash named m.mines) st
      (arranged.known st hst hpart) hpart
  obtain ⟨chain, hinsert, hctx, _, hpool', hcache', _⟩ := appendBlock_spec m.appends
  have hsorted := sortByCreation_perm m.filled.waiting
  have hnone : m.appended.transactionPool = [] := hpool'.trans hempty
  have grants : node.Grants m.mined.blockchain.blocks m.signedBlock m.granted :=
    .mines m (congrArg Blockchain.blocks m.mined_sameChain.blockchain).symm
  have repooling : Repooling visited (sortByCreation m.filled.waiting) m.appended := by
    refine ⟨⟨?_, ?_⟩, fun st hst => ?_, fun st hst => ?_, fun st hdocument => ?_, fun st hst => ?_⟩
    · rw [hnone]
      exact hlogs.append visits grants hinsert hctx (appendBlock_log m.appends)
    · rw [hnone, hcache']
      exact hkeeps
    · exact (hcovered.appendBlock m.grants m.appends) st (hsorted.mem_iff.mp hst)
    · rw [hnone] at hst
      cases hst
    · rw [hnone, List.count_nil, Nat.add_zero, hsorted.count_eq]
      exact (arranged.count st hdocument).trans (count_pool_le_one logged.keeps hdocument)
    · rw [hnone] at hst
      rcases hst with hst | hst
      · exact arranged.named st (List.mem_append_right _ (hsorted.mem_iff.mp hst))
      · cases hst
  have hafter := repooling.run hash m.repools
  have hctx' : after.ctx = node.ctx.withChain chain := by
    rw [m.appended_sameChain.1, hctx, hmined.1, hsame.1]
  refine ⟨hafter.logged, fun st hst => hafter.named st (.inr hst), ?_, m.signedBlock,
    (Blockchain.insert_ok_iff.mp m.insert_signedBlock).2, fun st hst => ?_⟩
  · rw [hctx']
    rfl
  · exact ⟨arranged.named st (List.mem_append_left _ hst), arranged.block st hst⟩

end NodeInternals
end Publiq
