import Publiq.NodeBlocks

/-! A node that goes over to other blocks. It takes its pool back, goes back to the last common
block, connects the blocks that it has received and applies what waits to its pool again; its
ledger is then what its new chain and its new pool give. -/
namespace Publiq
open Message Checked TransactionCache

section
variable [Externals]

theorem complete_of_mem_hashesIn {st : SignedTransaction} {hash : String}
    (h : hash ∈ hashesIn [st]) : st.isComplete = true := by
  rw [← hashesIn_complete] at h
  by_contra hpart
  rw [List.filter_cons_of_neg hpart] at h
  cases h

theorem same_of_mem_hashesIn (hash : Externals.Collisionless) {st : SignedTransaction}
    {transactions : List SignedTransaction} {key : String} (h : key ∈ hashesIn [st])
    (other : key ∈ hashesIn transactions) : st ∈ transactions := by
  have hkey {st : SignedTransaction} (h : (sponsorshipOf st).map Prod.fst = some key) :
      transactionHash st = key := by
    unfold sponsorshipOf at h
    split at h
    · exact Option.some.inj h
    · cases h
  obtain ⟨found, hfound, hfoundKey⟩ := mem_hashesIn.mp other
  obtain ⟨same, hsame, hsameKey⟩ := mem_hashesIn.mp h
  rw [List.mem_singleton.mp hsame] at hsameKey
  rw [hash.transaction ((hkey hsameKey).trans (hkey hfoundKey).symm)]
  exact hfound

/-- What is valid stays so in a copy that every author has signed. -/
theorem actionValidate_of_copy {config : Config} {st copy : SignedTransaction} {whole : Bool}
    (details : st.transactionDetails = copy.transactionDetails)
    (document : copy.transactionDetails.action.document ≠ none) (complete : st.isComplete = true)
    (valid : actionValidate config copy whole = .ok ()) :
    actionValidate config st true = .ok () := by
  obtain ⟨_, hallowed, valid⟩ := bind_ok_iff.mp valid
  have hsigned {what : String} {authors : List String}
      (hcount : st.authorizations.length = authors.length)
      (h : validateAuthorship what copy authors whole = .ok ()) :
      validateAuthorship what st authors true = .ok () := by
    obtain ⟨hsome, h⟩ := require_bind_ok_iff.mp h
    have hauthors : validateAuthors [] authors = .ok () := by
      cases whole with
      | true =>
          obtain ⟨_, h⟩ := require_bind_ok_iff.mp h
          exact (require_bind_ok_iff.mp h).2
      | false => exact (require_bind_ok_iff.mp h).2
    unfold validateAuthorship
    rw [require_true hsome, ok_bind]
    simp only [if_true]
    rw [require_true hcount.le, ok_bind, require_true hcount.ge, ok_bind]
    exact hauthors
  unfold SignedTransaction.isComplete at complete
  unfold actionValidate
  rw [details] at complete ⊢
  refine bind_ok_iff.mpr ⟨_, hallowed, ?_⟩
  cases haction : copy.transactionDetails.action with
  | file a =>
      rw [haction] at valid complete
      obtain ⟨_, hauthorship, huri⟩ := bind_ok_iff.mp valid
      exact bind_ok_iff.mpr ⟨(), hsigned (of_decide_eq_true complete) hauthorship, huri⟩
  | contentUnit a =>
      rw [haction] at valid complete
      obtain ⟨_, hauthorship, hrest⟩ := bind_ok_iff.mp valid
      exact bind_ok_iff.mpr ⟨(), hsigned (of_decide_eq_true complete) hauthorship, hrest⟩
  | _ =>
      rw [haction] at document
      exact absurd rfl document

theorem BlockRun.valid {ctx : Context} {genesis : SignedBlock} {blocks : List AppliedBlock}
    {chain : Blockchain} {base : Ledger} (run : BlockRun ctx genesis blocks chain base) :
    ∀ st ∈ chain.transactions, actionValidate ctx.config st true = .ok () := by
  intro st hst
  obtain ⟨b, hb, hst⟩ := run.mem_transactions.mp hst
  clear * - run hb hst
  induction run with
  | genesis => cases hb
  | connect before signed next valid h ih =>
      rcases List.mem_cons.mp hb with rfl | hb
      · exact valid st hst
      · exact ih hb

end

namespace NodeInternals
variable [Externals]

theorem PoolOn.unknown_of_new (hash : Externals.Collisionless) {base : Ledger}
    {node : NodeInternals} (on : PoolOn base node) {st : SignedTransaction}
    (new : holds node.transactionCache st = false)
    (unbased : ∀ key ∈ hashesIn [st], ¬ base.documents.Knows key) :
    ∀ key ∈ hashesIn [st], ¬ node.ledger.documents.Knows key := by
  intro key hkey hknown
  rcases (on.knows key).mp hknown with hbase | hpool
  · exact unbased key hkey hbase
  · have hentry := on.keeps.entry st (same_of_mem_hashesIn hash hkey hpool)
    rw [erasePool_of_free (holds_eq_false_iff.mp new), complete_of_mem_hashesIn hkey] at hentry
    cases hentry

theorem holds_addChain {st : SignedTransaction} {cache after : TransactionCache}
    (h : addChain st cache = some after) :
    (∀ other, holds cache other = true → holds after other = true) ∧ holds after st = true := by
  obtain ⟨_, hadded⟩ := addChain_eq_some h
  simp only [holds, Std.ExtTreeMap.contains_eq_isSome_getElem?, hadded]
  refine ⟨fun other hother => ?_, ?_⟩
  · split_ifs
    · rfl
    · exact hother
  · rw [if_pos (transactionHash_mem_chainKeys st)]
    rfl

theorem holds_addMined {transactions : List SignedTransaction} {cache after : TransactionCache}
    (h : addMined transactions cache = some after) :
    (∀ other, holds cache other = true → holds after other = true) ∧
      ∀ st ∈ transactions, holds after st = true := by
  induction transactions generalizing cache with
  | nil =>
      cases h
      exact ⟨fun _ hother => hother, List.forall_mem_nil _⟩
  | cons st rest ih =>
      obtain ⟨mid, hmid, h⟩ := Option.bind_eq_some_iff.mp h
      obtain ⟨hold, hnew⟩ := holds_addChain hmid
      obtain ⟨hkept, hrest⟩ := ih h
      exact ⟨fun other hother => hkept other (hold other hother),
        List.forall_mem_cons.mpr ⟨hkept st hnew, hrest⟩⟩

theorem connectBlocks_cache {signedBlocks : List SignedBlock} {node after : NodeInternals}
    (keeps : Keeps [] node.transactionCache)
    (h : runAll connectBlock signedBlocks node = .ok after) :
    Keeps [] after.transactionCache ∧
      (∀ other, holds node.transactionCache other = true →
        holds after.transactionCache other = true) ∧
      ∀ signedBlock ∈ signedBlocks, ∀ st ∈ signedBlock.blockDetails.signedTransactions,
        holds after.transactionCache st = true := by
  induction signedBlocks generalizing node with
  | nil =>
      cases h
      exact ⟨keeps, fun _ hother => hother, List.forall_mem_nil _⟩
  | cons signedBlock rest ih =>
      obtain ⟨mid, first, h⟩ := runAll_cons_ok_iff.mp h
      obtain ⟨_, _, _, _, _, _, _, _, hadd, _⟩ := connectBlock_spec first
      obtain ⟨hold, hnew⟩ := holds_addMined hadd
      obtain ⟨hkeeps, hkept, hrest⟩ := ih (keeps.addMined hadd) h
      exact ⟨hkeeps, fun other hother => hkept other (hold other hother),
        List.forall_mem_cons.mpr ⟨fun st hst => hkept st (hnew st hst), hrest⟩⟩

theorem keeps_disconnectTo {common count : ℕ} {node after : NodeInternals}
    (keeps : Keeps [] node.transactionCache) (h : disconnectTo common count node = .ok after) :
    Keeps [] after.transactionCache := by
  induction count generalizing node with
  | zero =>
      cases h
      exact keeps
  | succ count ih =>
      simp only [disconnectTo] at h
      split_ifs at h
      · obtain ⟨mid, first, h⟩ := bind_ok_iff.mp h
        obtain ⟨_, _, _, _, _, _, _, hcache, _⟩ := disconnectBlock_spec first
        exact ih (hcache ▸ keeps.cacheWithout node.blockchain) h
      · cases pure_ok_iff.mp h
        exact keeps

/-- What holds while the transactions that wait after a change of blocks are applied to the pool
again: the cache knows those of the new blocks. -/
structure Rejoined (raised : NodeInternals) (received : List SignedTransaction)
    (node : NodeInternals) : Prop where
  same : SameChain raised node
  pool : PoolOn raised.ledger node
  held : ∀ st ∈ received, holds node.transactionCache st = true

theorem holds_addPool {cache : TransactionCache} {st other : SignedTransaction} {complete : Bool}
    (held : holds cache other = true) : holds (addPool st complete cache) other = true := by
  simp only [holds, Std.ExtTreeMap.contains_eq_isSome_getElem?, getElem?_addPool] at held ⊢
  split_ifs
  · rfl
  · exact held

theorem Rejoined.step (hash : Externals.Collisionless) (empty : Externals.EmptyNoUri)
    {raised node after : NodeInternals} {received : List SignedTransaction} {now : ℤ}
    (based : Based raised.ctx raised.blockchain raised.ledger) {st : SignedTransaction × Bool}
    (valid : actionValidate raised.ctx.config st.1 st.1.isComplete = .ok ())
    (whole : st.2 = true → st.1.isComplete = true)
    (apart : ∀ key ∈ hashesIn [st.1], raised.ledger.documents.Knows key → st.1 ∈ received)
    (rejoined : Rejoined raised received node)
    (h : repoolReceived now st node = .ok after) : Rejoined raised received after := by
  rcases repoolReceived_cases h with rfl | ⟨complete, hcomplete, _, hnew, h⟩
  · exact rejoined
  obtain rfl : complete = st.1.isComplete := by
    rcases hcomplete with ⟨hblock, rfl⟩ | ⟨_, hcomplete⟩
    · exact (whole hblock).symm
    · exact isComplete_of_actionIsComplete hcomplete
  obtain ⟨same, pool, held⟩ := rejoined
  have hunknown : ∀ key ∈ hashesIn [st.1], ¬ node.ledger.documents.Knows key := by
    refine pool.unknown_of_new hash hnew fun key hkey hknown => ?_
    rw [held st.1 (apart key hkey hknown)] at hnew
    cases hnew
  have hsound : LedgerSound node.ctx.own .chain raised.ledger := by
    rw [same.1]
    exact based.sound
  have hvalid : actionValidate node.ctx.config st.1 st.1.isComplete = .ok () := by
    rw [same.1]
    exact valid
  have hkeeps := pool.keeps.pushNew hash hnew
  rcases repool_cases h with ⟨mid, happly, rfl⟩ | ⟨hwhole, mid, happly, rfl⟩ | ⟨hpart, _, rfl⟩
  · obtain ⟨_, ⟨hsame, _, hcache⟩, _⟩ := applyTransaction_spec happly
    refine ⟨same.trans hsame, pool.refuse empty hsound based.fits hvalid hunknown happly, ?_⟩
    rw [hcache]
    exact held
  · obtain ⟨_, ⟨hsame, hpool, hcache⟩, _⟩ := applyTransaction_spec happly
    have happlied := actionApply_of_pooled happly
    refine ⟨same.trans ⟨hsame.1, hsame.2⟩, pool.concat hsame.1 ?_ ?_ hvalid hunknown ?_,
      fun other hother => ?_⟩
    · exact congrArg (· ++ [st.1]) hpool
    · rw [if_pos hwhole]
      exact ⟨node.ctx.addresses, happlied⟩
    · change Keeps _ (addPool st.1 st.1.isComplete mid.transactionCache)
      rw [hcache]
      exact hkeeps
    · refine holds_addPool ?_
      change holds mid.transactionCache other = true
      rw [hcache]
      exact held other hother
  · refine ⟨same, pool.concat rfl rfl ?_ hvalid hunknown hkeeps,
      fun other hother => holds_addPool (held other hother)⟩
    rw [if_neg (by simp [hpart])]
    rfl

/-- What is asked of the blocks and the pool of a node: the headers follow each other as those of a
peer have to, every block is one that calls on no sponsor at the wrong time, the blocks that the
node has signed name it as their miner, and no sponsorship is there twice. -/
structure Orderly (ctx : Context) (genesis : SignedBlock) (node : NodeInternals) : Prop where
  headers : (node.blockchain.blocks.map SignedBlock.headerEx).IsChain Next
  clear : ∀ blocks base, BlockRun ctx genesis blocks node.blockchain base →
    ∀ b ∈ blocks, b.Clear ctx
  own : ∀ signedBlock ∈ node.blockchain.blocks, signedBlock.authorization =
    Externals.sign ctx.config.key (Externals.blockToString signedBlock.blockDetails) →
      getMiner signedBlock = .ok ctx.own
  once : (hashesIn (node.blockchain.transactions ++ node.transactionPool)).Nodup

/-- The ledger of a node is what its pool gives on top of what its blocks have built up. -/
structure Replays (ctx : Context) (genesis : SignedBlock) (base : Ledger) (node : NodeInternals) :
    Prop where
  settings : KeepsSettings ctx node
  blocks : ∃ blocks, BlockRun ctx genesis blocks node.blockchain base
  pool : PoolOn base node

section
variable {ctx : Context} {genesis : SignedBlock} {base : Ledger} {node after : NodeInternals}

theorem Replays.based (premises : Premises ctx genesis) (replays : Replays ctx genesis base node)
    (orderly : Orderly ctx genesis node) : Based node.ctx node.blockchain base := by
  obtain ⟨blocks, run⟩ := replays.blocks
  obtain ⟨sound, fits, knows⟩ := run.based premises (orderly.clear blocks base run)
  exact ⟨replays.settings.own ▸ sound, fits, knows⟩

omit [Externals] in
theorem transactions_split (chain : Blockchain) (common : ℕ) :
    chain.transactions = (((chain.blocks.take (common + 1)).drop 1).flatMap fun signedBlock =>
      signedBlock.blockDetails.signedTransactions) ++ transactionsAbove common chain := by
  unfold Blockchain.transactions transactionsAbove
  rw [← List.flatMap_append]
  congr 1
  have hsplit := List.take_append_drop common (chain.blocks.drop 1)
  rw [List.drop_drop, List.take_drop] at hsplit
  rw [Nat.zero_add, ← hsplit, Nat.add_comm 1 common]

/-- What waits for the pool after other blocks have come is no sponsorship that stays in a block. -/
theorem waiting_apart (hash : Externals.Collisionless) (orderly : Orderly ctx genesis node)
    {common : ℕ} {syncBlocks : List SignedBlock} {raised : NodeInternals}
    (based : Based raised.ctx raised.blockchain raised.ledger)
    (chain : raised.blockchain.blocks = node.blockchain.blocks.take (common + 1) ++ syncBlocks)
    {st : SignedTransaction}
    (waits : st ∈ transactionsAbove common node.blockchain ++ node.transactionPool) :
    ∀ key ∈ hashesIn [st], raised.ledger.documents.Knows key →
      st ∈ syncBlocks.flatMap fun signedBlock => signedBlock.blockDetails.signedTransactions := by
  intro key hkey hknown
  have hmem := same_of_mem_hashesIn hash hkey ((based.knows key).mp hknown)
  have htaken : (node.blockchain.blocks.take (common + 1)).length ≠ 0 := by
    have hpos := node.blockchain.length_pos
    rw [List.length_take]
    unfold Blockchain.length at hpos
    omega
  unfold Blockchain.transactions transactionsAbove at hmem
  rw [chain, Nat.zero_add, List.drop_append_of_le_length (by omega), List.flatMap_append] at hmem
  rcases List.mem_append.mp hmem with hcommon | hnew
  · exfalso
    have honce := orderly.once
    rw [transactions_split node.blockchain common, List.append_assoc, hashesIn_append] at honce
    have hkeyOf {transactions : List SignedTransaction} (h : st ∈ transactions) :
        key ∈ hashesIn transactions := by
      obtain ⟨same, hsame, hsameKey⟩ := mem_hashesIn.mp hkey
      rw [List.mem_singleton.mp hsame] at hsameKey
      exact mem_hashesIn.mpr ⟨st, h, hsameKey⟩
    exact List.disjoint_of_nodup_append honce (hkeyOf hcommon) (hkeyOf waits)
  · exact hnew

/-- What waits for the pool after other blocks have come is valid, what comes from a block is
complete, and it was above the common block or in the pool. -/
theorem valid_of_waitingAfter (settings : KeepsSettings ctx node) {blocks : List AppliedBlock}
    (run : BlockRun ctx genesis blocks node.blockchain base) (pool : PoolOn base node)
    {common : ℕ} {clearPool : Bool} {unexpired : List SignedTransaction}
    (sublist : unexpired.Sublist node.transactionPool) {st : SignedTransaction × Bool}
    (hst : st ∈ waitingAfter common clearPool unexpired node.blockchain) :
    actionValidate node.ctx.config st.1 st.1.isComplete = .ok () ∧
      (st.2 = true → st.1.isComplete = true) ∧
      st.1 ∈ transactionsAbove common node.blockchain ++ node.transactionPool := by
  rcases List.mem_append.mp hst with hst | hst
  · obtain ⟨other, hother, rfl⟩ := List.mem_map.mp hst
    have hin : other ∈ node.blockchain.transactions := by
      rw [transactions_split node.blockchain common]
      exact List.mem_append_right _ hother
    have hvalid := run.valid other hin
    have hwhole := complete_of_actionValidate hvalid
    refine ⟨?_, fun _ => hwhole, List.mem_append_left _ hother⟩
    rw [hwhole, settings.config]
    exact hvalid
  · split_ifs at hst
    · cases hst
    · obtain ⟨other, hother, rfl⟩ := List.mem_map.mp hst
      have hin := sublist.subset hother
      exact ⟨pool.valid other hin, fun h => (nomatch h), List.mem_append_right _ hin⟩

theorem next_of_headers {kept syncBlocks : List SignedBlock} {lowered : Blockchain}
    (headers : ((kept ++ syncBlocks).map SignedBlock.headerEx).IsChain Next)
    (hlowered : lowered.blocks = kept) :
    (lowered.lastHeaderEx :: syncBlocks.map SignedBlock.headerEx).IsChain Next := by
  rw [← hlowered, ← List.dropLast_append_getLast lowered.nonempty, List.append_assoc,
    List.map_append] at headers
  exact headers.right_of_append

/-- A node that goes over to other blocks holds what these and its new pool give. -/
theorem Replays.replaceBlocks (premises : Premises ctx genesis)
    (replays : Replays ctx genesis base node) (orderly : Orderly ctx genesis node)
    (orderly' : Orderly ctx genesis after) {now : ℤ} {common : ℕ} {syncBlocks : List SignedBlock}
    {clearPool : Bool}
    (received : ∀ signedBlock ∈ syncBlocks,
      Externals.publicKey signedBlock.authorization.address = .ok () ∧
        ∀ st ∈ signedBlock.blockDetails.signedTransactions,
          actionValidate ctx.config st true = .ok ())
    (h : node.replaceBlocks now common syncBlocks clearPool = .ok after) :
    ∃ base', Replays ctx genesis base' after := by
  have hbased := replays.based premises orderly
  obtain ⟨settings, ⟨blocks, run⟩, pool⟩ := replays
  have hclear := orderly.clear blocks base run
  have hchain := (replaceBlocks_blocks h).1
  obtain ⟨unexpired, reverted, lowered, raised, hpool, hlower, hraise, hrest⟩ :=
    replaceBlocks_stages h
  -- the pool is taken back
  obtain ⟨hsame, hempty, _, hunexpired⟩ := revertPool_spec hpool
  obtain ⟨hledger, hkeeps⟩ := pool.revertPool premises.empty hbased.sound hbased.fits hpool
  have hrun : BlockRun ctx genesis blocks reverted.blockchain reverted.ledger := by
    rw [hsame.blockchain, hledger]
    exact run
  -- the node goes back to the common block
  obtain ⟨hlowered, kept, hsuffix, hkept⟩ :=
    disconnectTo_run premises (settings.sameChain hsame) hrun hclear hlower
  obtain ⟨hblocks, _, _, hempty'⟩ := disconnectTo_spec (by omega) hlower
  rw [hsame.blockchain] at hblocks
  -- and connects what it has received
  have hafter : SameChain raised after := by
    split_ifs at hrest with hfrozen
    · exact repoolAll_sameChain hrest
    · exact hrest ▸ SameChain.refl _
  have hheaders := orderly'.headers
  rw [hchain] at hheaders
  obtain ⟨hraised, more, hmore⟩ := connectBlocks_run premises hlowered hkept received
    (next_of_headers hheaders hblocks) hraise
  obtain ⟨hkeeps', _, hheld⟩ := connectBlocks_cache (keeps_disconnectTo hkeeps hlower) hraise
  obtain ⟨hconnected, _, _, hempty''⟩ := connectBlocks_spec hraise
  rw [hblocks] at hconnected
  have hnone : raised.transactionPool = [] := (hempty''.trans hempty').trans hempty
  have hbased' : Based raised.ctx raised.blockchain raised.ledger := by
    have hmoreClear := orderly'.clear _ _ (by rw [hafter.blockchain]; exact hmore)
    obtain ⟨sound, fits, knows⟩ := hmore.based premises hmoreClear
    exact ⟨hraised.own ▸ sound, fits, knows⟩
  have hstart : Rejoined raised
      (syncBlocks.flatMap fun signedBlock => signedBlock.blockDetails.signedTransactions)
      raised := by
    refine ⟨SameChain.refl _, .start hnone hkeeps', fun st hst => ?_⟩
    obtain ⟨signedBlock, hblock, hst⟩ := List.mem_flatMap.mp hst
    exact hheld signedBlock hblock st hst
  have hend : Rejoined raised
      (syncBlocks.flatMap fun signedBlock => signedBlock.blockDetails.signedTransactions)
      after := by
    split_ifs at hrest with hfrozen
    · refine runAll_invariant (fun st hst s t hs step => ?_) hstart hrest
      obtain ⟨hvalid, hwhole, hwaits⟩ := valid_of_waitingAfter settings run pool
        (hunexpired ▸ List.filter_sublist) hst
      rw [settings.config, ← hraised.config] at hvalid
      exact hs.step premises.hash premises.empty hbased' hvalid hwhole
        (waiting_apart premises.hash orderly hbased' hconnected hwaits) step
    · exact hrest ▸ hstart
  refine ⟨raised.ledger, hraised.sameChain hafter, ⟨more ++ kept, ?_⟩, hend.pool⟩
  rw [hafter.blockchain]
  exact hmore

end

end NodeInternals
end Publiq
