import Publiq.NodeReplay

/-! A node that mines. The block that it puts on its chain gives, replayed, the ledger that it has
come to itself, and what did not make it into the block is in its pool again. -/
namespace Publiq
open Message Checked TransactionCache Ledger

namespace NodeInternals
variable [Externals]

/-- What holds while the selected transactions are applied to the block: those that are in it give
the ledger of the node, and the cache knows them. -/
structure MinesReplay (reverted : NodeInternals) (mined : NodeInternals × Selection) : Prop where
  same : SameChain reverted mined.1
  run : runAll (applyMined reverted.ctx reverted.ctx.own) mined.2.blockTransactions
    reverted.ledger = .ok mined.1.ledger
  sound : LedgerSound reverted.ctx.own .chain mined.1.ledger
  held : ∀ st ∈ mined.2.blockTransactions, holds mined.1.transactionCache st = true

theorem MinesReplay.step (hash : Externals.Collisionless) (empty : Externals.EmptyNoUri)
    {reverted : NodeInternals} {mined after : NodeInternals × Selection}
    (layer : layerOf reverted.ctx.own = .chain) {st : SignedTransaction}
    (valid : actionValidate reverted.ctx.config st true = .ok ())
    (unbased : ∀ key ∈ hashesIn [st], ¬ reverted.ledger.documents.Knows key)
    (mining : MinesReplay reverted mined) (h : mineTransaction st mined = .ok after) :
    MinesReplay reverted after := by
  obtain ⟨node, s⟩ := mined
  obtain ⟨next, t⟩ := after
  obtain ⟨same, run, sound, held⟩ := mining
  rcases mineTransaction_cases h with ⟨_, rfl, rfl⟩ | ⟨cache, hadd, h⟩
  · exact ⟨same, run, sound, held⟩
  have hfresh : FreshSponsorship st node.ledger := by
    refine freshSponsorship_of_unknown fun key hkey hknown => ?_
    rcases (knows_runMined run key).mp hknown with hbase | hblock
    · exact unbased key hkey hbase
    · have hheld := held st (same_of_mem_hashesIn hash hkey hblock)
      have hfree := (addChain_eq_some hadd).1 _ (transactionHash_mem_chainKeys st)
      rw [holds_eq_false_iff.mpr hfree] at hheld
      cases hheld
  have hlayer : LedgerSound reverted.ctx.own (layerOf reverted.ctx.own) node.ledger := by
    rw [layer]
    exact sound
  rcases h with ⟨mid, happly, rfl, rfl⟩ | ⟨mid, happly, rfl, rfl⟩
  · obtain ⟨hledger, ⟨hsame, _, hcache⟩, _⟩ := applyTransaction_spec happly
    have hledger : Publiq.applyTransaction reverted.ctx reverted.ctx.own st node.ledger =
        .ok (true, next.ledger) := by
      rw [← same.1]
      exact hledger
    obtain ⟨hold, hnew⟩ := holds_addChain hadd
    refine ⟨same.trans hsame, ?_, ?_, ?_⟩
    · dsimp only
      rw [runAll_append, run, ok_bind, runAll_singleton, applyMined, hledger]
      rfl
    · have hafter := hlayer.applyTransaction hfresh hledger
      rw [layer] at hafter
      exact hafter
    · dsimp only
      rw [hcache]
      exact List.forall_mem_append.mpr
        ⟨fun other hother => hold other (held other hother), List.forall_mem_singleton.mpr hnew⟩
  · obtain ⟨hledger, ⟨hsame, _, hcache⟩, _⟩ := applyTransaction_spec happly
    have hledger : Publiq.applyTransaction reverted.ctx reverted.ctx.own st node.ledger =
        .ok (false, mid.ledger) := by
      rw [← same.1]
      exact hledger
    have hunchanged : mid.ledger = node.ledger :=
      applyTransaction_false empty hlayer valid hfresh hledger
    have hrestored : TransactionCache.eraseChain st mid.transactionCache =
        node.transactionCache := by
      rw [hcache]
      exact eraseChain_addChain hadd
    refine ⟨same.trans hsame, ?_, ?_, ?_⟩
    · dsimp only
      rw [hunchanged]
      exact run
    · dsimp only
      rw [hunchanged]
      exact sound
    · dsimp only
      rw [hrestored]
      exact held

theorem mining_mineAll (hash : Externals.Collisionless) (empty : Externals.EmptyNoUri)
    {reverted : NodeInternals} {mined : NodeInternals × Selection}
    {transactions waiting : List SignedTransaction} (layer : layerOf reverted.ctx.own = .chain)
    (sound : LedgerSound reverted.ctx.own .chain reverted.ledger)
    (valid : ∀ st ∈ transactions, actionValidate reverted.ctx.config st true = .ok ())
    (unbased : ∀ st ∈ transactions, ∀ key ∈ hashesIn [st],
      ¬ reverted.ledger.documents.Knows key)
    (h : runAll mineTransaction transactions (reverted, ⟨[], waiting⟩) = .ok mined) :
    MinesReplay reverted mined := by
  refine runAll_invariant (I := MinesReplay reverted) (fun st hst _ _ mining step => ?_)
    ⟨SameChain.refl _, rfl, sound, List.forall_mem_nil _⟩ h
  exact mining.step hash empty layer (valid st hst) (unbased st hst) step

/-- What holds while the transactions that wait after a block was mined are applied to the pool
again, which nothing but where they come from keeps from being there twice. -/
structure Rejoining (base : Ledger) (rest : List SignedTransaction) (node : NodeInternals) :
    Prop where
  pool : PoolOn base node
  covered : Covered rest node
  documents : ∀ st ∈ node.transactionPool, st.isComplete = true →
    st.transactionDetails.action.document ≠ none →
      node.ledger.documents.published st.transactionDetails.action = true
  distinct : ∀ st : SignedTransaction, st.transactionDetails.action.document = none →
    rest.count st + node.transactionPool.count st ≤ 1
  named : ∀ st, st ∈ rest ∨ st ∈ node.transactionPool → st.Named
  valid : ∀ st ∈ rest, actionValidate node.ctx.config st st.isComplete = .ok ()
  unbased : ∀ st ∈ rest, ∀ key ∈ hashesIn [st], ¬ base.documents.Knows key

section
variable {base : Ledger} {rest : List SignedTransaction} {st : SignedTransaction}
  {node mid after : NodeInternals}

theorem document_of_sponsorship {key : String} (h : key ∈ hashesIn [st]) :
    st.transactionDetails.action.document = none := by
  obtain ⟨same, hsame, hkey⟩ := mem_hashesIn.mp h
  rw [List.mem_singleton.mp hsame] at hkey
  unfold sponsorshipOf at hkey
  split at hkey
  · rename_i haction
    rw [haction]
    rfl
  · cases hkey

theorem Rejoining.unknown (hash : Externals.Collisionless)
    (rejoining : Rejoining base (st :: rest) node) :
    ∀ key ∈ hashesIn [st], ¬ node.ledger.documents.Knows key := by
  intro key hkey hknown
  rcases (rejoining.pool.knows key).mp hknown with hbase | hpool
  · exact rejoining.unbased st List.mem_cons_self key hkey hbase
  · have hcount := rejoining.distinct st (document_of_sponsorship hkey)
    have hin := List.count_pos_iff.mpr (same_of_mem_hashesIn hash hkey hpool)
    rw [List.count_cons_self] at hcount
    omega

theorem Rejoining.refuse (hash : Externals.Collisionless) (empty : Externals.EmptyNoUri)
    (based : Based node.ctx node.blockchain base) (rejoining : Rejoining base (st :: rest) node)
    (h : node.applyTransaction "" st = .ok (false, after)) : Rejoining base rest after := by
  obtain ⟨hledger, ⟨hsame, hpool, hcache⟩, _⟩ := applyTransaction_spec h
  obtain ⟨hkeep, _⟩ := published_applyTransaction hledger
  have hrest (other : SignedTransaction) (hother : other ∈ rest) : other ∈ st :: rest :=
    List.mem_cons_of_mem st hother
  refine ⟨?_, ?_, ?_, ?_, ?_, ?_, fun other hother => rejoining.unbased other (hrest other hother)⟩
  · exact rejoining.pool.refuse empty based.sound based.fits
      (rejoining.valid st List.mem_cons_self) (rejoining.unknown hash) h
  · exact Covered.mono (fun other hother => rejoining.covered other (hrest other hother)) hcache
      hkeep
  · rw [hpool]
    exact fun other hother hcomplete hdocument =>
      hkeep _ (rejoining.documents other hother hcomplete hdocument)
  · intro other hnone
    have hcount := rejoining.distinct other hnone
    have hless := List.count_le_count_cons (a := other) (b := st) (l := rest)
    rw [hpool]
    omega
  · rw [hpool]
    exact fun other hother => rejoining.named other (hother.imp_left (hrest other))
  · rw [hsame.1]
    exact fun other hother => rejoining.valid other (hrest other hother)

/-- A transaction that waits joins the pool, applied to the ledger if it is complete. -/
theorem Rejoining.push (hash : Externals.Collisionless)
    (rejoining : Rejoining base (st :: rest) node) (same : SameQueues node mid)
    (ledger : if st.isComplete then
        ∃ addresses, actionApply { node.ctx with addresses } st .pool node.ledger = .ok mid.ledger
      else mid.ledger = node.ledger)
    (keep : ∀ action, node.ledger.documents.published action = true →
      mid.ledger.documents.published action = true)
    (new : st.isComplete = true → st.transactionDetails.action.document ≠ none →
      node.ledger.documents.published st.transactionDetails.action ≠ true ∧
        mid.ledger.documents.published st.transactionDetails.action = true)
    (free : st.isComplete = false → (erasePool st node.transactionCache).1 = false) :
    Rejoining base rest (mid.pushPool st st.isComplete) := by
  obtain ⟨hsame, hpool, hcache⟩ := same
  have hrest (other : SignedTransaction) (hother : other ∈ rest) : other ∈ st :: rest :=
    List.mem_cons_of_mem st hother
  have hpushed : (mid.pushPool st st.isComplete).transactionPool =
      node.transactionPool ++ [st] := congrArg (· ++ [st]) hpool
  have fresh : st.isComplete = true → st ∉ node.transactionPool := by
    intro hcomplete hmem
    by_cases hnone : st.transactionDetails.action.document = none
    · have hcount := rejoining.distinct st hnone
      have hin := List.count_pos_iff.mpr hmem
      rw [List.count_cons_self] at hcount
      omega
    · exact (new hcomplete hnone).1 (rejoining.documents st hmem hcomplete hnone)
  refine ⟨rejoining.pool.concat hsame.1 hpushed ledger (rejoining.valid st List.mem_cons_self)
    (rejoining.unknown hash) ?_, ?_, fun other hother hcomplete hdocument => ?_,
    fun other hnone => ?_, fun other hother => ?_, ?_,
    fun other hother => rejoining.unbased other (hrest other hother)⟩
  · change Keeps _ (addPool st st.isComplete mid.transactionCache)
    rw [hcache]
    exact rejoining.pool.keeps.push hash fresh free
  · refine Covered.push hash ?_ st
    exact Covered.mono (fun other hother => rejoining.covered other (hrest other hother)) hcache
      keep
  · rw [hpushed] at hother
    rcases List.mem_append.mp hother with hother | hother
    · exact keep _ (rejoining.documents other hother hcomplete hdocument)
    · rw [List.mem_singleton.mp hother] at hcomplete hdocument ⊢
      exact (new hcomplete hdocument).2
  · have hcount := rejoining.distinct other hnone
    rw [hpushed, List.count_append]
    rw [List.count_cons] at hcount
    rw [List.count_singleton]
    omega
  · apply rejoining.named
    rw [hpushed] at hother
    rcases hother with hother | hother
    · exact .inl (hrest other hother)
    · rcases List.mem_append.mp hother with hother | hother
      · exact .inr hother
      · exact .inl (List.mem_singleton.mp hother ▸ List.mem_cons_self)
  · change ∀ other ∈ rest, actionValidate mid.ctx.config other other.isComplete = .ok ()
    rw [hsame.1]
    exact fun other hother => rejoining.valid other (hrest other hother)

theorem Rejoining.step (hash : Externals.Collisionless) (empty : Externals.EmptyNoUri)
    (based : Based node.ctx node.blockchain base) (rejoining : Rejoining base (st :: rest) node)
    (h : node.repoolWaiting st = .ok after) : Rejoining base rest after := by
  obtain ⟨complete, hcomplete, h⟩ := bind_ok_iff.mp h
  obtain rfl := isComplete_of_actionIsComplete hcomplete
  rcases repool_cases h with ⟨mid, happly, rfl⟩ | ⟨hwhole, mid, happly, rfl⟩ |
    ⟨hpart, hcan, rfl⟩
  · exact rejoining.refuse hash empty based happly
  · obtain ⟨hledger, hsame, _⟩ := applyTransaction_spec happly
    obtain ⟨hkeep, hnew, hblocked⟩ := published_applyTransaction hledger
    have happlied := actionApply_of_pooled happly
    refine @Rejoining.push _ base rest st node
      { mid with actionLog := mid.actionLog.logTransaction st } hash rejoining hsame ?_ hkeep
      (fun _ hdocument => ⟨fun hpublished => ?_, ?_⟩) fun hpart => ?_
    · rw [if_pos hwhole]
      exact ⟨node.ctx.addresses, happlied⟩
    · cases hblocked hpublished
    · obtain ⟨⟨uri, authors⟩, hdocument⟩ := Option.ne_none_iff_exists'.mp hdocument
      exact hnew rfl uri authors hdocument
        (rejoining.named st (.inl List.mem_cons_self) uri authors hdocument)
    · rw [hwhole] at hpart
      cases hpart
  · refine rejoining.push hash ⟨SameChain.refl node, rfl, rfl⟩ ?_ (fun _ h => h) ?_ ?_
    · rw [if_neg (by simp [hpart])]
    · intro hwhole
      rw [hpart] at hwhole
      cases hwhole
    · intro _
      rcases rejoining.covered st List.mem_cons_self hpart with hfree | hpublished
      · exact hfree
      · cases canApply_of_published hpublished hcan

/-- What waits after a block was mined is applied to the pool again. -/
theorem Rejoining.run (hash : Externals.Collisionless) (empty : Externals.EmptyNoUri)
    {transactions : List SignedTransaction} (based : Based node.ctx node.blockchain base)
    (rejoining : Rejoining base transactions node)
    (h : runAll repoolWaiting transactions node = .ok after) : Rejoining base [] after := by
  induction transactions generalizing node with
  | nil =>
      cases h
      exact rejoining
  | cons st rest ih =>
      obtain ⟨mid, first, h⟩ := runAll_cons_ok_iff.mp h
      have hsame := repoolWaiting_sameChain first
      refine ih ?_ (rejoining.step hash empty based first) h
      rw [hsame.1, hsame.blockchain]
      exact based

end

section
variable {ctx : Context} {genesis : SignedBlock} {base : Ledger} {node after : NodeInternals}

theorem valid_of_selected {config : Config} {pool reverted : List SignedTransaction}
    {selection : Selection} (selected : Selected reverted selection)
    (sublist : reverted.Sublist pool)
    (valid : ∀ st ∈ pool, actionValidate config st st.isComplete = .ok ()) :
    ∀ st ∈ selection.all, actionValidate config st st.isComplete = .ok () := by
  intro st hst
  rcases selected.member st hst with hmem | ⟨hcomplete, copy, hcopy, hdetails⟩
  · exact valid st (sublist.subset hmem)
  · by_cases hnone : st.transactionDetails.action.document = none
    · -- only documents are merged
      have hcount := (selected.count st hnone).trans (sublist.count_le st)
      have hin := List.count_pos_iff.mpr hst
      exact valid st (List.count_pos_iff.mp (hin.trans_le hcount))
    · rw [hcomplete]
      exact actionValidate_of_copy hdetails (hdetails ▸ hnone) hcomplete
        (valid copy (sublist.subset hcopy))

theorem unbased_of_selected (orderly : Orderly ctx genesis node)
    (based : Based node.ctx node.blockchain base) {reverted : List SignedTransaction}
    {selection : Selection} (selected : Selected reverted selection)
    (sublist : reverted.Sublist node.transactionPool) :
    ∀ st ∈ selection.all, ∀ key ∈ hashesIn [st], ¬ base.documents.Knows key := by
  intro st hst key hkey hknown
  have hcount := (selected.count st (document_of_sponsorship hkey)).trans (sublist.count_le st)
  have hpool := List.count_pos_iff.mp ((List.count_pos_iff.mpr hst).trans_le hcount)
  have honce := orderly.once
  rw [hashesIn_append] at honce
  refine List.disjoint_of_nodup_append honce ((based.knows key).mp hknown) ?_
  obtain ⟨same, hsame, hsameKey⟩ := mem_hashesIn.mp hkey
  rw [List.mem_singleton.mp hsame] at hsameKey
  exact mem_hashesIn.mpr ⟨st, hpool, hsameKey⟩

omit [Externals] in
theorem transactions_insert {chain longer : Blockchain} {signedBlock : SignedBlock}
    (h : chain.insert signedBlock = .ok longer) :
    longer.transactions = chain.transactions ++ signedBlock.blockDetails.signedTransactions := by
  have hpos := chain.length_pos
  unfold Blockchain.length at hpos
  unfold Blockchain.transactions transactionsAbove
  rw [(Blockchain.insert_ok_iff.mp h).2, List.drop_append_of_le_length (by omega),
    List.flatMap_append, List.flatMap_singleton]

/-- What waits after a block was mined is no sponsorship of the longer chain. -/
theorem apart_of_waiting (hash : Externals.Collisionless) {chain longer : Blockchain}
    {signedBlock : SignedBlock} (insert : chain.insert signedBlock = .ok longer)
    {waiting : List SignedTransaction} {st : SignedTransaction} (waits : st ∈ waiting)
    (count : st.transactionDetails.action.document = none →
      signedBlock.blockDetails.signedTransactions.count st + waiting.count st ≤ 1)
    (apart : ∀ key ∈ hashesIn [st], key ∉ hashesIn chain.transactions) :
    ∀ key ∈ hashesIn [st], key ∉ hashesIn longer.transactions := by
  intro key hkey hmem
  rw [transactions_insert insert, hashesIn_append] at hmem
  rcases List.mem_append.mp hmem with hold | hblock
  · exact apart key hkey hold
  · have hone := count (document_of_sponsorship hkey)
    have hin := List.count_pos_iff.mpr (same_of_mem_hashesIn hash hkey hblock)
    have hwaits := List.count_pos_iff.mpr waits
    omega

theorem getMiner_signBlock (premises : Premises ctx genesis) (orderly : Orderly ctx genesis after)
    {mined : NodeInternals} {block : Block} (config : mined.ctx.config = ctx.config)
    (hmem : mined.signBlock block ∈ after.blockchain.blocks) :
    Externals.publicKey (mined.signBlock block).authorization.address = .ok () ∧
      getMiner (mined.signBlock block) = .ok ctx.own ∧ layerOf ctx.own = .chain := by
  have hsigned : Externals.publicKey (mined.signBlock block).authorization.address = .ok () := by
    unfold signBlock
    rw [config]
    exact premises.signing _
  have hown : getMiner (mined.signBlock block) = .ok ctx.own := by
    refine orderly.own _ hmem ?_
    unfold signBlock
    rw [config]
  refine ⟨hsigned, hown, if_neg (getMiner_ne_empty ?_ hown)⟩
  intro hnone
  rw [hnone] at hsigned
  exact premises.keyed hsigned

theorem applyBlock_of_mined {reverted mined appended : NodeInternals} {s : Selection}
    {header : BlockHeader} {granted : Granted} (mining : MinesReplay reverted (mined, s))
    (grants : grantRewards mined.ctx ⟨header, [], s.blockTransactions⟩ mined.ctx.own .apply
      mined.ledger = .ok granted)
    (h : mined.appendBlock (mined.signBlock ⟨header, granted.rewards, s.blockTransactions⟩)
      granted = .ok appended) :
    applyBlock reverted.ctx ⟨header, granted.rewards, s.blockTransactions⟩ reverted.ctx.own
      reverted.ledger = .ok appended.ledger := by
  obtain ⟨_, _, _, _, _, _, hledger⟩ := appendBlock_spec h
  have hsame : mined.ctx = reverted.ctx := mining.same.1
  rw [hsame] at grants hledger
  refine bind_ok_iff.mpr ⟨_, mining.run, ?_⟩
  -- the rewards of a block have no say in what is granted
  have hgranted : grantRewards reverted.ctx ⟨header, granted.rewards, s.blockTransactions⟩
      reverted.ctx.own .apply mined.ledger = .ok granted := grants
  unfold applyRewards checkRewards
  rw [hgranted, ok_bind, pure_bind]
  simp only [ne_eq, not_true_eq_false, decide_false]
  rw [require_true trivial, ok_bind]
  exact hledger

/-- A node that mines a block holds what its longer chain and its new pool give. -/
theorem Replays.mineBlock (premises : Premises ctx genesis)
    (replays : Replays ctx genesis base node) (orderly : Orderly ctx genesis node)
    (orderly' : Orderly ctx genesis after) (h : node.mineBlock = .ok after) :
    ∃ base', Replays ctx genesis base' after := by
  have hbased := replays.based premises orderly
  obtain ⟨settings, ⟨blocks, run⟩, pool⟩ := replays
  obtain ⟨header, unexpired, reverted, selection, mined, s, granted, appended, _, hpool, hselect,
    hmine, hgrant, happend, hrest⟩ := mineBlock_stages h
  -- the pool is taken back
  obtain ⟨hsame, hempty, _, hunexpired⟩ := revertPool_spec hpool
  obtain ⟨hledger, hkeeps⟩ := pool.revertPool premises.empty hbased.sound hbased.fits hpool
  have hsettings := settings.sameChain hsame
  have hrun : BlockRun ctx genesis blocks reverted.blockchain reverted.ledger := by
    rw [hsame.blockchain, hledger]
    exact run
  have hnamed : ∀ st ∈ node.transactionPool, st.Named := fun st hst =>
    named_of_actionValidate premises.empty (pool.valid st hst)
  -- what was selected of it
  have hsublist : unexpired.Sublist node.transactionPool := hunexpired ▸ List.filter_sublist
  have hselected := selected_selectTransactions hselect
  have hsorts := sorts_mineAll hmine
  have arranged := arranged_of_selected hnamed hsublist hselected hsorts
  have hvalid := valid_of_selected hselected hsublist pool.valid
  have hunbased := unbased_of_selected orderly hbased hselected hsublist
  have hperm : s.all.Perm selection.all :=
    hsorts.all.trans (List.perm_append_comm.trans
      ((sortByCreation_perm _).append_right selection.waiting))
  -- the block is signed, and its miner is the node
  have hmined := mineAll_sameChain hmine
  obtain ⟨chain, hinsert, hctx, _, hpool', hcache', _⟩ := appendBlock_spec happend
  have hlast : SameChain appended after := runAll_invariant (I := SameChain appended)
    (fun _ _ _ _ hs step => hs.trans (repoolWaiting_sameChain step)) (SameChain.refl _) hrest
  have hafter : after.blockchain = chain := by
    rw [hlast.blockchain]
    exact congrArg Context.blockchain hctx
  have hinsert' : reverted.blockchain.insert
      (mined.signBlock ⟨header, granted.rewards, s.blockTransactions⟩) = .ok chain := by
    rw [hmined.blockchain] at hinsert
    exact hinsert
  have hchain := (Blockchain.insert_ok_iff.mp hinsert').2
  have hkey : mined.ctx.config = ctx.config := by
    rw [hmined.1]
    exact hsettings.config
  have hmem : mined.signBlock ⟨header, granted.rewards, s.blockTransactions⟩ ∈
      after.blockchain.blocks := by
    rw [hafter, hchain]
    exact List.mem_append_right _ List.mem_cons_self
  obtain ⟨hsigned, hown, hlayer⟩ := getMiner_signBlock premises orderly' hkey hmem
  -- its transactions are applied
  have hmining : MinesReplay reverted (mined, s) := by
    have hselection {st : SignedTransaction}
        (hst : st ∈ sortByCreation selection.blockTransactions) :
        st ∈ selection.blockTransactions := (sortByCreation_perm _).mem_iff.mp hst
    refine mining_mineAll premises.hash premises.empty ?_ ?_ (fun st hst => ?_) (fun st hst => ?_)
      hmine
    · rw [hsettings.own]
      exact hlayer
    · rw [hsame.1, hledger]
      exact hbased.sound
    · rw [hsettings.config, ← settings.config, ← hselected.block st (hselection hst)]
      exact hvalid st (List.mem_append_left _ (hselection hst))
    · rw [hledger]
      exact hunbased st (List.mem_append_left _ (hselection hst))
  -- and what it grants is paid
  have happly := applyBlock_of_mined hmining hgrant happend
  rw [hsettings.own] at happly
  have hheaders := orderly'.headers
  rw [hafter, hchain] at hheaders
  have hnext : Next reverted.blockchain.lastHeaderEx
      (mined.signBlock ⟨header, granted.rewards, s.blockTransactions⟩).headerEx := by
    exact (List.isChain_cons_cons.mp (next_of_headers hheaders rfl)).1
  have hvalidBlock : ∀ st ∈ s.blockTransactions, actionValidate ctx.config st true = .ok () := by
    intro st hst
    have hall := hvalid st (hperm.mem_iff.mp (List.mem_append_left _ hst))
    rw [arranged.block st hst, settings.config] at hall
    exact hall
  have hrun' := run_append premises hsettings hrun hsigned hnext hvalidBlock hown hinsert' happly
  have hchainSettings : KeepsSettings ctx appended ∧ appended.blockchain = chain := by
    rw [hmined.1] at hctx
    exact hsettings.withChain hctx
  obtain ⟨happended, hchain'⟩ := hchainSettings
  have hbased' : Based appended.ctx appended.blockchain appended.ledger := by
    rw [hchain']
    have hclear := orderly'.clear _ _ (by rw [hafter]; exact hrun')
    obtain ⟨sound, fits, knows⟩ := hrun'.based premises hclear
    exact ⟨happended.own ▸ sound, fits, knows⟩
  -- what waits joins the pool again
  obtain ⟨hkeeps', hempty'⟩ := keeps_mineAll hkeeps hempty hmine
  have hnone : appended.transactionPool = [] := hpool'.trans hempty'
  have hsorted := sortByCreation_perm s.waiting
  have hcount (st : SignedTransaction) (hdocument : st.transactionDetails.action.document = none) :
      s.blockTransactions.count st + s.waiting.count st ≤ 1 := by
    rw [← List.count_append]
    refine (hperm.count_eq st).le.trans ?_
    exact ((hselected.count st hdocument).trans (hsublist.count_le st)).trans
      (count_pool_le_one pool.keeps hdocument)
  have rejoining : Rejoining appended.ledger (sortByCreation s.waiting) appended := by
    refine ⟨.start hnone (hcache' ▸ hkeeps'), fun st hst hpart => ?_, ?_, fun st hdocument => ?_,
      fun st hst => ?_, fun st hst => ?_, fun st hst key hkey hknown => ?_⟩
    · have hst := hsorted.mem_iff.mp hst
      have hcovered : Covered node.transactionPool mined :=
        (covered_revertPool hpool).mineAll premises.hash hnamed hmine
      exact (hcovered.appendBlock hgrant happend) st (arranged.known st hst hpart) hpart
    · rw [hnone]
      exact List.forall_mem_nil _
    · have hone := hcount st hdocument
      rw [hnone, List.count_nil, hsorted.count_eq]
      omega
    · rw [hnone] at hst
      rcases hst with hst | hst
      · exact arranged.named st (List.mem_append_right _ (hsorted.mem_iff.mp hst))
      · cases hst
    · have hall := hvalid st (hperm.mem_iff.mp (List.mem_append_right _ (hsorted.mem_iff.mp hst)))
      rw [happended.config, ← settings.config]
      exact hall
    · have hst := hsorted.mem_iff.mp hst
      have hall := hperm.mem_iff.mp (List.mem_append_right _ hst)
      have hmem := (hbased'.knows key).mp hknown
      rw [hchain'] at hmem
      refine apart_of_waiting premises.hash hinsert' hst (hcount st) (fun other hother hold => ?_)
        key hkey hmem
      rw [hsame.blockchain] at hold
      exact hunbased st hall other hother ((hbased.knows other).mpr hold)
  have hend := rejoining.run premises.hash premises.empty hbased' hrest
  exact ⟨appended.ledger, happended.sameChain hlast, ⟨_, hafter ▸ hrun'⟩, hend.pool⟩

end

end NodeInternals
end Publiq
