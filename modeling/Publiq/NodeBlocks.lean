import Publiq.PoolLedger

/-! The blocks of a node and its ledger without a pool: what `session_action_block` does with them,
one after the other, builds up a run over blocks. -/
namespace Publiq
open Message Checked

/-- What the cryptography, the key of a node and the genesis block of its network are taken to
be. -/
structure Premises [Externals] (ctx : Context) (genesis : SignedBlock) : Prop where
  hash : Externals.Collisionless
  empty : Externals.EmptyNoUri
  keyed : Externals.publicKey "" ≠ .ok ()
  hashed : ∀ s, Externals.hash s ≠ ""
  signing : ∀ text, Externals.publicKey (Externals.sign ctx.config.key text).address = .ok ()
  held : HeldTime genesis.blockDetails.header
  fits : sumRewards genesis.blockDetails.rewards +
    50000 * (ctx.blockRewardArray.map Coin.value).sum < Coin.limit

abbrev Blockchain.transactions (chain : Blockchain) : List SignedTransaction :=
  NodeInternals.transactionsAbove 0 chain

section
variable [Externals] {ctx : Context} {genesis : SignedBlock} {blocks : List AppliedBlock}
  {chain : Blockchain} {base : Ledger}

theorem mem_hashesIn {hash : String} {transactions : List SignedTransaction} :
    hash ∈ hashesIn transactions ↔
      ∃ st ∈ transactions, (sponsorshipOf st).map Prod.fst = some hash := by
  simp only [hashesIn, List.mem_map, List.mem_filterMap, Option.map_eq_some_iff]
  constructor
  · rintro ⟨s, ⟨st, hst, hs⟩, rfl⟩
    exact ⟨st, hst, s, hs, rfl⟩
  · rintro ⟨st, hst, s, hs, rfl⟩
    exact ⟨s, ⟨st, hst, hs⟩, rfl⟩

theorem BlockRun.mem_transactions (run : BlockRun ctx genesis blocks chain base)
    {st : SignedTransaction} :
    st ∈ chain.transactions ↔ ∃ b ∈ blocks, st ∈ b.block.signedTransactions := by
  unfold Blockchain.transactions NodeInternals.transactionsAbove
  rw [run.replay.1, Nat.zero_add, List.drop_one, List.tail_cons]
  simp only [List.mem_flatMap, List.mem_reverse, List.mem_map, exists_exists_and_eq_and]
  rfl

/-- What blocks alone have built up: a sound ledger, with all coins that there are, that knows the
sponsorships of the chain. -/
structure Based (ctx : Context) (chain : Blockchain) (base : Ledger) : Prop where
  sound : LedgerSound ctx.own .chain base
  fits : base.state.supply < Coin.limit
  knows : ∀ hash, base.documents.Knows hash ↔ hash ∈ hashesIn chain.transactions

theorem BlockRun.based (premises : Premises ctx genesis)
    (run : BlockRun ctx genesis blocks chain base) (clear : ∀ b ∈ blocks, b.Clear ctx) :
    Based ctx chain base := by
  have payouts := run.payoutsKept premises.empty premises.keyed premises.hashed premises.held clear
  have kept := run.supplyKept premises.empty premises.keyed premises.hashed premises.held
    premises.fits clear
  refine ⟨payouts.reached.sound, ?_, fun hash => ?_⟩
  · have hopen := kept.sponsorships.openIn_add_payments payouts
    have htotal := kept.total
    have hschedule := emittedIn_le ctx.blockRewardArray blocks.length
    have hfits := premises.fits
    omega
  · rw [kept.sponsorships.knows, mem_hashesIn]
    simp only [sponsorshipsIn, run.mem_transactions, List.mem_map, List.mem_flatMap,
      List.mem_filterMap, Option.map_eq_some_iff]
    constructor
    · rintro ⟨s, ⟨b, hb, st, hst, hs⟩, rfl⟩
      exact ⟨st, ⟨b, hb, hst⟩, s, hs, rfl⟩
    · rintro ⟨st, ⟨b, hb, hst⟩, s, hs, rfl⟩
      exact ⟨s, ⟨b, hb, st, hst, hs⟩, rfl⟩

theorem BlockRun.signed (keyed : Externals.publicKey "" ≠ .ok ())
    (run : BlockRun ctx genesis blocks chain base) :
    ∀ signedBlock ∈ chain.blocks.tail, signedBlock.authorization.address ≠ "" := by
  rw [run.replay.1, List.tail_cons]
  intro signedBlock hmem
  obtain ⟨b, hb, rfl⟩ := List.mem_map.mp (List.mem_reverse.mp hmem)
  clear hmem
  induction run with
  | genesis => cases hb
  | connect _ signed _ _ _ ih =>
      rcases List.mem_cons.mp hb with rfl | hb
      · exact fun hnone => keyed (hnone ▸ signed)
      · exact ih hb

theorem applyBlock_addresses (addresses : List PublicAddressInfo) (block : Block) {miner : String}
    (layer : layerOf miner = .chain) (l : Ledger) :
    applyBlock { ctx with addresses } block miner l = applyBlock ctx block miner l := by
  have hmined : applyMined { ctx with addresses } miner = applyMined ctx miner := by
    funext st l
    simp only [applyMined, applyTransaction, layer]
    rfl
  rw [applyBlock, hmined]
  rfl

end

namespace NodeInternals
variable [Externals] {ctx : Context} {genesis : SignedBlock} {blocks : List AppliedBlock}
  {node after : NodeInternals} {base : Ledger}

/-- A node has the settings that it was started with, whatever its chain and whatever addresses it
knows. -/
def KeepsSettings (ctx : Context) (node : NodeInternals) : Prop :=
  node.ctx = { ctx with addresses := node.ctx.addresses, blockchain := node.blockchain }

omit [Externals] in
theorem KeepsSettings.sameChain (settings : KeepsSettings ctx node) (same : SameChain node after) :
    KeepsSettings ctx after := by
  unfold KeepsSettings blockchain
  rw [same.1]
  exact settings

omit [Externals] in
theorem KeepsSettings.withChain (settings : KeepsSettings ctx node) {chain : Blockchain}
    (h : after.ctx = node.ctx.withChain chain) :
    KeepsSettings ctx after ∧ after.blockchain = chain := by
  have hchain : after.blockchain = chain := congrArg Context.blockchain h
  refine ⟨?_, hchain⟩
  unfold KeepsSettings
  rw [hchain, h, settings]
  rfl

omit [Externals] in
theorem KeepsSettings.config (settings : KeepsSettings ctx node) :
    node.ctx.config = ctx.config := by
  rw [settings]

omit [Externals] in
theorem KeepsSettings.own (settings : KeepsSettings ctx node) : node.ctx.own = ctx.own :=
  congrArg Config.publicKey settings.config

theorem run_append (premises : Premises ctx genesis) (settings : KeepsSettings ctx node)
    (run : BlockRun ctx genesis blocks node.blockchain node.ledger) {signedBlock : SignedBlock}
    (signed : Externals.publicKey signedBlock.authorization.address = .ok ())
    (next : Next node.blockchain.lastHeaderEx signedBlock.headerEx)
    (valid : ∀ st ∈ signedBlock.blockDetails.signedTransactions,
      actionValidate ctx.config st true = .ok ()) {miner : String} {chain : Blockchain}
    (hminer : getMiner signedBlock = .ok miner)
    (hinsert : node.blockchain.insert signedBlock = .ok chain) {l : Ledger}
    (happly : applyBlock node.ctx signedBlock.blockDetails miner node.ledger = .ok l) :
    BlockRun ctx genesis (⟨node.blockchain, node.ledger, signedBlock⟩ :: blocks) chain l := by
  refine .connect run signed next valid ?_
  have layer : layerOf miner = .chain := by
    refine if_neg (getMiner_ne_empty ?_ hminer)
    intro hnone
    rw [hnone] at signed
    exact premises.keyed signed
  have happly' : applyBlock (ctx.withChain node.blockchain) signedBlock.blockDetails miner
      node.ledger = .ok l := by
    rw [← applyBlock_addresses node.ctx.addresses _ layer, ← happly]
    exact congrArg (applyBlock · _ _ _) settings.symm
  unfold replayBlock
  simp only [hminer, ok_bind, happly', hinsert]
  rfl

theorem connectBlocks_run (premises : Premises ctx genesis) {signedBlocks : List SignedBlock}
    (settings : KeepsSettings ctx node)
    (run : BlockRun ctx genesis blocks node.blockchain node.ledger)
    (signed : ∀ signedBlock ∈ signedBlocks,
      Externals.publicKey signedBlock.authorization.address = .ok () ∧
        ∀ st ∈ signedBlock.blockDetails.signedTransactions,
          actionValidate ctx.config st true = .ok ())
    (next : (node.blockchain.lastHeaderEx ::
      signedBlocks.map SignedBlock.headerEx).IsChain Next)
    (h : runAll connectBlock signedBlocks node = .ok after) :
    KeepsSettings ctx after ∧
      ∃ more, BlockRun ctx genesis (more ++ blocks) after.blockchain after.ledger := by
  induction signedBlocks generalizing node blocks with
  | nil =>
      cases h
      exact ⟨settings, [], run⟩
  | cons signedBlock rest ih =>
      obtain ⟨mid, first, h⟩ := runAll_cons_ok_iff.mp h
      obtain ⟨miner, chain, hminer, _, hinsert, hctx, _, _, _, happly, _⟩ := connectBlock_spec first
      rw [List.forall_mem_cons] at signed
      rw [List.map_cons, List.isChain_cons_cons] at next
      obtain ⟨hsettings, hchain⟩ := settings.withChain hctx
      have hrun := run_append premises settings run signed.1.1 next.1 signed.1.2 hminer hinsert
        happly
      rw [← hchain] at hrun
      have hlast : mid.blockchain.lastHeaderEx = signedBlock.headerEx := by
        rw [hchain]
        exact congrArg SignedBlock.headerEx (Blockchain.lastBlock_insert hinsert)
      obtain ⟨hafter, more, hmore⟩ := ih hsettings hrun signed.2 (hlast ▸ next.2) h
      refine ⟨hafter, more ++ [⟨node.blockchain, node.ledger, signedBlock⟩], ?_⟩
      rw [List.append_assoc]
      exact hmore

/-- Taking the last block back goes back in the run. -/
theorem disconnectBlock_run (premises : Premises ctx genesis) (settings : KeepsSettings ctx node)
    (run : BlockRun ctx genesis blocks node.blockchain node.ledger)
    (clear : ∀ b ∈ blocks, b.Clear ctx) (h : node.disconnectBlock = .ok after) :
    KeepsSettings ctx after ∧ ∃ b rest, blocks = b :: rest ∧
      BlockRun ctx genesis rest after.blockchain after.ledger := by
  obtain ⟨miner, chain, hminer, hremove, hctx, _, _, _, hrevert⟩ := disconnectBlock_spec h
  obtain ⟨hsettings, hchain⟩ := settings.withChain hctx
  refine ⟨hsettings, ?_⟩
  cases blocks with
  | nil =>
      -- the genesis block stays
      have hlength : node.blockchain.length = 1 := by
        rw [Blockchain.length, run.replay.1]
        rfl
      exact absurd hlength (Blockchain.removeLastBlock_ok_iff.mp hremove).1
  | cons b rest =>
      obtain ⟨hrest, hback⟩ := run.disconnectLast premises.empty premises.keyed premises.hashed
        premises.held premises.fits clear
      have hledger : revertBlock (ctx.withChain chain) node.blockchain.lastBlock.blockDetails miner
          node.ledger = .ok after.ledger := by
        rw [settings] at hrevert
        exact hrevert
      have hsame : disconnectLast ctx (node.blockchain, node.ledger) =
          .ok (chain, after.ledger) := by
        rw [disconnectLast]
        simp only [hremove, ok_bind, hminer, hledger]
        rfl
      obtain ⟨hb, hl⟩ := Prod.mk.inj (Except.ok.inj (hback.symm.trans hsame))
      refine ⟨b, rest, rfl, ?_⟩
      rw [hchain, ← hb, ← hl]
      exact hrest

theorem disconnectTo_run (premises : Premises ctx genesis) {common count : ℕ}
    (settings : KeepsSettings ctx node)
    (run : BlockRun ctx genesis blocks node.blockchain node.ledger)
    (clear : ∀ b ∈ blocks, b.Clear ctx) (h : disconnectTo common count node = .ok after) :
    KeepsSettings ctx after ∧ ∃ rest, rest <:+ blocks ∧
      BlockRun ctx genesis rest after.blockchain after.ledger := by
  induction count generalizing node blocks with
  | zero =>
      cases h
      exact ⟨settings, blocks, List.suffix_refl _, run⟩
  | succ count ih =>
      simp only [disconnectTo] at h
      split_ifs at h with hlong
      · obtain ⟨mid, first, h⟩ := bind_ok_iff.mp h
        obtain ⟨hsettings, b, rest, rfl, hrun⟩ :=
          disconnectBlock_run premises settings run clear first
        obtain ⟨hafter, kept, hsuffix, hkept⟩ :=
          ih hsettings hrun (List.forall_mem_cons.mp clear).2 h
        exact ⟨hafter, kept, hsuffix.trans (List.suffix_cons b rest), hkept⟩
      · cases pure_ok_iff.mp h
        exact ⟨settings, blocks, List.suffix_refl _, run⟩

end NodeInternals
end Publiq
