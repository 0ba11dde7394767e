import Publiq.BlockReversal

/-! A node that goes from one branch of blocks to another. Its ledger is the one that the blocks of
its chain build up, whatever branches it has left. -/
namespace Publiq
open Message Checked Documents

section
variable [Externals]

def disconnectLast (ctx : Context) (s : Blockchain × Ledger) : Checked (Blockchain × Ledger) := do
  let chain ← s.1.removeLastBlock
  let miner ← getMiner s.1.lastBlock
  let l ← revertBlock (ctx.withChain chain) s.1.lastBlock.blockDetails miner s.2
  pure (chain, l)

/-- A node that connects blocks to its chain and takes the last one back, in any order. -/
inductive ForkRun (ctx : Context) (genesis : SignedBlock) : Blockchain → Ledger → Prop
  | genesis {chain : Blockchain} {l : Ledger} : Blockchain.start genesis = .ok chain →
      increaseRewards (ctx.withChain chain) genesis.blockDetails.rewards default = .ok l →
      ForkRun ctx genesis chain l
  | connect {chain : Blockchain} {l : Ledger} {signedBlock : SignedBlock}
      {after : Blockchain × Ledger} : ForkRun ctx genesis chain l →
      Externals.publicKey signedBlock.authorization.address = .ok () →
      Next chain.lastHeaderEx signedBlock.headerEx →
      (∀ st ∈ signedBlock.blockDetails.signedTransactions,
        actionValidate ctx.config st true = .ok ()) →
      AppliedBlock.Clear ctx ⟨chain, l, signedBlock⟩ →
      replayBlock ctx signedBlock (chain, l) = .ok after → ForkRun ctx genesis after.1 after.2
  | disconnect {chain : Blockchain} {l : Ledger} {before : Blockchain × Ledger} :
      ForkRun ctx genesis chain l → disconnectLast ctx (chain, l) = .ok before →
      ForkRun ctx genesis before.1 before.2

variable {ctx : Context} {genesis : SignedBlock} {blocks : List AppliedBlock} {b : AppliedBlock}
  {chain : Blockchain} {l : Ledger}

theorem BlockRun.replay (run : BlockRun ctx genesis blocks chain l) :
    chain.blocks = genesis :: (blocks.map AppliedBlock.signedBlock).reverse ∧
      Publiq.replay ctx genesis (blocks.map AppliedBlock.signedBlock).reverse = .ok (chain, l) := by
  induction run with
  | @genesis chain l hchain h =>
      refine ⟨Blockchain.start_blocks hchain, ?_⟩
      rw [Publiq.replay, hchain, ok_bind, h]
      rfl
  | @connect blocks b chain l _ _ _ _ h ih =>
      obtain ⟨hblocks, hreplay⟩ := ih
      obtain ⟨miner, mid, granted, replayed⟩ := replayed_of_replay h
      rw [List.map_cons, List.reverse_cons]
      refine ⟨?_, ?_⟩
      · rw [(Blockchain.insert_ok_iff.mp replayed.inserts).2, hblocks]
        rfl
      · obtain ⟨start, hstart, hreplay⟩ := bind_ok_iff.mp hreplay
        obtain ⟨first, hfirst, hreplay⟩ := bind_ok_iff.mp hreplay
        rw [Publiq.replay, hstart, ok_bind, hfirst, ok_bind, runAll_append, hreplay, ok_bind,
          runAll_singleton]
        exact h

theorem BlockRun.disconnectLast (empty : Externals.EmptyNoUri)
    (keyed : Externals.publicKey "" ≠ .ok ()) (hashed : ∀ s, Externals.hash s ≠ "")
    (held : HeldTime genesis.blockDetails.header)
    (fits : sumRewards genesis.blockDetails.rewards +
      50000 * (ctx.blockRewardArray.map Coin.value).sum < Coin.limit)
    (run : BlockRun ctx genesis (b :: blocks) chain l) (clear : ∀ c ∈ b :: blocks, c.Clear ctx) :
    BlockRun ctx genesis blocks b.chain b.start ∧
      Publiq.disconnectLast ctx (chain, l) = .ok (b.chain, b.start) := by
  have whole := run.payoutsKept empty keyed hashed held clear
  rw [List.forall_mem_cons] at clear
  cases run with
  | connect before signed next valid h =>
      obtain ⟨miner, mid, granted, replayed⟩ := replayed_of_replay h
      have kept := before.payoutsKept empty keyed hashed held clear.2
      obtain ⟨hfits, _, _, hroom⟩ := (before.supplyKept empty keyed hashed held fits
        clear.2).rewarded kept whole clear.1 fits replayed
      have hback := revertBlock_replayed empty keyed hashed kept held.1 signed valid clear.1 hfits
        hroom replayed
      have hlast := Blockchain.lastBlock_insert replayed.inserts
      refine ⟨before, ?_⟩
      rw [Publiq.disconnectLast, Blockchain.removeLastBlock_insert replayed.inserts, ok_bind,
        show (chain, l).1.lastBlock = b.signedBlock from hlast, replayed.mined, ok_bind]
      change (revertBlock (ctx.withChain b.chain) b.block miner l >>= _) = _
      rw [hback]
      rfl

/-- Whatever branches a node was on, it has got where the blocks of its chain lead to. -/
theorem ForkRun.blockRun (empty : Externals.EmptyNoUri)
    (keyed : Externals.publicKey "" ≠ .ok ()) (hashed : ∀ s, Externals.hash s ≠ "")
    (held : HeldTime genesis.blockDetails.header)
    (fits : sumRewards genesis.blockDetails.rewards +
      50000 * (ctx.blockRewardArray.map Coin.value).sum < Coin.limit)
    (run : ForkRun ctx genesis chain l) :
    ∃ blocks, BlockRun ctx genesis blocks chain l ∧ ∀ b ∈ blocks, b.Clear ctx := by
  induction run with
  | genesis hchain h => exact ⟨[], .genesis hchain h, List.forall_mem_nil _⟩
  | @connect chain l signedBlock after _ signed next valid clear h ih =>
      obtain ⟨blocks, before, hclear⟩ := ih
      exact ⟨⟨chain, l, signedBlock⟩ :: blocks, .connect before signed next valid h,
        List.forall_mem_cons.mpr ⟨clear, hclear⟩⟩
  | @disconnect chain l before _ h ih =>
      obtain ⟨blocks, run, hclear⟩ := ih
      cases blocks with
      | nil =>
          -- the genesis block stays
          have hlength : chain.length = 1 := by
            rw [Blockchain.length, run.replay.1]
            rfl
          obtain ⟨removed, hremoved, _⟩ := bind_ok_iff.mp h
          exact absurd hlength (Blockchain.removeLastBlock_ok_iff.mp hremoved).1
      | cons b blocks =>
          obtain ⟨hrest, hback⟩ := run.disconnectLast empty keyed hashed held fits hclear
          cases hback.symm.trans h
          exact ⟨blocks, hrest, (List.forall_mem_cons.mp hclear).2⟩

theorem BlockRun.forkRun (run : BlockRun ctx genesis blocks chain l)
    (clear : ∀ b ∈ blocks, b.Clear ctx) : ForkRun ctx genesis chain l := by
  induction run with
  | genesis hchain h => exact .genesis hchain h
  | connect _ signed next valid h ih =>
      rw [List.forall_mem_cons] at clear
      exact .connect (ih clear.2) signed next valid clear.1 h

/-- In every run over branches the ledger is the replay of the chain, and the last block can be
taken back, which leaves the replay of the blocks before it. -/
theorem forks_forgotten (empty : Externals.EmptyNoUri)
    (keyed : Externals.publicKey "" ≠ .ok ()) (hashed : ∀ s, Externals.hash s ≠ "")
    (held : HeldTime genesis.blockDetails.header)
    (fits : sumRewards genesis.blockDetails.rewards +
      50000 * (ctx.blockRewardArray.map Coin.value).sum < Coin.limit)
    (run : ForkRun ctx genesis chain l) :
    replay ctx genesis chain.blocks.tail = .ok (chain, l) ∧
      (chain.length ≠ 1 → ∃ before, disconnectLast ctx (chain, l) = .ok before ∧
        replay ctx genesis chain.blocks.tail.dropLast = .ok before) := by
  obtain ⟨blocks, hrun, clear⟩ := run.blockRun empty keyed hashed held fits
  obtain ⟨hblocks, hreplay⟩ := hrun.replay
  rw [hblocks, List.tail_cons]
  refine ⟨hreplay, fun hlong => ?_⟩
  cases blocks with
  | nil =>
      rw [Blockchain.length, hblocks] at hlong
      exact absurd rfl hlong
  | cons b rest =>
      obtain ⟨hbefore, hback⟩ := hrun.disconnectLast empty keyed hashed held fits clear
      refine ⟨_, hback, ?_⟩
      rw [List.map_cons, List.reverse_cons, List.dropLast_concat]
      exact hbefore.replay.2

end

section Examples

local instance forkExternals : Externals := payoutExternals

/-- The block that pays a sponsorship back, and the way back to the genesis block. -/
theorem endedBlock_forgotten :
    replay (exampleNode "own" .blockchain) fundingGenesis endedAfter.1.blocks.tail =
      .ok (endedAfter.1, endedAfter.2) ∧
    (endedAfter.1.length ≠ 1 → ∃ before,
      disconnectLast (exampleNode "own" .blockchain) (endedAfter.1, endedAfter.2) = .ok before ∧
      replay (exampleNode "own" .blockchain) fundingGenesis endedAfter.1.blocks.tail.dropLast =
        .ok before) :=
  forks_forgotten readingExternals_emptyNoUri payout_keyed payout_hashed ⟨by decide, by decide⟩
    (by decide +kernel)
    (endedBlock_run.forkRun (List.forall_mem_singleton.mpr endedBlock_clear))

end Examples
end Publiq
