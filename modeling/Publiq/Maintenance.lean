import Publiq.NodeLedger

/-! A node that is started for maintenance. `node_internals::initialize` takes its last blocks back,
one with each call, and saves what it has got to now and then; whatever is saved is a node whose
ledger is the replay of its chain. -/
namespace Publiq
open Message Checked TransactionCache

/-- `BLOCK_REVERT_LENGTH`. -/
def blockRevertLength : ℕ := 50

namespace NodeInternals
variable [Externals]

/-- Take the pool and the last block back: a call of `initialize` when blocks are to be
reverted. -/
def revertLastBlock (now : ℤ) (node : NodeInternals) : Checked NodeInternals := do
  let node ← node.loadTransactionCache true
  let (_, node) ← node.revertPool now
  let signedBlock := node.blockchain.lastBlock
  let block := signedBlock.blockDetails
  let blockchain ← node.blockchain.removeLastBlock
  let actionLog ← node.actionLog.revert
  let miner ← getMiner signedBlock
  let ctx := node.ctx.withChain blockchain
  let (mismatch, granted) ← checkRewards ctx block miner .revert node.ledger
  require (mismatch = false)
    (.logicError s!"{block.header.blockNumber}- block rewards reverting error!")
  let ledger ← decreaseRewards ctx block.rewards
    { node.ledger with documents := granted.documents }
  let ledger ← runAll (Publiq.revertTransaction ctx miner) block.signedTransactions.reverse ledger
  let permitted ← ledger.authorityManager.checkAuthority miner signedBlock.authorization.address
    Block.rtt
  require (permitted = true) (.logicError "node_internals::initialize: false == m_authority_manager.check_miner_authority(signed_block_miner_address, signed_block_miner_authority)")
  pure { node with ctx, ledger, actionLog }

end NodeInternals

/-- A node at its start: what is saved of it, and the actions and blocks that are to be
reverted. -/
structure Maintenance where
  node : NodeInternals
  saved : NodeInternals
  revertActionsCount : ℕ
  revertBlocksCount : ℕ

namespace Maintenance

def start (node : NodeInternals) (revertActionsCount revertBlocksCount : ℕ) : Maintenance :=
  ⟨{ node.discard with transactionCache := ∅ }, node, revertActionsCount, revertBlocksCount⟩

/-- The loop of `initialize` over the actions. -/
def revertActions : ℕ → ActionLog → Checked ActionLog
  | 0, log => pure log
  | count + 1, log => do
      let log ← log.revert
      revertActions count log

variable [Externals]

/-- `node_internals::initialize` on a node that has blocks: whether the node is to stop, and what
is left to do. -/
def initializeNode (now : ℤ) (m : Maintenance) : Checked (Bool × Maintenance) :=
  if m.revertActionsCount ≠ 0 then do
    let actionLog ← revertActions m.revertActionsCount m.node.actionLog
    let node := { m.node with actionLog }
    pure (true, { m with node, saved := node, revertActionsCount := 0 })
  else if m.revertBlocksCount ≠ 0 then do
    let node ← m.node.revertLastBlock now
    let count := m.revertBlocksCount - 1
    let saved := if count % blockRevertLength = 0 then node else m.saved
    pure (decide (count = 0), { m with node, saved, revertBlocksCount := count })
  else do
    let node ← m.node.restart
    pure (false, { m with node })

/-- What is saved after some calls of `initialize`; the node stops when it is told to, and when a
call throws. -/
def maintain : List ℤ → Maintenance → NodeInternals
  | [], m => m.saved
  | now :: rest, m =>
      match m.initializeNode now with
      | .ok (true, after) => after.saved
      | .ok (false, after) => maintain rest after
      | .error _ => m.saved

end Maintenance

def AppliedBlock.Permitted [Externals] (b : AppliedBlock) : Prop :=
  ∃ miner, getMiner b.signedBlock = .ok miner ∧
    b.start.authorityManager.checkAuthority miner b.signedBlock.authorization.address Block.rtt =
      .ok true

namespace NodeInternals
open Synchronization (LedgerIsReplay)
variable [Externals] {ctx : Context} {genesis : SignedBlock} {base : Ledger}
  {node after : NodeInternals}

/-- What is stored of a node whose ledger is the replay of its chain with its pool on top. -/
structure Stored (ctx : Context) (genesis : SignedBlock) (base : Ledger) (node : NodeInternals) :
    Prop where
  settings : KeepsSettings ctx node
  blocks : ∃ blocks, BlockRun ctx genesis blocks node.blockchain base ∧
    ∀ b ∈ blocks, b.Clear ctx ∧ b.Permitted
  run : PoolRun node.ctx (node.transactionPool.filter SignedTransaction.isComplete) base node.ledger
  new : NewSponsorships node.transactionPool base
  valid : ∀ st ∈ node.transactionPool, actionValidate node.ctx.config st st.isComplete = .ok ()
  distinct : node.transactionPool.Nodup
  logs : node.LogsBack (LedgerIsReplay ctx genesis) node.transactionPool

/-- What was validated is known to be complete or not, on a chain of more than transfers. -/
theorem actionIsComplete_of_valid {config : Config} (all : config.transferOnly = false)
    {st : SignedTransaction} {whole : Bool} (h : actionValidate config st whole = .ok ()) :
    actionIsComplete config st = .ok st.isComplete := by
  obtain ⟨_, _, h⟩ := bind_ok_iff.mp h
  refine bind_ok_iff.mpr ⟨(), require_true (by simp [all]), ?_⟩
  unfold SignedTransaction.isComplete
  cases haction : st.transactionDetails.action with
  | unknown rtt =>
      rw [haction] at h
      cases h
  | _ => rfl

theorem loadPool_total (hash : Externals.Collisionless) {config : Config}
    (all : config.transferOnly = false) {pool : List SignedTransaction} (distinct : pool.Nodup)
    (valid : ∀ st ∈ pool, actionValidate config st st.isComplete = .ok ())
    {cache : TransactionCache} (free : ∀ st ∈ pool, holds cache st = false) :
    ∃ loaded, runAll (loadPool config) pool cache = .ok loaded := by
  induction pool generalizing cache with
  | nil => exact ⟨cache, rfl⟩
  | cons st rest ih =>
      rw [List.nodup_cons] at distinct
      rw [List.forall_mem_cons] at valid free
      have first : loadPool config st cache = .ok (addPool st st.isComplete cache) := by
        unfold loadPool
        rw [actionIsComplete_of_valid all valid.1, ok_bind, require_true free.1, ok_bind]
        rfl
      have hfree : ∀ other ∈ rest, holds (addPool st st.isComplete cache) other = false := by
        intro other hother
        rw [holds_eq_false_iff, addPool, getElem?_keep, if_neg]
        · exact holds_eq_false_iff.mp (free.2 other hother)
        · rintro ⟨hkey, _⟩
          exact distinct.1 (hash.transaction hkey ▸ hother)
      obtain ⟨loaded, hloaded⟩ := ih distinct.2 valid.2 hfree
      exact ⟨loaded, runAll_cons_ok_iff.mpr ⟨_, first, hloaded⟩⟩

theorem Stored.revertPool (premises : Premises ctx genesis) (all : ctx.config.transferOnly = false)
    (stored : Stored ctx genesis base node) (now : ℤ) :
    ∃ loaded unexpired reverted, node.loadTransactionCache true = .ok loaded ∧
      loaded.revertPool now = .ok (unexpired, reverted) ∧ SameChain node reverted ∧
      reverted.transactionPool = [] ∧ reverted.ledger = base ∧
      reverted.LogsBack (LedgerIsReplay ctx genesis) [] := by
  obtain ⟨settings, ⟨blocks, run, clear⟩, pool, new, valid, distinct, logs⟩ := stored
  obtain ⟨sound, fits, _⟩ := run.based premises fun b hb => (clear b hb).1
  rw [← settings.config] at all
  have hempty (st : SignedTransaction) : holds (∅ : TransactionCache) st = false := by
    rw [holds_eq_false_iff, Std.ExtTreeMap.getElem?_empty]
  obtain ⟨cache, hcache⟩ := loadPool_total premises.hash all distinct valid fun st _ => hempty st
  have hload : node.loadTransactionCache true = .ok { node with transactionCache := cache } := by
    unfold loadTransactionCache chainCache
    rw [if_pos rfl, pure_bind, hcache]
    rfl
  have keeps : Keeps node.transactionPool cache := keeps_loadPool premises.hash keeps_empty hcache
  have on : PoolOn base ({ node with transactionCache := cache } : NodeInternals) :=
    ⟨pool, new, valid, keeps⟩
  have hlogs : ({ node with transactionCache := cache } : NodeInternals).LogsBack
      (LedgerIsReplay ctx genesis) node.transactionPool := logs
  obtain ⟨unexpired, reverted, hrevert, hledger⟩ :=
    on.revertPool_total premises.empty (settings.own ▸ sound) fits hlogs now
  obtain ⟨hsame, hnone, _, _⟩ := revertPool_spec hrevert
  refine ⟨_, unexpired, reverted, hload, hrevert, hsame, hnone, hledger, ?_⟩
  rcases hlogs with hoff | hlogs
  · exact .inl ((staysDisabled_revertPool hrevert).enabled.trans hoff)
  · exact .inr (hlogs.revertPool keeps hrevert).1

/-- The log of a node without a pool takes its last block back. -/
theorem LogsBack.revertBlock {visited : NodeInternals → Prop} (logs : node.LogsBack visited [])
    (long : node.blockchain.length ≠ 1) :
    ∃ actionLog, node.actionLog.revert = .ok actionLog ∧
      ∀ (chain : Blockchain) (next : NodeInternals),
        chain.blocks = node.blockchain.blocks.dropLast → next.ctx = node.ctx.withChain chain →
        next.actionLog = actionLog → next.LogsBack visited [] := by
  rcases logs with hoff | hlogs
  · refine ⟨node.actionLog, ?_, fun _ next _ _ hlog => .inl (hlog ▸ hoff)⟩
    unfold ActionLog.revert
    rw [if_pos hoff]
    rfl
  · obtain ⟨packets, hblocks, henabled, stood, stands, hstood⟩ := hlogs
    obtain ⟨packet, below, rfl, hbelow⟩ := hblocks.dropLast long
    have hpackets : stood.map LoggedTransaction.action = packet :: below.reverse := by
      rw [hstood, List.reverse_append]
      rfl
    obtain ⟨top, rest, rfl, _, hrest⟩ := List.map_eq_cons_iff.mp hpackets
    obtain ⟨reverted, hrevert, hstands, hafter⟩ := stands.revert henabled
    refine ⟨reverted, hrevert, fun chain next hchain hctx hlog => .inr ⟨below, ?_, ?_⟩⟩
    · rw [hctx, ChainLogs]
      change BlockLogs _ chain.blocks below
      rw [hchain]
      exact hbelow
    · rw [hlog]
      exact ⟨hafter, rest, hstands, hrest⟩

/-- The last block of a stored node is taken back, down to the genesis block. -/
theorem Stored.revertLastBlock (premises : Premises ctx genesis)
    (all : ctx.config.transferOnly = false) (stored : Stored ctx genesis base node) (now : ℤ)
    (long : node.blockchain.length ≠ 1) :
    ∃ after, node.revertLastBlock now = .ok after ∧
      after.blockchain.blocks = node.blockchain.blocks.dropLast ∧ after.transactionPool = [] ∧
      ∃ base', Stored ctx genesis base' after := by
  obtain ⟨loaded, unexpired, reverted, hload, hrevert, hsame, hnone, hledger, hlogs⟩ :=
    stored.revertPool premises all now
  obtain ⟨settings, ⟨blocks, run, clear⟩, _⟩ := stored
  have hchain := hsame.blockchain
  cases blocks with
  | nil =>
      rw [Blockchain.length, run.replay.1] at long
      exact absurd rfl long
  | cons b rest =>
      obtain ⟨hrest, hback⟩ := run.disconnectLast premises.empty premises.keyed premises.hashed
        premises.held premises.fits fun c hc => (clear c hc).1
      obtain ⟨removed, hremove, hback⟩ := bind_ok_iff.mp hback
      obtain ⟨miner, hminer, hback⟩ := bind_ok_iff.mp hback
      obtain ⟨l, hl, hback⟩ := bind_ok_iff.mp hback
      obtain ⟨rfl, rfl⟩ := Prod.mk.inj (pure_ok_iff.mp hback)
      -- the addresses that a node knows have no say in it
      have hctx : reverted.ctx.withChain b.chain =
          { ctx.withChain b.chain with addresses := node.ctx.addresses } := by
        rw [hsame.1, settings]
        rfl
      have hblock : Publiq.revertBlock (reverted.ctx.withChain b.chain)
          node.blockchain.lastBlock.blockDetails miner base = .ok b.start := by
        rw [hctx]
        exact hl
      obtain ⟨mid, hrewards, htransactions⟩ := bind_ok_iff.mp hblock
      obtain ⟨⟨mismatch, granted⟩, hcheck, hrewards⟩ := bind_ok_iff.mp hrewards
      obtain ⟨hmatch, hdecrease⟩ := require_bind_ok_iff.mp hrewards
      have hlong : reverted.blockchain.length ≠ 1 := hchain ▸ long
      obtain ⟨actionLog, hlog, hlogs⟩ := hlogs.revertBlock hlong
      -- its signer was permitted before it
      have hlast : node.blockchain.lastBlock = b.signedBlock := by
        cases run with
        | connect _ _ _ _ h =>
            obtain ⟨_, _, _, replayed⟩ := replayed_of_replay h
            exact Blockchain.lastBlock_insert replayed.inserts
      obtain ⟨signer, hsigner, hpermitted⟩ := (clear b List.mem_cons_self).2
      have hsigned : signer = miner := by
        have hminer : getMiner node.blockchain.lastBlock = .ok miner := hminer
        rw [hlast] at hminer
        exact Except.ok.inj (hsigner.symm.trans hminer)
      rw [hsigned, ← hlast] at hpermitted
      have hnode : node.revertLastBlock now = .ok { reverted with
          ctx := reverted.ctx.withChain b.chain, ledger := b.start, actionLog } := by
        refine bind_ok_iff.mpr ⟨loaded, hload, bind_ok_iff.mpr ⟨(unexpired, reverted), hrevert, ?_⟩⟩
        dsimp only
        rw [hchain, hledger]
        refine bind_ok_iff.mpr ⟨b.chain, hremove, bind_ok_iff.mpr ⟨actionLog, hlog,
          bind_ok_iff.mpr ⟨miner, hminer, bind_ok_iff.mpr ⟨(mismatch, granted), hcheck, ?_⟩⟩⟩⟩
        dsimp only
        refine bind_ok_iff.mpr ⟨(), require_true hmatch, bind_ok_iff.mpr ⟨mid, hdecrease,
          bind_ok_iff.mpr ⟨b.start, htransactions, bind_ok_iff.mpr ⟨true, hpermitted, ?_⟩⟩⟩⟩
        exact bind_ok_iff.mpr ⟨(), require_true rfl, rfl⟩
      refine ⟨_, hnode, (Blockchain.removeLastBlock_ok_iff.mp hremove).2, hnone, b.start, ?_⟩
      refine ⟨?_, ⟨rest, hrest, fun c hc => clear c (List.mem_cons_of_mem _ hc)⟩, ?_, ?_, ?_, ?_,
        ?_⟩
      · have hsettings := settings.sameChain hsame
        unfold KeepsSettings at hsettings ⊢
        rw [hsettings]
        rfl
      · rw [hnone]
        exact .nil b.start
      · rw [hnone]
        exact ⟨List.nodup_nil, List.forall_mem_nil _⟩
      · rw [hnone]
        exact List.forall_mem_nil _
      · rw [hnone]
        exact List.nodup_nil
      · rw [hnone]
        refine hlogs b.chain _ ?_ rfl rfl
        rw [hchain]
        exact (Blockchain.removeLastBlock_ok_iff.mp hremove).2

theorem revertLastBlock_long {now : ℤ} (h : node.revertLastBlock now = .ok after) :
    node.blockchain.length ≠ 1 := by
  obtain ⟨loaded, hload, h⟩ := bind_ok_iff.mp h
  obtain ⟨⟨unexpired, reverted⟩, hrevert, h⟩ := bind_ok_iff.mp h
  obtain ⟨chain, hremove, _⟩ := bind_ok_iff.mp h
  obtain ⟨_, _, hload⟩ := bind_ok_iff.mp hload
  obtain ⟨_, _, hload⟩ := bind_ok_iff.mp hload
  cases pure_ok_iff.mp hload
  have hsame := (revertPool_spec hrevert).1.blockchain
  have hlong := (Blockchain.removeLastBlock_ok_iff.mp hremove).1
  rw [hsame] at hlong
  exact hlong

/-- What is saved after maintenance: a part of the chain, the replay of it with what is left of the
pool on top, and the log of both. -/
structure Maintained (ctx : Context) (genesis : SignedBlock) (chain : Blockchain) (base : Ledger)
    (saved : NodeInternals) : Prop where
  kept : saved.blockchain.blocks <+: chain.blocks
  replayed : replay ctx genesis saved.blockchain.blocks.tail = .ok (saved.blockchain, base)
  pooled : PoolRun saved.ctx (saved.transactionPool.filter SignedTransaction.isComplete) base
    saved.ledger
  told : saved.actionLog.enabled = false ∨
    (Synchronization.idle saved).LogTells (LedgerIsReplay ctx genesis)

theorem Stored.maintained (stored : Stored ctx genesis base node) {chain : Blockchain}
    (kept : node.blockchain.blocks <+: chain.blocks) :
    Maintained ctx genesis chain base node := by
  obtain ⟨_, ⟨blocks, run, _⟩, pool, _, _, _, logs⟩ := stored
  refine ⟨kept, ?_, pool, logs.imp_right ?_⟩
  · obtain ⟨hblocks, hreplay⟩ := run.replay
    rw [hblocks, List.tail_cons]
    exact hreplay
  · rintro ⟨packets, hchain, holds⟩
    refine ⟨packets, hchain, ?_⟩
    have hlog := holds.unreverted_eq
    rw [List.reverse_append, List.reverse_reverse, List.reverse_reverse] at hlog
    exact hlog

end NodeInternals

namespace Maintenance
open NodeInternals

section
variable [Externals] {ctx : Context} {genesis : SignedBlock} {base : Ledger} {chain : Blockchain}
  {m : Maintenance}

theorem maintain_done (actions : m.revertActionsCount = 0) (blocks : m.revertBlocksCount = 0)
    (times : List ℤ) : maintain times m = m.saved := by
  induction times generalizing m with
  | nil => rfl
  | cons now rest ih =>
      have hturn : m.initializeNode now =
          m.node.restart >>= fun node => pure (false, { m with node }) := by
        unfold initializeNode
        rw [if_neg (not_not.mpr actions), if_neg (not_not.mpr blocks)]
      unfold maintain
      rw [hturn]
      cases m.node.restart with
      | error _ => rfl
      | ok node => exact ih actions blocks

/-- The blocks that are to be reverted are, one after the other, as long as there are any. -/
theorem maintain_stored (premises : Premises ctx genesis) (all : ctx.config.transferOnly = false)
    (times : List ℤ) (actions : m.revertActionsCount = 0)
    (stored : Stored ctx genesis base m.node) (kept : m.node.blockchain.blocks <+: chain.blocks)
    (saved : ∃ base, Maintained ctx genesis chain base m.saved) :
    (∃ base, Maintained ctx genesis chain base (maintain times m)) ∧
      (m.revertBlocksCount ≠ 0 → m.revertBlocksCount < m.node.blockchain.length →
        m.revertBlocksCount ≤ times.length →
        (maintain times m).transactionPool = [] ∧ (maintain times m).blockchain.blocks =
          m.node.blockchain.blocks.take (m.node.blockchain.length - m.revertBlocksCount)) := by
  induction times generalizing m base with
  | nil => exact ⟨saved, fun hsome _ hnone => absurd (Nat.le_zero.mp hnone) hsome⟩
  | cons now rest ih =>
      by_cases hdone : m.revertBlocksCount = 0
      · rw [maintain_done actions hdone]
        exact ⟨saved, fun hsome => absurd hdone hsome⟩
      have hturn : m.initializeNode now = m.node.revertLastBlock now >>= fun node =>
          pure (decide (m.revertBlocksCount - 1 = 0), { m with
            node, revertBlocksCount := m.revertBlocksCount - 1
            saved := if (m.revertBlocksCount - 1) % blockRevertLength = 0 then node
              else m.saved }) := by
        unfold initializeNode
        rw [if_neg (not_not.mpr actions), if_pos hdone]
      unfold maintain
      rw [hturn]
      by_cases hlong : m.node.blockchain.length = 1
      · cases hrevert : m.node.revertLastBlock now with
        | error _ => exact ⟨saved, fun _ hless => absurd hless (by omega)⟩
        | ok after => exact absurd hlong (revertLastBlock_long hrevert)
      obtain ⟨after, hrevert, hblocks, hpool, base', hstored⟩ :=
        stored.revertLastBlock premises all now hlong
      have hkept : after.blockchain.blocks <+: chain.blocks := by
        rw [hblocks]
        exact (List.dropLast_prefix _).trans kept
      have hlength : after.blockchain.length = m.node.blockchain.length - 1 := by
        rw [Blockchain.length, hblocks, List.length_dropLast, Blockchain.length]
      have htake (count : ℕ) : after.blockchain.blocks.take (after.blockchain.length - count) =
          m.node.blockchain.blocks.take (m.node.blockchain.length - (count + 1)) := by
        rw [hblocks, hlength, List.dropLast_eq_take, List.take_take]
        congr 1
        unfold Blockchain.length
        omega
      rw [hrevert, ok_bind]
      by_cases hlast : m.revertBlocksCount - 1 = 0
      · have hone : m.revertBlocksCount = 0 + 1 := by omega
        simp only [pure, Except.pure, hlast, decide_true, Nat.zero_mod, if_true]
        refine ⟨⟨base', hstored.maintained hkept⟩, fun _ _ _ => ⟨hpool, ?_⟩⟩
        rw [hone, ← htake 0, Nat.sub_zero, Blockchain.length, List.take_length]
      · simp only [pure, Except.pure, hlast, decide_false]
        have hnext := @ih base' ⟨after, if (m.revertBlocksCount - 1) % blockRevertLength = 0 then
          after else m.saved, m.revertActionsCount, m.revertBlocksCount - 1⟩ actions hstored hkept ?_
        · refine ⟨hnext.1, fun hsome hless hcalls => ?_⟩
          rw [List.length_cons] at hcalls
          obtain ⟨hnone, htaken⟩ := hnext.2 hlast (by dsimp only; omega) (by dsimp only; omega)
          refine ⟨hnone, htaken.trans ?_⟩
          rw [htake, Nat.sub_add_cancel (Nat.one_le_iff_ne_zero.mpr hsome)]
        · dsimp only
          split_ifs
          · exact ⟨base', hstored.maintained hkept⟩
          · exact saved

/-- A node that has run in any way is started to revert some blocks. Whatever is saved, with all of
them reverted or the node stopped before, is a replayed part of its chain; and with a block left
below them, and enough calls, exactly these blocks and the pool are gone. -/
theorem maintained_run {freezeBeforeBlock : ℕ} {node : NodeInternals}
    (premises : Premises ctx genesis) (all : ctx.config.transferOnly = false)
    (begins : insertGenesis ctx freezeBeforeBlock genesis = .ok node) {events : List Event}
    (orderly : Synchronization.StaysOrderly ctx genesis (Synchronization.idle node) events)
    (distinct : ((Synchronization.idle node).run events).node.transactionPool.Nodup)
    (permitted : ∀ blocks base,
      BlockRun ctx genesis blocks ((Synchronization.idle node).run events).chain base →
        ∀ b ∈ blocks, b.Permitted) (revertBlocksCount : ℕ) (times : List ℤ) :
    let stopped := ((Synchronization.idle node).run events).node
    let saved := maintain times (start stopped 0 revertBlocksCount)
    (∃ base, Maintained ctx genesis stopped.blockchain base saved) ∧
      (revertBlocksCount ≠ 0 → revertBlocksCount < stopped.blockchain.length →
        revertBlocksCount ≤ times.length → saved.transactionPool = [] ∧ saved.blockchain.blocks =
          stopped.blockchain.blocks.take (stopped.blockchain.length - revertBlocksCount)) := by
  obtain ⟨⟨_, ⟨base, replays⟩, logs⟩, hend⟩ :=
    Synchronization.holdsReplay_run premises begins
      (Synchronization.visits_replayed premises begins orderly) orderly
  obtain ⟨settings, ⟨blocks, run⟩, pool⟩ := replays
  have hlogs : ((Synchronization.idle node).run events).node.LogsBack
      (Synchronization.LedgerIsReplay ctx genesis)
      ((Synchronization.idle node).run events).node.transactionPool :=
    logs.imp_right fun tells => tells.logged.logs
  have hblocks : ∀ b ∈ blocks, b.Clear ctx ∧ b.Permitted := fun b hb =>
    ⟨hend.clear blocks base run b hb, permitted blocks base run b hb⟩
  have stored : Stored ctx genesis base ((Synchronization.idle node).run events).node :=
    ⟨settings, ⟨blocks, run, hblocks⟩, pool.run, pool.new, pool.valid, distinct, hlogs⟩
  have opened : Stored ctx genesis base
      (start ((Synchronization.idle node).run events).node 0 revertBlocksCount).node := by
    refine ⟨settings, ⟨blocks, run, hblocks⟩, pool.run, pool.new, pool.valid, distinct, ?_⟩
    rcases hlogs with hoff | ⟨packets, hchain, holds⟩
    · exact .inl hoff
    · exact .inr ⟨packets, hchain, holds.loaded⟩
  exact @maintain_stored _ ctx genesis base _
    (start ((Synchronization.idle node).run events).node 0 revertBlocksCount) premises all times rfl
    opened (List.prefix_refl _) ⟨base, stored.maintained (List.prefix_refl _)⟩

end

section Examples
open Synchronization

noncomputable local instance maintenanceExternals : Externals := sharedExternals

noncomputable def sharedStart : Checked Ledger := do
  let chain ← Blockchain.start sharedGenesis
  increaseRewards (loggingNode.withChain chain) sharedGenesis.blockDetails.rewards default

theorem shared_permitted {blocks : List AppliedBlock} {chain : Blockchain} {base : Ledger}
    (run : BlockRun loggingNode sharedGenesis blocks chain base)
    (h : chain.blocks = [sharedGenesis, sharedBlock]) : ∀ b ∈ blocks, b.Permitted := by
  obtain ⟨first, l, rfl, hchain, hl⟩ := shared_blocks run h
  have hminer : getMiner sharedBlock = .ok "own" := by decide
  refine List.forall_mem_singleton.mpr ⟨"own", hminer, ?_⟩
  have hstart : sharedStart = .ok l := bind_ok_iff.mpr ⟨first, hchain, hl⟩
  have hall : sharedStart.toOption.all (fun l =>
      l.authorityManager.checkAuthority "own" "own" Block.rtt = .ok true) = true := by
    decide +kernel
  rw [hstart] at hall
  exact of_decide_eq_true hall

theorem minerStopped_blocks : ((idle minerStart).run minerEvents).chain.blocks =
    [sharedGenesis, sharedBlock] := by
  decide +kernel

/-- The miner is started to revert its block, and then comes to its genesis block. -/
theorem miner_maintained :
    let stopped := ((idle minerStart).run minerEvents).node
    let saved := maintain [100700] (start stopped 0 1)
    (∃ base, Maintained loggingNode sharedGenesis stopped.blockchain base saved) ∧
      (1 ≠ 0 → 1 < stopped.blockchain.length → 1 ≤ [(100700 : ℤ)].length →
        saved.transactionPool = [] ∧ saved.blockchain.blocks =
          stopped.blockchain.blocks.take (stopped.blockchain.length - 1)) :=
  maintained_run (shared_premises (by decide) rfl) rfl minerStart_eq minerEvents_orderly
    (by decide +kernel) (fun _ _ run => shared_permitted run minerStopped_blocks) 1 [100700]

end Examples

end Maintenance
end Publiq
