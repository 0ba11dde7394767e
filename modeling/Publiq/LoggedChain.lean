import Publiq.LogSteps
import Publiq.PoolEntries

/-! What stands in the action log of a node: the logs of its blocks, and above them those of
the complete transactions of its pool. -/
namespace Publiq
open Message Checked

namespace ActionLog

/-- What is not reverted after some entries, the latest first. A revert takes away the latest
entry before it that is not reverted yet. -/
def unrevertedFrom : List LoggedTransaction → List LoggedTransaction → List LoggedTransaction
  | stood, [] => stood
  | stood, info :: rest =>
      if info.reverted then unrevertedFrom stood.tail rest else unrevertedFrom (info :: stood) rest

def unreverted (log : ActionLog) : List LogPacket :=
  (unrevertedFrom [] log.actions).reverse.map LoggedTransaction.action

theorem unrevertedFrom_of_standing {i : ℕ} {stood actions after : List LoggedTransaction}
    (h : standing i stood actions = some after) : unrevertedFrom stood actions = after := by
  induction actions generalizing i stood with
  | nil =>
      cases h
      rfl
  | cons info rest ih =>
      unfold unrevertedFrom
      rcases standing_cons h with ⟨happly, _, hrest⟩ | ⟨top, below, rfl, rfl, hrest⟩
      · rw [if_neg (by simp [happly])]
        exact ih hrest
      · rw [if_pos rfl]
        exact ih hrest

def Holds (log : ActionLog) (packets : List LogPacket) : Prop :=
  log.enabled = true ∧ ∃ stood, Stands log stood ∧ stood.map LoggedTransaction.action = packets

theorem Holds.unreverted_eq {log : ActionLog} {packets : List LogPacket}
    (holds : log.Holds packets) : log.unreverted = packets.reverse := by
  obtain ⟨_, stood, stands, rfl⟩ := holds
  rw [unreverted, unrevertedFrom_of_standing stands.standing_eq, List.map_reverse]

theorem Holds.insert {log : ActionLog} {packets : List LogPacket} (holds : log.Holds packets)
    (packet : LogPacket) : (log.insert packet).Holds (packet :: packets) := by
  obtain ⟨henabled, stood, stands, rfl⟩ := holds
  exact ⟨henabled, _, stands.insert packet, rfl⟩

theorem Holds.revert {log after : ActionLog} {packet : LogPacket} {packets : List LogPacket}
    (holds : log.Holds (packet :: packets)) (h : log.revert = .ok after) :
    after.Holds packets := by
  obtain ⟨henabled, stood, stands, hpackets⟩ := holds
  obtain ⟨top, below, rfl, _, rfl⟩ := List.map_eq_cons_iff.mp hpackets
  obtain ⟨reverted, hrevert, hstands, hafter⟩ := stands.revert henabled
  rw [h] at hrevert
  cases hrevert
  exact ⟨hafter, below, hstands, rfl⟩

theorem Holds.loaded {log : ActionLog} {packets : List LogPacket} (holds : log.Holds packets) :
    (loaded log.actions log.enabled).Holds packets := by
  obtain ⟨henabled, stood, stands, rfl⟩ := holds
  exact ⟨henabled, stood, stands_loaded stands.standing_eq, rfl⟩

variable [Externals]

theorem Holds.logTransaction {log : ActionLog} {packets : List LogPacket}
    (holds : log.Holds packets) (st : SignedTransaction) :
    (log.logTransaction st).Holds (.transaction (transactionLogOf st) :: packets) := by
  unfold ActionLog.logTransaction
  rw [if_neg (by simp [holds.1])]
  exact holds.insert _

/-- What `log_block` writes for a block with some views and payments. -/
def LogsAs (signedBlock : SignedBlock) (views : UnitViews) (payments : List SponsorPayment)
    (packet : LogPacket) : Prop :=
  ∀ log : ActionLog, log.enabled = true →
    log.logBlock signedBlock views payments = .ok (log.insert packet)

theorem logsAs_of_logBlock {signedBlock : SignedBlock} {views : UnitViews}
    {payments : List SponsorPayment} {log after : ActionLog} (henabled : log.enabled = true)
    (h : log.logBlock signedBlock views payments = .ok after) :
    ∃ packet, LogsAs signedBlock views payments packet ∧ after = log.insert packet := by
  unfold logBlock at h
  rw [if_neg (by simp [henabled])] at h
  obtain ⟨authority, hauthority, h⟩ := bind_ok_iff.mp h
  refine ⟨_, fun other hother => ?_, (pure_ok_iff.mp h).symm⟩
  unfold logBlock
  rw [if_neg (by simp [hother]), hauthority, ok_bind]
  rfl

end ActionLog

section
variable [Externals]
open ActionLog

namespace NodeInternals

/-- A node on its way through `replace_blocks`: without its pool it goes down to the block that it
has in common, and up again. -/
inductive Replacing (node : NodeInternals) : NodeInternals → Prop
  | down {now : ℤ} {common count : ℕ} {pool : List SignedTransaction}
      {reverted lowered : NodeInternals} (pools : node.revertPool now = .ok (pool, reverted))
      (lowers : disconnectTo common count reverted = .ok lowered) : Replacing node lowered
  | up {below above : NodeInternals} {signedBlock : SignedBlock} (replacing : Replacing node below)
      (connects : below.connectBlock signedBlock = .ok above) : Replacing node above

/-- What a node grants for a block above some blocks, on the ledger that it has come to: it puts
the block in the place of others, or mines it. -/
inductive Grants (node : NodeInternals) (blocks : List SignedBlock) : SignedBlock → Granted → Prop
  | connects {below : NodeInternals} {mid : NodeInternals × ℤ} {signedBlock : SignedBlock}
      {miner : String} {granted : Granted} (replacing : Replacing node below)
      (chain : below.blockchain.blocks = blocks) (signed : getMiner signedBlock = .ok miner)
      (applies : runAll (connectTransaction miner) signedBlock.blockDetails.signedTransactions
        (below, 0) = .ok mid)
      (grants : grantRewards mid.1.ctx signedBlock.blockDetails miner .apply mid.1.ledger =
        .ok granted)
      (states : granted.rewards = signedBlock.blockDetails.rewards) :
      Grants node blocks signedBlock granted
  | mines {after : NodeInternals} (mining : Mining node after)
      (chain : node.blockchain.blocks = blocks) :
      Grants node blocks mining.signedBlock mining.granted

end NodeInternals

/-- The packets of the blocks of a chain: each block as `log_block` writes it with the views
and payments that a node in one of the visited states granted on the blocks below. -/
inductive BlockLogs (visited : NodeInternals → Prop) : List SignedBlock → List LogPacket → Prop
  | genesis {genesis : SignedBlock} {packet : LogPacket} (logs : LogsAs genesis ∅ [] packet) :
      BlockLogs visited [genesis] [packet]
  | append {blocks : List SignedBlock} {packets : List LogPacket} {node : NodeInternals}
      {signedBlock : SignedBlock} {granted : Granted} {packet : LogPacket}
      (below : BlockLogs visited blocks packets) (visits : visited node)
      (grants : node.Grants blocks signedBlock granted)
      (logs : LogsAs signedBlock granted.unitUriViewCounts granted.appliedSponsorItems packet) :
      BlockLogs visited (blocks ++ [signedBlock]) (packets ++ [packet])

section
variable {visited : NodeInternals → Prop}

theorem BlockLogs.dropLast {blocks : List SignedBlock} {packets : List LogPacket}
    (logs : BlockLogs visited blocks packets) (long : blocks.length ≠ 1) :
    ∃ packet below, packets = below ++ [packet] ∧ BlockLogs visited blocks.dropLast below := by
  cases logs with
  | genesis => exact absurd rfl long
  | append below =>
      refine ⟨_, _, rfl, ?_⟩
      rwa [List.dropLast_concat]

theorem BlockLogs.length_eq {blocks : List SignedBlock} {packets : List LogPacket}
    (logs : BlockLogs visited blocks packets) : packets.length = blocks.length := by
  induction logs with
  | genesis => rfl
  | append below _ _ _ ih => rw [List.length_append, List.length_append, ih]; rfl

end

def ChainLogs (visited : NodeInternals → Prop) (ctx : Context) (packets : List LogPacket) : Prop :=
  BlockLogs visited ctx.blockchain.blocks packets

def poolLogs (pool : List SignedTransaction) : List LogPacket :=
  (pool.filter SignedTransaction.isComplete).map fun st => .transaction (transactionLogOf st)

theorem poolLogs_concat (pool : List SignedTransaction) (st : SignedTransaction) :
    poolLogs (pool ++ [st]) =
      if st.isComplete then poolLogs pool ++ [.transaction (transactionLogOf st)]
      else poolLogs pool := by
  unfold poolLogs
  rw [List.filter_append, List.map_append]
  cases hcomplete : st.isComplete <;> simp [hcomplete]

end

namespace NodeInternals
variable [Externals] {visited : NodeInternals → Prop}
open ActionLog TransactionCache

def LogsPool (visited : NodeInternals → Prop) (node : NodeInternals)
    (pool : List SignedTransaction) : Prop :=
  ∃ packets, ChainLogs visited node.ctx packets ∧
    node.actionLog.Holds ((poolLogs pool).reverse ++ packets.reverse)

theorem LogsPool.congr {node after : NodeInternals} {pool : List SignedTransaction}
    (logs : node.LogsPool visited pool) (same : SameChain node after)
    (hlog : after.actionLog = node.actionLog) : after.LogsPool visited pool := by
  obtain ⟨packets, hblocks, holds⟩ := logs
  exact ⟨packets, same.1 ▸ hblocks, hlog ▸ holds⟩

theorem LogsPool.push {node after : NodeInternals} {pool : List SignedTransaction}
    (logs : node.LogsPool visited pool) {st : SignedTransaction} (same : SameChain node after)
    (hlog : after.actionLog =
      if st.isComplete then node.actionLog.logTransaction st else node.actionLog) :
    after.LogsPool visited (pool ++ [st]) := by
  obtain ⟨packets, hblocks, holds⟩ := logs
  refine ⟨packets, same.1 ▸ hblocks, ?_⟩
  rw [hlog, poolLogs_concat]
  split_ifs
  · rw [List.reverse_append, List.append_assoc]
    exact holds.logTransaction st
  · exact holds

theorem LogsPool.pop {node after : NodeInternals} {pool : List SignedTransaction}
    {st : SignedTransaction} (logs : node.LogsPool visited (pool ++ [st]))
    (same : SameChain node after)
    (hlog : if st.isComplete then node.actionLog.revert = .ok after.actionLog
      else after.actionLog = node.actionLog) : after.LogsPool visited pool := by
  obtain ⟨packets, hblocks, holds⟩ := logs
  refine ⟨packets, same.1 ▸ hblocks, ?_⟩
  rw [poolLogs_concat] at holds
  split_ifs at hlog holds
  · rw [List.reverse_append, List.append_assoc] at holds
    exact holds.revert hlog
  · exact hlog ▸ holds

theorem LogsPool.revertAll {pool : List SignedTransaction} {node after : NodeInternals}
    (logs : node.LogsPool visited pool) (keeps : Keeps pool node.transactionCache)
    (h : runAll revertPooled pool.reverse node = .ok after) :
    after.LogsPool visited [] ∧ Keeps [] after.transactionCache := by
  induction pool using List.reverseRecOn generalizing node with
  | nil =>
      cases h
      exact ⟨logs, keeps⟩
  | append_singleton rest st ih =>
      rw [List.reverse_append] at h
      obtain ⟨mid, first, h⟩ := runAll_cons_ok_iff.mp h
      obtain ⟨hsame, _, hcache, _⟩ := revertPooled_spec first
      have hlog := revertPooled_log first
      rw [keeps.entry st (List.mem_append_right _ (List.mem_singleton.mpr rfl))] at hlog
      exact ih (logs.pop hsame hlog) (hcache ▸ keeps.pop) h

theorem LogsPool.revertPool {expiryTime : ℤ} {unexpired : List SignedTransaction}
    {node after : NodeInternals} (logs : node.LogsPool visited node.transactionPool)
    (keeps : Keeps node.transactionPool node.transactionCache)
    (h : node.revertPool expiryTime = .ok (unexpired, after)) :
    after.LogsPool visited [] ∧ Keeps [] after.transactionCache := by
  obtain ⟨mid, run, h⟩ := bind_ok_iff.mp h
  cases pure_ok_iff.mp h
  have start : ({ node with transactionPool := [] } : NodeInternals).LogsPool visited
      node.transactionPool := logs
  obtain ⟨hlogs, hkeeps⟩ := start.revertAll keeps run
  exact ⟨hlogs, hkeeps⟩

theorem LogsPool.disconnectBlock {node after : NodeInternals} (logs : node.LogsPool visited [])
    (keeps : Keeps [] node.transactionCache) (h : node.disconnectBlock = .ok after) :
    after.LogsPool visited [] ∧ Keeps [] after.transactionCache := by
  obtain ⟨_, chain, _, hremove, hctx, _, _, hcache, _⟩ := disconnectBlock_spec h
  have hlog := disconnectBlock_log h
  obtain ⟨packets, hblocks, holds⟩ := logs
  obtain ⟨hlong, hchain⟩ := Blockchain.removeLastBlock_ok_iff.mp hremove
  obtain ⟨packet, below, rfl, hbelow⟩ := hblocks.dropLast hlong
  refine ⟨⟨below, ?_, ?_⟩, hcache ▸ keeps.cacheWithout node.blockchain⟩
  · rw [hctx, ChainLogs]
    change BlockLogs visited chain.blocks below
    rw [hchain]
    exact hbelow
  · rw [List.reverse_append] at holds
    exact holds.revert hlog

theorem LogsPool.disconnectTo {common count : ℕ} {node after : NodeInternals}
    (logs : node.LogsPool visited []) (keeps : Keeps [] node.transactionCache)
    (h : disconnectTo common count node = .ok after) :
    after.LogsPool visited [] ∧ Keeps [] after.transactionCache := by
  induction count generalizing node with
  | zero =>
      cases h
      exact ⟨logs, keeps⟩
  | succ count ih =>
      simp only [NodeInternals.disconnectTo] at h
      split_ifs at h
      · obtain ⟨mid, first, h⟩ := bind_ok_iff.mp h
        obtain ⟨hlogs, hkeeps⟩ := logs.disconnectBlock keeps first
        exact ih hlogs hkeeps h
      · cases pure_ok_iff.mp h
        exact ⟨logs, keeps⟩

theorem LogsPool.append {start node after : NodeInternals} {signedBlock : SignedBlock}
    {granted : Granted} {chain : Blockchain} (logs : node.LogsPool visited [])
    (visits : visited start)
    (grants : start.Grants node.blockchain.blocks signedBlock granted)
    (hinsert : node.blockchain.insert signedBlock = .ok chain)
    (hctx : after.ctx = node.ctx.withChain chain)
    (hlog : node.actionLog.logBlock signedBlock granted.unitUriViewCounts
      granted.appliedSponsorItems = .ok after.actionLog) : after.LogsPool visited [] := by
  obtain ⟨packets, hblocks, holds⟩ := logs
  obtain ⟨packet, hpacket, hafter⟩ := logsAs_of_logBlock holds.1 hlog
  refine ⟨packets ++ [packet], ?_, ?_⟩
  · rw [hctx, ChainLogs]
    change BlockLogs visited chain.blocks _
    rw [(Blockchain.insert_ok_iff.mp hinsert).2]
    exact .append hblocks visits grants hpacket
  · rw [hafter, List.reverse_append]
    exact holds.insert packet

theorem LogsPool.connectBlock {signedBlock : SignedBlock} {start node after : NodeInternals}
    (logs : node.LogsPool visited []) (keeps : Keeps [] node.transactionCache)
    (visits : visited start) (replacing : Replacing start node)
    (h : node.connectBlock signedBlock = .ok after) :
    after.LogsPool visited [] ∧ Keeps [] after.transactionCache := by
  obtain ⟨_, chain, _, _, hinsert, hctx, _, _, hadd, _⟩ := connectBlock_spec h
  obtain ⟨miner, mid, granted, hminer, happly, hgrant, hstates, hlog⟩ := connectBlock_log h
  have grants : start.Grants node.blockchain.blocks signedBlock granted :=
    .connects replacing rfl hminer happly hgrant hstates
  exact ⟨logs.append visits grants hinsert hctx hlog, keeps.addMined hadd⟩

/-- The log and the cache agree on the chain and the pool of the node. -/
structure Logged (visited : NodeInternals → Prop) (node : NodeInternals) : Prop where
  logs : node.LogsPool visited node.transactionPool
  keeps : Keeps node.transactionPool node.transactionCache

theorem Logged.discard {node : NodeInternals} (logged : node.Logged visited) :
    node.discard.Logged visited := by
  obtain ⟨packets, hblocks, holds⟩ := logged.logs
  exact ⟨⟨packets, hblocks, holds.loaded⟩, logged.keeps⟩

theorem Logged.pushPool {node before : NodeInternals} (logged : before.Logged visited)
    {st : SignedTransaction} (same : SameChain before node)
    (hpool : node.transactionPool = before.transactionPool)
    (hlog : node.actionLog =
      if st.isComplete then before.actionLog.logTransaction st else before.actionLog)
    (keeps : Keeps (before.transactionPool ++ [st])
      (addPool st st.isComplete node.transactionCache)) :
    (node.pushPool st st.isComplete).Logged visited := by
  have logs := logged.logs.push same hlog
  refine ⟨?_, ?_⟩
  · change (node.pushPool st st.isComplete).LogsPool visited (node.transactionPool ++ [st])
    rw [hpool]
    exact logs
  · change Keeps (node.transactionPool ++ [st]) _
    rw [hpool]
    exact keeps

/-- A transaction that the cache does not know yet is applied to the pool again. -/
theorem Logged.repool (hash : Externals.Collisionless) {node after : NodeInternals}
    (logged : node.Logged visited) {st : SignedTransaction}
    (new : holds node.transactionCache st = false)
    (h : node.repool st.isComplete st = .ok after) : after.Logged visited := by
  have keeps := logged.keeps.pushNew hash new
  rcases repool_cases h with ⟨mid, happly, rfl⟩ | ⟨hcomplete, mid, happly, rfl⟩ |
    ⟨hcomplete, _, rfl⟩
  · obtain ⟨_, ⟨hsame, hpool, hcache⟩, hlog⟩ := applyTransaction_spec happly
    refine ⟨?_, ?_⟩
    · rw [hpool]
      exact logged.logs.congr hsame hlog
    · rw [hpool, hcache]
      exact logged.keeps
  · obtain ⟨_, ⟨hsame, hpool, hcache⟩, hlog⟩ := applyTransaction_spec happly
    refine logged.pushPool hsame hpool ?_ ?_
    · rw [if_pos hcomplete, ← hlog]
    · change Keeps _ (addPool st st.isComplete mid.transactionCache)
      rw [hcache]
      exact keeps
  · refine logged.pushPool (SameChain.refl node) rfl ?_ keeps
    rw [if_neg (by simp [hcomplete])]

end NodeInternals
end Publiq
