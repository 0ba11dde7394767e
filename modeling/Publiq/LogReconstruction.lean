import Publiq.ForkChoice
import Publiq.LoggedMining

/-! The action log over whole runs: what is not reverted in it are the blocks of the chain in
order, then the complete transactions of the pool, as long as no cleanup of the cache forgets
one of those. -/
namespace Publiq
open Message Checked

section
variable [Externals]

theorem length_of_validateAuthorship {what : String} {st : SignedTransaction}
    {authors : List String} {u : PUnit} (h : validateAuthorship what st authors true = .ok u) :
    st.authorizations.length = authors.length := by
  obtain ⟨_, h⟩ := require_bind_ok_iff.mp h
  simp only [if_true] at h
  obtain ⟨hmost, h⟩ := require_bind_ok_iff.mp h
  obtain ⟨hleast, _⟩ := require_bind_ok_iff.mp h
  exact le_antisymm hmost hleast

theorem complete_of_actionValidate {config : Config} {st : SignedTransaction}
    (h : actionValidate config st true = .ok ()) : st.isComplete = true := by
  obtain ⟨_, _, h⟩ := bind_ok_iff.mp h
  unfold SignedTransaction.isComplete
  cases haction : st.transactionDetails.action with
  | file a =>
      rw [haction] at h
      obtain ⟨_, h, _⟩ := bind_ok_iff.mp h
      exact decide_eq_true (length_of_validateAuthorship h)
  | contentUnit a =>
      rw [haction] at h
      obtain ⟨_, h, _⟩ := bind_ok_iff.mp h
      exact decide_eq_true (length_of_validateAuthorship h)
  | _ => rfl

/-- Nobody has to permit an incomplete transaction, so what applies could be applied. -/
theorem canApply_of_incomplete {ctx : Context} {st : SignedTransaction} {layer : StateLayer}
    {l after : Ledger} (hpart : st.isComplete = false)
    (h : actionApply ctx st layer l = .ok after) : actionCanApply ctx st layer l = .ok true := by
  obtain ⟨_, htransfer, h⟩ := bind_ok_iff.mp h
  obtain ⟨uri, authors, hdocument⟩ := exists_document hpart
  refine bind_ok_iff.mpr ⟨_, htransfer, ?_⟩
  unfold SignedTransaction.isComplete at hpart
  cases haction : st.transactionDetails.action with
  | file a =>
      rw [haction] at h hpart
      have hincomplete : a.actionIsComplete st = false := hpart
      obtain ⟨_, _, h⟩ := bind_ok_iff.mp h
      obtain ⟨hnew, _⟩ := require_bind_ok_iff.mp h
      refine bind_ok_iff.mpr ⟨true, ?_, ?_⟩
      · rw [hincomplete]
        rfl
      · rw [hnew]
        rfl
  | contentUnit a =>
      rw [haction] at h hpart
      have hincomplete : a.actionIsComplete st = false := hpart
      obtain ⟨_, _, h⟩ := bind_ok_iff.mp h
      split at h
      · cases h
      · rename_i hcheck
        obtain ⟨hnew, h⟩ := require_bind_ok_iff.mp h
        split at h
        · cases h
        · rename_i hfiles
          refine bind_ok_iff.mpr ⟨true, ?_, ?_⟩
          · rw [hincomplete]
            rfl
          · rw [hcheck, hnew, hfiles]
            rfl
  | _ =>
      rw [haction] at hdocument
      cases hdocument

omit [Externals] in
theorem forM_ok {α : Type} {f : α → Checked PUnit} {elements : List α}
    (h : elements.forM f = .ok ⟨⟩) : ∀ a ∈ elements, f a = .ok ⟨⟩ := by
  induction elements with
  | nil => exact fun _ hnil => nomatch hnil
  | cons first rest ih =>
      have h : (f first >>= fun _ => rest.forM f) = .ok ⟨⟩ := h
      obtain ⟨_, hfirst, h⟩ := bind_ok_iff.mp h
      intro a ha
      rcases List.mem_cons.mp ha with rfl | ha
      · exact hfirst
      · exact ih h a ha

theorem complete_of_checkReceivedBlock (empty : Externals.EmptyNoUri) {config : Config}
    {header : BlockHeaderExtended} {signedBlock : SignedBlock}
    (h : checkReceivedBlock config header signedBlock = .ok ()) :
    ∀ st ∈ signedBlock.blockDetails.signedTransactions, st.Named ∧ st.isComplete = true := by
  obtain ⟨_, h⟩ := require_bind_ok_iff.mp h
  obtain ⟨_, _, h⟩ := bind_ok_iff.mp h
  obtain ⟨_, h⟩ := require_bind_ok_iff.mp h
  obtain ⟨_, h⟩ := require_bind_ok_iff.mp h
  intro st hst
  obtain ⟨_, _, hvalid⟩ := bind_ok_iff.mp (forM_ok h st hst)
  exact ⟨named_of_actionValidate empty hvalid, complete_of_actionValidate hvalid⟩

namespace NodeInternals
open ActionLog TransactionCache

variable {visited : NodeInternals → Prop}

/-- What holds of a node all along: its log and its cache agree with its chain and its pool,
and the blocks above the genesis block hold complete transactions. -/
structure Tells (visited : NodeInternals → Prop) (node : NodeInternals) : Prop where
  logged : node.Logged visited
  named : ∀ st ∈ node.transactionPool, st.Named
  blocks : ∀ signedBlock ∈ node.blockchain.blocks.tail,
    ∀ st ∈ signedBlock.blockDetails.signedTransactions, st.Named ∧ st.isComplete = true

theorem Tells.discard {node : NodeInternals} (tells : node.Tells visited) :
    node.discard.Tells visited :=
  ⟨tells.logged.discard, tells.named, tells.blocks⟩

/-- A transaction that arrives joins the pool, and is logged if it is complete. -/
theorem Tells.receive (hash : Externals.Collisionless) (empty : Externals.EmptyNoUri) {now : ℤ}
    {st : SignedTransaction} {node after : NodeInternals} (tells : node.Tells visited)
    (h : node.receive now st = .ok after) : after.Tells visited := by
  have hchain := receive_sameChain h
  rcases receive_cases h with rfl | ⟨complete, _, hcomplete, hvalid, hnew, h⟩
  · exact tells
  obtain rfl := isComplete_of_actionIsComplete hcomplete
  have keeps := tells.logged.keeps.pushNew hash hnew
  have hlogged : after.Logged visited ∧ after.transactionPool = node.transactionPool ++ [st] := by
    rcases h with ⟨htried, l, happly, _, rfl⟩ | ⟨hpart, _, rfl⟩
    · have hwhole : st.isComplete = true := by
        rcases htried with hwhole | hcannot
        · exact hwhole
        · by_contra hpart
          rw [canApply_of_incomplete (Bool.eq_false_of_not_eq_true hpart) happly] at hcannot
          cases hcannot
      refine ⟨tells.logged.pushPool ⟨rfl, rfl⟩ rfl ?_ keeps, rfl⟩
      rw [if_pos hwhole]
    · refine ⟨tells.logged.pushPool (SameChain.refl node) rfl ?_ keeps, rfl⟩
      rw [if_neg (by simp [hpart])]
  refine ⟨hlogged.1, fun other hother => ?_, ?_⟩
  · rw [hlogged.2] at hother
    rcases List.mem_append.mp hother with hother | hother
    · exact tells.named other hother
    · exact List.mem_singleton.mp hother ▸ named_of_actionValidate empty hvalid
  · rw [hchain.blockchain]
    exact tells.blocks

theorem mem_repool {complete : Bool} {st : SignedTransaction} {node after : NodeInternals}
    (h : node.repool complete st = .ok after) :
    ∀ other ∈ after.transactionPool, other ∈ node.transactionPool ∨ other = st := by
  intro other hother
  rcases repool_cases h with ⟨mid, happly, rfl⟩ | ⟨_, mid, happly, rfl⟩ | ⟨_, _, rfl⟩
  · exact .inl ((applyTransaction_spec happly).2.1.2.1 ▸ hother)
  · rcases List.mem_append.mp hother with hother | hother
    · exact .inl ((applyTransaction_spec happly).2.1.2.1 ▸ hother)
    · exact .inr (List.mem_singleton.mp hother)
  · rcases List.mem_append.mp hother with hother | hother
    · exact .inl hother
    · exact .inr (List.mem_singleton.mp hother)

theorem Logged.repoolReceived (hash : Externals.Collisionless) {now : ℤ}
    {st : SignedTransaction × Bool} {node after : NodeInternals} (logged : node.Logged visited)
    (whole : st.2 = true → st.1.isComplete = true)
    (h : repoolReceived now st node = .ok after) : after.Logged visited := by
  rcases repoolReceived_cases h with rfl | ⟨complete, hcomplete, _, hnew, h⟩
  · exact logged
  · have hsame : complete = st.1.isComplete := by
      rcases hcomplete with ⟨hblock, rfl⟩ | ⟨_, hcomplete⟩
      · exact (whole hblock).symm
      · exact isComplete_of_actionIsComplete hcomplete
    exact logged.repool hash hnew (hsame ▸ h)

/-- Blocks that replace others are logged in their place, whatever the depth. -/
theorem Tells.replaceBlocks (hash : Externals.Collisionless) {now : ℤ} {common : ℕ}
    {syncBlocks : List SignedBlock} {clearPool : Bool} {node after : NodeInternals}
    (tells : node.Tells visited) (visits : visited node)
    (received : ∀ signedBlock ∈ syncBlocks,
      ∀ st ∈ signedBlock.blockDetails.signedTransactions, st.Named ∧ st.isComplete = true)
    (h : node.replaceBlocks now common syncBlocks clearPool = .ok after) : after.Tells visited := by
  obtain ⟨pool, reverted, lowered, raised, hpool, hlower, hraise, hrest⟩ := replaceBlocks_stages h
  obtain ⟨_, hempty, _, hunexpired⟩ := revertPool_spec hpool
  obtain ⟨hlogs, hkeeps⟩ := tells.logged.logs.revertPool tells.logged.keeps hpool
  obtain ⟨hlogs, hkeeps⟩ := hlogs.disconnectTo hkeeps hlower
  have hraised : (raised.LogsPool visited [] ∧ Keeps [] raised.transactionCache) ∧
      Replacing node raised :=
    runAll_invariant (I := fun n : NodeInternals =>
      (n.LogsPool visited [] ∧ Keeps [] n.transactionCache) ∧ Replacing node n)
      (fun _ _ _ _ hs step => ⟨hs.1.1.connectBlock hs.1.2 visits hs.2 step, hs.2.up step⟩)
      ⟨⟨hlogs, hkeeps⟩, .down hpool hlower⟩ hraise
  have hnone : raised.transactionPool = [] := by
    rw [(connectBlocks_spec hraise).2.2.2, (disconnectTo_spec (by omega) hlower).2.2.2, hempty]
  have habove : ∀ st ∈ waitingAfter common clearPool pool node.blockchain,
      st.1.Named ∧ (st.2 = true → st.1.isComplete = true) := by
    intro st hst
    rcases List.mem_append.mp hst with hst | hst
    · obtain ⟨other, hother, rfl⟩ := List.mem_map.mp hst
      obtain ⟨signedBlock, hblock, hother⟩ := List.mem_flatMap.mp hother
      rw [Nat.add_comm, ← List.drop_drop, List.drop_one] at hblock
      obtain ⟨hnamed, hwhole⟩ :=
        tells.blocks signedBlock (List.mem_of_mem_drop hblock) other hother
      exact ⟨hnamed, fun _ => hwhole⟩
    · split_ifs at hst
      · cases hst
      · obtain ⟨other, hother, rfl⟩ := List.mem_map.mp hst
        rw [hunexpired] at hother
        exact ⟨tells.named other (List.mem_of_mem_filter hother), fun h => by cases h⟩
  have hafter : after.Logged visited ∧ ∀ st ∈ after.transactionPool, st.Named := by
    have hstart : raised.Logged visited ∧ ∀ st ∈ raised.transactionPool, st.Named := by
      refine ⟨⟨?_, ?_⟩, ?_⟩
      · rw [hnone]
        exact hraised.1.1
      · rw [hnone]
        exact hraised.1.2
      · rw [hnone]
        exact fun _ hnil => nomatch hnil
    split_ifs at hrest
    · refine runAll_invariant (I := fun n : NodeInternals =>
        n.Logged visited ∧ ∀ st ∈ n.transactionPool, st.Named) ?_ hstart hrest
      intro st hst s t hs step
      obtain ⟨hnamed, hwhole⟩ := habove st hst
      refine ⟨hs.1.repoolReceived hash hwhole step, fun other hother => ?_⟩
      rcases repoolReceived_cases step with rfl | ⟨_, _, _, _, step⟩
      · exact hs.2 other hother
      · rcases mem_repool step other hother with hother | rfl
        · exact hs.2 other hother
        · exact hnamed
    · exact hrest ▸ hstart
  refine ⟨hafter.1, hafter.2, ?_⟩
  obtain ⟨first, rest, hblocks⟩ := List.exists_cons_of_ne_nil node.blockchain.nonempty
  rw [(replaceBlocks_blocks h).1, hblocks]
  intro signedBlock hblock
  rcases List.mem_append.mp hblock with hblock | hblock
  · refine tells.blocks signedBlock ?_
    rw [hblocks]
    exact List.mem_of_mem_take hblock
  · exact received signedBlock hblock

theorem Tells.mineBlock (hash : Externals.Collisionless) {node after : NodeInternals}
    (tells : node.Tells visited) (visits : visited node) (h : node.mineBlock = .ok after) :
    after.Tells visited := by
  obtain ⟨hlogged, hnamed, _, signedBlock, hblocks, hmined⟩ :=
    tells.logged.mineBlock hash visits tells.named h
  refine ⟨hlogged, hnamed, ?_⟩
  obtain ⟨first, rest, hchain⟩ := List.exists_cons_of_ne_nil node.blockchain.nonempty
  rw [hblocks, hchain]
  intro other hother
  rcases List.mem_append.mp hother with hother | hother
  · refine tells.blocks other ?_
    rw [hchain]
    exact hother
  · rw [List.mem_singleton.mp hother]
    exact hmined

theorem Tells.restart (hash : Externals.Collisionless) {node after : NodeInternals}
    (tells : node.Tells visited) (h : node.restart = .ok after) : after.Tells visited := by
  obtain ⟨hsame, hpool, _, cache, hchain, hload⟩ := restart_spec h
  have hlog : after.actionLog = node.discard.actionLog := by
    obtain ⟨_, h⟩ := require_bind_ok_iff.mp h
    obtain ⟨_, _, h⟩ := bind_ok_iff.mp h
    obtain ⟨_, _, h⟩ := bind_ok_iff.mp h
    cases pure_ok_iff.mp h
    rfl
  have keeps := keeps_loadPool hash (keeps_loadChain keeps_empty hchain) hload
  have logs : after.LogsPool visited node.transactionPool :=
    LogsPool.congr tells.discard.logged.logs hsame hlog
  refine ⟨⟨?_, ?_⟩, ?_, ?_⟩
  · rw [hpool]
    exact logs
  · rw [hpool]
    exact keeps
  · rw [hpool]
    exact tells.named
  · rw [hsame.blockchain]
    exact tells.blocks

def KeepsEntries (node : NodeInternals) : Prop :=
  ∀ st ∈ node.transactionPool, st.isComplete = true →
    holds (clean node.blockchain.lastHeader.timeSigned node.transactionCache) st = true

theorem Tells.cleanTransactionCache {node : NodeInternals} (tells : node.Tells visited)
    (entries : node.KeepsEntries) : node.cleanTransactionCache.Tells visited :=
  ⟨⟨tells.logged.logs, tells.logged.keeps.clean entries⟩, tells.named, tells.blocks⟩

theorem tells_genesis {ctx : Context} {freezeBeforeBlock : ℕ} {genesis : SignedBlock}
    {node : NodeInternals} (enabled : ctx.config.actionLog = true)
    (h : insertGenesis ctx freezeBeforeBlock genesis = .ok node) : node.Tells visited := by
  obtain ⟨chain, hstart, h⟩ := bind_ok_iff.mp h
  obtain ⟨l, _, h⟩ := bind_ok_iff.mp h
  obtain ⟨log, hlog, h⟩ := bind_ok_iff.mp h
  cases pure_ok_iff.mp h
  have holds : (loaded [] ctx.config.actionLog).Holds [] :=
    ⟨enabled, [], stands_loaded rfl, rfl⟩
  obtain ⟨packet, hpacket, rfl⟩ := logsAs_of_logBlock enabled hlog
  refine ⟨⟨⟨[packet], ?_, holds.insert packet⟩, keeps_empty⟩, fun _ hnil => (nomatch hnil), ?_⟩
  · change BlockLogs visited chain.blocks [packet]
    rw [Blockchain.start_blocks hstart]
    exact .genesis hpacket
  · change ∀ signedBlock ∈ chain.blocks.tail, _
    rw [Blockchain.start_blocks hstart]
    exact fun _ hnil => nomatch hnil

end NodeInternals

namespace Synchronization
open NodeInternals ActionLog

variable {visited : NodeInternals → Prop}

theorem blockWorker_node {now : ℤ} {peerCount : ℕ} {votes : List VoteInfo}
    {s after : Synchronization} (h : s.blockWorker now peerCount votes = .ok after) :
    after.node = s.node := by
  rcases blockWorker_cases h with ⟨_, rfl⟩ | ⟨_, _, _, rfl, _⟩
  · rfl
  · rfl

theorem tells_headerWorker (hash : Externals.Collisionless) {now : ℤ} {peers : List String}
    {votes : List VoteInfo} {s after : Synchronization} (tells : s.node.Tells visited)
    (visits : visited s.node) (h : s.headerWorker now peers votes = .ok after) :
    after.node.Tells visited := by
  obtain ⟨mid, hmid, h⟩ := headerWorker_cases h
  have hnode := blockWorker_node hmid
  rcases h with rfl | ⟨_, ⟨peer, promisedHeader, rfl⟩ | ⟨node, hmine, rfl⟩⟩
  · exact hnode ▸ tells
  · rw [(startHeaders_session mid peer promisedHeader).2, hnode]
    exact tells
  · rw [hnode] at hmine
    exact tells.mineBlock hash visits hmine

/-- The blocks of a response were checked before they reach the chain. -/
theorem tells_receiveBlocks (hash : Externals.Collisionless) (empty : Externals.EmptyNoUri)
    {now : ℤ} {response : List SignedBlock} {s after : Synchronization} (sound : s.Sound)
    (tells : s.node.Tells visited) (visits : visited s.node)
    (h : s.receiveBlocks now response = .ok after) : after.node.Tells visited := by
  unfold receiveBlocks at h
  cases hsession : s.blockSession with
  | none =>
      rw [hsession] at h
      cases pure_ok_iff.mp h
      exact tells
  | some session =>
      rw [hsession] at h
      obtain ⟨⟨outcome, node⟩, hprocess, h⟩ := bind_ok_iff.mp h
      have hnode : node.Tells visited := by
        obtain ⟨common, received, hreceive, hprocess⟩ :=
          BlockSession.processResponse_cases hprocess
        rcases hprocess with ⟨_, rfl, _⟩ | ⟨_, rfl, _⟩ | ⟨_, _, hreplace, _⟩
        · exact tells
        · exact tells
        · obtain ⟨hreceived, _⟩ := BlockSession.receive_sound hash sound.linked
            (sound.session session hsession) hreceive
          refine tells.replaceBlocks hash visits (fun signedBlock hblock => ?_) hreplace
          exact complete_of_checkReceivedBlock empty (hreceived.checked signedBlock hblock)
      cases outcome <;> cases pure_ok_iff.mp h <;> exact hnode

def keepsEntries (s : Synchronization) : Event → Prop
  | .clean => s.node.KeepsEntries
  | _ => True

theorem tells_handle (hash : Externals.Collisionless) (empty : Externals.EmptyNoUri)
    {s after : Synchronization} (sound : s.Sound) (tells : s.node.Tells visited)
    (visits : visited s.node) {event : Event} (entries : s.keepsEntries event)
    (h : s.handle event = .ok after) :
    after.node.Tells visited := by
  cases event with
  | transaction now signedTransaction =>
      obtain ⟨node, hreceive, h⟩ := bind_ok_iff.mp h
      cases pure_ok_iff.mp h
      exact tells.receive hash empty hreceive
  | work now peers votes => exact tells_headerWorker hash tells visits h
  | syncResponse peer response =>
      cases pure_ok_iff.mp h
      exact tells
  | headers now peer response => exact (receiveHeaders_session h).2 ▸ tells
  | dropHeaders peer =>
      cases pure_ok_iff.mp h
      rw [(dropHeaders_session s peer).2]
      exact tells
  | blocks now response => exact tells_receiveBlocks hash empty sound tells visits h
  | dropBlocks =>
      cases pure_ok_iff.mp h
      exact tells
  | clean =>
      cases pure_ok_iff.mp h
      exact tells.cleanTransactionCache entries
  | addresses addresses =>
      cases pure_ok_iff.mp h
      exact ⟨⟨tells.logged.logs, tells.logged.keeps⟩, tells.named, tells.blocks⟩
  | restart =>
      obtain ⟨node, hrestart, h⟩ := bind_ok_iff.mp h
      cases pure_ok_iff.mp h
      exact tells.restart hash hrestart

theorem tells_recover {s : Synchronization} (tells : s.node.Tells visited) (event : Event) :
    (s.recover event).node.Tells visited := by
  cases event with
  | work now peers votes =>
      have hnode : ((s.blockWorker now peers.length votes).toOption.getD s).node = s.node := by
        cases hwork : s.blockWorker now peers.length votes with
        | ok after => exact blockWorker_node hwork
        | error _ => rfl
      change ((s.blockWorker now peers.length votes).toOption.getD s).node.discard.Tells visited
      rw [hnode]
      exact tells.discard
  | headers now peer response =>
      change (s.dropHeaders peer).node.Tells visited
      rw [(dropHeaders_session s peer).2]
      exact tells
  | _ => exact tells.discard

theorem tells_step (hash : Externals.Collisionless) (empty : Externals.EmptyNoUri)
    {s : Synchronization} (sound : s.Sound) (tells : s.node.Tells visited) (visits : visited s.node)
    {event : Event} (entries : s.keepsEntries event) : (s.step event).node.Tells visited := by
  unfold step
  cases hhandle : s.handle event with
  | ok after => exact tells_handle hash empty sound tells visits entries hhandle
  | error _ => exact tells_recover tells event

/-- The nodes of the states that a run goes through. -/
def Visits (s : Synchronization) (events : List Event) (node : NodeInternals) : Prop :=
  ∃ earlier, earlier <+: events ∧ (s.run earlier).node = node

theorem Visits.start (s : Synchronization) (events : List Event) : s.Visits events s.node :=
  ⟨[], List.nil_prefix, rfl⟩

theorem Visits.cons {s : Synchronization} {event : Event} {rest : List Event}
    {node : NodeInternals} (later : (s.step event).Visits rest node) :
    s.Visits (event :: rest) node := by
  obtain ⟨earlier, hprefix, hnode⟩ := later
  exact ⟨event :: earlier, List.cons_prefix_cons.mpr ⟨rfl, hprefix⟩, hnode⟩

def EntriesKept : Synchronization → List Event → Prop
  | _, [] => True
  | s, event :: rest => s.keepsEntries event ∧ EntriesKept (s.step event) rest

theorem tells_run (hash : Externals.Collisionless) (empty : Externals.EmptyNoUri)
    {s : Synchronization} {events : List Event} (sound : s.Sound) (tells : s.node.Tells visited)
    (visits : ∀ node, s.Visits events node → visited node) (kept : s.EntriesKept events) :
    (s.run events).node.Tells visited := by
  induction events generalizing s with
  | nil => exact tells
  | cons event rest ih =>
      have next := tells_step hash empty sound tells (visits _ (.start s _)) kept.1
      exact ih (sound_step hash sound event) next (fun node later => visits node later.cons) kept.2

/-- The log tells the chain and the pool of a node: its un-reverted entries are the logs of
its blocks in order, then those of the complete transactions of its pool in order. -/
def LogTells (visited : NodeInternals → Prop) (s : Synchronization) : Prop :=
  ∃ packets, ChainLogs visited s.node.ctx packets ∧
    s.node.actionLog.unreverted = packets ++ poolLogs s.node.transactionPool

/-- The action log of a node that logs from its genesis block on tells its chain and its pool
in every state that it reaches. -/
theorem logTells_run (hash : Externals.Collisionless) (empty : Externals.EmptyNoUri)
    {ctx : Context} {freezeBeforeBlock : ℕ} {genesis : SignedBlock} {node : NodeInternals}
    (enabled : ctx.config.actionLog = true)
    (start : insertGenesis ctx freezeBeforeBlock genesis = .ok node) (events : List Event)
    (kept : (idle node).EntriesKept events) :
    ((idle node).run events).LogTells ((idle node).Visits events) := by
  have tells := tells_run hash empty (sound_genesis start) (tells_genesis enabled start)
    (fun _ visits => visits) kept
  obtain ⟨packets, hblocks, holds⟩ := tells.logged.logs
  refine ⟨packets, hblocks, ?_⟩
  rw [holds.unreverted_eq, List.reverse_append, List.reverse_reverse, List.reverse_reverse]

end Synchronization
end

section Examples
open NodeInternals Synchronization

def lateGenesis : SignedBlock :=
  ⟨⟨⟨0, 0, 0, 4294967296, "", 99400⟩, [⟨"b", ⟨30, 0⟩, .initial⟩, ⟨"c", ⟨5, 0⟩, .initial⟩], []⟩,
    ⟨"genesis", ""⟩⟩

def aheadBlock : SignedBlock :=
  ⟨⟨⟨1, 30, 30, 4294967296, "#", 100000⟩, [⟨"b", ⟨1000, 0⟩, .miner⟩], []⟩, ⟨"b", ""⟩⟩

def lateTransfer : SignedTransaction :=
  ⟨⟨13480, 99880, ⟨0, 0⟩, .transfer ⟨"c", "b", ⟨1, 0⟩, ""⟩⟩, [⟨"c", ""⟩]⟩

noncomputable local instance lateExternals : Externals :=
  { namedExternals ([lateGenesis, aheadBlock].map SignedBlock.blockDetails) [lateTransfer] with
    fromBase58 := fun text => .ok (if text = "" then [] else List.replicate 32 0) }

theorem lateExternals_collisionless : Externals.Collisionless :=
  ⟨nameOf_injective _, nameOf_injective _⟩

theorem lateExternals_emptyNoUri : Externals.EmptyNoUri := by
  intro bytes h
  cases h
  decide

def loggingNode : Context :=
  let node := exampleNode "own" .blockchain
  { node with config := { node.config with actionLog := true } }

theorem lateStart_isOk : (insertGenesis loggingNode 1000 lateGenesis).isOk = true := by
  decide +kernel

noncomputable def lateStart : NodeInternals := okValue _ lateStart_isOk

theorem lateStart_eq : insertGenesis loggingNode 1000 lateGenesis = .ok lateStart :=
  eq_okValue lateStart_isOk

noncomputable def lateEvents : List Event :=
  let head := aheadBlock.headerEx
  [.syncResponse "b" ⟨head, head⟩, .work 99940 ["b"] [], .headers 99940 "b" [head],
    .work 99940 ["b"] [], .blocks 99940 [aheadBlock], .transaction 99940 lateTransfer]

/-- Its log tells the node. -/
theorem lateTransfer_told :
    ((idle lateStart).run lateEvents).LogTells ((idle lateStart).Visits lateEvents) :=
  logTells_run lateExternals_collisionless lateExternals_emptyNoUri (by rfl) lateStart_eq lateEvents
    ⟨trivial, trivial, trivial, trivial, trivial, trivial, trivial⟩

noncomputable def lateCleaned : Synchronization :=
  (idle lateStart).run (lateEvents ++ [.clean, .work 100600 [] []])

theorem lateCleaned_lengths : lateCleaned.chain.blocks.length = 3 ∧
    lateCleaned.node.transactionPool = [] ∧
    lateCleaned.node.actionLog.unreverted.length = 4 := by
  decide +kernel

/-- The transfer is not taken back from the log when the pool is, and stays below the block. -/
theorem forgotten_transfer_stays :
    ¬ ∀ [Externals], Externals.Collisionless → Externals.EmptyNoUri → ∀ (ctx : Context)
      (freezeBeforeBlock : ℕ) (genesis : SignedBlock) (node : NodeInternals) (events : List Event),
      ctx.config.actionLog = true → insertGenesis ctx freezeBeforeBlock genesis = .ok node →
      ((idle node).run events).LogTells ((idle node).Visits events) := by
  intro claim
  obtain ⟨packets, hblocks, htold⟩ := claim lateExternals_collisionless lateExternals_emptyNoUri _ _
    _ _ (lateEvents ++ [.clean, .work 100600 [] []]) (by rfl) lateStart_eq
  obtain ⟨hchain, hpool, hlog⟩ := lateCleaned_lengths
  have hlength : packets.length = 3 := hblocks.length_eq.trans hchain
  have htold : lateCleaned.node.actionLog.unreverted =
      packets ++ poolLogs lateCleaned.node.transactionPool := htold
  rw [htold, hpool, List.length_append, hlength] at hlog
  exact absurd hlog (by decide)

end Examples
end Publiq
