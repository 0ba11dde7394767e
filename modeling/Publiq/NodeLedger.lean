import Publiq.Independence
import Publiq.MinedReplay

/-! The ledger of a node over whole runs. Whatever a node has received, mined, left and started
again, its ledger is the replay of its chain with the complete transactions of its pool on top, and
`revert_pool` takes these back. -/
namespace Publiq
open Message Checked TransactionCache

namespace ActionLog
variable [Externals]

theorem enabled_logTransaction (log : ActionLog) (st : SignedTransaction) :
    (log.logTransaction st).enabled = log.enabled := by
  unfold logTransaction
  split_ifs <;> rfl

theorem enabled_logBlock {signedBlock : SignedBlock} {views : UnitViews}
    {payments : List SponsorPayment} {log after : ActionLog}
    (h : log.logBlock signedBlock views payments = .ok after) : after.enabled = log.enabled := by
  rcases logBlock_cases h with ⟨_, rfl⟩ | ⟨_, packet, rfl⟩
  · rfl
  · rfl

end ActionLog

namespace NodeInternals
variable [Externals] {ctx : Context} {genesis : SignedBlock} {base : Ledger}
  {visited : NodeInternals → Prop}
  {node after : NodeInternals}
open ActionLog

theorem enabled_repool {complete : Bool} {st : SignedTransaction}
    (h : node.repool complete st = .ok after) :
    after.actionLog.enabled = node.actionLog.enabled := by
  rcases repool_log h with hlog | hlog
  · rw [hlog]
  · rw [hlog, enabled_logTransaction]

theorem enabled_receive {now : ℤ} {st : SignedTransaction} (h : node.receive now st = .ok after) :
    after.actionLog.enabled = node.actionLog.enabled := by
  rcases receive_cases h with rfl | ⟨_, _, _, _, _, ⟨_, _, _, _, rfl⟩ | ⟨_, _, rfl⟩⟩
  · rfl
  · exact enabled_logTransaction _ _
  · rfl

theorem enabled_mineBlock (h : node.mineBlock = .ok after) :
    after.actionLog.enabled = node.actionLog.enabled := by
  obtain ⟨_, _, reverted, _, mined, s, granted, appended, _, hpool, _, hmine, _, happend, hrest⟩ :=
    mineBlock_stages h
  have hmined : mined.actionLog = reverted.actionLog := mineAll_log hmine
  have happended : appended.actionLog.enabled = node.actionLog.enabled := by
    rw [enabled_logBlock (appendBlock_log happend), hmined]
    exact (staysDisabled_revertPool hpool).enabled
  refine runAll_invariant
    (I := fun n : NodeInternals => n.actionLog.enabled = node.actionLog.enabled) ?_ happended hrest
  intro st _ s t hs step
  obtain ⟨complete, _, step⟩ := bind_ok_iff.mp step
  exact (enabled_repool step).trans hs

theorem enabled_replaceBlocks {now : ℤ} {common : ℕ} {syncBlocks : List SignedBlock}
    {clearPool : Bool} (h : node.replaceBlocks now common syncBlocks clearPool = .ok after) :
    after.actionLog.enabled = node.actionLog.enabled := by
  obtain ⟨_, reverted, lowered, raised, hpool, hlower, hraise, hrest⟩ := replaceBlocks_stages h
  have hlowered := (staysDisabled_revertPool hpool).trans (staysDisabled_disconnectTo hlower)
  have hraised : raised.actionLog.enabled = node.actionLog.enabled := by
    refine runAll_invariant
      (I := fun n : NodeInternals => n.actionLog.enabled = node.actionLog.enabled) ?_
      hlowered.enabled hraise
    intro block _ s t hs step
    obtain ⟨_, _, _, _, _, _, _, hlog⟩ := connectBlock_log step
    exact (enabled_logBlock hlog).trans hs
  split_ifs at hrest
  · refine runAll_invariant
      (I := fun n : NodeInternals => n.actionLog.enabled = node.actionLog.enabled) ?_ hraised hrest
    intro st _ s t hs step
    rcases repoolReceived_cases step with rfl | ⟨_, _, _, _, step⟩
    · exact hs
    · exact (enabled_repool step).trans hs
  · exact hrest ▸ hraised

def LogsBack (visited : NodeInternals → Prop) (pool : List SignedTransaction)
    (node : NodeInternals) : Prop :=
  node.actionLog.enabled = false ∨ node.LogsPool visited pool

theorem LogsBack.revert {pool : List SignedTransaction} {st : SignedTransaction}
    (complete : st.isComplete = true) (logs : node.LogsBack visited (pool ++ [st])) :
    ∃ actionLog, node.actionLog.revert = .ok actionLog ∧
      ∀ next : NodeInternals, next.ctx = node.ctx → next.actionLog = actionLog →
        next.LogsBack visited pool := by
  rcases logs with hoff | hlogs
  · refine ⟨node.actionLog, ?_, fun next _ hlog => .inl (hlog ▸ hoff)⟩
    unfold ActionLog.revert
    rw [if_pos hoff]
    rfl
  · obtain ⟨packets, hblocks, henabled, stood, stands, hstood⟩ := hlogs
    rw [poolLogs_concat, if_pos complete, List.reverse_append, List.reverse_singleton,
      List.singleton_append, List.cons_append] at hstood
    obtain ⟨top, below, rfl, _, hbelow⟩ := List.map_eq_cons_iff.mp hstood
    obtain ⟨reverted, hrevert, hstands, hafter⟩ := stands.revert henabled
    refine ⟨reverted, hrevert, fun next hctx hlog => .inr ⟨packets, ?_, ?_⟩⟩
    · rw [hctx]
      exact hblocks
    · rw [hlog]
      exact ⟨hafter, below, hstands, hbelow⟩

theorem LogsBack.skip {pool : List SignedTransaction} {st : SignedTransaction}
    (incomplete : st.isComplete = false) (logs : node.LogsBack visited (pool ++ [st]))
    {next : NodeInternals} (ctx : next.ctx = node.ctx) (log : next.actionLog = node.actionLog) :
    next.LogsBack visited pool := by
  unfold LogsBack LogsPool at logs ⊢
  rw [poolLogs_concat, if_neg (by simp [incomplete])] at logs
  rw [ctx, log]
  exact logs

theorem revertPooled_total {pool : List SignedTransaction} {st : SignedTransaction} {l : Ledger}
    (logs : node.LogsBack visited (pool ++ [st]))
    (keeps : Keeps (pool ++ [st]) node.transactionCache)
    (h : st.isComplete = true →
      Publiq.revertTransaction node.ctx "" st node.ledger = .ok l) :
    ∃ next, node.revertPooled st = .ok next ∧ next.LogsBack visited pool := by
  have hentry := keeps.entry st (List.mem_append_right _ (List.mem_singleton.mpr rfl))
  unfold revertPooled
  simp only [hentry]
  cases hcomplete : st.isComplete with
  | true =>
      obtain ⟨actionLog, hrevert, hlogs⟩ := logs.revert hcomplete
      simp only [if_true, hrevert, ok_bind, revertTransaction, h hcomplete]
      exact ⟨_, rfl, hlogs _ rfl rfl⟩
  | false =>
      simp only [Bool.false_eq_true, if_false]
      exact ⟨_, rfl, logs.skip hcomplete rfl rfl⟩

/-- A pool that the ledger, the log and the cache agree on is taken back. -/
theorem revertAll_total {pool : List SignedTransaction} {l : Ledger}
    (logs : node.LogsBack visited pool) (keeps : Keeps pool node.transactionCache)
    (h : runAll (Publiq.revertTransaction node.ctx "")
      (pool.filter SignedTransaction.isComplete).reverse node.ledger = .ok l) :
    ∃ after, runAll revertPooled pool.reverse node = .ok after := by
  induction pool using List.reverseRecOn generalizing node with
  | nil => exact ⟨node, rfl⟩
  | append_singleton rest st ih =>
      have hback : ∃ mid, (st.isComplete = true →
          Publiq.revertTransaction node.ctx "" st node.ledger = .ok mid) ∧
          runAll (Publiq.revertTransaction node.ctx "")
            (rest.filter SignedTransaction.isComplete).reverse
            (if st.isComplete then mid else node.ledger) = .ok l := by
        rw [List.filter_append, List.reverse_append] at h
        cases hcomplete : st.isComplete with
        | true =>
            rw [List.filter_cons_of_pos hcomplete] at h
            obtain ⟨mid, first, hrest⟩ := runAll_cons_ok_iff.mp h
            exact ⟨mid, fun _ => first, hrest⟩
        | false =>
            rw [List.filter_cons_of_neg (by simp [hcomplete])] at h
            exact ⟨node.ledger, fun h => (nomatch h), h⟩
      obtain ⟨mid, first, hrest⟩ := hback
      obtain ⟨next, hnext, hlogs⟩ := revertPooled_total logs keeps first
      obtain ⟨hsame, _, hcache, hledger⟩ := revertPooled_spec hnext
      rw [keeps.entry st (List.mem_append_right _ (List.mem_singleton.mpr rfl))] at hledger
      have hmid : next.ledger = if st.isComplete then mid else node.ledger := by
        split_ifs at hledger ⊢ with hcomplete
        · exact Except.ok.inj (hledger.symm.trans (first hcomplete))
        · exact hledger
      obtain ⟨after, hafter⟩ := ih hlogs (hcache ▸ keeps.pop) (by rw [hsame.1, hmid]; exact hrest)
      refine ⟨after, ?_⟩
      rw [List.reverse_append]
      exact runAll_cons_ok_iff.mpr ⟨next, hnext, hafter⟩

/-- `revert_pool` succeeds, and leaves what the pool was put on. -/
theorem PoolOn.revertPool_total (empty : Externals.EmptyNoUri) (on : PoolOn base node)
    (sound : LedgerSound node.ctx.own .chain base) (fits : base.state.supply < Coin.limit)
    (logs : node.LogsBack visited node.transactionPool) (expiryTime : ℤ) :
    ∃ unexpired after, node.revertPool expiryTime = .ok (unexpired, after) ∧
      after.ledger = base := by
  have hstart : ({ node with transactionPool := [] } : NodeInternals).LogsBack visited
      node.transactionPool := logs
  obtain ⟨mid, hall⟩ := revertAll_total hstart on.keeps (on.takenBack empty sound fits)
  have hpool : ∃ unexpired after, node.revertPool expiryTime = .ok (unexpired, after) :=
    ⟨_, _, bind_ok_iff.mpr ⟨mid, hall, rfl⟩⟩
  obtain ⟨unexpired, after, h⟩ := hpool
  exact ⟨unexpired, after, h, (on.revertPool empty sound fits h).1⟩

/-- A transaction that arrives is put on top of the pool. -/
theorem Replays.receive (premises : Premises ctx genesis) (replays : Replays ctx genesis base node)
    (orderly : Orderly ctx genesis node) (orderly' : Orderly ctx genesis after) {now : ℤ}
    {st : SignedTransaction} (h : node.receive now st = .ok after) :
    Replays ctx genesis base after := by
  have hbased := replays.based premises orderly
  obtain ⟨settings, ⟨blocks, run⟩, pool⟩ := replays
  have hsame := receive_sameChain h
  rcases receive_cases h with rfl | ⟨complete, _, hcomplete, hvalid, hnew, h⟩
  · exact ⟨settings, ⟨blocks, run⟩, pool⟩
  obtain rfl := isComplete_of_actionIsComplete hcomplete
  refine ⟨settings.sameChain hsame, ⟨blocks, hsame.blockchain ▸ run⟩, ?_⟩
  have hpooled : after.transactionPool = node.transactionPool ++ [st] := by
    rcases h with ⟨_, _, _, _, rfl⟩ | ⟨_, _, rfl⟩
    · rfl
    · rfl
  have hunknown : ∀ key ∈ hashesIn [st], ¬ node.ledger.documents.Knows key := by
    refine pool.unknown_of_new premises.hash hnew fun key hkey hknown => ?_
    have honce := orderly'.once
    rw [hpooled, hsame.blockchain, ← List.append_assoc, hashesIn_append, hashesIn_append] at honce
    exact List.disjoint_of_nodup_append honce
      (List.mem_append_left _ ((hbased.knows key).mp hknown)) hkey
  have hkeeps := pool.keeps.pushNew premises.hash hnew
  rcases h with ⟨htried, l, happly, _, rfl⟩ | ⟨hpart, _, rfl⟩
  · have hwhole : st.isComplete = true := by
      rcases htried with hwhole | hcannot
      · exact hwhole
      · by_contra hpart
        rw [canApply_of_incomplete (Bool.eq_false_of_not_eq_true hpart) happly] at hcannot
        cases hcannot
    refine pool.concat rfl rfl ?_ hvalid hunknown hkeeps
    rw [if_pos hwhole]
    exact ⟨node.ctx.addresses, happly⟩
  · refine pool.concat rfl rfl ?_ hvalid hunknown hkeeps
    rw [if_neg (by simp [hpart])]
    rfl

/-- What only writes the log, the cache and the addresses that a node knows leaves its ledger to
be the replay that it was. -/
theorem Replays.congr (replays : Replays ctx genesis base node)
    (same : ∃ addresses, after.ctx = { node.ctx with addresses })
    (ledger : after.ledger = node.ledger) (pool : after.transactionPool = node.transactionPool)
    (keeps : Keeps node.transactionPool after.transactionCache) :
    Replays ctx genesis base after := by
  obtain ⟨settings, ⟨blocks, run⟩, on⟩ := replays
  obtain ⟨addresses, same⟩ := same
  have hchain : after.blockchain = node.blockchain := by
    rw [blockchain, same]
  refine ⟨?_, ⟨blocks, hchain ▸ run⟩, ?_, ?_, ?_, ?_⟩
  · unfold KeepsSettings
    rw [hchain, same, settings]
  · rw [same, ledger, pool]
    exact on.run.withAddresses addresses
  · rw [pool]
    exact on.new
  · rw [pool, same]
    exact on.valid
  · rw [pool]
    exact keeps

theorem Replays.restart (hash : Externals.Collisionless) (replays : Replays ctx genesis base node)
    (h : node.restart = .ok after) : Replays ctx genesis base after := by
  obtain ⟨hsame, hpool, hledger, cache, hchain, hload⟩ := restart_spec h
  refine replays.congr ⟨node.ctx.addresses, hsame.1⟩ hledger hpool ?_
  exact keeps_loadPool hash (keeps_loadChain keeps_empty hchain) hload

theorem Replays.cleanTransactionCache (replays : Replays ctx genesis base node)
    (entries : node.KeepsEntries) : Replays ctx genesis base node.cleanTransactionCache :=
  replays.congr ⟨node.ctx.addresses, rfl⟩ rfl rfl (replays.pool.keeps.clean entries)

/-- A node that has nothing but its genesis block. -/
theorem replays_genesis {freezeBeforeBlock : ℕ}
    (h : insertGenesis ctx freezeBeforeBlock genesis = .ok node) :
    Replays ctx genesis node.ledger node := by
  obtain ⟨chain, hstart, h⟩ := bind_ok_iff.mp h
  obtain ⟨l, hl, h⟩ := bind_ok_iff.mp h
  obtain ⟨log, _, h⟩ := bind_ok_iff.mp h
  cases pure_ok_iff.mp h
  exact ⟨rfl, ⟨[], .genesis hstart hl⟩, .start rfl keeps_empty⟩

theorem validated_of_checkReceivedBlock {config : Config} {header : BlockHeaderExtended}
    {signedBlock : SignedBlock} (h : checkReceivedBlock config header signedBlock = .ok ()) :
    Externals.publicKey signedBlock.authorization.address = .ok () ∧
      ∀ st ∈ signedBlock.blockDetails.signedTransactions,
        actionValidate config st true = .ok () := by
  obtain ⟨_, h⟩ := require_bind_ok_iff.mp h
  obtain ⟨_, hkey, h⟩ := bind_ok_iff.mp h
  obtain ⟨_, h⟩ := require_bind_ok_iff.mp h
  obtain ⟨_, h⟩ := require_bind_ok_iff.mp h
  refine ⟨hkey, fun st hst => ?_⟩
  obtain ⟨_, _, hvalid⟩ := bind_ok_iff.mp (forM_ok h st hst)
  exact hvalid

end NodeInternals

namespace Synchronization
open NodeInternals

section
variable [Externals] {ctx : Context} {genesis : SignedBlock} {base : Ledger}
  {visited : NodeInternals → Prop}
  {s after : Synchronization} {event : Event}

theorem received_of_receiveBlocks (hash : Externals.Collisionless) {now : ℤ}
    {response : List SignedBlock} (sound : s.Sound) (h : s.receiveBlocks now response = .ok after) :
    after.node = s.node ∨ ∃ common received clearPool,
      s.node.replaceBlocks now common received clearPool = .ok after.node ∧
      ∀ signedBlock ∈ received,
        Externals.publicKey signedBlock.authorization.address = .ok () ∧
          ∀ st ∈ signedBlock.blockDetails.signedTransactions,
            actionValidate s.node.ctx.config st true = .ok () := by
  unfold receiveBlocks at h
  cases hsession : s.blockSession with
  | none =>
      rw [hsession] at h
      cases pure_ok_iff.mp h
      exact .inl rfl
  | some session =>
      rw [hsession] at h
      obtain ⟨⟨outcome, node⟩, hprocess, h⟩ := bind_ok_iff.mp h
      have hnode : after.node = node := by
        cases outcome <;> cases pure_ok_iff.mp h <;> rfl
      obtain ⟨common, received, hreceive, hprocess⟩ := BlockSession.processResponse_cases hprocess
      rcases hprocess with ⟨_, rfl, _⟩ | ⟨_, rfl, _⟩ | ⟨_, _, hreplace, _⟩
      · exact .inl hnode
      · exact .inl hnode
      · obtain ⟨hreceived, _⟩ := BlockSession.receive_sound hash sound.linked
          (sound.session session hsession) hreceive
        refine .inr ⟨common, _, _, hnode ▸ hreplace, fun signedBlock hblock => ?_⟩
        exact validated_of_checkReceivedBlock (hreceived.checked signedBlock hblock)

theorem node_of_headerWorker {now : ℤ} {peers : List String} {votes : List VoteInfo}
    (h : s.headerWorker now peers votes = .ok after) :
    after.node = s.node ∨ s.node.mineBlock = .ok after.node := by
  obtain ⟨mid, hmid, h⟩ := headerWorker_cases h
  have hnode := blockWorker_node hmid
  rcases h with rfl | ⟨_, ⟨peer, promisedHeader, rfl⟩ | ⟨node, hmine, rfl⟩⟩
  · exact .inl hnode
  · exact .inl ((startHeaders_session mid peer promisedHeader).2.trans hnode)
  · exact .inr (hnode ▸ hmine)

/-- What any handler leaves is a node whose ledger is the replay of its chain and its pool. -/
theorem replays_handle (premises : Premises ctx genesis) (sound : s.Sound)
    (replays : Replays ctx genesis base s.node) (orderly : Orderly ctx genesis s.node)
    (orderly' : Orderly ctx genesis after.node) (entries : s.keepsEntries event)
    (h : s.handle event = .ok after) : ∃ base', Replays ctx genesis base' after.node := by
  cases event with
  | transaction now signedTransaction =>
      obtain ⟨node, hreceive, h⟩ := bind_ok_iff.mp h
      cases pure_ok_iff.mp h
      exact ⟨base, replays.receive premises orderly orderly' hreceive⟩
  | work now peers votes =>
      rcases node_of_headerWorker h with hnode | hmine
      · exact ⟨base, hnode ▸ replays⟩
      · exact replays.mineBlock premises orderly orderly' hmine
  | syncResponse peer response =>
      cases pure_ok_iff.mp h
      exact ⟨base, replays⟩
  | headers now peer response => exact ⟨base, (receiveHeaders_session h).2 ▸ replays⟩
  | dropHeaders peer =>
      cases pure_ok_iff.mp h
      rw [(dropHeaders_session s peer).2]
      exact ⟨base, replays⟩
  | blocks now response =>
      rcases received_of_receiveBlocks premises.hash sound h with
        hnode | ⟨common, received, clearPool, hreplace, hvalid⟩
      · exact ⟨base, hnode ▸ replays⟩
      · rw [replays.settings.config] at hvalid
        exact replays.replaceBlocks premises orderly orderly' hvalid hreplace
  | dropBlocks =>
      cases pure_ok_iff.mp h
      exact ⟨base, replays⟩
  | clean =>
      cases pure_ok_iff.mp h
      exact ⟨base, replays.cleanTransactionCache entries⟩
  | addresses addresses =>
      cases pure_ok_iff.mp h
      exact ⟨base, replays.congr ⟨addresses, rfl⟩ rfl rfl replays.pool.keeps⟩
  | restart =>
      obtain ⟨node, hrestart, h⟩ := bind_ok_iff.mp h
      cases pure_ok_iff.mp h
      exact ⟨base, replays.restart premises.hash hrestart⟩

/-- Nor does a handler turn the log on or off. -/
theorem enabled_handle (hash : Externals.Collisionless) (sound : s.Sound)
    (h : s.handle event = .ok after) :
    after.node.actionLog.enabled = s.node.actionLog.enabled := by
  cases event with
  | transaction now signedTransaction =>
      obtain ⟨node, hreceive, h⟩ := bind_ok_iff.mp h
      cases pure_ok_iff.mp h
      exact enabled_receive hreceive
  | work now peers votes =>
      rcases node_of_headerWorker h with hnode | hmine
      · rw [hnode]
      · exact enabled_mineBlock hmine
  | headers now peer response => rw [(receiveHeaders_session h).2]
  | dropHeaders peer =>
      cases pure_ok_iff.mp h
      rw [(dropHeaders_session s peer).2]
  | blocks now response =>
      rcases received_of_receiveBlocks hash sound h with hnode | ⟨_, _, _, hreplace, _⟩
      · rw [hnode]
      · exact enabled_replaceBlocks hreplace
  | restart =>
      obtain ⟨node, hrestart, h⟩ := bind_ok_iff.mp h
      cases pure_ok_iff.mp h
      obtain ⟨_, h⟩ := require_bind_ok_iff.mp hrestart
      obtain ⟨_, _, h⟩ := bind_ok_iff.mp h
      obtain ⟨_, _, h⟩ := bind_ok_iff.mp h
      cases pure_ok_iff.mp h
      rfl
  | _ =>
      cases pure_ok_iff.mp h
      rfl

theorem recover_node (s : Synchronization) (event : Event) :
    (s.recover event).node = s.node ∨ (s.recover event).node = s.node.discard := by
  cases event with
  | work now peers votes =>
      have hnode : ((s.blockWorker now peers.length votes).toOption.getD s).node = s.node := by
        cases hwork : s.blockWorker now peers.length votes with
        | ok after => exact blockWorker_node hwork
        | error _ => rfl
      exact .inr (congrArg NodeInternals.discard hnode)
  | headers now peer response => exact .inl (dropHeaders_session s peer).2
  | _ => exact .inr rfl

/-- What is asked of a run: the blocks and the pool of the node are in order in every state, and no
cleanup of the cache forgets a complete transaction of the pool. -/
def StaysOrderly (ctx : Context) (genesis : SignedBlock) : Synchronization → List Event → Prop
  | s, [] => Orderly ctx genesis s.node
  | s, event :: rest =>
      Orderly ctx genesis s.node ∧ s.keepsEntries event ∧
        StaysOrderly ctx genesis (s.step event) rest

theorem StaysOrderly.earlier {earlier events : List Event}
    (orderly : StaysOrderly ctx genesis s events) (h : earlier <+: events) :
    StaysOrderly ctx genesis s earlier := by
  induction earlier generalizing s events with
  | nil =>
      cases events with
      | nil => exact orderly
      | cons _ _ => exact orderly.1
  | cons event rest ih =>
      obtain ⟨later, rfl⟩ := h
      exact ⟨orderly.1, orderly.2.1, ih orderly.2.2 (List.prefix_append rest later)⟩

theorem StaysOrderly.first {events : List Event} (orderly : StaysOrderly ctx genesis s events) :
    Orderly ctx genesis s.node :=
  orderly.earlier List.nil_prefix

/-- What holds of a node in order: its ledger is the replay of its chain and its pool, and its log,
if it keeps one, tells both. -/
structure HoldsReplay (visited : NodeInternals → Prop) (ctx : Context) (genesis : SignedBlock)
    (s : Synchronization) : Prop where
  sound : s.Sound
  replays : ∃ base, Replays ctx genesis base s.node
  logs : s.node.actionLog.enabled = false ∨ s.node.Tells visited

theorem HoldsReplay.step (premises : Premises ctx genesis)
    (holds : HoldsReplay visited ctx genesis s) (visits : visited s.node)
    (orderly : Orderly ctx genesis s.node) (orderly' : Orderly ctx genesis (s.step event).node)
    (entries : s.keepsEntries event) : HoldsReplay visited ctx genesis (s.step event) := by
  obtain ⟨sound, ⟨base, replays⟩, logs⟩ := holds
  refine ⟨sound_step premises.hash sound event, ?_, ?_⟩
  · unfold Synchronization.step at orderly' ⊢
    cases hhandle : s.handle event with
    | ok after =>
        rw [hhandle] at orderly'
        exact replays_handle premises sound replays orderly orderly' entries hhandle
    | error _ =>
        refine ⟨base, ?_⟩
        rcases recover_node s event with hnode | hnode
        · exact hnode ▸ replays
        · exact hnode ▸ replays.congr ⟨s.node.ctx.addresses, rfl⟩ rfl rfl replays.pool.keeps
  · rcases logs with hoff | tells
    · left
      unfold Synchronization.step
      cases hhandle : s.handle event with
      | ok after => exact (enabled_handle premises.hash sound hhandle).trans hoff
      | error _ =>
          rcases recover_node s event with hnode | hnode
          · exact hnode ▸ hoff
          · exact hnode ▸ hoff
    · exact .inr (tells_step premises.hash premises.empty sound tells visits entries)

theorem HoldsReplay.run (premises : Premises ctx genesis) {events : List Event}
    (holds : HoldsReplay visited ctx genesis s)
    (visits : ∀ node, s.Visits events node → visited node)
    (orderly : StaysOrderly ctx genesis s events) :
    HoldsReplay visited ctx genesis (s.run events) ∧ Orderly ctx genesis (s.run events).node := by
  induction events generalizing s with
  | nil => exact ⟨holds, orderly⟩
  | cons event rest ih =>
      have next :=
        holds.step premises (visits _ (.start s _)) orderly.1 orderly.2.2.first orderly.2.1
      exact ih next (fun node later => visits node later.cons) orderly.2.2

/-- The ledger of a node is what a replay of its chain builds up, with the complete transactions of
its pool applied to it in their order, and `revert_pool` succeeds and leaves the replay. -/
structure LedgerReplayed (ctx : Context) (genesis : SignedBlock) (base : Ledger)
    (node : NodeInternals) : Prop where
  replayed : replay ctx genesis node.blockchain.blocks.tail = .ok (node.blockchain, base)
  pooled : PoolRun node.ctx (node.transactionPool.filter SignedTransaction.isComplete) base
    node.ledger
  takenBack : ∀ expiryTime, ∃ unexpired after,
    node.revertPool expiryTime = .ok (unexpired, after) ∧ after.ledger = base

def LedgerIsReplay (ctx : Context) (genesis : SignedBlock) (node : NodeInternals) : Prop :=
  ∃ base, LedgerReplayed ctx genesis base node

theorem holdsReplay_run {freezeBeforeBlock : ℕ} {node : NodeInternals}
    (premises : Premises ctx genesis)
    (start : insertGenesis ctx freezeBeforeBlock genesis = .ok node) {events : List Event}
    (visits : ∀ n, (idle node).Visits events n → visited n)
    (orderly : StaysOrderly ctx genesis (idle node) events) :
    HoldsReplay visited ctx genesis ((idle node).run events) ∧
      Orderly ctx genesis ((idle node).run events).node := by
  refine HoldsReplay.run premises ⟨sound_genesis start, ⟨node.ledger, replays_genesis start⟩, ?_⟩
    visits orderly
  cases henabled : ctx.config.actionLog with
  | true => exact .inr (tells_genesis henabled start)
  | false =>
      left
      obtain ⟨chain, _, start⟩ := bind_ok_iff.mp start
      obtain ⟨l, _, start⟩ := bind_ok_iff.mp start
      obtain ⟨log, hlog, start⟩ := bind_ok_iff.mp start
      cases pure_ok_iff.mp start
      exact (ActionLog.enabled_logBlock hlog).trans henabled

theorem HoldsReplay.ledgerReplayed (premises : Premises ctx genesis)
    (holds : HoldsReplay visited ctx genesis s) (orderly : Orderly ctx genesis s.node) :
    ∃ base, LedgerReplayed ctx genesis base s.node := by
  obtain ⟨_, ⟨base, replays⟩, logs⟩ := holds
  have based := replays.based premises orderly
  obtain ⟨blocks, run⟩ := replays.blocks
  refine ⟨base, ?_, replays.pool.run, ?_⟩
  · obtain ⟨hblocks, hreplay⟩ := run.replay
    rw [hblocks, List.tail_cons]
    exact hreplay
  · exact replays.pool.revertPool_total premises.empty based.sound based.fits
      (logs.imp_right fun tells => tells.logged.logs)

/-- In every run the ledger of a node is the replay of its chain with its pool on top, whatever
branches it has left and whatever has been in its pool. -/
theorem ledgerReplayed_run {freezeBeforeBlock : ℕ} {node : NodeInternals}
    (premises : Premises ctx genesis)
    (start : insertGenesis ctx freezeBeforeBlock genesis = .ok node) {events : List Event}
    (orderly : StaysOrderly ctx genesis (idle node) events) :
    ∃ base, LedgerReplayed ctx genesis base ((idle node).run events).node := by
  obtain ⟨holds, hend⟩ := holdsReplay_run premises start (fun _ visits => visits) orderly
  exact holds.ledgerReplayed premises hend

/-- A node that a run in order goes through. -/
theorem visits_replayed {freezeBeforeBlock : ℕ} {node : NodeInternals}
    (premises : Premises ctx genesis)
    (start : insertGenesis ctx freezeBeforeBlock genesis = .ok node) {events : List Event}
    (orderly : StaysOrderly ctx genesis (idle node) events) (n : NodeInternals)
    (visits : (idle node).Visits events n) : LedgerIsReplay ctx genesis n := by
  obtain ⟨earlier, hprefix, rfl⟩ := visits
  exact ledgerReplayed_run premises start (orderly.earlier hprefix)

/-- Nodes of one network that have come to the same chain agree on the ledger below their pools,
however each of them has got there. -/
theorem nodes_converge {a b : Context} (network : a.SameNetwork b) (premises : Premises a genesis)
    (premises' : Premises b genesis) {freezeBeforeBlock freezeBeforeBlock' : ℕ}
    {node node' : NodeInternals} (start : insertGenesis a freezeBeforeBlock genesis = .ok node)
    (start' : insertGenesis b freezeBeforeBlock' genesis = .ok node') {events events' : List Event}
    (orderly : StaysOrderly a genesis (idle node) events)
    (orderly' : StaysOrderly b genesis (idle node') events')
    (same : ((idle node).run events).chain.blocks = ((idle node').run events').chain.blocks) :
    ∃ base base', LedgerReplayed a genesis base ((idle node).run events).node ∧
      LedgerReplayed b genesis base' ((idle node').run events').node ∧ base.Agree base' := by
  obtain ⟨holds, hend⟩ := holdsReplay_run premises start (fun _ visits => visits) orderly
  obtain ⟨holds', hend'⟩ := holdsReplay_run premises' start' (fun _ visits => visits) orderly'
  obtain ⟨_, replays⟩ := holds.replays
  obtain ⟨blocks, run⟩ := replays.blocks
  obtain ⟨base, replayed⟩ := holds.ledgerReplayed premises hend
  obtain ⟨base', replayed'⟩ := holds'.ledgerReplayed premises' hend'
  have hsame := replayed'.replayed
  rw [← show ((idle node).run events).chain.blocks.tail = _ from congrArg List.tail same] at hsame
  exact ⟨base, base', replayed, replayed',
    (replay_agree network (run.signed premises.keyed) replayed.replayed hsame).2⟩

end

section Examples

def sharedGenesis : SignedBlock :=
  ⟨⟨⟨0, 0, 0, 4294967296, "", 99400⟩, [⟨"own", ⟨30, 0⟩, .initial⟩, ⟨"c", ⟨5, 0⟩, .initial⟩], []⟩,
    ⟨"genesis", ""⟩⟩

def sharedTransfer : SignedTransaction :=
  ⟨⟨99500, 100400, ⟨0, 0⟩, .transfer ⟨"c", "b", ⟨1, 0⟩, ""⟩⟩, [⟨"c", ""⟩]⟩

def sharedBlock : SignedBlock :=
  ⟨⟨⟨1, 30, 30, 4294967296, "##", 100000⟩, [⟨"own", ⟨1000, 0⟩, .miner⟩], [sharedTransfer]⟩,
    ⟨"own", ""⟩⟩

/-- A node that takes every key but the empty one, and tells the blocks and the transactions
apart. -/
noncomputable local instance sharedExternals : Externals :=
  { namedExternals ([sharedGenesis, sharedBlock].map SignedBlock.blockDetails) [sharedTransfer] with
    hash := fun s => "#" ++ s
    publicKey := fun s => if s = "" then .error (.runtimeError "invalid public key") else .ok ()
    fromBase58 := fun text => .ok (if text = "" then [] else List.replicate 32 0) }

theorem shared_premises {ctx : Context} (key : ctx.config.key ≠ "")
    (rewards : ctx.blockRewardArray = [⟨1000, 0, by decide⟩]) : Premises ctx sharedGenesis := by
  have hinjective : Function.Injective fun s : String => "#" ++ s := fun _ _ h => by simpa using h
  refine ⟨⟨hinjective.comp (nameOf_injective _), hinjective.comp (nameOf_injective _)⟩, ?_, ?_, ?_,
    ?_, ⟨by decide, by decide⟩, ?_⟩
  · intro bytes h
    cases h
    decide
  · decide
  · intro s h
    have hempty : "#" ++ s = "" := h
    simp at hempty
  · exact fun _ => if_neg key
  · rw [rewards]
    decide +kernel

/-- The chain is the genesis block, or the block of the miner on top of it, and nothing but the
transfer is in the pool. -/
def inPlace (s : Synchronization) : Bool :=
  (s.chain.blocks = [sharedGenesis] || s.chain.blocks = [sharedGenesis, sharedBlock]) &&
    (s.node.transactionPool = [] || s.node.transactionPool = [sharedTransfer])

noncomputable def sharedLedger (ctx : Context) : Checked Ledger := do
  let chain ← Blockchain.start sharedGenesis
  let l ← increaseRewards (ctx.withChain chain) sharedGenesis.blockDetails.rewards default
  AppliedBlock.ledgerAfter ctx ⟨chain, l, sharedBlock⟩ [sharedTransfer]

theorem shared_blocks {ctx : Context} {blocks : List AppliedBlock} {chain : Blockchain}
    {base : Ledger} (run : BlockRun ctx sharedGenesis blocks chain base)
    (h : chain.blocks = [sharedGenesis, sharedBlock]) :
    ∃ first l, blocks = [⟨first, l, sharedBlock⟩] ∧ Blockchain.start sharedGenesis = .ok first ∧
      increaseRewards (ctx.withChain first) sharedGenesis.blockDetails.rewards default = .ok l := by
  have hblocks := run.replay.1
  rw [h] at hblocks
  cases run with
  | genesis => cases hblocks
  | @connect past b _ _ before =>
      cases before with
      | connect =>
          have hlength := congrArg List.length hblocks
          simp at hlength
      | genesis hchain hl =>
          obtain ⟨first, l, signedBlock⟩ := b
          have hsigned : signedBlock = sharedBlock := by simpa using hblocks.symm
          exact ⟨first, l, by rw [hsigned], hchain, hl⟩

/-- The block of the miner is clear as nothing is sponsored. -/
theorem shared_clear {ctx : Context} {blocks : List AppliedBlock} {chain : Blockchain}
    {base : Ledger} (run : BlockRun ctx sharedGenesis blocks chain base)
    (unsponsored : (sharedLedger ctx).toOption.all fun l => l.documents.sponsored.isEmpty)
    (h : chain.blocks = [sharedGenesis, sharedBlock]) : ∀ b ∈ blocks, b.Clear ctx := by
  obtain ⟨first, start, rfl, hchain, hl⟩ := shared_blocks run h
  have held : HeldTime sharedBlock.blockDetails.header := ⟨by decide, by decide⟩
  refine List.forall_mem_singleton.mpr ⟨held, fun before st rest l hsplit _ => ?_,
    fun l viewed hafter _ uri _ cusi stored => ?_⟩
  · have hmem : st ∈ [sharedTransfer] := by
      rw [show [sharedTransfer] = before ++ st :: rest from hsplit]
      exact List.mem_append_right _ List.mem_cons_self
    rw [List.mem_singleton.mp hmem]
    trivial
  · have hledger : sharedLedger ctx = .ok l :=
      bind_ok_iff.mpr ⟨first, hchain, bind_ok_iff.mpr ⟨start, hl, hafter⟩⟩
    rw [hledger] at unsponsored
    have hnone : l.documents.sponsored.isEmpty = true := unsponsored
    rw [Std.ExtTreeMap.isEmpty_iff.mp hnone, Std.ExtTreeMap.getElem?_empty] at stored
    cases stored

theorem shared_orderly {ctx : Context} (key : ctx.config.key = ctx.own) (own : ctx.own ≠ "genesis")
    (unsponsored : (sharedLedger ctx).toOption.all fun l => l.documents.sponsored.isEmpty)
    {s : Synchronization} (h : inPlace s = true) : Orderly ctx sharedGenesis s.node := by
  simp only [inPlace, Bool.and_eq_true, Bool.or_eq_true, decide_eq_true_eq] at h
  obtain ⟨hchain, hpool⟩ := h
  have hchain : s.node.blockchain.blocks = [sharedGenesis] ∨
      s.node.blockchain.blocks = [sharedGenesis, sharedBlock] := hchain
  refine ⟨?_, fun blocks base run => ?_, fun signedBlock hmem hsigned => ?_, ?_⟩
  · rcases hchain with hchain | hchain
    · rw [hchain]
      exact List.isChain_singleton _
    · have hnext : checkHeaders sharedBlock.headerEx sharedGenesis.headerEx = false := by
        decide +kernel
      rw [hchain]
      exact List.isChain_cons_cons.mpr ⟨hnext, List.isChain_singleton _⟩
  · rcases hchain with hchain | hchain
    · have hblocks := run.replay.1
      rw [hchain] at hblocks
      have hnone : blocks = [] := by simpa using hblocks
      rw [hnone]
      exact List.forall_mem_nil _
    · exact shared_clear run unsponsored hchain
  · have hmem : signedBlock = sharedGenesis ∨ signedBlock = sharedBlock := by
      rcases hchain with hchain | hchain
      · rw [hchain] at hmem
        exact .inl (List.mem_singleton.mp hmem)
      · rw [hchain] at hmem
        exact List.mem_pair.mp hmem
    have hkey : signedBlock.authorization.address = ctx.own :=
      (congrArg Authority.address hsigned).trans key
    rcases hmem with rfl | rfl
    · exact absurd hkey.symm own
    · rw [← hkey]
      decide +kernel
  · have hnone (blocks : List SignedBlock) (pool : List SignedTransaction)
        (hblocks : blocks = [sharedGenesis] ∨ blocks = [sharedGenesis, sharedBlock])
        (hpool : pool = [] ∨ pool = [sharedTransfer]) :
        hashesIn (((blocks.drop 1).flatMap fun signedBlock =>
          signedBlock.blockDetails.signedTransactions) ++ pool) = [] := by
      rcases hblocks with rfl | rfl <;> rcases hpool with rfl | rfl <;> rfl
    rw [Blockchain.transactions, transactionsAbove, hnone _ _ hchain hpool]
    exact List.nodup_nil

noncomputable def inPlaceAll : Synchronization → List Event → Bool
  | s, [] => inPlace s
  | s, event :: rest => inPlace s && inPlaceAll (s.step event) rest

theorem shared_staysOrderly {ctx : Context} (key : ctx.config.key = ctx.own)
    (own : ctx.own ≠ "genesis")
    (unsponsored : (sharedLedger ctx).toOption.all fun l => l.documents.sponsored.isEmpty)
    {s : Synchronization} {events : List Event}
    (entries : ∀ event ∈ events, ∀ s, keepsEntries s event) (h : inPlaceAll s events = true) :
    StaysOrderly ctx sharedGenesis s events := by
  induction events generalizing s with
  | nil => exact shared_orderly key own unsponsored h
  | cons event rest ih =>
      rw [inPlaceAll, Bool.and_eq_true] at h
      rw [List.forall_mem_cons] at entries
      exact ⟨shared_orderly key own unsponsored h.1, entries.1 s, ih entries.2 h.2⟩

theorem minerStart_isOk : (insertGenesis loggingNode 1000 sharedGenesis).isOk = true := by
  decide +kernel

noncomputable def minerStart : NodeInternals := okValue _ minerStart_isOk

theorem minerStart_eq : insertGenesis loggingNode 1000 sharedGenesis = .ok minerStart :=
  eq_okValue minerStart_isOk

def minerEvents : List Event := [.transaction 99600 sharedTransfer, .work 100000 [] []]

theorem minerEvents_orderly :
    StaysOrderly loggingNode sharedGenesis (idle minerStart) minerEvents := by
  refine shared_staysOrderly rfl (by decide) (by decide +kernel) ?_ (by decide +kernel)
  exact List.forall_mem_cons.mpr ⟨fun _ => trivial, List.forall_mem_cons.mpr
    ⟨fun _ => trivial, List.forall_mem_nil _⟩⟩

/-- The miner holds the replay of its chain, with nothing in its pool. -/
theorem miner_ledgerReplayed : ∃ base, LedgerReplayed loggingNode sharedGenesis base
    ((idle minerStart).run minerEvents).node :=
  ledgerReplayed_run (shared_premises (by decide) rfl) minerStart_eq minerEvents_orderly

def listener : Context := exampleNode "other" .blockchain

theorem listenerStart_isOk : (insertGenesis listener 1000 sharedGenesis).isOk = true := by
  decide +kernel

noncomputable def listenerStart : NodeInternals := okValue _ listenerStart_isOk

theorem listenerStart_eq : insertGenesis listener 1000 sharedGenesis = .ok listenerStart :=
  eq_okValue listenerStart_isOk

/-- It hears of the block of the miner, asks for it and takes it; after that the transfer arrives
late, and is ignored. -/
noncomputable def listenerEvents : List Event :=
  let head := sharedBlock.headerEx
  [.syncResponse "own" ⟨head, head⟩, .work 100100 ["own"] [], .headers 100100 "own" [head],
    .work 100100 ["own"] [], .blocks 100100 [sharedBlock], .transaction 100200 sharedTransfer]

theorem listenerEvents_orderly :
    StaysOrderly listener sharedGenesis (idle listenerStart) listenerEvents := by
  refine shared_staysOrderly rfl (by decide) (by decide +kernel) ?_ (by decide +kernel)
  simp only [listenerEvents, List.forall_mem_cons]
  exact ⟨fun _ => trivial, fun _ => trivial, fun _ => trivial, fun _ => trivial, fun _ => trivial,
    fun _ => trivial, List.forall_mem_nil _⟩

theorem listener_network : loggingNode.SameNetwork listener := ⟨rfl, rfl, rfl⟩

/-- The miner and the listener agree. -/
theorem listener_converges : ∃ base base',
    LedgerReplayed loggingNode sharedGenesis base ((idle minerStart).run minerEvents).node ∧
    LedgerReplayed listener sharedGenesis base' ((idle listenerStart).run listenerEvents).node ∧
    base.Agree base' :=
  nodes_converge listener_network (shared_premises (by decide) rfl)
    (shared_premises (by decide) rfl) minerStart_eq listenerStart_eq minerEvents_orderly
    listenerEvents_orderly (by decide +kernel)

end Examples

end Synchronization
end Publiq
