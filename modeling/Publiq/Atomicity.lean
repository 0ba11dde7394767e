import Publiq.HeaderSync
import Publiq.LogSteps

/-! The stores of a node beside what their loaders have saved, and the guards with which
`mine_block`, `process_response` and `action_process_on_chain` restore them when something
throws. What a store holds at that moment can be anything. -/
namespace Publiq
open Message Checked

/-- What the loaders have saved, those of `state`, `documents` and `authority_manager` as one
ledger. -/
structure Saved where
  ledger : Ledger
  blockchain : Blockchain
  actions : List LoggedTransaction
  transactionPool : List SignedTransaction
  fileRequests : Std.ExtTreeMap String String

/-- What a step that throws leaves in the stores, in the cache and in the members that follow
them. -/
structure Left where
  ledger : Ledger
  blockchain : Blockchain
  lastHeader : BlockHeader
  lastHash : String
  actions : List LoggedTransaction
  revertIndex : ℕ
  transactionPool : List SignedTransaction
  transactionCache : TransactionCache
  fileRequests : Std.ExtTreeMap String String

/-- A node as its stores hold it, the members of `blockchain` that follow the last block,
what is saved, and the copy of the cache. -/
structure Stores where
  node : NodeInternals
  lastHeader : BlockHeader
  lastHash : String
  saved : Saved
  cacheBackup : TransactionCache

namespace NodeInternals
variable [Externals]

/-- `action_process_on_chain_t` before its guard: whether the transaction is complete, and
the answer when it is not to be pooled. -/
def checkIncoming (now : ℤ) (signedTransaction : SignedTransaction) (node : NodeInternals) :
    Checked (Bool × Option Bool) := do
  requireTransferOnly node.ctx.config signedTransaction.transactionDetails.action
  let complete ← actionIsComplete node.ctx.config signedTransaction
  actionValidate node.ctx.config signedTransaction complete
  if node.blockchain.lastHeader.timeSigned < now - (blockTrLength + 1) * blockMineDelay then
    pure (complete, some true)
  else if TransactionCache.holds node.transactionCache signedTransaction then
    pure (complete, some false)
  else pure (complete, none)

/-- `action_process_on_chain_t` under its guard. -/
def poolIncoming (complete : Bool) (signedTransaction : SignedTransaction)
    (node : NodeInternals) : Checked NodeInternals := do
  let attempt ← node.attempts complete signedTransaction
  if attempt then do
    let ledger ← actionApply node.ctx signedTransaction .pool node.ledger
    feeValidate signedTransaction ledger
    let actionLog := node.actionLog.logTransaction signedTransaction
    pure (pushPool signedTransaction complete { node with ledger, actionLog })
  else pure (pushPool signedTransaction complete node)

theorem actionProcessOnChain_eq (now : ℤ) (st : SignedTransaction) (node : NodeInternals) :
    node.actionProcessOnChain now st = (do
      let (complete, answer) ← node.checkIncoming now st
      match answer with
      | some news => pure (news, node)
      | none => do
          let node ← node.poolIncoming complete st
          pure (true, node)) := by
  unfold actionProcessOnChain checkIncoming
  simp only [bind_assoc]
  congr 1
  funext _
  congr 1
  funext complete
  congr 1
  funext _
  split_ifs
  · rfl
  · rfl
  · rw [pure_bind]
    simp only [poolIncoming, bind_assoc]
    congr 1
    funext attempt
    cases attempt with
    | true => simp only [if_true, bind_assoc, pure_bind]
    | false => rfl

end NodeInternals

/-- A call that changes the stores under a guard. -/
inductive Call where
  /-- `mine_block`. -/
  | mine
  /-- `session_action_block::process_response`. -/
  | blocks (now : ℤ) (response : List SignedBlock) (session : BlockSession)
  /-- `action_process_on_chain`. -/
  | transaction (now : ℤ) (signedTransaction : SignedTransaction)

namespace Call

variable [Externals] in
def outcome (node : NodeInternals) : Call → Checked NodeInternals
  | .mine => node.mineBlock
  | .blocks now response session => do
      let (_, node) ← session.processResponse now response node
      pure node
  | .transaction now signedTransaction => do
      let (_, node) ← node.actionProcessOnChain now signedTransaction
      pure node

def coversRequests : Call → Bool
  | .transaction _ _ => false
  | _ => true

variable [Externals]

/-- A call up to its guard, which leaves the stores alone, and what it does under the guard,
if it gets there. -/
def prepare (node : NodeInternals) : Call → Checked (Option (NodeInternals → Checked NodeInternals))
  | .mine => pure (some NodeInternals.mineBlock)
  | .blocks now response session => do
      let (common, session) ← session.receive node response
      let missing := session.syncBlocks.length < session.syncHeaders.length
      if session.syncBlocks.length < blockInsertLength ∧ missing then pure none
      else do
        let rejected ← node.rejectsFork common session.syncBlocks
        if rejected then pure none
        else pure (some (NodeInternals.replaceBlocks now common session.syncBlocks missing))
  | .transaction now signedTransaction => do
      let (complete, answer) ← node.checkIncoming now signedTransaction
      pure (if answer.isSome then none
        else some (NodeInternals.poolIncoming complete signedTransaction))

end Call

namespace Stores

/-- The state in which a step throws. A transaction for the pool has nothing fetched. -/
def spoil (left : Left) (requests : Bool) (s : Stores) : Stores :=
  { s with
    node := { s.node with
      ctx := s.node.ctx.withChain left.blockchain
      ledger := left.ledger
      actionLog := ⟨left.actions, s.node.actionLog.enabled, left.revertIndex⟩
      transactionPool := left.transactionPool
      transactionCache := left.transactionCache
      storageController := if requests then left.fileRequests else s.node.storageController }
    lastHeader := left.lastHeader
    lastHash := left.lastHash }

/-- `node_internals::save`. -/
def save (s : Stores) : Stores :=
  { s with saved := { s.saved with
      ledger := s.node.ledger
      blockchain := s.node.blockchain
      actions := s.node.actionLog.actions
      transactionPool := s.node.transactionPool } }

/-- `storage_controller::save` and `commit`. -/
def saveRequests (s : Stores) : Stores :=
  { s with saved := { s.saved with fileRequests := s.node.storageController } }

/-- `storage_controller::discard`. -/
def discardRequests (s : Stores) : Stores :=
  { s with node := { s.node with storageController := s.saved.fileRequests } }

/-- `transaction_cache::backup`. -/
def backup (s : Stores) : Stores := { s with cacheBackup := s.node.transactionCache }

/-- `transaction_cache::restore`. -/
def restore (s : Stores) : Stores :=
  { s with node := { s.node with transactionCache := s.cacheBackup } }

/-- `storage_controller::enqueue`, for a `StorageUpdateCommand` of the manager. It saves
nothing. -/
def enqueue (fileUri channelAddress : String) (s : Stores) : Stores :=
  { s with node := s.node.enqueue [(fileUri, channelAddress)] }

/-- `storage_controller::pop`. -/
def pop (fileUri channelAddress : String) (s : Stores) : Stores :=
  if s.node.storageController[fileUri]? = some channelAddress then
    saveRequests { s with node := { s.node with
      storageController := s.node.storageController.erase fileUri } }
  else s

section
variable [Externals]

/-- Fill the stores from a node; `update_state` follows its last block. -/
def put (node : NodeInternals) (s : Stores) : Stores :=
  { s with
    node
    lastHeader := node.blockchain.lastHeader
    lastHash := node.blockchain.lastHash }

/-- `node_internals::discard`. -/
def discard (s : Stores) : Stores :=
  put { s.node with
    ctx := s.node.ctx.withChain s.saved.blockchain
    ledger := s.saved.ledger
    actionLog := ActionLog.loaded s.saved.actions s.node.actionLog.enabled
    transactionPool := s.saved.transactionPool } s

def opened (node : NodeInternals) : Stores where
  node := node.discard
  lastHeader := node.blockchain.lastHeader
  lastHash := node.blockchain.lastHash
  saved :=
    { ledger := node.ledger
      blockchain := node.blockchain
      actions := node.actionLog.actions
      transactionPool := node.transactionPool
      fileRequests := node.storageController }
  cacheBackup := ∅

def guarded (requests : Bool) (body : NodeInternals → Checked NodeInternals) (left : Left)
    (s : Stores) : Except Failure Unit × Stores :=
  let s := s.backup
  match body s.node with
  | .ok node =>
      let s := s.put node
      (.ok (), (if requests then s.saveRequests else s).save)
  | .error e =>
      let s := s.spoil left requests
      (.error e, (if requests then s.discardRequests else s).discard.restore)

def perform (call : Call) (left : Left) (s : Stores) : Except Failure Unit × Stores :=
  match call.prepare s.node with
  | .error e => (.error e, s)
  | .ok none => (.ok (), s)
  | .ok (some body) => guarded call.coversRequests body left s

def restart (s : Stores) : Stores :=
  let s := s.discardRequests.discard
  match s.node.loadTransactionCache false with
  | .ok node => { s with node }
  | .error _ => { s with node := { s.node with transactionCache := ∅ } }

end
end Stores

/-- What can happen to the stores. -/
inductive StoreEvent where
  | call (call : Call) (left : Left)
  | enqueue (fileUri channelAddress : String)
  | pop (fileUri channelAddress : String)
  | clean
  | addresses (addresses : List PublicAddressInfo)
  | restart

namespace Stores
variable [Externals]

def step (s : Stores) : StoreEvent → Stores
  | .call call left => (s.perform call left).2
  | .enqueue fileUri channelAddress => s.enqueue fileUri channelAddress
  | .pop fileUri channelAddress => s.pop fileUri channelAddress
  | .clean => { s with node := s.node.cleanTransactionCache }
  | .addresses addresses => { s with node := s.node.withAddresses addresses }
  | .restart => s.restart

def run (s : Stores) (events : List StoreEvent) : Stores := events.foldl step s

/-- Everything is saved but the requests of the storage controller, and the members that
follow the stores agree with them. -/
structure Settled (s : Stores) : Prop where
  ledger : s.saved.ledger = s.node.ledger
  blockchain : s.saved.blockchain = s.node.blockchain
  actions : s.saved.actions = s.node.actionLog.actions
  transactionPool : s.saved.transactionPool = s.node.transactionPool
  lastHeader : s.lastHeader = s.node.blockchain.lastHeader
  lastHash : s.lastHash = s.node.blockchain.lastHash
  revertIndex : s.node.actionLog.AtEnd

omit [Externals] in
def RequestsSaved (s : Stores) : Prop := s.saved.fileRequests = s.node.storageController

omit [Externals] in
/-- Everything is as it was. -/
structure Unchanged (s after : Stores) : Prop where
  node : after.node = s.node
  lastHeader : after.lastHeader = s.lastHeader
  lastHash : after.lastHash = s.lastHash
  saved : after.saved = s.saved

/-- A call that succeeds has committed everything that it has changed, and one that throws
leaves everything as it was. -/
def Atomic (s : Stores) (outcome : Except Failure Unit × Stores) : Prop :=
  match outcome.1 with
  | .ok _ => outcome.2.Settled ∧ (outcome.2.RequestsSaved ∨
      outcome.2.node.storageController = s.node.storageController ∧
        outcome.2.saved.fileRequests = s.saved.fileRequests)
  | .error _ => Unchanged s outcome.2

end Stores

def Call.FailsGuarded [Externals] (node : NodeInternals) (call : Call) : Prop :=
  call.coversRequests = true ∧ ∃ body e, call.prepare node = .ok (some body) ∧
    body node = .error e

section
variable [Externals]

/-- What a call prepares and what it does under its guard make up the function of the source. -/
theorem Call.outcome_eq (node : NodeInternals) (call : Call) :
    call.outcome node = (do
      match ← call.prepare node with
      | none => pure node
      | some body => body node) := by
  cases call with
  | mine => rfl
  | blocks now response session =>
      simp only [outcome, prepare, BlockSession.processResponse, bind_assoc]
      congr 1
      funext ⟨common, after⟩
      dsimp only
      by_cases hwait : after.syncBlocks.length < blockInsertLength ∧
          after.syncBlocks.length < after.syncHeaders.length
      · rw [if_pos hwait, if_pos hwait]
        rfl
      · rw [if_neg hwait, if_neg hwait, bind_assoc, bind_assoc]
        congr 1
        funext rejected
        cases rejected with
        | true => rfl
        | false =>
            simp only [Bool.false_eq_true, if_false, bind_assoc, pure_bind]
            conv_rhs => rw [← bind_pure (NodeInternals.replaceBlocks _ _ _ _ node)]
            congr 1
            funext replaced
            split_ifs <;> rfl
  | transaction now st =>
      simp only [outcome, prepare, NodeInternals.actionProcessOnChain_eq, bind_assoc]
      congr 1
      funext ⟨complete, answer⟩
      cases answer with
      | some news => rfl
      | none =>
          simp only [Option.isSome_none, Bool.false_eq_true, if_false, bind_assoc, pure_bind]
          exact bind_pure _

theorem receive_ne_nil {node : NodeInternals} {response : List SignedBlock}
    {session after : BlockSession} {common : ℕ}
    (h : session.receive node response = .ok (common, after)) : after.syncBlocks ≠ [] := by
  obtain ⟨hresponse, h⟩ := require_bind_ok_iff.mp h
  obtain ⟨_, h⟩ := require_bind_ok_iff.mp h
  dsimp only at h
  split at h
  · obtain ⟨_, h⟩ := require_bind_ok_iff.mp h
    obtain ⟨_, h⟩ := require_bind_ok_iff.mp h
    obtain ⟨_, h⟩ := require_bind_ok_iff.mp h
    obtain ⟨_, _, h⟩ := bind_ok_iff.mp h
    cases pure_ok_iff.mp h
    exact List.append_ne_nil_of_right_ne_nil _ hresponse
  · cases h

/-- What the calls that reach their guard go on with. -/
theorem Call.prepare_cases {call : Call} {node : NodeInternals}
    {body : NodeInternals → Checked NodeInternals} (h : call.prepare node = .ok (some body)) :
    (call = .mine ∧ body = NodeInternals.mineBlock) ∨
    (∃ now response session common after missing, call = .blocks now response session ∧
      session.receive node response = .ok (common, after) ∧
      body = NodeInternals.replaceBlocks now common after.syncBlocks missing) ∨
    ∃ now st complete, call = .transaction now st ∧
      node.checkIncoming now st = .ok (complete, none) ∧
      body = NodeInternals.poolIncoming complete st := by
  cases call with
  | mine =>
      cases pure_ok_iff.mp h
      exact .inl ⟨rfl, rfl⟩
  | blocks now response session =>
      obtain ⟨⟨common, after⟩, hreceive, h⟩ := bind_ok_iff.mp h
      refine .inr (.inl ?_)
      dsimp only at h
      split_ifs at h
      · cases pure_ok_iff.mp h
      · obtain ⟨rejected, _, h⟩ := bind_ok_iff.mp h
        cases rejected with
        | true => cases pure_ok_iff.mp h
        | false =>
            cases pure_ok_iff.mp h
            exact ⟨now, response, session, common, after, _, rfl, hreceive, rfl⟩
  | transaction now st =>
      obtain ⟨⟨complete, answer⟩, hcheck, h⟩ := bind_ok_iff.mp h
      refine .inr (.inr ⟨now, st, complete, rfl, ?_⟩)
      cases answer with
      | some news => cases pure_ok_iff.mp h
      | none =>
          cases pure_ok_iff.mp h
          exact ⟨hcheck, rfl⟩

theorem atEnd_poolIncoming {complete : Bool} {st : SignedTransaction} {node after : NodeInternals}
    (h : node.poolIncoming complete st = .ok after) (hend : node.actionLog.AtEnd) :
    after.actionLog.AtEnd := by
  obtain ⟨attempt, _, h⟩ := bind_ok_iff.mp h
  cases attempt with
  | true =>
      simp only [if_true] at h
      obtain ⟨_, _, h⟩ := bind_ok_iff.mp h
      obtain ⟨_, _, h⟩ := bind_ok_iff.mp h
      cases pure_ok_iff.mp h
      exact ActionLog.atEnd_logTransaction hend st
  | false =>
      cases pure_ok_iff.mp h
      exact hend

/-- A transaction for the pool has nothing fetched. -/
theorem Call.requests_body {call : Call} {node after : NodeInternals}
    {body : NodeInternals → Checked NodeInternals} (h : call.prepare node = .ok (some body))
    (hbody : body node = .ok after) (hcovers : call.coversRequests = false) :
    after.storageController = node.storageController := by
  rcases Call.prepare_cases h with ⟨rfl, _⟩ | ⟨_, _, _, _, _, _, rfl, _, _⟩ |
    ⟨_, st, _, _, _, rfl⟩
  · cases hcovers
  · cases hcovers
  · obtain ⟨attempt, _, hbody⟩ := bind_ok_iff.mp hbody
    cases attempt with
    | true =>
        simp only [if_true] at hbody
        obtain ⟨_, _, hbody⟩ := bind_ok_iff.mp hbody
        obtain ⟨_, _, hbody⟩ := bind_ok_iff.mp hbody
        cases pure_ok_iff.mp hbody
        rfl
    | false =>
        cases pure_ok_iff.mp hbody
        rfl

theorem Call.atEnd_body {call : Call} {node after : NodeInternals}
    {body : NodeInternals → Checked NodeInternals} (h : call.prepare node = .ok (some body))
    (hbody : body node = .ok after) (hend : node.actionLog.AtEnd) : after.actionLog.AtEnd := by
  rcases Call.prepare_cases h with ⟨_, rfl⟩ | ⟨_, _, _, _, _, _, _, hreceive, rfl⟩ |
    ⟨_, _, _, _, _, rfl⟩
  · exact NodeInternals.atEnd_mineBlock hbody hend
  · exact NodeInternals.atEnd_replaceBlocks hbody (receive_ne_nil hreceive) hend
  · exact atEnd_poolIncoming hbody hend

end

namespace Stores
variable [Externals]

theorem settled_opened (node : NodeInternals) : (opened node).Settled :=
  ⟨rfl, rfl, rfl, rfl, rfl, rfl, rfl⟩

theorem guarded_ok (requests : Bool) {body : NodeInternals → Checked NodeInternals} (left : Left)
    {s : Stores} {after : NodeInternals} (h : body s.node = .ok after)
    (hend : after.actionLog.AtEnd) :
    (guarded requests body left s).1 = .ok () ∧ (guarded requests body left s).2.node = after ∧
    (guarded requests body left s).2.Settled ∧
    (requests = true → (guarded requests body left s).2.RequestsSaved) ∧
    (requests = false →
      (guarded requests body left s).2.saved.fileRequests = s.saved.fileRequests) := by
  have heq : guarded requests body left s = (.ok (),
      (if requests then (s.backup.put after).saveRequests else s.backup.put after).save) := by
    have hbody : body s.backup.node = .ok after := h
    unfold guarded
    simp only [hbody]
  rw [heq]
  cases requests with
  | true => exact ⟨rfl, rfl, ⟨rfl, rfl, rfl, rfl, rfl, rfl, hend⟩, fun _ => rfl, nofun⟩
  | false => exact ⟨rfl, rfl, ⟨rfl, rfl, rfl, rfl, rfl, rfl, hend⟩, nofun, fun _ => rfl⟩

/-- A call that throws under its guard leaves everything as it was, except that the requests
of the storage controller are read again. -/
theorem guarded_error (requests : Bool) {body : NodeInternals → Checked NodeInternals}
    (left : Left) {s : Stores} {e : Failure} (settled : s.Settled) (h : body s.node = .error e) :
    (guarded requests body left s).1 = .error e ∧
    (guarded requests body left s).2.node = { s.node with
      storageController := if requests then s.saved.fileRequests else s.node.storageController } ∧
    (guarded requests body left s).2.lastHeader = s.lastHeader ∧
    (guarded requests body left s).2.lastHash = s.lastHash ∧
    (guarded requests body left s).2.saved = s.saved := by
  have heq : guarded requests body left s = (.error e,
      (if requests then (s.backup.spoil left requests).discardRequests
        else s.backup.spoil left requests).discard.restore) := by
    have hbody : body s.backup.node = .error e := h
    unfold guarded
    simp only [hbody]
  have hctx : s.node.ctx.withChain s.saved.blockchain = s.node.ctx := by
    rw [settled.blockchain]
    rfl
  have hlog : ActionLog.loaded s.saved.actions s.node.actionLog.enabled = s.node.actionLog := by
    rw [settled.actions, ActionLog.loaded_of_atEnd settled.revertIndex]
  have hnode : { s.node with
      ctx := s.node.ctx.withChain s.saved.blockchain
      ledger := s.saved.ledger
      actionLog := ActionLog.loaded s.saved.actions s.node.actionLog.enabled
      transactionPool := s.saved.transactionPool
      storageController :=
        if requests then s.saved.fileRequests else s.node.storageController } =
      { s.node with storageController :=
        if requests then s.saved.fileRequests else s.node.storageController } := by
    rw [hctx, hlog, settled.ledger, settled.transactionPool]
  rw [heq, settled.lastHeader, settled.lastHash, ← settled.blockchain]
  cases requests with
  | true => exact ⟨rfl, hnode, rfl, rfl, rfl⟩
  | false => exact ⟨rfl, hnode, rfl, rfl, rfl⟩

theorem settled_perform {s : Stores} (settled : s.Settled) (call : Call) (left : Left) :
    (s.perform call left).2.Settled := by
  unfold perform
  cases hprepare : call.prepare s.node with
  | error e => exact settled
  | ok rest =>
      cases rest with
      | none => exact settled
      | some body =>
          dsimp only
          cases hbody : body s.node with
          | ok after =>
              exact (guarded_ok _ left hbody (Call.atEnd_body hprepare hbody settled.revertIndex)).2.2.1
          | error e =>
              obtain ⟨_, hnode, hheader, hhash, hsaved⟩ := guarded_error call.coversRequests left
                settled hbody
              constructor
              · rw [hnode, hsaved]
                exact settled.ledger
              · rw [hnode, hsaved]
                exact settled.blockchain
              · rw [hnode, hsaved]
                exact settled.actions
              · rw [hnode, hsaved]
                exact settled.transactionPool
              · rw [hnode, hheader]
                exact settled.lastHeader
              · rw [hnode, hhash]
                exact settled.lastHash
              · rw [hnode]
                exact settled.revertIndex

theorem settled_step {s : Stores} (settled : s.Settled) (event : StoreEvent) :
    (s.step event).Settled := by
  cases event with
  | call call left => exact settled_perform settled call left
  | enqueue fileUri channelAddress =>
      exact ⟨settled.ledger, settled.blockchain, settled.actions, settled.transactionPool,
        settled.lastHeader, settled.lastHash, settled.revertIndex⟩
  | pop fileUri channelAddress =>
      change (s.pop fileUri channelAddress).Settled
      unfold pop
      split_ifs
      · exact ⟨settled.ledger, settled.blockchain, settled.actions, settled.transactionPool,
          settled.lastHeader, settled.lastHash, settled.revertIndex⟩
      · exact settled
  | clean =>
      exact ⟨settled.ledger, settled.blockchain, settled.actions, settled.transactionPool,
        settled.lastHeader, settled.lastHash, settled.revertIndex⟩
  | addresses addresses =>
      exact ⟨settled.ledger, settled.blockchain, settled.actions, settled.transactionPool,
        settled.lastHeader, settled.lastHash, settled.revertIndex⟩
  | restart =>
      change s.restart.Settled
      unfold restart
      dsimp only
      cases hload : s.discardRequests.discard.node.loadTransactionCache false with
      | error e => exact ⟨rfl, rfl, rfl, rfl, rfl, rfl, rfl⟩
      | ok node =>
          obtain ⟨cache, _, hload⟩ := bind_ok_iff.mp hload
          obtain ⟨loaded, _, hload⟩ := bind_ok_iff.mp hload
          cases pure_ok_iff.mp hload
          exact ⟨rfl, rfl, rfl, rfl, rfl, rfl, rfl⟩

theorem settled_run {s : Stores} (settled : s.Settled) (events : List StoreEvent) :
    (s.run events).Settled := by
  induction events generalizing s with
  | nil => exact settled
  | cons event rest ih => exact ih (settled_step settled event)

/-- Only the requests that are not saved can be lost. -/
theorem atomic_iff {s : Stores} (settled : s.Settled) (call : Call) (left : Left) :
    s.Atomic (s.perform call left) ↔ (call.FailsGuarded s.node → s.RequestsSaved) := by
  unfold perform Call.FailsGuarded
  cases hprepare : call.prepare s.node with
  | error e =>
      refine iff_of_true ⟨rfl, rfl, rfl, rfl⟩ ?_
      rintro ⟨_, body, _, hbody, _⟩
      cases hbody
  | ok rest =>
      cases rest with
      | none =>
          refine iff_of_true ⟨settled, .inr ⟨rfl, rfl⟩⟩ ?_
          rintro ⟨_, body, _, hbody, _⟩
          cases hbody
      | some body =>
          dsimp only
          cases hbody : body s.node with
          | ok after =>
              obtain ⟨hresult, hnode, hsettled, hsaved, hkept⟩ :=
                guarded_ok call.coversRequests left hbody
                  (Call.atEnd_body hprepare hbody settled.revertIndex)
              refine iff_of_true ?_ ?_
              · unfold Atomic
                rw [hresult]
                refine ⟨hsettled, ?_⟩
                cases hcovers : call.coversRequests with
                | true => exact .inl (hcovers ▸ hsaved hcovers)
                | false =>
                    rw [hcovers] at hnode hkept
                    rw [hnode]
                    exact .inr ⟨Call.requests_body hprepare hbody hcovers, hkept rfl⟩
              · rintro ⟨_, body', e, hsame, herror⟩
                cases hsame
                rw [hbody] at herror
                cases herror
          | error e =>
              obtain ⟨hresult, hnode, hheader, hhash, hsaved⟩ :=
                guarded_error call.coversRequests left settled hbody
              unfold Atomic
              rw [hresult]
              cases hcovers : call.coversRequests with
              | true =>
                  rw [hcovers] at hnode hheader hhash hsaved
                  constructor
                  · intro unchanged _
                    have hqueue := congrArg NodeInternals.storageController unchanged.node
                    rw [hnode] at hqueue
                    exact hqueue
                  · intro keeps
                    have hqueue : s.saved.fileRequests = s.node.storageController :=
                      keeps ⟨rfl, body, e, rfl, hbody⟩
                    refine ⟨?_, hheader, hhash, hsaved⟩
                    rw [hnode, if_pos rfl, hqueue]
              | false =>
                  rw [hcovers] at hnode hheader hhash hsaved
                  refine iff_of_true ⟨hnode, hheader, hhash, hsaved⟩ ?_
                  rintro ⟨hfalse, _⟩
                  cases hfalse

/-- Every call of every run is atomic, unless it throws while requests of the storage
controller are not saved yet. -/
theorem run_atomic_iff (node : NodeInternals) (events : List StoreEvent) (call : Call)
    (left : Left) :
    ((opened node).run events).Atomic (((opened node).run events).perform call left) ↔
      (call.FailsGuarded ((opened node).run events).node →
        ((opened node).run events).RequestsSaved) :=
  atomic_iff (settled_run (settled_opened node) events) call left

end Stores

section Examples
open Stores NodeInternals

def aloneGenesis : SignedBlock :=
  ⟨⟨⟨0, 0, 0, 4294967296, "", 0⟩, [⟨"a", ⟨30, 0⟩, .initial⟩], []⟩, ⟨"genesis", ""⟩⟩

/-- A block of that miner with a delta that its balance does not give. -/
def greedyBlock : SignedBlock :=
  ⟨⟨⟨1, 31, 31, 4294967296, "#", 600⟩, [⟨"a", ⟨1000, 0⟩, .miner⟩], []⟩, ⟨"a", ""⟩⟩

noncomputable local instance greedyExternals : Externals :=
  namedExternals ([aloneGenesis, greedyBlock].map SignedBlock.blockDetails) []

theorem aloneStart_isOk :
    (insertGenesis (exampleNode "own" .storage) 1000 aloneGenesis).isOk = true := by
  decide +kernel

noncomputable def aloneStart : NodeInternals := okValue _ aloneStart_isOk

noncomputable def greedyCall : Call :=
  .blocks 700 [greedyBlock] ⟨.safeBetter, [greedyBlock.headerEx], []⟩

/-- The step throws before it has changed anything. -/
noncomputable def greedyLeft : Left :=
  { ledger := aloneStart.ledger
    blockchain := aloneStart.blockchain
    lastHeader := aloneStart.blockchain.lastHeader
    lastHash := aloneStart.blockchain.lastHash
    actions := aloneStart.actionLog.actions
    revertIndex := aloneStart.actionLog.revertIndex
    transactionPool := aloneStart.transactionPool
    transactionCache := aloneStart.transactionCache
    fileRequests := aloneStart.storageController }

noncomputable def aloneCommanded : Stores := (opened aloneStart).run [.enqueue "file" "channel"]

theorem greedyCall_throws :
    (aloneCommanded.perform greedyCall greedyLeft).1.isOk = false ∧
    aloneCommanded.node.storageController["file"]? = some "channel" ∧
    (aloneCommanded.perform greedyCall greedyLeft).2.node.storageController["file"]? = none := by
  decide +kernel

/-- A block that is refused makes the node forget the file. -/
theorem enqueued_request_lost :
    ¬ ∀ [Externals] (node : NodeInternals) (events : List StoreEvent) (call : Call) (left : Left),
      ((opened node).run events).Atomic (((opened node).run events).perform call left) := by
  intro claim
  have atomic := claim aloneStart [.enqueue "file" "channel"] greedyCall greedyLeft
  obtain ⟨hthrows, hbefore, hafter⟩ := greedyCall_throws
  change aloneCommanded.Atomic (aloneCommanded.perform greedyCall greedyLeft) at atomic
  unfold Atomic at atomic
  cases hresult : (aloneCommanded.perform greedyCall greedyLeft).1 with
  | ok result =>
      rw [hresult] at hthrows
      cases hthrows
  | error e =>
      rw [hresult] at atomic
      rw [atomic.node, hbefore] at hafter
      cases hafter

end Examples
end Publiq
