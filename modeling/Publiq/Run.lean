import Publiq.Workers

/-! A node over time: the events that change it, in any order. What an event leaves when
its handler throws is the node as it was committed before. -/
namespace Publiq
open Message Checked

/-- What can happen to a node. The peers and their votes are what the sockets know. -/
inductive Event where
  /-- A transaction arrives, from a peer, a client or the node itself. -/
  | transaction (now : ℤ) (signedTransaction : SignedTransaction)
  /-- The timer runs `header_worker`. -/
  | work (now : ℤ) (peers : List String) (votes : List VoteInfo)
  | syncResponse (peer : String) (response : SyncResponse)
  | headers (now : ℤ) (peer : String) (response : List BlockHeaderExtended)
  | dropHeaders (peer : String)
  | blocks (now : ℤ) (response : List SignedBlock)
  | dropBlocks
  /-- The timer runs `clean_transaction_cache`. -/
  | clean
  /-- `nodeid_service` has verified other addresses. -/
  | addresses (addresses : List PublicAddressInfo)
  | restart

namespace NodeInternals
variable [Externals]

/-- `insert_genesis` on a node that has nothing stored yet. -/
def insertGenesis (ctx : Context) (freezeBeforeBlock : ℕ) (genesis : SignedBlock) :
    Checked NodeInternals := do
  let blockchain ← Blockchain.start genesis
  let ctx := ctx.withChain blockchain
  let ledger ← increaseRewards ctx genesis.blockDetails.rewards default
  let actionLog ← (ActionLog.loaded [] ctx.config.actionLog).logBlock genesis ∅ []
  pure {
    ctx, ledger, actionLog, freezeBeforeBlock
    transactionPool := []
    transactionCache := ∅
    storageController := ∅ }

def receive (now : ℤ) (signedTransaction : SignedTransaction) (node : NodeInternals) :
    Checked NodeInternals := do
  signedTransactionValidate signedTransaction now nodesTimeShift
  let (_, node) ← node.actionProcessOnChain now signedTransaction
  pure node

def restart (node : NodeInternals) : Checked NodeInternals := do
  let node := discard node
  require (∀ nodeType ∈ node.ledger.state.getRole node.ctx.own,
    nodeType = node.ctx.config.nodeType) (.runtimeError "the stored node role is different")
  loadTransactionCache false node

end NodeInternals

namespace Synchronization
variable [Externals]

def dropHeaders (peer : String) (s : Synchronization) : Synchronization :=
  if s.headerSessions.contains peer then
    { s with
      headersActionsData := s.headersActionsData.erase peer
      headerSessions := s.headerSessions.erase peer }
  else s

def receiveHeaders (now : ℤ) (peer : String) (response : List BlockHeaderExtended)
    (s : Synchronization) : Checked Synchronization :=
  match s.headerSessions[peer]?, s.headersActionsData[peer]? with
  | some (some session), some data => do
      match ← session.processResponse s.chain now response with
      | .completed headers => pure { s with
          headersActionsData := s.headersActionsData.insert peer { data with headers }
          headerSessions := s.headerSessions.insert peer none }
      | .waiting session => pure { s with
          headerSessions := s.headerSessions.insert peer (some session) }
  | _, _ => pure s

def receiveBlocks (now : ℤ) (response : List SignedBlock) (s : Synchronization) :
    Checked Synchronization :=
  match s.blockSession with
  | none => pure s
  | some session => do
      let (outcome, node) ← session.processResponse now response s.node
      match outcome with
      | .waiting session => pure { s with node, blockSession := some session }
      | _ => pure { s with node, blockSession := none }

def idle (node : NodeInternals) : Synchronization := ⟨node, ∅, ∅, ∅, none⟩

/-- The handler of an event. -/
def handle (s : Synchronization) : Event → Checked Synchronization
  | .transaction now signedTransaction => do
      let node ← s.node.receive now signedTransaction
      pure { s with node }
  | .work now peers votes => s.headerWorker now peers votes
  | .syncResponse peer response =>
      pure { s with syncResponses := s.syncResponses.insert peer response }
  | .headers now peer response => s.receiveHeaders now peer response
  | .dropHeaders peer => pure (s.dropHeaders peer)
  | .blocks now response => s.receiveBlocks now response
  | .dropBlocks => pure { s with blockSession := none }
  | .clean => pure { s with node := s.node.cleanTransactionCache }
  | .addresses addresses => pure { s with node := s.node.withAddresses addresses }
  | .restart => do
      let node ← s.node.restart
      pure (idle node)

/-- What a handler that throws leaves: the session of the response has failed, and a
node that does not start stays as it is stored. -/
def recover (s : Synchronization) : Event → Synchronization
  | .work now peers votes =>
      let s := (s.blockWorker now peers.length votes).toOption.getD s
      { s with node := s.node.discard }
  | .headers _ peer _ => s.dropHeaders peer
  | .blocks _ _ => { s with node := s.node.discard, blockSession := none }
  | _ => { s with node := s.node.discard }

def step (s : Synchronization) (event : Event) : Synchronization :=
  match s.handle event with
  | .ok after => after
  | .error _ => s.recover event

def run (s : Synchronization) (events : List Event) : Synchronization := events.foldl step s

end Synchronization
end Publiq
