import Publiq.ActionLog
import Publiq.Headers
import Publiq.TransactionCache
import Publiq.TransactionHandler

/-! `node_internals`, and what it does with its pool: `revert_pool`,
`action_process_on_chain` and `load_transaction_cache`. A step that throws is undone
by its guard, so it is a step of `Checked` from one committed node to another. -/
namespace Publiq
open Message Checked

/-- `detail::node_internals`, as far as blocks and transactions are concerned. -/
structure NodeInternals where
  ctx : Context
  ledger : Ledger
  actionLog : ActionLog
  transactionPool : List SignedTransaction
  transactionCache : TransactionCache
  /-- `storage_controller`: the channel to fetch a file from, by the file. -/
  storageController : Std.ExtTreeMap String String
  freezeBeforeBlock : ℕ
  deriving DecidableEq

namespace NodeInternals

/-- `m_blockchain`. -/
abbrev blockchain (node : NodeInternals) : Blockchain := node.ctx.blockchain

/-- `storage_controller::enqueue` for every file to fetch. -/
def enqueue (requests : List (String × String)) (node : NodeInternals) : NodeInternals :=
  { node with
    storageController := requests.foldl (fun queue request => queue.insert request.1 request.2)
      node.storageController }

/-- `clean_transaction_cache`. -/
def cleanTransactionCache (node : NodeInternals) : NodeInternals :=
  { node with
    transactionCache := TransactionCache.clean node.blockchain.lastHeader.timeSigned
      node.transactionCache }

/-- `node_internals::get_balance`: the node's own balance at the chain layer. -/
def getBalance (node : NodeInternals) : Coin := node.ledger.state.getBalance node.ctx.own .chain

/-- `node_internals::is_miner`. -/
def isMiner (node : NodeInternals) : Bool :=
  node.ctx.config.nodeType = .blockchain && !node.getBalance.lt node.ctx.mineAmountThreshhold

variable [Documents.EntrySort] [Externals]

/-- The files that a transaction has the storage controller fetch: its action was
applied on the chain, whether or not the fee could be paid after it. -/
def fileRequests (key : String) (signedTransaction : SignedTransaction) (node : NodeInternals) :
    List (String × String) :=
  match signedTransaction.transactionDetails.action,
      actionCanApply node.ctx signedTransaction (layerOf key) node.ledger with
  | .content content, .ok true => content.fileRequests node.ctx (layerOf key) node.ledger
  | _, _ => []

/-- `apply_transaction` on the node. -/
def applyTransaction (key : String) (signedTransaction : SignedTransaction)
    (node : NodeInternals) : Checked (Bool × NodeInternals) := do
  let (applied, ledger) ← Publiq.applyTransaction node.ctx key signedTransaction node.ledger
  pure (applied, enqueue (node.fileRequests key signedTransaction) { node with ledger })

/-- `revert_transaction` on the node. -/
def revertTransaction (key : String) (signedTransaction : SignedTransaction)
    (node : NodeInternals) : Checked NodeInternals := do
  let ledger ← Publiq.revertTransaction node.ctx key signedTransaction node.ledger
  pure { node with ledger }

def revertPooled (signedTransaction : SignedTransaction) (node : NodeInternals) :
    Checked NodeInternals := do
  let (complete, transactionCache) := TransactionCache.erasePool signedTransaction
    node.transactionCache
  let node := { node with transactionCache }
  if complete then do
    let actionLog ← node.actionLog.revert
    revertTransaction "" signedTransaction { node with actionLog }
  else pure node

/-- `revert_pool`: the transactions that have not expired, and the node without any
in its pool. -/
def revertPool (expiryTime : ℤ) (node : NodeInternals) :
    Checked (List SignedTransaction × NodeInternals) := do
  let unexpired := node.transactionPool.filter fun signedTransaction =>
    expiryTime ≤ signedTransaction.transactionDetails.expiry
  let node ← runAll revertPooled node.transactionPool.reverse { node with transactionPool := [] }
  let own := node.ctx.own
  let state := node.ledger.state.setBalance own own (node.ledger.state.getBalance own .pool) .chain
  pure (unexpired, { node with ledger := { node.ledger with state } })

def pushPool (signedTransaction : SignedTransaction) (complete : Bool) (node : NodeInternals) :
    NodeInternals :=
  { node with
    transactionPool := node.transactionPool ++ [signedTransaction]
    transactionCache := TransactionCache.addPool signedTransaction complete node.transactionCache }

/-- `complete || false == action_can_apply(...)`: an incomplete transaction is only
applied to the pool, and fails there, when it could not be applied. -/
def attempts (complete : Bool) (signedTransaction : SignedTransaction) (node : NodeInternals) :
    Checked Bool :=
  if complete then pure true
  else do
    let canApply ← actionCanApply node.ctx signedTransaction .pool node.ledger
    pure (!canApply)

/-- Apply a transaction back to the pool after the chain has changed. One that can no
longer be applied is dropped; an incomplete one is kept while it could be applied. -/
def repool (complete : Bool) (signedTransaction : SignedTransaction) (node : NodeInternals) :
    Checked NodeInternals := do
  let attempt ← node.attempts complete signedTransaction
  if attempt then do
    let (applied, node) ← applyTransaction "" signedTransaction node
    if applied then
      let actionLog := node.actionLog.logTransaction signedTransaction
      pure (pushPool signedTransaction complete { node with actionLog })
    else pure node
  else pure (pushPool signedTransaction complete node)

/-- `action_process_on_chain`: whether the transaction is news to broadcast, and the
node with it in the pool. A node far behind checks it only. -/
def actionProcessOnChain (now : ℤ) (signedTransaction : SignedTransaction)
    (node : NodeInternals) : Checked (Bool × NodeInternals) := do
  requireTransferOnly node.ctx.config signedTransaction.transactionDetails.action
  let complete ← actionIsComplete node.ctx.config signedTransaction
  actionValidate node.ctx.config signedTransaction complete
  if node.blockchain.lastHeader.timeSigned < now - (blockTrLength + 1) * blockMineDelay then
    pure (true, node)
  else if TransactionCache.holds node.transactionCache signedTransaction then pure (false, node)
  else do
    let attempt ← node.attempts complete signedTransaction
    if attempt then do
      let ledger ← actionApply node.ctx signedTransaction .pool node.ledger
      feeValidate signedTransaction ledger
      let actionLog := node.actionLog.logTransaction signedTransaction
      pure (true, pushPool signedTransaction complete { node with ledger, actionLog })
    else pure (true, pushPool signedTransaction complete node)

/-- The blocks that `load_transaction_cache` reads, the last one first: none that is
older than the lifetime of a transaction. -/
def recentBlocks (chain : Blockchain) : List SignedBlock :=
  chain.blocks.reverse.takeWhile fun signedBlock =>
    chain.lastHeader.timeSigned - signedBlock.blockDetails.header.timeSigned ≤
      TransactionCache.keepSeconds

def loadChain (signedTransaction : SignedTransaction) (cache : TransactionCache) :
    Checked TransactionCache :=
  match TransactionCache.addChain signedTransaction cache with
  | some cache => .ok cache
  | none => .error (.logicError "inconsistent stored blockchain")

def loadPool (config : Config) (signedTransaction : SignedTransaction)
    (cache : TransactionCache) : Checked TransactionCache := do
  let complete ← actionIsComplete config signedTransaction
  require (TransactionCache.holds cache signedTransaction = false)
    (.logicError "inconsistent stored pool")
  pure (TransactionCache.addPool signedTransaction complete cache)

def chainCache (onlyPool : Bool) (node : NodeInternals) : Checked TransactionCache :=
  if onlyPool then pure ∅
  else runAll loadChain ((recentBlocks node.blockchain).flatMap fun signedBlock =>
    signedBlock.blockDetails.signedTransactions) ∅

/-- `load_transaction_cache`, on an empty cache after a restart. -/
def loadTransactionCache (onlyPool : Bool) (node : NodeInternals) : Checked NodeInternals := do
  let cache ← node.chainCache onlyPool
  let transactionCache ← runAll (loadPool node.ctx.config) node.transactionPool cache
  pure { node with transactionCache }

/-- The node with other addresses in its `nodeid_service`. -/
def withAddresses (addresses : List PublicAddressInfo) (node : NodeInternals) : NodeInternals :=
  { node with ctx := { node.ctx with addresses } }

/-- What a step that throws leaves: everything as it was committed, with the log read
again from its end. -/
def discard (node : NodeInternals) : NodeInternals :=
  { node with actionLog := ActionLog.loaded node.actionLog.actions node.actionLog.enabled }

end NodeInternals
end Publiq
