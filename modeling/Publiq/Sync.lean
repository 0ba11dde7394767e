import Publiq.Mine

/-! The sessions of `sessions.cpp` that bring a chain over from a peer: headers are
requested downwards until a common block is found, then blocks upwards from there.
A handler that throws ends its session and leaves the node as it was committed. -/
namespace Publiq
open Message Checked

def numbersUpTo (first last : ℕ) : List ℕ := List.range' first (last + 1 - first)

/-- The range that `session_action_header::process_request` serves, clamped to the
chain and to `HEADER_TR_LENGTH`. -/
def headerRange (length blocksFrom blocksTo : ℕ) : ℕ × ℕ :=
  let first := min (length - 1) blocksFrom
  let last := min blocksTo first
  let last :=
    if headerTrLength < first ∧ last < first - headerTrLength then first - headerTrLength else last
  (first, last)

/-- The range that `session_action_block::process_request` serves. -/
def blockRange (length blocksFrom blocksTo : ℕ) : ℕ × ℕ :=
  let number := length - 1
  let first := min number blocksFrom
  let last := max blocksTo first
  let last := min last (first + blockTrLength)
  (first, min last number)

/-- `reason`: why a block session was started. -/
inductive Reason where
  | safeBetter
  | safeRevert
  | unsafeBetter
  | unsafeBest
  deriving DecidableEq

/-- `session_action_block`: the headers, the one of the highest number first, and the
blocks received for them so far, in their order. -/
structure BlockSession where
  reason : Reason
  syncHeaders : List BlockHeaderExtended
  syncBlocks : List SignedBlock
  deriving DecidableEq

/-- `session_action_header`: the numbers requested next, and what arrived so far. -/
structure HeaderSession where
  blockIndexFrom : ℕ
  blockIndexTo : ℕ
  promisedHeader : BlockHeaderExtended
  syncHeaders : List BlockHeaderExtended
  deriving DecidableEq

section
variable [Externals]

/-- `session_action_header::process_request`. -/
def processHeaderRequest (chain : Blockchain) (blocksFrom blocksTo : ℕ) :
    Checked (List BlockHeaderExtended) :=
  let (first, last) := headerRange chain.length blocksFrom blocksTo
  (numbersUpTo last first).reverse.mapM chain.headerExAt

/-- `session_action_block::process_request`. -/
def processBlockRequest (chain : Blockchain) (blocksFrom blocksTo : ℕ) :
    Checked (List SignedBlock) :=
  let (first, last) := blockRange chain.length blocksFrom blocksTo
  (numbersUpTo first last).mapM chain.blockAt

/-- The session that `header_worker` starts towards a promised header. -/
def HeaderSession.start (chain : Blockchain) (promisedHeader : BlockHeaderExtended) :
    HeaderSession :=
  ⟨promisedHeader.blockNumber.toNat, chain.length - 1, promisedHeader, []⟩

def knownPrevHash (chain : Blockchain) (number : ℕ) : Option String :=
  if number = chain.length then some chain.lastHash
  else chain.blocks[number]?.map fun signedBlock => signedBlock.blockDetails.header.prevHash

def meetsChain (chain : Blockchain) (header : BlockHeaderExtended) : Bool :=
  knownPrevHash chain header.blockNumber.toNat = some header.prevHash && header.prevHash ≠ ""

def cutAtCommon (chain : Blockchain) :
    List BlockHeaderExtended → Option (List BlockHeaderExtended)
  | [] => none
  | header :: rest =>
      if meetsChain chain header then some [header]
      else (cutAtCommon chain rest).map (header :: ·)

/-- What a session does after a response. -/
inductive HeaderOutcome where
  /-- The headers down to the last common block. -/
  | completed (headers : List BlockHeaderExtended)
  /-- More headers are requested. -/
  | waiting (session : HeaderSession)
  deriving DecidableEq

/-- The checks on the headers received so far. -/
def checkReceived (now : ℤ) (promised : BlockHeaderExtended)
    (headers : List BlockHeaderExtended) : Checked Unit := do
  match headers.head?, headers.getLast? with
  | some front, some back => do
      require (front = promised)
        (.wrongData "probably the peer updated his blockchain after promised")
      require (front.blockNumber.toNat + 1 = back.blockNumber.toNat + headers.length ∧
        back.blockNumber ≤ front.blockNumber)
        (.wrongData "blockheader response. wrong data received!")
      require (fromTimeT front.timeSigned ≤ (now + nodesTimeShift) * 1000000000)
        (.wrongData "blockheader response. block from future received!")
      require (checkHeadersVector headers = false)
        (.wrongData "blockheader response. wrong data in response!")
  | _, _ => .error (.wrongData "blockheader response. empty response received!")

/-- The check of the headers against the last common block. -/
def checkAgainstCommon (chain : Blockchain) (headers : List BlockHeaderExtended) :
    Checked Unit := do
  match headers.getLast? with
  | none => .error (.wrongData "blockheader response. empty response received!")
  | some back => do
      require (back.blockNumber ≠ 0)
        (.wrongData "this guy is from a different blockchain network")
      let common := back.blockNumber.toNat - 1
      let header ← chain.headerExAt common
      require (checkHeaders back header = false)
        (.wrongData "blockheader response. header check failed!")
      let deltas ← lastDeltas chain common
      match ← checkDeltaVector
          (deltas ++ headers.reverse.map fun header => (header.delta, header.cConst)) with
      | .error e => .error (.wrongData e.text)
      | .ok _ => pure ()

/-- `session_action_header::process_response`. -/
def HeaderSession.processResponse (chain : Blockchain) (now : ℤ)
    (response : List BlockHeaderExtended) (session : HeaderSession) : Checked HeaderOutcome := do
  require (response ≠ []) (.wrongData "blockheader response. empty response received!")
  let headers := session.syncHeaders ++ response
  checkReceived now session.promisedHeader headers
  match cutAtCommon chain headers, headers.getLast? with
  | some headers, _ => do
      checkAgainstCommon chain headers
      pure (.completed headers)
  | none, back => do
      let last := ActionLog.before ((back.map fun header => header.blockNumber.toNat).getD 0)
      pure (.waiting { session with
        syncHeaders := headers
        blockIndexFrom := last
        blockIndexTo := if headerTrLength < last then last - headerTrLength else 0 })

/-- The checks on one received block against its header, before any block is inserted. -/
def checkReceivedBlock (config : Config) (header : BlockHeaderExtended)
    (signedBlock : SignedBlock) : Checked Unit := do
  let block := signedBlock.blockDetails
  let text := Externals.blockToString block
  require (block.signedTransactions.length ≤ blockMaxTransactions)
    (.wrongData "blockchain response. block max transactions count!")
  Externals.publicKey signedBlock.authorization.address
  require (Externals.verifySignature signedBlock.authorization.address text
    signedBlock.authorization.signature = true) (.wrongData "blockchain response. block signature!")
  require (header.toBlockHeader = block.header ∧ header.blockHash = blockHash block)
    (.wrongData "blockchain response. block header!")
  block.signedTransactions.forM fun signedTransaction => do
    signedTransactionValidate signedTransaction block.header.timeSigned 0
    actionValidate config signedTransaction true

def checkReceivedBlocks (config : Config) :
    List BlockHeaderExtended → List SignedBlock → Checked Unit
  | header :: headers, signedBlock :: rest => do
      checkReceivedBlock config header signedBlock
      checkReceivedBlocks config headers rest
  | _, _ => pure ()

namespace NodeInternals

/-- Put the transactions of a stored block into the cache where there is room. -/
def recacheBlock (signedBlock : SignedBlock) (cache : TransactionCache) : TransactionCache :=
  signedBlock.blockDetails.signedTransactions.foldl (fun cache signedTransaction =>
    (TransactionCache.addChain signedTransaction cache).getD cache) cache

/-- `block_count_per_transaction_lifetime`. -/
def blockCountPerTransactionLifetime : ℕ := transactionMaxLifetimeHours * 3600 / blockMineDelay

def revertMined (miner : String) (signedTransaction : SignedTransaction) (node : NodeInternals) :
    Checked NodeInternals := do
  let node ← revertTransaction miner signedTransaction node
  pure { node with
    transactionCache := TransactionCache.eraseChain signedTransaction node.transactionCache }

def disconnectLedger (signedBlock : SignedBlock) (miner : String) (node : NodeInternals) :
    Checked NodeInternals := do
  let block := signedBlock.blockDetails
  let (mismatch, granted) ← checkRewards node.ctx block miner .revert node.ledger
  require (mismatch = false) (.wrongData s!"block response - {block.header.blockNumber}. block rewards reverting error!")
  let ledger ← decreaseRewards node.ctx block.rewards
    { node.ledger with documents := granted.documents }
  runAll (revertMined miner) block.signedTransactions.reverse { node with ledger }

/-- Remove the last block: the loop of `process_response` that goes back to the last
common block. -/
def disconnectBlock (node : NodeInternals) : Checked NodeInternals := do
  let signedBlock := node.blockchain.lastBlock
  let number := node.blockchain.length - 1
  let blockchain ← node.blockchain.removeLastBlock
  let actionLog ← node.actionLog.revert
  let miner ← getMiner signedBlock
  let node ← disconnectLedger signedBlock miner
    { node with ctx := node.ctx.withChain blockchain, actionLog }
  let permitted ← node.ledger.authorityManager.checkAuthority miner
    signedBlock.authorization.address Block.rtt
  require (permitted = true) (.logicError "session_action_block::process_response: false == pimpl->m_authority_manager.check_miner_authority(signed_block_miner_address, signed_block_miner_authority)")
  if blockCountPerTransactionLifetime ≤ number then do
    let old ← node.blockchain.blockAt (number - blockCountPerTransactionLifetime)
    pure { node with transactionCache := recacheBlock old node.transactionCache }
  else pure node

def disconnectTo (common : ℕ) : ℕ → NodeInternals → Checked NodeInternals
  | 0, node => pure node
  | count + 1, node => do
      if common + 1 < node.blockchain.length then
        disconnectTo common count (← node.disconnectBlock)
      else pure node

def connectTransaction (miner : String) (signedTransaction : SignedTransaction)
    (connected : NodeInternals × ℤ) : Checked (NodeInternals × ℤ) := do
  let (node, prevTransactionTime) := connected
  match TransactionCache.addChain signedTransaction node.transactionCache with
  | none => .error (.wrongData "blockchain response. transaction double use!")
  | some transactionCache => do
      let (applied, node) ← applyTransaction miner signedTransaction { node with transactionCache }
      require (applied = true) (.wrongData "blockchain response. apply_transaction(). ")
      let creation := signedTransaction.transactionDetails.creation
      require (prevTransactionTime ≤ creation)
        (.wrongData "blockchain response. transaction time sorting!")
      pure (node, creation)

/-- The checks on who mined a received block, and with what delta. -/
def checkMiner (signedBlock : SignedBlock) (miner : String) (node : NodeInternals) :
    Checked Unit := do
  let header := signedBlock.blockDetails.header
  let amount := node.ledger.state.getBalance miner .pool
  require (calcDelta miner amount.whole header.prevHash node.blockchain.lastHeader.cConst =
    header.delta) (.wrongData "blockchain response. consensus delta!")
  require (amount.lt node.ctx.mineAmountThreshhold = false)
    (.wrongData "blockchain response. miner balance!")
  let authority := signedBlock.authorization.address
  let permitted ← node.ledger.authorityManager.checkAuthority miner authority Block.rtt
  require (permitted = true)
    (.wrongData ("blockchain response. miner:" ++ miner ++ ", authority: " ++ authority))
  require (∀ nodeType ∈ node.ledger.state.getRole miner, nodeType = .blockchain)
    (.wrongData "blockchain response. node type!")

def connectBlock (signedBlock : SignedBlock) (node : NodeInternals) : Checked NodeInternals := do
  let block := signedBlock.blockDetails
  let miner ← getMiner signedBlock
  checkMiner signedBlock miner node
  let (node, _) ← runAll (connectTransaction miner) block.signedTransactions (node, 0)
  let (mismatch, granted) ← checkRewards node.ctx block miner .apply node.ledger
  require (mismatch = false)
    (.wrongData s!"block response - {block.header.blockNumber}. block rewards!")
  node.appendBlock signedBlock granted

/-- Apply a transaction to the pool again after blocks were received: one of a block
that was taken back is complete, and one that expired or is on the chain is dropped. -/
def repoolReceived (now : ℤ) (signedTransaction : SignedTransaction × Bool)
    (node : NodeInternals) : Checked NodeInternals := do
  let (signedTransaction, fromBlock) := signedTransaction
  let complete ← (if fromBlock then pure true
    else actionIsComplete node.ctx.config signedTransaction)
  if now - nodesTimeShift ≤ signedTransaction.transactionDetails.expiry ∧
      TransactionCache.holds node.transactionCache signedTransaction = false then
    repool complete signedTransaction node
  else pure node

def transactionsAbove (common : ℕ) (chain : Blockchain) : List SignedTransaction :=
  (chain.blocks.drop (common + 1)).flatMap fun signedBlock =>
    signedBlock.blockDetails.signedTransactions

/-- What waits to be applied to the pool again after blocks were replaced, and whether it
comes from a block. -/
def waitingAfter (common : ℕ) (clearPool : Bool) (pool : List SignedTransaction)
    (chain : Blockchain) : List (SignedTransaction × Bool) :=
  (transactionsAbove common chain).map (·, true) ++ if clearPool then [] else pool.map (·, false)

def replaceBlocks (now : ℤ) (common : ℕ) (syncBlocks : List SignedBlock) (clearPool : Bool)
    (node : NodeInternals) : Checked NodeInternals := do
  let chain := node.blockchain
  let (pool, node) ← node.revertPool now
  let node ← disconnectTo common node.blockchain.length node
  require (¬ ∃ signedBlock ∈ syncBlocks.head?, syncBlocks.length = 1 ∧
      checkServiceStatistics signedBlock.blockDetails pool (transactionsAbove common chain)
        node.ledger = true)
    (.wrongData "blockchain response. block service statistics!")
  let node ← runAll connectBlock syncBlocks node
  if node.blockchain.length < node.freezeBeforeBlock then
    runAll (repoolReceived now) (waitingAfter common clearPool pool chain) node
  else pure node

/-- In a normal fork of one block the block of a miner that is not richer is rejected. -/
def rejectsFork (common : ℕ) (syncBlocks : List SignedBlock) (node : NodeInternals) :
    Checked Bool :=
  match syncBlocks with
  | [received] =>
      if common + 2 = node.blockchain.length then do
        let inserted := node.blockchain.lastBlock
        let insertedMiner ← getMiner inserted
        let receivedMiner ← getMiner received
        let state := node.ledger.state
        pure (!(state.getBalance insertedMiner .pool).lt (state.getBalance receivedMiner .pool) &&
          inserted.blockDetails.header.cSum = received.blockDetails.header.cSum)
      else pure false
  | _ => pure false

end NodeInternals

/-- What a block session does after a response. -/
inductive BlockOutcome where
  /-- Every header has its block on the chain. -/
  | completed
  /-- The block of a normal fork was rejected. -/
  | rejected
  /-- More blocks are requested; those that made up a batch are on the chain. -/
  | waiting (session : BlockSession)
  deriving DecidableEq

/-- The first half of `process_response`: the blocks are what the headers promised. -/
def BlockSession.receive (node : NodeInternals) (response : List SignedBlock)
    (session : BlockSession) : Checked (ℕ × BlockSession) := do
  require (response ≠ []) (.wrongData "blockchain response. empty response received!")
  require (response.length + session.syncBlocks.length ≤ session.syncHeaders.length)
    (.wrongData "blockchain response. more than expected blocks received")
  let expected := session.syncHeaders.reverse
  match expected.head?, expected.drop session.syncBlocks.length with
  | some lowest, header :: headers => do
      let number := lowest.blockNumber.toNat
      require (number ≠ 0) (.logicError "block_number == 0")
      require (number ≤ node.blockchain.length)
        (.logicError "block_number > pimpl->m_blockchain.length()")
      let prevHash :=
        match session.syncBlocks.getLast? with
        | some signedBlock => some (blockHash signedBlock.blockDetails)
        | none => knownPrevHash node.blockchain number
      require (prevHash = some header.prevHash)
        (.wrongData "blockchain response. previous hash!")
      checkReceivedBlocks node.ctx.config (header :: headers) response
      pure (number - 1, { session with syncBlocks := session.syncBlocks ++ response })
  | _, _ => .error (.logicError "sync_headers")

/-- `session_action_block::process_response`. -/
def BlockSession.processResponse (now : ℤ) (response : List SignedBlock)
    (session : BlockSession) (node : NodeInternals) : Checked (BlockOutcome × NodeInternals) := do
  let (common, session) ← session.receive node response
  let missing := session.syncBlocks.length < session.syncHeaders.length
  if session.syncBlocks.length < blockInsertLength ∧ missing then
    pure (.waiting session, node)
  else do
    let rejected ← node.rejectsFork common session.syncBlocks
    if rejected then pure (.rejected, node)
    else do
      let node ← node.replaceBlocks now common session.syncBlocks missing
      if missing then
        pure (.waiting { session with
          syncHeaders := session.syncHeaders.take
            (session.syncHeaders.length - session.syncBlocks.length)
          syncBlocks := [] }, node)
      else pure (.completed, node)

end
end Publiq
