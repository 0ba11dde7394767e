import Publiq.NodeInternals

/-! `mine_block` of `communication_p2p.cpp`. The pool is taken back and sorted out,
what fits goes into the block, and the rest is applied to the pool again. The order
of hash tables is open in the source, as is the order that `std::sort` leaves
between equals; here a stable order stands for both. -/
namespace Publiq
open Message Checked

def sortByCreation (transactions : List SignedTransaction) : List SignedTransaction :=
  transactions.insertionSort fun a b =>
    a.transactionDetails.creation ≤ b.transactionDetails.creation

/-- Sort by an amount, the largest first. One element alone is not compared. -/
def sortByAmount {α : Type} (amount : α → Checked Coin) (elements : List α) :
    Checked (List α) :=
  if elements.length < 2 then pure elements
  else do
    let keyed ← elements.mapM fun element => do
      let key ← amount element
      pure (key, element)
    pure ((keyed.insertionSort fun a b => a.1.lt b.1 = false).map Prod.snd)

def feeOf (signedTransaction : SignedTransaction) : Checked Coin :=
  Coin.ofMessage signedTransaction.transactionDetails.fee

structure Selection where
  blockTransactions : List SignedTransaction
  waiting : List SignedTransaction

/-- The loop of `reserve_statistics`: the better paid half, while there is room. -/
def reserveLoop (statCount : ℕ) : List SignedTransaction → ℕ → Selection → Selection
  | [], _, s => s
  | stat :: rest, statIndex, s =>
      if 2 * statIndex < statCount + 1 ∧ s.blockTransactions.length < blockMaxTransactions then
        reserveLoop statCount rest (statIndex + 1)
          { s with blockTransactions := s.blockTransactions ++ [stat] }
      else reserveLoop statCount rest statIndex { s with waiting := s.waiting ++ [stat] }

/-- `reserve_statistics`. -/
def reserveStatistics (statistics : List SignedTransaction) (s : Selection) :
    Checked Selection := do
  let statistics ← sortByAmount feeOf statistics
  pure (reserveLoop statistics.length statistics 0 s)

def groupBy {α : Type} (key : α → String) (elements : List α) : List (List α) :=
  (elements.map key).dedup.map fun k => elements.filter fun element => key element = k

/-- The signature of an authority in `map_authorizations`, where the last one counts. -/
def signatureOf (authorizations : List Authority) (address : String) : Option String :=
  (authorizations.reverse.find? fun authority => authority.address = address).map
    Authority.signature

/-- Find an authority with an unused signature for every owner, or else none. -/
def authorizeOwners (m : AuthorityManager) (rtt : ℕ) (authorizations : List Authority) :
    List String → List Authority → Checked (Option (List Authority))
  | [], found => pure (some found)
  | owner :: rest, found => do
      let authority ← m.findAuthority (authorizations.map Authority.address).dedup owner rtt
      if authority = "" then pure none
      else
        match signatureOf authorizations authority with
        | none => pure none
        | some signature =>
            if signature ∈ found.map Authority.signature then pure none
            else authorizeOwners m rtt authorizations rest (found ++ [⟨authority, signature⟩])

/-- Merge the copies of one transaction that were signed apart, if every owner has
signed one. -/
def mergeCopies (l : Ledger) (copies : List SignedTransaction) :
    Checked (Option SignedTransaction) :=
  match copies with
  | [] => pure none
  | first :: _ => do
      let action := first.transactionDetails.action
      let owners ← actionOwners action
      let found ← authorizeOwners l.authorityManager action.rtt
        (copies.filterMap fun copy => copy.authorizations.head?) owners []
      pure (found.map fun authorizations => { first with authorizations })

def mergeGroups (l : Ledger) :
    List (List SignedTransaction) → Checked (List SignedTransaction × List SignedTransaction)
  | [] => pure ([], [])
  | copies :: rest => do
      let merged ← mergeCopies l copies
      let (complete, incomplete) ← mergeGroups l rest
      match merged with
      | some signedTransaction => pure (signedTransaction :: complete, incomplete)
      | none => pure (complete, copies ++ incomplete)

def shareParticipant (a b : List String) : Bool := a.any fun participant =>
  participant ≠ "" && participant ∈ b

def spread (participants : List (List String)) (reached : List ℕ) : List ℕ :=
  (List.range participants.length).filter fun index =>
    reached.any fun other => other = index ||
      shareParticipant (participants.getD other []) (participants.getD index [])

def component (participants : List (List String)) (index : ℕ) : List ℕ :=
  (spread participants)^[participants.length] [index]

def averageFees (transactions : List SignedTransaction) :
    Checked (List (Coin × SignedTransaction)) := do
  let participants ← transactions.mapM fun signedTransaction =>
    actionParticipants signedTransaction.transactionDetails.action
  let fees ← transactions.mapM feeOf
  transactions.zipIdx.mapM fun (signedTransaction, index) => do
    let members := component participants index
    let value := members.foldl (fun sum member => sum + fees.getD member 0) 0
    let average ← value.div (UInt64.ofNat members.length)
    pure (average, signedTransaction)

def canPutInBlock (tpStart tpEnd : ℤ) (signedTransaction : SignedTransaction) : Bool :=
  match signedTransaction.transactionDetails.action with
  | .serviceStatistics statistics =>
      statistics.startTimePoint = tpStart && statistics.endTimePoint = tpEnd
  | _ => true

def fillBlock (tpStart tpEnd : ℤ) (transactions : List SignedTransaction) (s : Selection) :
    Selection :=
  transactions.foldl (fun s signedTransaction =>
    if s.blockTransactions.length < blockMaxTransactions ∧
        canPutInBlock tpStart tpEnd signedTransaction = true then
      { s with blockTransactions := s.blockTransactions ++ [signedTransaction] }
    else { s with waiting := s.waiting ++ [signedTransaction] }) s

/-- Choose from the reverted pool what may go into the block with a header: what was
created before it, the reports of the last interval first, then by the fees. -/
def selectTransactions [Externals] (config : Config) (l : Ledger) (header : BlockHeader)
    (reverted : List SignedTransaction) : Checked Selection := do
  let tpEnd := header.timeSigned - blockMineDelay
  let tpStart := tpEnd - blockMineDelay
  let (early, late) := reverted.partition fun signedTransaction =>
    signedTransaction.transactionDetails.creation < header.timeSigned
  let role := reportedRole l tpStart tpEnd
  let channels := early.filter fun signedTransaction => role signedTransaction = some .channel
  let storages := early.filter fun signedTransaction =>
    (role signedTransaction).any (· ≠ .channel)
  let others := early.filter fun signedTransaction => (role signedTransaction).isNone
  let reserved ← reserveStatistics channels ⟨[], others⟩
  let reserved ← reserveStatistics storages reserved
  let known ← reserved.waiting.mapM fun signedTransaction => do
    let complete ← actionIsComplete config signedTransaction
    pure (complete, signedTransaction)
  let (complete, incomplete) := known.partition Prod.fst
  let groups := groupBy (fun (signedTransaction : SignedTransaction) =>
    Externals.transactionToString signedTransaction.transactionDetails) (incomplete.map Prod.snd)
  let (merged, unmerged) ← mergeGroups l groups
  let averages ← averageFees (complete.map Prod.snd ++ merged)
  let sorted ← sortByAmount (fun keyed => pure keyed.1) averages
  pure (fillBlock tpStart tpEnd (sorted.map Prod.snd)
    ⟨reserved.blockTransactions, late ++ unmerged⟩)

namespace NodeInternals
variable [Externals]

/-- The header of the next block that the node can mine. -/
def nextHeader (node : NodeInternals) : Checked BlockHeader := do
  let prevHeader := node.blockchain.lastHeader
  let deltas ← lastDeltas node.blockchain (node.blockchain.length - 1)
  match ← checkDeltaVector deltas with
  | .error _ => .error (.logicError "own blockchain is somehow wrong")
  | .ok cConst =>
      let prevHash := node.blockchain.lastHash
      let delta := calcDelta node.ctx.own node.getBalance.whole prevHash prevHeader.cConst
      pure {
        blockNumber := UInt64.ofNat node.blockchain.length
        delta
        cConst
        cSum := prevHeader.cSum + delta
        prevHash
        timeSigned := prevHeader.timeSigned + blockMineDelay }

/-- Apply a transaction to the block that is being mined, or let it wait. -/
def mineTransaction (signedTransaction : SignedTransaction) (mined : NodeInternals × Selection) :
    Checked (NodeInternals × Selection) := do
  let (node, s) := mined
  let wait (node : NodeInternals) : NodeInternals × Selection :=
    (node, { s with waiting := s.waiting ++ [signedTransaction] })
  match TransactionCache.addChain signedTransaction node.transactionCache with
  | none => pure (wait node)
  | some transactionCache => do
      let (applied, node) ←
        applyTransaction node.ctx.own signedTransaction { node with transactionCache }
      if applied then
        pure (node, { s with blockTransactions := s.blockTransactions ++ [signedTransaction] })
      else pure (wait { node with
        transactionCache := TransactionCache.eraseChain signedTransaction node.transactionCache })

def signBlock (node : NodeInternals) (block : Block) : SignedBlock :=
  ⟨block, Externals.sign node.ctx.config.key (Externals.blockToString block)⟩

def appendBlock (signedBlock : SignedBlock) (granted : Granted) (node : NodeInternals) :
    Checked NodeInternals := do
  let ledger ← increaseRewards node.ctx signedBlock.blockDetails.rewards
    { node.ledger with documents := granted.documents }
  let blockchain ← node.blockchain.insert signedBlock
  let actionLog ← node.actionLog.logBlock signedBlock granted.unitUriViewCounts
    granted.appliedSponsorItems
  pure { node with ctx := node.ctx.withChain blockchain, ledger, actionLog }

/-- Apply a transaction that did not make it into the block to the pool again. -/
def repoolWaiting (signedTransaction : SignedTransaction) (node : NodeInternals) :
    Checked NodeInternals := do
  let complete ← actionIsComplete node.ctx.config signedTransaction
  repool complete signedTransaction node

/-- `mine_block`. -/
def mineBlock (node : NodeInternals) : Checked NodeInternals := do
  let header ← node.nextHeader
  let (reverted, node) ← node.revertPool header.timeSigned
  let selection ← selectTransactions node.ctx.config node.ledger header reverted
  let (node, s) ← runAll mineTransaction (sortByCreation selection.blockTransactions)
    (node, ⟨[], selection.waiting⟩)
  let granted ← grantRewards node.ctx ⟨header, [], s.blockTransactions⟩ node.ctx.own .apply
    node.ledger
  let block : Block := ⟨header, granted.rewards, s.blockTransactions⟩
  let node ← node.appendBlock (node.signBlock block) granted
  runAll repoolWaiting (sortByCreation s.waiting) node

end NodeInternals
end Publiq
