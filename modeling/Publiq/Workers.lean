import Publiq.Sync

/-! `node_synchronization`, `block_worker` and `header_worker` of `node.cpp`: from
what its peers tell, a node decides whose headers to ask for, whose blocks to take
and when to mine. Fractions of a block are counted in seconds. -/
namespace Publiq
open Message Checked

/-- `vote_info`. -/
structure VoteInfo where
  stake : Coin
  blockHash : String
  deriving DecidableEq

/-- `SyncResponse`. -/
structure SyncResponse where
  ownHeader : BlockHeaderExtended
  promisedHeader : BlockHeaderExtended
  deriving DecidableEq

/-- `headers_action_data`. -/
structure HeadersActionData where
  revertsRequired : ℤ
  headers : List BlockHeaderExtended
  deriving DecidableEq

/-- A node with what it knows of its peers and the sessions it has with them. -/
structure Synchronization where
  node : NodeInternals
  syncResponses : Std.ExtTreeMap String SyncResponse
  headersActionsData : Std.ExtTreeMap String HeadersActionData
  /-- The header sessions; one that has completed expects no more responses. -/
  headerSessions : Std.ExtTreeMap String (Option HeaderSession)
  /-- The session in progress, during which nothing else changes the chain. -/
  blockSession : Option BlockSession
  deriving DecidableEq

def voteBase : Coin := ⟨1, 0, Coin.zero_fraction_lt⟩

/-- The outcome of the voting: the blocks that may win with any number of reverts,
and the one most approved. -/
structure Poll where
  winners : List String
  candidate : String
  deriving DecidableEq

def approval (votes : List VoteInfo) (blockHash : String) : Coin :=
  votes.foldl (fun sum vote =>
    if vote.blockHash = blockHash then sum + (vote.stake + voteBase) else sum) 0

/-- Count the votes of the peers, and of the node for its own head. -/
def countVotes (testnet : Bool) (peerCount : ℕ) (votes : List VoteInfo) (own : VoteInfo) :
    Checked Poll := do
  let stakeSum := (votes ++ [own]).foldl (fun sum vote => sum + (vote.stake + voteBase)) 0
  let participants := votes.length
  let withStake := votes.countP fun vote => vote.stake ≠ 0
  let stakeThreshold := if testnet then 1 else max 2 (peerCount / 4)
  let hashes := ((votes ++ [own]).map VoteInfo.blockHash).dedup
  let approve := approval (votes ++ [own])
  let rejects ← hashes.mapM fun blockHash => stakeSum.sub (approve blockHash)
  let winners := (hashes.zip rejects).filterMap fun (blockHash, reject) =>
    if Coin.lt reject (approve blockHash) ∧ max 2 (peerCount / 3) < participants ∧
        stakeThreshold < withStake then some blockHash
    else none
  let most := hashes.foldl (fun (most : String × Coin) blockHash =>
    if most.2.lt (approve blockHash) ∧ own.stake.lt (approve blockHash) ∧
        max 10 (peerCount / 3) < participants ∧ stakeThreshold < withStake then
      (blockHash, approve blockHash)
    else most) ("", 0)
  pure ⟨winners, most.1⟩

/-- Headers that `block_worker` may choose. -/
structure Candidate where
  peer : String
  revertsRequired : ℤ
  headers : List BlockHeaderExtended
  deriving DecidableEq

/-- What `block_worker` has found so far. -/
structure Scan where
  approvedWinner : Option Candidate
  leastRevert : Option Candidate
  mostApproved : Option Candidate
  deriving DecidableEq

/-- Take a candidate that needs less of the chain reverted than the one before. -/
def Candidate.better (found : Option Candidate) (candidate : Candidate) : Option Candidate :=
  match found with
  | none => some candidate
  | some before =>
      if candidate.revertsRequired < before.revertsRequired then some candidate else some before

/-- How much of the chain the headers have reverted, in seconds, the last block
counting by its age. -/
def revertsRequired (length : ℕ) (lastBlockAge : ℤ) (startNumber : ℕ) : ℤ :=
  if startNumber < length then
    ((length - startNumber - 1) * blockMineDelay : ℕ) + min (blockMineDelay : ℤ) lastBlockAge
  else 0

def Scan.step (poll : Poll) (candidate : Candidate) (scan : Scan) : Scan :=
  let front := (candidate.headers.head?.map BlockHeaderExtended.blockHash).getD ""
  if blockSafeDelay < candidate.revertsRequired then
    { scan with
      approvedWinner :=
        if front ∈ poll.winners then Candidate.better scan.approvedWinner candidate
        else scan.approvedWinner
      mostApproved :=
        if front = poll.candidate then Candidate.better scan.mostApproved candidate
        else scan.mostApproved }
  else { scan with leastRevert := Candidate.better scan.leastRevert candidate }

def Scan.choice (scan : Scan) : Option (Candidate × Reason) :=
  match scan.approvedWinner, scan.leastRevert, scan.mostApproved with
  | some candidate, _, _ => some (candidate, .unsafeBest)
  | none, some candidate, _ =>
      some (candidate, if 0 < candidate.revertsRequired then .safeRevert else .safeBetter)
  | none, none, some candidate => some (candidate, .unsafeBetter)
  | none, none, none => none

variable [Externals]

/-- The headers of a peer, when they still join the chain. -/
def candidateOf (chain : Blockchain) (now : ℤ) (peer : String) (data : HeadersActionData) :
    Option Candidate :=
  match data.headers.getLast? with
  | none => none
  | some back =>
      let startNumber := back.blockNumber.toNat
      if chain.length < startNumber then none
      else if 0 < startNumber ∧
          (chain.headerExAt (startNumber - 1)).toOption.map BlockHeaderExtended.blockHash ≠
            some back.prevHash then none
      else some ⟨peer, revertsRequired chain.length (now - chain.lastHeader.timeSigned) startNumber,
        data.headers⟩

namespace Synchronization

abbrev chain (s : Synchronization) : Blockchain := s.node.blockchain

/-- `blockchain_sync_in_progress`. -/
def inProgress (s : Synchronization) : Bool := s.blockSession.isSome

/-- The headers that `block_worker` looks at. -/
def candidates (s : Synchronization) (now : ℤ) : List Candidate :=
  s.headersActionsData.toList.filterMap fun (peer, data) => candidateOf s.chain now peer data

def noteCandidates (s : Synchronization) (candidates : List Candidate) (chosen : Option String) :
    Std.ExtTreeMap String HeadersActionData :=
  candidates.foldl (fun data candidate => data.insert candidate.peer
    ⟨candidate.revertsRequired, if chosen = some candidate.peer then [] else candidate.headers⟩)
    s.headersActionsData

/-- `block_worker`, with the votes of the peers. -/
def blockWorker (now : ℤ) (peerCount : ℕ) (votes : List VoteInfo) (s : Synchronization) :
    Checked Synchronization :=
  if s.inProgress then pure s
  else do
    let own : VoteInfo :=
      ⟨s.node.ledger.state.getBalance s.node.ctx.own .pool, s.chain.lastHash⟩
    let poll ← countVotes s.node.ctx.config.testnet peerCount votes own
    let candidates := s.candidates now
    let scan := candidates.foldl (fun (scan : Scan) candidate => scan.step poll candidate)
      ⟨none, none, none⟩
    match scan.choice with
    | none => pure { s with headersActionsData := s.noteCandidates candidates none }
    | some (candidate, reason) => pure { s with
        headersActionsData := s.noteCandidates candidates (some candidate.peer)
        blockSession := some ⟨reason, candidate.headers, []⟩ }

/-- `node_synchronization::net_sync_info`, its weight. -/
def netSum (s : Synchronization) : UInt64 :=
  (s.syncResponses.toList.map fun response => response.2.promisedHeader).foldl (fun sum header =>
    if header.blockNumber = s.chain.lastHeader.blockNumber + 1 ∧ sum < header.cSum then header.cSum
    else sum) 0

/-- `node_synchronization::own_sync_info`, its weight. -/
def ownSum (s : Synchronization) : UInt64 :=
  let header := s.chain.lastHeader
  if s.node.isMiner then
    header.cSum +
      calcDelta s.node.ctx.own s.node.getBalance.whole s.chain.lastHash header.cConst
  else header.cSum

/-- The scan of `header_worker` over the responses of its peers: the heaviest head, and
whose it is. -/
def scanResponses (s : Synchronization) (peers : List String) :
    Option (String × BlockHeaderExtended) × UInt64 × UInt64 × List String → String × SyncResponse →
    Option (String × BlockHeaderExtended) × UInt64 × UInt64 × List String
  | (scan, cSum, number, requested), (peer, response) =>
      if peer ∉ peers then (scan, cSum, number, requested)
      else if (s.headersActionsData[peer]?.any fun data => 0 < data.revertsRequired) then
        (scan, cSum, number, requested ++ [response.ownHeader.blockHash])
      else if s.chain.lastHash ≠ response.ownHeader.blockHash ∧ cSum < response.ownHeader.cSum ∧
          number ≤ response.ownHeader.blockNumber ∧
          response.ownHeader.blockHash ∉ requested then
        (some (peer, response.ownHeader), response.ownHeader.cSum,
          response.ownHeader.blockNumber, requested)
      else (scan, cSum, number, requested)

/-- What `header_worker` goes on with. -/
inductive Decision where
  | sync (peer : String) (promisedHeader : BlockHeaderExtended)
  | mine
  | idle
  deriving DecidableEq

/-- The choice of `header_worker`. Without a scanned peer the source compares its own
head with a weight of zero. -/
def decision (now : ℤ) (peers : List String) (s : Synchronization) : Checked Decision :=
  let head := s.chain.lastHeader
  let (scan, cSum, number, _) := s.syncResponses.toList.foldl (s.scanResponses peers)
    (none, 0, head.blockNumber, [])
  let hash := (scan.map fun found => found.2.blockHash).getD s.chain.lastHash
  let since := now - head.timeSigned
  let syncNow : Checked Decision :=
    match scan with
    | some (peer, header) => .ok (.sync peer header)
    | none => .error (.logicError "scan_peer.empty()")
  if head.blockNumber + 1 < number ∧ (blockMineDelay + blockWaitDelay : ℕ) ≤ since then syncNow
  else if head.cSum < cSum ∧ head.blockNumber = number then syncNow
  else if since < blockSafeDelay ∧ head.cSum = cSum ∧ head.blockNumber = number ∧
      s.chain.lastHash ≠ hash then syncNow
  else if s.ownSum < cSum then
    if s.netSum ≤ cSum ∨ (blockMineDelay + blockWaitDelay : ℕ) < since then syncNow
    else .ok .idle
  else if (blockMineDelay - blockWaitDelay : ℕ) ≤ since ∧ since < blockMineDelay then
    if scan.isSome then syncNow else .ok .idle
  else if (blockMineDelay + blockWaitDelay : ℕ) ≤ since ∨
      (blockMineDelay ≤ since ∧ s.netSum ≤ s.ownSum) then .ok .mine
  else .ok .idle

/-- `session_action_header::initiate`: a peer has one such session at a time. -/
def startHeaders (peer : String) (promisedHeader : BlockHeaderExtended) (s : Synchronization) :
    Synchronization :=
  if s.headersActionsData.contains peer then s
  else
    { s with
      headersActionsData := s.headersActionsData.insert peer ⟨0, []⟩
      headerSessions := s.headerSessions.insert peer (some (.start s.chain promisedHeader)) }

/-- The rest of `header_worker` when no session is in progress. -/
def act (decision : Decision) (s : Synchronization) : Checked Synchronization :=
  match decision with
  | .sync peer promisedHeader => pure (s.startHeaders peer promisedHeader)
  | .mine =>
      if s.node.isMiner then do
        let node ← s.node.mineBlock
        pure { s with node }
      else pure s
  | .idle => pure s

/-- `header_worker`. -/
def headerWorker (now : ℤ) (peers : List String) (votes : List VoteInfo)
    (s : Synchronization) : Checked Synchronization := do
  let s ← s.blockWorker now peers.length votes
  if s.inProgress then pure s
  else do
    let decision ← s.decision now peers
    s.act decision

end Synchronization
end Publiq
