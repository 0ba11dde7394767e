import Publiq.Ledger

/-! `transaction_role.cpp`, `transaction_storageupdate.cpp` and
`transaction_statinfo.cpp`: the roles of nodes, the files that storages hold, and
the reports of what was served. -/
namespace Publiq.Message
open Checked

def NodeType.threshold : NodeType → Publiq.Coin
  | .blockchain => 0
  | .channel => channelAmountThreshold
  | .storage => storageAmountThreshold

/-- `BlockchainMessage::to_string(NodeType)`. -/
def NodeType.toString : NodeType → String
  | .blockchain => "blockchain"
  | .channel => "channel"
  | .storage => "storage"

def requireThreshold (l : Ledger) (address : String) (nodeType : NodeType) : Checked Unit :=
  let balance := l.state.getBalance address .pool
  require (balance.lt nodeType.threshold = false)
    (.notEnoughBalance address balance nodeType.threshold)

namespace Role

/-- `action_owners(Role)`. -/
def actionOwners (role : Role) : List String := [role.nodeAddress]

/-- `action_participants(Role)`. -/
def actionParticipants (role : Role) : List String := [role.nodeAddress]

/-- `action_validate(Role)`. -/
def actionValidate [Externals] (signedTransaction : SignedTransaction) (role : Role) :
    Checked Unit := do
  require (signedTransaction.authorizations.length = 1) signedTransaction.backAuthority
  Externals.publicKey role.nodeAddress
  require (role.nodeType ≠ .blockchain)
    (.runtimeError "there is no need to broadcast role::blockchain")

def againstConfig (ctx : Context) (role : Role) : Prop :=
  ctx.own = role.nodeAddress ∧ ctx.config.nodeType ≠ role.nodeType

instance (ctx : Context) (role : Role) : Decidable (role.againstConfig ctx) :=
  inferInstanceAs (Decidable (_ ∧ _))

/-- `action_can_apply(Role)`. -/
def actionCanApply (ctx : Context) (signedTransaction : SignedTransaction) (role : Role)
    (l : Ledger) : Checked Bool := do
  let permitted ← l.authorityManager.checkAuthority role.nodeAddress signedTransaction.signer rtt
  if permitted = false then pure false
  else if (l.state.getRole role.nodeAddress).isSome then pure false
  else if role.againstConfig ctx then pure false
  else pure (!(l.state.getBalance role.nodeAddress .pool).lt role.nodeType.threshold)

/-- `action_apply(Role)`. -/
def actionApply (ctx : Context) (signedTransaction : SignedTransaction) (role : Role)
    (l : Ledger) : Checked Ledger := do
  l.requireAuthority role.nodeAddress signedTransaction.signer rtt
    (.authority signedTransaction.signer role.nodeAddress)
  require ((l.state.getRole role.nodeAddress).isNone) (.runtimeError
    ("role: " ++ role.nodeType.toString ++ " is already stored for: " ++ role.nodeAddress))
  require (¬ role.againstConfig ctx) (.runtimeError
    ("the node: " ++ role.nodeAddress ++ " can have only the following role: " ++
      ctx.config.nodeType.toString))
  requireThreshold l role.nodeAddress role.nodeType
  l.onState (State.insertRole role)

/-- `action_revert(Role)`. -/
def actionRevert (signedTransaction : SignedTransaction) (role : Role) (l : Ledger) :
    Checked Ledger := do
  let l := { l with state := l.state.removeRole role.nodeAddress }
  l.requireAuthority role.nodeAddress signedTransaction.signer rtt (.logicError
    "false == impl.m_authority_manager.check_authority(role.node_address, signed_authority, Role::rtt)")
  pure l

end Role

namespace StorageUpdate

/-- `action_owners(StorageUpdate)`. -/
def actionOwners (update : StorageUpdate) : List String := [update.storageAddress]

/-- `action_participants(StorageUpdate)`. -/
def actionParticipants (update : StorageUpdate) : List String :=
  [update.storageAddress, update.fileUri]

/-- `action_validate(StorageUpdate)`. -/
def actionValidate [Externals] (signedTransaction : SignedTransaction) (update : StorageUpdate) :
    Checked Unit := do
  require (signedTransaction.authorizations.length = 1) signedTransaction.backAuthority
  Externals.publicKey update.storageAddress

def isRepeated (update : StorageUpdate) (l : Ledger) : Bool :=
  let holds := l.documents.storageHasUri update.fileUri update.storageAddress
  match update.status with
  | .store => holds
  | .remove => !holds

/-- `action_can_apply(StorageUpdate)`. -/
def actionCanApply (signedTransaction : SignedTransaction) (update : StorageUpdate) (l : Ledger) :
    Checked Bool := do
  let permitted ← l.authorityManager.checkAuthority update.storageAddress
    signedTransaction.signer rtt
  pure (permitted && l.state.getRole update.storageAddress = some .storage &&
    l.documents.fileExists update.fileUri && !update.isRepeated l)

/-- `action_apply(StorageUpdate)`. -/
def actionApply (signedTransaction : SignedTransaction) (update : StorageUpdate) (l : Ledger) :
    Checked Ledger := do
  l.requireAuthority update.storageAddress signedTransaction.signer rtt
    (.authority signedTransaction.signer update.storageAddress)
  require (l.state.getRole update.storageAddress = some .storage) (.wrongData
    ("action_apply(StorageUpdate) -> wrong authority type : " ++ update.storageAddress ++ ", " ++
      update.fileUri))
  require (l.documents.fileExists update.fileUri = true) (.uri update.fileUri .missing)
  require (update.isRepeated l = false) (.uri update.fileUri (match update.status with
    | .store => .duplicate
    | .remove => .missing))
  pure { l with
    documents := l.documents.storageUpdate update.fileUri update.storageAddress update.status }

/-- `action_revert(StorageUpdate)`. -/
def actionRevert (signedTransaction : SignedTransaction) (update : StorageUpdate) (l : Ledger) :
    Checked Ledger := do
  let status := if update.status = .remove then .store else .remove
  let l := { l with
    documents := l.documents.storageUpdate update.fileUri update.storageAddress status }
  l.requireAuthority update.storageAddress signedTransaction.signer rtt (.logicError
    "false == impl.m_authority_manager.check_authority(storage_update.storage_address, signed_authority, StorageUpdate::rtt)")
  pure l

end StorageUpdate

namespace ServiceStatistics

/-- `action_owners(ServiceStatistics)`. -/
def actionOwners (statistics : ServiceStatistics) : List String := [statistics.serverAddress]

/-- `action_participants(ServiceStatistics)`. -/
def actionParticipants (statistics : ServiceStatistics) : List String :=
  (statistics.fileItems.flatMap fun item =>
    item.countItems.map ServiceStatisticsCount.peerAddress ++ [item.fileUri, item.unitUri]) ++
    [statistics.serverAddress]

/-- `action_validate(ServiceStatistics)`. -/
def actionValidate [Externals] (signedTransaction : SignedTransaction)
    (statistics : ServiceStatistics) : Checked Unit := do
  require (signedTransaction.authorizations.length = 1) signedTransaction.backAuthority
  Externals.publicKey statistics.serverAddress
  require (statistics.fileItems ≠ []) (.wrongData "dummy statistics")
  statistics.fileItems.forM fun fileItem => do
    require (fileItem.countItems ≠ []) (.wrongData "dummy statistics")
    fileItem.countItems.forM fun countItem => do
      Externals.publicKey countItem.peerAddress
      require (countItem.count ≠ 0) (.wrongData "dummy statistics")

def coversLastBlock (ctx : Context) (statistics : ServiceStatistics) : Prop :=
  statistics.startTimePoint = ctx.blockchain.lastHeader.timeSigned - blockMineDelay ∧
    statistics.endTimePoint = ctx.blockchain.lastHeader.timeSigned

instance (ctx : Context) (statistics : ServiceStatistics) :
    Decidable (statistics.coversLastBlock ctx) := inferInstanceAs (Decidable (_ ∧ _))

/-- The addresses that `action_can_apply` and `action_apply` look up for a report
from the pool: of the server, and of the peers it names. -/
structure PeerLookup where
  serverAddress : String
  peersSet : List String
  addressesSet : List String

def namedPeers (ctx : Context) (statistics : ServiceStatistics) : List String :=
  ((statistics.fileItems.flatMap fun fileItem =>
    fileItem.countItems.map ServiceStatisticsCount.peerAddress).filter (· ≠ ctx.own)).dedup

/-- Look the peers up among the addresses that were checked recently. -/
def lookupPeers (ctx : Context) (statistics : ServiceStatistics) : PeerLookup :=
  let peers := statistics.namedPeers ctx
  let fresh := ctx.addresses.takeWhile fun item =>
    item.secondsSinceChecked ≤ publicAddressFreshThreshholdSeconds
  let server := (fresh.filter (·.nodeAddress = statistics.serverAddress)).getLast?
  let addresses := (fresh.filter fun item =>
    item.nodeAddress ≠ statistics.serverAddress ∧ item.nodeAddress ∈ peers).map
      PublicAddressInfo.ipAddress
  let found := (server.map PublicAddressInfo.ipAddress).getD ""
  { serverAddress :=
      if found = "" ∧ statistics.serverAddress = ctx.own then statistics.serverAddress else found
    peersSet := peers
    addressesSet := addresses.dedup }

def PeerLookup.problem (lookup : PeerLookup) : Option String :=
  if lookup.serverAddress = "" then
    some "service statistics creator address is not verified"
  else if lookup.peersSet.length ≠ lookup.addressesSet.length then
    some "service statistics some channels and storages are not verified"
  else if lookup.serverAddress ∈ lookup.addressesSet then
    some "service statistics contains channel and storage with same address"
  else none

/-- What is wrong with the time or the addresses of a report: on the chain its
interval is checked, in the pool the addresses that this node knows. -/
def sourceProblem (ctx : Context) (statistics : ServiceStatistics) : StateLayer → Option String
  | .chain =>
      if statistics.coversLastBlock ctx then none
      else some "service statistics time range is incorrect"
  | .pool => (statistics.lookupPeers ctx).problem

def fileUris (statistics : ServiceStatistics) : List String :=
  statistics.fileItems.map ServiceStatisticsFile.fileUri

/-- The content units of a report by a channel. A storage names no units. -/
def unitUris (statistics : ServiceStatistics) (nodeType : NodeType) : List String :=
  if nodeType = .channel then statistics.fileItems.map ServiceStatisticsFile.unitUri else []

def namesUnit (statistics : ServiceStatistics) (nodeType : NodeType) : Option String :=
  if nodeType = .storage then
    (statistics.fileItems.map ServiceStatisticsFile.unitUri).find? (· ≠ "")
  else none

def servesPeer (l : Ledger) (nodeType : NodeType) (count : ServiceStatisticsCount) : Bool :=
  match l.state.getRole count.peerAddress with
  | none => false
  | some peerType => peerType ≠ .blockchain && peerType ≠ nodeType

def namesForeignFile (l : Ledger) (nodeType : NodeType) (fileItem : ServiceStatisticsFile) :
    Checked Bool :=
  if nodeType = .channel then do
    let unit ← l.documents.getUnit fileItem.unitUri
    pure (decide (fileItem.fileUri ∉ unit.fileUris))
  else pure false

/-- The last checks of a report, item by item: what is wrong with the first bad one. -/
def itemsProblem (l : Ledger) (nodeType : NodeType) :
    List ServiceStatisticsFile → Checked (Option Failure)
  | [] => pure none
  | fileItem :: rest => do
      let foreign ← namesForeignFile l nodeType fileItem
      if foreign then pure (some (.uri fileItem.unitUri .invalid))
      else
        match fileItem.countItems.find? fun count => !servesPeer l nodeType count with
        | some count => pure (some (.wrongData ("wrong node type : " ++ count.peerAddress)))
        | none => itemsProblem l nodeType rest

/-- What is wrong with a report, in the order in which both `action_can_apply` and
`action_apply` look for it. -/
def problem (ctx : Context) (statistics : ServiceStatistics) (layer : StateLayer) (l : Ledger) :
    Checked (Option Failure) := do
  let server := statistics.serverAddress
  let balance := l.state.getBalance server .pool
  match l.state.getRole server with
  | none => pure (some (.wrongData ("process_stat_info -> wrong authority type : " ++ server)))
  | some nodeType =>
      if nodeType = .blockchain then
        pure (some (.wrongData ("process_stat_info -> wrong authority type : " ++ server)))
      else if balance.lt nodeType.threshold then
        pure (some (.notEnoughBalance server balance nodeType.threshold))
      else
        match statistics.sourceProblem ctx layer, statistics.namesUnit nodeType,
            l.documents.filesMissing statistics.fileUris,
            l.documents.unitsMissing (statistics.unitUris nodeType) with
        | some text, _, _, _ => pure (some (.wrongData text))
        | none, some uri, _, _ => pure (some (.uri uri .invalid))
        | none, none, some uri, _ => pure (some (.uri uri .missing))
        | none, none, none, some uri => pure (some (.uri uri .missing))
        | none, none, none, none => itemsProblem l nodeType statistics.fileItems

/-- `action_can_apply(ServiceStatistics)`. -/
def actionCanApply (ctx : Context) (signedTransaction : SignedTransaction)
    (statistics : ServiceStatistics) (layer : StateLayer) (l : Ledger) : Checked Bool := do
  let permitted ← l.authorityManager.checkAuthority statistics.serverAddress
    signedTransaction.signer rtt
  if permitted = false then pure false
  else do
    let problem ← statistics.problem ctx layer l
    pure problem.isNone

/-- `action_apply(ServiceStatistics)`, which changes nothing of the ledger. -/
def actionApply (ctx : Context) (signedTransaction : SignedTransaction)
    (statistics : ServiceStatistics) (layer : StateLayer) (l : Ledger) : Checked Ledger := do
  l.requireAuthority statistics.serverAddress signedTransaction.signer rtt
    (.authority signedTransaction.signer statistics.serverAddress)
  let problem ← statistics.problem ctx layer l
  match problem with
  | some e => .error e
  | none => pure l

/-- `action_revert(ServiceStatistics)`. -/
def actionRevert (signedTransaction : SignedTransaction) (statistics : ServiceStatistics)
    (l : Ledger) : Checked Ledger := do
  l.requireAuthority statistics.serverAddress signedTransaction.signer rtt (.logicError
    "false == impl.m_authority_manager.check_authority(service_statistics.server_address, signed_authority, ServiceStatistics::rtt)")
  pure l

end ServiceStatistics
end Publiq.Message
