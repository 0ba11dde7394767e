import Publiq.ActionStream

/-! `commander`, the explorer: `daemon_rpc.cpp` and `utility.cpp`. It reads the action log of
a node and keeps for the accounts it was told of what the log says about them. The stores
stand for what their loaders hold; a count of the source is a natural number here. -/
namespace Publiq
open Message Checked

/-- `LoggingType`. -/
inductive LoggingType where
  | apply
  | revert
  deriving DecidableEq

/-- `update_balance_type`. -/
inductive UpdateBalanceType where
  | increase
  | decrease
  deriving DecidableEq

/-- `TransactionInfo` of `utility.cpp`. -/
structure TransactionInfo where
  source : String
  target : String
  amount : Message.Coin
  fee : Message.Coin
  deriving DecidableEq

/-- `author_addresses[0]`. -/
def frontAuthor : List String → Checked String
  | [] => .error (.outOfRange "author_addresses")
  | author :: _ => .ok author

/-- The constructor of `TransactionInfo`, which has no case for an update of authorities. -/
def transactionInfo (log : TransactionLog) : Checked TransactionInfo :=
  match log.action with
  | .transfer a => pure ⟨a.source, a.target, a.amount, log.fee⟩
  | .file a => do
      let source ← frontAuthor a.authorAddresses
      pure ⟨source, "", 0, log.fee⟩
  | .contentUnit a => do
      let source ← frontAuthor a.authorAddresses
      pure ⟨source, "", 0, log.fee⟩
  | .content a => pure ⟨a.channelAddress, "", 0, log.fee⟩
  | .role a => pure ⟨a.nodeAddress, "", 0, log.fee⟩
  | .storageUpdate a => pure ⟨a.storageAddress, "", 0, log.fee⟩
  | .serviceStatistics a => pure ⟨a.serverAddress, "", 0, log.fee⟩
  | .sponsorContentUnit a => pure ⟨a.sponsorAddress, "", a.amount, log.fee⟩
  | .cancelSponsorContentUnit a => pure ⟨a.sponsorAddress, "", 0, log.fee⟩
  | _ => .error (.logicError s!"unknown transaction log item - {log.action.rtt}")

namespace CommanderMessage

structure Account where
  address : String
  balance : Message.Coin
  deriving DecidableEq

structure BlockInfo where
  authority : String
  blockHash : String
  blockNumber : UInt64
  blockSize : ℕ
  timeSigned : ℤ
  deriving DecidableEq

structure ContentUnit where
  authorAddresses : List String
  fileUris : List String
  deriving DecidableEq

structure Content where
  approved : Bool
  contentUnits : Std.ExtTreeMap String ContentUnit
  deriving DecidableEq

/-- `ChannelsResponseItem`, the histories by the content id. -/
structure ChannelsResponseItem where
  channelAddress : String
  contents : Std.ExtTreeMap UInt64 (List Content)
  deriving DecidableEq

structure StoragesResponseItem where
  storageAddress : String
  fileUris : Std.ExtTreeMap String Bool
  deriving DecidableEq

structure NumberPair where
  first : ℕ
  second : ℕ
  deriving DecidableEq

end CommanderMessage

open CommanderMessage (Account BlockInfo ChannelsResponseItem StoragesResponseItem NumberPair)

/-- A log of one account and its index: by the number of a block, where in the log its
entries begin and how many they are. -/
structure IndexedLog (α : Type) where
  log : List α
  index : Std.ExtTreeMap ℕ NumberPair
  deriving DecidableEq

namespace IndexedLog
variable {α : Type}

instance : Inhabited (IndexedLog α) := ⟨⟨[], ∅⟩⟩

/-- The apply half of `process_transaction` and `process_reward`. -/
def add (what : String) (blockIndex : ℕ) (entry : α) (il : IndexedLog α) :
    Checked (IndexedLog α) :=
  let log := il.log ++ [entry]
  let current := log.length - 1
  match il.index[blockIndex]? with
  | none => pure ⟨log, il.index.insert blockIndex ⟨current, 1⟩⟩
  | some stored => do
      require (stored.first + stored.second = current)
        (.logicError ("cannot add to " ++ what ++ " index"))
      pure ⟨log, il.index.insert blockIndex { stored with second := stored.second + 1 }⟩

def remove (what : String) (blockIndex : ℕ) (il : IndexedLog α) : Checked (IndexedLog α) := do
  require (il.log ≠ []) (.outOfRange "vector_loader::pop_back")
  let log := il.log.dropLast
  let current := log.length
  match il.index[blockIndex]? with
  | none => .error (.logicError ("cannot remove from " ++ what ++ " index"))
  | some stored => do
      require (stored.first + stored.second = current + 1)
        (.logicError ("cannot remove from " ++ what ++ " index - check error"))
      pure ⟨log, if stored.second = 1 then il.index.erase blockIndex
        else il.index.insert blockIndex { stored with second := stored.second - 1 }⟩

end IndexedLog

abbrev IndexedLogs (α : Type) := Std.ExtTreeMap String (IndexedLog α)

/-- `process_transaction`, and `process_reward` with its own kind of entry. -/
def processEntry {α : Type} (what : String) (accounts : List String) (blockIndex : ℕ)
    (account : String) (entry : α) (type : LoggingType) (logs : IndexedLogs α) :
    Checked (IndexedLogs α) :=
  if account ∈ accounts then do
    let il := logs[account]?.getD default
    let il ← match type with
      | .apply => il.add what blockIndex entry
      | .revert => il.remove what blockIndex
    pure (logs.insert account il)
  else pure logs

/-- `process_transaction`. -/
def processTransaction (accounts : List String) (blockIndex : ℕ) (account : String)
    (log : TransactionLog) : LoggingType → IndexedLogs TransactionLog →
    Checked (IndexedLogs TransactionLog) :=
  processEntry "transaction" accounts blockIndex account log

/-- `process_reward`. -/
def processReward (accounts : List String) (blockIndex : ℕ) (account : String)
    (log : Reward) : LoggingType → IndexedLogs Reward → Checked (IndexedLogs Reward) :=
  processEntry "reward" accounts blockIndex account log

/-- The accounts that `process_transactions` logs a transaction for. -/
def touchedBy (info : TransactionInfo) (authority : String) : List String :=
  [info.source].filter (· ≠ "") ++
    [authority].filter (fun a => a ≠ "" ∧ a ≠ info.source) ++
    [info.target].filter (fun a => a ≠ "" ∧ a ≠ info.source ∧ a ≠ authority)

/-- `process_transactions`. -/
def processTransactions (accounts : List String) (blockIndex : ℕ) (log : TransactionLog)
    (authority : String) (type : LoggingType) (logs : IndexedLogs TransactionLog) :
    Checked (IndexedLogs TransactionLog) := do
  let info ← transactionInfo log
  runAll (fun account => processTransaction accounts blockIndex account log type)
    (touchedBy info authority) logs

section
variable [Externals]

/-- `update_balance`. -/
def updateBalance (accounts : List String) (account : String) (updateBy : Message.Coin)
    (type : UpdateBalanceType) (stored : Std.ExtTreeMap String Account) :
    Checked (Std.ExtTreeMap String Account) :=
  if account ∈ accounts then do
    Externals.publicKey account
    let old := stored[account]?.getD ⟨account, 0⟩
    let balance ← Coin.ofMessage old.balance
    let change ← Coin.ofMessage updateBy
    let balance ← match type with
      | .decrease => balance.sub change
      | .increase => pure (balance + change)
    pure (stored.insert account { old with balance := balance.toMessage })
  else pure stored

/-- `update_balance`, unless the account is left empty. -/
def updateNamed (accounts : List String) (account : String) (updateBy : Message.Coin)
    (type : UpdateBalanceType) (stored : Std.ExtTreeMap String Account) :
    Checked (Std.ExtTreeMap String Account) :=
  if account = "" then pure stored else updateBalance accounts account updateBy type stored

def updateBoth (accounts : List String) (amount : Message.Coin) (first second : String)
    (firstType secondType : UpdateBalanceType) (stored : Std.ExtTreeMap String Account) :
    Checked (Std.ExtTreeMap String Account) :=
  if amount = 0 then pure stored
  else do
    let stored ← updateNamed accounts first amount firstType stored
    updateNamed accounts second amount secondType stored

/-- `update_balances`: the amount, then the fee, which goes to the authority of a block. -/
def updateBalances (accounts : List String) (log : TransactionLog) (authority : String)
    (type : LoggingType) (stored : Std.ExtTreeMap String Account) :
    Checked (Std.ExtTreeMap String Account) := do
  let info ← transactionInfo log
  match type with
  | .apply => do
      let stored ←
        updateBoth accounts info.amount info.source info.target .decrease .increase stored
      updateBoth accounts info.fee info.source authority .decrease .increase stored
  | .revert => do
      let stored ←
        updateBoth accounts info.amount info.source info.target .increase .decrease stored
      updateBoth accounts info.fee info.source authority .increase .decrease stored

end

/-- `process_storage_transactions`. -/
def processStorageTransactions (accounts : List String) (log : TransactionLog)
    (type : LoggingType) (storages : Std.ExtTreeMap String StoragesResponseItem) :
    Checked (Std.ExtTreeMap String StoragesResponseItem) :=
  match log.action with
  | .storageUpdate update =>
      if update.storageAddress ∈ accounts then
        let isStored := decide (update.status = .store ∧ type = .apply ∨
          update.status = .remove ∧ type = .revert)
        match storages[update.storageAddress]? with
        | none => pure (storages.insert update.storageAddress
            ⟨update.storageAddress, (∅ : Std.ExtTreeMap String Bool).insert update.fileUri isStored⟩)
        | some storage => do
            require (storage.fileUris[update.fileUri]? ≠ some isStored)
              (.logicError "stored_file_uri->second == is_stored")
            pure (storages.insert update.storageAddress
              { storage with fileUris := storage.fileUris.insert update.fileUri isStored })
      else pure storages
  | _ => pure storages

abbrev Channels := Std.ExtTreeMap String ChannelsResponseItem

namespace Histories

/-- A unit joins the content that is not approved yet, or begins one. -/
def addUnit (uri : String) (unit : CommanderMessage.ContentUnit)
    (histories : List CommanderMessage.Content) : Checked (List CommanderMessage.Content) :=
  match histories.getLast? with
  | none => .error (.logicError "content_histories.empty()")
  | some back =>
      if back.approved then pure (histories ++ [⟨false, (∅ : Std.ExtTreeMap _ _).insert uri unit⟩])
      else pure (histories.dropLast ++
        [{ back with contentUnits := back.contentUnits.insert uri unit }])

/-- The unit leaves the content that is not approved yet. -/
def removeUnit (uri : String) (histories : List CommanderMessage.Content) :
    Checked (List CommanderMessage.Content) :=
  match histories.getLast? with
  | none => .error (.logicError "contents.size() == 0")
  | some back => do
      require (back.contentUnits.contains uri = true) (.logicError "erased_count == 0")
      require (back.approved = false) (.logicError "contents.back().approved")
      let left := back.contentUnits.erase uri
      pure (if left.isEmpty then histories.dropLast
        else histories.dropLast ++ [{ back with contentUnits := left }])

def findUnit (uri : String) (histories : List CommanderMessage.Content) :
    Option CommanderMessage.ContentUnit :=
  histories.reverse.findSome? (·.contentUnits[uri]?)

/-- A unit that is approved leaves the content that is not approved yet. -/
def takeUnit (uri : String) (histories : List CommanderMessage.Content) :
    List CommanderMessage.Content :=
  match histories.getLast? with
  | none => histories
  | some back =>
      if back.approved then histories
      else histories.dropLast ++ [{ back with contentUnits := back.contentUnits.erase uri }]

def collect : List String →
    List CommanderMessage.Content × Std.ExtTreeMap String CommanderMessage.ContentUnit →
    Checked (List CommanderMessage.Content × Std.ExtTreeMap String CommanderMessage.ContentUnit) :=
  runAll fun uri (histories, units) =>
    match findUnit uri histories with
    | none => .error (.logicError "!found")
    | some unit => pure (takeUnit uri histories, units.insert uri unit)

/-- The new content takes its place behind the one that was approved before it. -/
def placeBehind (content : CommanderMessage.Content) :
    List CommanderMessage.Content → List CommanderMessage.Content
  | [] => []
  | first :: rest =>
      if first.approved then { first with approved := false } :: content :: rest
      else first :: placeBehind content rest

def dropEmpty (histories : List CommanderMessage.Content) : List CommanderMessage.Content :=
  match histories.getLast? with
  | none => histories
  | some back => if back.contentUnits.isEmpty then histories.dropLast else histories

def place (content : CommanderMessage.Content) (histories : List CommanderMessage.Content) :
    List CommanderMessage.Content :=
  match histories with
  | [] => [content]
  | [only] => if only.approved then placeBehind content histories else [content, only]
  | _ => placeBehind content histories

def approve (uris : List String) (histories : List CommanderMessage.Content) :
    Checked (List CommanderMessage.Content) := do
  require (histories ≠ []) (.logicError "content_histories.size() == 0")
  let (histories, units) ← collect uris (histories, ∅)
  require (units.isEmpty = false) (.logicError "new_content.content_units.size() == 0")
  pure (place ⟨true, units⟩ (dropEmpty histories))

def approveLast (histories : List CommanderMessage.Content) : List CommanderMessage.Content :=
  match histories.getLast? with
  | none => []
  | some last => histories.dropLast ++ [{ last with approved := true }]

def giveBack (units : Std.ExtTreeMap String CommanderMessage.ContentUnit)
    (histories : List CommanderMessage.Content) : Checked (List CommanderMessage.Content) :=
  match histories.getLast? with
  | none => .error (.outOfRange "content_histories.back()")
  | some back => do
      require (∀ uri ∈ units.keys, back.contentUnits.contains uri = false)
        (.logicError "!emplace_result.second")
      pure (histories.dropLast ++ [{ back with contentUnits := back.contentUnits ∪ units }])

/-- The approved content of some units is taken back. -/
def disapprove (uris : List String) (histories : List CommanderMessage.Content) :
    Checked (List CommanderMessage.Content) := do
  require (histories ≠ []) (.logicError "content_histories.size() == 0")
  let before := histories.takeWhile fun content => !content.approved
  match histories.dropWhile fun content => !content.approved with
  | [] => .error (.logicError "approved_iter == content_histories.end()")
  | approved :: after => do
      require (∀ uri ∈ uris, approved.contentUnits.contains uri = true)
        (.logicError "count != content.content_unit_uris.size()")
      let left := approved.contentUnits.filter fun uri _ =>
        before.all fun content => !content.contentUnits.contains uri
      if after = [] then pure (approveLast before ++ [⟨false, left⟩])
      else do
        let after ← giveBack left after
        pure (approveLast before ++ after)

end Histories

def historiesOf (channels : Channels) (channel : String) (contentId : UInt64) :
    Option (List CommanderMessage.Content) :=
  channels[channel]?.bind fun item => item.contents[contentId]?

/-- `process_channel_transactions` for a `ContentUnit` that is applied. -/
def applyUnit (unit : ContentUnit) (channels : Channels) : Checked Channels := do
  let shown : CommanderMessage.ContentUnit := ⟨unit.authorAddresses, unit.fileUris⟩
  let first : List CommanderMessage.Content :=
    [⟨false, (∅ : Std.ExtTreeMap _ _).insert unit.uri shown⟩]
  match channels[unit.channelAddress]? with
  | none => pure (channels.insert unit.channelAddress
      ⟨unit.channelAddress, (∅ : Std.ExtTreeMap _ _).insert unit.contentId first⟩)
  | some item => do
      let histories ← match item.contents[unit.contentId]? with
        | none => pure first
        | some histories => Histories.addUnit unit.uri shown histories
      pure (channels.insert unit.channelAddress
        { item with contents := item.contents.insert unit.contentId histories })

def findHistories (channels : Channels) (channel : String) (contentId : UInt64) :
    Checked (ChannelsResponseItem × List CommanderMessage.Content) :=
  match channels[channel]? with
  | none => .error (.logicError "rpc_server.channels.contains(content_unit.channel_address)")
  | some item =>
      match item.contents[contentId]? with
      | none =>
          .error (.logicError "contents_item == channel_response_item.contents.end()")
      | some histories => .ok (item, histories)

/-- `process_channel_transactions` for a `ContentUnit` that is taken back. -/
def revertUnit (unit : ContentUnit) (channels : Channels) : Checked Channels := do
  let (item, histories) ← findHistories channels unit.channelAddress unit.contentId
  let histories ← Histories.removeUnit unit.uri histories
  let contents := if histories = [] then item.contents.erase unit.contentId
    else item.contents.insert unit.contentId histories
  pure (if contents.isEmpty then channels.erase unit.channelAddress
    else channels.insert unit.channelAddress { item with contents })

/-- `process_channel_transactions` for a `Content`. -/
def processContent (content : Content) (type : LoggingType) (channels : Channels) :
    Checked Channels := do
  let (item, histories) ← findHistories channels content.channelAddress content.contentId
  let histories ← match type with
    | .apply => Histories.approve content.contentUnitUris histories
    | .revert => Histories.disapprove content.contentUnitUris histories
  pure (channels.insert content.channelAddress
    { item with contents := item.contents.insert content.contentId histories })

/-- `process_channel_transactions`. -/
def processChannelTransactions (accounts : List String) (log : TransactionLog)
    (type : LoggingType) (channels : Channels) : Checked Channels :=
  match log.action with
  | .contentUnit unit =>
      if unit.channelAddress ∈ accounts then
        match type with
        | .apply => applyUnit unit channels
        | .revert => revertUnit unit channels
      else pure channels
  | .content content =>
      if content.channelAddress ∈ accounts then processContent content type channels
      else pure channels
  | _ => pure channels

/-- `m_file_usage_map`: by the number of a block, how often a file was served. -/
abbrev FileUsageMap := Std.ExtTreeMap ℕ (Std.ExtTreeMap String UInt64)

def countItem (blockIndex : ℕ) (usage : FileUsageMap) (item : ServiceStatisticsFile) :
    FileUsageMap :=
  if item.unitUri = "" then usage
  else item.countItems.foldl (fun usage count =>
    let files := usage[blockIndex]?.getD ∅
    usage.insert blockIndex
      (files.insert item.fileUri (files[item.fileUri]?.getD 0 + count.count))) usage

/-- `process_statistics_transactions`. -/
def processStatisticsTransactions (hasKey : Bool) (log : TransactionLog) (blockIndex : ℕ)
    (type : LoggingType) (usage : FileUsageMap) : FileUsageMap :=
  match hasKey, log.action, type with
  | true, .serviceStatistics statistics, .apply =>
      statistics.fileItems.foldl (countItem blockIndex) usage
  | true, .serviceStatistics _, .revert => usage.erase blockIndex
  | _, _, _ => usage

/-- `rpc`, and the `sync_context` by which it reads the log: the one of a new import reads it
for its account alone. -/
structure Commander where
  accounts : Std.ExtTreeMap String Account
  blocks : List BlockInfo
  storages : Std.ExtTreeMap String StoragesResponseItem
  channels : Channels
  fileUsageMap : FileUsageMap
  /-- `false == m_str_pv_key.empty()`. -/
  hasKey : Bool
  newImport : Bool
  startIndex : ℕ
  headBlockIndex : ℕ
  setAccounts : List String
  transactions : IndexedLogs TransactionLog
  rewards : IndexedLogs Reward
  deriving DecidableEq

namespace Commander

/-- An explorer that has not read anything. -/
def fresh (setAccounts : List String) (newImport hasKey : Bool) : Commander :=
  { accounts := ∅
    blocks := []
    storages := ∅
    channels := ∅
    fileUsageMap := ∅
    hasKey, newImport
    startIndex := 0
    headBlockIndex := 0
    setAccounts
    transactions := ∅
    rewards := ∅ }

variable [Externals]

/-- What `sync` does with one transaction, in a block or in the pool. Statistics are read
from blocks only, and not for an import. -/
def processLogged (blockIndex : ℕ) (authority : String) (statistics : Bool)
    (type : LoggingType) (log : TransactionLog) (c : Commander) : Checked Commander := do
  let storages ← processStorageTransactions c.setAccounts log type c.storages
  let channels ← processChannelTransactions c.setAccounts log type c.channels
  let fileUsageMap := if statistics then
    processStatisticsTransactions c.hasKey log blockIndex type c.fileUsageMap else c.fileUsageMap
  let accounts ← updateBalances c.setAccounts log authority type c.accounts
  let transactions ←
    processTransactions c.setAccounts blockIndex log authority type c.transactions
  pure { c with storages, channels, fileUsageMap, accounts, transactions }

/-- What `sync` does with one reward of a block. -/
def processRewarded (blockIndex : ℕ) (type : LoggingType) (reward : Reward) (c : Commander) :
    Checked Commander := do
  let updateType := match type with
    | .apply => UpdateBalanceType.increase
    | .revert => UpdateBalanceType.decrease
  let accounts ← updateBalance c.setAccounts reward.target reward.amount updateType c.accounts
  let rewards ← processReward c.setAccounts blockIndex reward.target reward type c.rewards
  pure { c with accounts, rewards }

def blockInfo (log : BlockLog) : BlockInfo :=
  ⟨log.authority, log.blockHash, log.blockNumber, log.blockSize, log.timeSigned⟩

/-- The branch of `sync` for a block that was applied. The first block of all leaves the
index of the head where it is. -/
def applyBlockLog (first : Bool) (log : BlockLog) (c : Commander) : Checked Commander := do
  let headBlockIndex := if first then c.headBlockIndex else c.headBlockIndex + 1
  let c := { c with headBlockIndex }
  let c ← if c.newImport then pure c else do
    -- only an assertion
    require (log.blockNumber.toNat = headBlockIndex)
      (.logicError "block_log.block_number == block_index")
    pure { c with blocks := c.blocks ++ [blockInfo log] }
  let c ← runAll (processLogged headBlockIndex log.authority (!c.newImport) .apply)
    log.transactions c
  runAll (processRewarded headBlockIndex .apply) log.rewards c

/-- The branch of `sync` for a block that was taken back. -/
def revertBlockLog (log : BlockLog) (c : Commander) : Checked Commander := do
  let blockIndex := c.headBlockIndex
  let c := { c with headBlockIndex := ActionLog.before c.headBlockIndex }
  let c ← runAll (processLogged blockIndex log.authority (!c.newImport) .revert)
    log.transactions.reverse c
  let c ← runAll (processRewarded blockIndex .revert) log.rewards.reverse c
  if c.newImport then pure c else do
    require (c.blocks ≠ []) (.outOfRange "vector_loader::pop_back")
    pure { c with blocks := c.blocks.dropLast }

/-- What `sync` does with one entry of the log. -/
def processAction (info : LoggedTransaction) (c : Commander) : Checked Commander :=
  let first := decide (c.startIndex = 0)
  let c := { c with startIndex := info.index + 1 }
  match info.reverted, info.action with
  | false, .block log => c.applyBlockLog first log
  | false, .transaction log => processLogged (c.headBlockIndex + 1) "" false .apply log c
  | true, .block log => c.revertBlockLog log
  | true, .transaction log => processLogged (c.headBlockIndex + 1) "" false .revert log c

/-- One request of `sync` to a node with some log, and what it does with the answer. `sync`
repeats it while an answer is full. -/
def request (log : ActionLog) (c : Commander) : Checked Commander := do
  let actions ← log.getActions ⟨c.startIndex, 10000⟩
  runAll processAction actions c

end Commander
end Publiq
