import Publiq.AccountLogs
import Publiq.CommanderStorages

/-! `storage_manager`: a program of its own that rebuilds from the action log of a node which
storages hold a file and how much it is read. -/
namespace Publiq
open Message Checked

/-- `ManagerMessage::FileInfo`. -/
structure FileInfo where
  uri : String
  replCount : UInt64
  lastReport : UInt64
  channelAddress : String
  allStorages : List String
  ownStorages : List String
  deriving DecidableEq

/-- `m_file_usage_map`: the views of the files by the block. -/
abbrev ViewsByBlock := Std.ExtTreeMap UInt64 (Std.ExtTreeMap String UInt64)

/-- `manager` with the `log_index` of its daemon. The usage map is in memory only. -/
structure StorageManager where
  files : Std.ExtTreeMap String FileInfo
  storages : Finset String
  headBlockIndex : UInt64
  logIndex : ℕ
  fileUsageMap : ViewsByBlock

namespace StorageManager

def fresh : StorageManager := ⟨∅, ∅, 0, 0, ∅⟩

abbrev Stopped := Failure × ViewsByBlock

def noteFile (channelAddress : String) (files : Std.ExtTreeMap String FileInfo) (uri : String) :
    Std.ExtTreeMap String FileInfo :=
  if files.contains uri then files else files.insert uri ⟨uri, 0, 0, channelAddress, [], []⟩

/-- `process_unit_transactions`. A revert keeps the files, which other units may have. -/
def processUnitTransactions (log : TransactionLog) (type : LoggingType) (m : StorageManager) :
    StorageManager :=
  match log.action, type with
  | .contentUnit unit, .apply =>
      { m with files := unit.fileUris.foldl (noteFile unit.channelAddress) m.files }
  | _, _ => m

def stores (update : StorageUpdate) (type : LoggingType) : Bool :=
  (update.status = .store ∧ type = .apply) ∨ (update.status = .remove ∧ type = .revert)

def addOnce (address : String) (addresses : List String) : List String :=
  if address ∈ addresses then addresses else addresses ++ [address]

/-- Change the holders of a file, the own ones among them. -/
def FileInfo.updateStorages (storages : Finset String) (update : StorageUpdate)
    (type : LoggingType) (fileInfo : FileInfo) : FileInfo :=
  let address := update.storageAddress
  if stores update type then
    { fileInfo with
      allStorages := addOnce address fileInfo.allStorages
      ownStorages := if address ∈ storages then addOnce address fileInfo.ownStorages
        else fileInfo.ownStorages }
  else
    { fileInfo with
      allStorages := fileInfo.allStorages.filter (· ≠ address)
      ownStorages := fileInfo.ownStorages.filter (· ≠ address) }

/-- `process_storage_transactions`. An update of a file that is not known is passed over. -/
def processStorageTransactions (log : TransactionLog) (type : LoggingType) (m : StorageManager) :
    StorageManager :=
  match log.action with
  | .storageUpdate update =>
      { m with
        files := m.files.modify update.fileUri (FileInfo.updateStorages m.storages update type) }
  | _ => m

def addViews (blockIndex : UInt64) (fileUri : String) (usage : ViewsByBlock) (count : UInt64) :
    ViewsByBlock :=
  let ofBlock := usage.getD blockIndex ∅
  usage.insert blockIndex (ofBlock.insert fileUri (ofBlock.getD fileUri 0 + count))

def processFileItem (blockIndex : UInt64) (item : ServiceStatisticsFile) (m : StorageManager) :
    Except Stopped StorageManager :=
  if item.unitUri = "" then pure m
  else
    let usage := (item.countItems.map ServiceStatisticsCount.count).foldl
      (addViews blockIndex item.fileUri) m.fileUsageMap
    match m.files[item.fileUri]? with
    | none => .error (.outOfRange "map_loader::at", usage)
    | some fileInfo => pure { m with
        files := m.files.insert item.fileUri { fileInfo with lastReport := blockIndex }
        fileUsageMap := usage }

/-- `process_statistics_transactions`. A revert forgets the whole block. -/
def processStatisticsTransactions (blockIndex : UInt64) (log : TransactionLog)
    (type : LoggingType) (m : StorageManager) : Except Stopped StorageManager :=
  match log.action, type with
  | .serviceStatistics statistics, .apply =>
      runAll (processFileItem blockIndex) statistics.fileItems m
  | .serviceStatistics _, .revert =>
      pure { m with fileUsageMap := m.fileUsageMap.erase blockIndex }
  | _, _ => pure m

def processLogged (blockIndex : UInt64) (type : LoggingType) (log : TransactionLog)
    (m : StorageManager) : Except Stopped StorageManager :=
  processStatisticsTransactions blockIndex log type
    (processStorageTransactions log type (processUnitTransactions log type m))

/-- What `sync` does with one entry of the action log. Only blocks matter, and each of them is
counted, the genesis block too. -/
def processAction (info : LoggedTransaction) (m : StorageManager) :
    Except Stopped StorageManager :=
  let m := { m with logIndex := info.index + 1 }
  match info.reverted, info.action with
  | false, .block log =>
      runAll (processLogged (m.headBlockIndex + 1) .apply) log.transactions
        { m with headBlockIndex := m.headBlockIndex + 1 }
  | true, .block log =>
      runAll (processLogged m.headBlockIndex .revert) log.transactions.reverse
        { m with headBlockIndex := m.headBlockIndex - 1 }
  | _, .transaction _ => pure m

def countOf (info : LoggedTransaction) : ℕ :=
  match info.action with
  | .block log => 1 + log.rewards.length + log.transactions.length +
      log.unitUriImpacts.length + log.appliedSponsorItems.length
  | .transaction _ => 1

def maxCount : ℕ := 10000

/-- The responses of the node, until one of them is not full. -/
def consumed : List (List LoggedTransaction) → List LoggedTransaction
  | [] => []
  | response :: rest =>
      if (response.map countOf).sum < maxCount then response else response ++ consumed rest

/-- `sync`, which processes every response before it makes the next request. -/
def sync : List (List LoggedTransaction) → StorageManager → Except Stopped StorageManager
  | [], m => pure m
  | response :: rest, m => do
      let m ← runAll processAction response m
      if (response.map countOf).sum < maxCount then pure m else sync rest m

/-- `import_storage` of a storage that is not managed yet; for others it only sends commands. -/
def importStorage (address : String) (m : StorageManager) : StorageManager :=
  if address ∈ m.storages then m
  else
    { m with
      storages := insert address m.storages
      files := m.files.map fun _ fileInfo =>
        if address ∈ fileInfo.allStorages then
          { fileInfo with ownStorages := fileInfo.ownStorages ++ [address] }
        else fileInfo }

def addUsage (ofBlock sums : Std.ExtTreeMap String UInt64) : Std.ExtTreeMap String UInt64 :=
  ofBlock.foldl (fun sums fileUri views => sums.insert fileUri (sums.getD fileUri 0 + views)) sums

/-- The loop of `manager::run` over the blocks of the last day, down from an index. -/
def sumUsage (usage : ViewsByBlock) (low : UInt64) :
    ℕ → Std.ExtTreeMap String UInt64 → Std.ExtTreeMap String UInt64
  | 0, sums => sums
  | index + 1, sums =>
      if low < UInt64.ofNat (index + 1) then
        sumUsage usage low index (addUsage (usage.getD (UInt64.ofNat (index + 1)) ∅) sums)
      else sums

/-- `usage_map` of `manager::run`. The lower end of the day is an unsigned difference. -/
def usageMap (m : StorageManager) : Std.ExtTreeMap String UInt64 :=
  sumUsage m.fileUsageMap (m.headBlockIndex - 144) m.headBlockIndex.toNat ∅

def forgetOld (m : StorageManager) : StorageManager :=
  { m with fileUsageMap := m.fileUsageMap.filter fun index _ => ¬ index < m.headBlockIndex - 144 }

/-- What the manager has after some responses, imports and stops, beside what stands in the
log that it has read. -/
inductive Reached : StorageManager → List LogPacket → Prop where
  | fresh : Reached fresh []
  | sync {m after : StorageManager} {standing now : List LogPacket}
      {responses : List (List LoggedTransaction)} (before : Reached m standing)
      (logged : followAll standing (consumed responses) = some now)
      (done : m.sync responses = .ok after) : Reached after now
  | stopped {m : StorageManager} {standing : List LogPacket}
      {responses : List (List LoggedTransaction)} {stopped : Stopped} (before : Reached m standing)
      (failed : m.sync responses = .error stopped) :
      Reached { m with fileUsageMap := stopped.2 } standing
  | restarted {m : StorageManager} {standing : List LogPacket} (before : Reached m standing) :
      Reached { m with fileUsageMap := ∅ } standing
  | imported {m : StorageManager} {standing : List LogPacket} (address : String)
      (before : Reached m standing) : Reached (m.importStorage address) standing
  | forgot {m : StorageManager} {standing : List LogPacket} (before : Reached m standing) :
      Reached m.forgetOld standing

def blocksOf (standing : List LogPacket) : List BlockLog :=
  standing.filterMap fun packet =>
    match packet with
    | .block log => some log
    | .transaction _ => none

def headNumber (standing : List LogPacket) : ℕ := blockCount standing - 1

def chainDocuments (standing : List LogPacket) : Documents :=
  ((blocksOf standing).flatMap BlockLog.transactions).foldl
    (fun docs log => log.action.shelve docs) default

def channelViews (fileUri : String) (log : BlockLog) : ℕ :=
  (log.transactions.map fun transaction =>
    match transaction.action with
    | .serviceStatistics statistics =>
        ((statistics.fileItems.filter fun item =>
          item.unitUri ≠ "" ∧ item.fileUri = fileUri).map fun item =>
            (item.countItems.map fun countItem => countItem.count.toNat).sum).sum
    | _ => 0).sum

/-- The holders of a file are listed once, the own ones are those that are managed. -/
structure FileTidy (storages : Finset String) (fileInfo : FileInfo) : Prop where
  allNodup : fileInfo.allStorages.Nodup
  ownNodup : fileInfo.ownStorages.Nodup
  own_iff : ∀ address, address ∈ fileInfo.ownStorages ↔
    address ∈ fileInfo.allStorages ∧ address ∈ storages

def Tidy (m : StorageManager) : Prop :=
  ∀ (uri : String) (fileInfo : FileInfo), m.files[uri]? = some fileInfo →
    FileTidy m.storages fileInfo

/-- The manager shows what stands in the log that it has read. -/
structure Replayed (m : StorageManager) (standing : List LogPacket) : Prop where
  tidy : m.Tidy
  holders : ∀ (uri : String) (fileInfo : FileInfo), m.files[uri]? = some fileInfo → ∀ address,
    address ∈ fileInfo.allStorages ↔ (chainDocuments standing).storageHasUri uri address = true
  head : m.headBlockIndex.toNat = headNumber standing
  usage : ∀ fileUri, (m.usageMap.getD fileUri 0).toNat =
    (((blocksOf standing).reverse.take 144).map (channelViews fileUri)).sum

/-- What the transactions of a block leave as it was. -/
structure Keeps (m after : StorageManager) : Prop where
  head : after.headBlockIndex = m.headBlockIndex
  tidy : m.Tidy → after.Tidy

theorem Keeps.refl (m : StorageManager) : Keeps m m := ⟨rfl, id⟩

theorem Keeps.trans {a b c : StorageManager} (ab : Keeps a b) (bc : Keeps b c) : Keeps a c :=
  ⟨bc.head.trans ab.head, bc.tidy ∘ ab.tidy⟩

theorem tidy_noteFile {storages : Finset String} {files : Std.ExtTreeMap String FileInfo}
    (tidy : ∀ (uri : String) (fileInfo : FileInfo), files[uri]? = some fileInfo →
      FileTidy storages fileInfo) (channelAddress new uri : String) (fileInfo : FileInfo)
    (found : (noteFile channelAddress files new)[uri]? = some fileInfo) :
    FileTidy storages fileInfo := by
  unfold noteFile at found
  split_ifs at found
  · exact tidy uri fileInfo found
  · rw [Std.ExtTreeMap.getElem?_insert] at found
    split_ifs at found
    · obtain rfl := Option.some.inj found
      exact ⟨List.nodup_nil, List.nodup_nil, fun _ => by simp⟩
    · exact tidy uri fileInfo found

theorem keeps_unit (log : TransactionLog) (type : LoggingType) (m : StorageManager) :
    Keeps m (processUnitTransactions log type m) := by
  unfold processUnitTransactions
  split
  · rename_i unit _
    refine ⟨rfl, fun tidy => ?_⟩
    change ∀ (uri : String) (fileInfo : FileInfo),
      (unit.fileUris.foldl (noteFile unit.channelAddress) m.files)[uri]? = some fileInfo →
        FileTidy m.storages fileInfo
    have noted : ∀ uris : List String, ∀ files : Std.ExtTreeMap String FileInfo,
        (∀ (uri : String) (fileInfo : FileInfo), files[uri]? = some fileInfo →
          FileTidy m.storages fileInfo) →
        ∀ (uri : String) (fileInfo : FileInfo),
          (uris.foldl (noteFile unit.channelAddress) files)[uri]? = some fileInfo →
            FileTidy m.storages fileInfo := by
      intro uris
      induction uris with
      | nil => exact fun _ h => h
      | cons uri rest ih => exact fun files h => ih _ (tidy_noteFile h unit.channelAddress uri)
    exact noted unit.fileUris m.files tidy
  · exact Keeps.refl m

theorem mem_addOnce {address other : String} {addresses : List String} :
    other ∈ addOnce address addresses ↔ other ∈ addresses ∨ other = address := by
  unfold addOnce
  split_ifs with held
  · refine ⟨.inl, ?_⟩
    rintro (member | rfl)
    · exact member
    · exact held
  · rw [List.mem_append, List.mem_singleton]

theorem nodup_addOnce {address : String} {addresses : List String} (nodup : addresses.Nodup) :
    (addOnce address addresses).Nodup := by
  unfold addOnce
  split_ifs with held
  · exact nodup
  · exact nodup.append (List.nodup_singleton address) (List.disjoint_singleton.mpr held)

theorem FileTidy.updateStorages {storages : Finset String} {fileInfo : FileInfo}
    (tidy : FileTidy storages fileInfo) (update : StorageUpdate) (type : LoggingType) :
    FileTidy storages (FileInfo.updateStorages storages update type fileInfo) := by
  obtain ⟨allNodup, ownNodup, own_iff⟩ := tidy
  unfold FileInfo.updateStorages
  dsimp only
  by_cases storing : stores update type = true
  · rw [if_pos storing]
    by_cases managed : update.storageAddress ∈ storages
    · rw [if_pos managed]
      refine ⟨nodup_addOnce allNodup, nodup_addOnce ownNodup, fun address => ?_⟩
      rw [mem_addOnce, mem_addOnce, own_iff]
      constructor
      · rintro (⟨held, own⟩ | rfl)
        · exact ⟨.inl held, own⟩
        · exact ⟨.inr rfl, managed⟩
      · rintro ⟨held | rfl, own⟩
        · exact .inl ⟨held, own⟩
        · exact .inr rfl
    · rw [if_neg managed]
      refine ⟨nodup_addOnce allNodup, ownNodup, fun address => ?_⟩
      rw [mem_addOnce, own_iff]
      constructor
      · exact fun ⟨held, own⟩ => ⟨.inl held, own⟩
      · rintro ⟨held | rfl, own⟩
        · exact ⟨held, own⟩
        · exact absurd own managed
  · rw [if_neg storing]
    refine ⟨allNodup.filter _, ownNodup.filter _, fun address => ?_⟩
    rw [List.mem_filter, List.mem_filter, own_iff, and_right_comm]

theorem keeps_storage (log : TransactionLog) (type : LoggingType) (m : StorageManager) :
    Keeps m (processStorageTransactions log type m) := by
  unfold processStorageTransactions
  split
  · rename_i update _
    refine ⟨rfl, fun tidy uri fileInfo found => ?_⟩
    change (m.files.modify update.fileUri
      (FileInfo.updateStorages m.storages update type))[uri]? = some fileInfo at found
    rw [Std.ExtTreeMap.getElem?_modify] at found
    split_ifs at found with same
    · obtain ⟨before, held, rfl⟩ := Option.map_eq_some_iff.mp found
      exact (tidy _ before held).updateStorages update type
    · exact tidy uri fileInfo found
  · exact Keeps.refl m

theorem keeps_fileItem {blockIndex : UInt64} {item : ServiceStatisticsFile}
    {m after : StorageManager} (run : processFileItem blockIndex item m = .ok after) :
    Keeps m after := by
  unfold processFileItem at run
  by_cases own : item.unitUri = ""
  · rw [if_pos own] at run
    obtain rfl := pure_ok_iff.mp run
    exact Keeps.refl m
  · rw [if_neg own] at run
    cases held : m.files[item.fileUri]? with
    | none =>
        rw [held] at run
        cases run
    | some fileInfo =>
        rw [held] at run
        obtain rfl := pure_ok_iff.mp run
        refine ⟨rfl, fun tidy uri other found => ?_⟩
        change (m.files.insert item.fileUri
          { fileInfo with lastReport := blockIndex })[uri]? = some other at found
        rw [Std.ExtTreeMap.getElem?_insert] at found
        split_ifs at found
        · obtain rfl := Option.some.inj found
          obtain ⟨allNodup, ownNodup, own_iff⟩ := tidy item.fileUri fileInfo held
          exact ⟨allNodup, ownNodup, own_iff⟩
        · exact tidy uri other found

theorem keeps_runAll {α : Type} {step : α → StorageManager → Except Stopped StorageManager}
    (each : ∀ a m after, step a m = .ok after → Keeps m after) {elements : List α}
    {m after : StorageManager} (run : runAll step elements m = .ok after) : Keeps m after :=
  runAll_invariant (I := Keeps m) (fun a _ s t kept step => kept.trans (each a s t step))
    (Keeps.refl m) run

theorem keeps_statistics {blockIndex : UInt64} {log : TransactionLog} {type : LoggingType}
    {m after : StorageManager}
    (run : processStatisticsTransactions blockIndex log type m = .ok after) : Keeps m after := by
  unfold processStatisticsTransactions at run
  split at run
  · exact keeps_runAll (fun _ _ _ => keeps_fileItem) run
  · obtain rfl := pure_ok_iff.mp run
    exact ⟨rfl, id⟩
  · obtain rfl := pure_ok_iff.mp run
    exact Keeps.refl m

theorem keeps_logged {blockIndex : UInt64} {type : LoggingType} {log : TransactionLog}
    {m after : StorageManager} (run : processLogged blockIndex type log m = .ok after) :
    Keeps m after :=
  (keeps_unit log type m).trans ((keeps_storage log type _).trans (keeps_statistics run))

theorem tidy_action {info : LoggedTransaction} {m after : StorageManager}
    (run : processAction info m = .ok after) (tidy : m.Tidy) : after.Tidy := by
  unfold processAction at run
  dsimp only at run
  split at run
  · exact (keeps_runAll (fun _ _ _ => keeps_logged) run).tidy tidy
  · exact (keeps_runAll (fun _ _ _ => keeps_logged) run).tidy tidy
  · obtain rfl := pure_ok_iff.mp run
    exact tidy

theorem head_action {info : LoggedTransaction} {m after : StorageManager}
    {standing now : List LogPacket} (logged : follow info standing = some now)
    (run : processAction info m = .ok after)
    (counts : m.headBlockIndex = UInt64.ofNat (blockCount standing)) :
    after.headBlockIndex = UInt64.ofNat (blockCount now) := by
  unfold processAction at run
  rcases follow_cases logged with
    ⟨index, log, rfl, _, rfl⟩ | ⟨index, log, rfl, _, rfl⟩ | ⟨index, packet, rfl, _, rfl⟩
  · rw [(keeps_runAll (fun _ _ _ => keeps_logged) run).head, blockCount_concat_block, UInt64.ofNat_add,
      ← counts]
    rfl
  · obtain rfl := pure_ok_iff.mp run
    rw [blockCount_concat_transaction]
    exact counts
  · cases packet with
    | block log =>
        rw [(keeps_runAll (fun _ _ _ => keeps_logged) run).head]
        rw [blockCount_concat_block, UInt64.ofNat_add] at counts
        change m.headBlockIndex - 1 = _
        rw [counts]
        exact UInt64.add_sub_cancel _ _
    | transaction log =>
        obtain rfl := pure_ok_iff.mp run
        rw [blockCount_concat_transaction] at counts
        exact counts

theorem begins_action {info : LoggedTransaction} {standing now : List LogPacket}
    (logged : follow info standing = some now)
    (begins : ∀ packet, standing.head? = some packet → ∃ log, packet = .block log) :
    ∀ packet, now.head? = some packet → ∃ log, packet = .block log := by
  rcases follow_cases logged with
    ⟨index, log, rfl, _, rfl⟩ | ⟨index, log, rfl, begun, rfl⟩ | ⟨index, packet, rfl, left, rfl⟩
  · exact SyncContext.head?_concat_block begins log
  · rw [List.head?_append_of_ne_nil _ begun]
    exact begins
  · exact SyncContext.head?_of_concat begins

/-- The order in the lists of a file, the count of the blocks, and a block to begin with. -/
structure Counts (m : StorageManager) (standing : List LogPacket) : Prop where
  tidy : m.Tidy
  head : m.headBlockIndex = UInt64.ofNat (blockCount standing)
  begins : ∀ packet, standing.head? = some packet → ∃ log, packet = .block log

theorem Counts.action {info : LoggedTransaction} {m after : StorageManager}
    {standing now : List LogPacket} (counts : Counts m standing)
    (logged : follow info standing = some now) (run : processAction info m = .ok after) :
    Counts after now :=
  ⟨tidy_action run counts.tidy, head_action logged run counts.head,
    begins_action logged counts.begins⟩

theorem Counts.actions {actions : List LoggedTransaction} {m after : StorageManager}
    {standing now : List LogPacket} (counts : Counts m standing)
    (logged : followAll standing actions = some now)
    (run : runAll processAction actions m = .ok after) : Counts after now := by
  induction actions generalizing m standing with
  | nil =>
      obtain rfl := Option.some.inj logged
      cases run
      exact counts
  | cons info rest ih =>
      unfold followAll at logged
      rw [List.foldlM_cons] at logged
      obtain ⟨between, first, logged⟩ := Option.bind_eq_some_iff.mp logged
      obtain ⟨mid, step, run⟩ := runAll_cons_ok_iff.mp run
      exact ih (counts.action first step) logged run

theorem sync_eq (responses : List (List LoggedTransaction)) (m : StorageManager) :
    m.sync responses = runAll processAction (consumed responses) m := by
  induction responses generalizing m with
  | nil => rfl
  | cons response rest ih =>
      rw [sync, consumed]
      by_cases short : (response.map countOf).sum < maxCount
      · simp only [if_pos short]
        exact bind_pure _
      · simp only [if_neg short]
        rw [runAll_append]
        exact bind_congr fun mid => ih mid

/-- A storage that comes under management becomes an own holder of what it has. -/
theorem Tidy.importStorage {m : StorageManager} (tidy : m.Tidy) (address : String) :
    (m.importStorage address).Tidy := by
  unfold StorageManager.importStorage
  by_cases managed : address ∈ m.storages
  · rw [if_pos managed]
    exact tidy
  · rw [if_neg managed]
    intro uri fileInfo found
    change (m.files.map fun _ fileInfo => if address ∈ fileInfo.allStorages then
      { fileInfo with ownStorages := fileInfo.ownStorages ++ [address] } else fileInfo)[uri]? =
        some fileInfo at found
    rw [Std.ExtTreeMap.getElem?_map] at found
    obtain ⟨before, held, rfl⟩ := Option.map_eq_some_iff.mp found
    obtain ⟨allNodup, ownNodup, own_iff⟩ := tidy uri before held
    have unowned : address ∉ before.ownStorages := fun own => managed ((own_iff address).mp own).2
    change FileTidy (insert address m.storages) _
    by_cases holds : address ∈ before.allStorages
    · rw [if_pos holds]
      refine ⟨allNodup, ownNodup.append (List.nodup_singleton address)
        (List.disjoint_singleton.mpr unowned), fun other => ?_⟩
      change other ∈ before.ownStorages ++ [address] ↔ other ∈ before.allStorages ∧ _
      rw [List.mem_append, List.mem_singleton, own_iff, Finset.mem_insert]
      constructor
      · rintro (⟨held, own⟩ | rfl)
        · exact ⟨held, .inr own⟩
        · exact ⟨holds, .inl rfl⟩
      · rintro ⟨held, rfl | own⟩
        · exact .inr rfl
        · exact .inl ⟨held, own⟩
    · rw [if_neg holds]
      refine ⟨allNodup, ownNodup, fun other => ?_⟩
      rw [own_iff, Finset.mem_insert]
      constructor
      · exact fun ⟨held, own⟩ => ⟨held, .inr own⟩
      · rintro ⟨held, rfl | own⟩
        · exact absurd held holds
        · exact ⟨held, own⟩

/-- In every state reached the lists of the files are in order, and every block that stands is
counted. -/
theorem Reached.counts {m : StorageManager} {standing : List LogPacket}
    (reached : Reached m standing) : Counts m standing := by
  induction reached with
  | fresh =>
      refine ⟨fun uri fileInfo found => ?_, rfl, fun packet first => ?_⟩
      · change (∅ : Std.ExtTreeMap String FileInfo)[uri]? = some fileInfo at found
        rw [Std.ExtTreeMap.getElem?_empty] at found
        cases found
      · cases first
  | sync _ logged done ih =>
      rw [sync_eq] at done
      exact ih.actions logged done
  | stopped _ _ ih => exact ⟨ih.tidy, ih.head, ih.begins⟩
  | restarted _ ih => exact ⟨ih.tidy, ih.head, ih.begins⟩
  | imported address _ ih =>
      refine ⟨ih.tidy.importStorage address, ?_, ih.begins⟩
      rw [← ih.head]
      unfold importStorage
      split_ifs <;> rfl
  | forgot _ ih => exact ⟨ih.tidy, ih.head, ih.begins⟩

/-- Once a block has been read, the manager never shows the number of the head block: its index is
one more, for it counts the genesis block, whose number is zero. -/
theorem never_replayed {m : StorageManager} {standing : List LogPacket}
    (reached : Reached m standing) (begun : standing ≠ []) : ¬ m.Replayed standing := by
  intro replayed
  have head := replayed.head
  have positive := SyncContext.blockCount_pos reached.counts.begins begun
  rw [reached.counts.head, UInt64.toNat_ofNat'] at head
  unfold headNumber at head
  omega

/-- A chain of less than a day has no views in the sums: the lower end wraps around. -/
theorem usageMap_short {m : StorageManager} (short : m.headBlockIndex < 144) :
    m.usageMap = ∅ := by
  unfold usageMap
  have bound := UInt64.lt_iff_toNat_lt.mp short
  change m.headBlockIndex.toNat < 144 at bound
  cases count : m.headBlockIndex.toNat with
  | zero => rfl
  | succ index =>
      rw [sumUsage, if_neg]
      rw [← count, UInt64.ofNat_toNat, UInt64.lt_iff_toNat_lt, UInt64.toNat_sub]
      change ¬ (2 ^ 64 - 144 + m.headBlockIndex.toNat) % 2 ^ 64 < m.headBlockIndex.toNat
      omega

section Examples

def genesisLog : BlockLog := ⟨"", "genesis", 0, 0, 0, [], [], [], []⟩

theorem genesis_read :
    Reached { fresh with headBlockIndex := 1, logIndex := 1 } [.block genesisLog] :=
  @Reached.sync _ _ _ _ [[⟨false, 0, .block genesisLog⟩]] .fresh rfl rfl

def storedLog : BlockLog :=
  ⟨"", "block", 1, 0, 600, [],
    [⟨0, .contentUnit ⟨"unit", 0, ["channel"], "channel", ["file"]⟩, "register", 0, 600⟩,
      ⟨0, .storageUpdate ⟨.store, "file", "storage"⟩, "store", 0, 600⟩], [], []⟩

def storedActions : List LoggedTransaction :=
  [⟨false, 0, .block genesisLog⟩, ⟨false, 1, .block storedLog⟩]

theorem stored_isOk : (fresh.sync [storedActions]).isOk = true := rfl

def storedManager : StorageManager := (okValue _ stored_isOk).importStorage "storage"

theorem stored_read : Reached storedManager [.block genesisLog, .block storedLog] :=
  .imported "storage" (@Reached.sync _ _ _ _ [storedActions] .fresh rfl (eq_okValue stored_isOk))

/-- The storage holds the file, as the chain says, but the manager is at block two. -/
theorem stored_never_replayed :
    storedManager.files["file"]? = some ⟨"file", 0, 0, "channel", ["storage"], ["storage"]⟩ ∧
      ¬ storedManager.Replayed [.block genesisLog, .block storedLog] :=
  ⟨by decide +kernel, never_replayed stored_read (List.cons_ne_nil _ _)⟩

/-- With the genesis block alone, the manager is at block one. -/
theorem genesis_not_replayed :
    ¬ ∀ (m : StorageManager) (standing : List LogPacket), Reached m standing → standing ≠ [] →
      m.Replayed standing := by
  intro claim
  have head := (claim _ _ genesis_read (List.cons_ne_nil _ _)).head
  exact absurd head (by decide)

end Examples

end StorageManager
end Publiq
