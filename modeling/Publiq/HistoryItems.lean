import Publiq.ExplorerRun
import Publiq.AccountHistory

/-! The history that the explorer shows of an account: the items of a block, from the entries that
the indices of the logs point to, and `AccountResponseFromRawAccount`, which asks for those of the
head block and of what waits behind it. -/
namespace Publiq
open Message Checked CommanderMessage

namespace CommanderMessage

inductive AccountHistoryItemType where
  | received
  | receivedFee
  | sent
  | sentFee
  | sponsored
  | rewarded
  deriving DecidableEq

/-- The details of an item, a message of its own for each kind. -/
inductive AccountHistoryDetails where
  | received (source message transactionHash : String)
  | receivedFee (source transactionHash : String)
  | sent (target message transactionHash : String)
  | sentFee (target transactionHash : String)
  | sponsored (transactionHash : String) (startTimePoint endTimePoint : ℤ) (uri : String)
  | rewarded (rewardType : RewardType)
  deriving DecidableEq

structure AccountHistoryItem where
  blockIndex : UInt64
  confirmations : UInt64
  itemType : AccountHistoryItemType
  timestamp : ℤ
  amount : Message.Coin
  details : AccountHistoryDetails
  deriving DecidableEq

structure AccountResponse where
  address : String
  balance : Message.Coin
  confirmedBalance : Message.Coin
  unconfirmedReceived : Message.Coin
  unconfirmedSent : Message.Coin
  deriving DecidableEq

end CommanderMessage

section History
variable (headBlockIndex blockIndex : UInt64) (address : String)

def historyItem (itemType : AccountHistoryItemType) (timestamp : ℤ) (amount : Message.Coin)
    (details : AccountHistoryDetails) : AccountHistoryItem :=
  ⟨blockIndex, headBlockIndex - blockIndex + 1, itemType, timestamp, amount, details⟩

/-- The items of `process_history_transactions` for what a transaction does. -/
def actionItems (log : TransactionLog) : List AccountHistoryItem :=
  match log.action with
  | .transfer tf =>
      (if tf.target = address then
        [historyItem headBlockIndex blockIndex .received log.timeSigned tf.amount
          (.received tf.source tf.message log.transactionHash)] else []) ++
      (if tf.source = address then
        [historyItem headBlockIndex blockIndex .sent log.timeSigned tf.amount
          (.sent tf.target tf.message log.transactionHash)] else [])
  | .sponsorContentUnit scu =>
      if scu.sponsorAddress = address then
        [historyItem headBlockIndex blockIndex .sponsored log.timeSigned scu.amount
          (.sponsored log.transactionHash scu.startTimePoint
            (scu.startTimePoint + 3600 * scu.hours.toNat) scu.uri)] else []
  | _ => []

/-- The items of `process_history_transactions` for the fee. -/
def feeItems (authority : String) (log : TransactionLog) (info : TransactionInfo) :
    List AccountHistoryItem :=
  (if info.source = address ∧ log.fee ≠ 0 then
    [historyItem headBlockIndex blockIndex .sentFee log.timeSigned log.fee
      (.sentFee authority log.transactionHash)] else []) ++
  (if authority = address ∧ log.fee ≠ 0 then
    [historyItem headBlockIndex blockIndex .receivedFee log.timeSigned log.fee
      (.receivedFee info.source log.transactionHash)] else [])

/-- `vector_loader::at`. -/
def loaderAt {α : Type} (log : List α) (index : ℕ) : Checked α :=
  match log[index]? with
  | some entry => .ok entry
  | none => .error (.outOfRange "vector_loader::at")

def overEntries {α : Type} (il : IndexedLog α)
    (itemsOf : α → Checked (List AccountHistoryItem)) (result : List AccountHistoryItem) :
    Checked (List AccountHistoryItem) :=
  match il.index[blockIndex.toNat]? with
  | none => .error (.outOfRange "map_loader::at")
  | some value =>
      runAll (fun index result => do
        let entry ← loaderAt il.log index
        let items ← itemsOf entry
        pure (result ++ items)) (List.range' value.first value.second) result

/-- The authority of a block, unless there is no such block yet. -/
def authorityOf (blocks : List BlockInfo) : String :=
  (blocks[blockIndex.toNat]?.map BlockInfo.authority).getD ""

/-- The body of the loop of `process_history_transactions`. -/
def transactionItems (blocks : List BlockInfo) (log : TransactionLog) :
    Checked (List AccountHistoryItem) := do
  let info ← transactionInfo log
  pure (actionItems headBlockIndex blockIndex address log ++
    feeItems headBlockIndex blockIndex address (authorityOf blockIndex blocks) log info)

/-- `process_history_transactions`. -/
def processHistoryTransactions (blocks : List BlockInfo) (il : IndexedLog TransactionLog) :
    List AccountHistoryItem → Checked (List AccountHistoryItem) :=
  overEntries blockIndex il (transactionItems headBlockIndex blockIndex address blocks)

/-- `process_history_rewards`. -/
def processHistoryRewards (blocks : List BlockInfo) (il : IndexedLog Reward) :
    List AccountHistoryItem → Checked (List AccountHistoryItem) :=
  overEntries blockIndex il fun reward => do
    let block ← loaderAt blocks blockIndex.toNat
    pure [historyItem headBlockIndex blockIndex .rewarded block.timeSigned reward.amount
      (.rewarded reward.rewardType)]

end History

def indexedBlocks (index : Std.ExtTreeMap ℕ NumberPair) : AccountHistory.Blocks :=
  Std.ExtTreeSet.ofList (index.keys.map UInt64.ofNat)

namespace Explorer

def showVisit (headBlockIndex : UInt64) (address : String) (e : Explorer) (visit : HistoryVisit)
    (result : List AccountHistoryItem) : Checked (List AccountHistoryItem) :=
  match visit with
  | .transactions block =>
      processHistoryTransactions headBlockIndex block address e.blocks
        (e.files.transactions address) result
  | .rewards block =>
      processHistoryRewards headBlockIndex block e.blocks (e.files.rewards address) result

/-- `get_history`: the items of the blocks that are visited. -/
def getHistory (headBlockIndex blockStart blockCount : UInt64) (address : String) (e : Explorer) :
    Checked (List AccountHistoryItem) :=
  runAll (e.showVisit headBlockIndex address)
    (AccountHistory.getHistory blockStart blockCount
      (indexedBlocks (e.files.transactions address).index)
      (indexedBlocks (e.files.rewards address).index)) []

/-- What `AccountResponseFromRawAccount` adds up of one item: received and sent. -/
def addUnconfirmed (item : AccountHistoryItem) (sums : Publiq.Coin × Publiq.Coin) :
    Checked (Publiq.Coin × Publiq.Coin) :=
  if item.confirmations = 0 then do
    let temp ← Coin.ofMessage item.amount
    if item.itemType = .received ∨ item.itemType = .receivedFee ∨ item.itemType = .rewarded then
      pure (sums.1 + temp, sums.2)
    else pure (sums.1, sums.2 + temp)
  else pure sums

/-- `AccountResponseFromRawAccount`. -/
def accountResponse (account : Account) (e : Explorer) : Checked AccountResponse := do
  let headIndex := UInt64.ofNat e.files.headBlockIndex
  let history ← e.getHistory headIndex headIndex 2 account.address
  let (received, sent) ← runAll addUnconfirmed history (0, 0)
  let balance ← Coin.ofMessage account.balance
  let confirmed ← (balance + sent).sub received
  pure ⟨account.address, account.balance, confirmed.toMessage, received.toMessage, sent.toMessage⟩

end Explorer

section Visits
open AccountHistory

def Numbers (bound : ℕ) (index : Std.ExtTreeMap ℕ NumberPair) : Prop :=
  ∀ k ∈ index, k < bound

variable {tx rw index : Std.ExtTreeMap ℕ NumberPair} {bound head : ℕ}

theorem mem_indexedBlocks (numbers : Numbers bound index) (fits : bound ≤ 2 ^ 64)
    {block : UInt64} : block ∈ indexedBlocks index ↔ block.toNat ∈ index := by
  unfold indexedBlocks
  rw [Std.ExtTreeSet.mem_ofList, List.contains_iff_mem, List.mem_map]
  constructor
  · rintro ⟨k, member, rfl⟩
    have held := Std.ExtTreeMap.mem_keys.mp member
    have small : k < 2 ^ 64 := (numbers k held).trans_le fits
    rwa [UInt64.toNat_ofNat_of_lt' small]
  · intro held
    exact ⟨block.toNat, Std.ExtTreeMap.mem_keys.mpr held, UInt64.ofNat_toNat⟩

theorem mem_select_two (fits : head + 2 < 2 ^ 64) {blocks : Blocks} {block : UInt64} :
    block ∈ select (UInt64.ofNat head) 2 blocks ↔
      block ∈ blocks ∧ head ≤ block.toNat ∧ block.toNat < head + 2 := by
  have start : (UInt64.ofNat head).toNat = head := UInt64.toNat_ofNat_of_lt' (by
    change head < 2 ^ 64
    omega)
  have stop : (UInt64.ofNat head + 2).toNat = head + 2 := by
    rw [UInt64.toNat_add, start]
    change (head + 2) % 2 ^ 64 = _
    omega
  unfold select
  rw [Std.ExtTreeSet.mem_filter]
  simp only [Std.ExtTreeSet.get_eq, Bool.and_eq_true, Bool.or_eq_true, decide_eq_true_eq,
    ge_iff_le, gt_iff_lt, UInt64.le_iff_toNat_le, UInt64.lt_iff_toNat_lt, start, stop]
  constructor
  · rintro ⟨member, low, high | wrapped⟩
    · exact ⟨member, low, high⟩
    · omega
  · rintro ⟨member, low, high⟩
    exact ⟨member, low, .inl high⟩

/-- The head block and the one that is waited for are visited in their order. -/
theorem getHistory_two (fits : head + 2 < 2 ^ 64) (tx rw : Blocks) :
    AccountHistory.getHistory (UInt64.ofNat head) 2 tx rw =
      visitBoth tx rw head ++ visitBoth tx rw (head + 1) := by
  have misses : ∀ blocks : Blocks, lastBlock ∉ select (UInt64.ofNat head) 2 blocks ∧
      Misses (select (UInt64.ofNat head) 2 blocks) 0 head ∧
      Misses (select (UInt64.ofNat head) 2 blocks) (head + 2) (2 ^ 64) := by
    intro blocks
    refine ⟨fun member => ?_, fun block member => ?_, fun block member => ?_⟩
    · have range := ((mem_select_two fits).mp member).2
      change _ ∧ 18446744073709551615 < head + 2 at range
      omega
    · have range := ((mem_select_two fits).mp member).2
      omega
    · have range := ((mem_select_two fits).mp member).2
      omega
  obtain ⟨txLast, txBelow, txAbove⟩ := misses tx
  obtain ⟨rwLast, rwBelow, rwAbove⟩ := misses rw
  have same : ∀ n, head ≤ n → n < head + 2 →
      visitBoth (select (UInt64.ofNat head) 2 tx) (select (UInt64.ofNat head) 2 rw) n =
        visitBoth tx rw n := by
    intro n low high
    have value : (UInt64.ofNat n).toNat = n := UInt64.toNat_ofNat_of_lt' (by
      change n < 2 ^ 64
      omega)
    have selected : ∀ blocks : Blocks, UInt64.ofNat n ∈ select (UInt64.ofNat head) 2 blocks ↔
        UInt64.ofNat n ∈ blocks := fun blocks => by
      rw [mem_select_two fits, value]
      exact and_iff_left ⟨low, high⟩
    simp only [visitBoth, visitTransactions, visitRewards, selected]
  unfold AccountHistory.getHistory
  rw [walk_of_notMem_last txLast rwLast, plainMerge,
    inOrder_append _ _ (Nat.zero_le head) (by omega : head ≤ 2 ^ 64),
    inOrder_append _ _ (Nat.le_add_right head 2) (by omega : head + 2 ≤ 2 ^ 64),
    inOrder_nil (by omega) txBelow rwBelow, inOrder_nil le_rfl txAbove rwAbove,
    List.nil_append, List.append_nil, inOrder, Nat.add_sub_cancel_left]
  change visitBoth _ _ head ++ (visitBoth _ _ (head + 1) ++ []) = _
  rw [List.append_nil, same head le_rfl (by omega), same (head + 1) (by omega) (by omega)]

end Visits

section Entries
variable {α : Type} {itemsOf : α → Checked (List AccountHistoryItem)}
  {items : α → List AccountHistoryItem} {il : IndexedLog α}

theorem runAll_entries {log : List α} {first count : ℕ} (enough : first + count ≤ log.length)
    (each : ∀ entry ∈ (log.drop first).take count, itemsOf entry = .ok (items entry))
    (result : List AccountHistoryItem) :
    runAll (fun index result => do
        let entry ← loaderAt log index
        let items ← itemsOf entry
        pure (result ++ items)) (List.range' first count) result =
      (.ok (result ++ ((log.drop first).take count).flatMap items) : Checked _) := by
  induction count generalizing first result with
  | zero =>
      rw [List.take_zero, List.flatMap_nil, List.append_nil]
      rfl
  | succ count ih =>
      have inside : first < log.length := by omega
      have split : (log.drop first).take (count + 1) =
          log[first] :: (log.drop (first + 1)).take count := by
        rw [List.drop_eq_getElem_cons inside, List.take_succ_cons]
      rw [split] at each ⊢
      have here : loaderAt log first = .ok log[first] := by
        unfold loaderAt
        rw [List.getElem?_eq_getElem inside]
      rw [List.range'_succ, runAll_cons, here, ok_bind, each _ List.mem_cons_self, ok_bind,
        List.flatMap_cons, ← List.append_assoc]
      exact ih (by omega) (fun entry member => each entry (List.mem_cons_of_mem _ member)) _

theorem overEntries_ok {block : UInt64} {value : NumberPair}
    (held : il.index[block.toNat]? = some value)
    (enough : value.first + value.second ≤ il.log.length)
    (each : ∀ entry ∈ (il.log.drop value.first).take value.second,
      itemsOf entry = .ok (items entry)) (result : List AccountHistoryItem) :
    overEntries block il itemsOf result =
      .ok (result ++ ((il.log.drop value.first).take value.second).flatMap items) := by
  unfold overEntries
  rw [held]
  exact runAll_entries enough each result

theorem overEntries_lost {block : UInt64} {value : NumberPair}
    (held : il.index[block.toNat]? = some value) (some : value.second ≠ 0)
    (lost : il.log = []) (result : List AccountHistoryItem) :
    overEntries block il itemsOf result = .error (.outOfRange "vector_loader::at") := by
  unfold overEntries
  rw [held, lost]
  obtain ⟨count, more⟩ := Nat.exists_eq_succ_of_ne_zero some
  dsimp only
  rw [more, List.range'_succ]
  rfl

theorem countBelow_add_countAt_le (k : ℕ) (entries : List (ℕ × α)) :
    IndexedLog.countBelow k entries + IndexedLog.countAt k entries ≤ entries.length := by
  induction entries using List.reverseRecOn with
  | nil => exact le_rfl
  | append_singleton rest entry ih =>
      rw [IndexedLog.countBelow_concat, IndexedLog.countAt_concat, List.length_append,
        List.length_singleton]
      by_cases here : entry.1 = k
      · rw [if_neg (by omega), if_pos here]
        omega
      · rw [if_neg here]
        split_ifs <;> omega

/-- Where the entries of a block come last, they are the end of the log. -/
theorem IndexedLog.Represents.last {before last : List (ℕ × α)} {k : ℕ}
    (represents : il.Represents (before ++ last)) (below : ∀ entry ∈ before, entry.1 < k)
    (here : ∀ entry ∈ last, entry.1 = k) (some : last ≠ []) :
    ∃ value, il.index[k]? = .some value ∧ value.first + value.second ≤ il.log.length ∧
      (il.log.drop value.first).take value.second = last.map Prod.snd := by
  have countBefore : IndexedLog.countAt k before = 0 :=
    List.countP_eq_zero.mpr fun entry member => by
      have lt := below entry member
      simp only [decide_eq_true_eq]
      omega
  have countLast : IndexedLog.countAt k last = last.length :=
    List.countP_eq_length.mpr fun entry member => decide_eq_true (here entry member)
  have belowBefore : IndexedLog.countBelow k before = before.length :=
    List.countP_eq_length.mpr fun entry member => decide_eq_true (below entry member)
  have belowLast : IndexedLog.countBelow k last = 0 :=
    List.countP_eq_zero.mpr fun entry member => by
      have eq := here entry member
      simp only [decide_eq_true_eq]
      omega
  have count : IndexedLog.countAt k (before ++ last) = last.length := by
    rw [IndexedLog.countAt, List.countP_append]
    exact (congrArg₂ _ countBefore countLast).trans (Nat.zero_add _)
  have first : IndexedLog.countBelow k (before ++ last) = before.length := by
    rw [IndexedLog.countBelow, List.countP_append]
    exact congrArg₂ _ belowBefore belowLast
  have positive : last.length ≠ 0 := fun none => some (List.length_eq_zero_iff.mp none)
  refine ⟨⟨before.length, last.length⟩, ?_, ?_, ?_⟩
  · rw [represents.2 k, count, first, if_neg positive]
  · rw [represents.1, List.length_map, List.length_append]
  · rw [represents.1, List.map_append, List.drop_left' (List.length_map _),
      List.take_of_length_le (List.length_map _).le]

end Entries

section Index
variable {α : Type} {entries : List (ℕ × α)} {il : IndexedLog α} {k bound : ℕ}

theorem countAt_eq_zero_of_lt (below : ∀ entry ∈ entries, entry.1 < bound) (high : bound ≤ k) :
    IndexedLog.countAt k entries = 0 :=
  List.countP_eq_zero.mpr fun entry member => by
    have lt := below entry member
    simp only [decide_eq_true_eq]
    omega

theorem numbers_of_counts (counts : CountsEntries entries il)
    (below : ∀ entry ∈ entries, entry.1 < bound) : Numbers bound il.index := by
  intro k member
  by_contra high
  have none := counts k
  rw [countAt_eq_zero_of_lt below (Nat.le_of_not_lt high), if_pos rfl, Option.map_eq_none_iff]
    at none
  rw [Std.ExtTreeMap.mem_iff_isSome_getElem?, none] at member
  cases member

theorem counts_of_represents (represents : il.Represents entries) : CountsEntries entries il := by
  intro k
  rw [represents.2 k]
  split_ifs <;> rfl

theorem mem_index_iff (counts : CountsEntries entries il) :
    k ∈ il.index ↔ IndexedLog.countAt k entries ≠ 0 := by
  rw [Std.ExtTreeMap.mem_iff_isSome_getElem?, ← Option.isSome_map, counts k]
  by_cases none : IndexedLog.countAt k entries = 0
  · rw [if_pos none]
    exact iff_of_false Bool.false_ne_true (not_not.mpr none)
  · rw [if_neg none]
    exact iff_of_true rfl none

end Index

end Publiq
