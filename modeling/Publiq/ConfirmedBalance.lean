import Publiq.WaitingEntries

/-! The confirmed balance: the response takes back what waits, from the items that the history
shows of it, where the balance has what the updates made of it. -/
namespace Publiq
open Message Checked CommanderMessage

namespace Explorer

def Adds (items : List AccountHistoryItem) (received sent : ℤ) : Prop :=
  ∀ sums : Publiq.Coin × Publiq.Coin, ∃ after, runAll addUnconfirmed items sums = .ok after ∧
    (after.1.value : ℤ) ≡ sums.1.value + received [ZMOD Coin.limit] ∧
    (after.2.value : ℤ) ≡ sums.2.value + sent [ZMOD Coin.limit]

theorem adds_nil : Adds [] 0 0 := by
  intro sums
  refine ⟨sums, rfl, ?_, ?_⟩
  · rw [add_zero]
  · rw [add_zero]

theorem Adds.append {first second : List AccountHistoryItem} {a b c d : ℤ}
    (one : Adds first a b) (other : Adds second c d) : Adds (first ++ second) (a + c) (b + d) := by
  intro sums
  obtain ⟨mid, run, received, sent⟩ := one sums
  obtain ⟨after, runs, more, less⟩ := other mid
  refine ⟨after, runAll_append_ok_iff.mpr ⟨mid, run, runs⟩, ?_, ?_⟩
  · rw [← add_assoc]
    exact more.trans (received.add_right c)
  · rw [← add_assoc]
    exact less.trans (sent.add_right d)

theorem adds_confirmed {items : List AccountHistoryItem}
    (confirmed : ∀ item ∈ items, item.confirmations ≠ 0) : Adds items 0 0 := by
  induction items with
  | nil => exact adds_nil
  | cons item rest ih =>
      intro sums
      obtain ⟨after, run, added⟩ := ih (fun other member =>
        confirmed other (List.mem_cons_of_mem item member)) sums
      refine ⟨after, ?_, added⟩
      rw [runAll_cons, addUnconfirmed, if_neg (confirmed item List.mem_cons_self)]
      exact run

theorem coin_modEq {amount : Message.Coin} {coin change : Publiq.Coin}
    (held : Coin.ofMessage amount = .ok change) :
    ((coin + change).value : ℤ) ≡ coin.value + amount.value [ZMOD Coin.limit] := by
  rw [Coin.value_add_mod, (Coin.proper_of_ofMessage held).2]
  push_cast
  exact Int.mod_modEq _ _

section Items
variable {head block : UInt64} (waits : head - block + 1 = 0) {timestamp : ℤ}
  {amount : Message.Coin} (proper : amount.Proper) {details : AccountHistoryDetails}
include waits proper

theorem adds_received :
    Adds [historyItem head block .received timestamp amount details] amount.value 0 := by
  intro sums
  obtain ⟨change, held, _⟩ := proper.ofMessage
  refine ⟨(sums.1 + change, sums.2), ?_, coin_modEq held, by rw [add_zero]⟩
  rw [runAll_singleton, addUnconfirmed, historyItem, if_pos waits, held]
  rfl

theorem adds_sent (itemType : AccountHistoryItemType)
    (kind : ¬ (itemType = .received ∨ itemType = .receivedFee ∨ itemType = .rewarded)) :
    Adds [historyItem head block itemType timestamp amount details] 0 amount.value := by
  intro sums
  obtain ⟨change, held, _⟩ := proper.ofMessage
  refine ⟨(sums.1, sums.2 + change), ?_, by rw [add_zero], coin_modEq held⟩
  rw [runAll_singleton, addUnconfirmed, historyItem, if_pos waits, held, ok_bind, if_neg kind]
  rfl

variable {log : TransactionLog} {info : TransactionInfo} {account : String}

omit proper in
/-- What a transaction does is shown as what its update of the balances does. -/
theorem adds_action (named : account ≠ "") (known : transactionInfo log = .ok info)
    (proper : ProperFor account log) :
    Adds (actionItems head block account log) (share info.target account info.amount.value)
      (share info.source account info.amount.value) := by
  obtain ⟨pays, gets⟩ := proper info known
  rcases (moved_cases known).2 with
    ⟨tf, action, source, target, amount⟩ | ⟨scu, action, source, target, amount⟩ | ⟨none, empty⟩
  · have shown : actionItems head block account log = (if tf.target = account then
        [historyItem head block .received log.timeSigned tf.amount
          (.received tf.source tf.message log.transactionHash)] else []) ++
        if tf.source = account then
          [historyItem head block .sent log.timeSigned tf.amount
            (.sent tf.target tf.message log.transactionHash)] else [] := by
      rw [actionItems, action]
    rw [source, amount] at pays
    rw [target, amount] at gets
    rw [source, target, amount]
    have received : Adds (if tf.target = account then
        [historyItem head block .received log.timeSigned tf.amount
          (.received tf.source tf.message log.transactionHash)] else [])
        (share tf.target account tf.amount.value) 0 := by
      by_cases here : tf.target = account
      · rw [if_pos here, here, share_self]
        exact adds_received waits (gets here)
      · rw [if_neg here, share_of_ne here]
        exact adds_nil
    have sent : Adds (if tf.source = account then
        [historyItem head block .sent log.timeSigned tf.amount
          (.sent tf.target tf.message log.transactionHash)] else [])
        0 (share tf.source account tf.amount.value) := by
      by_cases here : tf.source = account
      · rw [if_pos here, here, share_self]
        exact adds_sent waits (pays here).1 .sent (by decide)
      · rw [if_neg here, share_of_ne here]
        exact adds_nil
    rw [shown]
    have both := received.append sent
    rwa [add_zero, zero_add] at both
  · have shown : actionItems head block account log = if scu.sponsorAddress = account then
        [historyItem head block .sponsored log.timeSigned scu.amount
          (.sponsored log.transactionHash scu.startTimePoint
            (scu.startTimePoint + 3600 * scu.hours.toNat) scu.uri)] else [] := by
      rw [actionItems, action]
    rw [shown, source, target, amount, share_of_ne (Ne.symm named)]
    by_cases here : scu.sponsorAddress = account
    · rw [if_pos here, here, share_self]
      rw [source, amount] at pays
      exact adds_sent waits (pays here).1 .sponsored (by decide)
    · rw [if_neg here, share_of_ne here]
      exact adds_nil
  · rw [empty, none, Message.Coin.value_zero, Nat.cast_zero, share_zero, share_zero]
    exact adds_nil

omit proper in
theorem adds_fee (named : account ≠ "") (known : transactionInfo log = .ok info)
    (proper : ProperFor account log) :
    Adds (feeItems head block account "" log info) 0 (share info.source account info.fee.value) := by
  have same : info.fee = log.fee := (moved_cases known).1
  unfold feeItems
  rw [if_neg (fun both : "" = account ∧ log.fee ≠ 0 => named both.1.symm), List.append_nil]
  by_cases here : info.source = account
  · by_cases free : log.fee = 0
    · rw [if_neg (fun both => both.2 free), same, free, Message.Coin.value_zero, Nat.cast_zero,
        share_zero]
      exact adds_nil
    · rw [if_pos ⟨here, free⟩, here, share_self, same]
      have coin := ((proper info known).1 here).2
      rw [same] at coin
      exact adds_sent waits coin .sentFee (by decide)
  · rw [if_neg (fun both => here both.1), share_of_ne here]
    exact adds_nil

end Items

def shownItems (head block : UInt64) (address : String) (blocks : List BlockInfo)
    (log : TransactionLog) : List AccountHistoryItem :=
  match transactionInfo log with
  | .ok info => actionItems head block address log ++
      feeItems head block address (authorityOf block blocks) log info
  | .error _ => []

section Shown
variable {head block : UInt64} {account : String} {blocks : List BlockInfo} {log : TransactionLog}
  {info : TransactionInfo}

theorem transactionItems_ok (known : transactionInfo log = .ok info) :
    transactionItems head block account blocks log =
      .ok (shownItems head block account blocks log) := by
  unfold transactionItems shownItems
  rw [known]
  rfl

theorem confirmations_of_shown {item : AccountHistoryItem}
    (member : item ∈ shownItems head block account blocks log) :
    item.confirmations = head - block + 1 := by
  unfold shownItems at member
  cases known : transactionInfo log with
  | error _ =>
      rw [known] at member
      cases member
  | ok info =>
      rw [known] at member
      rcases List.mem_append.mp member with acts | pays
      · unfold actionItems at acts
        split at acts
        · rcases List.mem_append.mp acts with item | item
          · rw [List.mem_ite_nil_right] at item
            rw [List.mem_singleton.mp item.2]
            rfl
          · rw [List.mem_ite_nil_right] at item
            rw [List.mem_singleton.mp item.2]
            rfl
        · rw [List.mem_ite_nil_right] at acts
          rw [List.mem_singleton.mp acts.2]
          rfl
        · cases acts
      · unfold feeItems at pays
        rcases List.mem_append.mp pays with item | item
        · rw [List.mem_ite_nil_right] at item
          rw [List.mem_singleton.mp item.2]
          rfl
        · rw [List.mem_ite_nil_right] at item
          rw [List.mem_singleton.mp item.2]
          rfl

theorem adds_shown (waits : head - block + 1 = 0) (unknown : authorityOf block blocks = "")
    (named : account ≠ "") (proper : ProperFor account log) :
    Adds (shownItems head block account blocks log) (incoming account log)
      (outgoing account log) := by
  unfold shownItems incoming outgoing
  cases known : transactionInfo log with
  | error _ => exact adds_nil
  | ok info =>
      dsimp only
      rw [unknown]
      have both := (adds_action waits named known proper).append (adds_fee waits named known proper)
      rwa [add_zero] at both

theorem adds_all (waits : head - block + 1 = 0) (unknown : authorityOf block blocks = "")
    (named : account ≠ "") {logs : List TransactionLog}
    (proper : ∀ log ∈ logs, ProperFor account log) :
    Adds (logs.flatMap (shownItems head block account blocks))
      (logs.map (incoming account)).sum (logs.map (outgoing account)).sum := by
  induction logs with
  | nil => exact adds_nil
  | cons log rest ih =>
      rw [List.flatMap_cons, List.map_cons, List.map_cons, List.sum_cons, List.sum_cons]
      exact (adds_shown waits unknown named (proper log List.mem_cons_self)).append
        (ih fun other member => proper other (List.mem_cons_of_mem log member))

/-- A transaction that is not logged for an account moves nothing of it. -/
theorem moves_nothing (named : account ≠ "") (apart : account ∉ touched log "") :
    incoming account log = 0 ∧ outgoing account log = 0 := by
  unfold touched at apart
  unfold incoming outgoing
  cases known : transactionInfo log with
  | error _ => exact ⟨rfl, rfl⟩
  | ok info =>
      rw [known] at apart
      dsimp only [touchedBy] at apart ⊢
      have source : info.source ≠ account := by
        rintro rfl
        exact apart (by simp [named])
      have target : info.target ≠ account := by
        rintro rfl
        exact apart (by simp [named, Ne.symm source])
      rw [share_of_ne source, share_of_ne source, share_of_ne target]
      exact ⟨rfl, rfl⟩

theorem sum_touched (f : TransactionLog → ℤ)
    (nothing : ∀ log, account ∉ touched log "" → f log = 0) (pool : List TransactionLog) :
    ((pool.filter fun log => account ∈ touched log "").map f).sum = (pool.map f).sum := by
  induction pool with
  | nil => rfl
  | cons log rest ih =>
      rw [List.map_cons, List.sum_cons, ← ih]
      by_cases here : account ∈ touched log ""
      · rw [List.filter_cons_of_pos (by simpa using here), List.map_cons, List.sum_cons]
      · rw [List.filter_cons_of_neg (by simpa using here), nothing log here, zero_add]

end Shown

section Visits
variable {e : Explorer} {account : String} {head : UInt64} {n : ℕ} {entries : List (ℕ × TransactionLog)}

theorem show_transactions (small : n < 2 ^ 64)
    (numbers : Numbers (2 ^ 64) (e.files.transactions account).index)
    {logs : List TransactionLog}
    (held : ((e.files.transactions account).index[n]? = none ∧ logs = []) ∨
      ∃ value, (e.files.transactions account).index[n]? = some value ∧
        value.first + value.second ≤ (e.files.transactions account).log.length ∧
        ((e.files.transactions account).log.drop value.first).take value.second = logs)
    (known : ∀ log ∈ logs, ∃ info, transactionInfo log = .ok info)
    (result : List AccountHistoryItem) :
    runAll (e.showVisit head account) (AccountHistory.visitTransactions
        (indexedBlocks (e.files.transactions account).index) (UInt64.ofNat n)) result =
      .ok (result ++ logs.flatMap (shownItems head (UInt64.ofNat n) account e.blocks)) := by
  have value : (UInt64.ofNat n).toNat = n := UInt64.toNat_ofNat_of_lt' small
  unfold AccountHistory.visitTransactions
  rcases held with ⟨none, rfl⟩ | ⟨pair, some, enough, segment⟩
  · rw [if_neg]
    · rw [List.flatMap_nil, List.append_nil]
      rfl
    · rw [mem_indexedBlocks numbers le_rfl, value, Std.ExtTreeMap.mem_iff_isSome_getElem?, none]
      exact Bool.false_ne_true
  · rw [if_pos, runAll_singleton, ← segment]
    · refine overEntries_ok (by rw [value]; exact some) enough (fun log member => ?_) result
      rw [segment] at member
      obtain ⟨info, known⟩ := known log member
      exact transactionItems_ok known
    · rw [mem_indexedBlocks numbers le_rfl, value, Std.ExtTreeMap.mem_iff_isSome_getElem?, some]
      rfl

theorem visitRewards_nil (small : n < 2 ^ 64)
    (numbers : Numbers (2 ^ 64) (e.files.rewards account).index)
    (none : n ∉ (e.files.rewards account).index) : AccountHistory.visitRewards
      (indexedBlocks (e.files.rewards account).index) (UInt64.ofNat n) = [] := by
  unfold AccountHistory.visitRewards
  rw [if_neg]
  rw [mem_indexedBlocks numbers le_rfl, UInt64.toNat_ofNat_of_lt' small]
  exact none

end Visits

section Response
variable {e : Explorer} {blocks : List BlockLog} {pool : List TransactionLog} {account : String}

theorem Sound.shape (sound : e.Sound (standingOf blocks pool)) :
    (blocks = [] ∧ pool = []) ∨ ∃ init last, blocks = init ++ [last] ∧
      e.files.headBlockIndex = init.length := by
  by_cases none : standingOf blocks pool = []
  · obtain ⟨noBlocks, noPool⟩ := List.append_eq_nil_iff.mp none
    exact .inl ⟨List.map_eq_nil_iff.mp noBlocks, List.map_eq_nil_iff.mp noPool⟩
  · have count := (sound.goes none).2
    rw [blockCount_standingOf] at count
    rcases List.eq_nil_or_concat' blocks with rfl | ⟨init, last, rfl⟩
    · cases count
    · rw [List.length_append, List.length_singleton] at count
      exact .inr ⟨init, last, rfl, (Nat.succ_injective count).symm⟩

theorem Sound.length_le (sound : e.Sound (standingOf blocks pool)) :
    blocks.length ≤ e.files.headBlockIndex + 1 := by
  rcases sound.shape with ⟨rfl, _⟩ | ⟨init, last, rfl, number⟩
  · exact Nat.zero_le _
  · rw [number, List.length_append]
    exact le_rfl

/-- What is logged of an account: something of the blocks up to the head, and of what waits for
the next one. -/
theorem Sound.entries (sound : e.Sound (standingOf blocks pool)) (account : String) :
    ∃ before last, entriesOf transactionEntries (standingOf blocks pool) account =
        before ++ last ∧
      (∀ entry ∈ before, entry.1 < e.files.headBlockIndex + 1) ∧
      (∀ entry ∈ last, entry.1 = e.files.headBlockIndex + 1) ∧
      last.map Prod.snd = pool.filter fun log => account ∈ touched log "" := by
  refine ⟨_, _, entriesOf_standingOf blocks pool account, fun entry member => ?_,
    fun entry member => ?_, ?_⟩
  · exact (entriesOf_blocks_lt (fun _ _ _ _ => eq_of_mem_transactionEntries) blocks account entry
      member).trans_le sound.length_le
  · rw [eq_of_mem_listed member]
    rcases sound.shape with ⟨rfl, rfl⟩ | ⟨init, last, rfl, number⟩
    · cases member
    · rw [number, List.length_append]
      rfl
  · unfold listed
    rw [List.map_map]
    exact List.map_id _

theorem Sound.rewards_lt (sound : e.Sound (standingOf blocks pool)) (account : String) :
    ∀ entry ∈ entriesOf rewardEntries (standingOf blocks pool) account,
      entry.1 < e.files.headBlockIndex + 1 := by
  intro entry member
  rw [rewardsOf_standingOf] at member
  exact (entriesOf_blocks_lt (fun _ _ _ _ => eq_of_mem_rewardEntries) blocks account entry
    member).trans_le sound.length_le

theorem Sound.mem_rewards_iff (sound : e.Sound (standingOf blocks pool))
    (tracked : account ∈ e.accounts) :
    e.files.headBlockIndex ∈ (e.files.rewards account).index ↔
      RewardedByHead (standingOf blocks pool) account := by
  rw [mem_index_iff (sound.held account tracked).counts]
  rcases sound.shape with ⟨rfl, rfl⟩ | ⟨init, last, rfl, number⟩
  · refine iff_of_false (not_not.mpr rfl) ?_
    rintro ⟨log, none, _⟩
    cases none
  · rw [number]
    exact countAt_rewards_head init last account

theorem head_confirmations (head : UInt64) : head - head + 1 ≠ 0 := by
  rw [UInt64.sub_self]
  decide

theorem next_confirmations (head : ℕ) :
    UInt64.ofNat head - UInt64.ofNat (head + 1) + 1 = 0 := by
  rw [UInt64.ofNat_add]
  change UInt64.ofNat head - (UInt64.ofNat head + 1) + 1 = 0
  grind

theorem Held.known {standing : List LogPacket} (held : e.Held standing account) :
    ∀ log ∈ (e.files.transactions account).log, ∃ info, transactionInfo log = .ok info := by
  intro log member
  rw [held.transactions.1] at member
  obtain ⟨entry, inside, rfl⟩ := List.mem_map.mp member
  exact known_of_entry inside

theorem Sound.numbers (sound : e.Sound (standingOf blocks pool)) (tracked : account ∈ e.accounts)
    (counted : e.files.headBlockIndex + 2 < 2 ^ 64) :
    Numbers (2 ^ 64) (e.files.transactions account).index ∧
      Numbers (2 ^ 64) (e.files.rewards account).index := by
  have held := sound.held account tracked
  obtain ⟨before, last, split, below, here, _⟩ := sound.entries account
  constructor
  · refine numbers_of_counts (counts_of_represents held.transactions) fun entry member => ?_
    rw [split] at member
    rcases List.mem_append.mp member with member | member
    · have lt := below entry member
      omega
    · rw [here entry member]
      omega
  · refine numbers_of_counts held.counts fun entry member => ?_
    have lt := sound.rewards_lt account entry member
    omega

theorem Sound.shows_head (sound : e.Sound (standingOf blocks pool)) (tracked : account ∈ e.accounts)
    (counted : e.files.headBlockIndex + 2 < 2 ^ 64) (head : UInt64) :
    ∃ logs : List TransactionLog, ∀ result, runAll (e.showVisit head account)
        (AccountHistory.visitTransactions (indexedBlocks (e.files.transactions account).index)
          (UInt64.ofNat e.files.headBlockIndex)) result =
      .ok (result ++ logs.flatMap
        (shownItems head (UInt64.ofNat e.files.headBlockIndex) account e.blocks)) := by
  have held := sound.held account tracked
  have numbers := (sound.numbers tracked counted).1
  have index := held.transactions.2 e.files.headBlockIndex
  by_cases none : IndexedLog.countAt e.files.headBlockIndex
      (entriesOf transactionEntries (standingOf blocks pool) account) = 0
  · rw [if_pos none] at index
    exact ⟨[], show_transactions (by omega) numbers (.inl ⟨index, rfl⟩)
      fun _ none => absurd none List.not_mem_nil⟩
  · rw [if_neg none] at index
    refine ⟨_, show_transactions (by omega) numbers (.inr ⟨_, index, ?_, rfl⟩)
      fun log member => held.known log (List.mem_of_mem_drop (List.mem_of_mem_take member))⟩
    rw [held.transactions.1, List.length_map]
    exact countBelow_add_countAt_le _ _

theorem Sound.shows_waiting (sound : e.Sound (standingOf blocks pool))
    (tracked : account ∈ e.accounts) (counted : e.files.headBlockIndex + 2 < 2 ^ 64)
    (head : UInt64) (result : List AccountHistoryItem) :
    runAll (e.showVisit head account)
        (AccountHistory.visitTransactions (indexedBlocks (e.files.transactions account).index)
          (UInt64.ofNat (e.files.headBlockIndex + 1))) result =
      .ok (result ++ (pool.filter fun log => account ∈ touched log "").flatMap
        (shownItems head (UInt64.ofNat (e.files.headBlockIndex + 1)) account e.blocks)) := by
  have held := sound.held account tracked
  obtain ⟨before, last, split, below, here, waiting⟩ := sound.entries account
  have represents := held.transactions
  rw [split] at represents
  rw [← waiting]
  refine show_transactions (by omega) (sound.numbers tracked counted).1 ?_ (fun log member => ?_)
    result
  · rcases List.eq_nil_or_concat' last with none | ⟨_, _, some⟩
    · refine .inl ⟨?_, by rw [none]; rfl⟩
      have index := represents.2 (e.files.headBlockIndex + 1)
      rw [none, List.append_nil, countAt_eq_zero_of_lt below le_rfl, if_pos rfl] at index
      exact index
    · exact .inr (represents.last below here (by rw [some]; simp))
  · refine held.known log ?_
    rw [represents.1, List.map_append]
    exact List.mem_append_right _ member

theorem Sound.adds_waiting (sound : e.Sound (standingOf blocks pool))
    (tracked : account ∈ e.accounts) (counted : e.files.headBlockIndex + 2 < 2 ^ 64) :
    Adds ((pool.filter fun log => account ∈ touched log "").flatMap
        (shownItems (UInt64.ofNat e.files.headBlockIndex)
          (UInt64.ofNat (e.files.headBlockIndex + 1)) account e.blocks))
      (unconfirmedReceived (standingOf blocks pool) account)
      (unconfirmedSent (standingOf blocks pool) account) := by
  have held := sound.held account tracked
  have small : e.files.headBlockIndex + 1 < 2 ^ 64 := by omega
  have unknown : authorityOf (UInt64.ofNat (e.files.headBlockIndex + 1)) e.blocks = "" := by
    unfold authorityOf
    rw [UInt64.toNat_ofNat_of_lt' small, List.getElem?_eq_none]
    · rfl
    · rw [sound.blocks, blockCount_standingOf]
      exact sound.length_le
  unfold unconfirmedReceived unconfirmedSent
  rw [poolOf_standingOf,
    ← sum_touched _ fun log apart => (moves_nothing held.named apart).1,
    ← sum_touched _ fun log apart => (moves_nothing held.named apart).2]
  refine adds_all (next_confirmations e.files.headBlockIndex) unknown held.named
    fun log member => held.proper log ?_
  exact List.mem_append_right _ (List.mem_map_of_mem (List.mem_filter.mp member).1)

/-- Without a reward of the head block the history is shown, and adds what waits. -/
theorem Sound.history_adds (sound : e.Sound (standingOf blocks pool))
    (tracked : account ∈ e.accounts) (counted : e.files.headBlockIndex + 2 < 2 ^ 64)
    (unrewarded : ¬ RewardedByHead (standingOf blocks pool) account) :
    ∃ history, e.getHistory (UInt64.ofNat e.files.headBlockIndex)
        (UInt64.ofNat e.files.headBlockIndex) 2 account = .ok history ∧
      Adds history (unconfirmedReceived (standingOf blocks pool) account)
        (unconfirmedSent (standingOf blocks pool) account) := by
  have numbers := (sound.numbers tracked counted).2
  have noReward := mt (sound.mem_rewards_iff tracked).mp unrewarded
  have noNext : e.files.headBlockIndex + 1 ∉ (e.files.rewards account).index :=
    mt (mem_index_iff (sound.held account tracked).counts).mp
      (not_not.mpr (countAt_eq_zero_of_lt (sound.rewards_lt account) le_rfl))
  obtain ⟨confirmed, shows⟩ :=
    sound.shows_head tracked counted (UInt64.ofNat e.files.headBlockIndex)
  have nothing : Adds ([] ++ confirmed.flatMap (shownItems (UInt64.ofNat e.files.headBlockIndex)
      (UInt64.ofNat e.files.headBlockIndex) account e.blocks)) 0 0 :=
    adds_confirmed fun item member => by
      rw [List.nil_append] at member
      obtain ⟨log, _, here⟩ := List.mem_flatMap.mp member
      rw [confirmations_of_shown here]
      exact head_confirmations _
  have both := nothing.append (sound.adds_waiting tracked counted)
  rw [zero_add, zero_add] at both
  refine ⟨_, ?_, both⟩
  unfold getHistory
  rw [getHistory_two counted]
  unfold AccountHistory.visitBoth
  rw [visitRewards_nil (by omega) numbers noReward, visitRewards_nil (by omega) numbers noNext,
    List.append_nil, List.append_nil, runAll_append, shows, ok_bind,
    sound.shows_waiting tracked counted]

/-- The rewards of the head block are not in the log that is read for them. -/
theorem Sound.history_lost (sound : e.Sound (standingOf blocks pool))
    (tracked : account ∈ e.accounts) (counted : e.files.headBlockIndex + 2 < 2 ^ 64)
    (rewarded : RewardedByHead (standingOf blocks pool) account)
    (history : List AccountHistoryItem) :
    e.getHistory (UInt64.ofNat e.files.headBlockIndex) (UInt64.ofNat e.files.headBlockIndex) 2
      account ≠ .ok history := by
  intro run
  unfold getHistory at run
  rw [getHistory_two counted] at run
  have small : e.files.headBlockIndex < 2 ^ 64 := by omega
  have value : (UInt64.ofNat e.files.headBlockIndex).toNat = e.files.headBlockIndex :=
    UInt64.toNat_ofNat_of_lt' small
  have held := sound.held account tracked
  have here := (sound.mem_rewards_iff tracked).mpr rewarded
  have visited : HistoryVisit.rewards (UInt64.ofNat e.files.headBlockIndex) ∈
      AccountHistory.visitRewards (indexedBlocks (e.files.rewards account).index)
        (UInt64.ofNat e.files.headBlockIndex) := by
    unfold AccountHistory.visitRewards
    rw [if_pos]
    · exact List.mem_singleton_self _
    · rw [mem_indexedBlocks (sound.numbers tracked counted).2 le_rfl, value]
      exact here
  obtain ⟨result, after, shown⟩ := runAll_mem_ok run
    (List.mem_append_left _ (List.mem_append_right _ visited))
  have count := held.counts e.files.headBlockIndex
  rw [if_neg ((mem_index_iff held.counts).mp here)] at count
  obtain ⟨pair, found, second⟩ := Option.map_eq_some_iff.mp count
  change overEntries _ _ _ result = _ at shown
  rw [overEntries_lost (by rw [value]; exact found)
    (second ▸ (mem_index_iff held.counts).mp here) (sound.lost account)] at shown
  cases shown

end Response

/-- What the response for an account is to tell: the balance that the blocks alone give, and what
the transactions that wait send and receive. -/
def Confirms (e : Explorer) (standing : List LogPacket) (account : String) : Prop :=
  ∃ raw, e.accounts[account]? = some raw ∧ ∃ response, e.accountResponse raw = .ok response ∧
    (response.confirmedBalance.value : ℤ) = blockBalance standing account ∧
    (response.unconfirmedSent.value : ℤ) = unconfirmedSent standing account ∧
    (response.unconfirmedReceived.value : ℤ) = unconfirmedReceived standing account

theorem eq_of_modEq {coin : Publiq.Coin} {x : ℤ} (same : (coin.value : ℤ) ≡ x [ZMOD Coin.limit])
    (low : 0 ≤ x) (high : x < Coin.limit) : (coin.value : ℤ) = x := by
  have bound := coin.value_bound
  have left := Int.emod_eq_of_lt (Int.natCast_nonneg coin.value) (Int.ofNat_lt.mpr bound)
  rw [← left, same, Int.emod_eq_of_lt low high]

theorem Sound.not_confirms {e : Explorer} {blocks : List BlockLog} {pool : List TransactionLog}
    {account : String} (sound : e.Sound (standingOf blocks pool)) (tracked : account ∈ e.accounts)
    (counted : e.files.headBlockIndex + 2 < 2 ^ 64)
    (rewarded : RewardedByHead (standingOf blocks pool) account) :
    ¬ e.Confirms (standingOf blocks pool) account := by
  rintro ⟨raw, stored, response, run, _⟩
  obtain ⟨coin, entry, _⟩ := (sound.held account tracked).balance
  rw [stored, Option.getD_some] at entry
  subst entry
  obtain ⟨history, shown, _⟩ := bind_ok_iff.mp run
  exact sound.history_lost tracked counted rewarded history shown

section Confirmed
variable [Externals] {loaders : Loaders} {e : Explorer} {standing : List LogPacket}
  {account : String}

/-- The response tells what it is to tell exactly where the head block does not reward the account
and no sum leaves the range of a coin. -/
theorem confirms_iff (twoPhase : loaders.TwoPhase) (keys : Externals.publicKey "" ≠ .ok ())
    (reached : e.Reached loaders standing) (tracked : account ∈ e.accounts)
    (counted : e.files.headBlockIndex + 2 < 2 ^ 64) :
    e.Confirms standing account ↔ ¬ RewardedByHead standing account ∧
      unconfirmedSent standing account < Coin.limit ∧ 0 ≤ blockBalance standing account ∧
      blockBalance standing account + unconfirmedReceived standing account < Coin.limit := by
  have sound := reached.sound twoPhase keys
  obtain ⟨blocks, pool, rfl⟩ := reached.ordered
  have held := sound.held account tracked
  obtain ⟨raw, stored⟩ := Option.isSome_iff_exists.mp
    (Std.ExtTreeMap.mem_iff_isSome_getElem?.mp tracked)
  obtain ⟨coin, entry, value⟩ := held.balance
  rw [stored, Option.getD_some] at entry
  subst entry
  rw [effectOfAll_standingOf held.named] at value
  by_cases rewarded : RewardedByHead (standingOf blocks pool) account
  · exact iff_of_false (sound.not_confirms tracked counted rewarded) fun all => all.1 rewarded
  obtain ⟨history, shown, adds⟩ := sound.history_adds tracked counted rewarded
  obtain ⟨⟨received, sent⟩, added, receives, sends⟩ := adds (0, 0)
  dsimp only at receives sends
  rw [Coin.value_zero, Nat.cast_zero, zero_add] at receives sends
  have total : ((coin + sent).value : ℤ) ≡ blockBalance (standingOf blocks pool) account +
      unconfirmedReceived (standingOf blocks pool) account [ZMOD Coin.limit] := by
    rw [Coin.value_add_mod]
    push_cast
    have sum := (Int.mod_modEq _ _).trans (value.add sends)
    rwa [sub_add_cancel] at sum
  have response : e.accountResponse ⟨account, coin.toMessage⟩ =
      (coin + sent).sub received >>= fun confirmed => pure ⟨account, coin.toMessage,
        confirmed.toMessage, received.toMessage, sent.toMessage⟩ := by
    unfold accountResponse
    dsimp only
    rw [shown, ok_bind, added, ok_bind, Coin.ofMessage_toMessage, ok_bind]
  constructor
  · rintro ⟨raw, same, answer, run, confirmed, sentIs, receivedIs⟩
    obtain rfl := Option.some.inj (stored.symm.trans same)
    rw [response] at run
    obtain ⟨left, taken, run⟩ := bind_ok_iff.mp run
    obtain rfl := pure_ok_iff.mp run
    rw [Coin.value_toMessage] at confirmed sentIs receivedIs
    have rest := Coin.value_sub taken
    have sentBound := sent.value_bound
    have totalBound := (coin + sent).value_bound
    refine ⟨rewarded, ?_, ?_, ?_⟩
    · omega
    · omega
    · omega
  · rintro ⟨_, sentFits, low, high⟩
    have sentLow := unconfirmedSent_nonneg (standingOf blocks pool) account
    have receivedLow := unconfirmedReceived_nonneg (standingOf blocks pool) account
    have sentIs := eq_of_modEq sends sentLow sentFits
    have receivedIs := eq_of_modEq receives receivedLow (by omega)
    have totalIs := eq_of_modEq total (by omega) high
    obtain ⟨left, taken, rest⟩ := Coin.sub_total (a := coin + sent) (b := received) (by omega)
    refine ⟨_, stored, _, response.trans (by rw [taken]; rfl), ?_, ?_, ?_⟩
    · rw [Coin.value_toMessage]
      omega
    · rw [Coin.value_toMessage]
      exact sentIs
    · rw [Coin.value_toMessage]
      exact receivedIs

end Confirmed

section Examples

/-- A node that takes every key but the empty one. -/
local instance namingExternals : Externals :=
  { plainExternals with
    publicKey := fun key => if key = "" then .error (.runtimeError "public_key") else .ok () }

def transferLog (source target : String) (whole : UInt64) : TransactionLog :=
  ⟨0, .transfer ⟨source, target, ⟨whole, 0⟩, ""⟩, "hash", 0, 0⟩

def genesisOf (rewards : List Reward) : BlockLog :=
  ⟨"miner", "hash", 0, 0, 0, rewards, [transferLog "other" "account" 5], [], []⟩

def importRun (rewards : List Reward) : Checked (SyncContext × Commander) :=
  (fresh false).importRounds "account"
    [([⟨false, 0, .block (genesisOf rewards)⟩], [⟨false, 0, .block (genesisOf rewards)⟩])]

def importedBy (run : SyncContext × Commander) : Explorer :=
  (fresh false).commitImport AccountRun.plainLoaders "account" run.1 run.2

theorem importRun_reached (rewards : List Reward) (done : (importRun rewards).isOk = true) :
    Reached AccountRun.plainLoaders (importedBy (okValue (importRun rewards) done))
      (standingOf [genesisOf rewards] []) :=
  .imported (.fresh false) rfl Std.ExtTreeMap.not_mem_empty rfl rfl (eq_okValue done)

theorem unrewarded_done : (importRun []).isOk = true := by decide +kernel

def spending : List LoggedTransaction := [⟨false, 1, .transaction (transferLog "account" "other" 2)⟩]

def spendingRun : Checked Commander :=
  runAll Commander.processAction spending
    (importedBy (okValue (importRun []) unrewarded_done)).startSync

theorem spending_done : spendingRun.isOk = true := by decide +kernel

def spendingExplorer : Explorer :=
  (importedBy (okValue (importRun []) unrewarded_done)).commit AccountRun.plainLoaders
    (okValue spendingRun spending_done)

theorem spending_unrewarded : ¬ RewardedByHead
    (standingOf [genesisOf []] [transferLog "account" "other" 2]) "account" := by
  rintro ⟨log, head, reward, member, _⟩
  obtain rfl := Option.some.inj head
  cases member

/-- What waits is told apart from what the blocks gave. -/
theorem spending_confirmed : spendingExplorer.Confirms
    (standingOf [genesisOf []] [transferLog "account" "other" 2]) "account" :=
  (confirms_iff AccountRun.plainLoaders_twoPhase (by decide +kernel)
    (.sync (importRun_reached [] unrewarded_done) rfl (eq_okValue spending_done))
    (by decide +kernel) (by decide +kernel)).mpr
    ⟨spending_unrewarded, by decide +kernel, by decide +kernel, by decide +kernel⟩

def rewarding : List Reward := [⟨"account", ⟨1, 0⟩, .initial⟩]

theorem rewarded_done : (importRun rewarding).isOk = true := by decide +kernel

def rewardedExplorer : Explorer := importedBy (okValue (importRun rewarding) rewarded_done)

/-- An account that the head block rewards has no response. -/
theorem rewarded_not_confirmed :
    rewardedExplorer.Reached AccountRun.plainLoaders (standingOf [genesisOf rewarding] []) ∧
      "account" ∈ rewardedExplorer.accounts ∧
      ¬ rewardedExplorer.Confirms (standingOf [genesisOf rewarding] []) "account" := by
  have reached := importRun_reached rewarding rewarded_done
  have sound := reached.sound AccountRun.plainLoaders_twoPhase (by decide +kernel)
  have tracked : "account" ∈ rewardedExplorer.accounts := by decide +kernel
  exact ⟨reached, tracked, sound.not_confirms tracked (by decide +kernel)
    ⟨_, rfl, ⟨"account", ⟨1, 0⟩, .initial⟩, List.mem_singleton_self _, rfl⟩⟩

end Examples

end Explorer
end Publiq