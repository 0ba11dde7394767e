import Publiq.HistoryItems
import Mathlib.Algebra.Order.BigOperators.Group.List

/-! What stands of a log is its blocks and, behind them, the transactions that wait for the next
one: where their entries lie, and what they move. -/
namespace Publiq
open Message Checked CommanderMessage

section Standing
variable {standing after : List LogPacket} {blocks : List BlockLog} {pool : List TransactionLog}
  {account : String}

def poolOf (standing : List LogPacket) : List TransactionLog :=
  standing.filterMap fun packet => match packet with
    | .block _ => none
    | .transaction log => some log

def standingOf (blocks : List BlockLog) (pool : List TransactionLog) : List LogPacket :=
  blocks.map .block ++ pool.map .transaction

theorem poolOf_standingOf : poolOf (standingOf blocks pool) = pool := by
  unfold poolOf standingOf
  rw [List.filterMap_append, List.filterMap_map, List.filterMap_map]
  have none : blocks.filterMap ((fun packet : LogPacket => match packet with
      | .block _ => none
      | .transaction log => some log) ∘ LogPacket.block) = [] :=
    List.filterMap_eq_nil_iff.mpr fun _ _ => rfl
  rw [none, List.nil_append]
  exact List.filterMap_some

theorem standingOf_concat (blocks : List BlockLog) (pool : List TransactionLog)
    (log : TransactionLog) :
    standingOf blocks (pool ++ [log]) = standingOf blocks pool ++ [.transaction log] := by
  unfold standingOf
  rw [List.map_append, ← List.append_assoc]
  rfl

theorem standingOf_nil (blocks : List BlockLog) : standingOf blocks [] = blocks.map .block := by
  unfold standingOf
  rw [List.map_nil, List.append_nil]

theorem blockCount_blocks (blocks : List BlockLog) :
    blockCount (blocks.map LogPacket.block) = blocks.length := by
  unfold blockCount
  rw [List.countP_map]
  exact List.countP_eq_length.mpr fun _ _ => rfl

theorem blockCount_standingOf : blockCount (standingOf blocks pool) = blocks.length := by
  induction pool using List.reverseRecOn with
  | nil =>
      rw [standingOf_nil]
      exact blockCount_blocks blocks
  | append_singleton rest log ih =>
      rw [standingOf_concat, blockCount_concat_transaction]
      exact ih

/-- A node logs its blocks before what waits. -/
theorem follow_standingOf {info : LoggedTransaction}
    (logged : follow info (standingOf blocks pool) = some after) :
    ∃ blocks pool, after = standingOf blocks pool := by
  rcases follow_cases logged with
    ⟨index, log, rfl, all, rfl⟩ | ⟨index, log, rfl, _, rfl⟩ | ⟨index, packet, rfl, _, last⟩
  · cases pool with
    | nil =>
        refine ⟨blocks ++ [log], [], ?_⟩
        rw [standingOf_nil, standingOf_nil, List.map_append]
        rfl
    | cons pooled rest =>
        obtain ⟨_, eq⟩ := all (.transaction pooled) (by simp [standingOf])
        cases eq
  · exact ⟨blocks, pool ++ [log], (standingOf_concat blocks pool log).symm⟩
  · have before : after = (standingOf blocks pool).dropLast := by
      rw [last, List.dropLast_concat]
    cases pool using List.reverseRecOn with
    | nil =>
        refine ⟨blocks.dropLast, [], ?_⟩
        rw [before, standingOf_nil, standingOf_nil, List.map_dropLast]
    | append_singleton rest log =>
        refine ⟨blocks, rest, ?_⟩
        rw [before, standingOf_concat, List.dropLast_concat]

theorem followAll_standingOf {actions : List LoggedTransaction}
    (logged : followAll (standingOf blocks pool) actions = some after) :
    ∃ blocks pool, after = standingOf blocks pool := by
  induction actions generalizing blocks pool with
  | nil =>
      cases logged
      exact ⟨blocks, pool, rfl⟩
  | cons info rest ih =>
      obtain ⟨between, first, logged⟩ := Option.bind_eq_some_iff.mp logged
      obtain ⟨blocks, pool, rfl⟩ := follow_standingOf first
      exact ih logged

theorem Explorer.Reached.ordered [Externals] {loaders : Loaders} {e : Explorer}
    (reached : e.Reached loaders standing) : ∃ blocks pool, standing = standingOf blocks pool := by
  induction reached with
  | fresh hasKey => exact ⟨[], [], rfl⟩
  | sync _ logged _ ordered =>
      obtain ⟨blocks, pool, rfl⟩ := ordered
      exact followAll_standingOf logged
  | imported _ _ _ _ logged _ ordered =>
      obtain ⟨blocks, pool, rfl⟩ := ordered
      exact followAll_standingOf logged
  | stopped _ _ ordered => exact ordered

theorem entriesOf_blocks_lt {α : Type} {entries : ℕ → LogPacket → String → List (ℕ × α)}
    (number : ∀ k packet account, ∀ entry ∈ entries k packet account, entry.1 = k)
    (blocks : List BlockLog) (account : String) :
    ∀ entry ∈ entriesOf entries (blocks.map .block) account, entry.1 < blocks.length := by
  induction blocks using List.reverseRecOn with
  | nil => exact fun _ none => absurd none List.not_mem_nil
  | append_singleton rest log ih =>
      intro entry member
      rw [List.map_append, List.map_singleton, entriesOf_concat] at member
      rw [List.length_append, List.length_singleton]
      rcases List.mem_append.mp member with before | last
      · exact (ih entry before).trans (Nat.lt_succ_self _)
      · rw [number _ _ _ entry last, blockCount_blocks]
        exact Nat.lt_succ_self _

theorem entriesOf_standingOf (blocks : List BlockLog) (pool : List TransactionLog)
    (account : String) : entriesOf transactionEntries (standingOf blocks pool) account =
      entriesOf transactionEntries (blocks.map .block) account ++
        listed blocks.length (touched · "") pool account := by
  induction pool using List.reverseRecOn with
  | nil =>
      rw [standingOf_nil]
      exact (List.append_nil _).symm
  | append_singleton rest log ih =>
      rw [standingOf_concat, entriesOf_concat, ih, blockCount_standingOf, listed_append, List.append_assoc]
      rfl

theorem rewardsOf_standingOf (blocks : List BlockLog) (pool : List TransactionLog)
    (account : String) : entriesOf rewardEntries (standingOf blocks pool) account =
      entriesOf rewardEntries (blocks.map .block) account := by
  induction pool using List.reverseRecOn with
  | nil => rw [standingOf_nil]
  | append_singleton rest log ih =>
      rw [standingOf_concat, SyncContext.rewardsOf_transaction, ih]

end Standing

def outgoing (account : String) (log : TransactionLog) : ℤ :=
  match transactionInfo log with
  | .ok info =>
      share info.source account info.amount.value + share info.source account info.fee.value
  | .error _ => 0

def incoming (account : String) (log : TransactionLog) : ℤ :=
  match transactionInfo log with
  | .ok info => share info.target account info.amount.value
  | .error _ => 0

def unconfirmedSent (standing : List LogPacket) (account : String) : ℤ :=
  ((poolOf standing).map (outgoing account)).sum

def unconfirmedReceived (standing : List LogPacket) (account : String) : ℤ :=
  ((poolOf standing).map (incoming account)).sum

def blockBalance (standing : List LogPacket) (account : String) : ℤ :=
  effectOfAll (standing.filter (· matches .block _)) account

section Amounts
variable {account : String} {blocks : List BlockLog} {pool : List TransactionLog}
  {log : TransactionLog} {info : TransactionInfo}

theorem outgoing_nonneg (account : String) (log : TransactionLog) : 0 ≤ outgoing account log := by
  unfold outgoing
  cases transactionInfo log with
  | error _ => exact le_rfl
  | ok info => exact add_nonneg (share_nonneg _ _ _) (share_nonneg _ _ _)

theorem incoming_nonneg (account : String) (log : TransactionLog) : 0 ≤ incoming account log := by
  unfold incoming
  cases transactionInfo log with
  | error _ => exact le_rfl
  | ok info => exact share_nonneg _ _ _

theorem unconfirmedSent_nonneg (standing : List LogPacket) (account : String) :
    0 ≤ unconfirmedSent standing account := by
  refine List.sum_nonneg fun x member => ?_
  obtain ⟨log, _, rfl⟩ := List.mem_map.mp member
  exact outgoing_nonneg account log

theorem unconfirmedReceived_nonneg (standing : List LogPacket) (account : String) :
    0 ≤ unconfirmedReceived standing account := by
  refine List.sum_nonneg fun x member => ?_
  obtain ⟨log, _, rfl⟩ := List.mem_map.mp member
  exact incoming_nonneg account log

theorem effectOf_pooled (named : account ≠ "") (log : TransactionLog) :
    effectOf log "" account = incoming account log - outgoing account log := by
  unfold effectOf incoming outgoing
  cases transactionInfo log with
  | error _ => rfl
  | ok info =>
      dsimp only [balancesWith]
      rw [share_of_ne (Ne.symm named)]
      omega

theorem blockBalance_standingOf (blocks : List BlockLog) (pool : List TransactionLog)
    (account : String) :
    blockBalance (standingOf blocks pool) account = effectOfAll (blocks.map .block) account := by
  unfold blockBalance standingOf
  rw [List.filter_append]
  have all : (blocks.map LogPacket.block).filter (· matches .block _) = blocks.map .block :=
    List.filter_eq_self.mpr fun packet member => by
      obtain ⟨log, _, rfl⟩ := List.mem_map.mp member
      rfl
  have none : (pool.map LogPacket.transaction).filter (· matches .block _) = [] :=
    List.filter_eq_nil_iff.mpr fun packet member => by
      obtain ⟨log, _, rfl⟩ := List.mem_map.mp member
      exact Bool.false_ne_true
  rw [all, none, List.append_nil]

theorem effectOfAll_standingOf (named : account ≠ "") :
    effectOfAll (standingOf blocks pool) account = blockBalance (standingOf blocks pool) account +
      unconfirmedReceived (standingOf blocks pool) account -
        unconfirmedSent (standingOf blocks pool) account := by
  rw [blockBalance_standingOf]
  unfold unconfirmedReceived unconfirmedSent
  rw [poolOf_standingOf]
  induction pool using List.reverseRecOn with
  | nil =>
      rw [standingOf_nil, List.map_nil, List.map_nil, List.sum_nil]
      omega
  | append_singleton rest log ih =>
      rw [standingOf_concat, effectOfAll_concat, ih]
      simp only [packetEffect, effectOf_pooled named, List.map_append, List.sum_append,
        List.map_singleton, List.sum_singleton]
      omega

/-- What a transaction moves besides its fee: a transfer, a sponsorship or nothing. -/
theorem moved_cases (known : transactionInfo log = .ok info) : info.fee = log.fee ∧
    ((∃ tf, log.action = .transfer tf ∧ info.source = tf.source ∧ info.target = tf.target ∧
        info.amount = tf.amount) ∨
      (∃ scu, log.action = .sponsorContentUnit scu ∧ info.source = scu.sponsorAddress ∧
        info.target = "" ∧ info.amount = scu.amount) ∨
      info.amount = 0 ∧ ∀ head block address, actionItems head block address log = []) := by
  unfold transactionInfo at known
  unfold actionItems
  cases action : log.action with
  | transfer tf =>
      rw [action] at known
      obtain rfl := pure_ok_iff.mp known
      exact ⟨rfl, .inl ⟨tf, rfl, rfl, rfl, rfl⟩⟩
  | sponsorContentUnit scu =>
      rw [action] at known
      obtain rfl := pure_ok_iff.mp known
      exact ⟨rfl, .inr (.inl ⟨scu, rfl, rfl, rfl, rfl⟩)⟩
  | file _ | contentUnit _ =>
      rw [action] at known
      obtain ⟨_, _, known⟩ := bind_ok_iff.mp known
      obtain rfl := pure_ok_iff.mp known
      exact ⟨rfl, .inr (.inr ⟨rfl, fun _ _ _ => rfl⟩)⟩
  | content _ | role _ | storageUpdate _ | serviceStatistics _ | cancelSponsorContentUnit _ =>
      rw [action] at known
      obtain rfl := pure_ok_iff.mp known
      exact ⟨rfl, .inr (.inr ⟨rfl, fun _ _ _ => rfl⟩)⟩
  | authorizationUpdate _ | unknown _ =>
      rw [action] at known
      cases known

end Amounts

theorem known_of_entry {standing : List LogPacket} {account : String} {entry : ℕ × TransactionLog}
    (member : entry ∈ entriesOf transactionEntries standing account) :
    ∃ info, transactionInfo entry.2 = .ok info := by
  have known : ∀ log authority, account ∈ touched log authority →
      ∃ info, transactionInfo log = .ok info := by
    intro log authority here
    unfold touched at here
    cases known : transactionInfo log with
    | error _ =>
        rw [known] at here
        cases here
    | ok info => exact ⟨info, rfl⟩
  have listed_known : ∀ {k authority logs}, entry ∈ listed k (touched · authority) logs account →
      ∃ info, transactionInfo entry.2 = .ok info := by
    intro k authority logs member
    obtain ⟨log, here, rfl⟩ := List.mem_map.mp member
    exact known log authority (by simpa using (List.mem_filter.mp here).2)
  obtain ⟨⟨packet, i⟩, _, member⟩ := List.mem_flatMap.mp member
  cases packet with
  | block log => exact listed_known member
  | transaction log => exact listed_known member

def headBlock (standing : List LogPacket) : Option BlockLog :=
  (standing.filterMap fun packet => match packet with
    | .block log => some log
    | .transaction _ => none).getLast?

def RewardedByHead (standing : List LogPacket) (account : String) : Prop :=
  ∃ log, headBlock standing = some log ∧ ∃ reward ∈ log.rewards, reward.target = account

section Head
variable {blocks : List BlockLog} {pool : List TransactionLog} {account : String}

theorem headBlock_standingOf : headBlock (standingOf blocks pool) = blocks.getLast? := by
  unfold headBlock standingOf
  rw [List.filterMap_append, List.filterMap_map, List.filterMap_map]
  have none : pool.filterMap ((fun packet : LogPacket => match packet with
      | .block log => some log
      | .transaction _ => none) ∘ LogPacket.transaction) = [] :=
    List.filterMap_eq_nil_iff.mpr fun _ _ => rfl
  rw [none, List.append_nil]
  exact congrArg List.getLast? List.filterMap_some

/-- The rewards of the head block are counted under its number. -/
theorem countAt_rewards_head (init : List BlockLog) (last : BlockLog) (account : String) :
    IndexedLog.countAt init.length
        (entriesOf rewardEntries (standingOf (init ++ [last]) pool) account) ≠ 0 ↔
      RewardedByHead (standingOf (init ++ [last]) pool) account := by
  have before : IndexedLog.countAt init.length
      (entriesOf rewardEntries (init.map .block) account) = 0 :=
    countAt_eq_zero_of_lt
      (entriesOf_blocks_lt (fun _ _ _ _ => eq_of_mem_rewardEntries) init account) le_rfl
  have count : IndexedLog.countAt init.length
      (entriesOf rewardEntries (standingOf (init ++ [last]) pool) account) =
        (listed init.length (fun reward : Reward => [reward.target]) last.rewards
          account).length := by
    rw [rewardsOf_standingOf, List.map_append, List.map_singleton, entriesOf_concat,
      blockCount_blocks, IndexedLog.countAt, List.countP_append]
    refine (congrArg₂ _ before (List.countP_eq_length.mpr fun entry member => ?_)).trans
      (Nat.zero_add _)
    exact decide_eq_true (eq_of_mem_listed member)
  rw [count, Ne, List.length_eq_zero_iff]
  unfold RewardedByHead
  rw [headBlock_standingOf, List.getLast?_concat]
  constructor
  · intro some
    obtain ⟨entry, member⟩ := List.exists_mem_of_ne_nil _ some
    obtain ⟨reward, here, _⟩ := List.mem_map.mp member
    obtain ⟨inside, same⟩ := List.mem_filter.mp here
    exact ⟨last, rfl, reward, inside, (by simpa using same : account = reward.target).symm⟩
  · rintro ⟨log, eq, reward, inside, rfl⟩ none
    obtain rfl := Option.some.inj eq
    have member : (init.length, reward) ∈ listed init.length
        (fun reward : Reward => [reward.target]) last.rewards reward.target :=
      List.mem_map.mpr ⟨reward, List.mem_filter.mpr ⟨inside, by simp⟩, rfl⟩
    rw [none] at member
    cases member

end Head

end Publiq
