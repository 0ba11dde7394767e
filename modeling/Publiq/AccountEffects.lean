import Publiq.AccountLogs
import Mathlib.Data.Int.ModEq

/-! What the entries of the log change of the balances that the explorer keeps: every update adds
or takes its amount, as far as a coin can tell. -/
namespace Publiq
open Message Checked CommanderMessage

def share (key a : String) (x : ℤ) : ℤ := if key = a then x else 0

@[simp] theorem share_self (a : String) (x : ℤ) : share a a x = x := if_pos rfl

theorem share_of_ne {key a : String} (h : key ≠ a) (x : ℤ) : share key a x = 0 := if_neg h

@[simp] theorem share_zero (key a : String) : share key a 0 = 0 := ite_self 0

theorem share_neg (key a : String) (x : ℤ) : share key a (-x) = -share key a x := by
  unfold share
  split_ifs <;> simp

theorem share_nonneg (key a : String) (n : ℕ) : 0 ≤ share key a n := by
  unfold share
  split_ifs <;> omega

def UpdateBalanceType.signed (type : UpdateBalanceType) (n : ℕ) : ℤ :=
  match type with
  | .increase => n
  | .decrease => -n

def balancesWith (info : TransactionInfo) (authority : String) (f : String → ℤ) (a : String) : ℤ :=
  f a - share info.source a info.amount.value + share info.target a info.amount.value -
    share info.source a info.fee.value + share authority a info.fee.value

def BalanceIs (stored : Std.ExtTreeMap String Account) (account : String) (x : ℤ) : Prop :=
  ∃ coin : Publiq.Coin, stored[account]?.getD ⟨account, 0⟩ = ⟨account, coin.toMessage⟩ ∧
    (coin.value : ℤ) ≡ x [ZMOD Coin.limit]

def effectOf (log : TransactionLog) (authority account : String) : ℤ :=
  match transactionInfo log with
  | .ok info => balancesWith info authority (fun _ => 0) account
  | .error _ => 0

def packetEffect (account : String) : LogPacket → ℤ
  | .block log =>
      (log.transactions.map fun transaction => effectOf transaction log.authority account).sum +
        (log.rewards.map fun reward => share reward.target account reward.amount.value).sum
  | .transaction log => effectOf log "" account

def effectOfAll (standing : List LogPacket) (account : String) : ℤ :=
  (standing.map (packetEffect account)).sum

def LoggingType.signed (type : LoggingType) (x : ℤ) : ℤ :=
  match type with
  | .apply => x
  | .revert => -x

def ProperFor (account : String) (log : TransactionLog) : Prop :=
  ∀ info, transactionInfo log = .ok info →
    (info.source = account → info.amount.Proper ∧ info.fee.Proper) ∧
      (info.target = account → info.amount.Proper)

section Balances
variable [Externals] {accounts : List String} {account key : String} {amount : Message.Coin}
  {stored after : Std.ExtTreeMap String Account} {x : ℤ}

omit [Externals] in
theorem balanceIs_fresh (missing : stored[account]? = none) : BalanceIs stored account 0 := by
  refine ⟨0, ?_, ?_⟩
  · rw [missing]
    rfl
  · rw [Coin.value_zero]
    exact Int.ModEq.refl _

/-- What an update of an account does to the store. -/
theorem updateBalance_cases {type : UpdateBalanceType}
    (run : updateBalance accounts key amount type stored = .ok after) :
    (key ∉ accounts ∧ after = stored) ∨
      key ∈ accounts ∧ ∃ balance change new : Publiq.Coin,
        Coin.ofMessage (stored[key]?.getD ⟨key, 0⟩).balance = .ok balance ∧
        Coin.ofMessage amount = .ok change ∧
        (new.value : ℤ) ≡ balance.value + type.signed amount.value [ZMOD Coin.limit] ∧
        after = stored.insert key
          { stored[key]?.getD ⟨key, 0⟩ with balance := new.toMessage } := by
  unfold updateBalance at run
  by_cases followed : key ∈ accounts
  swap
  · rw [if_neg followed] at run
    exact .inl ⟨followed, (pure_ok_iff.mp run).symm⟩
  rw [if_pos followed] at run
  obtain ⟨_, _, run⟩ := bind_ok_iff.mp run
  obtain ⟨balance, held, run⟩ := bind_ok_iff.mp run
  obtain ⟨change, proper, run⟩ := bind_ok_iff.mp run
  have changed := (Coin.proper_of_ofMessage proper).2
  refine .inr ⟨followed, balance, change, ?_⟩
  cases type with
  | increase =>
      refine ⟨balance + change, held, proper, ?_, (pure_ok_iff.mp run).symm⟩
      rw [Coin.value_add_mod, changed]
      push_cast
      exact Int.mod_modEq _ _
  | decrease =>
      obtain ⟨new, rest, run⟩ := bind_ok_iff.mp run
      refine ⟨new, held, proper, ?_, (pure_ok_iff.mp run).symm⟩
      have value := Coin.value_sub rest
      have difference : (new.value : ℤ) = balance.value + -(amount.value : ℤ) := by omega
      rw [difference]
      exact Int.ModEq.refl _

theorem updateBalance_other {other : String} {type : UpdateBalanceType}
    (untouched : other ∈ accounts → key ≠ other)
    (run : updateBalance accounts key amount type stored = .ok after) :
    after[other]? = stored[other]? := by
  rcases updateBalance_cases run with ⟨_, rfl⟩ | ⟨followed, _, _, _, _, _, _, rfl⟩
  · rfl
  · rw [Std.ExtTreeMap.getElem?_insert, if_neg]
    intro same
    have same := Std.compare_eq_iff_eq.mp same
    exact untouched (same ▸ followed) same

/-- What some updates of followed accounts do to the store. -/
structure Changes (accounts : List String) (effect : String → ℤ)
    (stored after : Std.ExtTreeMap String Account) : Prop where
  others : ∀ other ∉ accounts, after[other]? = stored[other]?
  kept : ∀ key, key ∈ stored → key ∈ after
  balances : ∀ a ∈ accounts, a ≠ "" → ∀ x, BalanceIs stored a x → BalanceIs after a (x + effect a)

omit [Externals] in
theorem Changes.refl : Changes accounts (fun _ => 0) stored stored where
  others _ _ := rfl
  kept _ held := held
  balances a _ _ x balance := by
    rw [add_zero]
    exact balance

omit [Externals] in
theorem Changes.trans {f g : String → ℤ} {mid : Std.ExtTreeMap String Account}
    (first : Changes accounts f stored mid) (second : Changes accounts g mid after) :
    Changes accounts (fun a => f a + g a) stored after where
  others other untracked := (second.others other untracked).trans (first.others other untracked)
  kept key held := second.kept key (first.kept key held)
  balances a tracked named x balance := by
    rw [← add_assoc]
    exact second.balances a tracked named _ (first.balances a tracked named x balance)

omit [Externals] in
theorem Changes.congr {f g : String → ℤ} (changes : Changes accounts f stored after)
    (same : ∀ a, a ≠ "" → f a = g a) : Changes accounts g stored after where
  others := changes.others
  kept := changes.kept
  balances a tracked named x balance := by
    rw [← same a named]
    exact changes.balances a tracked named x balance

theorem updateBalance_changes {type : UpdateBalanceType}
    (run : updateBalance accounts key amount type stored = .ok after) :
    Changes accounts (fun a => share key a (type.signed amount.value)) stored after where
  others other untracked := updateBalance_other (fun tracked => absurd tracked untracked) run
  kept other held := by
    rcases updateBalance_cases run with ⟨_, rfl⟩ | ⟨_, _, _, _, _, _, _, rfl⟩
    · exact held
    · exact Std.ExtTreeMap.mem_insert.mpr (.inr held)
  balances a tracked named x balance := by
    obtain ⟨coin, held, value⟩ := balance
    by_cases same : key = a
    swap
    · refine ⟨coin, ?_, ?_⟩
      · rw [updateBalance_other (fun _ => same) run]
        exact held
      · rw [share_of_ne same, add_zero]
        exact value
    subst same
    rcases updateBalance_cases run with
      ⟨untracked, _⟩ | ⟨_, old, _, new, has, _, changed, rfl⟩
    · exact absurd tracked untracked
    rw [held, Coin.ofMessage_toMessage] at has
    obtain rfl := Except.ok.inj has
    refine ⟨new, ?_, ?_⟩
    · rw [Std.ExtTreeMap.getElem?_insert_self, held]
      rfl
    · rw [share_self]
      exact changed.trans (value.add_right _)

theorem updateBalance_proper {type : UpdateBalanceType} (tracked : key ∈ accounts)
    (run : updateBalance accounts key amount type stored = .ok after) : amount.Proper := by
  rcases updateBalance_cases run with ⟨untracked, _⟩ | ⟨_, _, _, _, _, proper, _⟩
  · exact absurd tracked untracked
  · exact (Coin.proper_of_ofMessage proper).1

theorem updateNamed_changes {type : UpdateBalanceType}
    (run : updateNamed accounts key amount type stored = .ok after) :
    Changes accounts (fun a => share key a (type.signed amount.value)) stored after := by
  unfold updateNamed at run
  by_cases empty : key = ""
  · rw [if_pos empty] at run
    obtain rfl := pure_ok_iff.mp run
    refine Changes.refl.congr fun a named => ?_
    rw [share_of_ne fun same : key = a => named (same ▸ empty)]
  · rw [if_neg empty] at run
    exact updateBalance_changes run

theorem updateNamed_proper {type : UpdateBalanceType} (tracked : key ∈ accounts)
    (named : key ≠ "") (run : updateNamed accounts key amount type stored = .ok after) :
    amount.Proper := by
  unfold updateNamed at run
  rw [if_neg named] at run
  exact updateBalance_proper tracked run

theorem updateBoth_cases {first second : String} {firstType secondType : UpdateBalanceType}
    (run : updateBoth accounts amount first second firstType secondType stored = .ok after) :
    (amount = 0 ∧ after = stored) ∨
      ∃ mid, updateNamed accounts first amount firstType stored = .ok mid ∧
        updateNamed accounts second amount secondType mid = .ok after := by
  unfold updateBoth at run
  by_cases zero : amount = 0
  · rw [if_pos zero] at run
    exact .inl ⟨zero, (pure_ok_iff.mp run).symm⟩
  · rw [if_neg zero] at run
    exact .inr (bind_ok_iff.mp run)

theorem updateBoth_changes {first second : String} {firstType secondType : UpdateBalanceType}
    (run : updateBoth accounts amount first second firstType secondType stored = .ok after) :
    Changes accounts (fun a => share first a (firstType.signed amount.value) +
      share second a (secondType.signed amount.value)) stored after := by
  rcases updateBoth_cases run with ⟨rfl, rfl⟩ | ⟨mid, one, other⟩
  · refine Changes.refl.congr fun a _ => ?_
    rw [Message.Coin.value_zero]
    cases firstType <;> cases secondType <;> simp [UpdateBalanceType.signed]
  · exact (updateNamed_changes one).trans (updateNamed_changes other)

theorem updateBoth_proper {first second : String} {firstType secondType : UpdateBalanceType}
    (named : account ≠ "") (tracked : account ∈ accounts)
    (party : first = account ∨ second = account)
    (run : updateBoth accounts amount first second firstType secondType stored = .ok after) :
    amount.Proper := by
  rcases updateBoth_cases run with ⟨rfl, _⟩ | ⟨mid, one, other⟩
  · rfl
  · rcases party with rfl | rfl
    · exact updateNamed_proper tracked named one
    · exact updateNamed_proper tracked named other

theorem updateBalances_changes {log : TransactionLog} {authority : String} {type : LoggingType}
    (run : updateBalances accounts log authority type stored = .ok after) :
    Changes accounts (fun a => type.signed (effectOf log authority a)) stored after := by
  unfold updateBalances at run
  obtain ⟨info, known, run⟩ := bind_ok_iff.mp run
  cases type with
  | apply =>
      obtain ⟨mid, amount, fee⟩ := bind_ok_iff.mp run
      refine ((updateBoth_changes amount).trans (updateBoth_changes fee)).congr fun a _ => ?_
      simp only [effectOf, known, balancesWith, LoggingType.signed, UpdateBalanceType.signed,
        share_neg]
      omega
  | revert =>
      obtain ⟨mid, amount, fee⟩ := bind_ok_iff.mp run
      refine ((updateBoth_changes amount).trans (updateBoth_changes fee)).congr fun a _ => ?_
      simp only [effectOf, known, balancesWith, LoggingType.signed, UpdateBalanceType.signed,
        share_neg]
      omega

theorem updateBalances_proper {log : TransactionLog} {authority : String} {type : LoggingType}
    (named : account ≠ "") (tracked : account ∈ accounts)
    (run : updateBalances accounts log authority type stored = .ok after) :
    ProperFor account log := by
  unfold updateBalances at run
  obtain ⟨info, known, run⟩ := bind_ok_iff.mp run
  intro info' known'
  obtain rfl := Except.ok.inj (known.symm.trans known')
  cases type with
  | apply =>
      obtain ⟨mid, amount, fee⟩ := bind_ok_iff.mp run
      exact ⟨fun pays => ⟨updateBoth_proper named tracked (.inl pays) amount,
        updateBoth_proper named tracked (.inl pays) fee⟩,
        fun gets => updateBoth_proper named tracked (.inr gets) amount⟩
  | revert =>
      obtain ⟨mid, amount, fee⟩ := bind_ok_iff.mp run
      exact ⟨fun pays => ⟨updateBoth_proper named tracked (.inl pays) amount,
        updateBoth_proper named tracked (.inl pays) fee⟩,
        fun gets => updateBoth_proper named tracked (.inr gets) amount⟩

end Balances

theorem effectOfAll_concat (standing : List LogPacket) (packet : LogPacket) (account : String) :
    effectOfAll (standing ++ [packet]) account =
      effectOfAll standing account + packetEffect account packet := by
  unfold effectOfAll
  rw [List.map_append, List.sum_append]
  simp

def entryEffect (info : LoggedTransaction) (account : String) : ℤ :=
  if info.reverted then -packetEffect account info.action else packetEffect account info.action

theorem effectOfAll_follow {info : LoggedTransaction} {standing stands : List LogPacket}
    (logged : follow info standing = some stands) (account : String) :
    effectOfAll stands account = effectOfAll standing account + entryEffect info account := by
  rcases follow_cases logged with
    ⟨index, log, rfl, _, rfl⟩ | ⟨index, log, rfl, _, rfl⟩ | ⟨index, packet, rfl, _, rfl⟩
  · exact effectOfAll_concat standing _ account
  · exact effectOfAll_concat standing _ account
  · rw [effectOfAll_concat, entryEffect, if_pos rfl]
    exact (add_neg_cancel_right _ _).symm

def blocksAfter (info : LoggedTransaction) (blocks : List BlockInfo) : List BlockInfo :=
  match info.reverted, info.action with
  | false, .block log => blocks ++ [Commander.blockInfo log]
  | true, .block _ => blocks.dropLast
  | _, .transaction _ => blocks

theorem blocksAfter_length {info : LoggedTransaction} {standing stands : List LogPacket}
    (logged : follow info standing = some stands) {blocks : List BlockInfo}
    (shown : blocks.length = blockCount standing) :
    (blocksAfter info blocks).length = blockCount stands := by
  rcases follow_cases logged with
    ⟨index, log, rfl, _, rfl⟩ | ⟨index, log, rfl, _, rfl⟩ | ⟨index, packet, rfl, _, rfl⟩
  · rw [blockCount_concat_block, ← shown]
    exact List.length_append
  · rw [blockCount_concat_transaction]
    exact shown
  · cases packet with
    | block log =>
        rw [blockCount_concat_block] at shown
        change blocks.dropLast.length = _
        rw [List.length_dropLast, shown]
        rfl
    | transaction log =>
        rw [blockCount_concat_transaction] at shown
        exact shown

namespace Commander
variable [Externals] {c after : Commander} {info : LoggedTransaction}
  {standing stands : List LogPacket}

/-- What reading some transactions or rewards does to the balances; it does nothing to the blocks
and to what the context is for. -/
structure Moves (effect : String → ℤ) (c after : Commander) : Prop where
  setAccounts : after.setAccounts = c.setAccounts
  newImport : after.newImport = c.newImport
  blocks : after.blocks = c.blocks
  changes : Changes c.setAccounts effect c.accounts after.accounts

omit [Externals] in
theorem Moves.trans {f g : String → ℤ} {mid : Commander} (first : Moves f c mid)
    (second : Moves g mid after) : Moves (fun a => f a + g a) c after where
  setAccounts := second.setAccounts.trans first.setAccounts
  newImport := second.newImport.trans first.newImport
  blocks := second.blocks.trans first.blocks
  changes := by
    have changes := second.changes
    rw [first.setAccounts] at changes
    exact first.changes.trans changes

omit [Externals] in
theorem runAll_moves {α : Type} {step : α → Commander → Checked Commander}
    {effect : α → String → ℤ}
    (each : ∀ x c after, step x c = .ok after → Moves (effect x) c after) {xs : List α}
    (run : runAll step xs c = .ok after) :
    Moves (fun a => (xs.map fun x => effect x a).sum) c after := by
  induction xs generalizing c with
  | nil =>
      cases run
      exact ⟨rfl, rfl, rfl, Changes.refl⟩
  | cons x rest ih =>
      obtain ⟨mid, first, run⟩ := runAll_cons_ok_iff.mp run
      have moves := (each x c mid first).trans (ih run)
      simp only [List.map_cons, List.sum_cons]
      exact moves

theorem processLogged_moves {k : ℕ} {authority : String} {statistics : Bool} {type : LoggingType}
    {log : TransactionLog} (run : processLogged k authority statistics type log c = .ok after) :
    Moves (fun a => type.signed (effectOf log authority a)) c after := by
  simp only [processLogged, bind_ok_iff, pure_ok_iff] at run
  obtain ⟨_, _, _, _, accounts, update, _, _, rfl⟩ := run
  exact ⟨rfl, rfl, rfl, updateBalances_changes update⟩

theorem processRewarded_moves {k : ℕ} {type : LoggingType} {reward : Reward}
    (run : processRewarded k type reward c = .ok after) :
    Moves (fun a => type.signed (share reward.target a reward.amount.value)) c after := by
  simp only [processRewarded, bind_ok_iff, pure_ok_iff] at run
  obtain ⟨accounts, update, _, _, rfl⟩ := run
  refine ⟨rfl, rfl, rfl, (updateBalance_changes update).congr fun a _ => ?_⟩
  cases type with
  | apply => rfl
  | revert => exact share_neg reward.target a reward.amount.value

omit [Externals] in
theorem sum_reverted {α : Type} (xs : List α) (f : α → ℤ) :
    (xs.reverse.map fun x => LoggingType.revert.signed (f x)).sum = -(xs.map f).sum := by
  rw [List.map_reverse, List.sum_reverse]
  induction xs with
  | nil => rfl
  | cons x rest ih =>
      rw [List.map_cons, List.map_cons, List.sum_cons, List.sum_cons, ih, neg_add]
      rfl

theorem block_moves {k : ℕ} {log : BlockLog} {statistics : Bool} {type : LoggingType}
    {transactions : List TransactionLog} {rewards : List Reward} {mid : Commander}
    (one : runAll (processLogged k log.authority statistics type) transactions c = .ok mid)
    (other : runAll (processRewarded k type) rewards mid = .ok after) :
    Moves (fun a =>
      (transactions.map fun log' => type.signed (effectOf log' log.authority a)).sum +
        (rewards.map fun reward =>
          type.signed (share reward.target a reward.amount.value)).sum) c after := by
  have first : Moves (fun a => (transactions.map fun log' =>
      type.signed (effectOf log' log.authority a)).sum) c mid :=
    runAll_moves (fun _ _ _ run => processLogged_moves run) one
  have second : Moves (fun a => (rewards.map fun reward =>
      type.signed (share reward.target a reward.amount.value)).sum) mid after :=
    runAll_moves (fun _ _ _ run => processRewarded_moves run) other
  exact first.trans second

theorem applyBlockLog_moves {first : Bool} {log : BlockLog}
    (run : c.applyBlockLog first log = .ok after) :
    ∃ shown, shown.accounts = c.accounts ∧ shown.setAccounts = c.setAccounts ∧
      shown.newImport = c.newImport ∧
      shown.blocks = (if c.newImport then c.blocks else c.blocks ++ [blockInfo log]) ∧
      Moves (fun a => packetEffect a (.block log)) shown after := by
  unfold applyBlockLog at run
  dsimp only at run
  change (if c.newImport = true then _ else _) = _ at run
  by_cases imports : c.newImport = true
  · rw [if_pos imports] at run
    obtain ⟨_, shown, run⟩ := bind_ok_iff.mp run
    obtain rfl := pure_ok_iff.mp shown
    obtain ⟨mid, one, other⟩ := bind_ok_iff.mp run
    refine ⟨_, ?_, ?_, ?_, ?_, block_moves one other⟩
    · rfl
    · rfl
    · rfl
    · exact (if_pos imports).symm
  · rw [if_neg imports] at run
    obtain ⟨_, run⟩ := require_bind_ok_iff.mp run
    obtain ⟨_, shown, run⟩ := bind_ok_iff.mp run
    obtain rfl := pure_ok_iff.mp shown
    obtain ⟨mid, one, other⟩ := bind_ok_iff.mp run
    refine ⟨_, ?_, ?_, ?_, ?_, block_moves one other⟩
    · rfl
    · rfl
    · rfl
    · exact (if_neg imports).symm

theorem revertBlockLog_moves {log : BlockLog} (run : c.revertBlockLog log = .ok after) :
    ∃ left, Moves (fun a => -packetEffect a (.block log)) c left ∧
      after.accounts = left.accounts ∧ after.setAccounts = left.setAccounts ∧
      after.newImport = left.newImport ∧
      after.blocks = (if c.newImport then c.blocks else c.blocks.dropLast) := by
  unfold revertBlockLog at run
  obtain ⟨mid, one, run⟩ := bind_ok_iff.mp run
  obtain ⟨left, other, run⟩ := bind_ok_iff.mp run
  have moves := block_moves one other
  have same : left.newImport = c.newImport := moves.newImport
  have shown : left.blocks = c.blocks := moves.blocks
  refine ⟨left, ⟨moves.setAccounts, moves.newImport, moves.blocks,
    moves.changes.congr fun a _ => ?_⟩, ?_⟩
  · rw [sum_reverted, sum_reverted, ← neg_add]
    rfl
  · rw [← same, ← shown]
    by_cases imports : left.newImport = true
    · rw [if_pos imports] at run ⊢
      obtain rfl := pure_ok_iff.mp run
      exact ⟨rfl, rfl, rfl, rfl⟩
    · rw [if_neg imports] at run ⊢
      obtain ⟨_, run⟩ := require_bind_ok_iff.mp run
      obtain rfl := pure_ok_iff.mp run
      exact ⟨rfl, rfl, rfl, rfl⟩

theorem processAction_moves (run : c.processAction info = .ok after) :
    after.setAccounts = c.setAccounts ∧ after.newImport = c.newImport ∧
      after.blocks = (if c.newImport then c.blocks else blocksAfter info c.blocks) ∧
      Changes c.setAccounts (entryEffect info) c.accounts after.accounts := by
  rcases info with ⟨_ | _, index, log | log⟩
  · obtain ⟨shown, accounts, set, imports, blocks, moves⟩ := applyBlockLog_moves run
    refine ⟨moves.setAccounts.trans set, moves.newImport.trans imports,
      moves.blocks.trans blocks, ?_⟩
    have changes := moves.changes
    rw [set, accounts] at changes
    exact changes
  · have moves := processLogged_moves run
    exact ⟨moves.setAccounts, moves.newImport, moves.blocks.trans (ite_self _).symm, moves.changes⟩
  · obtain ⟨left, moves, accounts, set, imports, blocks⟩ := revertBlockLog_moves run
    refine ⟨set.trans moves.setAccounts, imports.trans moves.newImport, blocks, ?_⟩
    rw [accounts]
    exact moves.changes
  · have moves := processLogged_moves run
    exact ⟨moves.setAccounts, moves.newImport, moves.blocks.trans (ite_self _).symm, moves.changes⟩

end Commander
end Publiq
