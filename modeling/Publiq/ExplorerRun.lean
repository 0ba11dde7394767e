import Publiq.AccountEffects

/-! The explorer over many syncs and imports, with the balances beside the logs: every balance is
what the entries that stand have changed, whatever becomes of the logs of the rewards. -/
namespace Publiq
open Message Checked CommanderMessage

def CountsEntries {α : Type} (entries : List (ℕ × α)) (il : IndexedLog α) : Prop :=
  ∀ k : ℕ, (il.index[k]?).map NumberPair.second =
    if IndexedLog.countAt k entries = 0 then none else some (IndexedLog.countAt k entries)

def KeepsCounts {α : Type} (accounts : List String) (entriesOf : String → List (ℕ × α))
    (logs : IndexedLogs α) : Prop :=
  ∀ account ∈ accounts, CountsEntries (entriesOf account) (logs[account]?.getD default)

section Counts
variable {α : Type} {entries : List (ℕ × α)} {il after : IndexedLog α} {what : String} {k : ℕ}
  {x : α}

theorem countsEntries_default : CountsEntries ([] : List (ℕ × α)) default := by
  intro k
  change ((∅ : Std.ExtTreeMap ℕ NumberPair)[k]?).map _ = _
  rw [Std.ExtTreeMap.getElem?_empty]
  rfl

theorem countsEntries_insert {others : List (ℕ × α)} (counted : CountsEntries others il)
    (same : ∀ other, k ≠ other → IndexedLog.countAt other entries =
      IndexedLog.countAt other others) {log : List α} {pair : NumberPair}
    (here : pair.second = IndexedLog.countAt k entries) (some : pair.second ≠ 0) :
    CountsEntries entries ⟨log, il.index.insert k pair⟩ := by
  intro other
  dsimp only
  rw [Std.ExtTreeMap.getElem?_insert]
  by_cases key : k = other
  · subst key
    rw [if_pos (by simp), ← here, if_neg some]
    rfl
  · rw [if_neg (by simpa using key), same other key]
    exact counted other

theorem countsEntries_erase {others : List (ℕ × α)} (counted : CountsEntries others il)
    (same : ∀ other, k ≠ other → IndexedLog.countAt other entries =
      IndexedLog.countAt other others) {log : List α}
    (none : IndexedLog.countAt k entries = 0) : CountsEntries entries ⟨log, il.index.erase k⟩ := by
  intro other
  dsimp only
  rw [Std.ExtTreeMap.getElem?_erase]
  by_cases key : k = other
  · subst key
    rw [if_pos (by simp), none]
    rfl
  · rw [if_neg (by simpa using key), same other key]
    exact counted other

theorem countAt_concat_other {other : ℕ} (apart : k ≠ other) :
    IndexedLog.countAt other (entries ++ [(k, x)]) = IndexedLog.countAt other entries := by
  rw [IndexedLog.countAt_concat, if_neg apart, Nat.add_zero]

theorem countAt_concat_self :
    IndexedLog.countAt k (entries ++ [(k, x)]) = IndexedLog.countAt k entries + 1 := by
  rw [IndexedLog.countAt_concat, if_pos rfl]

theorem CountsEntries.add (counted : CountsEntries entries il) (run : il.add what k x = .ok after) :
    CountsEntries (entries ++ [(k, x)]) after := by
  have before := counted k
  unfold IndexedLog.add at run
  dsimp only at run
  cases held : il.index[k]? with
  | none =>
      rw [held] at run before
      obtain rfl := pure_ok_iff.mp run
      have none : IndexedLog.countAt k entries = 0 := by
        by_contra some
        rw [if_neg some] at before
        cases before
      refine countsEntries_insert counted (fun _ apart => countAt_concat_other apart) ?_ Nat.one_ne_zero
      rw [countAt_concat_self, none]
  | some stored =>
      rw [held] at run before
      obtain ⟨_, run⟩ := require_bind_ok_iff.mp run
      obtain rfl := pure_ok_iff.mp run
      have count : stored.second = IndexedLog.countAt k entries := by
        by_cases none : IndexedLog.countAt k entries = 0
        · rw [if_pos none] at before
          cases before
        · rw [if_neg none] at before
          exact Option.some.inj before
      refine countsEntries_insert counted (fun _ apart => countAt_concat_other apart) ?_
        (Nat.succ_ne_zero _)
      rw [countAt_concat_self, ← count]

/-- Wherever an entry is removed, it is no longer counted. -/
theorem CountsEntries.remove (counted : CountsEntries (entries ++ [(k, x)]) il)
    (run : il.remove what k = .ok after) : CountsEntries entries after := by
  have before := counted k
  rw [countAt_concat_self, if_neg (Nat.succ_ne_zero _)] at before
  unfold IndexedLog.remove at run
  obtain ⟨_, run⟩ := require_bind_ok_iff.mp run
  dsimp only at run
  cases held : il.index[k]? with
  | none =>
      rw [held] at before
      cases before
  | some stored =>
      rw [held] at run before
      have count : stored.second = IndexedLog.countAt k entries + 1 := Option.some.inj before
      obtain ⟨_, run⟩ := require_bind_ok_iff.mp run
      obtain rfl := pure_ok_iff.mp run
      have same : ∀ other, k ≠ other → IndexedLog.countAt other entries =
          IndexedLog.countAt other (entries ++ [(k, x)]) :=
        fun _ apart => (countAt_concat_other apart).symm
      by_cases last : stored.second = 1
      · rw [if_pos last]
        exact countsEntries_erase counted same (by omega)
      · rw [if_neg last]
        refine countsEntries_insert counted same ?_ ?_
        · change stored.second - 1 = _
          omega
        · change stored.second - 1 ≠ 0
          omega

variable {accounts : List String} {account : String} {entriesOf others : String → List (ℕ × α)}
  {logs logged : IndexedLogs α}

/-- What `process_reward` does to the log of its account, and to no other. -/
theorem processEntry_cases {type : LoggingType}
    (run : processEntry what accounts k account x type logs = .ok logged) :
    (account ∉ accounts ∧ logged = logs) ∨
      account ∈ accounts ∧ ∃ il, logged = logs.insert account il ∧
        match type with
        | .apply => (logs[account]?.getD default).add what k x = .ok il
        | .revert => (logs[account]?.getD default).remove what k = .ok il := by
  unfold processEntry at run
  by_cases tracked : account ∈ accounts
  · rw [if_pos tracked] at run
    cases type with
    | apply =>
        obtain ⟨il, step, run⟩ := bind_ok_iff.mp run
        exact .inr ⟨tracked, il, (pure_ok_iff.mp run).symm, step⟩
    | revert =>
        obtain ⟨il, step, run⟩ := bind_ok_iff.mp run
        exact .inr ⟨tracked, il, (pure_ok_iff.mp run).symm, step⟩
  · rw [if_neg tracked] at run
    exact .inl ⟨tracked, (pure_ok_iff.mp run).symm⟩

theorem keepsCounts_insert {il : IndexedLog α} (keeps : KeepsCounts accounts entriesOf logs)
    (same : ∀ a ∈ accounts, a ≠ account → others a = entriesOf a)
    (counted : CountsEntries (others account) il) :
    KeepsCounts accounts others (logs.insert account il) := by
  intro a tracked
  rw [Std.ExtTreeMap.getElem?_insert]
  by_cases key : account = a
  · subst key
    rw [if_pos (by simp)]
    exact counted
  · rw [if_neg (by simpa using key), same a tracked (Ne.symm key)]
    exact keeps a tracked

theorem KeepsCounts.congr (keeps : KeepsCounts accounts entriesOf logs)
    (same : ∀ a ∈ accounts, others a = entriesOf a) : KeepsCounts accounts others logs := by
  intro a tracked
  rw [same a tracked]
  exact keeps a tracked

theorem listed_one (who : α → String) (a : String) :
    listed k (fun x => [who x]) [x] a = if a = who x then [(k, x)] else [] := by
  unfold listed
  by_cases here : a = who x
  · simp [here]
  · simp [here]

theorem listed_other {who : α → String} {a : String} (apart : a ≠ who x) :
    entriesOf a ++ listed k (fun x => [who x]) [x] a = entriesOf a := by
  rw [listed_one, if_neg apart, List.append_nil]

theorem KeepsCounts.log (who : α → String) (keeps : KeepsCounts accounts entriesOf logs)
    (run : processEntry what accounts k (who x) x .apply logs = .ok logged) :
    KeepsCounts accounts (fun a => entriesOf a ++ listed k (fun x => [who x]) [x] a) logged := by
  rcases processEntry_cases run with ⟨untracked, rfl⟩ | ⟨tracked, il, rfl, step⟩
  · exact keeps.congr fun a tracked => listed_other fun same => untracked (same ▸ tracked)
  · refine keepsCounts_insert keeps (fun a _ apart => listed_other apart) ?_
    rw [listed_one, if_pos rfl]
    exact (keeps _ tracked).add step

theorem KeepsCounts.unlog (who : α → String) (keeps : KeepsCounts accounts
      (fun a => entriesOf a ++ listed k (fun x => [who x]) [x] a) logs)
    (run : processEntry what accounts k (who x) x .revert logs = .ok logged) :
    KeepsCounts accounts entriesOf logged := by
  rcases processEntry_cases run with ⟨untracked, rfl⟩ | ⟨tracked, il, rfl, step⟩
  · exact keeps.congr fun a tracked =>
      (listed_other fun same : a = who x => untracked (same ▸ tracked)).symm
  · refine keepsCounts_insert keeps (fun a _ apart => (listed_other apart).symm) ?_
    have counted := keeps _ tracked
    beta_reduce at counted
    rw [listed_one, if_pos rfl] at counted
    exact counted.remove step

variable {xs : List α}

theorem KeepsCounts.logAll (who : α → String) (keeps : KeepsCounts accounts entriesOf logs)
    (run : runAll (fun x => processEntry what accounts k (who x) x .apply) xs logs = .ok logged) :
    KeepsCounts accounts (fun a => entriesOf a ++ listed k (fun x => [who x]) xs a) logged := by
  induction xs generalizing entriesOf logs with
  | nil =>
      cases run
      exact keeps.congr fun a _ => List.append_nil _
  | cons x rest ih =>
      obtain ⟨mid, first, run⟩ := runAll_cons_ok_iff.mp run
      refine (ih (keeps.log who first) run).congr fun a _ => ?_
      rw [List.append_assoc, ← listed_append, List.singleton_append]

theorem KeepsCounts.unlogAll (who : α → String) (keeps : KeepsCounts accounts
      (fun a => entriesOf a ++ listed k (fun x => [who x]) xs a) logs)
    (run : runAll (fun x => processEntry what accounts k (who x) x .revert) xs.reverse logs =
      .ok logged) : KeepsCounts accounts entriesOf logged := by
  induction xs using List.reverseRecOn generalizing logs with
  | nil =>
      cases run
      exact keeps.congr fun a _ => (List.append_nil _).symm
  | append_singleton rest x ih =>
      rw [List.reverse_append, List.reverse_singleton, List.singleton_append] at run
      obtain ⟨mid, last, run⟩ := runAll_cons_ok_iff.mp run
      refine ih (KeepsCounts.unlog who (keeps.congr fun a _ => ?_) last) run
      rw [List.append_assoc, ← listed_append]

end Counts

theorem read_of_processTransactions {accounts : List String} {k : ℕ} {log : TransactionLog}
    {authority : String} {type : LoggingType} {logs logged : IndexedLogs TransactionLog}
    (run : processTransactions accounts k log authority type logs = .ok logged) (e : Failure) :
    ¬ Unread log e := by
  obtain ⟨info, known, _⟩ := bind_ok_iff.mp run
  exact read_of_ok known e

namespace SyncContext
variable {c after : SyncContext} {info : LoggedTransaction} {standing stands : List LogPacket}

theorem readable_of_ok (run : c.processAction info = .ok after) {log : TransactionLog}
    (tells : Tells info.action log) (e : Failure) : ¬ Unread log e := by
  rcases info with ⟨_ | _, index, block | pooled⟩
  · obtain ⟨_, reads, _⟩ := bind_ok_iff.mp run
    obtain ⟨_, _, read⟩ := runAll_mem_ok reads tells
    exact read_of_processTransactions read e
  · obtain ⟨_, read, _⟩ := bind_ok_iff.mp run
    obtain rfl : log = pooled := tells
    exact read_of_processTransactions read e
  · obtain ⟨_, reads, _⟩ := bind_ok_iff.mp run
    obtain ⟨_, _, read⟩ := runAll_mem_ok reads (List.mem_reverse.mpr tells)
    exact read_of_processTransactions read e
  · obtain ⟨_, read, _⟩ := bind_ok_iff.mp run
    obtain rfl : log = pooled := tells
    exact read_of_processTransactions read e

/-- What else a context has does not depend on its logs of the rewards. -/
theorem processAction_rewards {rewards : IndexedLogs Reward} {other : SyncContext}
    (run : c.processAction info = .ok after)
    (runs : { c with rewards }.processAction info = .ok other) :
    { after with rewards := other.rewards } = other := by
  rcases info with ⟨_ | _, index, block | pooled⟩
  · obtain ⟨transactions, reads, run⟩ := bind_ok_iff.mp run
    obtain ⟨_, _, run⟩ := bind_ok_iff.mp run
    obtain ⟨same, read, runs⟩ := bind_ok_iff.mp runs
    obtain ⟨_, _, runs⟩ := bind_ok_iff.mp runs
    obtain rfl := Except.ok.inj (reads.symm.trans read)
    obtain rfl := pure_ok_iff.mp run
    obtain rfl := pure_ok_iff.mp runs
    rfl
  · obtain ⟨transactions, reads, run⟩ := bind_ok_iff.mp run
    obtain ⟨same, read, runs⟩ := bind_ok_iff.mp runs
    obtain rfl := Except.ok.inj (reads.symm.trans read)
    obtain rfl := pure_ok_iff.mp run
    obtain rfl := pure_ok_iff.mp runs
    rfl
  · obtain ⟨transactions, reads, run⟩ := bind_ok_iff.mp run
    obtain ⟨_, _, run⟩ := bind_ok_iff.mp run
    obtain ⟨same, read, runs⟩ := bind_ok_iff.mp runs
    obtain ⟨_, _, runs⟩ := bind_ok_iff.mp runs
    obtain rfl := Except.ok.inj (reads.symm.trans read)
    obtain rfl := pure_ok_iff.mp run
    obtain rfl := pure_ok_iff.mp runs
    rfl
  · obtain ⟨transactions, reads, run⟩ := bind_ok_iff.mp run
    obtain ⟨same, read, runs⟩ := bind_ok_iff.mp runs
    obtain rfl := Except.ok.inj (reads.symm.trans read)
    obtain rfl := pure_ok_iff.mp run
    obtain rfl := pure_ok_iff.mp runs
    rfl

/-- A context that has followed the log up to what stands, whatever its logs of the rewards hold:
their indices count the rewards that stand. -/
structure Counts (standing : List LogPacket) (c : SyncContext) : Prop where
  follows : ∃ rewards, Follows standing { c with rewards }
  counts : KeepsCounts c.setAccounts (entriesOf rewardEntries standing) c.rewards

theorem Counts.next (counts : Counts standing c) :
    (if decide (c.startIndex = 0) = true then c.headBlockIndex else c.headBlockIndex + 1) =
      blockCount standing := by
  obtain ⟨_, follows⟩ := counts.follows
  exact follows.next

theorem Counts.goes (counts : Counts standing c) (begun : standing ≠ []) :
    blockCount standing = c.headBlockIndex + 1 := by
  obtain ⟨_, follows⟩ := counts.follows
  exact (follows.goes begun).2

theorem Counts.rewards_step (counts : Counts standing c) (logged : follow info standing = some stands)
    (run : c.processAction info = .ok after) :
    KeepsCounts c.setAccounts (entriesOf rewardEntries stands) after.rewards := by
  rcases follow_cases logged with
    ⟨index, log, rfl, _, rfl⟩ | ⟨index, log, rfl, _, rfl⟩ | ⟨index, packet, rfl, begun, rfl⟩
  · obtain ⟨_, _, run⟩ := bind_ok_iff.mp run
    obtain ⟨rewards, gives, run⟩ := bind_ok_iff.mp run
    obtain rfl := pure_ok_iff.mp run
    rw [counts.next] at gives
    rw [rewardsOf_block]
    exact counts.counts.logAll Reward.target gives
  · obtain ⟨_, _, run⟩ := bind_ok_iff.mp run
    obtain rfl := pure_ok_iff.mp run
    rw [rewardsOf_transaction]
    exact counts.counts
  · have head := counts.goes (List.append_ne_nil_of_right_ne_nil _ (List.cons_ne_nil _ _))
    cases packet with
    | block log =>
        obtain ⟨_, _, run⟩ := bind_ok_iff.mp run
        obtain ⟨rewards, takes, run⟩ := bind_ok_iff.mp run
        obtain rfl := pure_ok_iff.mp run
        rw [blockCount_concat_block] at head
        rw [← Nat.succ_injective head] at takes
        have keeps := counts.counts
        rw [rewardsOf_block] at keeps
        exact KeepsCounts.unlogAll Reward.target keeps takes
    | transaction log =>
        obtain ⟨_, _, run⟩ := bind_ok_iff.mp run
        obtain rfl := pure_ok_iff.mp run
        have keeps := counts.counts
        rw [rewardsOf_transaction] at keeps
        exact keeps

theorem Counts.step (counts : Counts standing c) (logged : follow info standing = some stands)
    (run : c.processAction info = .ok after) :
    Counts stands after ∧ after.setAccounts = c.setAccounts := by
  obtain ⟨rewards, follows⟩ := counts.follows
  rcases follows.step logged with ⟨e, _, log, tells, unread⟩ | ⟨_, other, runs, follows, same⟩
  · exact absurd unread (readable_of_ok run tells e)
  · have eq := processAction_rewards run runs
    have accounts : after.setAccounts = c.setAccounts :=
      (congrArg SyncContext.setAccounts eq).trans same
    refine ⟨⟨⟨other.rewards, ?_⟩, ?_⟩, accounts⟩
    · rw [eq]
      exact follows
    · rw [accounts]
      exact counts.rewards_step logged run

end SyncContext

namespace Commander
variable [Externals] {c after : Commander} {info : LoggedTransaction}
  {standing stands : List LogPacket}

/-- What a context and the stores beside it have of the log up to what stands. -/
structure Tracks (standing : List LogPacket) (c : Commander) : Prop where
  named : "" ∉ c.setAccounts
  counts : c.context.Counts standing
  balances : ∀ a ∈ c.setAccounts, BalanceIs c.accounts a (effectOfAll standing a)
  proper : ∀ a ∈ c.setAccounts, ∀ log, .transaction log ∈ standing → ProperFor a log
  blocks : c.newImport = false → c.blocks.length = blockCount standing

/-- What a context leaves to others: the balances of their accounts, and in an import the blocks. -/
structure Leaves (c after : Commander) : Prop where
  setAccounts : after.setAccounts = c.setAccounts
  newImport : after.newImport = c.newImport
  others : ∀ other ∉ c.setAccounts, after.accounts[other]? = c.accounts[other]?
  kept : ∀ key, key ∈ c.accounts → key ∈ after.accounts
  blocks : c.newImport = true → after.blocks = c.blocks

omit [Externals] in
theorem Leaves.trans {mid : Commander} (first : Leaves c mid) (second : Leaves mid after) :
    Leaves c after where
  setAccounts := second.setAccounts.trans first.setAccounts
  newImport := second.newImport.trans first.newImport
  others other untracked :=
    (second.others other (first.setAccounts ▸ untracked)).trans (first.others other untracked)
  kept key held := second.kept key (first.kept key held)
  blocks imports :=
    (second.blocks (first.newImport.trans imports)).trans (first.blocks imports)

theorem proper_of_pooled {index : ℕ} {log : TransactionLog} {account : String}
    (named : account ≠ "") (tracked : account ∈ c.setAccounts)
    (run : c.processAction ⟨false, index, .transaction log⟩ = .ok after) :
    ProperFor account log := by
  change processLogged _ _ _ _ _ _ = _ at run
  simp only [processLogged, bind_ok_iff, pure_ok_iff] at run
  obtain ⟨_, _, _, _, accounts, update, _⟩ := run
  exact updateBalances_proper named tracked update

theorem Tracks.step (tracks : Tracks standing c) (logged : follow info standing = some stands)
    (run : c.processAction info = .ok after) : Tracks stands after ∧ Leaves c after := by
  obtain ⟨set, imports, blocks, changes⟩ := processAction_moves run
  have named : ∀ a ∈ c.setAccounts, a ≠ "" := fun a tracked same => tracks.named (same ▸ tracked)
  refine ⟨⟨?_, (tracks.counts.step logged (context_processAction run)).1, ?_, ?_, ?_⟩,
    ⟨set, imports, changes.others, changes.kept, ?_⟩⟩
  · rw [set]
    exact tracks.named
  · intro a tracked
    rw [set] at tracked
    rw [effectOfAll_follow logged]
    exact changes.balances a tracked (named a tracked) _ (tracks.balances a tracked)
  · intro a tracked log member
    rw [set] at tracked
    rcases follow_cases logged with
      ⟨index, block, rfl, _, rfl⟩ | ⟨index, pooled, rfl, _, rfl⟩ | ⟨index, packet, rfl, _, rfl⟩
    · rcases List.mem_append.mp member with before | last
      · exact tracks.proper a tracked log before
      · cases List.mem_singleton.mp last
    · rcases List.mem_append.mp member with before | last
      · exact tracks.proper a tracked log before
      · cases List.mem_singleton.mp last
        exact proper_of_pooled (named a tracked) tracked run
    · exact tracks.proper a tracked log (List.mem_append_left _ member)
  · intro regular
    rw [imports] at regular
    rw [blocks, regular, if_neg Bool.false_ne_true]
    exact blocksAfter_length logged (tracks.blocks regular)
  · intro imported
    rw [blocks, if_pos imported]

theorem Tracks.run (tracks : Tracks standing c) {actions : List LoggedTransaction}
    (logged : followAll standing actions = some stands)
    (run : runAll processAction actions c = .ok after) : Tracks stands after ∧ Leaves c after := by
  induction actions generalizing standing c with
  | nil =>
      cases logged
      cases run
      exact ⟨tracks, rfl, rfl, fun _ _ => rfl, fun _ held => held, fun _ => rfl⟩
  | cons info rest ih =>
      obtain ⟨between, first, logged⟩ := Option.bind_eq_some_iff.mp logged
      obtain ⟨mid, reads, run⟩ := runAll_cons_ok_iff.mp run
      obtain ⟨tracks, leaves⟩ := tracks.step first reads
      obtain ⟨tracks, others⟩ := ih tracks logged run
      exact ⟨tracks, leaves.trans others⟩

def switch (context : SyncContext) (newImport : Bool) (c : Commander) : Commander :=
  { c with
    newImport
    startIndex := context.startIndex
    headBlockIndex := context.headBlockIndex
    setAccounts := context.setAccounts
    transactions := context.transactions
    rewards := context.rewards }

omit [Externals] in
/-- A context is taken up again when another one has left its accounts and its blocks alone. -/
theorem Tracks.switch {d : Commander} (tracks : Tracks standing c)
    (others : ∀ a ∈ c.setAccounts, d.accounts[a]? = c.accounts[a]?)
    (blocks : c.newImport = false → d.blocks = c.blocks) :
    Tracks standing (d.switch c.context c.newImport) where
  named := tracks.named
  counts := tracks.counts
  balances a tracked := by
    obtain ⟨coin, held, value⟩ := tracks.balances a tracked
    refine ⟨coin, ?_, value⟩
    change d.accounts[a]?.getD _ = _
    rw [others a tracked]
    exact held
  proper := tracks.proper
  blocks regular := by
    change d.blocks.length = _
    rw [blocks regular]
    exact tracks.blocks regular

end Commander

/-- `rpc` between its requests: the stores as they are committed, and the files of the logs. -/
structure Explorer where
  accounts : Std.ExtTreeMap String Account
  blocks : List BlockInfo
  storages : Std.ExtTreeMap String StoragesResponseItem
  channels : Channels
  fileUsageMap : FileUsageMap
  hasKey : Bool
  files : LogFiles

namespace Explorer

/-- An explorer that has not read anything. -/
def fresh (hasKey : Bool) : Explorer where
  accounts := ∅
  blocks := []
  storages := ∅
  channels := ∅
  fileUsageMap := ∅
  hasKey
  files := ⟨0, 0, fun _ => default, fun _ => default⟩

/-- `start_sync`, for all accounts. -/
def startSync (e : Explorer) : Commander where
  accounts := e.accounts
  blocks := e.blocks
  storages := e.storages
  channels := e.channels
  fileUsageMap := e.fileUsageMap
  hasKey := e.hasKey
  newImport := false
  startIndex := e.files.startIndex
  headBlockIndex := e.files.headBlockIndex
  setAccounts := e.accounts.keys
  transactions := LogFiles.openAll e.accounts.keys e.files.transactions
  rewards := LogFiles.openAll e.accounts.keys e.files.rewards

/-- `start_new_import`. -/
def startNewImport (account : String) (e : Explorer) : SyncContext := e.files.openImport account

/-- One turn of the loop of `import_account_if_needed`: `sync` with the context of the import, then
with the other one. They share the stores. -/
def importRound [Externals] (round : List LoggedTransaction × List LoggedTransaction)
    (s : SyncContext × Commander) : Checked (SyncContext × Commander) := do
  let imported ← runAll Commander.processAction round.1 (s.2.switch s.1 true)
  let c ← runAll Commander.processAction round.2 (imported.switch s.2.context false)
  pure (imported.context, c)

/-- The loop of `import_account_if_needed`. -/
def importRounds [Externals] (account : String)
    (rounds : List (List LoggedTransaction × List LoggedTransaction)) (e : Explorer) :
    Checked (SyncContext × Commander) :=
  runAll importRound rounds (e.startNewImport account, e.startSync)

/-- `save` and `commit` of a context for all accounts. -/
def commit (loaders : Loaders) (c : Commander) (e : Explorer) : Explorer where
  accounts := loaders.left [.save, .commit] e.accounts c.accounts
  blocks := loaders.left [.save, .commit] e.blocks c.blocks
  storages := loaders.left [.save, .commit] e.storages c.storages
  channels := loaders.left [.save, .commit] e.channels c.channels
  fileUsageMap := c.fileUsageMap
  hasKey := e.hasKey
  files := e.files.commit loaders c.context

/-- The end of `import_account_if_needed`: an account that no entry was about is entered. -/
def enterAccount (loaders : Loaders) (account : String) (e : Explorer) : Explorer :=
  if account ∈ e.accounts then e
  else { e with
    accounts := loaders.left [.save, .commit] e.accounts
      (e.accounts.insert account ⟨account, 0⟩) }

/-- `import_account_if_needed` after its loop, with the contexts that it ends with. -/
def commitImport (loaders : Loaders) (account : String) (imported : SyncContext) (c : Commander)
    (e : Explorer) : Explorer :=
  ({ e with files := e.files.commitLogs loaders imported }.commit loaders c).enterAccount loaders
    account

/-- What the explorer can have read, and what stood in the log of its node where it left off. What
is stopped by an exception leaves nothing behind but the map of the usage. -/
inductive Reached [Externals] (loaders : Loaders) : Explorer → List LogPacket → Prop where
  | fresh (hasKey : Bool) : Reached loaders (fresh hasKey) []
  | sync {e : Explorer} {standing after : List LogPacket} {actions : List LoggedTransaction}
      {c : Commander} (before : Reached loaders e standing)
      (logged : followAll standing actions = some after)
      (run : runAll Commander.processAction actions e.startSync = .ok c) :
      Reached loaders (e.commit loaders c) after
  | imported {e : Explorer} {standing after : List LogPacket} {account : String}
      {rounds : List (List LoggedTransaction × List LoggedTransaction)}
      {imported : SyncContext} {c : Commander} (before : Reached loaders e standing)
      (valid : Externals.publicKey account = .ok ()) (new : account ∉ e.accounts)
      (logs : followAll [] (rounds.flatMap Prod.fst) = some after)
      (logged : followAll standing (rounds.flatMap Prod.snd) = some after)
      (run : e.importRounds account rounds = .ok (imported, c)) :
      Reached loaders (e.commitImport loaders account imported c) after
  | stopped {e : Explorer} {standing : List LogPacket} (before : Reached loaders e standing)
      (fileUsageMap : FileUsageMap) : Reached loaders { e with fileUsageMap } standing

/-- What the explorer has of an account that it follows. The log of its rewards is not in it. -/
structure Held (standing : List LogPacket) (e : Explorer) (a : String) : Prop where
  named : a ≠ ""
  transactions : (e.files.transactions a).Represents (entriesOf transactionEntries standing a)
  rewards : ∃ il : IndexedLog Reward, il.Represents (entriesOf rewardEntries standing a)
  counts : CountsEntries (entriesOf rewardEntries standing a) (e.files.rewards a)
  balance : BalanceIs e.accounts a (effectOfAll standing a)
  proper : ∀ log, .transaction log ∈ standing → ProperFor a log

/-- What the explorer has of the log. -/
structure Sound (standing : List LogPacket) (e : Explorer) : Prop where
  begins : standing = [] → e.files.startIndex = 0 ∧ e.files.headBlockIndex = 0
  goes : standing ≠ [] →
    e.files.startIndex ≠ 0 ∧ blockCount standing = e.files.headBlockIndex + 1
  genesis : ∀ packet, standing.head? = some packet → ∃ log, packet = .block log
  blocks : e.blocks.length = blockCount standing
  held : ∀ a ∈ e.accounts, e.Held standing a
  /-- No reward has reached a file. -/
  lost : ∀ a, (e.files.rewards a).log = []
  unused : ∀ a ∉ e.accounts, e.files.transactions a = default ∧ e.files.rewards a = default

section Runs
variable [Externals] {loaders : Loaders} {standing stands after : List LogPacket} {e : Explorer}
  {c : Commander} {account a : String}

omit [Externals] in
theorem sound_fresh (hasKey : Bool) : (fresh hasKey).Sound [] where
  begins _ := ⟨rfl, rfl⟩
  goes none := absurd rfl none
  genesis _ none := nomatch none
  blocks := rfl
  held _ none := absurd none Std.ExtTreeMap.not_mem_empty
  lost _ := rfl
  unused _ _ := ⟨rfl, rfl⟩

omit [Externals] in
theorem Sound.startSync (sound : e.Sound standing) : e.startSync.Tracks standing where
  named empty := (sound.held "" (Std.ExtTreeMap.mem_keys.mp empty)).named rfl
  counts := by
    have each : ∀ a ∈ e.accounts.keys, ∃ il : IndexedLog Reward,
        il.Represents (entriesOf rewardEntries standing a) :=
      fun a tracked => (sound.held a (Std.ExtTreeMap.mem_keys.mp tracked)).rewards
    choose! il represents using each
    refine ⟨⟨LogFiles.openAll e.accounts.keys il, sound.begins, sound.goes, sound.genesis, ?_, ?_⟩,
      ?_⟩
    · exact LogFiles.keepsLogs_openAll fun a tracked =>
        (sound.held a (Std.ExtTreeMap.mem_keys.mp tracked)).transactions
    · exact LogFiles.keepsLogs_openAll represents
    · intro a (tracked : a ∈ e.accounts.keys)
      change CountsEntries _ ((LogFiles.openAll e.accounts.keys e.files.rewards)[a]?.getD default)
      rw [LogFiles.getD_openAll e.files.rewards tracked]
      exact (sound.held a (Std.ExtTreeMap.mem_keys.mp tracked)).counts
  balances a tracked := (sound.held a (Std.ExtTreeMap.mem_keys.mp tracked)).balance
  proper a tracked := (sound.held a (Std.ExtTreeMap.mem_keys.mp tracked)).proper
  blocks _ := sound.blocks

omit [Externals] in
theorem Sound.startNewImport (sound : e.Sound standing) (new : account ∉ e.accounts)
    (named : account ≠ "") : (e.startSync.switch (e.startNewImport account) true).Tracks [] where
  named empty := named (List.mem_singleton.mp empty).symm
  counts := by
    obtain ⟨transactions, rewards⟩ := sound.unused account new
    refine ⟨⟨(e.startNewImport account).rewards, fun _ => ⟨rfl, rfl⟩, fun none => absurd rfl none,
      (fun _ none => nomatch none), ?_, ?_⟩, ?_⟩
    · refine LogFiles.keepsLogs_openAll fun a tracked => ?_
      rw [List.mem_singleton.mp tracked]
      change (e.files.transactions account).Represents _
      rw [transactions]
      exact IndexedLog.represents_default
    · refine LogFiles.keepsLogs_openAll fun a tracked => ?_
      rw [List.mem_singleton.mp tracked]
      change (e.files.rewards account).Represents _
      rw [rewards]
      exact IndexedLog.represents_default
    · intro a (tracked : a ∈ [account])
      change CountsEntries _ ((LogFiles.openAll [account] e.files.rewards)[a]?.getD default)
      rw [LogFiles.getD_openAll e.files.rewards tracked, List.mem_singleton.mp tracked, rewards]
      exact countsEntries_default
  balances a tracked := by
    rw [List.mem_singleton.mp tracked]
    refine balanceIs_fresh ?_
    exact Std.ExtTreeMap.getElem?_eq_none new
  proper _ _ _ none := absurd none List.not_mem_nil
  blocks imports := nomatch imports

omit [Externals] in
theorem held_of_tracks (tracks : c.Tracks standing) (tracked : a ∈ c.setAccounts)
    (transactions : e.files.transactions a = c.transactions[a]?.getD default)
    (rewards : (e.files.rewards a).index = (c.rewards[a]?.getD default).index)
    (balance : e.accounts[a]?.getD ⟨a, 0⟩ = c.accounts[a]?.getD ⟨a, 0⟩) : e.Held standing a where
  named empty := tracks.named (empty ▸ tracked)
  transactions := by
    obtain ⟨_, follows⟩ := tracks.counts.follows
    rw [transactions]
    exact follows.transactions a tracked
  rewards := by
    obtain ⟨rewards, follows⟩ := tracks.counts.follows
    exact ⟨_, follows.rewards a tracked⟩
  counts k := by
    rw [rewards]
    exact tracks.counts.counts a tracked k
  balance := by
    obtain ⟨coin, held, value⟩ := tracks.balances a tracked
    exact ⟨coin, balance.trans held, value⟩
  proper := tracks.proper a tracked

omit [Externals] in
theorem mem_accounts_iff (leaves : e.startSync.Leaves c) : a ∈ c.accounts ↔ a ∈ e.accounts := by
  refine ⟨fun held => ?_, leaves.kept a⟩
  by_contra unknown
  have same : c.accounts[a]? = e.accounts[a]? :=
    leaves.others a fun tracked => unknown (Std.ExtTreeMap.mem_keys.mp tracked)
  rw [Std.ExtTreeMap.mem_iff_isSome_getElem?, same, Std.ExtTreeMap.getElem?_eq_none unknown] at held
  cases held

omit [Externals] in
theorem lost_commitLogs (twoPhase : loaders.TwoPhase) {files : LogFiles}
    (lost : ∀ a, (files.rewards a).log = []) (context : SyncContext) (a : String) :
    ((files.commitLogs loaders context).rewards a).log = [] := by
  change (LogFiles.leftAll loaders _ _ context.setAccounts files.rewards _ a).log = []
  by_cases tracked : a ∈ context.setAccounts
  · rw [LogFiles.leftAll_saved twoPhase _ _ tracked]
    exact lost a
  · rw [LogFiles.leftAll, if_neg tracked]
    exact lost a

omit [Externals] in
/-- What a regular context is committed to is sound, if the accounts that it is not for are. -/
theorem sound_commit (twoPhase : loaders.TwoPhase) (tracks : c.Tracks stands)
    (regular : c.newImport = false) {files : LogFiles} {f : Explorer}
    (committed : f.files = files.commit loaders c.context) (blocks : f.blocks = c.blocks)
    (accounts : ∀ a : String, f.accounts[a]?.getD ⟨a, 0⟩ = c.accounts[a]?.getD ⟨a, 0⟩)
    (lost : ∀ a, (files.rewards a).log = [])
    (others : ∀ a ∈ f.accounts, a ∉ c.setAccounts → f.Held stands a)
    (unused : ∀ a ∉ f.accounts, a ∉ c.setAccounts ∧ files.transactions a = default ∧
      files.rewards a = default) : f.Sound stands := by
  obtain ⟨rewards, follows⟩ := tracks.counts.follows
  refine ⟨fun none => ?_, fun some => ?_, follows.genesis, ?_, fun a held => ?_, ?_,
    fun a unknown => ?_⟩
  · rw [committed]
    change loaders.left _ _ c.startIndex = 0 ∧ loaders.left _ _ c.headBlockIndex = 0
    rw [twoPhase.committed, twoPhase.committed]
    exact follows.begins none
  · rw [committed]
    change loaders.left _ _ c.startIndex ≠ 0 ∧ _ = loaders.left _ _ c.headBlockIndex + 1
    rw [twoPhase.committed, twoPhase.committed]
    exact follows.goes some
  · rw [blocks]
    exact tracks.blocks regular
  · by_cases tracked : a ∈ c.setAccounts
    · refine held_of_tracks tracks tracked ?_ ?_ (accounts a)
      · rw [committed]
        exact LogFiles.leftAll_committed twoPhase _ _ tracked
      · rw [committed]
        change (LogFiles.leftAll loaders _ _ c.setAccounts files.rewards _ a).index = _
        rw [LogFiles.leftAll_saved twoPhase _ _ tracked]
        rfl
    · exact others a held tracked
  · rw [committed]
    exact lost_commitLogs twoPhase lost c.context
  · obtain ⟨untracked, noTransactions, noRewards⟩ := unused a unknown
    rw [committed]
    exact ⟨(if_neg untracked).trans noTransactions, (if_neg untracked).trans noRewards⟩

/-- A `sync` leaves the explorer sound. -/
theorem Sound.sync (twoPhase : loaders.TwoPhase) (sound : e.Sound standing)
    {actions : List LoggedTransaction} (logged : followAll standing actions = some after)
    (run : runAll Commander.processAction actions e.startSync = .ok c) :
    (e.commit loaders c).Sound after := by
  obtain ⟨tracks, leaves⟩ := sound.startSync.run logged run
  have accounts : (e.commit loaders c).accounts = c.accounts := twoPhase.committed _ _
  have known : ∀ a, a ∈ (e.commit loaders c).accounts ↔ a ∈ e.accounts := fun a => by
    rw [accounts]
    exact mem_accounts_iff leaves
  have set : ∀ a, a ∈ c.setAccounts ↔ a ∈ e.accounts := fun a => by
    rw [leaves.setAccounts]
    exact Std.ExtTreeMap.mem_keys
  refine sound_commit twoPhase tracks leaves.newImport rfl (twoPhase.committed _ _)
    (fun a => by rw [accounts]) sound.lost (fun a held untracked => ?_) fun a unknown => ?_
  · exact absurd ((set a).mpr ((known a).mp held)) untracked
  · have new := fun held => unknown ((known a).mpr held)
    exact ⟨fun tracked => new ((set a).mp tracked), sound.unused a new⟩

/-- The contexts of an import, each on its way through the log. -/
structure Importing (account : String) (e : Explorer) (news stands : List LogPacket)
    (s : SyncContext × Commander) : Prop where
  imports : (s.2.switch s.1 true).Tracks news
  tracks : s.2.Tracks stands
  mine : s.1.setAccounts = [account]
  all : s.2.setAccounts = e.accounts.keys
  regular : s.2.newImport = false
  others : ∀ a, a ≠ account → a ∉ e.accounts → s.2.accounts[a]? = none
  kept : ∀ a ∈ e.accounts, a ∈ s.2.accounts

omit [Externals] in
theorem Sound.importing (sound : e.Sound standing) (new : account ∉ e.accounts)
    (named : account ≠ "") :
    Importing account e [] standing (e.startNewImport account, e.startSync) where
  imports := sound.startNewImport new named
  tracks := sound.startSync
  mine := rfl
  all := rfl
  regular := rfl
  others _ _ unknown := Std.ExtTreeMap.getElem?_eq_none unknown
  kept _ held := held

/-- A turn of the loop takes both contexts on. -/
theorem Importing.round {news newsAfter : List LogPacket} {s t : SyncContext × Commander}
    (new : account ∉ e.accounts) (importing : Importing account e news standing s)
    {round : List LoggedTransaction × List LoggedTransaction}
    (logs : followAll news round.1 = some newsAfter)
    (logged : followAll standing round.2 = some after) (run : importRound round s = .ok t) :
    Importing account e newsAfter after t := by
  obtain ⟨imported, first, run⟩ := bind_ok_iff.mp run
  obtain ⟨c, second, run⟩ := bind_ok_iff.mp run
  obtain rfl := pure_ok_iff.mp run
  have apart : ∀ a ∈ e.accounts.keys, a ∉ [account] := fun a tracked mine =>
    new (List.mem_singleton.mp mine ▸ Std.ExtTreeMap.mem_keys.mp tracked)
  obtain ⟨imports, leavesImport⟩ := importing.imports.run logs first
  have mine : imported.setAccounts = [account] := leavesImport.setAccounts.trans importing.mine
  have resumed : (imported.switch s.2.context false).Tracks standing := by
    rw [← importing.regular]
    refine importing.tracks.switch (fun a tracked => leavesImport.others a ?_)
      fun _ => leavesImport.blocks rfl
    change a ∉ s.1.setAccounts
    rw [importing.mine]
    exact apart a (importing.all ▸ tracked)
  obtain ⟨tracks, leaves⟩ := resumed.run logged second
  have all : c.setAccounts = e.accounts.keys := leaves.setAccounts.trans importing.all
  refine ⟨?_, tracks, mine, all, leaves.newImport, fun a differs unknown => ?_, fun a held => ?_⟩
  · have imports' : imported.newImport = true := leavesImport.newImport
    change (c.switch imported.context true).Tracks newsAfter
    rw [← imports']
    refine imports.switch (fun a tracked => leaves.others a ?_) fun no => ?_
    · change a ∉ s.2.setAccounts
      rw [importing.all]
      exact fun here => apart a here (mine ▸ tracked)
    · rw [imports'] at no
      cases no
  · have untracked : a ∉ s.2.setAccounts := by
      rw [importing.all]
      exact fun tracked => unknown (Std.ExtTreeMap.mem_keys.mp tracked)
    have free : a ∉ s.1.setAccounts := by
      rw [importing.mine]
      exact fun here => differs (List.mem_singleton.mp here)
    exact ((leaves.others a untracked).trans (leavesImport.others a free)).trans
      (importing.others a differs unknown)
  · exact leaves.kept a (leavesImport.kept a (importing.kept a held))

omit [Externals] in
theorem followAll_append {standing stands : List LogPacket} {first second : List LoggedTransaction}
    (logged : followAll standing (first ++ second) = some stands) :
    ∃ between, followAll standing first = some between ∧ followAll between second = some stands :=
  Option.bind_eq_some_iff.mp ((List.foldlM_append).symm.trans logged)

theorem Importing.rounds {news newsAfter : List LogPacket} {s t : SyncContext × Commander}
    (new : account ∉ e.accounts) (importing : Importing account e news standing s)
    {rounds : List (List LoggedTransaction × List LoggedTransaction)}
    (logs : followAll news (rounds.flatMap Prod.fst) = some newsAfter)
    (logged : followAll standing (rounds.flatMap Prod.snd) = some after)
    (run : runAll importRound rounds s = .ok t) : Importing account e newsAfter after t := by
  induction rounds generalizing news standing s with
  | nil =>
      cases logs
      cases logged
      cases run
      exact importing
  | cons round rest ih =>
      rw [List.flatMap_cons] at logs logged
      obtain ⟨newsBetween, logsFirst, logs⟩ := followAll_append logs
      obtain ⟨between, loggedFirst, logged⟩ := followAll_append logged
      obtain ⟨mid, first, run⟩ := runAll_cons_ok_iff.mp run
      exact ih (importing.round new logsFirst loggedFirst first) logs logged run

omit [Externals] in
theorem commitImport_files (imported : SyncContext) :
    (e.commitImport loaders account imported c).files =
      (e.files.commitLogs loaders imported).commit loaders c.context := by
  unfold commitImport enterAccount
  split_ifs <;> rfl

omit [Externals] in
theorem commitImport_blocks (twoPhase : loaders.TwoPhase) (imported : SyncContext) :
    (e.commitImport loaders account imported c).blocks = c.blocks := by
  unfold commitImport enterAccount
  split_ifs <;> exact twoPhase.committed _ _

omit [Externals] in
theorem commitImport_accounts (twoPhase : loaders.TwoPhase) (imported : SyncContext) :
    (e.commitImport loaders account imported c).accounts =
      if account ∈ c.accounts then c.accounts else c.accounts.insert account ⟨account, 0⟩ := by
  have accounts : ({ e with files := e.files.commitLogs loaders imported }.commit loaders
      c).accounts = c.accounts := twoPhase.committed _ _
  unfold commitImport enterAccount
  rw [accounts]
  by_cases held : account ∈ c.accounts
  · rw [if_pos held, if_pos held]
    exact accounts
  · rw [if_neg held, if_neg held]
    exact twoPhase.committed _ _

/-- An import leaves the explorer sound. -/
theorem Sound.imported (twoPhase : loaders.TwoPhase) (sound : e.Sound standing)
    (new : account ∉ e.accounts) (named : account ≠ "")
    {rounds : List (List LoggedTransaction × List LoggedTransaction)} {imported : SyncContext}
    (logs : followAll [] (rounds.flatMap Prod.fst) = some after)
    (logged : followAll standing (rounds.flatMap Prod.snd) = some after)
    (run : e.importRounds account rounds = .ok (imported, c)) :
    (e.commitImport loaders account imported c).Sound after := by
  have importing := (sound.importing new named).rounds new logs logged run
  have mine : imported.setAccounts = [account] := importing.mine
  have all : c.setAccounts = e.accounts.keys := importing.all
  have set : ∀ a, a ∈ c.setAccounts ↔ a ∈ e.accounts := fun a => by
    rw [all]
    exact Std.ExtTreeMap.mem_keys
  have accounts : ∀ a : String,
      (e.commitImport loaders account imported c).accounts[a]?.getD ⟨a, 0⟩ =
        c.accounts[a]?.getD ⟨a, 0⟩ := by
    intro a
    rw [commitImport_accounts twoPhase]
    by_cases held : account ∈ c.accounts
    · rw [if_pos held]
    · rw [if_neg held, Std.ExtTreeMap.getElem?_insert]
      by_cases here : account = a
      · subst here
        rw [if_pos (by simp), Std.ExtTreeMap.getElem?_eq_none held]
        rfl
      · rw [if_neg (by simpa using here)]
  have known : ∀ a, a ∈ (e.commitImport loaders account imported c).accounts ↔
      a = account ∨ a ∈ c.accounts := by
    intro a
    rw [commitImport_accounts twoPhase]
    by_cases held : account ∈ c.accounts
    · rw [if_pos held]
      exact ⟨.inr, fun either => either.elim (fun here => here ▸ held) id⟩
    · rw [if_neg held, Std.ExtTreeMap.mem_insert, Std.compare_eq_iff_eq]
      exact or_congr_left eq_comm
  refine sound_commit twoPhase importing.tracks importing.regular (commitImport_files imported)
    (commitImport_blocks twoPhase imported) accounts
    (lost_commitLogs twoPhase sound.lost imported) (fun a held untracked => ?_)
    fun a unknown => ?_
  · have here : a = account := by
      rcases (known a).mp held with here | held
      · exact here
      · by_contra differs
        have none := importing.others a differs fun known => untracked ((set a).mpr known)
        rw [Std.ExtTreeMap.mem_iff_isSome_getElem?, none] at held
        cases held
    subst here
    have tracked : a ∈ imported.setAccounts := mine ▸ List.mem_singleton_self a
    refine held_of_tracks importing.imports tracked ?_ ?_ (accounts a)
    · rw [commitImport_files]
      exact (if_neg untracked).trans (LogFiles.leftAll_committed twoPhase _ _ tracked)
    · rw [commitImport_files]
      change (LogFiles.leftAll loaders _ _ c.setAccounts _ _ a).index = _
      rw [LogFiles.leftAll, if_neg untracked]
      change (LogFiles.leftAll loaders _ _ imported.setAccounts _ _ a).index = _
      rw [LogFiles.leftAll_saved twoPhase _ _ tracked]
      rfl
  · have differs : a ≠ account := fun here => unknown ((known a).mpr (.inl here))
    have fresh : a ∉ e.accounts := fun held =>
      unknown ((known a).mpr (.inr (importing.kept a held)))
    have free : a ∉ imported.setAccounts := by
      rw [mine]
      exact fun here => differs (List.mem_singleton.mp here)
    obtain ⟨noTransactions, noRewards⟩ := sound.unused a fresh
    exact ⟨fun tracked => fresh ((set a).mp tracked), (if_neg free).trans noTransactions,
      (if_neg free).trans noRewards⟩

theorem Reached.sound (twoPhase : loaders.TwoPhase) (keys : Externals.publicKey "" ≠ .ok ())
    (reached : Reached loaders e standing) : e.Sound standing := by
  induction reached with
  | fresh hasKey => exact sound_fresh hasKey
  | sync _ logged run sound => exact sound.sync twoPhase logged run
  | imported _ valid new logs logged run sound =>
      refine sound.imported twoPhase new ?_ logs logged run
      rintro rfl
      exact keys valid
  | stopped _ _ sound =>
      exact ⟨sound.begins, sound.goes, sound.genesis, sound.blocks,
        fun a held => { sound.held a held with }, sound.lost, sound.unused⟩

end Runs

end Explorer
end Publiq
