import Publiq.CommanderLogs

/-! The logs of the accounts over many syncs: what each leaves in the files, and what the
next one opens. -/
namespace Publiq
open Message Checked

inductive LoaderCall where
  | save
  | commit

/-- The loaders of the library: what a file has after a loader that was opened on it has been
changed to a value, went through some calls and was left. -/
structure Loaders where
  left {α : Type} : List LoaderCall → (file value : α) → α

/-- A saved value reaches the file by `commit`, and by nothing else. -/
structure Loaders.TwoPhase (loaders : Loaders) : Prop where
  committed {α : Type} (file value : α) : loaders.left [.save, .commit] file value = value
  saved {α : Type} (file value : α) : loaders.left [.save, .save] file value = file

/-- `sync_context_detail`. -/
structure SyncContext where
  setAccounts : List String
  startIndex : ℕ
  headBlockIndex : ℕ
  transactions : IndexedLogs TransactionLog
  rewards : IndexedLogs Reward

namespace SyncContext

/-- What `sync` does to the logs with one entry of the action log. -/
def processAction (info : LoggedTransaction) (c : SyncContext) : Checked SyncContext := do
  let first := decide (c.startIndex = 0)
  let startIndex := info.index + 1
  match info.reverted, info.action with
  | false, .block log => do
      let headBlockIndex := if first then c.headBlockIndex else c.headBlockIndex + 1
      let transactions ← runAll (fun transaction => processTransactions c.setAccounts
        headBlockIndex transaction log.authority .apply) log.transactions c.transactions
      let rewards ← runAll (fun reward => processReward c.setAccounts headBlockIndex
        reward.target reward .apply) log.rewards c.rewards
      pure { c with startIndex, headBlockIndex, transactions, rewards }
  | false, .transaction log => do
      let transactions ←
        processTransactions c.setAccounts (c.headBlockIndex + 1) log "" .apply c.transactions
      pure { c with startIndex, transactions }
  | true, .block log => do
      let headBlockIndex := ActionLog.before c.headBlockIndex
      let transactions ← runAll (fun transaction => processTransactions c.setAccounts
        c.headBlockIndex transaction log.authority .revert) log.transactions.reverse
          c.transactions
      let rewards ← runAll (fun reward => processReward c.setAccounts c.headBlockIndex
        reward.target reward .revert) log.rewards.reverse c.rewards
      pure { c with startIndex, headBlockIndex, transactions, rewards }
  | true, .transaction log => do
      let transactions ←
        processTransactions c.setAccounts (c.headBlockIndex + 1) log "" .revert c.transactions
      pure { c with startIndex, transactions }

end SyncContext

namespace Commander
variable [Externals]

def context (c : Commander) : SyncContext :=
  ⟨c.setAccounts, c.startIndex, c.headBlockIndex, c.transactions, c.rewards⟩

theorem context_processLogged {k : ℕ} {authority : String} {statistics : Bool}
    {type : LoggingType} {log : TransactionLog} {c after : Commander}
    (run : processLogged k authority statistics type log c = .ok after) :
    ∃ transactions, processTransactions c.setAccounts k log authority type c.transactions =
        .ok transactions ∧ after.context = { c.context with transactions } := by
  simp only [processLogged, bind_ok_iff, pure_ok_iff] at run
  obtain ⟨storages, _, channels, _, accounts, _, transactions, run, rfl⟩ := run
  exact ⟨transactions, run, rfl⟩

theorem context_processRewarded {k : ℕ} {type : LoggingType} {reward : Reward}
    {c after : Commander} (run : processRewarded k type reward c = .ok after) :
    ∃ rewards, processReward c.setAccounts k reward.target reward type c.rewards = .ok rewards ∧
      after.context = { c.context with rewards } := by
  simp only [processRewarded, bind_ok_iff, pure_ok_iff] at run
  obtain ⟨accounts, _, rewards, run, rfl⟩ := run
  exact ⟨rewards, run, rfl⟩

theorem context_transactions {k : ℕ} {authority : String} {statistics : Bool}
    {type : LoggingType} {logs : List TransactionLog} {c after : Commander}
    (run : runAll (processLogged k authority statistics type) logs c = .ok after) :
    ∃ transactions, runAll (fun log => processTransactions c.setAccounts k log authority type)
        logs c.transactions = .ok transactions ∧
      after.context = { c.context with transactions } := by
  induction logs generalizing c with
  | nil =>
      cases run
      exact ⟨_, rfl, rfl⟩
  | cons log rest ih =>
      obtain ⟨mid, first, run⟩ := runAll_cons_ok_iff.mp run
      obtain ⟨between, reads, same⟩ := context_processLogged first
      obtain ⟨transactions, others, eq⟩ := ih run
      have accounts : mid.setAccounts = c.setAccounts := congrArg SyncContext.setAccounts same
      have held : mid.transactions = between := congrArg SyncContext.transactions same
      rw [accounts, held] at others
      exact ⟨transactions, runAll_cons_ok_iff.mpr ⟨between, reads, others⟩, by rw [eq, same]⟩

theorem context_rewards {k : ℕ} {type : LoggingType} {rewards : List Reward}
    {c after : Commander} (run : runAll (processRewarded k type) rewards c = .ok after) :
    ∃ logs, runAll (fun reward => processReward c.setAccounts k reward.target reward type)
        rewards c.rewards = .ok logs ∧ after.context = { c.context with rewards := logs } := by
  induction rewards generalizing c with
  | nil =>
      cases run
      exact ⟨_, rfl, rfl⟩
  | cons reward rest ih =>
      obtain ⟨mid, first, run⟩ := runAll_cons_ok_iff.mp run
      obtain ⟨between, reads, same⟩ := context_processRewarded first
      obtain ⟨logs, others, eq⟩ := ih run
      have accounts : mid.setAccounts = c.setAccounts := congrArg SyncContext.setAccounts same
      have held : mid.rewards = between := congrArg SyncContext.rewards same
      rw [accounts, held] at others
      exact ⟨logs, runAll_cons_ok_iff.mpr ⟨between, reads, others⟩, by rw [eq, same]⟩

def nextNumber (first : Bool) (c : Commander) : ℕ :=
  if first then c.headBlockIndex else c.headBlockIndex + 1

theorem applyBlockLog_cases {first : Bool} {log : BlockLog} {c after : Commander}
    (run : c.applyBlockLog first log = .ok after) :
    ∃ shown mid, shown.context = { c.context with headBlockIndex := c.nextNumber first } ∧
      runAll (processLogged (c.nextNumber first) log.authority (!c.newImport) .apply)
        log.transactions shown = .ok mid ∧
      runAll (processRewarded (c.nextNumber first) .apply) log.rewards mid = .ok after := by
  unfold applyBlockLog at run
  dsimp only at run
  change (if c.newImport = true then _ else _) = _ at run
  by_cases imports : c.newImport = true
  · rw [if_pos imports] at run
    obtain ⟨_, shown, run⟩ := bind_ok_iff.mp run
    obtain rfl := pure_ok_iff.mp shown
    obtain ⟨mid, transactions, rewards⟩ := bind_ok_iff.mp run
    exact ⟨{ c with headBlockIndex := c.nextNumber first }, mid, rfl, transactions, rewards⟩
  · rw [if_neg imports] at run
    obtain ⟨_, run⟩ := require_bind_ok_iff.mp run
    obtain ⟨_, shown, run⟩ := bind_ok_iff.mp run
    obtain rfl := pure_ok_iff.mp shown
    obtain ⟨mid, transactions, rewards⟩ := bind_ok_iff.mp run
    exact ⟨{ c with
      headBlockIndex := c.nextNumber first, blocks := c.blocks ++ [blockInfo log] }, mid, rfl,
      transactions, rewards⟩

theorem revertBlockLog_cases {log : BlockLog} {c after : Commander}
    (run : c.revertBlockLog log = .ok after) :
    ∃ mid left, runAll (processLogged c.headBlockIndex log.authority (!c.newImport) .revert)
        log.transactions.reverse { c with headBlockIndex := ActionLog.before c.headBlockIndex } =
        .ok mid ∧
      runAll (processRewarded c.headBlockIndex .revert) log.rewards.reverse mid = .ok left ∧
      after.context = left.context := by
  unfold revertBlockLog at run
  obtain ⟨mid, transactions, run⟩ := bind_ok_iff.mp run
  obtain ⟨left, rewards, run⟩ := bind_ok_iff.mp run
  refine ⟨mid, left, transactions, rewards, ?_⟩
  cases imports : left.newImport with
  | true =>
      rw [imports, if_pos rfl] at run
      cases run
      rfl
  | false =>
      rw [imports, if_neg Bool.false_ne_true] at run
      obtain ⟨_, run⟩ := require_bind_ok_iff.mp run
      cases run
      rfl

/-- The logs of the explorer are those of its context. -/
theorem context_processAction {info : LoggedTransaction} {c after : Commander}
    (run : c.processAction info = .ok after) :
    c.context.processAction info = .ok after.context := by
  rcases info with ⟨_ | _, index, log | log⟩
  · obtain ⟨shown, mid, context, transactions, rewards⟩ := applyBlockLog_cases run
    obtain ⟨logged, reads, same⟩ := context_transactions transactions
    obtain ⟨granted, rewarded, eq⟩ := context_rewards rewards
    have accounts : shown.setAccounts = c.setAccounts := congrArg SyncContext.setAccounts context
    have rest : mid.setAccounts = c.setAccounts :=
      (congrArg SyncContext.setAccounts same).trans accounts
    have held : shown.transactions = c.transactions :=
      congrArg SyncContext.transactions context
    have hadRewards : mid.rewards = c.rewards :=
      (congrArg SyncContext.rewards same).trans (congrArg SyncContext.rewards context)
    rw [accounts, held] at reads
    rw [rest, hadRewards] at rewarded
    rw [eq, same, context]
    exact bind_ok_iff.mpr ⟨logged, reads, bind_ok_iff.mpr ⟨granted, rewarded, rfl⟩⟩
  · obtain ⟨transactions, reads, same⟩ := context_processLogged run
    rw [same]
    exact bind_ok_iff.mpr ⟨transactions, reads, rfl⟩
  · obtain ⟨mid, left, transactions, rewards, last⟩ := revertBlockLog_cases run
    obtain ⟨logged, reads, same⟩ := context_transactions transactions
    obtain ⟨granted, rewarded, eq⟩ := context_rewards rewards
    have rest : mid.setAccounts = c.setAccounts := congrArg SyncContext.setAccounts same
    have hadRewards : mid.rewards = c.rewards := congrArg SyncContext.rewards same
    rw [rest, hadRewards] at rewarded
    rw [last, eq, same]
    exact bind_ok_iff.mpr ⟨logged, reads, bind_ok_iff.mpr ⟨granted, rewarded, rfl⟩⟩
  · obtain ⟨transactions, reads, same⟩ := context_processLogged run
    rw [same]
    exact bind_ok_iff.mpr ⟨transactions, reads, rfl⟩

end Commander

/-- The files of the explorer that a sync context opens: the logs by the account. -/
structure LogFiles where
  startIndex : ℕ
  headBlockIndex : ℕ
  transactions : String → IndexedLog TransactionLog
  rewards : String → IndexedLog Reward

namespace LogFiles

def openAll {α : Type} (accounts : List String) (files : String → IndexedLog α) :
    IndexedLogs α :=
  accounts.foldl (fun logs account => logs.insert account (files account)) ∅

/-- `sync_context_existing`. -/
def openContext (accounts : List String) (files : LogFiles) : SyncContext where
  setAccounts := accounts
  startIndex := files.startIndex
  headBlockIndex := files.headBlockIndex
  transactions := openAll accounts files.transactions
  rewards := openAll accounts files.rewards

/-- `sync_context_new_import`, which reads the log from its beginning for one account. -/
def openImport (account : String) (files : LogFiles) : SyncContext :=
  openContext [account] { files with startIndex := 0, headBlockIndex := 0 }

def leftAll {α : Type} (loaders : Loaders) (logCalls indexCalls : List LoaderCall)
    (accounts : List String) (files : String → IndexedLog α) (logs : IndexedLogs α)
    (account : String) : IndexedLog α :=
  if account ∈ accounts then
    let il := logs[account]?.getD default
    ⟨loaders.left logCalls (files account).log il.log,
      loaders.left indexCalls (files account).index il.index⟩
  else files account

/-- `save` and `commit` of either context, as far as they go over its logs. `commit` saves the
logs of the rewards a second time. -/
def commitLogs (loaders : Loaders) (c : SyncContext) (files : LogFiles) : LogFiles :=
  { files with
    transactions := leftAll loaders [.save, .commit] [.save, .commit] c.setAccounts
      files.transactions c.transactions
    rewards := leftAll loaders [.save, .save] [.save, .commit] c.setAccounts
      files.rewards c.rewards }

/-- `save` and `commit` of `sync_context_existing`. -/
def commit (loaders : Loaders) (c : SyncContext) (files : LogFiles) : LogFiles :=
  { commitLogs loaders c files with
    startIndex := loaders.left [.save, .commit] files.startIndex c.startIndex
    headBlockIndex := loaders.left [.save, .commit] files.headBlockIndex c.headBlockIndex }

end LogFiles

def touched (log : TransactionLog) (authority : String) : List String :=
  match transactionInfo log with
  | .ok info => touchedBy info authority
  | .error _ => []

/-- `TransactionInfo` cannot be made from a transaction. -/
def Unread (log : TransactionLog) (e : Failure) : Prop := transactionInfo log = .error e

def listed {α : Type} (k : ℕ) (who : α → List String) (xs : List α) (account : String) :
    List (ℕ × α) :=
  (xs.filter fun x => account ∈ who x).map (k, ·)

def transactionEntries (k : ℕ) (packet : LogPacket) : String → List (ℕ × TransactionLog) :=
  match packet with
  | .block log => listed k (touched · log.authority) log.transactions
  | .transaction log => listed k (touched · "") [log]

def rewardEntries (k : ℕ) (packet : LogPacket) : String → List (ℕ × Reward) :=
  match packet with
  | .block log => listed k (fun reward => [reward.target]) log.rewards
  | .transaction _ => fun _ => []

def blockCount (packets : List LogPacket) : ℕ :=
  packets.countP fun packet => packet matches .block _

/-- What the packets that stand put into a log, each under the number of blocks before it: that
is the number of a block, and the number of the block that a transaction waits for. -/
def entriesOf {α : Type} (entries : ℕ → LogPacket → String → List (ℕ × α))
    (standing : List LogPacket) (account : String) : List (ℕ × α) :=
  standing.zipIdx.flatMap fun (packet, i) =>
    entries (blockCount (standing.take i)) packet account

/-- What stands after an entry of the action log, or `none` where the log does not go on in this
order: the genesis block comes first and is never taken back, a block comes when no transaction of
the pool stands, and what came last is taken back first. The log of a node goes on so, unless a
cleanup of its cache makes `revert_pool` pass over a transaction, which then stands below a block. -/
def follow (info : LoggedTransaction) (standing : List LogPacket) : Option (List LogPacket) :=
  match info.reverted, info.action with
  | false, .block log =>
      if standing.all (· matches .block _) then some (standing ++ [.block log]) else none
  | false, .transaction log =>
      if standing = [] then none else some (standing ++ [.transaction log])
  | true, action =>
      if 1 < standing.length ∧ standing.getLast? = some action then some standing.dropLast
      else none

theorem follow_cases {info : LoggedTransaction} {standing after : List LogPacket}
    (logged : follow info standing = some after) :
    (∃ index log, info = ⟨false, index, .block log⟩ ∧
        (∀ packet ∈ standing, ∃ block, packet = .block block) ∧
        after = standing ++ [.block log]) ∨
      (∃ index log, info = ⟨false, index, .transaction log⟩ ∧ standing ≠ [] ∧
        after = standing ++ [.transaction log]) ∨
      ∃ index packet, info = ⟨true, index, packet⟩ ∧ after ≠ [] ∧ standing = after ++ [packet] := by
  rcases info with ⟨_ | _, index, packet⟩
  · cases packet with
    | block log =>
        obtain ⟨blocks, eq⟩ := Option.ite_none_right_eq_some.mp logged
        obtain rfl := Option.some.inj eq
        refine .inl ⟨index, log, rfl, fun packet member => ?_, rfl⟩
        have block := List.all_eq_true.mp blocks packet member
        cases packet with
        | block other => exact ⟨other, rfl⟩
        | transaction other => cases block
    | transaction log =>
        obtain ⟨begun, eq⟩ := Option.ite_none_left_eq_some.mp logged
        obtain rfl := Option.some.inj eq
        exact .inr (.inl ⟨index, log, rfl, begun, rfl⟩)
  · obtain ⟨⟨long, last⟩, eq⟩ := Option.ite_none_right_eq_some.mp logged
    obtain rfl := Option.some.inj eq
    obtain ⟨rest, rfl⟩ := List.getLast?_eq_some_iff.mp last
    refine .inr (.inr ⟨index, packet, rfl, ?_, ?_⟩)
    · rw [List.dropLast_concat]
      rintro rfl
      exact absurd long (by simp)
    · rw [List.dropLast_concat]

def followAll (standing : List LogPacket) (actions : List LoggedTransaction) :
    Option (List LogPacket) :=
  actions.foldlM (fun standing info => follow info standing) standing

section
variable {α : Type} {accounts : List String} {logs : IndexedLogs α} {k : ℕ}
  {who : α → List String} {entries : String → List (ℕ × α)} {x : α} {xs : List α}
  {f : α → IndexedLogs α → Checked (IndexedLogs α)} {fails : α → Failure → Prop}

theorem listed_append (k : ℕ) (who : α → List String) (xs ys : List α) (account : String) :
    listed k who (xs ++ ys) account = listed k who xs account ++ listed k who ys account := by
  rw [listed, List.filter_append, List.map_append]
  rfl

theorem eq_of_mem_listed {account : String} {entry : ℕ × α}
    (member : entry ∈ listed k who xs account) : entry.1 = k := by
  obtain ⟨x, _, rfl⟩ := List.mem_map.mp member
  rfl

theorem entriesWith_listed (who : α → List String) (entries : String → List (ℕ × α)) (x : α) :
    entriesWith (who x) k x entries =
      fun account => entries account ++ listed k who [x] account := by
  funext account
  by_cases member : account ∈ who x
  · simp [entriesWith, listed, member]
  · simp [entriesWith, listed, member]

/-- A step logs its entry, or it fails whatever there is. -/
def Logs (accounts : List String) (k : ℕ) (who : α → List String) (fails : α → Failure → Prop)
    (f : α → IndexedLogs α → Checked (IndexedLogs α)) (x : α) : Prop :=
  (∃ e, fails x e ∧ ∀ logs, f x logs = .error e) ∨
    (∀ e, ¬ fails x e) ∧ ∀ entries logs, KeepsLogs accounts entries logs →
      (∀ account, ∀ entry ∈ entries account, entry.1 ≤ k) →
        ∃ after, f x logs = .ok after ∧
          KeepsLogs accounts (fun account => entries account ++ listed k who [x] account) after

/-- A step takes its entry back, or it fails whatever there is. -/
def Unlogs (accounts : List String) (k : ℕ) (who : α → List String)
    (fails : α → Failure → Prop) (f : α → IndexedLogs α → Checked (IndexedLogs α)) (x : α) :
    Prop :=
  (∃ e, fails x e ∧ ∀ logs, f x logs = .error e) ∨
    (∀ e, ¬ fails x e) ∧ ∀ entries logs,
      KeepsLogs accounts (fun account => entries account ++ listed k who [x] account) logs →
      (∀ account, ∀ entry ∈ entries account, entry.1 ≤ k) →
        ∃ after, f x logs = .ok after ∧ KeepsLogs accounts entries after

/-- All entries of a block are logged. -/
theorem KeepsLogs.logAll (keeps : KeepsLogs accounts entries logs) (xs : List α)
    (low : ∀ account, ∀ entry ∈ entries account, entry.1 ≤ k)
    (each : ∀ x ∈ xs, Logs accounts k who fails f x) :
    (∃ e, runAll f xs logs = .error e ∧ ∃ x ∈ xs, fails x e) ∨
      (∀ x ∈ xs, ∀ e, ¬ fails x e) ∧ ∃ after, runAll f xs logs = .ok after ∧
        KeepsLogs accounts (fun account => entries account ++ listed k who xs account) after := by
  induction xs generalizing entries logs with
  | nil =>
      refine .inr ⟨fun _ member => absurd member List.not_mem_nil, logs, rfl, ?_⟩
      simpa [listed] using keeps
  | cons x rest ih =>
      rw [runAll_cons]
      rcases each x List.mem_cons_self with ⟨e, failing, stops⟩ | ⟨sound, logging⟩
      · refine .inl ⟨e, ?_, x, List.mem_cons_self, failing⟩
        rw [stops]
        rfl
      · obtain ⟨mid, first, keeps⟩ := logging entries logs keeps low
        rw [first, ok_bind]
        have others := ih keeps (by
          intro account entry member
          rcases List.mem_append.mp member with member | member
          · exact low account entry member
          · exact (eq_of_mem_listed member).le)
          fun other member => each other (List.mem_cons_of_mem x member)
        rcases others with ⟨e, run, other, member, failing⟩ | ⟨all, after, run, keeps⟩
        · exact .inl ⟨e, run, other, List.mem_cons_of_mem x member, failing⟩
        · refine .inr ⟨List.forall_mem_cons.mpr ⟨sound, all⟩, after, run, ?_⟩
          have split : (fun account => entries account ++ listed k who (x :: rest) account) =
              fun account => entries account ++ listed k who [x] account ++
                listed k who rest account := by
            funext account
            rw [List.append_assoc, ← listed_append, List.singleton_append]
          rw [split]
          exact keeps

/-- All entries of a block are taken back, the last one first. -/
theorem KeepsLogs.unlogAll
    (keeps : KeepsLogs accounts (fun account => entries account ++ listed k who xs account) logs)
    (low : ∀ account, ∀ entry ∈ entries account, entry.1 ≤ k)
    (each : ∀ x ∈ xs, Unlogs accounts k who fails f x) :
    (∃ e, runAll f xs.reverse logs = .error e ∧ ∃ x ∈ xs, fails x e) ∨
      (∀ x ∈ xs, ∀ e, ¬ fails x e) ∧
        ∃ after, runAll f xs.reverse logs = .ok after ∧ KeepsLogs accounts entries after := by
  induction xs using List.reverseRecOn generalizing logs with
  | nil =>
      refine .inr ⟨fun _ member => absurd member List.not_mem_nil, logs, rfl, ?_⟩
      simpa [listed] using keeps
  | append_singleton rest x ih =>
      rw [List.reverse_append, List.reverse_singleton, List.singleton_append, runAll_cons]
      have last : x ∈ rest ++ [x] := List.mem_append_right _ List.mem_cons_self
      rcases each x last with ⟨e, failing, stops⟩ | ⟨sound, unlogging⟩
      · refine .inl ⟨e, ?_, x, last, failing⟩
        rw [stops]
        rfl
      · have split : (fun account => entries account ++ listed k who (rest ++ [x]) account) =
            fun account => entries account ++ listed k who rest account ++
              listed k who [x] account := by
          funext account
          rw [List.append_assoc, listed_append]
        rw [split] at keeps
        obtain ⟨mid, first, keeps⟩ := unlogging _ logs keeps (by
          intro account entry member
          rcases List.mem_append.mp member with member | member
          · exact low account entry member
          · exact (eq_of_mem_listed member).le)
        rw [first, ok_bind]
        have others := ih keeps fun other member => each other (List.mem_append_left _ member)
        rcases others with ⟨e, run, other, member, failing⟩ | ⟨all, done⟩
        · exact .inl ⟨e, run, other, List.mem_append_left _ member, failing⟩
        · refine .inr ⟨fun other member => ?_, done⟩
          rcases List.mem_append.mp member with member | member
          · exact all other member
          · rw [List.mem_singleton.mp member]
            exact sound

end

section
variable (accounts : List String) (k : ℕ)

theorem processTransactions_run {log : TransactionLog} {info : TransactionInfo}
    (known : transactionInfo log = .ok info) (authority : String) (type : LoggingType)
    (logs : IndexedLogs TransactionLog) :
    processTransactions accounts k log authority type logs =
      runAll (fun account => processTransaction accounts k account log type)
        (touchedBy info authority) logs := by
  unfold processTransactions
  rw [known, ok_bind]

theorem processTransactions_unread {log : TransactionLog} {e : Failure}
    (unknown : transactionInfo log = .error e) (authority : String) (type : LoggingType)
    (logs : IndexedLogs TransactionLog) :
    processTransactions accounts k log authority type logs = .error e := by
  unfold processTransactions
  rw [unknown, error_bind]

theorem touched_of_ok {log : TransactionLog} {info : TransactionInfo}
    (known : transactionInfo log = .ok info) (authority : String) :
    touched log authority = touchedBy info authority := by
  rw [touched, known]

theorem read_of_ok {log : TransactionLog} {info : TransactionInfo}
    (known : transactionInfo log = .ok info) (e : Failure) : ¬ Unread log e := by
  rw [Unread, known]
  exact fun h => nomatch h

/-- `process_transactions` logs a transaction. -/
theorem logs_transaction (authority : String) (log : TransactionLog) :
    Logs accounts k (touched · authority) Unread
      (fun log => processTransactions accounts k log authority .apply) log := by
  cases known : transactionInfo log with
  | error e =>
      exact .inl ⟨e, known, fun logs =>
        processTransactions_unread accounts k known authority .apply logs⟩
  | ok info =>
      refine .inr ⟨read_of_ok known, fun entries logs keeps low => ?_⟩
      obtain ⟨after, run, keeps⟩ := keeps.applyAll (x := log) (touchedBy_nodup info authority)
        (fun account _ => low account) "transaction"
      rw [← touched_of_ok known authority,
        entriesWith_listed (touched · authority)] at keeps
      exact ⟨after, (processTransactions_run accounts k known authority .apply logs).trans run,
        keeps⟩

/-- `process_transactions` takes a transaction back. -/
theorem unlogs_transaction (authority : String) (log : TransactionLog) :
    Unlogs accounts k (touched · authority) Unread
      (fun log => processTransactions accounts k log authority .revert) log := by
  cases known : transactionInfo log with
  | error e =>
      exact .inl ⟨e, known, fun logs =>
        processTransactions_unread accounts k known authority .revert logs⟩
  | ok info =>
      refine .inr ⟨read_of_ok known, fun entries logs keeps low => ?_⟩
      rw [← entriesWith_listed (touched · authority),
        touched_of_ok known authority] at keeps
      obtain ⟨after, run, keeps⟩ := keeps.revertAll (touchedBy_nodup info authority)
        (fun account _ => low account) "transaction"
      exact ⟨after, (processTransactions_run accounts k known authority .revert logs).trans run,
        keeps⟩

theorem logs_reward (reward : Reward) :
    Logs accounts k (fun reward => [reward.target]) (fun _ _ => False)
      (fun reward => processReward accounts k reward.target reward .apply) reward := by
  refine .inr ⟨fun _ never => never, fun entries logs keeps low => ?_⟩
  rw [← entriesWith_listed fun reward : Reward => [reward.target]]
  exact keeps.apply (low reward.target) "reward"

theorem unlogs_reward (reward : Reward) :
    Unlogs accounts k (fun reward => [reward.target]) (fun _ _ => False)
      (fun reward => processReward accounts k reward.target reward .revert) reward := by
  refine .inr ⟨fun _ never => never, fun entries logs keeps low => ?_⟩
  rw [← entriesWith_listed fun reward : Reward => [reward.target]] at keeps
  exact keeps.revert (low reward.target) "reward"

end

section
variable {α : Type} {entries : ℕ → LogPacket → String → List (ℕ × α)}
  {standing : List LogPacket} {packet : LogPacket}

theorem blockCount_concat_block (standing : List LogPacket) (log : BlockLog) :
    blockCount (standing ++ [.block log]) = blockCount standing + 1 := by
  rw [blockCount, List.countP_append]
  rfl

theorem blockCount_concat_transaction (standing : List LogPacket) (log : TransactionLog) :
    blockCount (standing ++ [.transaction log]) = blockCount standing := by
  rw [blockCount, List.countP_append]
  rfl

theorem entriesOf_concat (entries : ℕ → LogPacket → String → List (ℕ × α))
    (standing : List LogPacket) (packet : LogPacket) (account : String) :
    entriesOf entries (standing ++ [packet]) account =
      entriesOf entries standing account ++ entries (blockCount standing) packet account := by
  rw [entriesOf, List.zipIdx_append, List.flatMap_append]
  congr 1
  · apply List.flatMap_congr
    rintro ⟨other, i⟩ member
    have inside : i < standing.length := by
      simpa using List.snd_lt_add_of_mem_zipIdx member
    dsimp only
    rw [List.take_append_of_le_length inside.le]
  · simp

theorem eq_of_mem_transactionEntries {k : ℕ} {account : String} {entry : ℕ × TransactionLog}
    (member : entry ∈ transactionEntries k packet account) : entry.1 = k := by
  cases packet with
  | block log => exact eq_of_mem_listed member
  | transaction log => exact eq_of_mem_listed member

theorem eq_of_mem_rewardEntries {k : ℕ} {account : String} {entry : ℕ × Reward}
    (member : entry ∈ rewardEntries k packet account) : entry.1 = k := by
  cases packet with
  | block log => exact eq_of_mem_listed member
  | transaction log => cases member

theorem entriesOf_low
    (here : ∀ k packet account, ∀ entry ∈ entries k packet account, entry.1 = k)
    (standing : List LogPacket) (account : String) :
    ∀ entry ∈ entriesOf entries standing account, entry.1 ≤ blockCount standing := by
  intro entry member
  obtain ⟨⟨packet, i⟩, _, member⟩ := List.mem_flatMap.mp member
  rw [here _ packet account entry member]
  exact (List.take_sublist i standing).countP_le

end

namespace SyncContext

/-- A context has followed the log up to what stands. -/
structure Follows (standing : List LogPacket) (c : SyncContext) : Prop where
  begins : standing = [] → c.startIndex = 0 ∧ c.headBlockIndex = 0
  goes : standing ≠ [] → c.startIndex ≠ 0 ∧ blockCount standing = c.headBlockIndex + 1
  genesis : ∀ packet, standing.head? = some packet → ∃ log, packet = .block log
  transactions : KeepsLogs c.setAccounts (entriesOf transactionEntries standing) c.transactions
  rewards : KeepsLogs c.setAccounts (entriesOf rewardEntries standing) c.rewards

def Tells (packet : LogPacket) (log : TransactionLog) : Prop :=
  match packet with
  | .block block => log ∈ block.transactions
  | .transaction pooled => log = pooled

variable {standing after : List LogPacket} {c : SyncContext} {info : LoggedTransaction}

theorem transactions_low (standing : List LogPacket) (account : String) :
    ∀ entry ∈ entriesOf transactionEntries standing account, entry.1 ≤ blockCount standing :=
  entriesOf_low (fun _ _ _ _ => eq_of_mem_transactionEntries) standing account

theorem rewards_low (standing : List LogPacket) (account : String) :
    ∀ entry ∈ entriesOf rewardEntries standing account, entry.1 ≤ blockCount standing :=
  entriesOf_low (fun _ _ _ _ => eq_of_mem_rewardEntries) standing account

theorem entriesOf_block (standing : List LogPacket) (log : BlockLog) :
    entriesOf transactionEntries (standing ++ [.block log]) = fun account =>
      entriesOf transactionEntries standing account ++
        listed (blockCount standing) (touched · log.authority) log.transactions account := by
  funext account
  exact entriesOf_concat transactionEntries standing (.block log) account

theorem entriesOf_transaction (standing : List LogPacket) (log : TransactionLog) :
    entriesOf transactionEntries (standing ++ [.transaction log]) = fun account =>
      entriesOf transactionEntries standing account ++
        listed (blockCount standing) (touched · "") [log] account := by
  funext account
  exact entriesOf_concat transactionEntries standing (.transaction log) account

theorem rewardsOf_block (standing : List LogPacket) (log : BlockLog) :
    entriesOf rewardEntries (standing ++ [.block log]) = fun account =>
      entriesOf rewardEntries standing account ++
        listed (blockCount standing) (fun reward => [reward.target]) log.rewards account := by
  funext account
  exact entriesOf_concat rewardEntries standing (.block log) account

theorem rewardsOf_transaction (standing : List LogPacket) (log : TransactionLog) :
    entriesOf rewardEntries (standing ++ [.transaction log]) =
      entriesOf rewardEntries standing := by
  funext account
  exact (entriesOf_concat rewardEntries standing (.transaction log) account).trans
    (List.append_nil _)

theorem Follows.next (follows : Follows standing c) :
    (if decide (c.startIndex = 0) = true then c.headBlockIndex else c.headBlockIndex + 1) =
      blockCount standing := by
  by_cases none : standing = []
  · obtain ⟨start, head⟩ := follows.begins none
    rw [if_pos (by simpa using start), head, none]
    rfl
  · obtain ⟨start, head⟩ := follows.goes none
    rw [if_neg (by simpa using start), head]

/-- A context that has read an entry and follows the log behind it, or that stopped at a
transaction it cannot read. -/
def Reads (packet : LogPacket) (after : List LogPacket) (c : SyncContext)
    (run : Checked SyncContext) : Prop :=
  (∃ e, run = .error e ∧ ∃ log, Tells packet log ∧ Unread log e) ∨
    (∀ log, Tells packet log → ∀ e, ¬ Unread log e) ∧
      ∃ c', run = .ok c' ∧ Follows after c' ∧ c'.setAccounts = c.setAccounts

theorem head?_concat_block (genesis : ∀ packet, standing.head? = some packet →
    ∃ log, packet = .block log) (log : BlockLog) :
    ∀ packet, (standing ++ [LogPacket.block log]).head? = some packet →
      ∃ log, packet = .block log := by
  intro packet first
  cases standing with
  | nil => exact ⟨log, (Option.some.inj first).symm⟩
  | cons other rest => exact genesis packet first

theorem head?_of_concat {last : LogPacket} (genesis : ∀ packet,
    (standing ++ [last]).head? = some packet → ∃ log, packet = .block log) :
    ∀ packet, standing.head? = some packet → ∃ log, packet = .block log := by
  intro packet first
  apply genesis
  rw [List.head?_append, first]
  rfl

theorem Follows.applyBlock (follows : Follows standing c) (index : ℕ) (log : BlockLog) :
    Reads (.block log) (standing ++ [.block log]) c
      (c.processAction ⟨false, index, .block log⟩) := by
  unfold processAction
  dsimp only
  rw [follows.next]
  rcases follows.transactions.logAll log.transactions
    (fun account => transactions_low standing account)
    (fun log' _ => logs_transaction c.setAccounts (blockCount standing) log.authority log') with
    ⟨e, run, unread⟩ | ⟨all, transactions, run, keeps⟩
  · refine .inl ⟨e, ?_, unread⟩
    rw [run]
    rfl
  rcases follows.rewards.logAll log.rewards (fun account => rewards_low standing account)
    (fun reward _ => logs_reward c.setAccounts (blockCount standing) reward) with
    ⟨e, _, _, _, never⟩ | ⟨_, rewards, runRewards, keepsRewards⟩
  · exact never.elim
  have result : (do
      let transactions ← runAll (fun transaction => processTransactions c.setAccounts
        (blockCount standing) transaction log.authority .apply) log.transactions c.transactions
      let rewards ← runAll (fun reward => processReward c.setAccounts (blockCount standing)
        reward.target reward .apply) log.rewards c.rewards
      pure { c with
        startIndex := index + 1, headBlockIndex := blockCount standing, transactions, rewards }) =
      (.ok ⟨c.setAccounts, index + 1, blockCount standing, transactions, rewards⟩ :
        Checked SyncContext) := by
    rw [run, ok_bind, runRewards, ok_bind]
    rfl
  refine .inr ⟨all, _, result, ⟨fun none => ?_, fun _ => ⟨Nat.succ_ne_zero _, ?_⟩, ?_, ?_, ?_⟩, rfl⟩
  · exact absurd none (List.append_ne_nil_of_right_ne_nil _ (List.cons_ne_nil _ _))
  · exact blockCount_concat_block standing log
  · exact head?_concat_block follows.genesis log
  · rw [entriesOf_block]
    exact keeps
  · rw [rewardsOf_block]
    exact keepsRewards

theorem Follows.applyTransaction (follows : Follows standing c) (begun : standing ≠ [])
    (index : ℕ) (log : TransactionLog) :
    Reads (.transaction log) (standing ++ [.transaction log]) c
      (c.processAction ⟨false, index, .transaction log⟩) := by
  obtain ⟨_, head⟩ := follows.goes begun
  unfold processAction
  dsimp only
  rw [← head]
  rcases follows.transactions.logAll [log]
    (fun account => transactions_low standing account)
    (fun log _ => logs_transaction c.setAccounts (blockCount standing) "" log) with
    ⟨e, run, other, member, unread⟩ | ⟨all, transactions, run, keeps⟩
  · rw [runAll_singleton] at run
    rw [List.mem_singleton.mp member] at unread
    exact .inl ⟨e, by rw [run]; rfl, log, rfl, unread⟩
  rw [runAll_singleton] at run
  have result : (do
      let transactions ← processTransactions c.setAccounts (blockCount standing) log "" .apply
        c.transactions
      pure { c with startIndex := index + 1, transactions }) =
      (.ok ⟨c.setAccounts, index + 1, c.headBlockIndex, transactions, c.rewards⟩ :
        Checked SyncContext) := by
    rw [run, ok_bind]
    rfl
  refine .inr ⟨?_, _, result, ⟨fun none => ?_, fun _ => ⟨Nat.succ_ne_zero _, ?_⟩, ?_, ?_, ?_⟩, rfl⟩
  · rintro _ rfl
    exact all _ List.mem_cons_self
  · exact absurd none (List.append_ne_nil_of_right_ne_nil _ (List.cons_ne_nil _ _))
  · exact (blockCount_concat_transaction standing log).trans head
  · intro packet first
    rw [List.head?_append_of_ne_nil _ begun] at first
    exact follows.genesis packet first
  · rw [entriesOf_transaction]
    exact keeps
  · rw [rewardsOf_transaction]
    exact follows.rewards

theorem blockCount_pos (genesis : ∀ packet, standing.head? = some packet →
    ∃ log, packet = .block log) (begun : standing ≠ []) : 0 < blockCount standing := by
  cases standing with
  | nil => exact absurd rfl begun
  | cons first rest =>
      obtain ⟨log, rfl⟩ := genesis first rfl
      rw [blockCount, List.countP_cons]
      exact Nat.succ_pos _

/-- A block is taken back. -/
theorem Follows.revertBlock {log : BlockLog} (follows : Follows (standing ++ [.block log]) c)
    (begun : standing ≠ []) (index : ℕ) :
    Reads (.block log) standing c (c.processAction ⟨true, index, .block log⟩) := by
  have genesis := head?_of_concat follows.genesis
  have number : c.headBlockIndex = blockCount standing := by
    have head := (follows.goes (List.append_ne_nil_of_right_ne_nil _ (List.cons_ne_nil _ _))).2
    rw [blockCount_concat_block] at head
    exact (Nat.succ_injective head).symm
  have before : blockCount standing = ActionLog.before c.headBlockIndex + 1 := by
    have positive := blockCount_pos genesis begun
    rw [number, ActionLog.before, if_neg positive.ne']
    exact (Nat.sub_add_cancel positive).symm
  have keepsTransactions := follows.transactions
  rw [entriesOf_block] at keepsTransactions
  have keepsRewards := follows.rewards
  rw [rewardsOf_block] at keepsRewards
  unfold processAction
  dsimp only
  rcases keepsTransactions.unlogAll (fun account => transactions_low standing account)
    (fun log' _ => unlogs_transaction c.setAccounts (blockCount standing) log.authority log') with
    ⟨e, run, unread⟩ | ⟨all, transactions, run, keepsTransactions⟩
  · refine .inl ⟨e, ?_, unread⟩
    rw [number, run]
    rfl
  rcases keepsRewards.unlogAll (fun account => rewards_low standing account)
    (fun reward _ => unlogs_reward c.setAccounts (blockCount standing) reward) with
    ⟨e, _, _, _, never⟩ | ⟨_, rewards, runRewards, keepsRewards⟩
  · exact never.elim
  have result : (do
      let transactions ← runAll (fun transaction => processTransactions c.setAccounts
        c.headBlockIndex transaction log.authority .revert) log.transactions.reverse
          c.transactions
      let rewards ← runAll (fun reward => processReward c.setAccounts c.headBlockIndex
        reward.target reward .revert) log.rewards.reverse c.rewards
      pure { c with
        startIndex := index + 1, headBlockIndex := ActionLog.before c.headBlockIndex
        transactions, rewards }) =
      (.ok ⟨c.setAccounts, index + 1, ActionLog.before c.headBlockIndex, transactions, rewards⟩ :
        Checked SyncContext) := by
    rw [number, run, ok_bind, runRewards, ok_bind]
    rfl
  exact .inr ⟨all, _, result, ⟨fun none => absurd none begun,
    fun _ => ⟨Nat.succ_ne_zero _, before⟩, genesis, keepsTransactions, keepsRewards⟩, rfl⟩

theorem Follows.revertTransaction {log : TransactionLog}
    (follows : Follows (standing ++ [.transaction log]) c) (begun : standing ≠ []) (index : ℕ) :
    Reads (.transaction log) standing c (c.processAction ⟨true, index, .transaction log⟩) := by
  have head := (follows.goes (List.append_ne_nil_of_right_ne_nil _ (List.cons_ne_nil _ _))).2
  rw [blockCount_concat_transaction] at head
  have keepsTransactions := follows.transactions
  rw [entriesOf_transaction] at keepsTransactions
  have keepsRewards := follows.rewards
  rw [rewardsOf_transaction] at keepsRewards
  unfold processAction
  dsimp only
  rw [← head]
  rcases keepsTransactions.unlogAll (fun account => transactions_low standing account)
    (fun log _ => unlogs_transaction c.setAccounts (blockCount standing) "" log) with
    ⟨e, run, other, member, unread⟩ | ⟨all, transactions, run, keepsTransactions⟩
  · rw [List.reverse_singleton, runAll_singleton] at run
    rw [List.mem_singleton.mp member] at unread
    exact .inl ⟨e, by rw [run]; rfl, log, rfl, unread⟩
  rw [List.reverse_singleton, runAll_singleton] at run
  have result : (do
      let transactions ← processTransactions c.setAccounts (blockCount standing) log "" .revert
        c.transactions
      pure { c with startIndex := index + 1, transactions }) =
      (.ok ⟨c.setAccounts, index + 1, c.headBlockIndex, transactions, c.rewards⟩ :
        Checked SyncContext) := by
    rw [run, ok_bind]
    rfl
  refine .inr ⟨?_, _, result, ⟨fun none => absurd none begun, fun _ => ⟨Nat.succ_ne_zero _, head⟩,
    head?_of_concat follows.genesis, keepsTransactions, keepsRewards⟩, rfl⟩
  rintro _ rfl
  exact all _ List.mem_cons_self

theorem Follows.step (follows : Follows standing c) (logged : follow info standing = some after) :
    Reads info.action after c (c.processAction info) := by
  rcases follow_cases logged with
    ⟨index, log, rfl, _, rfl⟩ | ⟨index, log, rfl, begun, rfl⟩ | ⟨index, packet, rfl, begun, rfl⟩
  · exact follows.applyBlock index log
  · exact follows.applyTransaction begun index log
  · cases packet with
    | block log => exact follows.revertBlock begun index
    | transaction log => exact follows.revertTransaction begun index

theorem Follows.run (follows : Follows standing c) {actions : List LoggedTransaction}
    (logged : followAll standing actions = some after) :
    (∃ e, runAll processAction actions c = .error e ∧
        ∃ info ∈ actions, ∃ log, Tells info.action log ∧ Unread log e) ∨
      (∀ info ∈ actions, ∀ log, Tells info.action log → ∀ e, ¬ Unread log e) ∧
        ∃ c', runAll processAction actions c = .ok c' ∧ Follows after c' ∧
          c'.setAccounts = c.setAccounts := by
  induction actions generalizing standing c with
  | nil =>
      cases logged
      exact .inr ⟨fun _ member => absurd member List.not_mem_nil, c, rfl, follows, rfl⟩
  | cons info rest ih =>
      obtain ⟨between, first, logged⟩ := Option.bind_eq_some_iff.mp logged
      rw [runAll_cons]
      rcases follows.step first with ⟨e, run, unread⟩ | ⟨here, mid, run, follows, same⟩
      · refine .inl ⟨e, ?_, info, List.mem_cons_self, unread⟩
        rw [run]
        rfl
      · rw [run, ok_bind]
        rcases ih follows logged with ⟨e, run, other, member, unread⟩ | ⟨all, c', run, follows, eq⟩
        · exact .inl ⟨e, run, other, List.mem_cons_of_mem info member, unread⟩
        · exact .inr ⟨List.forall_mem_cons.mpr ⟨here, all⟩, c', run, follows, eq.trans same⟩

end SyncContext

namespace LogFiles

theorem getElem?_openAll {α : Type} (accounts : List String) (files : String → IndexedLog α)
    (account : String) : (openAll accounts files)[account]? =
      if account ∈ accounts then some (files account) else none := by
  induction accounts using List.reverseRecOn with
  | nil => rfl
  | append_singleton rest other ih =>
      rw [openAll, List.foldl_append]
      change ((openAll rest files).insert other (files other))[account]? = _
      rw [Std.ExtTreeMap.getElem?_insert, ih]
      by_cases same : other = account
      · subst same
        simp
      · rw [if_neg (by simpa using same)]
        simp [Ne.symm same]

theorem getD_openAll {α : Type} {accounts : List String} (files : String → IndexedLog α)
    {account : String} (member : account ∈ accounts) :
    (openAll accounts files)[account]?.getD default = files account := by
  rw [getElem?_openAll, if_pos member]
  rfl

theorem keepsLogs_openAll {α : Type} {accounts : List String} {files : String → IndexedLog α}
    {entries : String → List (ℕ × α)}
    (stored : ∀ account ∈ accounts, (files account).Represents (entries account)) :
    KeepsLogs accounts entries (openAll accounts files) := by
  intro account member
  rw [getD_openAll files member]
  exact stored account member

theorem leftAll_committed {α : Type} {loaders : Loaders} (twoPhase : loaders.TwoPhase)
    {accounts : List String} (files : String → IndexedLog α) (logs : IndexedLogs α)
    {account : String} (member : account ∈ accounts) :
    leftAll loaders [.save, .commit] [.save, .commit] accounts files logs account =
      logs[account]?.getD default := by
  rw [leftAll, if_pos member]
  dsimp only
  rw [twoPhase.committed, twoPhase.committed]

theorem leftAll_saved {α : Type} {loaders : Loaders} (twoPhase : loaders.TwoPhase)
    {accounts : List String} (files : String → IndexedLog α) (logs : IndexedLogs α)
    {account : String} (member : account ∈ accounts) :
    leftAll loaders [.save, .save] [.save, .commit] accounts files logs account =
      ⟨(files account).log, (logs[account]?.getD default).index⟩ := by
  rw [leftAll, if_pos member]
  dsimp only
  rw [twoPhase.saved, twoPhase.committed]

end LogFiles

/-- What is left of the rewards of an account is right where the list of them is old. -/
theorem represents_saved_iff {α : Type} {loaders : Loaders} (twoPhase : loaders.TwoPhase)
    {accounts : List String} {files : String → IndexedLog α} {logs : IndexedLogs α}
    {entries : String → List (ℕ × α)} (keeps : KeepsLogs accounts entries logs) {account : String}
    (member : account ∈ accounts) :
    (LogFiles.leftAll loaders [.save, .save] [.save, .commit] accounts files logs
        account).Represents (entries account) ↔
      (files account).log = (entries account).map Prod.snd := by
  rw [LogFiles.leftAll_saved twoPhase files logs member]
  exact ⟨fun represents => represents.1, fun same => ⟨same, (keeps account member).2⟩⟩

/-- What happens to the logs that the explorer keeps: a `sync`, or `import_account_if_needed` for
an account, where a context of its own reads the log from the beginning while the other one goes
on to the same place. `others` says that nothing else in it throws: the stores of the balances,
the storages and the channels. -/
inductive SyncEvent where
  | sync (actions : List LoggedTransaction) (others : Bool)
  | importAccount (account : String) (newActions actions : List LoggedTransaction) (others : Bool)

/-- The explorer: its accounts, its files, and what stood in the log where it left off. -/
structure AccountRun where
  accounts : List String
  files : LogFiles
  standing : List LogPacket

namespace AccountRun

def start : AccountRun := ⟨[], ⟨0, 0, fun _ => default, fun _ => default⟩, []⟩

/-- What is left in the files where everything was read. -/
def step (loaders : Loaders) (s : AccountRun) : SyncEvent → AccountRun
  | .sync actions others =>
      match followAll s.standing actions,
          runAll SyncContext.processAction actions (s.files.openContext s.accounts), others with
      | some standing, .ok c, true => { s with files := s.files.commit loaders c, standing }
      | _, _, _ => s
  | .importAccount account newActions actions others =>
      if account ∈ s.accounts ∨ followAll [] newActions ≠ followAll s.standing actions then s
      else
        match followAll s.standing actions,
            runAll SyncContext.processAction newActions (s.files.openImport account),
            runAll SyncContext.processAction actions (s.files.openContext s.accounts), others with
        | some standing, .ok new, .ok c, true =>
            ⟨account :: s.accounts, (s.files.commitLogs loaders new).commit loaders c, standing⟩
        | _, _, _, _ => s

/-- The files tell of an account what stands. -/
structure Stored (s : AccountRun) (account : String) : Prop where
  transactions :
    (s.files.transactions account).Represents (entriesOf transactionEntries s.standing account)
  rewards : (s.files.rewards account).Represents (entriesOf rewardEntries s.standing account)

/-- A context that reads some entries throws at a transaction that cannot be read and nowhere
else, and has the logs of what stands then. -/
def LogsWell (actions : List LoggedTransaction) (after : List LogPacket) (c : SyncContext) :
    Prop :=
  (∃ e, runAll SyncContext.processAction actions c = .error e ∧
      ∃ info ∈ actions, ∃ log, SyncContext.Tells info.action log ∧ Unread log e) ∨
    ∃ c', runAll SyncContext.processAction actions c = .ok c' ∧
      KeepsLogs c.setAccounts (entriesOf transactionEntries after) c'.transactions ∧
      KeepsLogs c.setAccounts (entriesOf rewardEntries after) c'.rewards

/-- What the explorer promises of an event: the logs and the indices of its contexts are those of
what stands, and so are the files that are opened next. -/
def Keeps (loaders : Loaders) (s : AccountRun) (event : SyncEvent) : Prop :=
  (match event with
    | .sync actions _ => ∀ after, followAll s.standing actions = some after →
        LogsWell actions after (s.files.openContext s.accounts)
    | .importAccount account newActions actions _ => ∀ after, account ∉ s.accounts →
        followAll [] newActions = some after → followAll s.standing actions = some after →
          LogsWell newActions after (s.files.openImport account) ∧
            LogsWell actions after (s.files.openContext s.accounts)) ∧
    ∀ account ∈ (s.step loaders event).accounts, (s.step loaders event).Stored account

def rewardsOf (standing : List LogPacket) (account : String) : List Reward :=
  (entriesOf rewardEntries standing account).map Prod.snd

def Readable (actions : List LoggedTransaction) : Prop :=
  ∀ info ∈ actions, ∀ log, SyncContext.Tells info.action log → ∀ e, ¬ Unread log e

/-- Where everything is read, the rewards of every account are those that stood before; of a new
account, none. -/
def Fit (s : AccountRun) : SyncEvent → Prop
  | .sync actions others => ∀ after, followAll s.standing actions = some after →
      Readable actions → others = true → ∀ account ∈ s.accounts,
        rewardsOf after account = rewardsOf s.standing account
  | .importAccount new newActions actions others => ∀ after, new ∉ s.accounts →
      followAll [] newActions = some after → followAll s.standing actions = some after →
        Readable newActions → Readable actions → others = true →
          rewardsOf after new = [] ∧ ∀ account ∈ s.accounts,
            rewardsOf after account = rewardsOf s.standing account

def Always (loaders : Loaders) (P : AccountRun → SyncEvent → Prop) (s : AccountRun) :
    List SyncEvent → Prop
  | [] => True
  | event :: rest => P s event ∧ Always loaders P (s.step loaders event) rest

/-- The files fit to what stands, and a new account has none. -/
structure Sound (s : AccountRun) : Prop where
  begins : s.standing = [] → s.files.startIndex = 0 ∧ s.files.headBlockIndex = 0
  goes : s.standing ≠ [] →
    s.files.startIndex ≠ 0 ∧ blockCount s.standing = s.files.headBlockIndex + 1
  genesis : ∀ packet, s.standing.head? = some packet → ∃ log, packet = .block log
  stored : ∀ account ∈ s.accounts, s.Stored account
  fresh : ∀ account ∉ s.accounts,
    s.files.transactions account = default ∧ s.files.rewards account = default

variable {loaders : Loaders} {s : AccountRun} {actions newActions : List LoggedTransaction}
  {account : String} {after : List LogPacket}

theorem sound_start : start.Sound where
  begins _ := ⟨rfl, rfl⟩
  goes none := absurd rfl none
  genesis _ none := nomatch none
  stored _ none := absurd none List.not_mem_nil
  fresh _ _ := ⟨rfl, rfl⟩

theorem Sound.follows_open (h : s.Sound) :
    (s.files.openContext s.accounts).Follows s.standing where
  begins := h.begins
  goes := h.goes
  genesis := h.genesis
  transactions :=
    LogFiles.keepsLogs_openAll fun account member => (h.stored account member).transactions
  rewards := LogFiles.keepsLogs_openAll fun account member => (h.stored account member).rewards

theorem Sound.follows_import (h : s.Sound) (new : account ∉ s.accounts) :
    (s.files.openImport account).Follows [] where
  begins _ := ⟨rfl, rfl⟩
  goes none := absurd rfl none
  genesis _ none := nomatch none
  transactions := LogFiles.keepsLogs_openAll fun other member => by
    rw [List.mem_singleton.mp member]
    change (s.files.transactions account).Represents _
    rw [(h.fresh account new).1]
    exact IndexedLog.represents_default
  rewards := LogFiles.keepsLogs_openAll fun other member => by
    rw [List.mem_singleton.mp member]
    change (s.files.rewards account).Represents _
    rw [(h.fresh account new).2]
    exact IndexedLog.represents_default

theorem logsWell_of_follows {c : SyncContext} {standing : List LogPacket}
    (follows : c.Follows standing) (logged : followAll standing actions = some after) :
    LogsWell actions after c := by
  rcases follows.run logged with failing | ⟨_, c', run, follows, same⟩
  · exact .inl failing
  · refine .inr ⟨c', run, ?_, ?_⟩
    · rw [← same]
      exact follows.transactions
    · rw [← same]
      exact follows.rewards

theorem not_readable_of_error {e : Failure} (failing : ∃ info ∈ actions, ∃ log,
    SyncContext.Tells info.action log ∧ Unread log e) : ¬ Readable actions := by
  obtain ⟨info, member, log, tells, unread⟩ := failing
  intro readable
  exact readable info member log tells e unread

theorem Stored.log_eq (stored : s.Stored account) :
    (s.files.rewards account).log = rewardsOf s.standing account :=
  stored.rewards.1

/-- A `sync` that is not committed leaves everything. -/
theorem step_sync_idle (others : Bool)
    (idle : ∀ after c, followAll s.standing actions = some after →
    runAll SyncContext.processAction actions (s.files.openContext s.accounts) = .ok c →
      others = false) : s.step loaders (.sync actions others) = s := by
  unfold step
  dsimp only
  split
  · next standing c logged run =>
      exact absurd (idle standing c logged run) (by simp)
  · rfl

/-- What `commit` leaves is sound if the list of the rewards was right before. -/
theorem sound_commit (twoPhase : loaders.TwoPhase) {accounts : List String} {files : LogFiles}
    {c : SyncContext} (follows : c.Follows after) (known : ∀ a ∈ c.setAccounts, a ∈ accounts)
    (rewards : ∀ a ∈ c.setAccounts, (files.rewards a).log = rewardsOf after a)
    (others : ∀ a ∈ accounts, a ∉ c.setAccounts → Stored ⟨accounts, files, after⟩ a)
    (fresh : ∀ a ∉ accounts, files.transactions a = default ∧ files.rewards a = default) :
    Sound ⟨accounts, files.commit loaders c, after⟩ where
  begins none := by
    change loaders.left _ _ c.startIndex = 0 ∧ loaders.left _ _ c.headBlockIndex = 0
    rw [twoPhase.committed, twoPhase.committed]
    exact follows.begins none
  goes some := by
    change loaders.left _ _ c.startIndex ≠ 0 ∧ _ = loaders.left _ _ c.headBlockIndex + 1
    rw [twoPhase.committed, twoPhase.committed]
    exact follows.goes some
  genesis := follows.genesis
  stored a member := by
    by_cases tracked : a ∈ c.setAccounts
    · refine ⟨?_, (represents_saved_iff twoPhase follows.rewards tracked).mpr (rewards a tracked)⟩
      change (LogFiles.leftAll loaders _ _ c.setAccounts _ _ a).Represents _
      rw [LogFiles.leftAll_committed twoPhase _ _ tracked]
      exact follows.transactions a tracked
    · obtain ⟨hasTransactions, hasRewards⟩ := others a member tracked
      refine ⟨?_, ?_⟩
      · change (LogFiles.leftAll loaders _ _ c.setAccounts files.transactions _ a).Represents _
        rw [LogFiles.leftAll, if_neg tracked]
        exact hasTransactions
      · change (LogFiles.leftAll loaders _ _ c.setAccounts files.rewards _ a).Represents _
        rw [LogFiles.leftAll, if_neg tracked]
        exact hasRewards
  fresh a new := by
    have untracked : a ∉ c.setAccounts := fun tracked => new (known a tracked)
    obtain ⟨noTransactions, noRewards⟩ := fresh a new
    exact ⟨(if_neg untracked).trans noTransactions, (if_neg untracked).trans noRewards⟩

/-- The list of the rewards that `commit` leaves is the one from before. -/
theorem log_of_stored_commit (twoPhase : loaders.TwoPhase) {accounts : List String}
    {files : LogFiles} {c : SyncContext} (tracked : account ∈ c.setAccounts)
    (stored : Stored ⟨accounts, files.commit loaders c, after⟩ account) :
    rewardsOf after account = (files.rewards account).log := by
  have log := stored.log_eq
  change (LogFiles.leftAll loaders _ _ c.setAccounts files.rewards _ account).log = _ at log
  rw [LogFiles.leftAll_saved twoPhase _ _ tracked] at log
  exact log.symm

/-- A `sync` keeps its promises exactly when it is fit, and is sound then. -/
theorem sync_keeps_iff (twoPhase : loaders.TwoPhase) (h : s.Sound)
    (actions : List LoggedTransaction) (others : Bool) :
    (Keeps loaders s (.sync actions others) ↔ Fit s (.sync actions others)) ∧
      (Fit s (.sync actions others) → (s.step loaders (.sync actions others)).Sound) := by
  have well : ∀ after, followAll s.standing actions = some after →
      LogsWell actions after (s.files.openContext s.accounts) :=
    fun after logged => logsWell_of_follows h.follows_open logged
  have idles : s.step loaders (.sync actions others) = s →
      Fit s (.sync actions others) →
        (Keeps loaders s (.sync actions others) ↔ Fit s (.sync actions others)) ∧
          (Fit s (.sync actions others) → (s.step loaders (.sync actions others)).Sound) := by
    intro idle fit
    refine ⟨iff_of_true ⟨well, ?_⟩ fit, fun _ => ?_⟩
    · rw [idle]
      exact h.stored
    · rw [idle]
      exact h
  cases logged : followAll s.standing actions with
  | none =>
      refine idles (step_sync_idle others fun after c some => ?_) fun after some => ?_
      · rw [logged] at some
        cases some
      · rw [logged] at some
        cases some
  | some after =>
      rcases h.follows_open.run logged with
        ⟨e, run, failing⟩ | ⟨readable, c, run, follows, same⟩
      · refine idles (step_sync_idle others fun after c _ ok => ?_) fun after _ readable => ?_
        · rw [run] at ok
          cases ok
        · exact absurd readable (not_readable_of_error failing)
      replace same : c.setAccounts = s.accounts := same
      cases others with
      | false =>
          refine idles (step_sync_idle false fun _ _ _ _ => rfl) ?_
          intro _ _ _ no
          cases no
      | true =>
          have done : s.step loaders (.sync actions true) =
              ⟨s.accounts, s.files.commit loaders c, after⟩ := by
            unfold step
            simp only [logged, run]
          have sound : Fit s (.sync actions true) →
              Sound ⟨s.accounts, s.files.commit loaders c, after⟩ := by
            intro fit
            apply sound_commit twoPhase follows (fun a tracked => same ▸ tracked)
            · intro a tracked
              have member : a ∈ s.accounts := same ▸ tracked
              rw [(h.stored a member).log_eq]
              exact (fit after logged readable rfl a member).symm
            · intro a member untracked
              exact absurd (same ▸ member) untracked
            · exact h.fresh
          refine ⟨⟨?_, ?_⟩, fun fit => done ▸ sound fit⟩
          · rintro ⟨_, stored⟩ after' logged' _ _ account member
            cases logged.symm.trans logged'
            rw [done] at stored
            rw [log_of_stored_commit twoPhase (same ▸ member) (stored account member)]
            exact (h.stored account member).log_eq
          · intro fit
            refine ⟨well, ?_⟩
            rw [done]
            exact (sound fit).stored

theorem step_import_idle (others : Bool) (idle : ∀ after new c, account ∉ s.accounts →
    followAll [] newActions = some after → followAll s.standing actions = some after →
    runAll SyncContext.processAction newActions (s.files.openImport account) = .ok new →
    runAll SyncContext.processAction actions (s.files.openContext s.accounts) = .ok c →
      others = false) : s.step loaders (.importAccount account newActions actions others) = s := by
  unfold step
  dsimp only
  split_ifs with stops
  · rfl
  obtain ⟨new, same⟩ := not_or.mp stops
  split
  · next standing created c logged run runs =>
      have logs := (not_not.mp same).trans logged
      exact absurd (idle standing created c new logs logged run runs) (by simp)
  · rfl

theorem step_import_done (loaders : Loaders) {created c : SyncContext} (new : account ∉ s.accounts)
    (logs : followAll [] newActions = some after)
    (logged : followAll s.standing actions = some after)
    (run : runAll SyncContext.processAction newActions (s.files.openImport account) = .ok created)
    (runs : runAll SyncContext.processAction actions (s.files.openContext s.accounts) = .ok c) :
    s.step loaders (.importAccount account newActions actions true) =
      ⟨account :: s.accounts, (s.files.commitLogs loaders created).commit loaders c, after⟩ := by
  unfold step
  dsimp only
  rw [if_neg (not_or.mpr ⟨new, not_not.mpr (logs.trans logged.symm)⟩)]
  simp only [logged, run, runs]

theorem commitLogs_rewards_other {created : SyncContext} (same : created.setAccounts = [account])
    {other : String} (differ : other ≠ account) :
    (s.files.commitLogs loaders created).rewards other = s.files.rewards other := by
  refine if_neg ?_
  rw [same]
  simpa using differ

/-- An import keeps its promises exactly when it is fit, and is sound then. -/
theorem import_keeps_iff (twoPhase : loaders.TwoPhase) (h : s.Sound) (account : String)
    (newActions actions : List LoggedTransaction) (others : Bool) :
    (Keeps loaders s (.importAccount account newActions actions others) ↔
        Fit s (.importAccount account newActions actions others)) ∧
      (Fit s (.importAccount account newActions actions others) →
        (s.step loaders (.importAccount account newActions actions others)).Sound) := by
  have well : ∀ after, account ∉ s.accounts → followAll [] newActions = some after →
      followAll s.standing actions = some after →
        LogsWell newActions after (s.files.openImport account) ∧
          LogsWell actions after (s.files.openContext s.accounts) :=
    fun after new logs logged => ⟨logsWell_of_follows (h.follows_import new) logs,
      logsWell_of_follows h.follows_open logged⟩
  have idles : s.step loaders (.importAccount account newActions actions others) = s →
      Fit s (.importAccount account newActions actions others) →
        (Keeps loaders s (.importAccount account newActions actions others) ↔
          Fit s (.importAccount account newActions actions others)) ∧
        (Fit s (.importAccount account newActions actions others) →
          (s.step loaders (.importAccount account newActions actions others)).Sound) := by
    intro idle fit
    refine ⟨iff_of_true ⟨well, ?_⟩ fit, fun _ => ?_⟩
    · rw [idle]
      exact h.stored
    · rw [idle]
      exact h
  by_cases logging : account ∉ s.accounts ∧ ∃ after, followAll [] newActions = some after ∧
      followAll s.standing actions = some after
  swap
  · refine idles (step_import_idle others fun after _ _ new logs logged _ _ => ?_)
      fun after new logs logged => ?_
    · exact absurd ⟨new, after, logs, logged⟩ logging
    · exact absurd ⟨new, after, logs, logged⟩ logging
  obtain ⟨new, after, logs, logged⟩ := logging
  rcases (h.follows_import new).run logs with
    ⟨e, run, failing⟩ | ⟨readableNew, created, run, followsNew, sameNew⟩
  · refine idles (step_import_idle others fun _ _ _ _ _ _ ok _ => ?_)
      fun _ _ _ _ readable => ?_
    · rw [run] at ok
      cases ok
    · exact absurd readable (not_readable_of_error failing)
  rcases h.follows_open.run logged with
    ⟨e, runs, failing⟩ | ⟨readable, c, runs, follows, same⟩
  · refine idles (step_import_idle others fun _ _ _ _ _ _ _ ok => ?_)
      fun _ _ _ _ _ readable => ?_
    · rw [runs] at ok
      cases ok
    · exact absurd readable (not_readable_of_error failing)
  replace same : c.setAccounts = s.accounts := same
  cases others with
  | false =>
      refine idles (step_import_idle false fun _ _ _ _ _ _ _ _ => rfl) ?_
      intro _ _ _ _ _ _ no
      cases no
  | true =>
      have done := step_import_done loaders new logs logged run runs
      have mine : account ∈ created.setAccounts := sameNew ▸ List.mem_singleton_self account
      have untracked : account ∉ c.setAccounts := same ▸ new
      have differ : ∀ a ∈ s.accounts, a ≠ account := fun a member eq => new (eq ▸ member)
      have sound : Fit s (.importAccount account newActions actions true) →
          Sound ⟨account :: s.accounts,
            (s.files.commitLogs loaders created).commit loaders c, after⟩ := by
        intro fit
        obtain ⟨none, fits⟩ := fit after new logs logged readableNew readable rfl
        apply sound_commit twoPhase follows
          (fun a tracked => List.mem_cons_of_mem account (same ▸ tracked))
        · intro a tracked
          have member : a ∈ s.accounts := same ▸ tracked
          rw [commitLogs_rewards_other sameNew (differ a member), (h.stored a member).log_eq]
          exact (fits a member).symm
        · intro a member free
          rcases List.mem_cons.mp member with rfl | member
          · refine ⟨?_, (represents_saved_iff twoPhase followsNew.rewards mine).mpr ?_⟩
            · change (LogFiles.leftAll loaders _ _ created.setAccounts _ _ a).Represents _
              rw [LogFiles.leftAll_committed twoPhase _ _ mine]
              exact followsNew.transactions a mine
            · rw [(h.fresh a new).2]
              exact none.symm
          · exact absurd (same ▸ member) free
        · intro a unknown
          have others : a ∉ created.setAccounts := by
            rw [sameNew]
            exact fun member => unknown (List.mem_cons.mpr (.inl (List.mem_singleton.mp member)))
          obtain ⟨noTransactions, noRewards⟩ :=
            h.fresh a fun member => unknown (List.mem_cons_of_mem account member)
          exact ⟨(if_neg others).trans noTransactions, (if_neg others).trans noRewards⟩
      refine ⟨⟨?_, ?_⟩, fun fit => done ▸ sound fit⟩
      · rintro ⟨_, stored⟩ after' _ logs' _ _ _ _
        cases logs.symm.trans logs'
        rw [done] at stored
        constructor
        · have log := (stored account List.mem_cons_self).log_eq
          change (LogFiles.leftAll loaders _ _ c.setAccounts _ _ account).log = _ at log
          rw [LogFiles.leftAll, if_neg untracked] at log
          change (LogFiles.leftAll loaders _ _ created.setAccounts _ _ account).log = _ at log
          rw [LogFiles.leftAll_saved twoPhase _ _ mine, (h.fresh account new).2] at log
          exact log.symm
        · intro a member
          rw [log_of_stored_commit twoPhase (same ▸ member)
            (stored a (List.mem_cons_of_mem account member)),
            commitLogs_rewards_other sameNew (differ a member)]
          exact (h.stored a member).log_eq
      · intro fit
        refine ⟨well, ?_⟩
        rw [done]
        exact (sound fit).stored

/-- The logs and the indices are right in a run, in the contexts and in the files, exactly when
no event that is committed changes the rewards that stand for an account. -/
theorem keeps_logs_iff_fit (twoPhase : loaders.TwoPhase) (events : List SyncEvent) :
    Always loaders (Keeps loaders) start events ↔ Always loaders Fit start events := by
  have from_sound : ∀ s : AccountRun, s.Sound →
      (Always loaders (Keeps loaders) s events ↔ Always loaders Fit s events) := by
    induction events with
    | nil => exact fun _ _ => Iff.rfl
    | cons event rest ih =>
        intro s h
        have one : (Keeps loaders s event ↔ Fit s event) ∧
            (Fit s event → (s.step loaders event).Sound) := by
          cases event with
          | sync actions others => exact sync_keeps_iff twoPhase h actions others
          | importAccount account newActions actions others =>
              exact import_keeps_iff twoPhase h account newActions actions others
        obtain ⟨keeps, sound⟩ := one
        constructor
        · rintro ⟨first, later⟩
          have fit := keeps.mp first
          exact ⟨fit, (ih _ (sound fit)).mp later⟩
        · rintro ⟨fit, later⟩
          exact ⟨keeps.mpr fit, (ih _ (sound fit)).mpr later⟩
  exact from_sound start sound_start

section Examples

/-- A loader that keeps a saved value aside until it is committed. -/
structure Loader (α : Type) where
  value : α
  saved : Option α
  file : α

def Loader.call {α : Type} (loader : Loader α) : LoaderCall → Loader α
  | .save => { loader with saved := some loader.value }
  | .commit => { loader with file := loader.saved.getD loader.file, saved := none }

def plainLoaders : Loaders where
  left calls file value := (calls.foldl Loader.call ⟨value, none, file⟩).file

theorem plainLoaders_twoPhase : plainLoaders.TwoPhase where
  committed _ _ := rfl
  saved _ _ := rfl

def genesisRead (rewards : List Reward) : LoggedTransaction :=
  ⟨false, 0, .block ⟨"miner", "hash", 0, 0, 0, rewards, [], [], []⟩⟩

/-- An account is imported, and a transfer of it comes later. -/
theorem unrewarded_import_kept : Always plainLoaders (Keeps plainLoaders) start
    [.importAccount "account" [genesisRead []] [genesisRead []] true,
      .sync [⟨false, 1, .transaction ⟨0, .transfer ⟨"account", "other", ⟨1, 0⟩, ""⟩, "hash",
        0, 0⟩⟩] true] := by
  apply (keeps_logs_iff_fit plainLoaders_twoPhase _).mpr
  refine ⟨?_, ?_, trivial⟩
  · intro after _ logs _ _ _ _
    cases logs
    exact ⟨rfl, fun _ none => absurd none List.not_mem_nil⟩
  · intro after logged _ _ account member
    cases logged
    cases List.mem_singleton.mp member
    rfl

/-- The reward of an account that is imported does not reach its file. -/
theorem rewarded_import_not_kept : ¬ Always plainLoaders (Keeps plainLoaders) start
    [.importAccount "account" [genesisRead [⟨"account", ⟨1, 0⟩, .initial⟩]]
      [genesisRead [⟨"account", ⟨1, 0⟩, .initial⟩]] true] := by
  rintro ⟨kept, _⟩
  have fit := (import_keeps_iff plainLoaders_twoPhase sound_start _ _ _ _).1.mp kept
  have readable : Readable [genesisRead [⟨"account", ⟨1, 0⟩, .initial⟩]] := by
    intro info member log tells
    cases List.mem_singleton.mp member
    exact absurd tells List.not_mem_nil
  have none := (fit _ List.not_mem_nil rfl rfl readable readable rfl).1
  exact absurd none (by decide)

end Examples

end AccountRun

end Publiq
