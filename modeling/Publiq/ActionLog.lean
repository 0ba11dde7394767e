import Publiq.Rewards

/-! `action_log.cpp`: a log that is only appended to. Taking a logged action back
appends it once more, marked as reverted. -/
namespace Publiq
open Message Checked

/-- `BlockchainMessage::TransactionLog`. -/
structure TransactionLog where
  fee : Message.Coin
  action : Action
  transactionHash : String
  transactionSize : ℕ
  timeSigned : ℤ
  deriving DecidableEq

/-- `BlockchainMessage::BlockLog`. -/
structure BlockLog where
  authority : String
  blockHash : String
  blockNumber : UInt64
  blockSize : ℕ
  timeSigned : ℤ
  rewards : List Reward
  transactions : List TransactionLog
  unitUriImpacts : List (String × List (String × UInt64))
  appliedSponsorItems : List (String × Message.Coin)
  deriving DecidableEq

/-- What `LoggedTransaction.action` may hold. -/
inductive LogPacket where
  | block (log : BlockLog)
  | transaction (log : TransactionLog)
  deriving DecidableEq

/-- `BlockchainMessage::LoggedTransaction`, `reverted` being its `logging_type`. -/
structure LoggedTransaction where
  reverted : Bool
  index : ℕ
  action : LogPacket
  deriving DecidableEq

/-- `action_log`. -/
structure ActionLog where
  actions : List LoggedTransaction
  enabled : Bool
  revertIndex : ℕ
  deriving DecidableEq

namespace ActionLog

/-- `number - 1` as a 64-bit word. -/
def before (number : ℕ) : ℕ := if number = 0 then 2 ^ 64 - 1 else number - 1

/-- The log as it is loaded, and as `discard` leaves it. -/
def loaded (actions : List LoggedTransaction) (enabled : Bool) : ActionLog :=
  ⟨actions, enabled, before actions.length⟩

/-- `action_log::insert`. -/
def insert (log : ActionLog) (action : LogPacket) : ActionLog :=
  let index := log.actions.length
  { log with actions := log.actions ++ [⟨false, index, action⟩], revertIndex := index }

section
variable [Externals]

def transactionLogOf (signedTransaction : SignedTransaction) : TransactionLog :=
  let details := signedTransaction.transactionDetails
  { fee := details.fee
    action := details.action
    transactionHash := transactionHash signedTransaction
    transactionSize := (Externals.signedTransactionToString signedTransaction).utf8ByteSize
    timeSigned := details.creation }

/-- `action_log::log_transaction`. -/
def logTransaction (signedTransaction : SignedTransaction) (log : ActionLog) : ActionLog :=
  if log.enabled = false then log
  else log.insert (.transaction (transactionLogOf signedTransaction))

/-- `action_log::log_block`. -/
def logBlock (signedBlock : SignedBlock) (unitUriViewCounts : UnitViews)
    (appliedSponsorItems : List SponsorPayment) (log : ActionLog) : Checked ActionLog :=
  if log.enabled = false then pure log
  else do
    let block := signedBlock.blockDetails
    let authority ← getMiner signedBlock
    pure (log.insert (.block {
      authority
      blockHash := blockHash block
      blockNumber := block.header.blockNumber
      blockSize := (Externals.blockToString block).utf8ByteSize
      timeSigned := block.header.timeSigned
      rewards := block.rewards
      transactions := block.signedTransactions.map transactionLogOf
      unitUriImpacts := unitUriViewCounts.toList.map fun (uri, views) => (uri, views.toList)
      appliedSponsorItems := appliedSponsorItems.map fun payment =>
        (payment.transactionHash, payment.amount.toMessage) }))

end

/-- `action_log::at`. -/
def entryAt (log : ActionLog) (number : ℕ) : Checked LoggedTransaction :=
  match log.actions[number]? with
  | some action => .ok action
  | none => .error (.outOfRange "action_log::at")

/-- The search of `revert`: downwards from an index, skipping every action that was
taken back already. `mark` counts the reverts that still lack their action. -/
def lastStanding (log : ActionLog) (mark : ℕ) : (index : ℕ) → Checked ℕ
  | 0 => do
      let info ← log.entryAt 0
      require (info.reverted = false ∧ mark = 0) (.runtimeError "Nothing to revert!")
      pure 0
  | index + 1 => do
      let info ← log.entryAt (index + 1)
      if info.reverted then log.lastStanding (mark + 1) index
      else
        match mark with
        | 0 => pure (index + 1)
        | mark + 1 => log.lastStanding mark index

/-- `action_log::revert`. -/
def revert (log : ActionLog) : Checked ActionLog :=
  if log.enabled = false then pure log
  else do
    let _first ← log.entryAt log.revertIndex
    let index ← log.lastStanding 0 log.revertIndex
    let info ← log.entryAt index
    pure { log with
      actions := log.actions ++ [{ info with reverted := true }]
      revertIndex := before index }

end ActionLog
end Publiq
