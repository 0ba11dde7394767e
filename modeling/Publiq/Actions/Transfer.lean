import Publiq.Ledger

/-! `transaction_transfer.cpp`. -/
namespace Publiq.Message.Transfer
open Checked

/-- `action_owners(Transfer)`. -/
def actionOwners (transfer : Transfer) : List String := [transfer.source]

/-- `action_participants(Transfer)`. -/
def actionParticipants (transfer : Transfer) : List String := [transfer.source, transfer.target]

/-- `action_validate(Transfer)`. -/
def actionValidate [Externals] (signedTransaction : SignedTransaction) (transfer : Transfer) :
    Checked Unit := do
  require (¬ (transfer.source = transfer.target ∨ transfer.amount = 0))
    (.wrongData "dummy transfer")
  require (signedTransaction.authorizations.length = 1) signedTransaction.backAuthority
  Externals.publicKey transfer.target
  Externals.publicKey transfer.source
  require (transfer.message.utf8ByteSize ≤ 80) (.tooLongString transfer.message 80)

/-- `action_can_apply(Transfer)`. -/
def actionCanApply (signedTransaction : SignedTransaction) (transfer : Transfer) (l : Ledger) :
    Checked Bool := do
  let permitted ← l.authorityManager.checkAuthority transfer.source signedTransaction.signer rtt
  if permitted = false then pure false
  else do
    let below ← l.balanceBelow transfer.source transfer.amount
    pure (!below)

/-- `action_apply(Transfer)`. -/
def actionApply (ctx : Context) (signedTransaction : SignedTransaction) (transfer : Transfer)
    (layer : StateLayer) (l : Ledger) : Checked Ledger := do
  l.requireAuthority transfer.source signedTransaction.signer rtt
    (.authority signedTransaction.signer transfer.source)
  let l ← l.increase ctx transfer.target transfer.amount layer
  l.decrease ctx transfer.source transfer.amount layer

/-- `action_revert(Transfer)`. -/
def actionRevert (ctx : Context) (signedTransaction : SignedTransaction) (transfer : Transfer)
    (layer : StateLayer) (l : Ledger) : Checked Ledger := do
  let l ← l.increase ctx transfer.source transfer.amount layer
  let l ← l.decrease ctx transfer.target transfer.amount layer
  l.requireAuthority transfer.source signedTransaction.signer rtt (.logicError
    "false == impl.m_authority_manager.check_authority(transfer.from, signed_authority, Transfer::rtt)")
  pure l

end Publiq.Message.Transfer
