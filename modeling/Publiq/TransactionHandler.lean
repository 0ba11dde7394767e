import Publiq.Actions.Authorization
import Publiq.Actions.Publishing
import Publiq.Actions.Service
import Publiq.Actions.Sponsor
import Publiq.Actions.Transfer

/-! `transaction_handler.cpp` and `apply_transaction`, `revert_transaction` of
`communication_p2p.cpp`: what every action goes through, whatever its type. -/
namespace Publiq
open Message Checked

def unknownAction : Failure := .wrongData "unknown transaction action type!"

/-- A chain of transfers only refuses the other actions, except for the updates of
authorities. -/
def requireTransferOnly (config : Config) (action : Action) : Checked Unit :=
  require (¬ (config.transferOnly = true ∧ action.rtt ≠ Transfer.rtt ∧
      action.rtt ≠ AuthorizationUpdate.rtt))
    (.runtimeError "this is coin only blockchain")

/-- `signed_transaction_validate`. -/
def signedTransactionValidate [Externals] (signedTransaction : SignedTransaction) (now : ℤ)
    (timeShift : ℕ) : Checked Unit := do
  let details := signedTransaction.transactionDetails
  require (signedTransaction.authorizations ≠ [])
    (.wrongData "transaction with no authorizations")
  validateSignatures (Externals.transactionToString details) [] signedTransaction.authorizations
  require (details.creation ≤ now + timeShift) (.wrongData "Transaction from the future!")
  require (now - timeShift ≤ details.expiry) (.wrongData "Expired transaction!")
  require (details.expiry - details.creation ≤ transactionMaxLifetimeHours * 3600)
    (.wrongData "Too long lifetime for transaction")
where
  /-- Every signature verifies and is given once. -/
  validateSignatures (message : String) :
      (seen : List Authority) → List Authority → Checked Unit
    | _, [] => pure ()
    | seen, authority :: rest => do
        require (authority ∉ seen) (.wrongData "duplicate signature")
        Externals.publicKey authority.address
        Externals.signature authority.address message authority.signature
        validateSignatures message (authority :: seen) rest

/-- `action_owners`. -/
def actionOwners : Action → Checked (List String)
  | .transfer a => pure a.actionOwners
  | .authorizationUpdate a => pure a.actionOwners
  | .file a => pure a.actionOwners
  | .contentUnit a => pure a.actionOwners
  | .content a => pure a.actionOwners
  | .role a => pure a.actionOwners
  | .storageUpdate a => pure a.actionOwners
  | .serviceStatistics a => pure a.actionOwners
  | .sponsorContentUnit a => pure a.actionOwners
  | .cancelSponsorContentUnit a => pure a.actionOwners
  | .unknown _ => .error unknownAction

/-- `action_participants`. -/
def actionParticipants : Action → Checked (List String)
  | .transfer a => pure a.actionParticipants
  | .authorizationUpdate a => pure a.actionParticipants
  | .file a => pure a.actionParticipants
  | .contentUnit a => pure a.actionParticipants
  | .content a => pure a.actionParticipants
  | .role a => pure a.actionParticipants
  | .storageUpdate a => pure a.actionParticipants
  | .serviceStatistics a => pure a.actionParticipants
  | .sponsorContentUnit a => pure a.actionParticipants
  | .cancelSponsorContentUnit a => pure a.actionParticipants
  | .unknown _ => .error unknownAction

/-- `action_validate`. -/
def actionValidate [Externals] (config : Config) (signedTransaction : SignedTransaction)
    (checkComplete : Bool) : Checked Unit := do
  let action := signedTransaction.transactionDetails.action
  requireTransferOnly config action
  match action with
  | .transfer a => a.actionValidate signedTransaction
  | .authorizationUpdate a => a.actionValidate signedTransaction
  | .file a => a.actionValidate signedTransaction checkComplete
  | .contentUnit a => a.actionValidate signedTransaction checkComplete
  | .content a => a.actionValidate signedTransaction
  | .role a => a.actionValidate signedTransaction
  | .storageUpdate a => a.actionValidate signedTransaction
  | .serviceStatistics a => a.actionValidate signedTransaction
  | .sponsorContentUnit a => a.actionValidate signedTransaction
  | .cancelSponsorContentUnit a => a.actionValidate signedTransaction
  | .unknown _ => .error unknownAction

/-- `action_is_complete`. Unlike its siblings it refuses the updates of authorities on
a chain of transfers only. -/
def actionIsComplete (config : Config) (signedTransaction : SignedTransaction) :
    Checked Bool := do
  let action := signedTransaction.transactionDetails.action
  require (¬ (config.transferOnly = true ∧ action.rtt ≠ Transfer.rtt))
    (.runtimeError "this is coin only blockchain")
  match action with
  | .file a => pure (a.actionIsComplete signedTransaction)
  | .contentUnit a => pure (a.actionIsComplete signedTransaction)
  | .unknown _ => .error unknownAction
  | _ => pure true

variable [Documents.EntrySort]

/-- `action_can_apply`. -/
def actionCanApply (ctx : Context) (signedTransaction : SignedTransaction) (layer : StateLayer)
    (l : Ledger) : Checked Bool := do
  let action := signedTransaction.transactionDetails.action
  requireTransferOnly ctx.config action
  match action with
  | .transfer a => a.actionCanApply signedTransaction l
  | .authorizationUpdate a => a.actionCanApply signedTransaction l
  | .file a => a.actionCanApply signedTransaction l
  | .contentUnit a => a.actionCanApply ctx signedTransaction l
  | .content a => a.actionCanApply signedTransaction l
  | .role a => a.actionCanApply ctx signedTransaction l
  | .storageUpdate a => a.actionCanApply signedTransaction l
  | .serviceStatistics a => a.actionCanApply ctx signedTransaction layer l
  | .sponsorContentUnit a => a.actionCanApply signedTransaction l
  | .cancelSponsorContentUnit a => a.actionCanApply ctx signedTransaction l
  | .unknown _ => .error unknownAction

/-- `action_apply`. -/
def actionApply [Externals] (ctx : Context) (signedTransaction : SignedTransaction)
    (layer : StateLayer) (l : Ledger) : Checked Ledger := do
  let action := signedTransaction.transactionDetails.action
  requireTransferOnly ctx.config action
  match action with
  | .transfer a => a.actionApply ctx signedTransaction layer l
  | .authorizationUpdate a => a.actionApply signedTransaction l
  | .file a => a.actionApply signedTransaction l
  | .contentUnit a => a.actionApply ctx signedTransaction l
  | .content a => a.actionApply signedTransaction l
  | .role a => a.actionApply ctx signedTransaction l
  | .storageUpdate a => a.actionApply signedTransaction l
  | .serviceStatistics a => a.actionApply ctx signedTransaction layer l
  | .sponsorContentUnit a => a.actionApply ctx signedTransaction layer l
  | .cancelSponsorContentUnit a => a.actionApply ctx signedTransaction l
  | .unknown _ => .error unknownAction

/-- `action_revert`. -/
def actionRevert [Externals] (ctx : Context) (signedTransaction : SignedTransaction)
    (layer : StateLayer) (l : Ledger) : Checked Ledger := do
  let action := signedTransaction.transactionDetails.action
  requireTransferOnly ctx.config action
  match action with
  | .transfer a => a.actionRevert ctx signedTransaction layer l
  | .authorizationUpdate a => a.actionRevert l
  | .file a => a.actionRevert signedTransaction l
  | .contentUnit a => a.actionRevert signedTransaction l
  | .content a => a.actionRevert signedTransaction l
  | .role a => a.actionRevert signedTransaction l
  | .storageUpdate a => a.actionRevert signedTransaction l
  | .serviceStatistics a => a.actionRevert signedTransaction l
  | .sponsorContentUnit a => a.actionRevert ctx signedTransaction layer l
  | .cancelSponsorContentUnit a => a.actionRevert ctx signedTransaction l
  | .unknown _ => .error unknownAction

/-- `action_owners(signed_transaction).front()`, who pays the fee. -/
def feePayer (signedTransaction : SignedTransaction) : Checked String := do
  let owners ← actionOwners signedTransaction.transactionDetails.action
  pure (owners.headD "")

/-- `fee_can_apply`. -/
def feeCanApply (signedTransaction : SignedTransaction) (l : Ledger) : Checked Bool := do
  let address ← feePayer signedTransaction
  let below ← l.balanceBelow address signedTransaction.transactionDetails.fee
  pure (!below)

/-- `fee_validate`. -/
def feeValidate (signedTransaction : SignedTransaction) (l : Ledger) : Checked Unit := do
  let address ← feePayer signedTransaction
  let fee ← Coin.ofMessage signedTransaction.transactionDetails.fee
  let balance := l.state.getBalance address .pool
  require (balance.lt fee = false) (.notEnoughBalance address balance fee)

/-- `fee_apply`. -/
def feeApply (ctx : Context) (signedTransaction : SignedTransaction) (feeReceiver : String)
    (l : Ledger) : Checked Ledger :=
  if feeReceiver = "" then pure l
  else do
    let fee := signedTransaction.transactionDetails.fee
    let address ← feePayer signedTransaction
    let l ← l.increase ctx feeReceiver fee .chain
    l.decrease ctx address fee .chain

/-- `fee_revert`. -/
def feeRevert (ctx : Context) (signedTransaction : SignedTransaction) (feeReceiver : String)
    (l : Ledger) : Checked Ledger :=
  if feeReceiver = "" then pure l
  else do
    let fee := signedTransaction.transactionDetails.fee
    let address ← feePayer signedTransaction
    let l ← l.decrease ctx feeReceiver fee .chain
    l.increase ctx address fee .chain

def layerOf (key : String) : StateLayer := if key = "" then .pool else .chain

/-- `apply_transaction`: whether the transaction was applied, and the ledger after it.
An action whose fee cannot be paid is reverted. -/
def applyTransaction [Externals] (ctx : Context) (key : String)
    (signedTransaction : SignedTransaction) (l : Ledger) : Checked (Bool × Ledger) := do
  let layer := layerOf key
  let canApply ← actionCanApply ctx signedTransaction layer l
  if canApply = false then pure (false, l)
  else do
    let applied ← actionApply ctx signedTransaction layer l
    let feeOk ← feeCanApply signedTransaction applied
    if feeOk = false then do
      let reverted ← actionRevert ctx signedTransaction layer applied
      pure (false, reverted)
    else do
      let paid ← feeApply ctx signedTransaction key applied
      pure (true, paid)

/-- `revert_transaction`. -/
def revertTransaction [Externals] (ctx : Context) (key : String)
    (signedTransaction : SignedTransaction) (l : Ledger) : Checked Ledger := do
  let l ← feeRevert ctx signedTransaction key l
  actionRevert ctx signedTransaction (layerOf key) l

end Publiq
