import Publiq.Ledger

/-! `transaction_sponsoring.cpp`: paying for a content unit in advance, and taking
back what was not used yet. -/
namespace Publiq.Message
open Checked

variable [Documents.EntrySort]

namespace SponsorContentUnit

/-- `action_owners(SponsorContentUnit)`. -/
def actionOwners (sponsor : SponsorContentUnit) : List String := [sponsor.sponsorAddress]

/-- `action_participants(SponsorContentUnit)`. -/
def actionParticipants (sponsor : SponsorContentUnit) : List String :=
  [sponsor.uri, sponsor.sponsorAddress]

/-- `action_validate(SponsorContentUnit)`. -/
def actionValidate [Externals] (signedTransaction : SignedTransaction)
    (sponsor : SponsorContentUnit) : Checked Unit := do
  require (signedTransaction.authorizations.length = 1) signedTransaction.backAuthority
  require (sponsor.hours ≠ 0) (.wrongData "sponsor duration")
  require (sponsor.amount ≠ 0) (.wrongData "sponsor amount")
  Externals.publicKey sponsor.sponsorAddress
  requireUri sponsor.uri

/-- `action_can_apply(SponsorContentUnit)`. -/
def actionCanApply (signedTransaction : SignedTransaction) (sponsor : SponsorContentUnit)
    (l : Ledger) : Checked Bool := do
  let permitted ← l.authorityManager.checkAuthority sponsor.sponsorAddress
    signedTransaction.signer rtt
  if permitted = false then pure false
  else if l.documents.unitExists sponsor.uri = false then pure false
  else do
    let below ← l.balanceBelow sponsor.sponsorAddress sponsor.amount
    pure (!below)

/-- `action_apply(SponsorContentUnit)`. -/
def actionApply [Externals] (ctx : Context) (signedTransaction : SignedTransaction)
    (sponsor : SponsorContentUnit) (layer : StateLayer) (l : Ledger) : Checked Ledger := do
  l.requireAuthority sponsor.sponsorAddress signedTransaction.signer rtt
    (.authority signedTransaction.signer sponsor.sponsorAddress)
  require (l.documents.unitExists sponsor.uri = true) (.uri sponsor.uri .missing)
  let amount ← Coin.ofMessage sponsor.amount
  let l ← l.onState (State.decreaseBalance ctx.own sponsor.sponsorAddress amount layer)
  l.onDocuments (Documents.sponsorContentUnitApply ctx.blockchain sponsor amount
    (transactionHash signedTransaction))

/-- `action_revert(SponsorContentUnit)`. -/
def actionRevert [Externals] (ctx : Context) (signedTransaction : SignedTransaction)
    (sponsor : SponsorContentUnit) (layer : StateLayer) (l : Ledger) : Checked Ledger := do
  let l ← l.increase ctx sponsor.sponsorAddress sponsor.amount layer
  let l ← l.onDocuments (Documents.sponsorContentUnitRevert ctx.blockchain sponsor
    (transactionHash signedTransaction))
  l.requireAuthority sponsor.sponsorAddress signedTransaction.signer rtt (.logicError
    "false == impl.m_authority_manager.check_authority(sponsor_content_unit.sponsor_address, signed_authority, SponsorContentUnit::rtt)")
  pure l

end SponsorContentUnit

namespace CancelSponsorContentUnit

/-- `action_owners(CancelSponsorContentUnit)`. -/
def actionOwners (cancel : CancelSponsorContentUnit) : List String := [cancel.sponsorAddress]

/-- `action_participants(CancelSponsorContentUnit)`. -/
def actionParticipants (cancel : CancelSponsorContentUnit) : List String :=
  [cancel.uri, cancel.sponsorAddress]

/-- `action_validate(CancelSponsorContentUnit)`. -/
def actionValidate [Externals] (signedTransaction : SignedTransaction)
    (cancel : CancelSponsorContentUnit) : Checked Unit := do
  require (signedTransaction.authorizations.length = 1) signedTransaction.backAuthority
  Externals.publicKey cancel.sponsorAddress
  requireUri cancel.uri
  let hash ← Externals.fromBase58 cancel.transactionHash
  require (hash.length = 32) (.wrongData ("invalid transaction hash: " ++ cancel.transactionHash))

/-- The call of `sponsored_content_unit_set_used` for this cancellation. -/
def setUsed (ctx : Context) (cancel : CancelSponsorContentUnit) (type : SetUsed) (pretend : Bool)
    (docs : Documents) : Checked (Documents × List SponsorPayment) :=
  docs.sponsoredContentUnitSetUsed ctx.blockchain cancel.uri ctx.blockchain.length type
    cancel.transactionHash cancel.sponsorAddress pretend

/-- `action_can_apply(CancelSponsorContentUnit)`: a call that returns nothing counts
as applicable. -/
def actionCanApply (ctx : Context) (signedTransaction : SignedTransaction)
    (cancel : CancelSponsorContentUnit) (l : Ledger) : Checked Bool := do
  let permitted ← l.authorityManager.checkAuthority cancel.sponsorAddress
    signedTransaction.signer rtt
  if permitted = false then pure false
  else if l.documents.unitExists cancel.uri = false then pure false
  else do
    let (_, result) ← cancel.setUsed ctx .apply true l.documents
    pure (result.all fun payment => payment.amount ≠ 0)

/-- `action_apply(CancelSponsorContentUnit)`. -/
def actionApply (ctx : Context) (signedTransaction : SignedTransaction)
    (cancel : CancelSponsorContentUnit) (l : Ledger) : Checked Ledger := do
  l.requireAuthority cancel.sponsorAddress signedTransaction.signer rtt
    (.authority signedTransaction.signer cancel.sponsorAddress)
  require (l.documents.unitExists cancel.uri = true) (.uri cancel.uri .missing)
  let (documents, result) ← cancel.setUsed ctx .apply false l.documents
  require (∀ payment ∈ result, payment.amount ≠ 0)
    (.wrongData ("invalid transaction hash: " ++ cancel.transactionHash))
  pure { l with documents }

/-- `action_revert(CancelSponsorContentUnit)`. -/
def actionRevert (ctx : Context) (signedTransaction : SignedTransaction)
    (cancel : CancelSponsorContentUnit) (l : Ledger) : Checked Ledger := do
  let (documents, result) ← cancel.setUsed ctx .revert false l.documents
  require (∀ payment ∈ result, payment.amount ≠ 0)
    (.logicError ("invalid transaction hash: " ++ cancel.transactionHash))
  let l := { l with documents }
  l.requireAuthority cancel.sponsorAddress signedTransaction.signer rtt (.logicError
    "false == impl.m_authority_manager.check_authority(cancel_sponsor_content_unit.sponsor_address, signed_authority, CancelSponsorContentUnit::rtt)")
  pure l

end CancelSponsorContentUnit
end Publiq.Message
