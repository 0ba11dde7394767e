import Publiq.Ledger

/-! `transaction_file.cpp`, `transaction_contentunit.cpp` and
`transaction_content.cpp`: files, the units made of them, and what a channel
publishes. Files and units are signed by each of their authors. -/
namespace Publiq.Message
open Checked

def firstRepeated : (seen : List String) → List String → Option String
  | _, [] => none
  | seen, s :: rest => if s ∈ seen then some s else firstRepeated (s :: seen) rest

def validateAuthors [Externals] : (seen : List String) → List String → Checked Unit
  | _, [] => pure ()
  | seen, author :: rest => do
      Externals.publicKey author
      require (author ∉ seen) (.wrongData ("duplicate author: " ++ author))
      validateAuthors (author :: seen) rest

/-- The part of `action_validate` that files and content units share. -/
def validateAuthorship [Externals] (what : String) (signedTransaction : SignedTransaction)
    (authorAddresses : List String) (checkComplete : Bool) : Checked Unit := do
  require (authorAddresses ≠ []) (.wrongData (what ++ " has to have at least one author"))
  let count := signedTransaction.authorizations.length
  if checkComplete then do
    require (count ≤ authorAddresses.length) signedTransaction.backAuthority
    require (authorAddresses.length ≤ count) (.authority "" (authorAddresses.getLastD ""))
  else
    require (count = 1)
      (.authority ((signedTransaction.authorizations[1]?.map Authority.address).getD "") "")
  validateAuthors [] authorAddresses

def signersWithAuthors (signedTransaction : SignedTransaction) (authorAddresses : List String) :
    List (String × String) :=
  (signedTransaction.authorizations.map Authority.address).zip authorAddresses

def signersPermitted (l : Ledger) (rtt : ℕ) : List (String × String) → Checked Bool
  | [] => pure true
  | (signer, author) :: rest => do
      let permitted ← l.authorityManager.checkAuthority author signer rtt
      if permitted = false then pure false else signersPermitted l rtt rest

def requireSigners (l : Ledger) (rtt : ℕ) (e : String × String → Failure) :
    List (String × String) → Checked Unit
  | [] => pure ()
  | (signer, author) :: rest => do
      l.requireAuthority author signer rtt (e (signer, author))
      requireSigners l rtt e rest

/-- `action_can_apply` asks for the signers of a complete transaction only. -/
def completePermitted (complete : Bool) (l : Ledger) (rtt : ℕ) (signers : List (String × String)) :
    Checked Bool :=
  if complete then signersPermitted l rtt signers else pure true

/-- `action_apply` checks the signers of a complete transaction only. -/
def requireComplete (complete : Bool) (l : Ledger) (rtt : ℕ) (signers : List (String × String)) :
    Checked Unit :=
  if complete then requireSigners l rtt (fun p => .authority p.1 p.2) signers else pure ()

namespace File

/-- `action_owners(File)`. -/
def actionOwners (file : File) : List String := file.authorAddresses

/-- `action_participants(File)`. -/
def actionParticipants (file : File) : List String := file.authorAddresses ++ [file.uri]

/-- `action_is_complete(File)`. -/
def actionIsComplete (signedTransaction : SignedTransaction) (file : File) : Bool :=
  signedTransaction.authorizations.length = file.authorAddresses.length

/-- `action_validate(File)`. -/
def actionValidate [Externals] (signedTransaction : SignedTransaction) (file : File)
    (checkComplete : Bool) : Checked Unit := do
  validateAuthorship "a file" signedTransaction file.authorAddresses checkComplete
  requireUri file.uri

/-- `action_can_apply(File)`. -/
def actionCanApply (signedTransaction : SignedTransaction) (file : File) (l : Ledger) :
    Checked Bool := do
  let permitted ← completePermitted (file.actionIsComplete signedTransaction) l rtt
    (signersWithAuthors signedTransaction file.authorAddresses)
  pure (permitted && !l.documents.fileExists file.uri)

/-- `action_apply(File)`. -/
def actionApply (signedTransaction : SignedTransaction) (file : File) (l : Ledger) :
    Checked Ledger := do
  requireComplete (file.actionIsComplete signedTransaction) l rtt
    (signersWithAuthors signedTransaction file.authorAddresses)
  require (l.documents.fileExists file.uri = false) (.uri file.uri .duplicate)
  pure { l with documents := l.documents.insertFile file }

/-- `action_revert(File)`. -/
def actionRevert (signedTransaction : SignedTransaction) (file : File) (l : Ledger) :
    Checked Ledger := do
  let l := { l with documents := l.documents.removeFile file.uri }
  requireSigners l rtt (fun _ => .logicError
      "false == impl.m_authority_manager.check_authority(author, signer, File::rtt)")
    (signersWithAuthors signedTransaction file.authorAddresses)
  pure l

end File

namespace ContentUnit

/-- `content_unit_validate_check` of `publiqd`: the duplicate file uri that it finds.
Three blocks of the test net hold units it would refuse. -/
def contentUnitValidateCheck (fileUris : List String) (blockNumber : ℕ) (isTestnet : Bool) :
    Option String :=
  if isTestnet && (blockNumber = 42846 || blockNumber = 44727 || blockNumber = 45433) then none
  else firstRepeated [] fileUris

/-- `action_owners(ContentUnit)`. -/
def actionOwners (unit : ContentUnit) : List String := unit.authorAddresses

/-- `action_participants(ContentUnit)`. -/
def actionParticipants (unit : ContentUnit) : List String :=
  unit.authorAddresses ++ [unit.uri] ++ unit.fileUris ++ [unit.channelAddress]

/-- `action_is_complete(ContentUnit)`. -/
def actionIsComplete (signedTransaction : SignedTransaction) (unit : ContentUnit) : Bool :=
  signedTransaction.authorizations.length = unit.authorAddresses.length

/-- `action_validate(ContentUnit)`. -/
def actionValidate [Externals] (signedTransaction : SignedTransaction) (unit : ContentUnit)
    (checkComplete : Bool) : Checked Unit := do
  validateAuthorship "a content unit" signedTransaction unit.authorAddresses checkComplete
  Externals.publicKey unit.channelAddress
  require (unit.fileUris ≠ []) (.uri "" .missing)
  requireUri unit.uri
  unit.fileUris.forM requireUri

/-- `action_can_apply(ContentUnit)`. -/
def actionCanApply (ctx : Context) (signedTransaction : SignedTransaction) (unit : ContentUnit)
    (l : Ledger) : Checked Bool := do
  let permitted ← completePermitted (unit.actionIsComplete signedTransaction) l rtt
    (signersWithAuthors signedTransaction unit.authorAddresses)
  pure (permitted &&
    (contentUnitValidateCheck unit.fileUris ctx.blockchain.length ctx.config.testnet).isNone &&
    !l.documents.unitExists unit.uri && (l.documents.filesMissing unit.fileUris).isNone)

/-- `action_apply(ContentUnit)`. -/
def actionApply (ctx : Context) (signedTransaction : SignedTransaction) (unit : ContentUnit)
    (l : Ledger) : Checked Ledger := do
  requireComplete (unit.actionIsComplete signedTransaction) l rtt
    (signersWithAuthors signedTransaction unit.authorAddresses)
  match contentUnitValidateCheck unit.fileUris ctx.blockchain.length ctx.config.testnet with
  | some duplicate => .error (.uri duplicate .duplicate)
  | none => do
      require (l.documents.unitExists unit.uri = false) (.uri unit.uri .duplicate)
      match l.documents.filesMissing unit.fileUris with
      | some missing => .error (.uri missing .missing)
      | none => pure { l with documents := l.documents.insertUnit unit }

/-- `action_revert(ContentUnit)`. -/
def actionRevert (signedTransaction : SignedTransaction) (unit : ContentUnit) (l : Ledger) :
    Checked Ledger := do
  let l := { l with documents := l.documents.removeUnit unit.uri }
  requireSigners l rtt (fun _ => .logicError
      "false == impl.m_authority_manager.check_authority(author, signer, ContentUnit::rtt)")
    (signersWithAuthors signedTransaction unit.authorAddresses)
  pure l

end ContentUnit

namespace Content

/-- `action_owners(Content)`. -/
def actionOwners (content : Content) : List String := [content.channelAddress]

/-- `action_participants(Content)`. -/
def actionParticipants (content : Content) : List String :=
  content.contentUnitUris ++ [content.channelAddress]

/-- `action_validate(Content)`. -/
def actionValidate [Externals] (signedTransaction : SignedTransaction) (content : Content) :
    Checked Unit := do
  require (signedTransaction.authorizations.length = 1) signedTransaction.backAuthority
  Externals.publicKey content.channelAddress
  require (content.contentUnitUris ≠ []) (.wrongData "dummy content")
  content.contentUnitUris.forM requireUri

/-- The publisher has the role of a channel, or else both `action_can_apply` and
`action_apply` throw. -/
def requireChannel (content : Content) (l : Ledger) : Checked Unit :=
  require (l.state.getRole content.channelAddress = some .channel)
    (.wrongData "the content owner is not a channel")

def unitsCorrespond (content : Content) (l : Ledger) : List String → Checked Bool
  | [] => pure true
  | uri :: rest => do
      let unit ← l.documents.getUnit uri
      if unit.channelAddress ≠ content.channelAddress ∨ unit.contentId ≠ content.contentId then
        pure false
      else content.unitsCorrespond l rest

/-- `action_can_apply(Content)`. -/
def actionCanApply (signedTransaction : SignedTransaction) (content : Content) (l : Ledger) :
    Checked Bool := do
  let permitted ← l.authorityManager.checkAuthority content.channelAddress
    signedTransaction.signer rtt
  if permitted = false then pure false
  else do
    content.requireChannel l
    match l.documents.unitsMissing content.contentUnitUris with
    | some _ => pure false
    | none => content.unitsCorrespond l content.contentUnitUris

/-- `action_apply(Content)`, which changes nothing of the ledger. -/
def actionApply (signedTransaction : SignedTransaction) (content : Content) (l : Ledger) :
    Checked Ledger := do
  l.requireAuthority content.channelAddress signedTransaction.signer rtt
    (.authority signedTransaction.signer content.channelAddress)
  content.requireChannel l
  match l.documents.unitsMissing content.contentUnitUris with
  | some missing => .error (.uri missing .missing)
  | none => do
      let correspond ← content.unitsCorrespond l content.contentUnitUris
      require (correspond = true)
        (.wrongData "the content and the content unit do not correspond to each other")
      pure l

/-- What `action_apply(Content)` leaves for the storage controller to fetch: on a
storage node without a manager, the files of every published unit. -/
def fileRequests (ctx : Context) (content : Content) (layer : StateLayer) (l : Ledger) :
    List (String × String) :=
  if ctx.config.managerAddress = "" ∧ ctx.config.nodeType = .storage ∧ layer = .chain then
    content.contentUnitUris.flatMap fun uri =>
      ((l.documents.units[uri]?.map ContentUnit.fileUris).getD []).map fun fileUri =>
        (fileUri, content.channelAddress)
  else []

/-- `action_revert(Content)`. -/
def actionRevert (signedTransaction : SignedTransaction) (content : Content) (l : Ledger) :
    Checked Ledger := do
  l.requireAuthority content.channelAddress signedTransaction.signer rtt (.logicError
    "false == impl.m_authority_manager.check_authority(content.channel_address, signed_authority, Content::rtt)")
  pure l

end Content
end Publiq.Message
