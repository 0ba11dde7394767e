import Publiq.Documents

/-! `documents::sponsored_content_unit_set_used`: what a unit's sponsors pay for
the time since it was last paid, or what is left of one of its sponsorships. -/
namespace Publiq
open Message Checked

/-- `e_sponsored_content_unit_set_used`. -/
inductive SetUsed where
  | apply
  | revert
  deriving DecidableEq

/-- One entry of the result: `result[sponsor][transaction_hash] = amount`. -/
structure SponsorPayment where
  sponsorAddress : String
  transactionHash : String
  amount : Coin
  deriving DecidableEq

namespace Documents

/-- The arguments of a call, and the time up to which it pays. -/
structure SetUsedCall where
  type : SetUsed
  transactionHashToCancel : String
  manualByAccount : String
  pretend : Bool
  endTp : ℤ
  startTp : ℤ
  deriving DecidableEq

/-- What the loop over the sponsorships changes. -/
structure SetUsedState where
  sponsoredInformations : List SponsoredInformation
  expiring : SparseMap ℕ SponsoredInformationHeaders
  result : List SponsorPayment
  deriving DecidableEq

/-- `part`: the share of the paid interval in the amount, with the remainder of the
division for the interval that reaches the end. -/
def paidPart (item : SponsoredInformation) (partStart partEnd : ℤ) : Checked Coin := do
  let wholeDuration := UInt64.ofInt (clockSeconds (item.endTimePoint - item.startTimePoint))
  let partDuration := UInt64.ofInt (clockSeconds (partEnd - partStart))
  let rate ← item.amount.div wholeDuration
  let part := rate.mul partDuration
  if partEnd = item.endTimePoint then do
    let rest ← item.amount.mod wholeDuration
    pure (part + rest)
  else pure part

def paidInterval (call : SetUsedCall) (timePointsUsed : ℕ) (item : SponsoredInformation) :
    ℤ × ℤ :=
  (if item.timePointsUsedBefore = timePointsUsed then item.startTimePoint
    else max call.startTp item.startTimePoint,
    if call.transactionHashToCancel ≠ "" then item.endTimePoint
    else min call.endTp item.endTimePoint)

/-- Mark a sponsorship as cancelled, or no longer so, and keep what its sponsor got back. -/
def markCancelled (docs : Documents) (call : SetUsedCall) (index : ℕ)
    (item : SponsoredInformation) (entry : SponsoredInformationHeader) (part : Coin)
    (s : SetUsedState) : Checked SetUsedState := do
  let manual := call.manualByAccount ≠ ""
  let number := docs.hashToBlock[item.transactionHash]?.getD 0
  let keep (cancelled : Bool) (manuallyCancelled : Coin) : SetUsedState :=
    if call.pretend then s
    else
      { s with
        sponsoredInformations := s.sponsoredInformations.set index { item with cancelled }
        expiring :=
          if manual then
            s.expiring.set number ((s.expiring.get number).insert item.transactionHash
              { entry with manuallyCancelled })
          else s.expiring }
  match call.type with
  | .apply => do
      require (entry.manuallyCancelled = 0)
        (.logicError "StorageTypes::Coin() != expiration_entry.manually_cancelled")
      pure (keep true part)
  | .revert => do
      require (item.cancelled = true) (.logicError "false == item.cancelled")
      require (manual ↔ entry.manuallyCancelled ≠ 0) (.logicError
        "manual != (expiration_entry.manually_cancelled != StorageTypes::Coin())")
      pure (keep false 0)

/-- The loop over `index_si`. A sponsorship that starts later ends it, since the
ones behind start later still. -/
def setUsedLoop (docs : Documents) (call : SetUsedCall) (timePointsUsed : ℕ) :
    List ℕ → SetUsedState → Checked SetUsedState
  | [], s => .ok s
  | index :: rest, s =>
      match s.sponsoredInformations[index]? with
      | none => .error (.outOfRange "sponsored_informations")
      | some item =>
          if call.endTp ≤ item.startTimePoint then .ok s
          else if call.transactionHashToCancel = "" ∧ item.cancelled = true then
            setUsedLoop docs call timePointsUsed rest s
          else if call.transactionHashToCancel ≠ "" ∧
              item.transactionHash ≠ call.transactionHashToCancel then
            setUsedLoop docs call timePointsUsed rest s
          else do
            let interval := paidInterval call timePointsUsed item
            let part ← paidPart item interval.1 interval.2
            if part = 0 then setUsedLoop docs call timePointsUsed rest s
            else do
              require (∀ p ∈ s.result, p.sponsorAddress = item.sponsorAddress →
                  p.transactionHash ≠ item.transactionHash)
                (.logicError "temp_result.insert({item.transaction_hash, part})")
              let paid := { s with
                result := s.result ++ [⟨item.sponsorAddress, item.transactionHash, part⟩] }
              if call.manualByAccount ≠ "" ∧ item.sponsorAddress ≠ call.manualByAccount then
                if call.pretend then .ok { s with result := [] }
                else .error (.authority call.manualByAccount item.sponsorAddress)
              else if call.transactionHashToCancel = "" then
                setUsedLoop docs call timePointsUsed rest paid
              else do
                let entry ← { docs with expiring := s.expiring }.expirationEntryByHash
                  item.transactionHash
                if call.type = .apply ∧ item.cancelled = true then
                  if call.pretend then .ok { s with result := [] }
                  else if call.manualByAccount ≠ "" then .error (.wrongData "already cancelled")
                  else .error (.logicError "already cancelled")
                else do
                  let marked ← markCancelled docs call index item entry part paid
                  setUsedLoop docs call timePointsUsed rest marked

/-- Whether the call pays anything: the time of a view lies behind the last used
time, and a reverted view is the last used time itself. -/
def paysNow (call : SetUsedCall) : Bool :=
  match call.type with
  | .apply => call.startTp < call.endTp
  | .revert =>
      if call.transactionHashToCancel = "" then call.endTp = call.startTp
      else call.startTp < call.endTp

section
variable [EntrySort]

/-- Take the last used time back and walk through every sponsorship again. -/
def dropLastUsed (cusi : ContentUnitSponsoredInformation) :
    Checked ContentUnitSponsoredInformation := do
  let timePointsUsed := cusi.timePointsUsed.dropLast
  require (timePointsUsed ≠ []) (.logicError "cusi.time_points_used.empty()")
  refreshIndex { cusi with
    timePointsUsed
    indexSi := List.range cusi.sponsoredInformations.length }

/-- A view that is reverted is paid from the time before it. -/
def rewind (call : SetUsedCall) (cusi : ContentUnitSponsoredInformation) :
    Checked ContentUnitSponsoredInformation :=
  if call.type = .revert ∧ call.transactionHashToCancel = "" then dropLastUsed cusi
  else pure cusi

def payUsed (docs : Documents) (call : SetUsedCall) (cusi : ContentUnitSponsoredInformation) :
    Checked (ContentUnitSponsoredInformation × SetUsedState) := do
  let idle : SetUsedState := ⟨cusi.sponsoredInformations, docs.expiring, []⟩
  if paysNow call then do
    let cusi ← rewind call cusi
    let call := { call with startTp := lastUsed cusi }
    let after ← setUsedLoop docs call cusi.timePointsUsed.length cusi.indexSi idle
    pure (cusi, after)
  else pure (cusi, idle)

def noteUsed (call : SetUsedCall) (cusi : ContentUnitSponsoredInformation) :
    Checked ContentUnitSponsoredInformation :=
  if call.type = .apply ∧ call.transactionHashToCancel = "" then
    refreshIndex { cusi with timePointsUsed := cusi.timePointsUsed ++ [call.endTp] }
  else pure cusi

/-- `documents::sponsored_content_unit_set_used`. -/
def sponsoredContentUnitSetUsed (chain : Blockchain) (contentUnitUri : String) (blockNumber : ℕ)
    (type : SetUsed) (transactionHashToCancel manualByAccount : String) (pretend : Bool)
    (docs : Documents) : Checked (Documents × List SponsorPayment) := do
  let pretend := pretend && transactionHashToCancel ≠ "" && type = .apply
  let header := chain.lastHeader
  let number := header.blockNumber.toNat
  let endTp := header.timeSigned + (blockMineDelay * (blockNumber - number) : ℕ)
  require (blockNumber = number ∨ blockNumber = number + 1) (.logicError "block_number range")
  match docs.sponsored[contentUnitUri]? with
  | none => pure (docs, [])
  | some cusi => do
      require (cusi.sponsoredInformations ≠ []) (.logicError "cusi.sponsored_informations.empty()")
      require (cusi.timePointsUsed ≠ []) (.logicError "cusi.time_points_used.empty()")
      let call : SetUsedCall :=
        { type, transactionHashToCancel, manualByAccount, pretend, endTp, startTp := lastUsed cusi }
      let (cusi, after) ← payUsed docs call cusi
      let cusi := { cusi with sponsoredInformations := after.sponsoredInformations }
      let cusi ← noteUsed call cusi
      pure ({ docs with
        sponsored := docs.sponsored.insert contentUnitUri cusi
        expiring := after.expiring }, after.result)

end

end Documents
end Publiq
