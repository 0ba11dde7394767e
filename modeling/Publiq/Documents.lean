import Publiq.Blockchain
import Publiq.Foundation.SparseMap
import Mathlib.Data.Finset.Basic
import Mathlib.Data.List.Sort

/-! `documents.cpp` and `types.idl`: files, content units, the storages that hold
a file, and the sponsorships of content units. -/
namespace Publiq
open Message Checked

/-- `StorageTypes::SponsoredInformation`. The amount was taken from a balance, so
it is a proper amount. -/
structure SponsoredInformation where
  startTimePoint : ℤ
  endTimePoint : ℤ
  amount : Coin
  timePointsUsedBefore : ℕ
  sponsorAddress : String
  transactionHash : String
  cancelled : Bool
  deriving DecidableEq

/-- `StorageTypes::ContentUnitSponsoredInformation`: the sponsorships of one unit
in the order they arrived, the times up to which they were paid, and the order
in which the payer walks through them. -/
structure ContentUnitSponsoredInformation where
  uri : String
  sponsoredInformations : List SponsoredInformation
  timePointsUsed : List ℤ
  indexSi : List ℕ
  deriving DecidableEq

/-- `StorageTypes::SponsoredInformationHeader`. -/
structure SponsoredInformationHeader where
  uri : String
  transactionHash : String
  blockNumber : ℕ
  manuallyCancelled : Coin
  deriving DecidableEq

/-- `StorageTypes::SponsoredInformationHeaders`, by the transaction hash. -/
abbrev SponsoredInformationHeaders := Std.ExtTreeMap String SponsoredInformationHeader

/-- `publiqpp::documents`. A file without holders and a block without expirations
have no entry. -/
structure Documents where
  files : Std.ExtTreeMap String File
  units : Std.ExtTreeMap String ContentUnit
  storages : SparseMap String (Finset String)
  sponsored : Std.ExtTreeMap String ContentUnitSponsoredInformation
  expiring : SparseMap ℕ SponsoredInformationHeaders
  hashToBlock : Std.ExtTreeMap String ℕ
  deriving DecidableEq

namespace Documents

instance : Inhabited Documents := ⟨⟨∅, ∅, ∅, ∅, ∅, ∅⟩⟩

/-- `documents::file_exists`. -/
def fileExists (docs : Documents) (uri : String) : Bool :=
  uri ≠ "" && docs.files.contains uri

/-- `documents::files_exist`: the first missing file, if there is one. -/
def filesMissing (docs : Documents) (uris : List String) : Option String :=
  uris.find? fun uri => !docs.fileExists uri

/-- `documents::insert_file`, which leaves a file of the same uri. -/
def insertFile (file : File) (docs : Documents) : Documents :=
  { docs with files := docs.files.insertIfNew file.uri file }

/-- `documents::remove_file`. -/
def removeFile (uri : String) (docs : Documents) : Documents :=
  { docs with files := docs.files.erase uri }

/-- `documents::get_file`. -/
def getFile (docs : Documents) (uri : String) : Checked File :=
  match docs.files[uri]? with
  | some file => .ok file
  | none => .error (.outOfRange "documents::get_file")

/-- `documents::unit_exists`. -/
def unitExists (docs : Documents) (uri : String) : Bool :=
  uri ≠ "" && docs.units.contains uri

/-- `documents::units_exist`: the first missing unit, if there is one. -/
def unitsMissing (docs : Documents) (uris : List String) : Option String :=
  uris.find? fun uri => !docs.unitExists uri

/-- `documents::insert_unit`. -/
def insertUnit (unit : ContentUnit) (docs : Documents) : Documents :=
  { docs with units := docs.units.insertIfNew unit.uri unit }

/-- `documents::remove_unit`. -/
def removeUnit (uri : String) (docs : Documents) : Documents :=
  { docs with units := docs.units.erase uri }

/-- `documents::get_unit`. -/
def getUnit (docs : Documents) (uri : String) : Checked ContentUnit :=
  match docs.units[uri]? with
  | some unit => .ok unit
  | none => .error (.outOfRange "documents::get_unit")

/-- `documents::storage_update`. -/
def storageUpdate (uri address : String) (status : UpdateType) (docs : Documents) : Documents :=
  let holders := docs.storages.get uri
  { docs with storages := docs.storages.set uri (match status with
      | .store => insert address holders
      | .remove => holders.erase address) }

/-- `documents::storage_has_uri`. -/
def storageHasUri (docs : Documents) (uri address : String) : Bool :=
  address ∈ docs.storages.get uri

/-- `refresh_index` drops a sponsorship whose end the last used time has passed,
once it was looked at. -/
def isFinished (cusi : ContentUnitSponsoredInformation) (tp : ℤ)
    (item : SponsoredInformation) : Bool :=
  item.endTimePoint ≤ tp && item.timePointsUsedBefore < cusi.timePointsUsed.length

/-- `cusi.time_points_used.back()`. -/
def lastUsed (cusi : ContentUnitSponsoredInformation) : ℤ := cusi.timePointsUsed.getLastD 0

def startDelay (tp : ℤ) (item : SponsoredInformation) : ℤ :=
  if tp < item.startTimePoint then clockSeconds (item.startTimePoint - tp) else 0

def indexOrder (a b : ℤ × ℕ) : Bool := a.1 < b.1 || (a.1 == b.1 && a.2 ≤ b.2)

/-- `std::sort` of the entries of `refresh_index`, which compares delays only and leaves the order
of equal ones open. -/
class EntrySort where
  sort : List (ℤ × ℕ) → List (ℤ × ℕ)
  perm : ∀ entries, (sort entries).Perm entries
  sorted : ∀ entries, (sort entries).Pairwise fun a b => a.1 ≤ b.1

theorem indexOrder_iff {a b : ℤ × ℕ} :
    indexOrder a b = true ↔ a.1 < b.1 ∨ a.1 = b.1 ∧ a.2 ≤ b.2 := by
  simp [indexOrder]

instance : Std.Total (fun a b : ℤ × ℕ => indexOrder a b = true) where
  total a b := by
    simp only [indexOrder_iff]
    omega

instance : IsTrans (ℤ × ℕ) (fun a b => indexOrder a b = true) where
  trans a b c hab hbc := by
    simp only [indexOrder_iff] at *
    omega

/-- The sort that keeps equal delays in the order of their index. -/
instance (priority := low) indexFirst : EntrySort where
  sort entries := entries.insertionSort (indexOrder · ·)
  perm entries := List.perm_insertionSort _ entries
  sorted entries := (List.pairwise_insertionSort _ entries).imp fun {a b} h => by
    rw [indexOrder_iff] at h
    omega

/-- The entries of the index before they are sorted. -/
def indexEntry (cusi : ContentUnitSponsoredInformation) (index : ℕ) : Option (ℤ × ℕ) :=
  match cusi.sponsoredInformations[index]? with
  | none => none
  | some item =>
      if isFinished cusi (lastUsed cusi) item then none
      else some (startDelay (lastUsed cusi) item, index)

variable [EntrySort]

/-- `refresh_index`. -/
def refreshIndex (cusi : ContentUnitSponsoredInformation) :
    Checked ContentUnitSponsoredInformation := do
  require (∀ index ∈ cusi.indexSi, ∀ item ∈ cusi.sponsoredInformations[index]?,
      item.timePointsUsedBefore ≤ cusi.timePointsUsed.length)
    (.logicError "item.time_points_used_before > cusi.time_points_used.size()")
  let arrIndex := EntrySort.sort (cusi.indexSi.filterMap (indexEntry cusi))
  pure { cusi with indexSi := arrIndex.map Prod.snd }

/-- `get_expiring_block_number`: the first block at or after the end, but no block
that is already on the chain. -/
def getExpiringBlockNumber (chain : Blockchain) (itemEnd : ℤ) : Checked ℕ := do
  let genesis ← chain.headerAt 0
  let expiring := chain.length
  if genesis.timeSigned < itemEnd then
    let seconds := (UInt64.ofInt (clockSeconds (itemEnd - genesis.timeSigned))).toNat
    let expected := seconds / blockMineDelay
    let expected := if seconds % blockMineDelay ≠ 0 then expected + 1 else expected
    pure (max expected expiring)
  else pure expiring

/-- The interval of a sponsorship: its start as the clock keeps it, and the end in
64-bit seconds. -/
def sponsoredInterval (spi : SponsorContentUnit) : ℤ × ℤ :=
  let itemStart := clockSeconds spi.startTimePoint
  let hours := Int.bmod spi.hours.toNat (2 ^ 64)
  (itemStart, Int.bmod (itemStart + Int.bmod (hours * 3600) (2 ^ 64)) (2 ^ 64))

def addSponsorship (cusi : ContentUnitSponsoredInformation) (si : SponsoredInformation) :
    Checked ContentUnitSponsoredInformation := do
  require (cusi.sponsoredInformations ≠ []) (.logicError "cusi.sponsored_informations.empty()")
  require (cusi.timePointsUsed ≠ []) (.logicError "cusi.time_points_used.empty()")
  refreshIndex
    { cusi with
      indexSi := cusi.indexSi ++ [cusi.sponsoredInformations.length]
      sponsoredInformations := cusi.sponsoredInformations ++
        [{ si with timePointsUsedBefore := cusi.timePointsUsed.length }] }

def sponsoredWith (cusi : Option ContentUnitSponsoredInformation) (uri : String)
    (si : SponsoredInformation) : Checked ContentUnitSponsoredInformation :=
  match cusi with
  | some cusi => addSponsorship cusi si
  | none => refreshIndex ⟨uri, [si], [si.startTimePoint], [0]⟩

/-- `documents::sponsor_content_unit_apply`. The amount is the one that the caller
has taken from the sponsor. -/
def sponsorContentUnitApply (chain : Blockchain) (spi : SponsorContentUnit) (amount : Coin)
    (transactionHash : String) (docs : Documents) : Checked Documents := do
  let (itemStart, itemEnd) := sponsoredInterval spi
  require (itemStart < itemEnd) (.runtimeError "item_end_tp <= item_start_tp")
  let si : SponsoredInformation :=
    { startTimePoint := itemStart
      endTimePoint := clockSeconds itemEnd
      amount := amount
      timePointsUsedBefore := 1
      sponsorAddress := spi.sponsorAddress
      transactionHash := transactionHash
      cancelled := false }
  let cusi ← sponsoredWith docs.sponsored[spi.uri]? spi.uri si
  let expiringBlockNumber ← getExpiringBlockNumber chain (clockSeconds itemEnd)
  let expiring : SponsoredInformationHeader := ⟨spi.uri, transactionHash, expiringBlockNumber, 0⟩
  pure { docs with
    sponsored := docs.sponsored.insert spi.uri cusi
    expiring := docs.expiring.set expiringBlockNumber
      ((docs.expiring.get expiringBlockNumber).insert transactionHash expiring)
    hashToBlock := docs.hashToBlock.insert transactionHash expiringBlockNumber }

/-- `documents::expiration_entry_ref_by_block`. -/
def expirationEntryByBlock (docs : Documents) (blockNumber : ℕ) :
    Checked SponsoredInformationHeaders := do
  require (docs.expiring.contains blockNumber) (.logicError
    "false == m_pimpl->m_sponsored_informations_expiring.contains(std::to_string(block_number))")
  pure (docs.expiring.get blockNumber)

/-- `documents::expiration_entry_ref_by_block_by_hash`. -/
def expirationEntryByBlockByHash (docs : Documents) (blockNumber : ℕ) (transactionHash : String) :
    Checked SponsoredInformationHeader := do
  let expirings ← docs.expirationEntryByBlock blockNumber
  match expirings[transactionHash]? with
  | some entry => pure entry
  | none => .error (.logicError "0 == expirings.expirations.count(transaction_hash)")

/-- `documents::expiration_entry_ref_by_hash`. -/
def expirationEntryByHash (docs : Documents) (transactionHash : String) :
    Checked SponsoredInformationHeader :=
  match docs.hashToBlock[transactionHash]? with
  | some blockNumber => docs.expirationEntryByBlockByHash blockNumber transactionHash
  | none => .error (.logicError
      "false == m_pimpl->m_sponsored_informations_hash_to_block.contains(transaction_hash)")

/-- The check of the last sponsorship before it is taken back. -/
def lastSponsorship (cusi : ContentUnitSponsoredInformation) (spi : SponsorContentUnit)
    (transactionHash : String) : Checked SponsoredInformation := do
  match cusi.sponsoredInformations.getLast? with
  | none => .error (.logicError "cusi.sponsored_informations.back().amount != si")
  | some si => do
      require (si.amount.toMessage = spi.amount)
        (.logicError "cusi.sponsored_informations.back().amount != si")
      require (cusi.timePointsUsed ≠ []) (.logicError "cusi.time_points_used.empty()")
      require (cusi.timePointsUsed.length = si.timePointsUsedBefore) (.logicError
        "cusi.time_points_used.size() != cusi.sponsored_informations.back().time_points_used_before")
      require (si.transactionHash = transactionHash)
        (.logicError "si.transaction_hash != transaction_hash")
      require (si.cancelled = false) (.logicError "si.cancelled == true")
      pure si

def sponsoredWithout (sponsored : Std.ExtTreeMap String ContentUnitSponsoredInformation)
    (uri : String) (cusi : ContentUnitSponsoredInformation) :
    Checked (Std.ExtTreeMap String ContentUnitSponsoredInformation) :=
  if cusi.sponsoredInformations.dropLast = [] then pure (sponsored.erase uri)
  else do
    let cusi ← refreshIndex
      { cusi with sponsoredInformations := cusi.sponsoredInformations.dropLast }
    pure (sponsored.insert uri cusi)

/-- The check of the expiration entry before it is taken back. -/
def checkExpiration (expirings : SponsoredInformationHeaders) (spi : SponsorContentUnit)
    (transactionHash : String) (blockNumber : ℕ) : Checked Unit :=
  match expirings[transactionHash]? with
  | none => .error (.logicError "0 == expirings.expirations.count(si.transaction_hash)")
  | some entry => do
      require (entry.uri = spi.uri) (.logicError "expiration_item.uri != spi.uri")
      require (entry.blockNumber = blockNumber)
        (.logicError "expiration_item.block_number != expiring_block_number")
      require (entry.transactionHash = transactionHash)
        (.logicError "expiration_item.transaction_hash != si.transaction_hash")
      require (entry.manuallyCancelled = 0)
        (.logicError "expiration_item.manually_cancelled != StorageTypes::Coin()")

/-- `documents::sponsor_content_unit_revert`. -/
def sponsorContentUnitRevert (chain : Blockchain) (spi : SponsorContentUnit)
    (transactionHash : String) (docs : Documents) : Checked Documents := do
  match docs.sponsored[spi.uri]? with
  | none => .error (.outOfRange "map_loader::at")
  | some cusi => do
      let si ← lastSponsorship cusi spi transactionHash
      let sponsored ← sponsoredWithout docs.sponsored spi.uri cusi
      let expiringBlockNumber ← getExpiringBlockNumber chain si.endTimePoint
      let expirings ← docs.expirationEntryByBlock expiringBlockNumber
      checkExpiration expirings spi si.transactionHash expiringBlockNumber
      pure { docs with
        sponsored := sponsored
        expiring := docs.expiring.set expiringBlockNumber (expirings.erase si.transactionHash)
        hashToBlock := docs.hashToBlock.erase si.transactionHash }

/-- `documents::content_unit_uri_sponsor_expiring`: the uri and the hash of every
sponsorship that ends at the block and was not cancelled by its sponsor. -/
def contentUnitUriSponsorExpiring (docs : Documents) (blockNumber : ℕ) : List (String × String) :=
  (docs.expiring.get blockNumber).toList.filterMap fun item =>
    if item.2.manuallyCancelled = 0 then some (item.2.uri, item.2.transactionHash) else none

end Documents
end Publiq
