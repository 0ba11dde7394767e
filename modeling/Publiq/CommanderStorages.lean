import Publiq.Commander
import Publiq.Published

/-! What a log of transactions leaves of units and storages, what the node has checked of every
transaction in it, and the storages that the explorer shows. -/
namespace Publiq
open Message Checked CommanderMessage

/-- A transaction as the log has it: in a block of some authority or in the pool, with the
number of the block under which the explorer files it. -/
structure Booked where
  blockIndex : ℕ
  authority : String
  log : TransactionLog

def Message.Action.shelve (docs : Documents) : Action → Documents
  | .contentUnit unit => docs.insertUnit unit
  | .storageUpdate update => docs.storageUpdate update.fileUri update.storageAddress update.status
  | _ => docs

def documentsOf (transactions : List Booked) : Documents :=
  transactions.foldl (fun docs b => b.log.action.shelve docs) default

/-- What the node has checked of an action before it was logged. -/
structure Admits (docs : Documents) (action : Action) : Prop where
  known : ∀ rtt, action ≠ .unknown rtt
  authors : ∀ uri authors, action.document = some (uri, authors) → authors ≠ []
  unit : ∀ unit, action = .contentUnit unit → docs.units[unit.uri]? = none
  update : ∀ update, action = .storageUpdate update →
    docs.storageHasUri update.fileUri update.storageAddress = decide (update.status = .remove)
  content : ∀ content, action = .content content → content.contentUnitUris ≠ [] ∧
    ∀ uri ∈ content.contentUnitUris, ∃ unit, docs.units[uri]? = some unit ∧
      unit.channelAddress = content.channelAddress ∧ unit.contentId = content.contentId

def shownStored (storages : Std.ExtTreeMap String StoragesResponseItem) (address uri : String) :
    Option Bool :=
  storages[address]?.bind fun storage => storage.fileUris[uri]?

def ShowsStorages (accounts : List String) (docs : Documents)
    (storages : Std.ExtTreeMap String StoragesResponseItem) : Prop :=
  ∀ address ∈ accounts, ∀ uri,
    (shownStored storages address uri).getD false = docs.storageHasUri uri address

theorem storageHasUri_storageUpdate (docs : Documents) (uri address fileUri holder : String)
    (status : UpdateType) : (docs.storageUpdate uri address status).storageHasUri fileUri holder =
      if uri = fileUri ∧ address = holder then decide (status = .store)
      else docs.storageHasUri fileUri holder := by
  unfold Documents.storageHasUri Documents.storageUpdate
  rw [SparseMap.get_set]
  by_cases huri : uri = fileUri
  · subst huri
    by_cases haddress : address = holder
    · subst haddress
      cases status <;> simp
    · cases status <;> simp [haddress, Ne.symm haddress]
  · simp [huri]

theorem storageHasUri_shelve {action : Action} (docs : Documents) (fileUri holder : String)
    (other : ∀ update, action ≠ .storageUpdate update) :
    (action.shelve docs).storageHasUri fileUri holder = docs.storageHasUri fileUri holder := by
  cases action with
  | storageUpdate update => exact absurd rfl (other update)
  | _ => rfl

/-- A file is shown to be stored, or no longer so, when the opposite was shown before. -/
theorem processStorage_ok {accounts : List String} {log : TransactionLog} (type : LoggingType)
    {storages : Std.ExtTreeMap String StoragesResponseItem} {update : StorageUpdate}
    (haction : log.action = .storageUpdate update) (hmem : update.storageAddress ∈ accounts)
    (isStored : Bool) (hstored : isStored = decide (update.status = .store ∧ type = .apply ∨
      update.status = .remove ∧ type = .revert))
    (fits : (shownStored storages update.storageAddress update.fileUri).getD false = !isStored) :
    ∃ after, processStorageTransactions accounts log type storages = .ok after ∧
      ∀ address uri, shownStored after address uri =
        if update.fileUri = uri ∧ update.storageAddress = address then some isStored
        else shownStored storages address uri := by
  unfold processStorageTransactions
  rw [haction]
  simp only [if_pos hmem, ← hstored]
  cases hat : storages[update.storageAddress]? with
  | none =>
      refine ⟨_, rfl, fun address uri => ?_⟩
      unfold shownStored
      rw [Std.ExtTreeMap.getElem?_insert]
      by_cases haddress : update.storageAddress = address
      · subst haddress
        simp [hat, Std.ExtTreeMap.getElem?_insert]
      · simp [haddress]
  | some storage =>
      have hold : storage.fileUris[update.fileUri]? ≠ some isStored := by
        unfold shownStored at fits
        rw [hat, Option.bind_some] at fits
        intro hsame
        rw [hsame, Option.getD_some] at fits
        cases isStored <;> cases fits
      simp only [require_true hold, ok_bind]
      refine ⟨_, rfl, fun address uri => ?_⟩
      unfold shownStored
      rw [Std.ExtTreeMap.getElem?_insert]
      by_cases haddress : update.storageAddress = address
      · subst haddress
        simp [hat, Std.ExtTreeMap.getElem?_insert]
      · simp [haddress]

theorem processStorage_other {accounts : List String} {log : TransactionLog} {type : LoggingType}
    {storages : Std.ExtTreeMap String StoragesResponseItem}
    (other : ∀ update, log.action = .storageUpdate update → update.storageAddress ∉ accounts) :
    processStorageTransactions accounts log type storages = .ok storages := by
  unfold processStorageTransactions
  cases haction : log.action with
  | storageUpdate update =>
      simp only [if_neg (other update haction)]
      rfl
  | _ => rfl

section
variable {accounts : List String} {docs : Documents} {log : TransactionLog}
  {storages : Std.ExtTreeMap String StoragesResponseItem}

/-- What is stored for the accounts changes for the accounts only. -/
theorem showsStorages_of_other
    (other : ∀ update, log.action = .storageUpdate update → update.storageAddress ∉ accounts) :
    ShowsStorages accounts (log.action.shelve docs) storages ↔
      ShowsStorages accounts docs storages := by
  have hsame : ∀ address ∈ accounts, ∀ uri,
      (log.action.shelve docs).storageHasUri uri address = docs.storageHasUri uri address := by
    intro address haddress uri
    by_cases hupdate : ∃ update, log.action = .storageUpdate update
    · obtain ⟨update, hupdate⟩ := hupdate
      rw [hupdate]
      refine (storageHasUri_storageUpdate _ _ _ _ _ _).trans (if_neg ?_)
      rintro ⟨_, rfl⟩
      exact other update hupdate haddress
    · exact storageHasUri_shelve docs uri address fun update h => hupdate ⟨update, h⟩
  constructor
  · intro shows address haddress uri
    rw [shows address haddress uri, hsame address haddress uri]
  · intro shows address haddress uri
    rw [shows address haddress uri, hsame address haddress uri]

theorem ShowsStorages.apply (shows : ShowsStorages accounts docs storages)
    (admits : Admits docs log.action) :
    ∃ after, processStorageTransactions accounts log .apply storages = .ok after ∧
      ShowsStorages accounts (log.action.shelve docs) after := by
  by_cases hupdate : ∃ update, log.action = .storageUpdate update ∧
      update.storageAddress ∈ accounts
  · obtain ⟨update, haction, hmem⟩ := hupdate
    have hbefore := shows update.storageAddress hmem update.fileUri
    rw [admits.update update haction] at hbefore
    obtain ⟨after, hafter, hshown⟩ := processStorage_ok .apply haction hmem
      (decide (update.status = .store)) (by simp)
      (by rw [hbefore]; cases update.status <;> rfl)
    refine ⟨after, hafter, fun address haddress uri => ?_⟩
    rw [hshown, haction]
    change _ = (docs.storageUpdate _ _ _).storageHasUri uri address
    rw [storageHasUri_storageUpdate]
    split_ifs
    · rfl
    · exact shows address haddress uri
  · have other : ∀ update, log.action = .storageUpdate update →
        update.storageAddress ∉ accounts := fun update h hmem => hupdate ⟨update, h, hmem⟩
    exact ⟨storages, processStorage_other other, (showsStorages_of_other other).mpr shows⟩

theorem ShowsStorages.revert (shows : ShowsStorages accounts (log.action.shelve docs) storages)
    (admits : Admits docs log.action) :
    ∃ after, processStorageTransactions accounts log .revert storages = .ok after ∧
      ShowsStorages accounts docs after := by
  by_cases hupdate : ∃ update, log.action = .storageUpdate update ∧
      update.storageAddress ∈ accounts
  · obtain ⟨update, haction, hmem⟩ := hupdate
    have hwas := admits.update update haction
    rw [haction] at shows
    have hlast : ∀ address ∈ accounts, ∀ uri, (shownStored storages address uri).getD false =
        if update.fileUri = uri ∧ update.storageAddress = address then
          decide (update.status = .store) else docs.storageHasUri uri address := by
      intro address haddress uri
      rw [shows address haddress uri]
      exact storageHasUri_storageUpdate _ _ _ _ _ _
    have hbefore := hlast update.storageAddress hmem update.fileUri
    rw [if_pos ⟨rfl, rfl⟩] at hbefore
    obtain ⟨after, hafter, hshown⟩ := processStorage_ok .revert haction hmem
      (decide (update.status = .remove)) (by simp)
      (by rw [hbefore]; cases update.status <;> rfl)
    refine ⟨after, hafter, fun address haddress uri => ?_⟩
    rw [hshown]
    split_ifs with hkey
    · obtain ⟨rfl, rfl⟩ := hkey
      exact hwas.symm
    · rw [hlast address haddress uri, if_neg hkey]
  · have other : ∀ update, log.action = .storageUpdate update →
        update.storageAddress ∉ accounts := fun update h hmem => hupdate ⟨update, h, hmem⟩
    exact ⟨storages, processStorage_other other, (showsStorages_of_other other).mp shows⟩

end
end Publiq
