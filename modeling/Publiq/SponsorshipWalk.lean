import Publiq.SponsorshipIndex
import Mathlib.Data.List.TakeWhile

/-! The walk of `sponsored_content_unit_set_used` for one transaction hash comes to one
sponsorship at most. What it does then is written out here without the walk. -/
namespace Publiq.Documents
open Message Checked

def reached (items : List SponsoredInformation) (index : List ℕ) (endTp : ℤ) :
    List (ℕ × SponsoredInformation) :=
  (index.filterMap fun i => items[i]?.map (i, ·)).takeWhile fun p => p.2.startTimePoint < endTp

theorem reached_cons {items : List SponsoredInformation} {i : ℕ} {item : SponsoredInformation}
    (there : items[i]? = some item) (rest : List ℕ) (endTp : ℤ) :
    reached items (i :: rest) endTp =
      if item.startTimePoint < endTp then (i, item) :: reached items rest endTp else [] := by
  simp only [reached, List.filterMap_cons, there, Option.map_some, List.takeWhile_cons,
    decide_eq_true_iff]

def target (items : List SponsoredInformation) (index : List ℕ) (endTp : ℤ) (hash : String) :
    Option (ℕ × SponsoredInformation) :=
  (reached items index endTp).find? fun p => p.2.transactionHash = hash

def HashesDiffer (items : List SponsoredInformation) : Prop :=
  (items.map SponsoredInformation.transactionHash).Nodup

theorem HashesDiffer.index_eq {items : List SponsoredInformation} (differ : HashesDiffer items)
    {i j : ℕ} {a b : SponsoredInformation} (ha : items[i]? = some a) (hb : items[j]? = some b)
    (h : a.transactionHash = b.transactionHash) : i = j := by
  have hi : i < (items.map SponsoredInformation.transactionHash).length := by
    rw [List.length_map]
    exact (List.getElem?_eq_some_iff.mp ha).choose
  apply (List.getElem?_inj hi differ).mp
  rw [List.getElem?_map, List.getElem?_map, ha, hb, Option.map_some, Option.map_some, h]

theorem target_some {items : List SponsoredInformation} {index : List ℕ} {endTp : ℤ}
    {hash : String} {i : ℕ} {item : SponsoredInformation}
    (h : target items index endTp hash = some (i, item)) :
    i ∈ index ∧ items[i]? = some item ∧ item.transactionHash = hash ∧
      item.startTimePoint < endTp := by
  have hreached := List.mem_of_find?_eq_some h
  have hhash := List.find?_some h
  have hstart := List.mem_takeWhile_imp hreached
  obtain ⟨j, hj, hitem⟩ := List.mem_filterMap.mp
    ((List.takeWhile_subset _) hreached)
  obtain ⟨found, hfound, heq⟩ := Option.map_eq_some_iff.mp hitem
  cases heq
  exact ⟨hj, hfound, by simpa using hhash, by simpa using hstart⟩

/-- What a call does with the sponsorship of its hash, when something is left to pay. -/
def payTarget (docs : Documents) (call : SetUsedCall) (index : ℕ) (item : SponsoredInformation)
    (part : Coin) (s : SetUsedState) : Checked SetUsedState :=
  if call.manualByAccount ≠ "" ∧ item.sponsorAddress ≠ call.manualByAccount then
    if call.pretend then .ok s
    else .error (.authority call.manualByAccount item.sponsorAddress)
  else do
    let entry ← { docs with expiring := s.expiring }.expirationEntryByHash item.transactionHash
    if call.type = .apply ∧ item.cancelled = true then
      if call.pretend then .ok s
      else if call.manualByAccount ≠ "" then .error (.wrongData "already cancelled")
      else .error (.logicError "already cancelled")
    else
      markCancelled docs call index item entry part
        { s with result := [⟨item.sponsorAddress, item.transactionHash, part⟩] }

def settleTarget (docs : Documents) (call : SetUsedCall) (timePointsUsed index : ℕ)
    (item : SponsoredInformation) (s : SetUsedState) : Checked SetUsedState := do
  let part ← paidPart item (paidInterval call timePointsUsed item).1
    (paidInterval call timePointsUsed item).2
  if part = 0 then .ok s else payTarget docs call index item part s

/-- A mark changes the sponsorship at its place only. -/
theorem markCancelled_getElem? {docs : Documents} {call : SetUsedCall} {index : ℕ}
    {item : SponsoredInformation} {entry : SponsoredInformationHeader} {part : Coin}
    {s marked : SetUsedState} (h : markCancelled docs call index item entry part s = .ok marked)
    {j : ℕ} (hne : index ≠ j) :
    marked.sponsoredInformations[j]? = s.sponsoredInformations[j]? := by
  unfold markCancelled at h
  cases htype : call.type with
  | apply =>
      simp only [htype] at h
      obtain ⟨_, h⟩ := require_bind_ok_iff.mp h
      rw [← pure_ok_iff.mp h]
      cases call.pretend with
      | true => rfl
      | false => exact List.getElem?_set_ne hne
  | revert =>
      simp only [htype] at h
      obtain ⟨_, h⟩ := require_bind_ok_iff.mp h
      obtain ⟨_, h⟩ := require_bind_ok_iff.mp h
      rw [← pure_ok_iff.mp h]
      cases call.pretend with
      | true => rfl
      | false => exact List.getElem?_set_ne hne

theorem setUsedLoop_others {docs : Documents} {call : SetUsedCall} {timePointsUsed : ℕ}
    (named : call.transactionHashToCancel ≠ "") {index : List ℕ} {s : SetUsedState}
    (others : ∀ i ∈ index, ∃ item, s.sponsoredInformations[i]? = some item ∧
      item.transactionHash ≠ call.transactionHashToCancel) :
    setUsedLoop docs call timePointsUsed index s = .ok s := by
  induction index with
  | nil => rfl
  | cons i rest ih =>
      rw [List.forall_mem_cons] at others
      obtain ⟨⟨item, hitem, hother⟩, others⟩ := others
      rw [setUsedLoop, hitem]
      dsimp only
      by_cases hstart : call.endTp ≤ item.startTimePoint
      · rw [if_pos hstart]
      · rw [if_neg hstart, if_neg (fun h => named h.1), if_pos ⟨named, hother⟩]
        exact ih others

/-- The walk for one hash. -/
theorem setUsedLoop_target {docs : Documents} {call : SetUsedCall} {timePointsUsed : ℕ}
    (named : call.transactionHashToCancel ≠ "") {index : List ℕ} {s : SetUsedState}
    (nodup : index.Nodup) (inside : ∀ i ∈ index, i < s.sponsoredInformations.length)
    (differ : HashesDiffer s.sponsoredInformations) (fresh : s.result = []) :
    setUsedLoop docs call timePointsUsed index s =
      match target s.sponsoredInformations index call.endTp call.transactionHashToCancel with
      | none => .ok s
      | some (i, item) => settleTarget docs call timePointsUsed i item s := by
  induction index with
  | nil => rfl
  | cons i rest ih =>
      rw [List.forall_mem_cons] at inside
      rw [List.nodup_cons] at nodup
      obtain ⟨item, hitem⟩ : ∃ item, s.sponsoredInformations[i]? = some item :=
        ⟨_, List.getElem?_eq_getElem inside.1⟩
      rw [setUsedLoop, target, reached, List.filterMap_cons, hitem]
      simp only [Option.map_some, List.takeWhile_cons]
      by_cases hstart : call.endTp ≤ item.startTimePoint
      · rw [if_pos hstart]
        simp [not_lt.mpr hstart]
      · rw [if_neg hstart, if_neg (fun h => named h.1)]
        simp only [not_le.mp hstart, decide_true, if_true, List.find?_cons]
        by_cases hhash : item.transactionHash = call.transactionHashToCancel
        · rw [if_neg (fun h => h.2 hhash)]
          have hfound := decide_eq_true hhash
          simp only [hfound]
          -- whatever the call does here, the rest of the walk has other hashes
          have onwards : ∀ after : SetUsedState,
              (∀ j, i ≠ j → after.sponsoredInformations[j]? = s.sponsoredInformations[j]?) →
              setUsedLoop docs call timePointsUsed rest after = .ok after := by
            intro after hafter
            apply setUsedLoop_others named
            intro j hj
            have hne : i ≠ j := by
              rintro rfl
              exact nodup.1 hj
            obtain ⟨other, hother⟩ : ∃ other, s.sponsoredInformations[j]? = some other :=
              ⟨_, List.getElem?_eq_getElem (inside.2 j hj)⟩
            refine ⟨other, (hafter j hne).trans hother, ?_⟩
            rw [← hhash]
            intro heq
            exact hne (differ.index_eq hitem hother heq.symm)
          rw [settleTarget]
          congr 1
          funext part
          by_cases hpart : part = 0
          · rw [if_pos hpart, if_pos hpart]
            exact onwards s fun _ _ => rfl
          · rw [if_neg hpart, if_neg hpart, fresh, require_true (by simp), ok_bind, List.nil_append]
            have hidle : ({ s with result := [] } : SetUsedState) = s := by rw [← fresh]
            rw [hidle, payTarget, if_neg named]
            by_cases hmanual : call.manualByAccount ≠ "" ∧
                item.sponsorAddress ≠ call.manualByAccount
            · rw [if_pos hmanual, if_pos hmanual]
            · rw [if_neg hmanual, if_neg hmanual]
              congr 1
              funext entry
              by_cases hcancelled : call.type = .apply ∧ item.cancelled = true
              · rw [if_pos hcancelled, if_pos hcancelled]
              · rw [if_neg hcancelled, if_neg hcancelled]
                cases hmark : markCancelled docs call i item entry part
                    { s with result := [⟨item.sponsorAddress, item.transactionHash, part⟩] } with
                | error e => rfl
                | ok marked =>
                    exact onwards marked fun j hne => markCancelled_getElem? hmark hne
        · rw [if_pos ⟨named, hhash⟩, ih nodup.2 inside.2]
          simp only [hhash, decide_false]
          rfl

variable [EntrySort]

/-- What every run keeps of the sponsorships of a unit. -/
structure Orderly (cusi : ContentUnitSponsoredInformation) : Prop where
  items : cusi.sponsoredInformations ≠ []
  times : cusi.timePointsUsed ≠ []
  used : ∀ item ∈ cusi.sponsoredInformations,
    item.timePointsUsedBefore ≤ cusi.timePointsUsed.length
  differ : HashesDiffer cusi.sponsoredInformations
  nodup : cusi.indexSi.Nodup
  refreshed : Refreshed cusi

def paidUntil (cusi : ContentUnitSponsoredInformation) (item : SponsoredInformation) : ℤ :=
  if item.timePointsUsedBefore = cusi.timePointsUsed.length then item.startTimePoint
  else max (lastUsed cusi) item.startTimePoint

/-- A sponsorship of a unit of which something is left to pay. -/
structure Unpaid where
  index : ℕ
  item : SponsoredInformation
  part : Coin

/-- The sponsorship of a hash that a call up to a time comes to, if something is left of it. -/
def unpaid (cusi : ContentUnitSponsoredInformation) (endTp : ℤ) (hash : String) :
    Checked (Option Unpaid) :=
  match target cusi.sponsoredInformations cusi.indexSi endTp hash with
  | none => pure none
  | some (index, item) =>
      if lastUsed cusi < endTp then do
        let part ← paidPart item (paidUntil cusi item) item.endTimePoint
        pure (if part = 0 then none else some ⟨index, item, part⟩)
      else pure none

def payTime (chain : Blockchain) (blockNumber : ℕ) : ℤ :=
  chain.lastHeader.timeSigned +
    (blockMineDelay * (blockNumber - chain.lastHeader.blockNumber.toNat) : ℕ)

def NextTo (chain : Blockchain) (blockNumber : ℕ) : Prop :=
  blockNumber = chain.lastHeader.blockNumber.toNat ∨
    blockNumber = chain.lastHeader.blockNumber.toNat + 1

omit [EntrySort] in
theorem nextTo_length (chain : Blockchain) : NextTo chain chain.length :=
  .inr chain.lastHeader_number.symm

def payUnpaid (docs : Documents) (call : SetUsedCall) (uri : String)
    (cusi : ContentUnitSponsoredInformation) (u : Unpaid) :
    Checked (Documents × List SponsorPayment) := do
  let after ← payTarget docs call u.index u.item u.part
    ⟨cusi.sponsoredInformations, docs.expiring, []⟩
  pure ({ docs with
    sponsored := docs.sponsored.insert uri
      { cusi with sponsoredInformations := after.sponsoredInformations }
    expiring := after.expiring }, after.result)

def hashCall (cusi : ContentUnitSponsoredInformation) (type : SetUsed) (hash manual : String)
    (pretend : Bool) (endTp : ℤ) : SetUsedCall :=
  ⟨type, hash, manual, pretend && type = .apply, endTp, lastUsed cusi⟩

omit [EntrySort] in
theorem insert_self {table : Std.ExtTreeMap String ContentUnitSponsoredInformation} {uri : String}
    {cusi : ContentUnitSponsoredInformation} (h : table[uri]? = some cusi) :
    table.insert uri cusi = table := by
  apply Std.ExtTreeMap.ext_getElem?
  intro key
  rw [Std.ExtTreeMap.getElem?_insert]
  by_cases hkey : uri = key
  · simp [← hkey, h]
  · simp [hkey]

/-- The payer's walk for one hash, on the unit alone. -/
theorem payUsed_hash (docs : Documents) {cusi : ContentUnitSponsoredInformation}
    (orderly : Orderly cusi) (type : SetUsed) {hash : String} (named : hash ≠ "")
    (manual : String) (pretend : Bool) (endTp : ℤ) :
    payUsed docs (hashCall cusi type hash manual pretend endTp) cusi =
      unpaid cusi endTp hash >>= fun u =>
        match u with
        | none => pure (cusi, ⟨cusi.sponsoredInformations, docs.expiring, []⟩)
        | some u => (cusi, ·) <$> payTarget docs (hashCall cusi type hash manual pretend endTp)
            u.index u.item u.part ⟨cusi.sponsoredInformations, docs.expiring, []⟩ := by
  have hpays : paysNow (hashCall cusi type hash manual pretend endTp) =
      decide (lastUsed cusi < endTp) := by
    unfold paysNow hashCall
    cases type with
    | apply => rfl
    | revert => simp [named]
  have hrewind : rewind (hashCall cusi type hash manual pretend endTp) cusi = .ok cusi :=
    if_neg fun h => named h.2
  have hinterval (item : SponsoredInformation) :
      paidInterval (hashCall cusi type hash manual pretend endTp) cusi.timePointsUsed.length item =
        (paidUntil cusi item, item.endTimePoint) := by
    simp only [paidInterval, hashCall, paidUntil, ne_eq, named, not_false_eq_true, if_true]
  have hwalk := @setUsedLoop_target docs (hashCall cusi type hash manual pretend endTp)
    cusi.timePointsUsed.length named cusi.indexSi ⟨cusi.sponsoredInformations, docs.expiring, []⟩
    orderly.nodup (fun i hi => orderly.refreshed.lt hi) orderly.differ rfl
  change setUsedLoop _ _ _ _ _ = match target cusi.sponsoredInformations cusi.indexSi endTp hash with
    | none => _
    | some (i, item) => _ at hwalk
  rw [payUsed, hpays, unpaid]
  by_cases hlate : lastUsed cusi < endTp
  · rw [if_pos (decide_eq_true hlate), hrewind, ok_bind]
    change setUsedLoop docs (hashCall cusi type hash manual pretend endTp) _ _ _ >>= _ = _
    rw [hwalk]
    cases htarget : target cusi.sponsoredInformations cusi.indexSi endTp hash with
    | none => rfl
    | some found =>
        obtain ⟨i, item⟩ := found
        dsimp only
        rw [if_pos hlate, settleTarget, hinterval]
        dsimp only
        cases paidPart item (paidUntil cusi item) item.endTimePoint with
        | error e => rfl
        | ok part =>
            by_cases hpart : part = 0
            · simp only [ok_bind, hpart, if_true, pure_bind]
            · simp only [ok_bind, hpart, if_false, pure_bind]
              rfl
  · rw [if_neg (by simpa using hlate)]
    cases target cusi.sponsoredInformations cusi.indexSi endTp hash with
    | none => rfl
    | some found =>
        dsimp only
        rw [if_neg hlate]
        rfl

omit [EntrySort] in
theorem sponsored_self {docs : Documents} {uri : String} {cusi : ContentUnitSponsoredInformation}
    (h : docs.sponsored[uri]? = some cusi) :
    { docs with sponsored := docs.sponsored.insert uri cusi } = docs := by
  rw [insert_self h]

/-- `sponsored_content_unit_set_used` for one hash. -/
theorem setUsed_hash {docs : Documents} {uri : String}
    (orderly : ∀ cusi, docs.sponsored[uri]? = some cusi → Orderly cusi) {chain : Blockchain}
    {blockNumber : ℕ} (near : NextTo chain blockNumber) (type : SetUsed) {hash : String}
    (named : hash ≠ "") (manual : String) (pretend : Bool) :
    docs.sponsoredContentUnitSetUsed chain uri blockNumber type hash manual pretend =
      match docs.sponsored[uri]? with
      | none => .ok (docs, [])
      | some cusi => unpaid cusi (payTime chain blockNumber) hash >>= fun u =>
          match u with
          | none => .ok (docs, [])
          | some u => docs.payUnpaid
              (hashCall cusi type hash manual pretend (payTime chain blockNumber)) uri cusi u := by
  unfold NextTo at near
  rw [sponsoredContentUnitSetUsed, require_true near, ok_bind]
  cases hunit : docs.sponsored[uri]? with
  | none => rfl
  | some cusi =>
      have sound := orderly cusi hunit
      dsimp only
      rw [require_true sound.items, ok_bind, require_true sound.times, ok_bind]
      have hcall : (⟨type, hash, manual, pretend && decide (hash ≠ "") && decide (type = .apply),
          payTime chain blockNumber, lastUsed cusi⟩ : SetUsedCall) =
          hashCall cusi type hash manual pretend (payTime chain blockNumber) := by
        simp [hashCall, named]
      rw [payTime] at hcall
      have hnote (unit : ContentUnitSponsoredInformation) : noteUsed
          (hashCall cusi type hash manual pretend (payTime chain blockNumber)) unit = .ok unit :=
        if_neg fun h => named h.2
      have hpay := payUsed_hash docs sound type named manual pretend (payTime chain blockNumber)
      rw [hcall, ← payTime, hpay, bind_assoc]
      congr 1
      funext u
      cases u with
      | none =>
          rw [pure_bind]
          dsimp only
          rw [hnote, ok_bind, sponsored_self hunit]
          rfl
      | some u =>
          dsimp only
          rw [payUnpaid, map_eq_pure_bind, bind_assoc]
          congr 1
          funext after
          rw [pure_bind]
          dsimp only
          rw [hnote, ok_bind]

end Publiq.Documents
