import Publiq.SponsorshipWalk

/-! What every run keeps of the sponsorships and of their expiration entries. -/
namespace Publiq.Documents
open Message Checked

variable [EntrySort]

def Recorded (docs : Documents) (uri : String) (item : SponsoredInformation) : Prop :=
  ∃ number manuallyCancelled, docs.hashToBlock[item.transactionHash]? = some number ∧
    (docs.expiring.get number)[item.transactionHash]? =
      some ⟨uri, item.transactionHash, number, manuallyCancelled⟩ ∧
    (manuallyCancelled ≠ 0 → item.cancelled = true)

/-- What every run keeps of the sponsorships. -/
structure SponsorshipsSound (docs : Documents) : Prop where
  orderly : ∀ (uri : String) cusi, docs.sponsored[uri]? = some cusi → Orderly cusi
  recorded : ∀ (uri : String) cusi, docs.sponsored[uri]? = some cusi →
    ∀ item ∈ cusi.sponsoredInformations, Recorded docs uri item
  /-- No entry is forgotten by its hash. -/
  listed : ∀ number (hash : String) entry, (docs.expiring.get number)[hash]? = some entry →
    docs.hashToBlock[hash]? = some number

theorem sponsorshipsSound_default : SponsorshipsSound default := by
  refine ⟨fun uri cusi h => ?_, fun uri cusi h => ?_, fun number hash entry h => ?_⟩
  · change (∅ : Std.ExtTreeMap String ContentUnitSponsoredInformation)[uri]? = some cusi at h
    simp at h
  · change (∅ : Std.ExtTreeMap String ContentUnitSponsoredInformation)[uri]? = some cusi at h
    simp at h
  · change ((∅ : SparseMap ℕ SponsoredInformationHeaders).get number)[hash]? = some entry at h
    rw [SparseMap.get_empty] at h
    change (∅ : SponsoredInformationHeaders)[hash]? = some entry at h
    simp at h

omit [EntrySort] in
theorem expirationEntryByHash_ok_iff {docs : Documents} {hash : String}
    {entry : SponsoredInformationHeader} : docs.expirationEntryByHash hash = .ok entry ↔
      ∃ number, docs.hashToBlock[hash]? = some number ∧
        (docs.expiring.get number)[hash]? = some entry := by
  unfold expirationEntryByHash
  cases hnumber : docs.hashToBlock[hash]? with
  | none => simp
  | some number =>
      simp only [Option.some.injEq, exists_eq_left', expirationEntryByBlockByHash,
        expirationEntryByBlock, bind_assoc, require_bind_ok_iff, pure_bind]
      constructor
      · rintro ⟨_, h⟩
        cases hentry : (docs.expiring.get number)[hash]? with
        | none => simp [hentry] at h
        | some found =>
            simp only [hentry] at h
            rw [pure_ok_iff.mp h]
      · intro h
        refine ⟨?_, by rw [h]; rfl⟩
        rw [SparseMap.contains_iff]
        intro hempty
        rw [hempty] at h
        change (∅ : SponsoredInformationHeaders)[hash]? = some entry at h
        simp at h

omit [EntrySort] in
theorem Recorded.entry {docs : Documents} {uri : String} {item : SponsoredInformation}
    (recorded : Recorded docs uri item) : ∃ number manuallyCancelled,
      docs.hashToBlock[item.transactionHash]? = some number ∧
      docs.expirationEntryByHash item.transactionHash =
        .ok ⟨uri, item.transactionHash, number, manuallyCancelled⟩ ∧
      (manuallyCancelled ≠ 0 → item.cancelled = true) := by
  obtain ⟨number, manuallyCancelled, hnumber, hentry, hcancelled⟩ := recorded
  exact ⟨number, manuallyCancelled, hnumber,
    expirationEntryByHash_ok_iff.mpr ⟨number, hnumber, hentry⟩, hcancelled⟩

/-- The sponsorships of a unit with one of them marked, or not marked. -/
def withMark (cusi : ContentUnitSponsoredInformation) (index : ℕ) (item : SponsoredInformation)
    (cancelled : Bool) : ContentUnitSponsoredInformation :=
  { cusi with
    sponsoredInformations := cusi.sponsoredInformations.set index { item with cancelled } }

/-- The documents with a sponsorship marked, and what its sponsor got back in its entry. -/
def settled (docs : Documents) (uri : String) (cusi : ContentUnitSponsoredInformation) (u : Unpaid)
    (entry : SponsoredInformationHeader) (manual : String) (cancelled : Bool) : Documents :=
  { docs with
    sponsored := docs.sponsored.insert uri (withMark cusi u.index u.item cancelled)
    expiring :=
      if manual ≠ "" then
        docs.expiring.set entry.blockNumber ((docs.expiring.get entry.blockNumber).insert
          u.item.transactionHash
          { entry with manuallyCancelled := if cancelled then u.part else 0 })
      else docs.expiring }

def Unpaid.payment (u : Unpaid) : SponsorPayment :=
  ⟨u.item.sponsorAddress, u.item.transactionHash, u.part⟩

omit [EntrySort] in
/-- What `unpaid` finds is a sponsorship of the unit. -/
theorem unpaid_some {cusi : ContentUnitSponsoredInformation} {endTp : ℤ} {hash : String}
    {u : Unpaid} (h : unpaid cusi endTp hash = .ok (some u)) :
    target cusi.sponsoredInformations cusi.indexSi endTp hash = some (u.index, u.item) ∧
      lastUsed cusi < endTp ∧ u.part ≠ 0 ∧
      paidPart u.item (paidUntil cusi u.item) u.item.endTimePoint = .ok u.part := by
  unfold unpaid at h
  cases htarget : target cusi.sponsoredInformations cusi.indexSi endTp hash with
  | none => simp [htarget, pure, Except.pure] at h
  | some found =>
      obtain ⟨index, item⟩ := found
      simp only [htarget] at h
      split_ifs at h with hlate
      · obtain ⟨part, hpart, h⟩ := bind_ok_iff.mp h
        have h := pure_ok_iff.mp h
        split_ifs at h with hzero
        cases h
        exact ⟨rfl, hlate, hzero, hpart⟩
      · cases pure_ok_iff.mp h

omit [EntrySort] in
theorem Unpaid.item_of_unpaid {cusi : ContentUnitSponsoredInformation} {endTp : ℤ} {hash : String}
    {u : Unpaid} (h : unpaid cusi endTp hash = .ok (some u)) :
    cusi.sponsoredInformations[u.index]? = some u.item ∧ u.item.transactionHash = hash := by
  obtain ⟨_, hitem, hhash, _⟩ := target_some (unpaid_some h).1
  exact ⟨hitem, hhash⟩

/-- `payUnpaid` with the entry it reads. -/
theorem payUnpaid_eq {docs : Documents} {uri : String} {cusi : ContentUnitSponsoredInformation}
    (stored : docs.sponsored[uri]? = some cusi) {call : SetUsedCall} {u : Unpaid} {number : ℕ}
    {manuallyCancelled : Coin}
    (listed : docs.hashToBlock[u.item.transactionHash]? = some number)
    (found : docs.expirationEntryByHash u.item.transactionHash =
      .ok ⟨uri, u.item.transactionHash, number, manuallyCancelled⟩) :
    docs.payUnpaid call uri cusi u =
      if call.manualByAccount ≠ "" ∧ u.item.sponsorAddress ≠ call.manualByAccount then
        if call.pretend then .ok (docs, [])
        else .error (.authority call.manualByAccount u.item.sponsorAddress)
      else if call.type = .apply ∧ u.item.cancelled = true then
        if call.pretend then .ok (docs, [])
        else if call.manualByAccount ≠ "" then .error (.wrongData "already cancelled")
        else .error (.logicError "already cancelled")
      else if call.type = .apply ∧ manuallyCancelled ≠ 0 then
        .error (.logicError "StorageTypes::Coin() != expiration_entry.manually_cancelled")
      else if call.type = .revert ∧ u.item.cancelled = false then
        .error (.logicError "false == item.cancelled")
      else if call.type = .revert ∧
          ¬ (call.manualByAccount ≠ "" ↔ manuallyCancelled ≠ 0) then
        .error (.logicError
          "manual != (expiration_entry.manually_cancelled != StorageTypes::Coin())")
      else .ok (if call.pretend then docs else docs.settled uri cusi u
        ⟨uri, u.item.transactionHash, number, manuallyCancelled⟩ call.manualByAccount
        (call.type = .apply), [u.payment]) := by
  have hself : ({ docs with sponsored := docs.sponsored.insert uri cusi } : Documents) = docs :=
    sponsored_self stored
  rw [payUnpaid, payTarget]
  by_cases hmanual : call.manualByAccount ≠ "" ∧ u.item.sponsorAddress ≠ call.manualByAccount
  · rw [if_pos hmanual, if_pos hmanual]
    cases call.pretend with
    | true => exact congrArg (fun d => Except.ok (d, [])) hself
    | false => rfl
  · rw [if_neg hmanual, if_neg hmanual]
    change (docs.expirationEntryByHash u.item.transactionHash >>= _) >>= _ = _
    rw [found, ok_bind]
    by_cases hcancelled : call.type = .apply ∧ u.item.cancelled = true
    · rw [if_pos hcancelled, if_pos hcancelled]
      cases call.pretend with
      | true => exact congrArg (fun d => Except.ok (d, [])) hself
      | false =>
          by_cases hnamed : call.manualByAccount ≠ ""
          · simp only [Bool.false_eq_true, if_false, if_pos hnamed]
            rfl
          · simp only [Bool.false_eq_true, if_false, if_neg hnamed]
            rfl
    · rw [if_neg hcancelled, if_neg hcancelled, markCancelled, listed]
      dsimp only
      cases htype : call.type with
      | apply =>
          simp only [reduceCtorEq, false_and, if_false, true_and, decide_true]
          by_cases hzero : manuallyCancelled = 0
          · simp only [hzero, require_true, ok_bind, ne_eq, not_true, if_false]
            cases call.pretend with
            | true => exact congrArg (fun d => Except.ok (d, [u.payment])) hself
            | false => rfl
          · rw [require_false hzero, error_bind, error_bind, if_pos hzero]
      | revert =>
          simp only [reduceCtorEq, false_and, if_false, true_and, decide_false]
          by_cases hmarked : u.item.cancelled = true
          · simp only [hmarked, require_true, ok_bind, Bool.true_eq_false, if_false]
            by_cases hagree : call.manualByAccount ≠ "" ↔ manuallyCancelled ≠ 0
            · rw [require_true hagree, ok_bind, if_neg (not_not.mpr hagree)]
              cases call.pretend with
              | true => exact congrArg (fun d => Except.ok (d, [u.payment])) hself
              | false => rfl
            · rw [require_false hagree, error_bind, error_bind, if_pos hagree]
          · rw [require_false hmarked, error_bind, error_bind,
              if_pos (Bool.eq_false_iff.mpr hmarked)]

section
variable {cusi : ContentUnitSponsoredInformation} {index : ℕ} {item : SponsoredInformation}
  {cancelled : Bool}

omit [EntrySort] in
theorem withMark_getElem? (there : cusi.sponsoredInformations[index]? = some item) (j : ℕ) :
    (withMark cusi index item cancelled).sponsoredInformations[j]? =
      if index = j then some { item with cancelled } else cusi.sponsoredInformations[j]? := by
  have hlt := (List.getElem?_eq_some_iff.mp there).1
  change (cusi.sponsoredInformations.set index { item with cancelled })[j]? = _
  rw [List.getElem?_set]
  split_ifs
  · rfl
  · rfl

omit [EntrySort] in
theorem indexEntry_withMark (there : cusi.sponsoredInformations[index]? = some item) (j : ℕ) :
    indexEntry (withMark cusi index item cancelled) j = indexEntry cusi j := by
  unfold indexEntry
  rw [withMark_getElem? there]
  split_ifs with h
  · rw [← h, there]
    rfl
  · rfl

omit [EntrySort] in
theorem map_withMark {β : Type} {f : SponsoredInformation → β}
    (same : f { item with cancelled } = f item)
    (there : cusi.sponsoredInformations[index]? = some item) :
    (withMark cusi index item cancelled).sponsoredInformations.map f =
      cusi.sponsoredInformations.map f := by
  apply List.ext_getElem?
  intro j
  rw [List.getElem?_map, withMark_getElem? there, List.getElem?_map]
  split_ifs with h
  · rw [← h, there, Option.map_some, Option.map_some, same]
  · rfl

/-- A mark changes nothing of the order. -/
theorem Orderly.withMark (orderly : Orderly cusi)
    (there : cusi.sponsoredInformations[index]? = some item) :
    Orderly (withMark cusi index item cancelled) := by
  have hused : ∀ other ∈ (Documents.withMark cusi index item cancelled).sponsoredInformations,
      other.timePointsUsedBefore ≤ cusi.timePointsUsed.length := by
    intro other hmem
    have hcount := List.mem_map_of_mem (f := SponsoredInformation.timePointsUsedBefore) hmem
    rw [map_withMark (by rfl) there] at hcount
    obtain ⟨before, hbefore, heq⟩ := List.mem_map.mp hcount
    exact heq ▸ orderly.used before hbefore
  constructor
  · have hsponsors : (Documents.withMark cusi index item cancelled).sponsoredInformations.map
        SponsoredInformation.sponsorAddress =
        cusi.sponsoredInformations.map SponsoredInformation.sponsorAddress :=
      map_withMark (by rfl) there
    have hlength := congrArg List.length hsponsors
    rw [List.length_map, List.length_map] at hlength
    intro hnil
    rw [hnil, List.length_nil] at hlength
    exact orderly.items (List.eq_nil_of_length_eq_zero hlength.symm)
  · exact orderly.times
  · exact hused
  · have hdiffer := orderly.differ
    unfold HashesDiffer at hdiffer ⊢
    rw [map_withMark (by rfl) there]
    exact hdiffer
  · exact orderly.nodup
  · have hsorted (indices : List ℕ) :
        sortedEntries (Documents.withMark cusi index item cancelled) indices =
          sortedEntries cusi indices := by
      rw [sortedEntries, sortedEntries]
      congr 2
      funext j
      exact indexEntry_withMark there j
    obtain ⟨before, h⟩ := orderly.refreshed
    refine ⟨before, refreshIndex_ok_iff.mpr ⟨?_, ?_⟩⟩
    · intro j _ other hother
      exact hused other (List.mem_of_getElem? (Option.mem_def.mp hother))
    · change _ = ContentUnitSponsoredInformation.mk _ _ _
        ((sortedEntries (Documents.withMark cusi index item cancelled) before).map Prod.snd)
      rw [hsorted before]
      exact congrArg (ContentUnitSponsoredInformation.mk _ _ _)
        (congrArg ContentUnitSponsoredInformation.indexSi (refreshIndex_ok_iff.mp h).2)

end

section
variable {docs : Documents}

omit [EntrySort] in
theorem Recorded.uri_eq {uri other : String} {item another : SponsoredInformation}
    (h : Recorded docs uri item) (h' : Recorded docs other another)
    (same : item.transactionHash = another.transactionHash) : uri = other := by
  obtain ⟨number, _, hnumber, hentry, _⟩ := h
  obtain ⟨number', _, hnumber', hentry', _⟩ := h'
  rw [same] at hnumber hentry
  cases hnumber.symm.trans hnumber'
  exact congrArg SponsoredInformationHeader.uri (Option.some.inj (hentry.symm.trans hentry'))

omit [EntrySort] in
theorem Recorded.congr {after : Documents} {uri : String} {item : SponsoredInformation}
    (h : Recorded docs uri item)
    (number : after.hashToBlock[item.transactionHash]? = docs.hashToBlock[item.transactionHash]?)
    (entry : ∀ n, (after.expiring.get n)[item.transactionHash]? =
      (docs.expiring.get n)[item.transactionHash]?) : Recorded after uri item := by
  obtain ⟨n, manuallyCancelled, hnumber, hentry, hcancelled⟩ := h
  exact ⟨n, manuallyCancelled, number.trans hnumber, (entry n).trans hentry, hcancelled⟩

omit [EntrySort] in
theorem getElem?_set_insert (expiring : SparseMap ℕ SponsoredInformationHeaders) (number : ℕ)
    (hash : String) (entry : SponsoredInformationHeader) (n : ℕ) (key : String) :
    ((expiring.set number ((expiring.get number).insert hash entry)).get n)[key]? =
      if number = n ∧ hash = key then some entry else (expiring.get n)[key]? := by
  rw [SparseMap.get_set]
  by_cases hn : number = n
  · rw [if_pos hn, Std.ExtTreeMap.getElem?_insert, hn]
    by_cases hkey : hash = key
    · simp [hkey]
    · simp [hkey]
  · rw [if_neg hn, if_neg fun h => hn h.1]

omit [EntrySort] in
theorem settled_expiring (docs : Documents) (uri : String) (cusi : ContentUnitSponsoredInformation)
    (u : Unpaid) (entry : SponsoredInformationHeader) (manual : String) (cancelled : Bool) (n : ℕ)
    (key : String) :
    ((docs.settled uri cusi u entry manual cancelled).expiring.get n)[key]? =
      if manual ≠ "" ∧ entry.blockNumber = n ∧ u.item.transactionHash = key then
        some { entry with manuallyCancelled := if cancelled then u.part else 0 }
      else (docs.expiring.get n)[key]? := by
  have hsettled : (docs.settled uri cusi u entry manual cancelled).expiring =
      if manual ≠ "" then docs.expiring.set entry.blockNumber
        ((docs.expiring.get entry.blockNumber).insert u.item.transactionHash
          { entry with manuallyCancelled := if cancelled then u.part else 0 })
      else docs.expiring := rfl
  rw [hsettled]
  by_cases hmanual : manual ≠ ""
  · rw [if_pos hmanual, getElem?_set_insert]
    exact if_congr (and_iff_right hmanual).symm rfl rfl
  · rw [if_neg hmanual, if_neg fun h => hmanual h.1]

/-- Marking a sponsorship keeps the sponsorships sound. -/
theorem SponsorshipsSound.settled (sound : SponsorshipsSound docs) {uri : String}
    {cusi : ContentUnitSponsoredInformation} (stored : docs.sponsored[uri]? = some cusi)
    {u : Unpaid} (there : cusi.sponsoredInformations[u.index]? = some u.item) {number : ℕ}
    {manuallyCancelled : Coin}
    (listed : docs.hashToBlock[u.item.transactionHash]? = some number)
    (found : docs.expirationEntryByHash u.item.transactionHash =
      .ok ⟨uri, u.item.transactionHash, number, manuallyCancelled⟩) {manual : String}
    {cancelled : Bool} (agree : cancelled = false → manual = "" → manuallyCancelled = 0) :
    SponsorshipsSound (docs.settled uri cusi u
      ⟨uri, u.item.transactionHash, number, manuallyCancelled⟩ manual cancelled) := by
  have hrecorded := sound.recorded uri cusi stored u.item (List.mem_of_getElem? there)
  -- every other sponsorship has another hash
  have others : ∀ other item, Recorded docs other item →
      item.transactionHash ≠ u.item.transactionHash →
      Recorded (docs.settled uri cusi u ⟨uri, u.item.transactionHash, number, manuallyCancelled⟩
        manual cancelled) other item := by
    intro other item h hne
    refine h.congr rfl fun n => ?_
    rw [settled_expiring, if_neg fun h => hne h.2.2.symm]
  constructor
  · intro other unit hunit
    change (docs.sponsored.insert uri _)[other]? = some unit at hunit
    rw [Std.ExtTreeMap.getElem?_insert] at hunit
    split_ifs at hunit
    · cases hunit
      exact (sound.orderly uri cusi stored).withMark there
    · exact sound.orderly other unit hunit
  · intro other unit hunit item hitem
    change (docs.sponsored.insert uri _)[other]? = some unit at hunit
    rw [Std.ExtTreeMap.getElem?_insert] at hunit
    split_ifs at hunit with huri
    · cases hunit
      obtain ⟨j, hj⟩ := List.getElem?_of_mem hitem
      rw [withMark_getElem? there] at hj
      have huri : uri = other := by simpa using huri
      subst huri
      split_ifs at hj with hindex
      · cases hj
        obtain ⟨_, hnumber, hentry⟩ := expirationEntryByHash_ok_iff.mp found
        cases listed.symm.trans hnumber
        by_cases hmanual : manual ≠ ""
        · refine ⟨number, if cancelled then u.part else 0, listed, ?_, ?_⟩
          · rw [settled_expiring, if_pos ⟨hmanual, rfl, rfl⟩]
          · intro hne
            by_contra hnot
            simp [hnot] at hne
        · refine ⟨number, manuallyCancelled, listed, ?_, ?_⟩
          · rw [settled_expiring, if_neg fun h => hmanual h.1]
            exact hentry
          · intro hne
            by_contra hnot
            exact hne (agree (Bool.eq_false_iff.mpr hnot) (not_not.mp hmanual))
      · apply others uri item (sound.recorded uri cusi stored item (List.mem_of_getElem? hj))
        intro hsame
        exact hindex ((sound.orderly uri cusi stored).differ.index_eq there hj hsame.symm)
    · have h := sound.recorded other unit hunit item hitem
      apply others other item h
      intro hsame
      apply huri
      rw [hrecorded.uri_eq h hsame.symm]
      simp
  · intro n hash entry hentry
    rw [settled_expiring] at hentry
    by_cases h : manual ≠ "" ∧ number = n ∧ u.item.transactionHash = hash
    · rw [← h.2.2, ← h.2.1]
      exact listed
    · rw [if_neg h] at hentry
      exact sound.listed n hash entry hentry

end

end Publiq.Documents
