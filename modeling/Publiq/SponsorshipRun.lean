import Publiq.SponsorshipStore

/-! The sponsorships stay sound whatever is sponsored, viewed, cancelled, or taken back. -/
namespace Publiq.Documents
open Message Checked

variable [EntrySort]

/-- What is paid out, and what has to hold for it. -/
theorem payUnpaid_cases {docs after : Documents} {uri : String}
    {cusi : ContentUnitSponsoredInformation} (stored : docs.sponsored[uri]? = some cusi)
    {call : SetUsedCall} {u : Unpaid} {number : ℕ} {manuallyCancelled : Coin}
    (listed : docs.hashToBlock[u.item.transactionHash]? = some number)
    (found : docs.expirationEntryByHash u.item.transactionHash =
      .ok ⟨uri, u.item.transactionHash, number, manuallyCancelled⟩)
    {payments : List SponsorPayment} (h : docs.payUnpaid call uri cusi u = .ok (after, payments)) :
    (call.pretend = true ∧ after = docs ∧ payments = []) ∨
    (call.manualByAccount ≠ "" → u.item.sponsorAddress = call.manualByAccount) ∧
      (call.type = .apply → u.item.cancelled = false ∧ manuallyCancelled = 0) ∧
      (call.type = .revert → u.item.cancelled = true ∧
        (call.manualByAccount ≠ "" ↔ manuallyCancelled ≠ 0)) ∧
      payments = [u.payment] ∧
      after = if call.pretend then docs else docs.settled uri cusi u
        ⟨uri, u.item.transactionHash, number, manuallyCancelled⟩ call.manualByAccount
        (call.type = .apply) := by
  rw [payUnpaid_eq stored listed found] at h
  by_cases hmanual : call.manualByAccount ≠ "" ∧ u.item.sponsorAddress ≠ call.manualByAccount
  · rw [if_pos hmanual] at h
    split_ifs at h with hpretend
    cases h
    exact .inl ⟨hpretend, rfl, rfl⟩
  rw [if_neg hmanual] at h
  by_cases hcancelled : call.type = .apply ∧ u.item.cancelled = true
  · rw [if_pos hcancelled] at h
    split_ifs at h with hpretend
    cases h
    exact .inl ⟨hpretend, rfl, rfl⟩
  rw [if_neg hcancelled] at h
  by_cases hzero : call.type = .apply ∧ manuallyCancelled ≠ 0
  · rw [if_pos hzero] at h
    cases h
  rw [if_neg hzero] at h
  by_cases hmarked : call.type = .revert ∧ u.item.cancelled = false
  · rw [if_pos hmarked] at h
    cases h
  rw [if_neg hmarked] at h
  by_cases hagree : call.type = .revert ∧ ¬ (call.manualByAccount ≠ "" ↔ manuallyCancelled ≠ 0)
  · rw [if_pos hagree] at h
    cases h
  rw [if_neg hagree] at h
  cases h
  refine .inr ⟨fun hnamed => ?_, fun htype => ⟨?_, ?_⟩, fun htype => ⟨?_, ?_⟩, rfl, rfl⟩
  · by_contra hne
    exact hmanual ⟨hnamed, hne⟩
  · exact Bool.eq_false_iff.mpr fun hc => hcancelled ⟨htype, hc⟩
  · by_contra hne
    exact hzero ⟨htype, hne⟩
  · exact Bool.of_not_eq_false fun hc => hmarked ⟨htype, hc⟩
  · by_contra hne
    exact hagree ⟨htype, hne⟩

/-- What one call for a hash does: nothing, or it pays out one sponsorship of the unit. -/
theorem setUsed_hash_cases {docs after : Documents} (sound : SponsorshipsSound docs) {uri : String}
    {chain : Blockchain} {blockNumber : ℕ} (near : NextTo chain blockNumber) {type : SetUsed}
    {hash : String} (named : hash ≠ "") {manual : String} {pretend : Bool}
    {payments : List SponsorPayment}
    (h : docs.sponsoredContentUnitSetUsed chain uri blockNumber type hash manual pretend =
      .ok (after, payments)) :
    (after = docs ∧ payments = []) ∨
    ∃ cusi u number manuallyCancelled, docs.sponsored[uri]? = some cusi ∧
      unpaid cusi (payTime chain blockNumber) hash = .ok (some u) ∧
      docs.hashToBlock[hash]? = some number ∧
      docs.expirationEntryByHash hash = .ok ⟨uri, hash, number, manuallyCancelled⟩ ∧
      (manual ≠ "" → u.item.sponsorAddress = manual) ∧
      (type = .apply → u.item.cancelled = false ∧ manuallyCancelled = 0) ∧
      (type = .revert → u.item.cancelled = true ∧ (manual ≠ "" ↔ manuallyCancelled ≠ 0)) ∧
      payments = [u.payment] ∧
      after = if pretend && type = .apply then docs else
        docs.settled uri cusi u ⟨uri, hash, number, manuallyCancelled⟩ manual (type = .apply) := by
  rw [setUsed_hash (sound.orderly uri) near type named] at h
  cases hunit : docs.sponsored[uri]? with
  | none =>
      rw [hunit] at h
      cases h
      exact .inl ⟨rfl, rfl⟩
  | some cusi =>
      rw [hunit] at h
      obtain ⟨u, hu, h⟩ := bind_ok_iff.mp h
      cases u with
      | none =>
          cases h
          exact .inl ⟨rfl, rfl⟩
      | some u =>
          obtain ⟨hitem, hhash⟩ := Unpaid.item_of_unpaid hu
          obtain ⟨number, manuallyCancelled, hnumber, hentry, _⟩ :=
            (sound.recorded uri cusi hunit u.item (List.mem_of_getElem? hitem)).entry
          rcases payUnpaid_cases hunit hnumber hentry h with hidle | hpaid
          · exact .inl hidle.2
          · rw [hhash] at hnumber hentry hpaid
            exact .inr ⟨cusi, u, number, manuallyCancelled, rfl, hu, hnumber, hentry, hpaid⟩

theorem SponsorshipsSound.setUsed_hash {docs after : Documents} (sound : SponsorshipsSound docs)
    {uri : String} {chain : Blockchain} {blockNumber : ℕ} (near : NextTo chain blockNumber)
    {type : SetUsed} {hash : String} (named : hash ≠ "") {manual : String} {pretend : Bool}
    {payments : List SponsorPayment}
    (h : docs.sponsoredContentUnitSetUsed chain uri blockNumber type hash manual pretend =
      .ok (after, payments)) : SponsorshipsSound after := by
  rcases setUsed_hash_cases sound near named h with ⟨rfl, _⟩ |
    ⟨cusi, u, number, manuallyCancelled, hunit, hu, hnumber, hentry, _, _, hrevert, _, rfl⟩
  · exact sound
  · obtain ⟨hitem, hhash⟩ := Unpaid.item_of_unpaid hu
    rw [← hhash] at hnumber hentry
    split_ifs
    · exact sound
    · rw [← hhash]
      apply sound.settled hunit hitem hnumber hentry
      intro hkeep hmanual
      by_contra hne
      have htype : type = .revert := by
        cases type with
        | apply => simp at hkeep
        | revert => rfl
      exact ((hrevert htype).2.mpr hne) hmanual

/-- What the walk of a view pays: items of the unit that are not cancelled, each once. -/
structure PaysItems (items : List SponsoredInformation) (index : List ℕ)
    (payments : List SponsorPayment) : Prop where
  hashes : (payments.map SponsorPayment.transactionHash).Sublist
    (index.filterMap fun i => items[i]?.map SponsoredInformation.transactionHash)
  items : ∀ payment ∈ payments, ∃ i ∈ index, ∃ item, items[i]? = some item ∧
    item.cancelled = false ∧ payment.transactionHash = item.transactionHash ∧
    payment.sponsorAddress = item.sponsorAddress ∧ payment.amount ≠ 0

omit [EntrySort] in
theorem PaysItems.skip {items : List SponsoredInformation} {index : List ℕ}
    {payments : List SponsorPayment} (h : PaysItems items index payments) (i : ℕ) :
    PaysItems items (i :: index) payments := by
  refine ⟨?_, fun payment hmem => ?_⟩
  · rw [List.filterMap_cons]
    cases items[i]? with
    | none => exact h.hashes
    | some item => exact h.hashes.cons _
  · obtain ⟨j, hj, found⟩ := h.items payment hmem
    exact ⟨j, List.mem_cons_of_mem i hj, found⟩

omit [EntrySort] in
theorem paysItems_nil (items : List SponsoredInformation) (index : List ℕ) :
    PaysItems items index [] := ⟨List.nil_sublist _, fun _ h => nomatch h⟩

omit [EntrySort] in
/-- The walk of a view marks nothing. -/
theorem setUsedLoop_view {docs : Documents} {call : SetUsedCall} {timePointsUsed : ℕ}
    (view : call.transactionHashToCancel = "") (real : call.pretend = false) {index : List ℕ}
    {s after : SetUsedState}
    (h : setUsedLoop docs call timePointsUsed index s = .ok after) :
    after.sponsoredInformations = s.sponsoredInformations ∧ after.expiring = s.expiring ∧
      ∃ payments, after.result = s.result ++ payments ∧
        PaysItems s.sponsoredInformations index payments := by
  induction index generalizing s with
  | nil =>
      cases h
      exact ⟨rfl, rfl, [], (List.append_nil _).symm, paysItems_nil _ _⟩
  | cons i rest ih =>
      have skip : ∀ {s}, setUsedLoop docs call timePointsUsed rest s = .ok after →
          after.sponsoredInformations = s.sponsoredInformations ∧ after.expiring = s.expiring ∧
          ∃ payments, after.result = s.result ++ payments ∧
            PaysItems s.sponsoredInformations (i :: rest) payments := by
        intro s h
        obtain ⟨hitems, hexpiring, payments, hresult, hpays⟩ := ih h
        exact ⟨hitems, hexpiring, payments, hresult, hpays.skip i⟩
      rw [setUsedLoop] at h
      cases hitem : s.sponsoredInformations[i]? with
      | none => simp [hitem] at h
      | some item =>
          simp only [hitem] at h
          by_cases hstart : call.endTp ≤ item.startTimePoint
          · rw [if_pos hstart] at h
            cases h
            exact ⟨rfl, rfl, [], (List.append_nil _).symm, paysItems_nil _ _⟩
          rw [if_neg hstart] at h
          by_cases hcancelled : item.cancelled = true
          · rw [if_pos ⟨view, hcancelled⟩] at h
            exact skip h
          rw [if_neg fun h => hcancelled h.2, if_neg fun h => h.1 view] at h
          obtain ⟨part, hpart, h⟩ := bind_ok_iff.mp h
          by_cases hzero : part = 0
          · rw [if_pos hzero] at h
            exact skip h
          rw [if_neg hzero] at h
          obtain ⟨_, h⟩ := require_bind_ok_iff.mp h
          rw [real] at h
          by_cases hmanual : call.manualByAccount ≠ "" ∧
              item.sponsorAddress ≠ call.manualByAccount
          · simp [hmanual] at h
          rw [if_neg hmanual, if_pos view] at h
          obtain ⟨hitems, hexpiring, payments, hresult, hpays⟩ := ih h
          refine ⟨hitems, hexpiring, ⟨item.sponsorAddress, item.transactionHash, part⟩ :: payments,
            ?_, ?_, ?_⟩
          · rw [hresult, List.append_assoc]
            rfl
          · rw [List.filterMap_cons, hitem]
            exact hpays.hashes.cons_cons _
          · rintro payment (_ | ⟨_, hmem⟩)
            · exact ⟨i, List.mem_cons_self, item, hitem, Bool.eq_false_iff.mpr hcancelled, rfl, rfl,
                hzero⟩
            · obtain ⟨j, hj, found⟩ := hpays.items payment hmem
              exact ⟨j, List.mem_cons_of_mem i hj, found⟩

/-- `refresh_index` puts the sponsorships of a unit in order. -/
theorem orderly_of_refreshIndex {cusi after : ContentUnitSponsoredInformation}
    (h : refreshIndex cusi = .ok after) (items : cusi.sponsoredInformations ≠ [])
    (times : cusi.timePointsUsed ≠ []) (used : ∀ item ∈ cusi.sponsoredInformations,
      item.timePointsUsedBefore ≤ cusi.timePointsUsed.length)
    (differ : HashesDiffer cusi.sponsoredInformations) (nodup : cusi.indexSi.Nodup) :
    Orderly after := by
  have hperm := refreshIndex_perm h
  have hrefreshed := refreshed_of_refreshIndex h
  obtain ⟨_, rfl⟩ := refreshIndex_ok_iff.mp h
  exact ⟨items, times, used, differ, hperm.nodup_iff.mpr (nodup.filter _), hrefreshed⟩

theorem refreshIndex_rest {cusi after : ContentUnitSponsoredInformation}
    (h : refreshIndex cusi = .ok after) :
    after.sponsoredInformations = cusi.sponsoredInformations ∧
      after.timePointsUsed = cusi.timePointsUsed ∧ after.uri = cusi.uri := by
  obtain ⟨_, rfl⟩ := refreshIndex_ok_iff.mp h
  exact ⟨rfl, rfl, rfl⟩

theorem SponsorshipsSound.withUnit {docs : Documents} (sound : SponsorshipsSound docs)
    {uri : String} {cusi after : ContentUnitSponsoredInformation}
    (stored : docs.sponsored[uri]? = some cusi) (orderly : Orderly after)
    (same : after.sponsoredInformations = cusi.sponsoredInformations) :
    SponsorshipsSound { docs with sponsored := docs.sponsored.insert uri after } := by
  refine ⟨fun other unit hunit => ?_, fun other unit hunit item hitem => ?_, sound.listed⟩
  · change (docs.sponsored.insert uri after)[other]? = some unit at hunit
    rw [Std.ExtTreeMap.getElem?_insert] at hunit
    split_ifs at hunit
    · cases hunit
      exact orderly
    · exact sound.orderly other unit hunit
  · change (docs.sponsored.insert uri after)[other]? = some unit at hunit
    rw [Std.ExtTreeMap.getElem?_insert] at hunit
    split_ifs at hunit with huri
    · cases hunit
      have huri : uri = other := by simpa using huri
      rw [same] at hitem
      exact huri ▸ sound.recorded uri cusi stored item hitem
    · exact sound.recorded other unit hunit item hitem

theorem orderly_of_rewind {call : SetUsedCall} {cusi after : ContentUnitSponsoredInformation}
    (orderly : Orderly cusi) (h : rewind call cusi = .ok after) :
    Orderly after ∧ after.sponsoredInformations = cusi.sponsoredInformations := by
  unfold rewind at h
  split_ifs at h
  · obtain ⟨htimes, h⟩ := require_bind_ok_iff.mp h
    obtain ⟨hused, _⟩ := refreshIndex_ok_iff.mp h
    refine ⟨orderly_of_refreshIndex h orderly.items htimes ?_ orderly.differ List.nodup_range,
      (refreshIndex_rest h).1⟩
    intro item hitem
    obtain ⟨i, hi⟩ := List.getElem?_of_mem hitem
    exact hused i (List.mem_range.mpr (List.getElem?_eq_some_iff.mp hi).1) item hi
  · cases pure_ok_iff.mp h
    exact ⟨orderly, rfl⟩

theorem orderly_of_noteUsed {call : SetUsedCall} {cusi after : ContentUnitSponsoredInformation}
    (orderly : Orderly cusi) (h : noteUsed call cusi = .ok after) :
    Orderly after ∧ after.sponsoredInformations = cusi.sponsoredInformations := by
  unfold noteUsed at h
  split_ifs at h
  · refine ⟨orderly_of_refreshIndex h orderly.items ?_ ?_ orderly.differ orderly.nodup,
      (refreshIndex_rest h).1⟩
    · simp
    · intro item hitem
      have hused := orderly.used item hitem
      rw [List.length_append, List.length_singleton]
      omega
  · cases pure_ok_iff.mp h
    exact ⟨orderly, rfl⟩

/-- What the view of a unit does: it pays sponsorships of the unit, and changes their order. -/
theorem setUsed_view_cases {docs after : Documents} (sound : SponsorshipsSound docs) {uri : String}
    {chain : Blockchain} {blockNumber : ℕ} {type : SetUsed} {manual : String} {pretend : Bool}
    {payments : List SponsorPayment}
    (h : docs.sponsoredContentUnitSetUsed chain uri blockNumber type "" manual pretend =
      .ok (after, payments)) :
    (after = docs ∧ payments = []) ∨
    ∃ cusi unit index, docs.sponsored[uri]? = some cusi ∧ Orderly unit ∧
      unit.sponsoredInformations = cusi.sponsoredInformations ∧
      after = { docs with sponsored := docs.sponsored.insert uri unit } ∧
      index.Nodup ∧ PaysItems cusi.sponsoredInformations index payments := by
  obtain ⟨_, h⟩ := require_bind_ok_iff.mp h
  cases hunit : docs.sponsored[uri]? with
  | none =>
      simp only [hunit] at h
      cases h
      exact .inl ⟨rfl, rfl⟩
  | some cusi =>
      have orderly := sound.orderly uri cusi hunit
      simp only [hunit] at h
      obtain ⟨_, h⟩ := require_bind_ok_iff.mp h
      obtain ⟨_, h⟩ := require_bind_ok_iff.mp h
      obtain ⟨⟨unit, paid⟩, hpaid, h⟩ := bind_ok_iff.mp h
      obtain ⟨noted, hnoted, h⟩ := bind_ok_iff.mp h
      cases pure_ok_iff.mp h
      have hwalk : ∃ index : List ℕ, index.Nodup ∧ Orderly unit ∧
          unit.sponsoredInformations = cusi.sponsoredInformations ∧
          paid.sponsoredInformations = cusi.sponsoredInformations ∧
          paid.expiring = docs.expiring ∧
          PaysItems cusi.sponsoredInformations index paid.result := by
        unfold payUsed at hpaid
        split_ifs at hpaid
        · obtain ⟨rewound, hrewound, hpaid⟩ := bind_ok_iff.mp hpaid
          obtain ⟨walked, hwalked, hpaid⟩ := bind_ok_iff.mp hpaid
          cases pure_ok_iff.mp hpaid
          obtain ⟨horderly, hitems⟩ := orderly_of_rewind orderly hrewound
          obtain ⟨hsame, hexpiring, payments, hresult, hpays⟩ :=
            setUsedLoop_view rfl (by simp) hwalked
          refine ⟨unit.indexSi, horderly.nodup, horderly, hitems, hsame, hexpiring, ?_⟩
          rw [hresult]
          exact hpays
        · cases pure_ok_iff.mp hpaid
          exact ⟨[], List.nodup_nil, orderly, rfl, rfl, rfl, paysItems_nil _ _⟩
      obtain ⟨index, hnodup, horderly, hitems, hsame, hexpiring, hpays⟩ := hwalk
      have hback : ({ unit with sponsoredInformations := paid.sponsoredInformations } :
          ContentUnitSponsoredInformation) = unit := by
        rw [hsame, ← hitems]
      rw [hback] at hnoted
      obtain ⟨hnote, hnotedItems⟩ := orderly_of_noteUsed horderly hnoted
      refine .inr ⟨cusi, noted, index, rfl, hnote, hnotedItems.trans hitems, ?_, hnodup, hpays⟩
      rw [hexpiring]

theorem SponsorshipsSound.setUsed {docs after : Documents} (sound : SponsorshipsSound docs)
    {uri : String} {chain : Blockchain} {blockNumber : ℕ} {type : SetUsed} {hash manual : String}
    {pretend : Bool} {payments : List SponsorPayment}
    (h : docs.sponsoredContentUnitSetUsed chain uri blockNumber type hash manual pretend =
      .ok (after, payments)) : SponsorshipsSound after := by
  have near : NextTo chain blockNumber := (require_bind_ok_iff.mp h).1
  by_cases named : hash ≠ ""
  · exact sound.setUsed_hash near named h
  · obtain rfl := not_not.mp named
    rcases setUsed_view_cases sound h with ⟨rfl, _⟩ |
      ⟨cusi, unit, _, hunit, horderly, hitems, rfl, _⟩
    · exact sound
    · exact sound.withUnit hunit horderly hitems

end Publiq.Documents
