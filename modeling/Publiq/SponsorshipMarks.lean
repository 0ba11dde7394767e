import Publiq.SponsorshipUndo

/-! Which sponsorships a call of `sponsored_content_unit_set_used` pays, and which of them are
marked as cancelled after it. -/
namespace Publiq.Documents
open Message Checked

def Holds (docs : Documents) (uri hash : String) (cancelled : Bool) : Prop :=
  ∃ cusi item, docs.sponsored[uri]? = some cusi ∧ item ∈ cusi.sponsoredInformations ∧
    item.transactionHash = hash ∧ item.cancelled = cancelled

section
variable {docs after : Documents} {uri other hash : String} {marked unmarked : Bool}

theorem Holds.unique (sound : SponsorshipsSound docs) (h : docs.Holds uri hash marked)
    (h' : docs.Holds other hash unmarked) : uri = other ∧ marked = unmarked := by
  obtain ⟨cusi, item, hunit, hmem, hhash, rfl⟩ := h
  obtain ⟨cusi', item', hunit', hmem', hhash', rfl⟩ := h'
  have hsame := hhash.trans hhash'.symm
  obtain rfl := (sound.recorded uri cusi hunit item hmem).uri_eq
    (sound.recorded other cusi' hunit' item' hmem') hsame
  cases hunit.symm.trans hunit'
  obtain ⟨i, hi⟩ := List.mem_iff_getElem?.mp hmem
  obtain ⟨j, hj⟩ := List.mem_iff_getElem?.mp hmem'
  obtain rfl := (sound.orderly uri cusi hunit).differ.index_eq hi hj hsame
  cases hi.symm.trans hj
  exact ⟨rfl, rfl⟩

theorem Holds.marked_of_entry (sound : SponsorshipsSound docs) (h : docs.Holds uri hash marked)
    {entry : SponsoredInformationHeader} (found : docs.expirationEntryByHash hash = .ok entry)
    (kept : entry.manuallyCancelled ≠ 0) : marked = true := by
  obtain ⟨cusi, item, hunit, hmem, rfl, rfl⟩ := h
  obtain ⟨number, manuallyCancelled, _, hentry, hcancelled⟩ :=
    (sound.recorded uri cusi hunit item hmem).entry
  cases found.symm.trans hentry
  exact hcancelled kept

theorem expirationEntryByHash_congr (expiring : after.expiring = docs.expiring)
    (hashToBlock : after.hashToBlock = docs.hashToBlock) (hash : String) :
    after.expirationEntryByHash hash = docs.expirationEntryByHash hash := by
  unfold expirationEntryByHash expirationEntryByBlockByHash expirationEntryByBlock
  rw [expiring, hashToBlock]

theorem holds_withUnit {cusi unit : ContentUnitSponsoredInformation}
    (stored : docs.sponsored[uri]? = some cusi)
    (items : unit.sponsoredInformations = cusi.sponsoredInformations) :
    ({ docs with sponsored := docs.sponsored.insert uri unit } : Documents).Holds other hash marked ↔
      docs.Holds other hash marked := by
  unfold Holds
  dsimp only
  simp only [Std.ExtTreeMap.getElem?_insert, Std.compare_eq_iff_eq]
  by_cases huri : uri = other
  · subst huri
    simp [stored, items]
  · simp [huri]

/-- Settling a sponsorship marks it, and no other one. -/
theorem holds_settled (sound : SponsorshipsSound docs) {cusi : ContentUnitSponsoredInformation}
    (stored : docs.sponsored[uri]? = some cusi) {u : Unpaid}
    (there : cusi.sponsoredInformations[u.index]? = some u.item)
    (entry : SponsoredInformationHeader) (manual : String) (cancelled : Bool) :
    (docs.settled uri cusi u entry manual cancelled).Holds other hash marked ↔
      if hash = u.item.transactionHash then other = uri ∧ marked = cancelled
      else docs.Holds other hash marked := by
  have hthis : docs.Holds uri u.item.transactionHash u.item.cancelled :=
    ⟨cusi, u.item, stored, List.mem_of_getElem? there, rfl, rfl⟩
  have hread (name : String) : (docs.settled uri cusi u entry manual cancelled).sponsored[name]? =
      if uri = name then some (withMark cusi u.index u.item cancelled)
      else docs.sponsored[name]? := by
    change (docs.sponsored.insert uri _)[name]? = _
    simp only [Std.ExtTreeMap.getElem?_insert, Std.compare_eq_iff_eq]
  unfold Holds
  simp only [hread]
  by_cases hhash : hash = u.item.transactionHash
  · rw [if_pos hhash]
    constructor
    · rintro ⟨unit, item, hunit, hmem, hitem, hmark⟩
      by_cases huri : uri = other
      · rw [if_pos huri] at hunit
        cases hunit
        obtain ⟨j, hj⟩ := List.mem_iff_getElem?.mp hmem
        rw [withMark_getElem? there] at hj
        split_ifs at hj with hindex
        · cases hj
          exact ⟨huri.symm, hmark.symm⟩
        · have hsame := (sound.orderly uri cusi stored).differ.index_eq there hj
            (hhash.symm.trans hitem.symm)
          exact absurd hsame hindex
      · rw [if_neg huri] at hunit
        have hother : docs.Holds other u.item.transactionHash item.cancelled :=
          ⟨unit, item, hunit, hmem, hitem.trans hhash, rfl⟩
        exact absurd (hthis.unique sound hother).1 huri
    · rintro ⟨rfl, rfl⟩
      refine ⟨_, { u.item with cancelled := marked }, if_pos rfl, ?_, hhash.symm, rfl⟩
      apply List.mem_of_getElem? (i := u.index)
      rw [withMark_getElem? there, if_pos rfl]
  · rw [if_neg hhash]
    by_cases huri : uri = other
    · subst huri
      simp only [if_true, Option.some.injEq, stored]
      constructor
      · rintro ⟨unit, item, rfl, hmem, hitem, hmark⟩
        obtain ⟨j, hj⟩ := List.mem_iff_getElem?.mp hmem
        rw [withMark_getElem? there] at hj
        split_ifs at hj with hindex
        · cases hj
          exact absurd hitem.symm hhash
        · exact ⟨cusi, item, rfl, List.mem_of_getElem? hj, hitem, hmark⟩
      · rintro ⟨unit, item, rfl, hmem, hitem, hmark⟩
        obtain ⟨j, hj⟩ := List.mem_iff_getElem?.mp hmem
        refine ⟨_, item, rfl, ?_, hitem, hmark⟩
        apply List.mem_of_getElem? (i := j)
        rw [withMark_getElem? there, if_neg]
        · exact hj
        · rintro rfl
          cases there.symm.trans hj
          exact hhash hitem.symm
    · simp only [if_neg huri]

theorem entry_settled {cusi : ContentUnitSponsoredInformation} {u : Unpaid} {number : ℕ}
    {manuallyCancelled : Coin}
    (listed : docs.hashToBlock[u.item.transactionHash]? = some number) (manual : String)
    (cancelled : Bool) (name : String) (entry : SponsoredInformationHeader) :
    (docs.settled uri cusi u ⟨uri, u.item.transactionHash, number, manuallyCancelled⟩ manual
        cancelled).expirationEntryByHash name = .ok entry ↔
      if manual ≠ "" ∧ name = u.item.transactionHash then
        entry = ⟨uri, u.item.transactionHash, number, if cancelled then u.part else 0⟩
      else docs.expirationEntryByHash name = .ok entry := by
  rw [expirationEntryByHash_ok_iff, expirationEntryByHash_ok_iff]
  simp only [settled_expiring]
  change (∃ n, docs.hashToBlock[name]? = some n ∧ _) ↔ _
  by_cases hthis : manual ≠ "" ∧ name = u.item.transactionHash
  · obtain ⟨hmanual, rfl⟩ := hthis
    simp only [listed, Option.some.injEq, exists_eq_left', hmanual, ne_eq, not_false_eq_true,
      and_self, if_true]
    exact eq_comm
  · rw [if_neg hthis]
    have hother (n : ℕ) : ¬ (manual ≠ "" ∧ number = n ∧ u.item.transactionHash = name) :=
      fun h => hthis ⟨h.1, h.2.2.symm⟩
    simp only [if_neg (hother _)]

/-- What a call for one hash does when it pays. -/
structure Settles (docs after : Documents) (type : SetUsed) (uri hash manual : String)
    (payment : SponsorPayment) : Prop where
  held : docs.Holds uri hash (type = .revert)
  named : payment.transactionHash = hash
  amount : payment.amount ≠ 0
  sponsor : manual ≠ "" → payment.sponsorAddress = manual
  marks : ∀ other name marked, after.Holds other name marked ↔
    if name = hash then other = uri ∧ marked = decide (type = .apply)
    else docs.Holds other name marked
  entries : ∃ entry, docs.expirationEntryByHash hash = .ok entry ∧
    (type = .apply → entry.manuallyCancelled = 0) ∧
    (type = .revert → (manual ≠ "" ↔ entry.manuallyCancelled ≠ 0)) ∧
    ∀ name found, after.expirationEntryByHash name = .ok found ↔
      if manual ≠ "" ∧ name = hash then
        found = { entry with manuallyCancelled := if type = .apply then payment.amount else 0 }
      else docs.expirationEntryByHash name = .ok found

/-- A call for one hash settles it, or does nothing. -/
theorem setUsed_settles (sound : SponsorshipsSound docs) {chain : Blockchain} {blockNumber : ℕ}
    {type : SetUsed} (named : hash ≠ "") {manual : String} {payments : List SponsorPayment}
    (h : docs.sponsoredContentUnitSetUsed chain uri blockNumber type hash manual false =
      .ok (after, payments)) :
    (after = docs ∧ payments = []) ∨
      ∃ payment, payments = [payment] ∧ Settles docs after type uri hash manual payment := by
  have near : NextTo chain blockNumber := (require_bind_ok_iff.mp h).1
  rcases setUsed_hash_cases sound near named h with hidle |
    ⟨cusi, u, number, manuallyCancelled, hunit, hu, hnumber, hentry, hmanual, happly, hrevert,
      rfl, rfl⟩
  · exact .inl hidle
  · obtain ⟨hitem, rfl⟩ := Unpaid.item_of_unpaid hu
    rw [Bool.false_and, if_neg Bool.false_ne_true]
    refine .inr ⟨u.payment, rfl, ?_, rfl, (unpaid_some hu).2.2.1, hmanual, fun other name marked =>
      holds_settled sound hunit hitem _ _ _,
      ⟨uri, u.item.transactionHash, number, manuallyCancelled⟩, hentry, fun htype => (happly htype).2,
      fun htype => (hrevert htype).2, fun name found => ?_⟩
    · refine ⟨cusi, u.item, hunit, List.mem_of_getElem? hitem, rfl, ?_⟩
      cases type with
      | apply => exact (happly rfl).1
      | revert => exact (hrevert rfl).1
    · rw [entry_settled hnumber]
      cases type <;> rfl

/-- A view pays sponsorships of its unit that are not cancelled, and marks nothing. -/
theorem setUsed_views (sound : SponsorshipsSound docs) {chain : Blockchain} {blockNumber : ℕ}
    {type : SetUsed} {manual : String} {payments : List SponsorPayment}
    (h : docs.sponsoredContentUnitSetUsed chain uri blockNumber type "" manual false =
      .ok (after, payments)) :
    after.expiring = docs.expiring ∧ after.hashToBlock = docs.hashToBlock ∧
      (∀ other name marked, after.Holds other name marked ↔ docs.Holds other name marked) ∧
      ∀ payment ∈ payments, docs.Holds uri payment.transactionHash false := by
  rcases setUsed_view_cases sound h with ⟨rfl, rfl⟩ |
    ⟨cusi, unit, index, hunit, _, hitems, rfl, _, hpays⟩
  · exact ⟨rfl, rfl, fun _ _ _ => Iff.rfl, fun _ h => nomatch h⟩
  · refine ⟨rfl, rfl, fun other name marked => holds_withUnit hunit hitems, fun payment hmem => ?_⟩
    obtain ⟨i, _, item, hitem, hmark, hhash, _⟩ := hpays.items payment hmem
    exact ⟨cusi, item, hunit, List.mem_of_getElem? hitem, hhash.symm, hmark⟩

end

end Publiq.Documents
