import Publiq.BlockPayments
import Publiq.Predictions

/-! A sponsorship that was cancelled stays so, and its entry keeps what its sponsor gets back,
whatever is applied, and whatever is taken back but the cancellation itself. -/
namespace Publiq
open Message Checked

namespace Documents

/-- A sponsorship is cancelled, and its sponsor gets an amount back. -/
structure CancelledFor (docs : Documents) (hash : String) (amount : Coin) : Prop where
  marked : ∃ uri, docs.Holds uri hash true
  entry : ∃ entry, docs.expirationEntryByHash hash = .ok entry ∧ entry.manuallyCancelled = amount
  positive : amount ≠ 0

section
variable {docs after : Documents} {uri hash name : String} {marked : Bool}

theorem Holds.withSponsorship (sound : SponsorshipsSound docs) (h : docs.Holds uri hash marked)
    (fresh : docs.hashToBlock[name]? = none) {unit : String} {si : SponsoredInformation}
    (named : si.transactionHash = name) (first : si.timePointsUsedBefore = 1)
    {cusi : ContentUnitSponsoredInformation}
    (more : sponsoredWith docs.sponsored[unit]? unit si = .ok cusi) (number : ℕ) :
    (docs.withSponsorship unit cusi name number).Holds uri hash marked := by
  obtain ⟨before, item, hbefore, hmem, hhash, hmark⟩ := h
  obtain ⟨_, hitems⟩ := sponsoredWith_spec (sound.orderly unit)
    (fun other hother => named ▸ sound.fresh_itemsOf fresh unit other hother) first more
  have hread : (docs.withSponsorship unit cusi name number).sponsored[uri]? =
      if unit = uri then some cusi else docs.sponsored[uri]? := by
    change (docs.sponsored.insert unit cusi)[uri]? = _
    simp only [Std.ExtTreeMap.getElem?_insert, Std.compare_eq_iff_eq]
  by_cases huri : unit = uri
  · refine ⟨cusi, item, hread.trans (if_pos huri), ?_, hhash, hmark⟩
    rw [hitems, huri, hbefore]
    exact List.mem_append_left _ hmem
  · exact ⟨before, item, (hread.trans (if_neg huri)).trans hbefore, hmem, hhash, hmark⟩

theorem lastSponsorship_unmarked {cusi : ContentUnitSponsoredInformation}
    {spi : SponsorContentUnit} {si : SponsoredInformation}
    (h : lastSponsorship cusi spi hash = .ok si) : si.cancelled = false := by
  unfold lastSponsorship at h
  cases hlast : cusi.sponsoredInformations.getLast? with
  | none => simp [hlast] at h
  | some last =>
      simp only [hlast] at h
      obtain ⟨_, h⟩ := require_bind_ok_iff.mp h
      obtain ⟨_, h⟩ := require_bind_ok_iff.mp h
      obtain ⟨_, h⟩ := require_bind_ok_iff.mp h
      obtain ⟨_, h⟩ := require_bind_ok_iff.mp h
      obtain ⟨hmark, h⟩ := require_bind_ok_iff.mp h
      cases pure_ok_iff.mp h
      exact hmark

/-- A sponsorship that was cancelled is not the one that is taken back. -/
theorem sponsorContentUnitRevert_spares (sound : SponsorshipsSound docs) {chain : Blockchain}
    {spi : SponsorContentUnit} (h : docs.sponsorContentUnitRevert chain spi name = .ok after)
    (held : docs.Holds uri hash true) :
    after.Holds uri hash true ∧ ∀ entry, docs.expirationEntryByHash hash = .ok entry →
      after.expirationEntryByHash hash = .ok entry := by
  unfold Documents.sponsorContentUnitRevert at h
  cases hunit : docs.sponsored[spi.uri]? with
  | none => simp [hunit] at h
  | some cusi =>
      simp only [hunit] at h
      obtain ⟨si, hsi, h⟩ := bind_ok_iff.mp h
      obtain ⟨sponsored, hsponsored, h⟩ := bind_ok_iff.mp h
      obtain ⟨number, _, h⟩ := bind_ok_iff.mp h
      obtain ⟨entries, hentries, h⟩ := bind_ok_iff.mp h
      obtain ⟨_, _, h⟩ := bind_ok_iff.mp h
      obtain ⟨_, hentries⟩ := require_bind_ok_iff.mp hentries
      cases pure_ok_iff.mp hentries
      cases pure_ok_iff.mp h
      obtain ⟨hlast, _⟩ := lastSponsorship_spec hsi
      have hother : si.transactionHash ≠ hash := by
        intro hsame
        have hdropped : docs.Holds spi.uri hash false :=
          ⟨cusi, si, hunit, List.mem_of_getLast? hlast, hsame, lastSponsorship_unmarked hsi⟩
        cases (held.unique sound hdropped).2
      constructor
      · obtain ⟨before, item, hbefore, hmem, hhash, hmark⟩ := held
        by_cases huri : spi.uri = uri
        · subst huri
          cases hunit.symm.trans hbefore
          have hkept : item ∈ cusi.sponsoredInformations.dropLast := by
            have hsplit := List.dropLast_append_getLast? si (Option.mem_def.mpr hlast)
            rw [← hsplit, List.mem_append, List.mem_singleton] at hmem
            rcases hmem with hkept | rfl
            · exact hkept
            · exact absurd hhash hother
          unfold sponsoredWithout at hsponsored
          rw [if_neg (List.ne_nil_of_mem hkept)] at hsponsored
          obtain ⟨rest, hrest, hsponsored⟩ := bind_ok_iff.mp hsponsored
          cases pure_ok_iff.mp hsponsored
          refine ⟨rest, item, Std.ExtTreeMap.getElem?_insert_self, ?_, hhash, hmark⟩
          rw [(refreshIndex_rest hrest).1]
          exact hkept
        · refine ⟨before, item, ?_, hmem, hhash, hmark⟩
          change sponsored[uri]? = some before
          unfold sponsoredWithout at hsponsored
          split_ifs at hsponsored
          · cases pure_ok_iff.mp hsponsored
            simp only [Std.ExtTreeMap.getElem?_erase, Std.compare_eq_iff_eq, huri, if_false]
            exact hbefore
          · obtain ⟨rest, _, hsponsored⟩ := bind_ok_iff.mp hsponsored
            cases pure_ok_iff.mp hsponsored
            simp only [Std.ExtTreeMap.getElem?_insert, Std.compare_eq_iff_eq, huri, if_false]
            exact hbefore
      · intro entry hentry
        obtain ⟨n, hn, hentry⟩ := expirationEntryByHash_ok_iff.mp hentry
        refine expirationEntryByHash_ok_iff.mpr ⟨n, ?_, ?_⟩
        · change (docs.hashToBlock.erase si.transactionHash)[hash]? = some n
          simp only [Std.ExtTreeMap.getElem?_erase, Std.compare_eq_iff_eq, hother, if_false]
          exact hn
        · change ((docs.expiring.set number _).get n)[hash]? = some entry
          rw [SparseMap.get_set]
          split_ifs with hnumber
          · simp only [Std.ExtTreeMap.getElem?_erase, Std.compare_eq_iff_eq, hother, if_false, hnumber]
            exact hentry
          · exact hentry

/-- Only its own sponsor takes the cancellation of a sponsorship back. -/
theorem CancelledFor.step [Externals] {amount : Coin} (cancelled : docs.CancelledFor hash amount)
    (named : hash ≠ "") (sound : SponsorshipsSound docs) {type : SetUsed} {hashes : List String}
    (spared : type = .revert → hash ∉ hashes)
    (step : SponsorshipStep type hashes docs after) : after.CancelledFor hash amount := by
  obtain ⟨⟨uri, held⟩, ⟨entry, hentry, hamount⟩, positive⟩ := cancelled
  cases step with
  | keep sponsored expiring hashToBlock =>
      refine ⟨⟨uri, ?_⟩, ⟨entry, ?_, hamount⟩, positive⟩
      · unfold Holds
        rw [sponsored]
        exact held
      · rw [expirationEntryByHash_congr expiring hashToBlock]
        exact hentry
  | sponsor _ fresh h =>
      obtain ⟨cusi, number, hcusi, _, rfl⟩ := sponsorContentUnitApply_cases h
      refine ⟨⟨uri, held.withSponsorship sound fresh rfl rfl hcusi number⟩, ⟨entry, ?_, hamount⟩,
        positive⟩
      obtain ⟨n, hn, hlisted⟩ := expirationEntryByHash_ok_iff.mp hentry
      rw [expirationEntryByHash_ok_iff]
      refine ⟨n, ?_, ?_⟩
      · rw [withSponsorship_hashToBlock, if_neg]
        · exact hn
        · rintro rfl
          cases fresh.symm.trans hn
      · rw [withSponsorship_expiring, if_neg]
        · exact hlisted
        · rintro ⟨_, rfl⟩
          cases fresh.symm.trans hn
  | unsponsor _ h =>
      obtain ⟨hheld, hkept⟩ := sponsorContentUnitRevert_spares sound h held
      exact ⟨⟨uri, hheld⟩, ⟨entry, hkept entry hentry, hamount⟩, positive⟩
  | @use chain unit blockNumber other manual payments after hmanual h =>
      by_cases hview : other = ""
      · subst hview
        obtain ⟨hexpiring, hhashToBlock, hmarks, _⟩ := setUsed_views sound h
        refine ⟨⟨uri, (hmarks _ _ _).mpr held⟩, ⟨entry, ?_, hamount⟩, positive⟩
        rw [expirationEntryByHash_congr hexpiring hhashToBlock]
        exact hentry
      · rcases setUsed_settles sound hview h with ⟨rfl, _⟩ | ⟨payment, _, settles⟩
        · exact ⟨⟨uri, held⟩, ⟨entry, hentry, hamount⟩, positive⟩
        · obtain ⟨found, hfound, _, hrevert, hentries⟩ := settles.entries
          have hother : hash ≠ other := by
            rintro rfl
            have hmark := (held.unique sound settles.held).2
            have htype : type = .revert := by simpa using hmark
            cases hentry.symm.trans hfound
            have hsponsor : manual ≠ "" := (hrevert htype).mpr (hamount ▸ positive)
            exact spared htype (hmanual.resolve_left hsponsor)
          refine ⟨⟨uri, ?_⟩, ⟨entry, ?_, hamount⟩, positive⟩
          · rw [settles.marks, if_neg hother]
            exact held
          · rw [hentries, if_neg fun h => hother h.2]
            exact hentry

end

end Documents
end Publiq
