import Publiq.BlockPayments
import Publiq.SponsorshipIntervals

/-! What a block has to pay of the sponsorships, read off the documents before it: the units that
its reports count as viewed, what their sponsors owe for the time since they were last paid, and
what goes back to the sponsors. -/
namespace Publiq
open Message Checked Documents

namespace SponsorshipCall
variable {docs after : Documents} {chain : Blockchain} {blockNumber : ℕ} {type : SetUsed}
  {uri other hash name : String}

theorem dues_congr (same : after.sponsored[uri]? = docs.sponsored[uri]?) :
    (SponsorshipCall.use chain uri blockNumber hash "").dues type after =
      (SponsorshipCall.use chain uri blockNumber hash "").dues type docs := by
  unfold dues intervals
  dsimp only
  rw [same]

theorem sponsored_viewed (sound : docs.SponsorshipsSound) {payments : List SponsorPayment}
    (h : docs.sponsoredContentUnitSetUsed chain uri blockNumber type "" "" false =
      .ok (after, payments)) (differ : uri ≠ other) :
    after.sponsored[other]? = docs.sponsored[other]? := by
  rcases setUsed_view_cases sound h with ⟨rfl, _⟩ | ⟨cusi, unit, index, _, _, _, rfl, _, _⟩
  · rfl
  · exact Std.ExtTreeMap.getElem?_insert.trans (if_neg fun heq =>
      differ (Std.compare_eq_iff_eq.mp heq))

theorem dues_viewed (sound : docs.SponsorshipsSound) {payments : List SponsorPayment}
    (h : docs.sponsoredContentUnitSetUsed chain uri blockNumber type "" "" false =
      .ok (after, payments)) (differ : uri ≠ other) :
    (SponsorshipCall.use chain other blockNumber hash "").dues type after =
      (SponsorshipCall.use chain other blockNumber hash "").dues type docs :=
  dues_congr (sponsored_viewed sound h differ)

theorem dues_named {cusi : ContentUnitSponsoredInformation}
    (stored : docs.sponsored[uri]? = some cusi) (named : name ≠ "") :
    (SponsorshipCall.use chain uri blockNumber name "").dues type docs =
      if lastUsed cusi < payTime chain blockNumber then
        (reached cusi.sponsoredInformations cusi.indexSi (payTime chain blockNumber)).filterMap
          fun p => dueOf name p.2 (paidInterval
            ⟨type, name, "", false, payTime chain blockNumber, lastUsed cusi⟩
            cusi.timePointsUsed.length p.2)
      else [] := by
  have hpays : paysNow ⟨type, name, "", false, payTime chain blockNumber, lastUsed cusi⟩ =
      decide (lastUsed cusi < payTime chain blockNumber) := by
    unfold paysNow
    cases type with
    | apply => rfl
    | revert => simp [named]
  have hrewind : rewind ⟨type, name, "", false, payTime chain blockNumber, lastUsed cusi⟩ cusi =
      .ok cusi := if_neg fun h => named h.2
  unfold dues intervals
  dsimp only
  rw [stored]
  dsimp only
  rw [hpays, hrewind]
  by_cases hlate : lastUsed cusi < payTime chain blockNumber
  · rw [if_pos hlate, if_pos (decide_eq_true hlate)]
    exact List.filterMap_map
  · rw [if_neg hlate, if_neg (by simpa using hlate)]
    rfl

theorem dueOf_markPlace (named : name ≠ "") (c : SetUsedCall) (used index : ℕ) (cancelled : Bool)
    (p : ℕ × SponsoredInformation) :
    dueOf name (markPlace index cancelled p).2 (paidInterval c used (markPlace index cancelled p).2) =
      dueOf name p.2 (paidInterval c used p.2) := by
  unfold markPlace
  split_ifs
  · simp only [dueOf, named, ne_eq, false_and, false_or]
    rfl
  · rfl

theorem dues_settled (sound : docs.SponsorshipsSound) (named : hash ≠ "") (names : name ≠ "")
    {payments : List SponsorPayment}
    (h : docs.sponsoredContentUnitSetUsed chain uri blockNumber type hash "" false =
      .ok (after, payments)) :
    (SponsorshipCall.use chain other blockNumber name "").dues type after =
      (SponsorshipCall.use chain other blockNumber name "").dues type docs := by
  have near : NextTo chain blockNumber := (require_bind_ok_iff.mp h).1
  rcases setUsed_hash_cases sound near named h with ⟨rfl, _⟩ |
    ⟨cusi, u, number, manuallyCancelled, hunit, hu, _, _, _, _, _, _, rfl⟩
  · rfl
  rw [Bool.false_and, if_neg Bool.false_ne_true]
  by_cases huri : uri = other
  · subst huri
    have hthere := (Unpaid.item_of_unpaid hu).1
    rw [dues_named Std.ExtTreeMap.getElem?_insert_self names, dues_named hunit names]
    change (if lastUsed cusi < _ then (reached (withMark cusi u.index u.item _).sponsoredInformations
      cusi.indexSi _).filterMap _ else _) = _
    rw [reached_withMark hthere, List.filterMap_map]
    congr 2
    funext p
    exact dueOf_markPlace names _ _ _ _ p
  · apply dues_congr
    exact Std.ExtTreeMap.getElem?_insert.trans (if_neg fun heq => huri (Std.compare_eq_iff_eq.mp heq))

end SponsorshipCall

def viewedUnits (ctx : Context) (block : Block) (l : Ledger) : Checked UnitViews := do
  let collected ← block.signedTransactions.foldlM (Collected.add l) ⟨∅, ∅, []⟩
  let shares ← validateStatistics ctx l.documents collected.channelProvided
    collected.storageProvided block.header.blockNumber.toNat
  pure shares.unitUriViewCounts

def viewedUris (ctx : Context) (block : Block) (l : Ledger) : List String :=
  ((viewedUnits ctx block l).toOption.map fun viewed => viewed.keys).getD []

def viewDues (ctx : Context) (block : Block) (type : SetUsed) (l : Ledger) : List SponsorPayment :=
  (viewedUris ctx block l).flatMap fun uri =>
    (SponsorshipCall.use ctx.blockchain uri block.header.blockNumber.toNat "" "").dues type
      l.documents

def cancelDue (docs : Documents) (cancel : CancelSponsorContentUnit) : SponsorPayment :=
  ⟨cancel.sponsorAddress, cancel.transactionHash,
    ((docs.expirationEntryByHash cancel.transactionHash).toOption.map
      SponsoredInformationHeader.manuallyCancelled).getD 0⟩

def cancelDues (block : Block) (docs : Documents) : List SponsorPayment :=
  (cancels block.signedTransactions).map (cancelDue docs)

/-- What goes back of the sponsorships that end with a block and were not viewed in it. -/
def expiryDues (ctx : Context) (block : Block) (type : SetUsed) (l : Ledger) :
    List SponsorPayment :=
  ((l.documents.contentUnitUriSponsorExpiring block.header.blockNumber.toNat).filter
      fun ending => ending.1 ∉ viewedUris ctx block l).flatMap fun ending =>
    (SponsorshipCall.use ctx.blockchain ending.1 block.header.blockNumber.toNat ending.2 "").dues
      type l.documents

section
variable {chain : Blockchain} {blockNumber : ℕ} {type : SetUsed} {docs after : Documents}

/-- Viewed units pay what they have to, whatever the order, and leave the other units. -/
theorem payViewed_dues (sound : docs.SponsorshipsSound) {uris : List String} (nodup : uris.Nodup)
    {paid payments : List SponsorPayment}
    (h : payViewed chain blockNumber type uris (docs, paid) = .ok (after, payments)) :
    payments = paid ++ uris.flatMap (fun uri =>
        (SponsorshipCall.use chain uri blockNumber "" "").dues type docs) ∧
      ∀ other ∉ uris, after.sponsored[other]? = docs.sponsored[other]? := by
  induction uris generalizing docs paid with
  | nil =>
      cases pure_ok_iff.mp h
      exact ⟨(List.append_nil _).symm, fun _ _ => rfl⟩
  | cons uri rest ih =>
      obtain ⟨⟨mid, first⟩, hmid, h⟩ := bind_ok_iff.mp h
      obtain ⟨_, h⟩ := require_bind_ok_iff.mp h
      rw [List.nodup_cons] at nodup
      obtain ⟨hpayments, hothers⟩ := ih (sound.setUsed hmid) nodup.2 h
      have hrest : rest.flatMap (fun other =>
          (SponsorshipCall.use chain other blockNumber "" "").dues type mid) =
          rest.flatMap fun other =>
            (SponsorshipCall.use chain other blockNumber "" "").dues type docs := by
        apply List.flatMap_congr
        intro other hother
        exact SponsorshipCall.dues_viewed sound hmid fun heq => nodup.1 (heq ▸ hother)
      refine ⟨?_, fun other hother => ?_⟩
      · rw [hpayments, hrest, SponsorshipCall.payments_eq sound hmid, List.flatMap_cons,
          List.append_assoc]
      · rw [List.mem_cons, not_or] at hother
        rw [hothers other hother.2]
        exact SponsorshipCall.sponsored_viewed sound hmid (Ne.symm hother.1)

/-- Sponsorships that end give back what is left of them, whatever the order. -/
theorem returnExpired_dues (sound : docs.SponsorshipsSound) {viewed : UnitViews}
    {expiring : List (String × String)} (named : ∀ ending ∈ expiring, ending.2 ≠ "")
    {returned payments : List SponsorPayment}
    (h : returnExpired chain blockNumber type viewed expiring (docs, returned) =
      .ok (after, payments)) :
    payments = returned ++ (expiring.filter fun ending => !viewed.contains ending.1).flatMap
      fun ending => (SponsorshipCall.use chain ending.1 blockNumber ending.2 "").dues type docs := by
  induction expiring generalizing docs returned with
  | nil =>
      cases pure_ok_iff.mp h
      exact (List.append_nil _).symm
  | cons ending rest ih =>
      obtain ⟨uri, hash⟩ := ending
      rw [List.forall_mem_cons] at named
      simp only [returnExpired] at h
      split_ifs at h with hviewed
      · rw [List.filter_cons_of_neg (by simp [hviewed])]
        exact ih sound named.2 h
      · obtain ⟨⟨mid, first⟩, hmid, h⟩ := bind_ok_iff.mp h
        obtain ⟨_, h⟩ := require_bind_ok_iff.mp h
        have hrest : (rest.filter fun ending => !viewed.contains ending.1).flatMap (fun ending =>
            (SponsorshipCall.use chain ending.1 blockNumber ending.2 "").dues type mid) =
            (rest.filter fun ending => !viewed.contains ending.1).flatMap fun ending =>
              (SponsorshipCall.use chain ending.1 blockNumber ending.2 "").dues type docs := by
          apply List.flatMap_congr
          intro other hother
          exact SponsorshipCall.dues_settled sound named.1
            (named.2 other (List.mem_of_mem_filter hother)) hmid
        rw [ih (sound.setUsed hmid) named.2 h, hrest, SponsorshipCall.payments_eq sound hmid,
          List.filter_cons_of_pos (by rw [Bool.eq_false_iff.mpr hviewed]; rfl), List.flatMap_cons,
          List.append_assoc]

end

theorem eq_map_cancelDue {docs : Documents} {found : List CancelSponsorContentUnit}
    {payments : List SponsorPayment} (h : List.Forall₂ (ReturnsCancelled docs) found payments) :
    payments = found.map (cancelDue docs) := by
  induction h with
  | nil => rfl
  | @cons cancel payment _ _ first _ ih =>
      obtain ⟨hsponsor, hhash, _, entry, hentry, hamount⟩ := first
      rw [List.map_cons, ← ih, cancelDue, hentry]
      obtain ⟨sponsor, hash, amount⟩ := payment
      cases hsponsor
      cases hhash
      cases hamount
      rfl

/-- What a block pays of the sponsorships is what was due before it. -/
theorem grantRewards_dues {ctx : Context} {block : Block} {miner : String} {type : SetUsed}
    {l : Ledger} {granted : Granted} (sound : l.documents.SponsorshipsSound)
    (named : l.documents.EntriesNamed) (h : grantRewards ctx block miner type l = .ok granted) :
    granted.appliedSponsorItems = viewDues ctx block type l ∧
      granted.returned = cancelDues block l.documents ++ expiryDues ctx block type l := by
  obtain ⟨collected, shares, viewedDocs, paid, docs, expired, rewards, hcollected, hshares, _,
    hpaid, hexpired, _, rfl⟩ := grantRewards_stages h
  have hunits : viewedUris ctx block l = shares.unitUriViewCounts.keys := by
    rw [viewedUris, viewedUnits, hcollected, ok_bind, hshares]
    rfl
  have hdistinct : shares.unitUriViewCounts.keys.Nodup :=
    Std.ExtTreeMap.nodup_keys
  obtain ⟨hviewed, hothers⟩ := payViewed_dues sound hdistinct hpaid
  obtain ⟨_, _, _, spec⟩ := payViewed_spec sound hpaid
  obtain ⟨cancelled, hreturns, hcancelled⟩ := collected_returns hcollected
  have hsame (name : String) := expirationEntryByHash_congr spec.expiring spec.hashToBlock name
  have hnamed : viewedDocs.EntriesNamed := by
    intro name entry hentry
    rw [hsame] at hentry
    exact named name entry hentry
  have hended := returnExpired_dues spec.sound (expiring_named spec.sound hnamed _) hexpired
  refine ⟨?_, ?_⟩
  · rw [viewDues, hunits]
    exact hviewed
  · have hunviewed : ((l.documents.contentUnitUriSponsorExpiring
        block.header.blockNumber.toNat).filter fun ending =>
          !shares.unitUriViewCounts.contains ending.1) =
        (l.documents.contentUnitUriSponsorExpiring block.header.blockNumber.toNat).filter
          fun ending => ending.1 ∉ shares.unitUriViewCounts.keys := by
      congr 1
      funext ending
      rw [Bool.eq_iff_iff, decide_eq_true_iff, Std.ExtTreeMap.mem_keys, Bool.not_eq_true',
        ← Bool.not_eq_true]
      rfl
    have hexpiring : viewedDocs.contentUnitUriSponsorExpiring block.header.blockNumber.toNat =
        l.documents.contentUnitUriSponsorExpiring block.header.blockNumber.toNat := by
      rw [contentUnitUriSponsorExpiring, spec.expiring]
      rfl
    change collected.returns ++ expired = _
    rw [hreturns, eq_map_cancelDue hcancelled, hended, expiryDues, hunits, hexpiring, hunviewed]
    change [] ++ cancelDues block l.documents ++ ([] ++ _) = _
    rw [List.nil_append, List.nil_append]
    congr 1
    apply List.flatMap_congr
    intro ending hmem
    exact SponsorshipCall.dues_congr
      (hothers ending.1 (of_decide_eq_true (List.mem_filter.mp hmem).2))

end Publiq
