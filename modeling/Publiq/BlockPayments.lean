import Publiq.SponsorshipSteps

/-! What a block pays of the sponsorships: those that were viewed, those that were cancelled in
the block, and those that end with it and were not viewed. -/
namespace Publiq
open Message Checked Documents

def paidHashes (payments : List SponsorPayment) : List String :=
  payments.map SponsorPayment.transactionHash

section
variable {chain : Blockchain} {blockNumber : ℕ} {type : SetUsed} {docs after : Documents}

/-- What viewed units pay: sponsorships of theirs that are not cancelled, each once. -/
structure PaysViewed (docs after : Documents) (uris : List String)
    (payments : List SponsorPayment) : Prop where
  sound : after.SponsorshipsSound
  expiring : after.expiring = docs.expiring
  hashToBlock : after.hashToBlock = docs.hashToBlock
  marks : ∀ uri hash marked, after.Holds uri hash marked ↔ docs.Holds uri hash marked
  held : ∀ payment ∈ payments, ∃ uri ∈ uris, docs.Holds uri payment.transactionHash false

theorem payViewed_spec (sound : docs.SponsorshipsSound) {uris : List String}
    {paid payments : List SponsorPayment}
    (h : payViewed chain blockNumber type uris (docs, paid) = .ok (after, payments)) :
    ((paidHashes paid).Nodup → (paidHashes payments).Nodup) ∧
      ∃ more, payments = paid ++ more ∧ PaysViewed docs after uris more := by
  induction uris generalizing docs paid with
  | nil =>
      cases pure_ok_iff.mp h
      exact ⟨id, [], (List.append_nil _).symm, sound, rfl, rfl, fun _ _ _ => Iff.rfl,
        fun _ h => nomatch h⟩
  | cons uri rest ih =>
      obtain ⟨⟨mid, first⟩, hmid, h⟩ := bind_ok_iff.mp h
      obtain ⟨hnodup, h⟩ := require_bind_ok_iff.mp h
      obtain ⟨hkeeps, more, rfl, hmore⟩ := ih (sound.setUsed hmid) h
      obtain ⟨hexpiring, hhashToBlock, hmarks, hheld⟩ := setUsed_views sound hmid
      refine ⟨fun _ => hkeeps hnodup, first ++ more, List.append_assoc _ _ _, hmore.sound,
        hmore.expiring.trans hexpiring, hmore.hashToBlock.trans hhashToBlock,
        fun other hash marked => (hmore.marks other hash marked).trans (hmarks other hash marked),
        fun payment hmem => ?_⟩
      rcases List.mem_append.mp hmem with hfirst | hlater
      · exact ⟨uri, List.mem_cons_self, hheld payment hfirst⟩
      · obtain ⟨other, hother, hholds⟩ := hmore.held payment hlater
        exact ⟨other, List.mem_cons_of_mem uri hother, (hmarks _ _ _).mp hholds⟩

/-- What is returned of sponsorships that end: of units that were not viewed, each once, and
nothing of a sponsorship that its sponsor has cancelled. -/
structure ReturnsExpired (docs : Documents) (type : SetUsed) (viewed : UnitViews)
    (payments : List SponsorPayment) : Prop where
  once : (paidHashes payments).Nodup
  unviewed : ∀ payment ∈ payments, ∃ uri, viewed.contains uri = false ∧
    docs.Holds uri payment.transactionHash (type = .revert)
  kept : ∀ payment ∈ payments, ∃ entry,
    docs.expirationEntryByHash payment.transactionHash = .ok entry ∧ entry.manuallyCancelled = 0

theorem returnExpired_spec (sound : docs.SponsorshipsSound) {viewed : UnitViews}
    {expiring : List (String × String)} (named : ∀ ending ∈ expiring, ending.2 ≠ "")
    {returned payments : List SponsorPayment}
    (h : returnExpired chain blockNumber type viewed expiring (docs, returned) =
      .ok (after, payments)) :
    ∃ more, payments = returned ++ more ∧ ReturnsExpired docs type viewed more := by
  induction expiring generalizing docs returned with
  | nil =>
      cases pure_ok_iff.mp h
      refine ⟨[], (List.append_nil _).symm, List.nodup_nil, ?_, ?_⟩
      · exact fun _ h => nomatch h
      · exact fun _ h => nomatch h
  | cons ending rest ih =>
      obtain ⟨uri, hash⟩ := ending
      rw [List.forall_mem_cons] at named
      simp only [returnExpired] at h
      split_ifs at h with hviewed
      · exact ih sound named.2 h
      · obtain ⟨⟨mid, first⟩, hmid, h⟩ := bind_ok_iff.mp h
        obtain ⟨_, h⟩ := require_bind_ok_iff.mp h
        obtain ⟨more, rfl, hmore⟩ := ih (sound.setUsed hmid) named.2 h
        rcases setUsed_settles sound named.1 hmid with ⟨rfl, rfl⟩ | ⟨payment, rfl, settles⟩
        · exact ⟨more, by rw [List.append_nil], hmore⟩
        · obtain ⟨entry, hentry, happly, hrevert, hentries⟩ := settles.entries
          have hothers : ∀ other ∈ more, other.transactionHash ≠ hash := by
            intro other hmem hsame
            obtain ⟨otherUri, _, hholds⟩ := hmore.unviewed other hmem
            rw [settles.marks, if_pos hsame] at hholds
            cases type <;> simp at hholds
          refine ⟨payment :: more, List.append_assoc returned [payment] more, ?_, ?_, ?_⟩
          · refine List.nodup_cons.mpr ⟨fun hmem => ?_, hmore.once⟩
            obtain ⟨other, hother, hsame⟩ := List.mem_map.mp hmem
            exact hothers other hother (hsame.trans settles.named)
          · rw [List.forall_mem_cons]
            refine ⟨⟨uri, Bool.eq_false_iff.mpr hviewed, settles.named ▸ settles.held⟩, ?_⟩
            intro other hmem
            obtain ⟨otherUri, hother, hholds⟩ := hmore.unviewed other hmem
            rw [settles.marks, if_neg (hothers other hmem)] at hholds
            exact ⟨otherUri, hother, hholds⟩
          · rw [List.forall_mem_cons]
            refine ⟨⟨entry, settles.named ▸ hentry, ?_⟩, ?_⟩
            · cases type with
              | apply => exact happly rfl
              | revert =>
                  by_contra hkept
                  exact (hrevert rfl).mpr hkept rfl
            · intro other hmem
              obtain ⟨found, hfound, hzero⟩ := hmore.kept other hmem
              rw [hentries, if_neg fun h => h.1 rfl] at hfound
              exact ⟨found, hfound, hzero⟩

end

def cancels (transactions : List SignedTransaction) : List CancelSponsorContentUnit :=
  transactions.filterMap fun signedTransaction =>
    match signedTransaction.transactionDetails.action with
    | .cancelSponsorContentUnit cancel => some cancel
    | _ => none

/-- What the entry of a cancelled sponsorship says that its sponsor gets back. -/
def ReturnsCancelled (docs : Documents) (cancel : CancelSponsorContentUnit)
    (payment : SponsorPayment) : Prop :=
  payment.sponsorAddress = cancel.sponsorAddress ∧
    payment.transactionHash = cancel.transactionHash ∧ payment.amount ≠ 0 ∧
    ∃ entry, docs.expirationEntryByHash cancel.transactionHash = .ok entry ∧
      entry.manuallyCancelled = payment.amount

theorem paidHashes_cancelled {docs : Documents} {found : List CancelSponsorContentUnit}
    {payments : List SponsorPayment} (h : List.Forall₂ (ReturnsCancelled docs) found payments) :
    paidHashes payments = found.map CancelSponsorContentUnit.transactionHash := by
  induction h with
  | nil => rfl
  | cons first _ ih => exact congrArg₂ List.cons first.2.1 ih

theorem entry_of_cancelled {docs : Documents} {found : List CancelSponsorContentUnit}
    {payments : List SponsorPayment} (h : List.Forall₂ (ReturnsCancelled docs) found payments) :
    ∀ hash ∈ paidHashes payments, ∃ entry, docs.expirationEntryByHash hash = .ok entry ∧
      entry.manuallyCancelled ≠ 0 := by
  induction h with
  | nil => exact fun _ h => nomatch h
  | @cons cancel payment _ _ first _ ih =>
      obtain ⟨_, hhash, hkept, entry, hentry, hamount⟩ := first
      intro hash hmem
      rcases List.mem_cons.mp hmem with rfl | hrest
      · exact ⟨entry, hhash ▸ hentry, hamount ▸ hkept⟩
      · exact ih hash hrest

theorem collected_returns {l : Ledger} {transactions : List SignedTransaction}
    {before collected : Collected}
    (h : transactions.foldlM (Collected.add l) before = .ok collected) :
    ∃ more, collected.returns = before.returns ++ more ∧
      List.Forall₂ (ReturnsCancelled l.documents) (cancels transactions) more := by
  induction transactions generalizing before with
  | nil =>
      cases pure_ok_iff.mp h
      exact ⟨[], (List.append_nil _).symm, .nil⟩
  | cons st rest ih =>
      rw [List.foldlM_cons] at h
      obtain ⟨mid, hmid, h⟩ := bind_ok_iff.mp h
      obtain ⟨more, hmore, hrest⟩ := ih h
      rw [Collected.add] at hmid
      rw [cancels, List.filterMap_cons]
      cases haction : st.transactionDetails.action with
      | serviceStatistics statistics =>
          simp only [haction] at hmid ⊢
          refine ⟨more, ?_, hrest⟩
          rw [hmore]
          split at hmid
          · rw [← pure_ok_iff.mp hmid]
          · rw [← pure_ok_iff.mp hmid]
          · rw [← pure_ok_iff.mp hmid]
          · cases hmid
      | cancelSponsorContentUnit cancel =>
          simp only [haction] at hmid ⊢
          obtain ⟨entry, hentry, hmid⟩ := bind_ok_iff.mp hmid
          obtain ⟨hkept, hmid⟩ := require_bind_ok_iff.mp hmid
          refine ⟨⟨cancel.sponsorAddress, cancel.transactionHash, entry.manuallyCancelled⟩ :: more,
            ?_, .cons ⟨rfl, rfl, hkept, entry, hentry, rfl⟩ hrest⟩
          rw [hmore, ← pure_ok_iff.mp hmid, List.append_assoc]
          rfl
      | _ =>
          simp only [haction] at hmid ⊢
          cases pure_ok_iff.mp hmid
          exact ⟨more, hmore, hrest⟩

/-- The three groups of what a block pays of the sponsorships, in the documents on which its
rewards are granted. -/
structure PaymentGroups (docs : Documents) (block : Block) (type : SetUsed) (granted : Granted)
    (cancelled expired : List SponsorPayment) : Prop where
  returned : granted.returned = cancelled ++ expired
  viewed : ∀ payment ∈ granted.appliedSponsorItems, ∃ uri,
    granted.unitUriViewCounts.contains uri = true ∧ docs.Holds uri payment.transactionHash false
  viewedOnce : (paidHashes granted.appliedSponsorItems).Nodup
  cancelled : List.Forall₂ (ReturnsCancelled docs) (cancels block.signedTransactions) cancelled
  expired : ReturnsExpired docs type granted.unitUriViewCounts expired

theorem expiring_named {docs : Documents} (sound : docs.SponsorshipsSound)
    (named : docs.EntriesNamed) (blockNumber : ℕ) :
    ∀ ending ∈ docs.contentUnitUriSponsorExpiring blockNumber, ending.2 ≠ "" := by
  intro ending hmem
  obtain ⟨⟨key, entry⟩, hitem, hending⟩ := List.mem_filterMap.mp hmem
  split_ifs at hending
  cases hending
  have hentry := Std.ExtTreeMap.mem_toList_iff_getElem?_eq_some.mp hitem
  exact named key entry (expirationEntryByHash_ok_iff.mpr
    ⟨blockNumber, sound.listed blockNumber key entry hentry, hentry⟩)

theorem grantRewards_groups {ctx : Context} {block : Block} {miner : String} {type : SetUsed}
    {l : Ledger} {granted : Granted} (sound : l.documents.SponsorshipsSound)
    (named : l.documents.EntriesNamed)
    (h : grantRewards ctx block miner type l = .ok granted) :
    ∃ cancelled expired, PaymentGroups l.documents block type granted cancelled expired := by
  obtain ⟨collected, shares, viewedDocs, paid, docs, expired, rewards, hcollected, _, _, hpaid,
    hexpired, _, rfl⟩ := grantRewards_stages h
  obtain ⟨cancelled, hreturns, hcancelled⟩ := collected_returns hcollected
  obtain ⟨honce, viewed, hviewedPaid, hviewed⟩ := payViewed_spec sound hpaid
  obtain rfl : paid = viewed := hviewedPaid
  have hsame (name : String) := expirationEntryByHash_congr hviewed.expiring hviewed.hashToBlock name
  have hnamed : viewedDocs.EntriesNamed := by
    intro name entry hentry
    rw [hsame] at hentry
    exact named name entry hentry
  obtain ⟨ended, hendedPaid, hended⟩ := returnExpired_spec hviewed.sound
    (expiring_named hviewed.sound hnamed _) hexpired
  obtain rfl : expired = ended := hendedPaid
  refine ⟨cancelled, expired, by rw [hreturns]; rfl, fun payment hmem => ?_, honce List.nodup_nil,
    hcancelled, hended.once, fun payment hmem => ?_, fun payment hmem => ?_⟩
  · obtain ⟨uri, huri, hholds⟩ := hviewed.held payment hmem
    exact ⟨uri, Std.ExtTreeMap.mem_keys.mp huri, hholds⟩
  · obtain ⟨uri, huri, hholds⟩ := hended.unviewed payment hmem
    exact ⟨uri, huri, (hviewed.marks _ _ _).mp hholds⟩
  · obtain ⟨entry, hentry, hzero⟩ := hended.kept payment hmem
    rw [hsame] at hentry
    exact ⟨entry, hentry, hzero⟩

/-- A sponsorship is in one group, and once, if no two cancellations name the same one. -/
theorem PaymentGroups.once_iff {docs : Documents} (sound : docs.SponsorshipsSound) {block : Block}
    {type : SetUsed} {granted : Granted} {cancelled expired : List SponsorPayment}
    (groups : PaymentGroups docs block type granted cancelled expired) :
    (paidHashes (granted.appliedSponsorItems ++ granted.returned)).Nodup ↔
      ((cancels block.signedTransactions).map CancelSponsorContentUnit.transactionHash).Nodup := by
  rw [groups.returned, ← paidHashes_cancelled groups.cancelled, paidHashes, List.map_append, List.map_append]
  change (paidHashes granted.appliedSponsorItems ++ (paidHashes cancelled ++ paidHashes expired)).Nodup
    ↔ (paidHashes cancelled).Nodup
  rw [List.nodup_append', List.nodup_append']
  constructor
  · intro h
    exact h.2.1.1
  · intro hcancelled
    refine ⟨groups.viewedOnce, ⟨hcancelled, groups.expired.once, ?_⟩, ?_⟩
    · intro hash hfirst hsecond
      obtain ⟨entry, hentry, hkept⟩ := entry_of_cancelled groups.cancelled hash hfirst
      obtain ⟨payment, hmem, rfl⟩ := List.mem_map.mp hsecond
      obtain ⟨found, hfound, hzero⟩ := groups.expired.kept payment hmem
      cases hentry.symm.trans hfound
      exact hkept hzero
    · intro hash hfirst hsecond
      obtain ⟨viewed, hviewed, rfl⟩ := List.mem_map.mp hfirst
      obtain ⟨uri, huri, hholds⟩ := groups.viewed viewed hviewed
      rcases List.mem_append.mp hsecond with hmem | hmem
      · obtain ⟨entry, hentry, hkept⟩ := entry_of_cancelled groups.cancelled _ hmem
        cases hholds.marked_of_entry sound hentry hkept
      · obtain ⟨payment, hexpired, hsame⟩ := List.mem_map.mp hmem
        obtain ⟨other, hother, hheld⟩ := groups.expired.unviewed payment hexpired
        rw [hsame] at hheld
        rw [(hholds.unique sound hheld).1, hother] at huri
        cases huri

end Publiq
