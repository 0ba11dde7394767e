import Publiq.CoinSupply
import Publiq.LogReconstruction
import Publiq.RejectedTransactions
import Publiq.SponsorshipReversal
import Publiq.SponsorshipTables

/-! A block that is disconnected leaves the ledger as it was before the block: its rewards are taken
back first, then its transactions, the last one first. -/
namespace Publiq
open Message Checked Documents

def viewUses (uris : List String) : List UnitUse := uris.map fun uri => ⟨uri, ""⟩

def returnUses (viewed : UnitViews) (expiring : List (String × String)) : List UnitUse :=
  (expiring.filter fun ending => !viewed.contains ending.1).map fun ending => ⟨ending.1, ending.2⟩

section
variable {chain : Blockchain} {blockNumber : ℕ} {type : SetUsed} {docs after : Documents}

theorem uses_of_payViewed {uris : List String} {paid payments : List SponsorPayment}
    (once : (paid.map SponsorPayment.transactionHash).Nodup)
    (h : payViewed chain blockNumber type uris (docs, paid) = .ok (after, payments)) :
    ∃ outs, RunsTo (UnitUse.pay chain blockNumber type) (viewUses uris) docs outs after ∧
      payments = paid ++ outs.flatten ∧ (payments.map SponsorPayment.transactionHash).Nodup := by
  induction uris generalizing docs paid with
  | nil =>
      cases pure_ok_iff.mp h
      exact ⟨[], .nil _, (List.append_nil _).symm, once⟩
  | cons uri rest ih =>
      obtain ⟨⟨mid, first⟩, hmid, h⟩ := bind_ok_iff.mp h
      obtain ⟨honce, h⟩ := require_bind_ok_iff.mp h
      obtain ⟨outs, hrun, hpayments, hnodup⟩ := ih honce h
      refine ⟨first :: outs, .cons hmid hrun, ?_, hnodup⟩
      rw [hpayments, List.append_assoc, List.flatten_cons]

theorem payViewed_of_uses {uris : List String} {paid : List SponsorPayment}
    {outs : List (List SponsorPayment)}
    (run : RunsTo (UnitUse.pay chain blockNumber type) (viewUses uris) docs outs after)
    (once : ((paid ++ outs.flatten).map SponsorPayment.transactionHash).Nodup) :
    payViewed chain blockNumber type uris (docs, paid) = .ok (after, paid ++ outs.flatten) := by
  induction uris generalizing docs paid outs with
  | nil =>
      cases run
      rw [List.flatten_nil, List.append_nil]
      rfl
  | cons uri rest ih =>
      cases run with
      | @cons _ _ _ mid _ first outs hmid hrun =>
          rw [List.flatten_cons, ← List.append_assoc] at once ⊢
          have hfirst : ((paid ++ first).map SponsorPayment.transactionHash).Nodup := by
            rw [List.map_append] at once
            exact once.of_append_left
          have hpay : docs.sponsoredContentUnitSetUsed chain uri blockNumber type "" "" false =
              .ok (mid, first) := hmid
          rw [payViewed, hpay, ok_bind]
          dsimp only
          rw [require_true hfirst, ok_bind]
          exact ih hrun once

theorem uses_of_returnExpired {viewed : UnitViews} {expiring : List (String × String)}
    {returned payments : List SponsorPayment}
    (h : returnExpired chain blockNumber type viewed expiring (docs, returned) =
      .ok (after, payments)) :
    ∃ outs, RunsTo (UnitUse.pay chain blockNumber type) (returnUses viewed expiring) docs outs
      after ∧ payments = returned ++ outs.flatten ∧
      ∀ payment ∈ outs.flatten, payment.amount ≠ 0 := by
  induction expiring generalizing docs returned with
  | nil =>
      cases pure_ok_iff.mp h
      exact ⟨[], .nil _, (List.append_nil _).symm, List.forall_mem_nil _⟩
  | cons ending rest ih =>
      obtain ⟨uri, hash⟩ := ending
      rw [returnExpired] at h
      split_ifs at h with hviewed
      · obtain ⟨outs, hrun, hpayments, hpaid⟩ := ih h
        refine ⟨outs, ?_, hpayments, hpaid⟩
        rwa [returnUses, List.filter_cons_of_neg (by simp [hviewed])]
      · obtain ⟨⟨mid, first⟩, hmid, h⟩ := bind_ok_iff.mp h
        obtain ⟨hfirst, h⟩ := require_bind_ok_iff.mp h
        obtain ⟨outs, hrun, hpayments, hpaid⟩ := ih h
        refine ⟨first :: outs, ?_, ?_, ?_⟩
        · rw [returnUses, List.filter_cons_of_pos (by simp [hviewed])]
          exact .cons hmid hrun
        · rw [hpayments, List.append_assoc, List.flatten_cons]
        · rw [List.flatten_cons]
          exact List.forall_mem_append.mpr ⟨hfirst, hpaid⟩

theorem returnExpired_of_uses {viewed : UnitViews} {expiring : List (String × String)}
    {returned : List SponsorPayment} {outs : List (List SponsorPayment)}
    (run : RunsTo (UnitUse.pay chain blockNumber type) (returnUses viewed expiring) docs outs after)
    (paid : ∀ payment ∈ outs.flatten, payment.amount ≠ 0) :
    returnExpired chain blockNumber type viewed expiring (docs, returned) =
      .ok (after, returned ++ outs.flatten) := by
  induction expiring generalizing docs returned outs with
  | nil =>
      cases run
      rw [List.flatten_nil, List.append_nil]
      rfl
  | cons ending rest ih =>
      obtain ⟨uri, hash⟩ := ending
      rw [returnExpired]
      by_cases hviewed : viewed.contains uri = true
      · rw [returnUses, List.filter_cons_of_neg (by simp [hviewed])] at run
        rw [if_pos hviewed]
        exact ih run paid
      · rw [returnUses, List.filter_cons_of_pos (by simp [hviewed])] at run
        cases run with
        | @cons _ _ _ mid _ first outs hmid hrun =>
            rw [List.flatten_cons, List.forall_mem_append] at paid
            have hpay : docs.sponsoredContentUnitSetUsed chain uri blockNumber type hash "" false =
                .ok (mid, first) := hmid
            rw [if_neg hviewed, hpay, ok_bind]
            dsimp only
            rw [require_true paid.1, ok_bind, List.flatten_cons, ← List.append_assoc]
            exact ih hrun paid.2

theorem sound_of_uses {uses : List UnitUse} {outs : List (List SponsorPayment)}
    (sound : docs.SponsorshipsSound)
    (run : RunsTo (UnitUse.pay chain blockNumber type) uses docs outs after) :
    after.SponsorshipsSound := by
  induction run with
  | nil => exact sound
  | cons h _ ih => exact ih (pay_sound sound h)

/-- Views and returns change the sponsorships of units, and nothing else of the documents. -/
theorem sponsored_of_uses {uses : List UnitUse} {outs : List (List SponsorPayment)}
    (sound : docs.SponsorshipsSound) (near : NextTo chain blockNumber)
    (run : RunsTo (UnitUse.pay chain blockNumber .apply) uses docs outs after) :
    ∃ sponsored, after = { docs with sponsored } := by
  induction run with
  | nil s => exact ⟨s.sponsored, rfl⟩
  | @cons use rest s mid t first outs h _ ih =>
      obtain ⟨sponsored, rfl⟩ := ih (pay_sound sound h)
      rcases pay_apply_cases sound near h with ⟨_, rfl, _⟩ | ⟨cusi, unit, _, _, rfl⟩
      · exact ⟨sponsored, rfl⟩
      · exact ⟨sponsored, rfl⟩

theorem validateStatistics_sponsored (ctx : Context) (docs : Documents)
    (sponsored : Std.ExtTreeMap String ContentUnitSponsoredInformation)
    (channelProvided storageProvided : Provided) (blockNumber : ℕ) :
    validateStatistics ctx { docs with sponsored } channelProvided storageProvided blockNumber =
      validateStatistics ctx docs channelProvided storageProvided blockNumber := rfl

theorem expiring_differ (tables : docs.TablesAgree) (blockNumber : ℕ) :
    (docs.contentUnitUriSponsorExpiring blockNumber).Pairwise fun ending other =>
      ending.2 ≠ other.2 := by
  have own : ∀ (hash : String) entry, (hash, entry) ∈ (docs.expiring.get blockNumber).toList →
      entry.transactionHash = hash := by
    intro hash entry hmem
    have hentry := Std.ExtTreeMap.mem_toList_iff_getElem?_eq_some.mp hmem
    have hlisted := tables.alone blockNumber hash entry hentry
    obtain ⟨uri, cusi, item, stored, hitem, rfl⟩ := tables.known hash blockNumber hlisted
    obtain ⟨number, cancelled, hnumber, hrecorded⟩ := tables.recorded uri cusi stored item hitem
    cases hnumber.symm.trans hlisted
    cases hrecorded.symm.trans hentry
    rfl
  rw [contentUnitUriSponsorExpiring, List.pairwise_filterMap]
  apply Std.ExtTreeMap.distinct_keys_toList.imp_of_mem
  rintro ⟨hash, entry⟩ ⟨other, another⟩ hmem hother differ ending hending last hlast
  split_ifs at hending hlast
  cases hending
  cases hlast
  rw [own hash entry hmem, own other another hother]
  exact fun h => differ (Std.compare_eq_iff_eq.mpr h)

theorem uses_apart {viewed : UnitViews} {expiring : List (String × String)}
    (named : ∀ ending ∈ expiring, ending.2 ≠ "")
    (differ : expiring.Pairwise fun ending other => ending.2 ≠ other.2) :
    (viewUses viewed.keys ++ returnUses viewed expiring).Pairwise UnitUse.Apart := by
  rw [List.pairwise_append]
  refine ⟨?_, ?_, ?_⟩
  · rw [viewUses, List.pairwise_map]
    exact Std.ExtTreeMap.nodup_keys.imp fun h => .inl h
  · rw [returnUses, List.pairwise_map]
    apply (differ.filter _).imp_of_mem
    intro ending other hmem hother h
    exact .inr ⟨named ending (List.mem_of_mem_filter hmem), named other
      (List.mem_of_mem_filter hother), h⟩
  · intro view hview back hback
    obtain ⟨uri, huri, rfl⟩ := List.mem_map.mp hview
    obtain ⟨ending, hending, rfl⟩ := List.mem_map.mp hback
    left
    rintro rfl
    have hviewed : viewed.contains ending.1 = true := Std.ExtTreeMap.mem_keys.mp huri
    simp [hviewed] at hending

end

/-- What a transaction adds to the rewards of its block does not depend on the sponsorships of
units, nor on balances. -/
theorem collect_same {l : Ledger} {state : State} (roles : state.roles = l.state.roles)
    (sponsored : Std.ExtTreeMap String ContentUnitSponsoredInformation) :
    Collected.add { l with state, documents := { l.documents with sponsored } } =
      Collected.add l := by
  funext collected st
  unfold Collected.add State.getRole
  dsimp only
  rw [roles]
  rfl

/-- What a block has granted is granted back: the same payments, of the same sponsorships, and the
documents are what they were. -/
theorem grantRewards_back {ctx : Context} {block : Block} {miner : String} {l : Ledger}
    {granted : Granted} {state : State} (roles : state.roles = l.state.roles)
    (sound : l.documents.SponsorshipsSound) (inOrder : l.documents.EachInOrder)
    (tables : l.documents.TablesAgree) (named : l.documents.EntriesNamed)
    (near : NextTo ctx.blockchain block.header.blockNumber.toNat)
    (inTime : ∀ viewed, viewedUnits ctx block l = .ok viewed → ∀ uri ∈ viewed, ∀ cusi,
      l.documents.sponsored[uri]? = some cusi →
        PaidInTime cusi (payTime ctx.blockchain block.header.blockNumber.toNat))
    (h : grantRewards ctx block miner .apply l = .ok granted) :
    grantRewards ctx block miner .revert { l with state, documents := granted.documents } =
      .ok { granted with documents := l.documents } := by
  obtain ⟨collected, shares, viewedDocs, paid, docs, expired, rewards, hcollected, hshares,
    hcomplete, hpaid, hexpired, hrewards, rfl⟩ := grantRewards_stages h
  have hviewed : viewedUnits ctx block l = .ok shares.unitUriViewCounts := by
    rw [viewedUnits, hcollected, ok_bind, hshares]
    rfl
  have hnone : (([] : List SponsorPayment).map SponsorPayment.transactionHash).Nodup :=
    List.nodup_nil
  obtain ⟨views, hviews, rfl, honce⟩ := uses_of_payViewed hnone hpaid
  obtain ⟨returns, hreturns, rfl, hnonzero⟩ := uses_of_returnExpired hexpired
  obtain ⟨seen, rfl⟩ := sponsored_of_uses sound near hviews
  change RunsTo _ (returnUses _ (l.documents.contentUnitUriSponsorExpiring _)) _ _ _ at hreturns
  have hrun := hviews.append hreturns
  obtain ⟨sponsored, rfl⟩ := sponsored_of_uses sound near hrun
  -- the uses are taken back in the order in which they were made
  have hback := (usesTakenBack near).run sound (fun use huse => ?_)
    (uses_apart (expiring_named sound named _) (expiring_differ tables _)) hrun
  · obtain ⟨back, viewsAgain, returnsAgain, hsame, hlength, hunviewed, hunreturned⟩ := hback.split
    obtain ⟨rfl, rfl⟩ := List.append_inj hsame (hviews.length.trans hlength.symm)
    have hcollectedBack : block.signedTransactions.foldlM (Collected.add { l with
        state, documents := { l.documents with sponsored } }) ⟨∅, ∅, []⟩ = .ok collected := by
      rw [collect_same roles]
      exact hcollected
    have hsharesBack := hshares
    rw [← validateStatistics_sponsored ctx l.documents sponsored] at hsharesBack
    have hviewsBack := payViewed_of_uses hunviewed honce
    obtain ⟨_, _, _, hviewsDone⟩ := payViewed_spec (sound_of_uses sound hrun) hviewsBack
    have hending : back.contentUnitUriSponsorExpiring block.header.blockNumber.toNat =
        l.documents.contentUnitUriSponsorExpiring block.header.blockNumber.toNat := by
      rw [contentUnitUriSponsorExpiring, hviewsDone.expiring]
      rfl
    have hreturnsBack : returnExpired ctx.blockchain block.header.blockNumber.toNat .revert
        shares.unitUriViewCounts
        (back.contentUnitUriSponsorExpiring block.header.blockNumber.toNat) (back, []) =
        .ok (l.documents, [] ++ returns.flatten) := by
      rw [hending]
      exact returnExpired_of_uses hunreturned hnonzero
    rw [grantRewards, hcollectedBack, ok_bind]
    dsimp only
    rw [hsharesBack, ok_bind, require_true hcomplete, ok_bind, hviewsBack, ok_bind]
    dsimp only
    rw [hreturnsBack, ok_bind]
    dsimp only
    rw [hrewards]
    rfl
  · -- a return always fits, and a view is paid in time
    intro hview cusi stored
    rcases List.mem_append.mp huse with hmem | hmem
    · obtain ⟨uri, huri, rfl⟩ := List.mem_map.mp hmem
      exact ⟨inOrder uri cusi stored,
        inTime _ hviewed uri (Std.ExtTreeMap.mem_keys.mp huri) cusi stored⟩
    · obtain ⟨ending, hending, rfl⟩ := List.mem_map.mp hmem
      exact absurd hview (expiring_named sound named _ ending (List.mem_of_mem_filter hending))

/-- The sponsorships of a run are again what they were when the grants of a block are taken back,
though this goes through the uses of the block from the first one on. -/
theorem SponsorshipRun.grantRewards_back {ctx : Context} {block : Block} {miner : String}
    {l : Ledger} {granted back : Granted} {state : State} {past : StandingCalls}
    (run : SponsorshipRun past l.documents) (roles : state.roles = l.state.roles)
    (named : l.documents.EntriesNamed)
    (near : NextTo ctx.blockchain block.header.blockNumber.toNat)
    (h : grantRewards ctx block miner .apply l = .ok granted)
    (hback : grantRewards ctx block miner .revert
      { l with state, documents := granted.documents } = .ok back) :
    SponsorshipRun past back.documents := by
  have sound := run.built.sound
  obtain ⟨collected, shares, viewedDocs, paid, docs, expired, rewards, hcollected, hshares, _,
    hpaid, hexpired, _, rfl⟩ := grantRewards_stages h
  have hnone : (([] : List SponsorPayment).map SponsorPayment.transactionHash).Nodup :=
    List.nodup_nil
  obtain ⟨views, hviews, _⟩ := uses_of_payViewed hnone hpaid
  obtain ⟨returns, hreturns, _⟩ := uses_of_returnExpired hexpired
  obtain ⟨seen, rfl⟩ := sponsored_of_uses sound near hviews
  change RunsTo _ (returnUses _ (l.documents.contentUnitUriSponsorExpiring _)) _ _ _ at hreturns
  have hrun := hviews.append hreturns
  obtain ⟨sponsored, rfl⟩ := sponsored_of_uses sound near hrun
  obtain ⟨again, sharesAgain, unviewed, _, unreturned, _, _, hagain, hsharesAgain, _, hunviewed,
    hunreturned, _, rfl⟩ := grantRewards_stages hback
  -- the revert collects the same views, and so goes through the same uses
  rw [collect_same roles] at hagain
  cases hagain.symm.trans hcollected
  change validateStatistics ctx { l.documents with sponsored } _ _ _ = _ at hsharesAgain
  rw [validateStatistics_sponsored] at hsharesAgain
  cases hsharesAgain.symm.trans hshares
  obtain ⟨_, hunviews, _⟩ := uses_of_payViewed hnone hunviewed
  obtain ⟨_, hunreturns, _⟩ := uses_of_returnExpired hunreturned
  obtain ⟨_, _, _, hviewsDone⟩ := payViewed_spec (sound_of_uses sound hrun) hunviewed
  have hending : unviewed.contentUnitUriSponsorExpiring block.header.blockNumber.toNat =
      l.documents.contentUnitUriSponsorExpiring block.header.blockNumber.toNat := by
    rw [contentUnitUriSponsorExpiring, hviewsDone.expiring]
    rfl
  rw [hending] at hunreturns
  cases run.takenBack near (uses_apart (expiring_named sound named _)
    (expiring_differ run.built.tablesAgree _)) hrun (hunviews.append hunreturns)
  exact run

section
variable {l after : Ledger} {rtt : ℕ}

theorem requireSigners_same {e e' : String × String → Failure} {signers : List (String × String)}
    (h : Message.requireSigners l rtt e signers = .ok ())
    (same : after.authorityManager = l.authorityManager) :
    Message.requireSigners after rtt e' signers = .ok () := by
  induction signers with
  | nil => rfl
  | cons signer rest ih =>
      obtain ⟨_, hfirst, h⟩ := bind_ok_iff.mp h
      rw [Message.requireSigners, requireAuthority_same hfirst same, ok_bind, ih h]

end

section
variable {ctx : Context} {st : SignedTransaction} {layer : StateLayer} {l applied : Ledger}

theorem Message.Transfer.actionRevert_total {a : Transfer} (sound : LedgerSound ctx.own layer l)
    (fits : l.state.supply < Coin.limit) (happly : a.actionApply ctx st layer l = .ok applied) :
    ∃ reverted, a.actionRevert ctx st layer applied = .ok reverted := by
  obtain ⟨_, hpermitted, happly⟩ := bind_ok_iff.mp happly
  obtain ⟨mid, hmid, happly⟩ := bind_ok_iff.mp happly
  obtain ⟨coin, hcoin, hmid⟩ := bind_ok_iff.mp hmid
  cases pure_ok_iff.mp hmid
  obtain ⟨same, hsame, happly⟩ := bind_ok_iff.mp happly
  cases hcoin.symm.trans hsame
  obtain ⟨state, hstate, happly⟩ := bind_ok_iff.mp happly
  cases pure_ok_iff.mp happly
  have hgained := sound.balances.increaseBalance a.target coin
  have hback : state.increaseBalance ctx.own a.source coin layer =
      l.state.increaseBalance ctx.own a.target coin layer :=
    State.increaseBalance_decreaseBalance hgained.synced hstate
  have hbefore : (state.increaseBalance ctx.own a.source coin layer).decreaseBalance ctx.own
      a.target coin layer = .ok l.state := by
    rw [hback]
    exact State.decreaseBalance_increaseBalance sound.balances.synced
      (State.worth_fits_of_moved fits hstate)
  refine ⟨_, bind_ok_iff.mpr ⟨_, bind_ok_iff.mpr ⟨coin, hcoin, rfl⟩, bind_ok_iff.mpr ⟨_,
    bind_ok_iff.mpr ⟨coin, hcoin, bind_ok_iff.mpr ⟨_, hbefore, rfl⟩⟩,
    bind_ok_iff.mpr ⟨_, requireAuthority_same hpermitted rfl, rfl⟩⟩⟩⟩

theorem Message.SponsorContentUnit.actionRevert_total [Externals] {a : SponsorContentUnit}
    (sound : LedgerSound ctx.own layer l)
    (fresh : l.documents.hashToBlock[transactionHash st]? = none)
    (happly : a.actionApply ctx st layer l = .ok applied) :
    ∃ reverted, a.actionRevert ctx st layer applied = .ok reverted :=
  (a.revert_apply_iff sound fresh happly).imp fun _ h => h.1

theorem Message.CancelSponsorContentUnit.actionRevert_total {a : CancelSponsorContentUnit}
    (sound : LedgerSound ctx.own layer l) (named : a.transactionHash ≠ "")
    (happly : a.actionApply ctx st l = .ok applied) :
    ∃ reverted, a.actionRevert ctx st applied = .ok reverted := by
  obtain ⟨_, hpermitted, happly⟩ := bind_ok_iff.mp happly
  obtain ⟨_, happly⟩ := require_bind_ok_iff.mp happly
  obtain ⟨⟨docs, payments⟩, hused, happly⟩ := bind_ok_iff.mp happly
  obtain ⟨hpaid, happly⟩ := require_bind_ok_iff.mp happly
  cases pure_ok_iff.mp happly
  have hback := Documents.setUsed_undo sound.sponsorships
    (Documents.nextTo_length ctx.blockchain) named hused
  refine ⟨_, bind_ok_iff.mpr ⟨_, hback, require_bind_ok_iff.mpr ⟨hpaid, bind_ok_iff.mpr
    ⟨_, requireAuthority_same hpermitted rfl, rfl⟩⟩⟩⟩

/-- An action that is done can be taken back while it is the last thing that was done. -/
theorem actionRevert_total [Externals] (empty : Externals.EmptyNoUri) {config : Config}
    (sound : LedgerSound ctx.own layer l) (valid : actionValidate config st true = .ok ())
    (fresh : FreshSponsorship st l) (fits : l.state.supply < Coin.limit)
    (happly : actionApply ctx st layer l = .ok applied) :
    ∃ reverted, actionRevert ctx st layer applied = .ok reverted := by
  have complete := complete_of_actionValidate valid
  obtain ⟨_, _, valid⟩ := bind_ok_iff.mp valid
  obtain ⟨_, hallowed, happly⟩ := bind_ok_iff.mp happly
  unfold actionRevert
  simp only [hallowed, ok_bind]
  unfold SignedTransaction.isComplete at complete
  cases haction : st.transactionDetails.action with
  | transfer a =>
      rw [haction] at happly
      exact a.actionRevert_total sound fits happly
  | authorizationUpdate a =>
      rw [haction] at happly
      have happly := requireAuthority_bind happly
      obtain ⟨m, hm, rfl⟩ := onAuthorities_ok_iff.mp happly
      exact ⟨_, onAuthorities_ok_iff.mpr
        ⟨_, AuthorizationUpdate.revert_rewrite sound.normal hm, rfl⟩⟩
  | file a =>
      rw [haction] at happly complete
      obtain ⟨_, hpermitted, happly⟩ := bind_ok_iff.mp happly
      obtain ⟨_, happly⟩ := require_bind_ok_iff.mp happly
      cases pure_ok_iff.mp happly
      have hcomplete : a.actionIsComplete st = true := complete
      rw [Message.requireComplete, if_pos hcomplete] at hpermitted
      exact ⟨_, bind_ok_iff.mpr ⟨_, requireSigners_same hpermitted rfl, rfl⟩⟩
  | contentUnit a =>
      rw [haction] at happly complete
      obtain ⟨_, hpermitted, happly⟩ := bind_ok_iff.mp happly
      have hcomplete : a.actionIsComplete st = true := complete
      rw [Message.requireComplete, if_pos hcomplete] at hpermitted
      split at happly
      · cases happly
      · obtain ⟨_, happly⟩ := require_bind_ok_iff.mp happly
        split at happly
        · cases happly
        · cases pure_ok_iff.mp happly
          exact ⟨_, bind_ok_iff.mpr ⟨_, requireSigners_same hpermitted rfl, rfl⟩⟩
  | content a =>
      rw [haction] at happly
      obtain rfl := a.apply_eq happly
      obtain ⟨_, hpermitted, _⟩ := bind_ok_iff.mp happly
      exact ⟨_, bind_ok_iff.mpr ⟨_, requireAuthority_same hpermitted rfl, rfl⟩⟩
  | role a =>
      rw [haction] at happly
      obtain ⟨_, hpermitted, happly⟩ := bind_ok_iff.mp happly
      obtain ⟨_, happly⟩ := require_bind_ok_iff.mp happly
      obtain ⟨_, happly⟩ := require_bind_ok_iff.mp happly
      obtain ⟨_, _, happly⟩ := bind_ok_iff.mp happly
      obtain ⟨state, hstate, happly⟩ := bind_ok_iff.mp happly
      cases pure_ok_iff.mp happly
      exact ⟨_, bind_ok_iff.mpr ⟨_, requireAuthority_same hpermitted rfl, rfl⟩⟩
  | storageUpdate a =>
      rw [haction] at happly
      obtain ⟨_, hpermitted, happly⟩ := bind_ok_iff.mp happly
      obtain ⟨_, happly⟩ := require_bind_ok_iff.mp happly
      obtain ⟨_, happly⟩ := require_bind_ok_iff.mp happly
      obtain ⟨_, happly⟩ := require_bind_ok_iff.mp happly
      cases pure_ok_iff.mp happly
      exact ⟨_, bind_ok_iff.mpr ⟨_, requireAuthority_same hpermitted rfl, rfl⟩⟩
  | serviceStatistics a =>
      rw [haction] at happly
      obtain rfl := a.apply_eq happly
      obtain ⟨_, hpermitted, _⟩ := bind_ok_iff.mp happly
      exact ⟨_, bind_ok_iff.mpr ⟨_, requireAuthority_same hpermitted rfl, rfl⟩⟩
  | sponsorContentUnit a =>
      rw [haction] at happly
      exact a.actionRevert_total sound (fresh a haction) happly
  | cancelSponsorContentUnit a =>
      rw [haction] at happly valid
      exact a.actionRevert_total sound (a.hash_named empty valid) happly
  | unknown rtt =>
      rw [haction] at happly
      cases happly

end

namespace State
variable {own source target : String} {amount : Coin} {s t : State}

theorem eq_of_worth (hs : s.OwnBalance own .chain) (ht : t.OwnBalance own .chain)
    (worth : ∀ key, s.worth key = t.worth key) (roles : s.roles = t.roles) : s = t := by
  have accounts : ∀ key, s.accounts.get key = t.accounts.get key :=
    fun key => Coin.value_injective (worth key)
  refine ext_get accounts (fun key => ?_) roles
  rw [hs.synced rfl key, ht.synced rfl key, accounts]

theorem decreaseBalance_roles {key : String} {layer : StateLayer}
    (h : decreaseBalance own key amount layer s = .ok t) : t.roles = s.roles := by
  rcases decreaseBalance_ok_iff.mp h with ⟨_, rfl⟩ | ⟨_, rest, _, rfl⟩
  · rfl
  · rfl

/-- A fee that its receiver gets before its payer gives it is taken back in the same order. The
payer has the fee, so the receiver can give it back even if it is the payer. -/
theorem move_back (balances : s.OwnBalance own .chain) (fits : s.supply < Coin.limit)
    (has : amount.value ≤ s.worth source)
    (h : decreaseBalance own source amount .chain (increaseBalance own target amount .chain s) =
      .ok t) :
    ∃ u, decreaseBalance own target amount .chain t = .ok u ∧
      increaseBalance own source amount .chain u = s := by
  have hroom := worth_fits_of_moved fits h
  have hgained (key : String) : (increaseBalance own target amount .chain s).worth key =
      s.worth key + if target = key then amount.value else 0 := worth_increaseBalance hroom key
  have hgave := worth_decreaseBalance h
  have hthere : amount.value ≤ t.worth target := by
    have hgain := hgained target
    have hgive := hgave target
    rw [if_pos rfl] at hgain
    split_ifs at hgive with hsame
    · rw [hsame] at has
      omega
    · omega
  obtain ⟨u, hu⟩ := decreaseBalance_total own target .chain hthere
  have htaken := worth_decreaseBalance hu
  have hworth : ∀ key, (increaseBalance own source amount .chain u).worth key = s.worth key := by
    have hback : u.worth source + amount.value = s.worth source := by
      have hgain := hgained source
      have hgive := hgave source
      have htake := htaken source
      rw [if_pos rfl] at hgive
      omega
    have hlimit := (s.accounts.get source).value_bound
    intro key
    rw [worth_increaseBalance (hback ▸ hlimit)]
    have hgain := hgained key
    have hgive := hgave key
    have htake := htaken key
    omega
  refine ⟨u, hu, eq_of_worth ?_ balances hworth ?_⟩
  · exact (((balances.increaseBalance target amount).decreaseBalance h).decreaseBalance
      hu).increaseBalance source amount
  · rw [increaseBalance_roles, decreaseBalance_roles hu, decreaseBalance_roles h,
      increaseBalance_roles]

end State

section
variable {ctx : Context} {st : SignedTransaction} {miner : String} {l after : Ledger}

theorem feeRevert_feeApply (balances : l.state.OwnBalance ctx.own .chain)
    (fits : l.state.supply < Coin.limit) (affords : feeCanApply st l = .ok true)
    (h : feeApply ctx st miner l = .ok after) : feeRevert ctx st miner after = .ok l := by
  unfold feeApply at h
  unfold feeRevert
  split_ifs at h ⊢
  · cases pure_ok_iff.mp h
    rfl
  · obtain ⟨payer, hpayer, h⟩ := bind_ok_iff.mp h
    obtain ⟨mid, hmid, h⟩ := bind_ok_iff.mp h
    obtain ⟨coin, hcoin, hmid⟩ := bind_ok_iff.mp hmid
    cases pure_ok_iff.mp hmid
    obtain ⟨same, hsame, h⟩ := bind_ok_iff.mp h
    cases hcoin.symm.trans hsame
    obtain ⟨state, hstate, h⟩ := bind_ok_iff.mp h
    cases pure_ok_iff.mp h
    have has : coin.value ≤ l.state.worth payer := by
      rw [feeCanApply, hpayer, ok_bind, Ledger.balanceBelow, hcoin, ok_bind] at affords
      have hnot : (l.state.getBalance payer .pool).lt coin = false := by
        simpa using pure_ok_iff.mp affords
      rw [Bool.eq_false_iff, Ne, Coin.lt_iff_value] at hnot
      exact not_lt.mp hnot
    obtain ⟨taken, htaken, hback⟩ := State.move_back balances fits has hstate
    refine bind_ok_iff.mpr ⟨payer, hpayer, bind_ok_iff.mpr ⟨{ l with state := taken },
      bind_ok_iff.mpr ⟨coin, hcoin, bind_ok_iff.mpr ⟨taken, htaken, rfl⟩⟩,
      bind_ok_iff.mpr ⟨coin, hcoin, ?_⟩⟩⟩
    dsimp only
    rw [hback]
    rfl

variable [Externals]

theorem revertTransaction_applyMined (empty : Externals.EmptyNoUri) {config : Config}
    (layer : layerOf miner = .chain) (sound : LedgerSound ctx.own .chain l)
    (valid : actionValidate config st true = .ok ()) (fresh : FreshSponsorship st l)
    (fits : l.state.supply < Coin.limit) (h : applyMined ctx miner st l = .ok after) :
    revertTransaction ctx miner st after = .ok l := by
  obtain ⟨⟨applied, reached⟩, happly, h⟩ := bind_ok_iff.mp h
  obtain ⟨happlied, h⟩ := require_bind_ok_iff.mp h
  cases pure_ok_iff.mp h
  obtain rfl : applied = true := happlied
  obtain ⟨mid, hmid, hfee, hpaid⟩ := paid_of_applied happly
  rw [layer] at hmid
  have hsound := sound.actionApply fresh hmid
  have hmoved := supply_actionApply fits hmid
  obtain ⟨reverted, hreverted⟩ := actionRevert_total empty sound valid fresh fits hmid
  obtain rfl := revert_apply empty sound valid fresh hmid hreverted
  rw [revertTransaction, feeRevert_feeApply hsound.balances (by omega) hfee hpaid, ok_bind, layer]
  exact hreverted

theorem revertTransactions_runMined (empty : Externals.EmptyNoUri)
    (layer : layerOf miner = .chain) {transactions : List SignedTransaction}
    (sound : LedgerSound ctx.own .chain l)
    (valid : ∀ st ∈ transactions, actionValidate ctx.config st true = .ok ())
    (fresh : ∀ before st rest mid, transactions = before ++ st :: rest →
      runAll (applyMined ctx miner) before l = .ok mid → FreshSponsorship st mid)
    (fits : l.state.supply < Coin.limit)
    (h : runAll (applyMined ctx miner) transactions l = .ok after) :
    runAll (revertTransaction ctx miner) transactions.reverse after = .ok l := by
  induction transactions generalizing l with
  | nil =>
      cases h
      rfl
  | cons st rest ih =>
      rw [List.forall_mem_cons] at valid
      obtain ⟨mid, hmid, h⟩ := runAll_cons_ok_iff.mp h
      have hfresh := fresh [] st rest l rfl rfl
      have hsound : LedgerSound ctx.own .chain mid := by
        have hlayer := sound
        rw [← layer] at hlayer ⊢
        exact hlayer.applyTransaction hfresh (applyTransaction_of_applyMined hmid)
      have hmoved := supply_applyMined fits hmid
      have hrest := ih hsound valid.2
        (fun before other tail found hsplit hrun => fresh (st :: before) other tail found
          (by rw [hsplit]; rfl) (runAll_cons_ok_iff.mpr ⟨mid, hmid, hrun⟩)) (by omega) h
      rw [List.reverse_cons, runAll_append, hrest, ok_bind, runAll_singleton]
      exact revertTransaction_applyMined empty layer sound valid.1 hfresh fits hmid

omit [Externals] in
theorem increaseRewards_frame {rewards : List Reward} (h : increaseRewards ctx rewards l = .ok after) :
    ∃ state, after = { l with state } ∧ state.roles = l.state.roles := by
  induction rewards generalizing l with
  | nil =>
      cases h
      exact ⟨_, rfl, rfl⟩
  | cons reward rest ih =>
      obtain ⟨mid, hmid, h⟩ := runAll_cons_ok_iff.mp h
      obtain ⟨coin, _, hmid⟩ := bind_ok_iff.mp hmid
      cases pure_ok_iff.mp hmid
      obtain ⟨state, rfl, hroles⟩ := ih h
      exact ⟨state, rfl, hroles.trans (State.increaseBalance_roles _ _ _ _ _)⟩

omit [Externals] in
/-- The rewards of a block are taken back, whatever became of the documents. -/
theorem decreaseRewards_increaseRewards {rewards : List Reward}
    (balances : l.state.OwnBalance ctx.own .chain)
    (fits : l.state.supply + sumRewards rewards < Coin.limit)
    (h : increaseRewards ctx rewards l = .ok after) (documents : Documents) :
    decreaseRewards ctx rewards { after with documents } = .ok { l with documents } := by
  induction rewards generalizing l with
  | nil =>
      cases h
      rfl
  | cons reward rest ih =>
      have hsum : sumRewards (reward :: rest) = reward.amount.value + sumRewards rest := rfl
      obtain ⟨mid, hmid, h⟩ := runAll_cons_ok_iff.mp h
      have hsupply := supply_increase (by omega) hmid
      obtain ⟨coin, hcoin, hmid⟩ := bind_ok_iff.mp hmid
      cases pure_ok_iff.mp hmid
      have hrest := ih (balances.increaseBalance reward.target coin) (by omega) h
      unfold decreaseRewards at hrest ⊢
      rw [List.reverse_cons, runAll_append, hrest, ok_bind, runAll_singleton]
      have hvalue := (Coin.proper_of_ofMessage hcoin).2
      have hworth := l.state.worth_le_supply reward.target
      have hroom : l.state.worth reward.target + coin.value < Coin.limit := by omega
      have hback : State.decreaseBalance ctx.own reward.target coin .chain
          (l.state.increaseBalance ctx.own reward.target coin .chain) = .ok l.state :=
        State.decreaseBalance_increaseBalance balances.synced hroom
      exact bind_ok_iff.mpr ⟨coin, hcoin, bind_ok_iff.mpr ⟨l.state, hback, rfl⟩⟩

end

section
variable [Externals] {ctx : Context} {b : AppliedBlock} {miner : String} {mid : Ledger}
  {granted : Granted} {chain : Blockchain} {l : Ledger}

theorem revertRewards_replayed (replayed : Replayed ctx b miner mid granted chain l)
    (sound : LedgerSound ctx.own .chain mid) (inOrder : mid.documents.EachInOrder)
    (tables : mid.documents.TablesAgree) (named : mid.documents.EntriesNamed)
    (inTime : ∀ viewed, viewedUnits (ctx.withChain b.chain) b.block mid = .ok viewed →
      ∀ uri ∈ viewed, PaysInTime b.chain mid.documents uri)
    (fits : mid.state.supply + sumRewards granted.rewards < Coin.limit) :
    revertRewards (ctx.withChain b.chain) b.block miner l = .ok mid := by
  have hnumber : b.block.header.blockNumber.toNat = b.chain.length := replayed.number
  obtain ⟨state, hl, hroles⟩ := increaseRewards_frame replayed.rewards
  have hback : grantRewards (ctx.withChain b.chain) b.block miner .revert l =
      .ok { granted with documents := mid.documents } := by
    rw [hl]
    refine grantRewards_back (l := mid) hroles sound.sponsorships inOrder tables named ?_
      (fun viewed hviewed uri hmem cusi stored => ?_) replayed.grants
    · rw [hnumber]
      exact nextTo_length b.chain
    · rw [hnumber]
      exact inTime viewed hviewed uri hmem cusi stored
  have htaken := decreaseRewards_increaseRewards
    (l := { mid with documents := granted.documents }) sound.balances fits replayed.rewards
    mid.documents
  rw [revertRewards, checkRewards, hback, ok_bind, pure_bind]
  dsimp only
  rw [require_true (decide_eq_false (not_not.mpr replayed.stated)), ok_bind, ← replayed.stated]
  exact htaken

/-- A block of a chain is taken back to what it was applied to. -/
theorem revertBlock_replayed (empty : Externals.EmptyNoUri) (keyed : Externals.publicKey "" ≠ .ok ())
    (hashed : ∀ s, Externals.hash s ≠ "") {genesis : BlockHeader} {blocks : List AppliedBlock}
    (kept : PayoutsKept ctx genesis blocks b.chain b.start) (since : 0 ≤ genesis.timeSigned)
    (signed : Externals.publicKey b.signedBlock.authorization.address = .ok ())
    (valid : ∀ st ∈ b.block.signedTransactions, actionValidate ctx.config st true = .ok ())
    (clear : b.Clear ctx) (fits : b.start.state.supply < Coin.limit)
    (room : mid.state.supply + sumRewards granted.rewards < Coin.limit)
    (replayed : Replayed ctx b miner mid granted chain l) :
    revertBlock (ctx.withChain b.chain) b.block miner l = .ok b.start := by
  have layer : layerOf miner = .chain := by
    refine if_neg (getMiner_ne_empty ?_ replayed.mined)
    intro hnone
    rw [hnone] at signed
    exact keyed signed
  have hclear : ∀ before st rest found, b.block.signedTransactions = before ++ st :: rest →
      runAll (applyMined (ctx.withChain b.chain) miner) before b.start = .ok found →
      ClearTransaction (ctx.withChain b.chain) st found :=
    fun before st rest found hsplit hfound => clear.transactions before st rest found hsplit
      ((replayed.ledger before).trans hfound)
  obtain ⟨past, built, _, _⟩ := kept.built
  have hcalls : ∃ cancelled calls, TransactionCalls (ctx.withChain b.chain) miner genesis
      b.block.signedTransactions cancelled calls past b.start mid :=
    transactionCalls_of_run empty keyed layer kept.first since kept.reached built valid hclear
      replayed.run
  obtain ⟨cancelled, calls, hcalls⟩ := hcalls
  have hmid : Reached ctx.own .chain mid := by
    have hlayer := kept.reached
    rw [← layer] at hlayer ⊢
    exact hcalls.filled.reached hlayer
  have hrewards := revertRewards_replayed replayed hmid.sound hcalls.built.inOrder
    hcalls.built.tablesAgree (hmid.entriesNamed hashed)
    (fun viewed hviewed uri hmem => clear.inTime mid viewed
      ((replayed.ledger _).trans replayed.run) hviewed uri (.inl hmem)) room
  rw [revertBlock, hrewards, ok_bind]
  refine revertTransactions_runMined empty layer kept.reached.sound valid ?_ fits replayed.run
  intro before st rest found hsplit hfound spi haction
  have hthis := hclear before st rest found hsplit hfound
  rw [ClearTransaction, haction] at hthis
  exact hthis.2.2

end

end Publiq
