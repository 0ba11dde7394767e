import Publiq.BlockLedger
import Publiq.Cancellations

/-! What is left of a cancelled sponsorship is returned in the block of its cancellation and in no
later one, however the last blocks are replaced by others. -/
namespace Publiq
open Message Checked

/-- A block that was applied, with its cancellations and the documents each was applied to. -/
structure BuiltBlock where
  block : Block
  cancelled : List (CancelSponsorContentUnit × Documents)
  granted : Granted

def namedIn (cancelled : List (CancelSponsorContentUnit × Documents)) : List String :=
  cancelled.map fun applied => applied.1.transactionHash

def cancelledOn (st : SignedTransaction) (docs : Documents) :
    List (CancelSponsorContentUnit × Documents) :=
  match st.transactionDetails.action with
  | .cancelSponsorContentUnit cancel => [(cancel, docs)]
  | _ => []

/-- The transactions of a block as they are applied. Others are tried and refused. -/
inductive BlockFilled [Externals] (ctx : Context) (miner : String) : List SignedTransaction →
    List (CancelSponsorContentUnit × Documents) → Ledger → Ledger → Prop
  | done {l : Ledger} : BlockFilled ctx miner [] [] l l
  | applied {st : SignedTransaction} {rest : List SignedTransaction}
      {later : List (CancelSponsorContentUnit × Documents)} {l mid after : Ledger}
      {checkComplete : Bool} : actionValidate ctx.config st checkComplete = .ok () →
      FreshSponsorship st l → (∀ cancel, st.transactionDetails.action =
        .cancelSponsorContentUnit cancel → cancel.Heeded ctx st l) →
      applyTransaction ctx miner st l = .ok (true, mid) →
      BlockFilled ctx miner rest later mid after →
      BlockFilled ctx miner (st :: rest) (cancelledOn st l.documents ++ later) l after
  | refused {st : SignedTransaction} {rest : List SignedTransaction}
      {later : List (CancelSponsorContentUnit × Documents)} {l mid after : Ledger}
      {checkComplete : Bool} : actionValidate ctx.config st checkComplete = .ok () →
      FreshSponsorship st l → applyTransaction ctx miner st l = .ok (false, mid) →
      BlockFilled ctx miner rest later mid after → BlockFilled ctx miner rest later l after

/-- A chain of blocks that grows on a ledger, and of which the last blocks are taken back. -/
inductive ChainRun [Externals] (own : String) (start : Ledger) : List BuiltBlock → Ledger → Prop
  | start : ChainRun own start [] start
  | connect {ctx : Context} {miner : String} {past : List BuiltBlock} {built : BuiltBlock}
      {l mid after : Ledger} : ChainRun own start past l → ctx.own = own →
      layerOf miner = .chain →
      BlockFilled ctx miner built.block.signedTransactions built.cancelled l mid →
      grantRewards ctx built.block miner .apply mid = .ok built.granted →
      increaseRewards ctx built.granted.rewards { mid with documents := built.granted.documents } =
        .ok after → ChainRun own start (built :: past) after
  | disconnect {ctx : Context} {miner : String} {past : List BuiltBlock} {built : BuiltBlock}
      {l after : Ledger} : ChainRun own start (built :: past) l → ctx.own = own →
      layerOf miner = .chain → revertBlock ctx built.block miner l = .ok after →
      ChainRun own start past after

def PaysBack (applied : CancelSponsorContentUnit × Documents) (payment : SponsorPayment) : Prop :=
  payment.sponsorAddress = applied.1.sponsorAddress ∧
    payment.transactionHash = applied.1.transactionHash ∧
    ∃ cusi item, applied.1.TakesBack applied.2 cusi item payment.amount

/-- Each cancellation of a block is paid back in it, once, and in no block after it. -/
structure ReturnsOnce (past : List BuiltBlock) : Prop where
  paidBack : ∀ built ∈ past, ∃ returned expired,
    built.granted.returned = returned ++ expired ∧ List.Forall₂ PaysBack built.cancelled returned
  rewarded : ∀ built ∈ past,
    built.granted.rewards.filter (fun reward => reward.rewardType = .sponsoredReturn) =
      rewardsOf .sponsoredReturn (returnsBySponsor built.granted.returned).toList
  once : ∀ built ∈ past,
    (paidHashes (built.granted.appliedSponsorItems ++ built.granted.returned)).Nodup
  never : past.Pairwise fun later earlier => ∀ hash ∈ namedIn earlier.cancelled,
    hash ∉ paidHashes (later.granted.appliedSponsorItems ++ later.granted.returned)

def Documents.Spent (docs : Documents) (hashes : List String) : Prop :=
  ∀ hash ∈ hashes, hash ≠ "" ∧ ∃ amount, docs.CancelledFor hash amount

theorem Message.CancelSponsorContentUnit.sponsor_named [Externals]
    (keyed : Externals.publicKey "" ≠ .ok ()) {st : SignedTransaction}
    {cancel : CancelSponsorContentUnit} {u : Unit} (valid : cancel.actionValidate st = .ok u) :
    cancel.sponsorAddress ≠ "" := by
  obtain ⟨_, valid⟩ := require_bind_ok_iff.mp valid
  obtain ⟨_, hkey, _⟩ := bind_ok_iff.mp valid
  intro hnone
  rw [hnone] at hkey
  exact keyed hkey

theorem applyTransaction_true [Externals] {ctx : Context} {key : String} {st : SignedTransaction}
    {l after : Ledger} (h : applyTransaction ctx key st l = .ok (true, after)) :
    ∃ applied, actionApply ctx st (layerOf key) l = .ok applied ∧
      after.documents = applied.documents := by
  obtain ⟨canApply, _, h⟩ := bind_ok_iff.mp h
  cases canApply with
  | false => cases pure_ok_iff.mp h
  | true =>
      obtain ⟨applied, happlied, h⟩ := bind_ok_iff.mp h
      obtain ⟨feeOk, _, h⟩ := bind_ok_iff.mp h
      cases feeOk with
      | false =>
          obtain ⟨reverted, _, h⟩ := bind_ok_iff.mp h
          cases pure_ok_iff.mp h
      | true =>
          obtain ⟨paid, hpaid, h⟩ := bind_ok_iff.mp h
          cases pure_ok_iff.mp h
          exact ⟨applied, happlied, feeApply_documents hpaid⟩

namespace Documents
variable [Externals] {docs after : Documents} {hash : String} {amount : Coin}

theorem CancelledFor.steps (cancelled : docs.CancelledFor hash amount) (named : hash ≠ "")
    (sound : SponsorshipsSound docs) {type : SetUsed}
    (steps : Relation.ReflTransGen (SponsorshipStep type []) docs after) :
    after.CancelledFor hash amount := by
  have hboth : SponsorshipsSound after ∧ after.CancelledFor hash amount := by
    induction steps with
    | refl => exact ⟨sound, cancelled⟩
    | tail _ step ih =>
        exact ⟨step.sound ih.1, ih.2.step named ih.1 (fun _ => List.not_mem_nil) step⟩
  exact hboth.2

omit [Externals] in
theorem Spent.mono {hashes : List String} (spent : docs.Spent hashes)
    (kept : ∀ hash ∈ hashes, hash ≠ "" → ∀ amount, docs.CancelledFor hash amount →
      after.CancelledFor hash amount) : after.Spent hashes := by
  intro hash hmem
  obtain ⟨named, amount, cancelled⟩ := spent hash hmem
  exact ⟨named, amount, kept hash hmem named amount cancelled⟩

end Documents

section
variable [Externals] {ctx : Context} {miner : String} {st : SignedTransaction}
  {l after : Ledger} {checkComplete : Bool}

theorem Documents.CancelledFor.transaction {hash : String} {amount : Coin} {applied : Bool}
    (cancelled : l.documents.CancelledFor hash amount) (named : hash ≠ "")
    (empty : Externals.EmptyNoUri) (sound : LedgerSound ctx.own (layerOf miner) l)
    (valid : actionValidate ctx.config st checkComplete = .ok ()) (fresh : FreshSponsorship st l)
    (h : applyTransaction ctx miner st l = .ok (applied, after)) :
    after.documents.CancelledFor hash amount := by
  cases applied with
  | false =>
      rw [applyTransaction_false empty sound valid fresh h]
      exact cancelled
  | true =>
      obtain ⟨mid, hmid, hdocs⟩ := applyTransaction_true h
      rw [hdocs]
      have spared : SetUsed.apply = .revert → hash ∉ cancelledHash st := fun h => nomatch h
      exact cancelled.step named sound.sponsorships spared (actionApply_step fresh hmid)

theorem takesBack_of_applied {cancel : CancelSponsorContentUnit} (empty : Externals.EmptyNoUri)
    (keyed : Externals.publicKey "" ≠ .ok ()) (sound : LedgerSound ctx.own .chain l)
    (layer : layerOf miner = .chain)
    (valid : actionValidate ctx.config st checkComplete = .ok ())
    (haction : st.transactionDetails.action = .cancelSponsorContentUnit cancel)
    (heeded : cancel.Heeded ctx st l) (h : applyTransaction ctx miner st l = .ok (true, after)) :
    cancel.transactionHash ≠ "" ∧ ∃ cusi item part,
      cancel.TakesBack l.documents cusi item part ∧
        after.documents.CancelledFor cancel.transactionHash part := by
  obtain ⟨_, htransfers, hvalid⟩ := bind_ok_iff.mp valid
  rw [haction] at hvalid
  have named := cancel.hash_named empty hvalid
  have proper := (CancelSponsorContentUnit.proper_iff sound haction htransfers named
    (cancel.sponsor_named keyed hvalid)).mpr heeded
  obtain ⟨mid, hmid, hdocs⟩ := applyTransaction_true h
  rw [layer] at hmid
  rw [hdocs]
  exact ⟨named, (proper.effect mid hmid).cancelledFor sound.sponsorships⟩

namespace BlockFilled
variable {transactions : List SignedTransaction}
  {cancelled : List (CancelSponsorContentUnit × Documents)}

theorem reached (filled : BlockFilled ctx miner transactions cancelled l after)
    (h : Reached ctx.own (layerOf miner) l) : Reached ctx.own (layerOf miner) after := by
  induction filled with
  | done => exact h
  | applied _ fresh _ happly _ ih => exact ih (h.apply rfl fresh happly)
  | refused _ fresh happly _ ih => exact ih (h.apply rfl fresh happly)

theorem keeps (filled : BlockFilled ctx miner transactions cancelled l after)
    (empty : Externals.EmptyNoUri) (h : Reached ctx.own (layerOf miner) l) {hash : String}
    {amount : Coin} (named : hash ≠ "") (kept : l.documents.CancelledFor hash amount) :
    after.documents.CancelledFor hash amount := by
  induction filled with
  | done => exact kept
  | applied valid fresh _ happly _ ih =>
      exact ih (h.apply rfl fresh happly) (kept.transaction named empty h.sound valid fresh happly)
  | refused valid fresh happly _ ih =>
      exact ih (h.apply rfl fresh happly) (kept.transaction named empty h.sound valid fresh happly)

omit [Externals] in
theorem cancelledOn_fst (docs : Documents) :
    (cancelledOn st docs).map Prod.fst = cancels [st] := by
  unfold cancelledOn cancels
  cases haction : st.transactionDetails.action <;> simp [haction]

theorem cancelled_eq (filled : BlockFilled ctx miner transactions cancelled l after) :
    cancelled.map Prod.fst = cancels transactions := by
  induction filled with
  | done => rfl
  | applied _ _ _ _ _ ih =>
      rw [List.map_append, ih, cancelledOn_fst, cancels, cancels, cancels, ← List.filterMap_append]
      rfl
  | refused _ _ _ _ ih => exact ih

omit [Externals] in
theorem cancelledOn_cases (st : SignedTransaction) (docs : Documents) :
    cancelledOn st docs = [] ∨ ∃ cancel, st.transactionDetails.action =
      .cancelSponsorContentUnit cancel ∧ cancelledOn st docs = [(cancel, docs)] := by
  unfold cancelledOn
  cases st.transactionDetails.action with
  | cancelSponsorContentUnit cancel => exact .inr ⟨cancel, rfl, rfl⟩
  | _ => exact .inl rfl

theorem takesBack (filled : BlockFilled ctx miner transactions cancelled l after)
    (empty : Externals.EmptyNoUri) (keyed : Externals.publicKey "" ≠ .ok ())
    (layer : layerOf miner = .chain) (h : Reached ctx.own (layerOf miner) l) :
    ∀ pair ∈ cancelled, pair.1.transactionHash ≠ "" ∧ ∃ cusi item part,
      pair.1.TakesBack pair.2 cusi item part ∧
        after.documents.CancelledFor pair.1.transactionHash part := by
  induction filled with
  | done => exact fun _ hmem => nomatch hmem
  | @applied st rest later l mid after _ valid fresh heeded happly filled ih =>
      have hmid := h.apply rfl fresh happly
      rw [List.forall_mem_append]
      refine ⟨?_, ih hmid⟩
      rcases cancelledOn_cases st l.documents with hnone | ⟨cancel, haction, hone⟩
      · rw [hnone]
        exact fun _ hmem => nomatch hmem
      · rw [hone, List.forall_mem_singleton]
        obtain ⟨named, cusi, item, part, due, kept⟩ := takesBack_of_applied empty keyed
          (layer ▸ h.sound) layer valid haction (heeded cancel haction) happly
        exact ⟨named, cusi, item, part, due, filled.keeps empty hmid named kept⟩
  | refused _ fresh happly _ ih => exact ih (h.apply rfl fresh happly)

/-- What is cancelled in a block was not cancelled before, and is cancelled once in it. -/
theorem differ (filled : BlockFilled ctx miner transactions cancelled l after)
    (empty : Externals.EmptyNoUri) (keyed : Externals.publicKey "" ≠ .ok ())
    (layer : layerOf miner = .chain) (h : Reached ctx.own (layerOf miner) l) {held : List String}
    (spent : l.documents.Spent held) (nodup : held.Nodup) :
    (namedIn cancelled ++ held).Nodup := by
  induction filled generalizing held with
  | done => exact nodup
  | @applied st rest later l mid after _ valid fresh heeded happly filled ih =>
      have hmid := h.apply rfl fresh happly
      have hspent : mid.documents.Spent held := spent.mono fun hash _ named amount kept =>
        kept.transaction named empty h.sound valid fresh happly
      rcases cancelledOn_cases st l.documents with hnone | ⟨cancel, haction, hone⟩
      · rw [hnone, List.nil_append]
        exact ih hmid hspent nodup
      · obtain ⟨named, cusi, item, part, due, kept⟩ := takesBack_of_applied empty keyed
          (layer ▸ h.sound) layer valid haction (heeded cancel haction) happly
        have hnew : cancel.transactionHash ∉ held := by
          intro hmem
          obtain ⟨_, amount, ⟨uri, hmarked⟩, _, _⟩ := spent _ hmem
          cases (due.holds.unique h.sound.sponsorships hmarked).2
        have hrest : (namedIn later ++ cancel.transactionHash :: held).Nodup := by
          apply ih hmid
          · intro hash hmem
            rcases List.mem_cons.mp hmem with rfl | hheld
            · exact ⟨named, part, kept⟩
            · exact hspent hash hheld
          · exact List.nodup_cons.mpr ⟨hnew, nodup⟩
        rw [hone]
        exact (List.perm_middle.nodup_iff).mp hrest
  | refused valid fresh happly _ ih =>
      refine ih (h.apply rfl fresh happly) ?_ nodup
      exact spent.mono fun hash _ named amount kept =>
        kept.transaction named empty h.sound valid fresh happly

end BlockFilled

section
omit [Externals]
variable {block : Block} {type : SetUsed} {granted : Granted}
  {cancelled : List (CancelSponsorContentUnit × Documents)} {returned expired : List SponsorPayment}
  {docs : Documents}

theorem paysBack_of_returnsCancelled
    (h : List.Forall₂ (fun pair payment => ReturnsCancelled docs pair.1 payment) cancelled returned)
    (takesBack : ∀ pair ∈ cancelled, ∃ cusi item part, pair.1.TakesBack pair.2 cusi item part ∧
      docs.CancelledFor pair.1.transactionHash part) : List.Forall₂ PaysBack cancelled returned := by
  induction h with
  | nil => exact .nil
  | @cons pair payment _ _ hpays _ ih =>
      obtain ⟨hsponsor, hhash, _, entry, hentry, hamount⟩ := hpays
      rw [List.forall_mem_cons] at takesBack
      obtain ⟨⟨cusi, item, part, due, kept⟩, hrest⟩ := takesBack
      obtain ⟨found, hfound, hpart⟩ := kept.entry
      cases hentry.symm.trans hfound
      obtain rfl : part = payment.amount := hpart.symm.trans hamount
      exact .cons ⟨hsponsor, hhash, cusi, item, due⟩ (ih hrest)

/-- A block pays nothing for a sponsorship that was cancelled before. -/
theorem unpaid_of_groups (sound : docs.SponsorshipsSound)
    (groups : PaymentGroups docs block type granted returned expired) {hash : String}
    {amount : Coin} (kept : docs.CancelledFor hash amount)
    (other : hash ∉ (cancels block.signedTransactions).map CancelSponsorContentUnit.transactionHash) :
    hash ∉ paidHashes (granted.appliedSponsorItems ++ granted.returned) := by
  obtain ⟨⟨uri, hmarked⟩, ⟨entry, hentry, hamount⟩, positive⟩ := kept
  rw [groups.returned, paidHashes, List.map_append, List.map_append]
  change hash ∉ paidHashes granted.appliedSponsorItems ++ (paidHashes returned ++ paidHashes expired)
  rw [paidHashes_cancelled groups.cancelled]
  intro hmem
  rcases List.mem_append.mp hmem with hviewed | hmem
  · obtain ⟨payment, hpayment, rfl⟩ := List.mem_map.mp hviewed
    obtain ⟨viewed, _, hstanding⟩ := groups.viewed payment hpayment
    cases (hmarked.unique sound hstanding).2
  · rcases List.mem_append.mp hmem with hcancelled | hexpired
    · exact other hcancelled
    · obtain ⟨payment, hpayment, rfl⟩ := List.mem_map.mp hexpired
      obtain ⟨found, hfound, hzero⟩ := groups.expired.kept payment hpayment
      cases hentry.symm.trans hfound
      exact positive (hamount.symm.trans hzero)

end

omit [Externals] in
theorem grantRewards_rewarded {block : Block} {type : SetUsed} {granted : Granted}
    (h : grantRewards ctx block miner type l = .ok granted) :
    granted.rewards.filter (fun reward => reward.rewardType = .sponsoredReturn) =
      rewardsOf .sponsoredReturn (returnsBySponsor granted.returned).toList := by
  obtain ⟨shares, _, hcompose⟩ := grantRewards_compose h
  obtain ⟨emission, sponsored, authors, authorRest, channels, channelRest, storages, storageRest,
    _, _, hauthors, hchannels, hstorages, hrewards⟩ := composeRewards_spec hcompose
  have hnone {rewards : List Reward} {type : RewardType} (other : type ≠ .sponsoredReturn)
      (hall : ∀ reward ∈ rewards, reward.rewardType = type) :
      rewards.filter (fun reward => reward.rewardType = .sponsoredReturn) = [] := by
    rw [List.filter_eq_nil_iff]
    intro reward hmem
    simp [hall reward hmem, other]
  rw [hrewards]
  simp only [List.filter_append]
  rw [hnone (by decide) (distributeRewards_type hauthors),
    hnone (by decide) (distributeRewards_type hchannels),
    hnone (by decide) (distributeRewards_type hstorages)]
  have hminer : (if (emission.miner + authorRest + channelRest + storageRest).isEmpty then []
      else rewardsOf .miner [(miner, emission.miner + authorRest + channelRest + storageRest)]).filter
        (fun reward => reward.rewardType = .sponsoredReturn) = [] := by
    split_ifs
    · rfl
    · rfl
  rw [hminer, List.append_nil, List.nil_append, List.nil_append, List.nil_append,
    List.filter_eq_self]
  intro reward hmem
  obtain ⟨entry, _, rfl⟩ := List.mem_map.mp hmem
  rfl

end

def namedBy (past : List BuiltBlock) : List String :=
  past.flatMap fun built => namedIn built.cancelled

/-- What every run of a chain keeps. -/
structure RunKept [Externals] (own : String) (past : List BuiltBlock) (l : Ledger) : Prop where
  reached : Reached own .chain l
  same : ∀ built ∈ past,
    built.cancelled.map Prod.fst = cancels built.block.signedTransactions
  spent : l.documents.Spent (namedBy past)
  differ : (namedBy past).Nodup
  returns : ReturnsOnce past

section
variable [Externals] {own : String} {past : List BuiltBlock} {built : BuiltBlock}
  {l mid after : Ledger} {ctx : Context} {miner : String}

omit [Externals] in
theorem namedIn_eq (same : built.cancelled.map Prod.fst = cancels built.block.signedTransactions) :
    namedIn built.cancelled =
      (cancels built.block.signedTransactions).map CancelSponsorContentUnit.transactionHash := by
  rw [← same, List.map_map]
  rfl

/-- A block more keeps it. -/
theorem RunKept.connect (empty : Externals.EmptyNoUri) (keyed : Externals.publicKey "" ≠ .ok ())
    (hashed : ∀ s, Externals.hash s ≠ "") (kept : RunKept ctx.own past l)
    (layer : layerOf miner = .chain)
    (filled : BlockFilled ctx miner built.block.signedTransactions built.cancelled l mid)
    (h : grantRewards ctx built.block miner .apply mid = .ok built.granted)
    (hrewards : increaseRewards ctx built.granted.rewards
      { mid with documents := built.granted.documents } = .ok after) :
    RunKept ctx.own (built :: past) after := by
  have reached := kept.reached
  rw [← layer] at reached
  have hmid := filled.reached reached
  rw [layer] at hmid
  have sound := hmid.sound.sponsorships
  have same := filled.cancelled_eq
  have takesBack := filled.takesBack empty keyed layer reached
  have differ : (namedBy (built :: past)).Nodup :=
    filled.differ empty keyed layer reached kept.spent kept.differ
  have spent : mid.documents.Spent (namedBy past) :=
    kept.spent.mono fun hash _ named amount held => filled.keeps empty reached named held
  obtain ⟨returned, expired, groups⟩ := grantRewards_groups sound (hmid.entriesNamed hashed) h
  refine ⟨(hmid.grant h).increase rfl hrewards, ?_, ?_, differ, ?_⟩
  · exact List.forall_mem_cons.mpr ⟨same, kept.same⟩
  · rw [increaseRewards_documents hrewards]
    intro hash hmem
    have hbefore : hash ≠ "" ∧ ∃ amount, mid.documents.CancelledFor hash amount := by
      rcases List.mem_append.mp hmem with hnew | hold
      · obtain ⟨pair, hpair, rfl⟩ := List.mem_map.mp hnew
        obtain ⟨named, _, _, part, _, held⟩ := takesBack pair hpair
        exact ⟨named, part, held⟩
      · exact spent hash hold
    obtain ⟨named, amount, held⟩ := hbefore
    exact ⟨named, amount, held.steps named sound (grantRewards_steps h)⟩
  · obtain ⟨hpaidBack, hrewarded, honce, hnever⟩ := kept.returns
    have hreturned := groups.cancelled
    rw [← same, List.forall₂_map_left_iff] at hreturned
    refine ⟨List.forall_mem_cons.mpr ⟨⟨returned, expired, groups.returned, ?_⟩, hpaidBack⟩,
      List.forall_mem_cons.mpr ⟨grantRewards_rewarded h, hrewarded⟩,
      List.forall_mem_cons.mpr ⟨?_, honce⟩, List.pairwise_cons.mpr ⟨?_, hnever⟩⟩
    · exact paysBack_of_returnsCancelled hreturned fun pair hpair => (takesBack pair hpair).2
    · rw [groups.once_iff sound, ← namedIn_eq same]
      exact (List.nodup_append'.mp differ).1
    · intro earlier hearlier hash hmem
      have hheld : hash ∈ namedBy past := List.mem_flatMap.mpr ⟨earlier, hearlier, hmem⟩
      obtain ⟨_, amount, held⟩ := spent hash hheld
      apply unpaid_of_groups sound groups held
      rw [← namedIn_eq same]
      intro hnamed
      exact (List.nodup_append'.mp differ).2.2 hnamed hheld

omit [Externals] in
theorem mem_cancels_of_cancelledHash {st : SignedTransaction}
    {transactions : List SignedTransaction} (hmem : st ∈ transactions) {hash : String}
    (h : hash ∈ cancelledHash st) :
    hash ∈ (cancels transactions).map CancelSponsorContentUnit.transactionHash := by
  unfold cancelledHash at h
  cases haction : st.transactionDetails.action with
  | cancelSponsorContentUnit cancel =>
      rw [haction] at h
      refine List.mem_map.mpr ⟨cancel, List.mem_filterMap.mpr ⟨st, hmem, ?_⟩,
        (List.mem_singleton.mp h).symm⟩
      rw [haction]
  | _ =>
      rw [haction] at h
      cases h

theorem RunKept.disconnect (kept : RunKept ctx.own (built :: past) l)
    (layer : layerOf miner = .chain) (h : revertBlock ctx built.block miner l = .ok after) :
    RunKept ctx.own past after := by
  have hsame := List.forall_mem_cons.mp kept.same
  obtain ⟨mid, hmid, hrun⟩ := bind_ok_iff.mp h
  obtain ⟨⟨mismatch, granted⟩, hcheck, hmid⟩ := bind_ok_iff.mp hmid
  obtain ⟨_, hgranted, hcheck⟩ := bind_ok_iff.mp hcheck
  cases pure_ok_iff.mp hcheck
  obtain ⟨_, hmid⟩ := require_bind_ok_iff.mp hmid
  have hreached : Reached ctx.own .chain mid := (kept.reached.grant hgranted).decrease rfl hmid
  have hothers : ∀ hash ∈ namedBy past, ∀ st ∈ built.block.signedTransactions.reverse,
      hash ∉ cancelledHash st := by
    intro hash hold st hst hnamed
    have hnew := mem_cancels_of_cancelledHash (List.mem_reverse.mp hst) hnamed
    rw [← namedIn_eq hsame.1] at hnew
    exact (List.nodup_append'.mp kept.differ).2.2 hnew hold
  have spent : mid.documents.Spent (namedBy past) := by
    rw [decreaseRewards_documents hmid]
    intro hash hmem
    obtain ⟨named, amount, held⟩ := kept.spent hash (List.mem_append_right _ hmem)
    exact ⟨named, amount, held.steps named kept.reached.sound.sponsorships
      (grantRewards_steps hgranted)⟩
  have hboth : Reached ctx.own .chain after ∧ after.documents.Spent (namedBy past) := by
    refine runAll_invariant (I := fun l => Reached ctx.own .chain l ∧
      l.documents.Spent (namedBy past)) (fun st hst s t hs step => ?_) ⟨hreached, spent⟩ hrun
    obtain ⟨hs, hspent⟩ := hs
    refine ⟨?_, hspent.mono fun hash hmem named amount held => ?_⟩
    · rw [← layer] at hs ⊢
      exact hs.revert rfl step
    · exact held.step named hs.sound.sponsorships (fun _ => hothers hash hmem st hst)
        (revertTransaction_step step)
  obtain ⟨hpaidBack, hrewarded, honce, hnever⟩ := kept.returns
  exact ⟨hboth.1, hsame.2, hboth.2, (List.nodup_append'.mp kept.differ).2.1,
    (List.forall_mem_cons.mp hpaidBack).2, (List.forall_mem_cons.mp hrewarded).2,
    (List.forall_mem_cons.mp honce).2, (List.pairwise_cons.mp hnever).2⟩

theorem ChainRun.kept (empty : Externals.EmptyNoUri) (keyed : Externals.publicKey "" ≠ .ok ())
    (hashed : ∀ s, Externals.hash s ≠ "") {start : Ledger} (reached : Reached own .chain start)
    (run : ChainRun own start past l) : RunKept own past l := by
  induction run with
  | start =>
      exact ⟨reached, fun _ h => (nomatch h), fun _ h => (nomatch h), List.nodup_nil,
        fun _ h => (nomatch h), fun _ h => (nomatch h), fun _ h => (nomatch h), .nil⟩
  | connect _ hown layer filled h hrewards ih =>
      subst hown
      exact ih.connect empty keyed hashed layer filled h hrewards
  | disconnect _ hown layer h ih =>
      subst hown
      exact ih.disconnect layer h

end

section Examples

attribute [local instance] returningExternals

theorem cancelled_isOk : (applyMined (exampleNode "own" .blockchain) "own" cancelUnit
    sponsoredLedger).isOk = true := by decide +kernel

def cancelledLedger : Ledger := okValue _ cancelled_isOk

-- What is cancelled does not end any more.
example : cancelledLedger.documents.contentUnitUriSponsorExpiring 144 = [] := by decide +kernel

def cancellingBlock : Block := ⟨⟨1, 0, 0, 1, "", 0⟩, [], [cancelUnit]⟩

theorem cancelledGranted_isOk : (grantRewards (exampleNode "own" .blockchain) cancellingBlock "own"
    .apply cancelledLedger).isOk = true := by decide +kernel

def cancellingBuilt : BuiltBlock :=
  ⟨cancellingBlock, [(⟨"channel", "unit", "hash"⟩, sponsoredLedger.documents)],
    okValue _ cancelledGranted_isOk⟩

theorem cancelledRewards_isOk : (increaseRewards (exampleNode "own" .blockchain)
    cancellingBuilt.granted.rewards { cancelledLedger with
      documents := cancellingBuilt.granted.documents }).isOk = true := by decide +kernel

theorem cancelUnit_heeded :
    CancelSponsorContentUnit.Heeded (exampleNode "own" .blockchain) cancelUnit
      ⟨"channel", "unit", "hash"⟩ sponsoredLedger := by
  intro _ _
  by_contra passed
  have hsome : (sponsoredLedger.documents.sponsored["unit"]?).isSome = true := by decide +kernel
  obtain ⟨cusi, hcusi⟩ := Option.isSome_iff_exists.mp hsome
  have hleft : (sponsoredLedger.documents.sponsored["unit"]?).all (fun cusi =>
      (Documents.unpaid cusi 600 "hash").toOption.join.isSome) = true := by decide +kernel
  rw [hcusi, Option.all_some] at hleft
  have hnone := CancelSponsorContentUnit.unpaid_of_not_comesToIt passed hcusi
  have htime : Documents.payTime (exampleNode "own" .blockchain).blockchain
      (exampleNode "own" .blockchain).blockchain.length = 600 := by decide +kernel
  rw [htime] at hnone
  rw [hnone] at hleft
  cases hleft

theorem cancellingBlock_filled : BlockFilled (exampleNode "own" .blockchain) "own"
    cancellingBuilt.block.signedTransactions cancellingBuilt.cancelled sponsoredLedger
    cancelledLedger := by
  have heeded : ∀ cancel, cancelUnit.transactionDetails.action = .cancelSponsorContentUnit cancel →
      cancel.Heeded (exampleNode "own" .blockchain) cancelUnit sponsoredLedger := by
    intro cancel haction
    cases haction
    exact cancelUnit_heeded
  exact .applied cancelUnit_valid (fun sponsor haction => nomatch haction) heeded
    (applyTransaction_of_applyMined (eq_okValue cancelled_isOk)) .done

theorem cancellingBuilt_run : ChainRun "own" sponsoredLedger [cancellingBuilt]
    (okValue _ cancelledRewards_isOk) := by
  have hlayer : layerOf "own" = .chain := by decide
  exact .connect .start rfl hlayer cancellingBlock_filled (eq_okValue cancelledGranted_isOk)
    (eq_okValue cancelledRewards_isOk)

end Examples
end Publiq
