import Publiq.AuthorityRun
import Publiq.BlockLedger
import Publiq.SponsorshipUndo

/-! The ledgers that a node comes to hold, block after block and with a pool on top of them,
and what all of them have in common. -/
namespace Publiq
open Message Checked

namespace State

/-- Nobody but the node has a balance of the chain layer, and while blocks are applied it is
the balance of the accounts. -/
structure OwnBalance (own : String) (layer : StateLayer) (s : State) : Prop where
  others : ∀ key, own ≠ key → s.nodeAccounts.get key = 0
  current : layer = .chain → s.nodeAccounts.get own = s.accounts.get own

theorem OwnBalance.synced {own : String} {layer : StateLayer} {s : State}
    (h : OwnBalance own layer s) (chain : layer = .chain) : Synced own s := by
  intro key
  by_cases hkey : own = key
  · rw [if_pos hkey, ← hkey, h.current chain]
  · rw [if_neg hkey, h.others key hkey]

theorem ownBalance_default (own : String) (layer : StateLayer) : OwnBalance own layer default := by
  refine ⟨fun key _ => ?_, fun _ => ?_⟩
  · exact SparseMap.get_empty key
  · exact (SparseMap.get_empty own).trans (SparseMap.get_empty own).symm

theorem OwnBalance.setBalance {own : String} {layer : StateLayer} {s : State}
    (h : OwnBalance own layer s) (key : String) (amount : Coin) :
    OwnBalance own layer (setBalance own key amount layer s) := by
  constructor
  · intro other hother
    change (if layer = .chain ∧ own = key then _ else _ : SparseMap String Coin).get other = 0
    split_ifs with hkey
    · rw [SparseMap.get_set_of_ne _ (hkey.2 ▸ hother)]
      exact h.others other hother
    · exact h.others other hother
  · intro chain
    change (if layer = .chain ∧ own = key then _ else _ : SparseMap String Coin).get own =
      (s.accounts.set key amount).get own
    split_ifs with hkey
    · rw [← hkey.2, SparseMap.get_set_self, SparseMap.get_set_self]
    · rw [SparseMap.get_set_of_ne _ fun heq => hkey ⟨chain, heq.symm⟩]
      exact h.current chain

theorem OwnBalance.increaseBalance {own : String} {layer : StateLayer} {s : State}
    (h : OwnBalance own layer s) (key : String) (amount : Coin) :
    OwnBalance own layer (increaseBalance own key amount layer s) := by
  unfold State.increaseBalance
  split_ifs
  · exact h
  · exact h.setBalance key _

theorem OwnBalance.decreaseBalance {own key : String} {amount : Coin} {layer : StateLayer}
    {s after : State} (h : OwnBalance own layer s)
    (run : decreaseBalance own key amount layer s = .ok after) : OwnBalance own layer after := by
  rcases decreaseBalance_ok_iff.mp run with ⟨_, rfl⟩ | ⟨_, rest, _, rfl⟩
  · exact h
  · exact h.setBalance key rest

end State

variable [Documents.EntrySort]

/-- What every ledger that a node comes to hold keeps. -/
structure LedgerSound (own : String) (layer : StateLayer) (l : Ledger) : Prop where
  normal : l.authorityManager.Normal
  exceptionless : l.authorityManager.Exceptionless
  balances : l.state.OwnBalance own layer
  sponsorships : l.documents.SponsorshipsSound

theorem ledgerSound_default (own : String) (layer : StateLayer) :
    LedgerSound own layer default where
  normal := AuthorityManager.kept_empty.normal
  exceptionless := AuthorityManager.kept_empty.exceptionless
  balances := State.ownBalance_default own layer
  sponsorships := Documents.sponsorshipsSound_default

section
variable {own : String} {layer : StateLayer} {ctx : Context} {l after : Ledger}

theorem LedgerSound.onState {f : State → Checked State} (sound : LedgerSound own layer l)
    (keeps : ∀ s t, s.OwnBalance own layer → f s = .ok t → t.OwnBalance own layer)
    (h : l.onState f = .ok after) : LedgerSound own layer after := by
  obtain ⟨s, hs, h⟩ := bind_ok_iff.mp h
  cases pure_ok_iff.mp h
  exact { sound with balances := keeps _ _ sound.balances hs }

theorem LedgerSound.onDocuments {f : Documents → Checked Documents}
    (sound : LedgerSound own layer l)
    (keeps : ∀ docs after, docs.SponsorshipsSound → f docs = .ok after → after.SponsorshipsSound)
    (h : l.onDocuments f = .ok after) : LedgerSound own layer after := by
  obtain ⟨docs, hdocs, h⟩ := bind_ok_iff.mp h
  cases pure_ok_iff.mp h
  exact { sound with sponsorships := keeps _ _ sound.sponsorships hdocs }

theorem LedgerSound.increase {key : String} {amount : Message.Coin}
    (sound : LedgerSound ctx.own layer l) (h : l.increase ctx key amount layer = .ok after) :
    LedgerSound ctx.own layer after := by
  obtain ⟨coin, _, h⟩ := bind_ok_iff.mp h
  cases pure_ok_iff.mp h
  exact { sound with balances := sound.balances.increaseBalance key coin }

theorem LedgerSound.decrease {key : String} {amount : Message.Coin}
    (sound : LedgerSound ctx.own layer l) (h : l.decrease ctx key amount layer = .ok after) :
    LedgerSound ctx.own layer after := by
  obtain ⟨coin, _, h⟩ := bind_ok_iff.mp h
  exact sound.onState (fun _ _ hs hrun => hs.decreaseBalance hrun) h

theorem LedgerSound.withDocuments (sound : LedgerSound own layer l) {docs : Documents}
    (sponsored : docs.sponsored = l.documents.sponsored)
    (expiring : docs.expiring = l.documents.expiring)
    (hashToBlock : docs.hashToBlock = l.documents.hashToBlock) :
    LedgerSound own layer { l with documents := docs } := by
  refine { sound with sponsorships := ?_ }
  obtain ⟨files, units, storages, sp, ex, hb⟩ := docs
  cases sponsored
  cases expiring
  cases hashToBlock
  exact ⟨sound.sponsorships.orderly, sound.sponsorships.recorded, sound.sponsorships.listed⟩

theorem LedgerSound.rewrite (sound : LedgerSound own layer l) {update : AuthorizationUpdate}
    {f : AccountAuthorization → Except AuthorizationUpdate.Refusal AccountAuthorization}
    {e : AuthorizationUpdate.Refusal → Failure}
    (clean : ∀ record r, f record = .ok r → r.defaultFull = true → r.actionIds = ∅)
    (h : l.onAuthorities (update.rewrite f e) = .ok after) : LedgerSound own layer after := by
  obtain ⟨m, hm, rfl⟩ := onAuthorities_ok_iff.mp h
  obtain ⟨hnormal, hexceptionless⟩ := AuthorizationUpdate.exceptionless_rewrite sound.normal
    sound.exceptionless (fun r hr => clean _ r hr) hm
  exact { sound with normal := hnormal, exceptionless := hexceptionless }

theorem LedgerSound.setUsed (sound : LedgerSound own layer l) {chain : Blockchain} {uri : String}
    {blockNumber : ℕ} {type : SetUsed} {hash manual : String} {pretend : Bool} {docs : Documents}
    {payments : List SponsorPayment}
    (h : l.documents.sponsoredContentUnitSetUsed chain uri blockNumber type hash manual pretend =
      .ok (docs, payments)) : LedgerSound own layer { l with documents := docs } :=
  { sound with sponsorships := sound.sponsorships.setUsed h }

end

omit [Documents.EntrySort] in
theorem requireAuthority_bind {l after : Ledger} {owner signer : String} {rtt : ℕ} {e : Failure}
    {x : Checked Ledger} (h : (l.requireAuthority owner signer rtt e >>= fun _ => x) = .ok after) :
    x = .ok after := by
  obtain ⟨_, _, h⟩ := bind_ok_iff.mp h
  exact h

section
variable {ctx : Context} {st : SignedTransaction} {layer : StateLayer} {l applied : Ledger}

omit [Documents.EntrySort] in
theorem Message.Content.apply_eq {a : Content} (h : a.actionApply st l = .ok applied) :
    applied = l := by
  have h := requireAuthority_bind h
  obtain ⟨_, _, h⟩ := bind_ok_iff.mp h
  split at h
  · cases h
  · obtain ⟨_, _, h⟩ := bind_ok_iff.mp h
    obtain ⟨_, h⟩ := require_bind_ok_iff.mp h
    exact (pure_ok_iff.mp h).symm

omit [Documents.EntrySort] in
theorem Message.ServiceStatistics.apply_eq {a : ServiceStatistics}
    (h : a.actionApply ctx st layer l = .ok applied) : applied = l := by
  have h := requireAuthority_bind h
  obtain ⟨problem, _, h⟩ := bind_ok_iff.mp h
  split at h
  · cases h
  · exact (pure_ok_iff.mp h).symm

end

/-- The hash of a sponsorship is that of no other sponsorship that is recorded. The cache keeps a
transaction from being applied again for as long as it has its entry. -/
def FreshSponsorship [Externals] (st : SignedTransaction) (l : Ledger) : Prop :=
  ∀ sponsor, st.transactionDetails.action = .sponsorContentUnit sponsor →
    l.documents.hashToBlock[transactionHash st]? = none

section
variable [Externals] {ctx : Context} {st : SignedTransaction} {layer : StateLayer}
  {l after : Ledger}

/-- An action that is applied keeps the ledger sound. -/
theorem LedgerSound.actionApply (sound : LedgerSound ctx.own layer l)
    (fresh : FreshSponsorship st l) (h : actionApply ctx st layer l = .ok after) :
    LedgerSound ctx.own layer after := by
  obtain ⟨_, _, h⟩ := bind_ok_iff.mp h
  cases haction : st.transactionDetails.action with
  | transfer a =>
      rw [haction] at h
      obtain ⟨_, _, h⟩ := bind_ok_iff.mp h
      obtain ⟨mid, hmid, h⟩ := bind_ok_iff.mp h
      exact (sound.increase hmid).decrease h
  | authorizationUpdate a =>
      rw [haction] at h
      obtain ⟨_, _, h⟩ := bind_ok_iff.mp h
      exact sound.rewrite (fun _ _ => AuthorizationUpdate.exceptionless_applyRecord) h
  | file a =>
      rw [haction] at h
      obtain ⟨_, _, h⟩ := bind_ok_iff.mp h
      obtain ⟨_, h⟩ := require_bind_ok_iff.mp h
      cases pure_ok_iff.mp h
      exact sound.withDocuments rfl rfl rfl
  | contentUnit a =>
      rw [haction] at h
      obtain ⟨_, _, h⟩ := bind_ok_iff.mp h
      split at h
      · cases h
      · obtain ⟨_, h⟩ := require_bind_ok_iff.mp h
        split at h
        · cases h
        · cases pure_ok_iff.mp h
          exact sound.withDocuments rfl rfl rfl
  | content a =>
      rw [haction] at h
      obtain ⟨_, _, h⟩ := bind_ok_iff.mp h
      obtain ⟨_, _, h⟩ := bind_ok_iff.mp h
      split at h
      · cases h
      · obtain ⟨_, _, h⟩ := bind_ok_iff.mp h
        obtain ⟨_, h⟩ := require_bind_ok_iff.mp h
        cases pure_ok_iff.mp h
        exact sound
  | role a =>
      rw [haction] at h
      obtain ⟨_, _, h⟩ := bind_ok_iff.mp h
      obtain ⟨_, h⟩ := require_bind_ok_iff.mp h
      obtain ⟨_, h⟩ := require_bind_ok_iff.mp h
      obtain ⟨_, _, h⟩ := bind_ok_iff.mp h
      refine sound.onState (fun s t hs hrun => ?_) h
      obtain ⟨_, hrun⟩ := require_bind_ok_iff.mp hrun
      cases pure_ok_iff.mp hrun
      exact ⟨hs.others, hs.current⟩
  | storageUpdate a =>
      rw [haction] at h
      obtain ⟨_, _, h⟩ := bind_ok_iff.mp h
      obtain ⟨_, h⟩ := require_bind_ok_iff.mp h
      obtain ⟨_, h⟩ := require_bind_ok_iff.mp h
      obtain ⟨_, h⟩ := require_bind_ok_iff.mp h
      cases pure_ok_iff.mp h
      exact sound.withDocuments rfl rfl rfl
  | serviceStatistics a =>
      rw [haction] at h
      obtain ⟨_, _, h⟩ := bind_ok_iff.mp h
      obtain ⟨problem, _, h⟩ := bind_ok_iff.mp h
      split at h
      · cases h
      · cases pure_ok_iff.mp h
        exact sound
  | sponsorContentUnit a =>
      rw [haction] at h
      obtain ⟨_, _, h⟩ := bind_ok_iff.mp h
      obtain ⟨_, h⟩ := require_bind_ok_iff.mp h
      obtain ⟨amount, _, h⟩ := bind_ok_iff.mp h
      obtain ⟨mid, hmid, h⟩ := bind_ok_iff.mp h
      have hsound := sound.onState (fun _ _ hs hrun => hs.decreaseBalance hrun) hmid
      obtain ⟨state, _, hmid⟩ := bind_ok_iff.mp hmid
      cases pure_ok_iff.mp hmid
      obtain ⟨docs, hdocs, h⟩ := bind_ok_iff.mp h
      cases pure_ok_iff.mp h
      exact { hsound with
        sponsorships := hsound.sponsorships.sponsorContentUnitApply (fresh a haction) hdocs }
  | cancelSponsorContentUnit a =>
      rw [haction] at h
      obtain ⟨_, _, h⟩ := bind_ok_iff.mp h
      obtain ⟨_, h⟩ := require_bind_ok_iff.mp h
      obtain ⟨⟨docs, result⟩, hused, h⟩ := bind_ok_iff.mp h
      obtain ⟨_, h⟩ := require_bind_ok_iff.mp h
      cases pure_ok_iff.mp h
      exact sound.setUsed hused
  | unknown rtt =>
      rw [haction] at h
      cases h

/-- An action that is reverted keeps the ledger sound. -/
theorem LedgerSound.actionRevert (sound : LedgerSound ctx.own layer l)
    (h : actionRevert ctx st layer l = .ok after) : LedgerSound ctx.own layer after := by
  obtain ⟨_, _, h⟩ := bind_ok_iff.mp h
  cases haction : st.transactionDetails.action with
  | transfer a =>
      rw [haction] at h
      obtain ⟨mid, hmid, h⟩ := bind_ok_iff.mp h
      obtain ⟨last, hlast, h⟩ := bind_ok_iff.mp h
      obtain ⟨_, _, h⟩ := bind_ok_iff.mp h
      cases pure_ok_iff.mp h
      exact (sound.increase hmid).decrease hlast
  | authorizationUpdate a =>
      rw [haction] at h
      exact sound.rewrite (fun _ _ => AuthorizationUpdate.exceptionless_revertRecord) h
  | file a =>
      rw [haction] at h
      obtain ⟨_, _, h⟩ := bind_ok_iff.mp h
      cases pure_ok_iff.mp h
      exact sound.withDocuments rfl rfl rfl
  | contentUnit a =>
      rw [haction] at h
      obtain ⟨_, _, h⟩ := bind_ok_iff.mp h
      cases pure_ok_iff.mp h
      exact sound.withDocuments rfl rfl rfl
  | content a =>
      rw [haction] at h
      obtain ⟨_, _, h⟩ := bind_ok_iff.mp h
      cases pure_ok_iff.mp h
      exact sound
  | role a =>
      rw [haction] at h
      obtain ⟨_, _, h⟩ := bind_ok_iff.mp h
      cases pure_ok_iff.mp h
      exact { sound with balances := ⟨sound.balances.others, sound.balances.current⟩ }
  | storageUpdate a =>
      rw [haction] at h
      obtain ⟨_, _, h⟩ := bind_ok_iff.mp h
      cases pure_ok_iff.mp h
      exact sound.withDocuments rfl rfl rfl
  | serviceStatistics a =>
      rw [haction] at h
      obtain ⟨_, _, h⟩ := bind_ok_iff.mp h
      cases pure_ok_iff.mp h
      exact sound
  | sponsorContentUnit a =>
      rw [haction] at h
      obtain ⟨mid, hmid, h⟩ := bind_ok_iff.mp h
      obtain ⟨last, hlast, h⟩ := bind_ok_iff.mp h
      obtain ⟨_, _, h⟩ := bind_ok_iff.mp h
      cases pure_ok_iff.mp h
      exact (sound.increase hmid).onDocuments
        (fun _ _ hdocs hrun => hdocs.sponsorContentUnitRevert hrun) hlast
  | cancelSponsorContentUnit a =>
      rw [haction] at h
      obtain ⟨⟨docs, result⟩, hused, h⟩ := bind_ok_iff.mp h
      obtain ⟨_, h⟩ := require_bind_ok_iff.mp h
      obtain ⟨_, _, h⟩ := bind_ok_iff.mp h
      cases pure_ok_iff.mp h
      exact sound.setUsed hused
  | unknown rtt =>
      rw [haction] at h
      cases h

theorem LedgerSound.applyTransaction {key : String} {applied : Bool}
    (sound : LedgerSound ctx.own (layerOf key) l) (fresh : FreshSponsorship st l)
    (h : Publiq.applyTransaction ctx key st l = .ok (applied, after)) :
    LedgerSound ctx.own (layerOf key) after := by
  obtain ⟨canApply, _, h⟩ := bind_ok_iff.mp h
  cases canApply with
  | false =>
      cases pure_ok_iff.mp h
      exact sound
  | true =>
      obtain ⟨mid, hmid, h⟩ := bind_ok_iff.mp h
      have hsound := sound.actionApply fresh hmid
      obtain ⟨feeOk, _, h⟩ := bind_ok_iff.mp h
      cases feeOk with
      | false =>
          obtain ⟨reverted, hreverted, h⟩ := bind_ok_iff.mp h
          cases pure_ok_iff.mp h
          exact hsound.actionRevert hreverted
      | true =>
          obtain ⟨paid, hpaid, h⟩ := bind_ok_iff.mp h
          cases pure_ok_iff.mp h
          unfold feeApply at hpaid
          split_ifs at hpaid with hkey
          · cases pure_ok_iff.mp hpaid
            exact hsound
          · obtain ⟨payer, _, hpaid⟩ := bind_ok_iff.mp hpaid
            obtain ⟨received, hreceived, hpaid⟩ := bind_ok_iff.mp hpaid
            have hlayer : layerOf key = .chain := if_neg hkey
            rw [hlayer] at hsound ⊢
            exact (hsound.increase hreceived).decrease hpaid

theorem LedgerSound.revertTransaction {key : String}
    (sound : LedgerSound ctx.own (layerOf key) l)
    (h : Publiq.revertTransaction ctx key st l = .ok after) :
    LedgerSound ctx.own (layerOf key) after := by
  obtain ⟨mid, hmid, h⟩ := bind_ok_iff.mp h
  have hmid : LedgerSound ctx.own (layerOf key) mid := by
    unfold feeRevert at hmid
    split_ifs at hmid with hkey
    · cases pure_ok_iff.mp hmid
      exact sound
    · obtain ⟨payer, _, hmid⟩ := bind_ok_iff.mp hmid
      obtain ⟨returned, hreturned, hmid⟩ := bind_ok_iff.mp hmid
      have hlayer : layerOf key = .chain := if_neg hkey
      rw [hlayer] at sound ⊢
      exact (sound.decrease hreturned).increase hmid
  exact hmid.actionRevert h

end

section
variable {own : String} {ctx : Context} {l after : Ledger}

theorem sponsorshipsSound_payViewed {chain : Blockchain} {blockNumber : ℕ} {type : SetUsed}
    {uris : List String} {docs after : Documents} {paid payments : List SponsorPayment}
    (sound : docs.SponsorshipsSound)
    (h : payViewed chain blockNumber type uris (docs, paid) = .ok (after, payments)) :
    after.SponsorshipsSound := by
  induction uris generalizing docs paid with
  | nil =>
      cases pure_ok_iff.mp h
      exact sound
  | cons uri rest ih =>
      obtain ⟨⟨mid, more⟩, hmid, h⟩ := bind_ok_iff.mp h
      obtain ⟨_, h⟩ := require_bind_ok_iff.mp h
      exact ih (sound.setUsed hmid) h

theorem sponsorshipsSound_returnExpired {chain : Blockchain} {blockNumber : ℕ} {type : SetUsed}
    {viewed : UnitViews} {expiring : List (String × String)} {docs after : Documents}
    {returned payments : List SponsorPayment} (sound : docs.SponsorshipsSound)
    (h : returnExpired chain blockNumber type viewed expiring (docs, returned) =
      .ok (after, payments)) : after.SponsorshipsSound := by
  induction expiring generalizing docs returned with
  | nil =>
      cases pure_ok_iff.mp h
      exact sound
  | cons ending rest ih =>
      obtain ⟨uri, hash⟩ := ending
      simp only [returnExpired] at h
      split_ifs at h
      · exact ih sound h
      · obtain ⟨⟨mid, more⟩, hmid, h⟩ := bind_ok_iff.mp h
        obtain ⟨_, h⟩ := require_bind_ok_iff.mp h
        exact ih (sound.setUsed hmid) h

/-- The documents that `grant_rewards` leaves, and how it came to them. -/
theorem grantRewards_documents {block : Block} {miner : String} {type : SetUsed}
    {granted : Granted} (h : grantRewards ctx block miner type l = .ok granted) :
    ∃ viewedDocs expired, payViewed ctx.blockchain block.header.blockNumber.toNat type
        granted.unitUriViewCounts.keys (l.documents, []) =
          .ok (viewedDocs, granted.appliedSponsorItems) ∧
      returnExpired ctx.blockchain block.header.blockNumber.toNat type granted.unitUriViewCounts
        (viewedDocs.contentUnitUriSponsorExpiring block.header.blockNumber.toNat)
        (viewedDocs, []) = .ok (granted.documents, expired) := by
  obtain ⟨collected, shares, viewedDocs, paid, docs, expired, rewards, _, _, _, hpaid, hexpired, _,
    rfl⟩ := grantRewards_stages h
  exact ⟨viewedDocs, expired, hpaid, hexpired⟩

theorem LedgerSound.grantRewards {layer : StateLayer} (sound : LedgerSound own layer l)
    {block : Block} {miner : String} {type : SetUsed} {granted : Granted}
    (h : Publiq.grantRewards ctx block miner type l = .ok granted) :
    LedgerSound own layer { l with documents := granted.documents } := by
  obtain ⟨viewedDocs, expired, hpaid, hexpired⟩ := grantRewards_documents h
  exact { sound with
    sponsorships := sponsorshipsSound_returnExpired
      (sponsorshipsSound_payViewed sound.sponsorships hpaid) hexpired }

theorem LedgerSound.increaseRewards (sound : LedgerSound ctx.own .chain l) {rewards : List Reward}
    (h : Publiq.increaseRewards ctx rewards l = .ok after) : LedgerSound ctx.own .chain after :=
  runAll_invariant (fun _ _ _ _ hs step => hs.increase step) sound h

theorem LedgerSound.decreaseRewards (sound : LedgerSound ctx.own .chain l) {rewards : List Reward}
    (h : Publiq.decreaseRewards ctx rewards l = .ok after) : LedgerSound ctx.own .chain after :=
  runAll_invariant (fun _ _ _ _ hs step => hs.decrease step) sound h

theorem LedgerSound.pool (sound : LedgerSound own .chain l) : LedgerSound own .pool l :=
  { sound with balances := ⟨sound.balances.others, fun h => nomatch h⟩ }

/-- At the end of `revert_pool` the node has its balance of the accounts. -/
theorem LedgerSound.chain (sound : LedgerSound own .pool l) :
    LedgerSound own .chain { l with
      state := l.state.setBalance own own (l.state.getBalance own .pool) .chain } := by
  refine { sound with balances := ⟨fun key hkey => ?_, fun _ => ?_⟩ }
  · change (if StateLayer.chain = .chain ∧ own = own then _ else _ : SparseMap String Coin).get
      key = 0
    rw [if_pos ⟨rfl, rfl⟩, SparseMap.get_set_of_ne _ hkey]
    exact sound.balances.others key hkey
  · change (if StateLayer.chain = .chain ∧ own = own then _ else _ : SparseMap String Coin).get
      own = (l.state.accounts.set own _).get own
    rw [if_pos ⟨rfl, rfl⟩, SparseMap.get_set_self, SparseMap.get_set_self]

end

theorem applyTransaction_of_applyMined [Externals] {ctx : Context} {miner : String}
    {st : SignedTransaction} {l after : Ledger} (h : applyMined ctx miner st l = .ok after) :
    applyTransaction ctx miner st l = .ok (true, after) := by
  obtain ⟨⟨applied, mid⟩, happly, step⟩ := bind_ok_iff.mp h
  obtain ⟨rfl, step⟩ := require_bind_ok_iff.mp step
  cases pure_ok_iff.mp step
  exact happly

/-- The ledgers that a node with a key comes to hold from nothing, at the layer at which the
next transaction is applied. The node applies transactions and rewards of blocks, reverts them,
and does the same with a pool on top; before it goes back to its blocks, it reverts the pool. -/
inductive Reached [Externals] (own : String) : StateLayer → Ledger → Prop
  | start : Reached own .chain default
  /-- `apply_transaction`. -/
  | apply {ctx : Context} {key : String} {st : SignedTransaction} {l after : Ledger}
      {applied : Bool} : Reached own (layerOf key) l → ctx.own = own → FreshSponsorship st l →
      applyTransaction ctx key st l = .ok (applied, after) → Reached own (layerOf key) after
  /-- `action_apply` of a transaction that arrives for the pool. -/
  | incoming {ctx : Context} {st : SignedTransaction} {l after : Ledger} :
      Reached own .pool l → ctx.own = own → FreshSponsorship st l →
      actionApply ctx st .pool l = .ok after → Reached own .pool after
  /-- `revert_transaction`. -/
  | revert {ctx : Context} {key : String} {st : SignedTransaction} {l after : Ledger} :
      Reached own (layerOf key) l → ctx.own = own →
      revertTransaction ctx key st l = .ok after → Reached own (layerOf key) after
  /-- `grant_rewards`, for a block that is applied or reverted. -/
  | grant {ctx : Context} {block : Block} {miner : String} {type : SetUsed} {l : Ledger}
      {granted : Granted} : Reached own .chain l →
      grantRewards ctx block miner type l = .ok granted →
      Reached own .chain { l with documents := granted.documents }
  | increase {ctx : Context} {rewards : List Reward} {l after : Ledger} : Reached own .chain l →
      ctx.own = own → increaseRewards ctx rewards l = .ok after → Reached own .chain after
  | decrease {ctx : Context} {rewards : List Reward} {l after : Ledger} : Reached own .chain l →
      ctx.own = own → decreaseRewards ctx rewards l = .ok after → Reached own .chain after
  | pool {l : Ledger} : Reached own .chain l → Reached own .pool l
  /-- The end of `revert_pool`. -/
  | chain {l : Ledger} : Reached own .pool l → Reached own .chain { l with
      state := l.state.setBalance own own (l.state.getBalance own .pool) .chain }

theorem Reached.sound [Externals] {own : String} {layer : StateLayer} {l : Ledger}
    (reached : Reached own layer l) : LedgerSound own layer l := by
  induction reached with
  | start => exact ledgerSound_default own .chain
  | apply _ hown fresh h ih =>
      subst hown
      exact ih.applyTransaction fresh h
  | incoming _ hown fresh h ih =>
      subst hown
      exact ih.actionApply fresh h
  | revert _ hown h ih =>
      subst hown
      exact ih.revertTransaction h
  | grant _ h ih => exact ih.grantRewards h
  | increase _ hown h ih =>
      subst hown
      exact ih.increaseRewards h
  | decrease _ hown h ih =>
      subst hown
      exact ih.decreaseRewards h
  | pool _ ih => exact ih.pool
  | chain _ ih => exact ih.chain

end Publiq
