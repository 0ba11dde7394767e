import Publiq.LedgerRun
import Publiq.SponsorshipMarks
import Mathlib.Logic.Relation

/-! What applying and reverting does to the sponsorships, step by step. -/
namespace Publiq
open Message Checked

namespace Documents

/-- One change of the sponsorships, while something is applied or reverted. The hashes are those
that sponsors name themselves in it, to cancel. -/
inductive SponsorshipStep [Externals] (type : SetUsed) (hashes : List String) (docs : Documents) :
    Documents → Prop
  | keep {after : Documents} : after.sponsored = docs.sponsored → after.expiring = docs.expiring →
      after.hashToBlock = docs.hashToBlock → SponsorshipStep type hashes docs after
  | sponsor {chain : Blockchain} {sponsor : SponsorContentUnit} {amount : Coin}
      {st : SignedTransaction} {after : Documents} : type = .apply →
      docs.hashToBlock[transactionHash st]? = none →
      docs.sponsorContentUnitApply chain sponsor amount (transactionHash st) = .ok after →
      SponsorshipStep type hashes docs after
  | unsponsor {chain : Blockchain} {sponsor : SponsorContentUnit} {hash : String}
      {after : Documents} : type = .revert →
      docs.sponsorContentUnitRevert chain sponsor hash = .ok after →
      SponsorshipStep type hashes docs after
  | use {chain : Blockchain} {uri : String} {blockNumber : ℕ} {hash manual : String}
      {payments : List SponsorPayment} {after : Documents} : manual = "" ∨ hash ∈ hashes →
      docs.sponsoredContentUnitSetUsed chain uri blockNumber type hash manual false =
        .ok (after, payments) → SponsorshipStep type hashes docs after

abbrev SponsorshipSteps [Externals] : Documents → Documents → Prop :=
  Relation.ReflTransGen fun docs after => ∃ type hashes, SponsorshipStep type hashes docs after

theorem SponsorshipStep.sound [Externals] {type : SetUsed} {hashes : List String}
    {docs after : Documents} (sound : SponsorshipsSound docs)
    (step : SponsorshipStep type hashes docs after) :
    SponsorshipsSound after := by
  cases step with
  | keep sponsored expiring hashToBlock =>
      obtain ⟨files, units, storages, sp, ex, hb⟩ := after
      cases sponsored
      cases expiring
      cases hashToBlock
      exact ⟨sound.orderly, sound.recorded, sound.listed⟩
  | sponsor _ fresh h => exact sound.sponsorContentUnitApply fresh h
  | unsponsor _ h => exact sound.sponsorContentUnitRevert h
  | use _ h => exact sound.setUsed h

/-- Taking back a sponsorship adds no entry. -/
theorem entry_of_sponsorContentUnitRevert {docs after : Documents} {chain : Blockchain}
    {sponsor : SponsorContentUnit} {hash name : String} {entry : SponsoredInformationHeader}
    (h : docs.sponsorContentUnitRevert chain sponsor hash = .ok after)
    (found : after.expirationEntryByHash name = .ok entry) :
    docs.expirationEntryByHash name = .ok entry := by
  unfold sponsorContentUnitRevert at h
  cases hunit : docs.sponsored[sponsor.uri]? with
  | none => simp [hunit] at h
  | some cusi =>
      simp only [hunit] at h
      obtain ⟨si, _, h⟩ := bind_ok_iff.mp h
      obtain ⟨sponsored, _, h⟩ := bind_ok_iff.mp h
      obtain ⟨number, _, h⟩ := bind_ok_iff.mp h
      obtain ⟨entries, hentries, h⟩ := bind_ok_iff.mp h
      obtain ⟨_, _, h⟩ := bind_ok_iff.mp h
      obtain ⟨_, hentries⟩ := require_bind_ok_iff.mp hentries
      cases pure_ok_iff.mp hentries
      cases pure_ok_iff.mp h
      rw [expirationEntryByHash_ok_iff] at found ⊢
      obtain ⟨n, hn, hentry⟩ := found
      change (docs.hashToBlock.erase si.transactionHash)[name]? = some n at hn
      change ((docs.expiring.set number _).get n)[name]? = some entry at hentry
      rw [Std.ExtTreeMap.getElem?_erase] at hn
      split_ifs at hn with hname
      refine ⟨n, hn, ?_⟩
      rw [SparseMap.get_set] at hentry
      split_ifs at hentry with hnumber
      · rw [Std.ExtTreeMap.getElem?_erase, if_neg hname, hnumber] at hentry
        exact hentry
      · exact hentry

def EntriesNamed (docs : Documents) : Prop :=
  ∀ name entry, docs.expirationEntryByHash name = .ok entry → entry.transactionHash ≠ ""

theorem SponsorshipStep.entriesNamed [Externals] (hashed : ∀ s, Externals.hash s ≠ "")
    {type : SetUsed} {hashes : List String} {docs after : Documents}
    (sound : SponsorshipsSound docs) (named : EntriesNamed docs)
    (step : SponsorshipStep type hashes docs after) : EntriesNamed after := by
  intro name entry found
  cases step with
  | keep sponsored expiring hashToBlock =>
      rw [expirationEntryByHash_congr expiring hashToBlock] at found
      exact named name entry found
  | sponsor _ fresh h =>
      obtain ⟨cusi, number, _, _, rfl⟩ := sponsorContentUnitApply_cases h
      obtain ⟨n, hn, hentry⟩ := expirationEntryByHash_ok_iff.mp found
      rw [withSponsorship_hashToBlock] at hn
      rw [withSponsorship_expiring] at hentry
      split_ifs at hn hentry with hname hthis hthis
      · cases hentry
        exact hashed _
      · exact named name entry
          (expirationEntryByHash_ok_iff.mpr ⟨n, sound.listed n name entry hentry, hentry⟩)
      · exact absurd hthis.2 hname
      · exact named name entry (expirationEntryByHash_ok_iff.mpr ⟨n, hn, hentry⟩)
  | unsponsor _ h => exact named name entry (entry_of_sponsorContentUnitRevert h found)
  | @use chain uri blockNumber hash manual payments after _ h =>
      by_cases hhash : hash = ""
      · subst hhash
        obtain ⟨hexpiring, hhashToBlock, _⟩ := setUsed_views sound h
        rw [expirationEntryByHash_congr hexpiring hhashToBlock] at found
        exact named name entry found
      · rcases setUsed_settles sound hhash h with ⟨rfl, _⟩ | ⟨payment, _, settles⟩
        · exact named name entry found
        · obtain ⟨before, hbefore, _, _, hentries⟩ := settles.entries
          rw [hentries] at found
          by_cases hthis : manual ≠ "" ∧ name = hash
          · rw [if_pos hthis] at found
            rw [found]
            exact named hash before hbefore
          · rw [if_neg hthis] at found
            exact named name entry found

end Documents

section
variable {ctx : Context} {st : SignedTransaction} {layer : StateLayer} {l after : Ledger}

theorem onState_documents {f : State → Checked State} (h : l.onState f = .ok after) :
    after.documents = l.documents := by
  obtain ⟨_, _, h⟩ := bind_ok_iff.mp h
  cases pure_ok_iff.mp h
  rfl

theorem increase_documents {key : String} {amount : Message.Coin}
    (h : l.increase ctx key amount layer = .ok after) : after.documents = l.documents := by
  obtain ⟨_, _, h⟩ := bind_ok_iff.mp h
  cases pure_ok_iff.mp h
  rfl

theorem decrease_documents {key : String} {amount : Message.Coin}
    (h : l.decrease ctx key amount layer = .ok after) : after.documents = l.documents := by
  obtain ⟨_, _, h⟩ := bind_ok_iff.mp h
  exact onState_documents h

theorem feeApply_documents {receiver : String} (h : feeApply ctx st receiver l = .ok after) :
    after.documents = l.documents := by
  unfold feeApply at h
  split_ifs at h
  · cases pure_ok_iff.mp h
    rfl
  · obtain ⟨payer, _, h⟩ := bind_ok_iff.mp h
    obtain ⟨mid, hmid, h⟩ := bind_ok_iff.mp h
    rw [decrease_documents h, increase_documents hmid]

theorem feeRevert_documents {receiver : String} (h : feeRevert ctx st receiver l = .ok after) :
    after.documents = l.documents := by
  unfold feeRevert at h
  split_ifs at h
  · cases pure_ok_iff.mp h
    rfl
  · obtain ⟨payer, _, h⟩ := bind_ok_iff.mp h
    obtain ⟨mid, hmid, h⟩ := bind_ok_iff.mp h
    rw [increase_documents h, decrease_documents hmid]

theorem increaseRewards_documents {rewards : List Reward}
    (h : increaseRewards ctx rewards l = .ok after) : after.documents = l.documents :=
  runAll_invariant (fun _ _ _ _ hs step => (increase_documents step).trans hs) rfl h

theorem decreaseRewards_documents {rewards : List Reward}
    (h : decreaseRewards ctx rewards l = .ok after) : after.documents = l.documents :=
  runAll_invariant (fun _ _ _ _ hs step => (decrease_documents step).trans hs) rfl h

end

section
variable [Externals] {ctx : Context} {st : SignedTransaction} {layer : StateLayer}
  {l after : Ledger}

theorem keepStep {type : SetUsed} {hashes : List String} {docs : Documents} :
    docs.SponsorshipStep type hashes docs := .keep rfl rfl rfl

def cancelledHash (st : SignedTransaction) : List String :=
  match st.transactionDetails.action with
  | .cancelSponsorContentUnit cancel => [cancel.transactionHash]
  | _ => []

/-- An action that is applied is one step. -/
theorem actionApply_step (fresh : FreshSponsorship st l)
    (h : actionApply ctx st layer l = .ok after) :
    l.documents.SponsorshipStep .apply (cancelledHash st) after.documents := by
  unfold cancelledHash
  obtain ⟨_, _, h⟩ := bind_ok_iff.mp h
  cases haction : st.transactionDetails.action with
  | transfer a =>
      rw [haction] at h
      have h := requireAuthority_bind h
      obtain ⟨mid, hmid, h⟩ := bind_ok_iff.mp h
      rw [decrease_documents h, increase_documents hmid]
      exact keepStep
  | authorizationUpdate a =>
      rw [haction] at h
      have h := requireAuthority_bind h
      obtain ⟨m, _, rfl⟩ := onAuthorities_ok_iff.mp h
      exact keepStep
  | file a =>
      rw [haction] at h
      obtain ⟨_, _, h⟩ := bind_ok_iff.mp h
      obtain ⟨_, h⟩ := require_bind_ok_iff.mp h
      cases pure_ok_iff.mp h
      exact .keep rfl rfl rfl
  | contentUnit a =>
      rw [haction] at h
      obtain ⟨_, _, h⟩ := bind_ok_iff.mp h
      split at h
      · cases h
      · obtain ⟨_, h⟩ := require_bind_ok_iff.mp h
        split at h
        · cases h
        · cases pure_ok_iff.mp h
          exact .keep rfl rfl rfl
  | content a =>
      rw [haction] at h
      rw [a.apply_eq h]
      exact keepStep
  | role a =>
      rw [haction] at h
      have h := requireAuthority_bind h
      obtain ⟨_, h⟩ := require_bind_ok_iff.mp h
      obtain ⟨_, h⟩ := require_bind_ok_iff.mp h
      obtain ⟨_, _, h⟩ := bind_ok_iff.mp h
      rw [onState_documents h]
      exact keepStep
  | storageUpdate a =>
      rw [haction] at h
      have h := requireAuthority_bind h
      obtain ⟨_, h⟩ := require_bind_ok_iff.mp h
      obtain ⟨_, h⟩ := require_bind_ok_iff.mp h
      obtain ⟨_, h⟩ := require_bind_ok_iff.mp h
      cases pure_ok_iff.mp h
      exact .keep rfl rfl rfl
  | serviceStatistics a =>
      rw [haction] at h
      rw [a.apply_eq h]
      exact keepStep
  | sponsorContentUnit a =>
      rw [haction] at h
      have h := requireAuthority_bind h
      obtain ⟨_, h⟩ := require_bind_ok_iff.mp h
      obtain ⟨amount, _, h⟩ := bind_ok_iff.mp h
      obtain ⟨mid, hmid, h⟩ := bind_ok_iff.mp h
      obtain ⟨docs, hdocs, h⟩ := bind_ok_iff.mp h
      cases pure_ok_iff.mp h
      rw [onState_documents hmid] at hdocs
      exact .sponsor rfl (fresh a haction) hdocs
  | cancelSponsorContentUnit a =>
      rw [haction] at h
      have h := requireAuthority_bind h
      obtain ⟨_, h⟩ := require_bind_ok_iff.mp h
      obtain ⟨⟨docs, payments⟩, hused, h⟩ := bind_ok_iff.mp h
      obtain ⟨_, h⟩ := require_bind_ok_iff.mp h
      cases pure_ok_iff.mp h
      exact .use (.inr List.mem_cons_self) hused
  | unknown rtt =>
      rw [haction] at h
      cases h

/-- An action that is reverted is one step. -/
theorem actionRevert_step (h : actionRevert ctx st layer l = .ok after) :
    l.documents.SponsorshipStep .revert (cancelledHash st) after.documents := by
  unfold cancelledHash
  obtain ⟨_, _, h⟩ := bind_ok_iff.mp h
  cases haction : st.transactionDetails.action with
  | transfer a =>
      rw [haction] at h
      obtain ⟨mid, hmid, h⟩ := bind_ok_iff.mp h
      obtain ⟨last, hlast, h⟩ := bind_ok_iff.mp h
      have h := requireAuthority_bind h
      cases pure_ok_iff.mp h
      rw [decrease_documents hlast, increase_documents hmid]
      exact keepStep
  | authorizationUpdate a =>
      rw [haction] at h
      obtain ⟨m, _, rfl⟩ := onAuthorities_ok_iff.mp h
      exact keepStep
  | file a =>
      rw [haction] at h
      obtain ⟨_, _, h⟩ := bind_ok_iff.mp h
      cases pure_ok_iff.mp h
      exact .keep rfl rfl rfl
  | contentUnit a =>
      rw [haction] at h
      obtain ⟨_, _, h⟩ := bind_ok_iff.mp h
      cases pure_ok_iff.mp h
      exact .keep rfl rfl rfl
  | content a =>
      rw [haction] at h
      have h := requireAuthority_bind h
      cases pure_ok_iff.mp h
      exact keepStep
  | role a =>
      rw [haction] at h
      have h := requireAuthority_bind h
      cases pure_ok_iff.mp h
      exact keepStep
  | storageUpdate a =>
      rw [haction] at h
      have h := requireAuthority_bind h
      cases pure_ok_iff.mp h
      exact .keep rfl rfl rfl
  | serviceStatistics a =>
      rw [haction] at h
      have h := requireAuthority_bind h
      cases pure_ok_iff.mp h
      exact keepStep
  | sponsorContentUnit a =>
      rw [haction] at h
      obtain ⟨mid, hmid, h⟩ := bind_ok_iff.mp h
      obtain ⟨last, hlast, h⟩ := bind_ok_iff.mp h
      have h := requireAuthority_bind h
      cases pure_ok_iff.mp h
      obtain ⟨docs, hdocs, hlast⟩ := bind_ok_iff.mp hlast
      cases pure_ok_iff.mp hlast
      rw [increase_documents hmid] at hdocs
      exact .unsponsor rfl hdocs
  | cancelSponsorContentUnit a =>
      rw [haction] at h
      obtain ⟨⟨docs, payments⟩, hused, h⟩ := bind_ok_iff.mp h
      obtain ⟨_, h⟩ := require_bind_ok_iff.mp h
      have h := requireAuthority_bind h
      cases pure_ok_iff.mp h
      exact .use (.inr List.mem_cons_self) hused
  | unknown rtt =>
      rw [haction] at h
      cases h

theorem applyTransaction_steps {key : String} {applied : Bool} (fresh : FreshSponsorship st l)
    (h : applyTransaction ctx key st l = .ok (applied, after)) :
    Documents.SponsorshipSteps l.documents after.documents := by
  obtain ⟨canApply, _, h⟩ := bind_ok_iff.mp h
  cases canApply with
  | false =>
      cases pure_ok_iff.mp h
      exact .refl
  | true =>
      obtain ⟨mid, hmid, h⟩ := bind_ok_iff.mp h
      have hstep : Documents.SponsorshipSteps l.documents mid.documents :=
        .single ⟨.apply, _, actionApply_step fresh hmid⟩
      obtain ⟨feeOk, _, h⟩ := bind_ok_iff.mp h
      cases feeOk with
      | false =>
          obtain ⟨reverted, hreverted, h⟩ := bind_ok_iff.mp h
          cases pure_ok_iff.mp h
          exact hstep.tail ⟨.revert, _, actionRevert_step hreverted⟩
      | true =>
          obtain ⟨paid, hpaid, h⟩ := bind_ok_iff.mp h
          cases pure_ok_iff.mp h
          rw [feeApply_documents hpaid]
          exact hstep

theorem revertTransaction_step {key : String} (h : revertTransaction ctx key st l = .ok after) :
    l.documents.SponsorshipStep .revert (cancelledHash st) after.documents := by
  obtain ⟨mid, hmid, h⟩ := bind_ok_iff.mp h
  rw [← feeRevert_documents hmid]
  exact actionRevert_step h

theorem payViewed_steps {chain : Blockchain} {blockNumber : ℕ} {type : SetUsed}
    {uris : List String} {docs after : Documents} {paid payments : List SponsorPayment}
    (h : payViewed chain blockNumber type uris (docs, paid) = .ok (after, payments)) :
    Relation.ReflTransGen (Documents.SponsorshipStep type []) docs after := by
  induction uris generalizing docs paid with
  | nil =>
      cases pure_ok_iff.mp h
      exact .refl
  | cons uri rest ih =>
      obtain ⟨⟨mid, more⟩, hmid, h⟩ := bind_ok_iff.mp h
      obtain ⟨_, h⟩ := require_bind_ok_iff.mp h
      exact .head (.use (.inl rfl) hmid) (ih h)

theorem returnExpired_steps {chain : Blockchain} {blockNumber : ℕ} {type : SetUsed}
    {viewed : UnitViews} {expiring : List (String × String)} {docs after : Documents}
    {returned payments : List SponsorPayment}
    (h : returnExpired chain blockNumber type viewed expiring (docs, returned) =
      .ok (after, payments)) :
    Relation.ReflTransGen (Documents.SponsorshipStep type []) docs after := by
  induction expiring generalizing docs returned with
  | nil =>
      cases pure_ok_iff.mp h
      exact .refl
  | cons ending rest ih =>
      obtain ⟨uri, hash⟩ := ending
      simp only [returnExpired] at h
      split_ifs at h
      · exact ih h
      · obtain ⟨⟨mid, more⟩, hmid, h⟩ := bind_ok_iff.mp h
        obtain ⟨_, h⟩ := require_bind_ok_iff.mp h
        exact .head (.use (.inl rfl) hmid) (ih h)

theorem grantRewards_steps {block : Block} {miner : String} {type : SetUsed} {granted : Granted}
    (h : grantRewards ctx block miner type l = .ok granted) :
    Relation.ReflTransGen (Documents.SponsorshipStep type []) l.documents granted.documents := by
  obtain ⟨viewedDocs, expired, hpaid, hexpired⟩ := grantRewards_documents h
  exact (payViewed_steps hpaid).trans (returnExpired_steps hexpired)

theorem Reached.steps {own : String} (reached : Reached own layer l) :
    Documents.SponsorshipSteps default l.documents := by
  induction reached with
  | start => exact .refl
  | apply _ _ fresh h ih => exact ih.trans (applyTransaction_steps fresh h)
  | incoming _ _ fresh h ih => exact ih.tail ⟨.apply, _, actionApply_step fresh h⟩
  | revert _ _ h ih => exact ih.tail ⟨.revert, _, revertTransaction_step h⟩
  | grant _ h ih =>
      refine ih.trans (Relation.ReflTransGen.mono ?_ _ _ (grantRewards_steps h))
      exact fun _ _ step => ⟨_, _, step⟩
  | increase _ _ h ih =>
      rw [increaseRewards_documents h]
      exact ih
  | decrease _ _ h ih =>
      rw [decreaseRewards_documents h]
      exact ih
  | pool _ ih => exact ih
  | chain _ ih => exact ih

end

/-- No entry of a ledger that is reached has an empty hash, if no transaction has. -/
theorem Reached.entriesNamed [Externals] (hashed : ∀ s, Externals.hash s ≠ "") {own : String}
    {layer : StateLayer} {l : Ledger} (reached : Reached own layer l) :
    l.documents.EntriesNamed := by
  have hboth : ∀ docs, Documents.SponsorshipSteps default docs →
      docs.SponsorshipsSound ∧ docs.EntriesNamed := by
    intro docs steps
    induction steps with
    | refl =>
        refine ⟨Documents.sponsorshipsSound_default, fun name entry h => ?_⟩
        cases h
    | tail _ step ih =>
        obtain ⟨type, hashes, step⟩ := step
        exact ⟨step.sound ih.1, step.entriesNamed hashed ih.1 ih.2⟩
  exact (hboth l.documents reached.steps).2

end Publiq
