import Publiq.NodeSteps

/-! Files and content units that are published stay so: nothing but their own reversal
takes them away, and a second transaction that publishes them cannot be applied. -/
namespace Publiq
open Message Checked

def Message.Action.document : Action → Option (String × List String)
  | .file a => some (a.uri, a.authorAddresses)
  | .contentUnit a => some (a.uri, a.authorAddresses)
  | _ => none

namespace Documents

def published (docs : Documents) : Action → Bool
  | .file file => docs.fileExists file.uri
  | .contentUnit unit => docs.unitExists unit.uri
  | _ => false

/-- The same files and units, whatever happened to storages and sponsorships. -/
def SameUris (a b : Documents) : Prop := b.files = a.files ∧ b.units = a.units

theorem SameUris.refl (docs : Documents) : SameUris docs docs := ⟨rfl, rfl⟩

theorem SameUris.trans {a b c : Documents} (h : SameUris a b) (h' : SameUris b c) :
    SameUris a c := ⟨h'.1.trans h.1, h'.2.trans h.2⟩

theorem SameUris.published {a b : Documents} (h : SameUris a b) (action : Action) :
    b.published action = a.published action := by
  cases action <;> simp only [Documents.published, fileExists, unitExists, h.1, h.2]

theorem sameUris_sponsorApply {chain : Blockchain} {spi : SponsorContentUnit} {amount : Coin}
    {hash : String} {docs after : Documents}
    (h : docs.sponsorContentUnitApply chain spi amount hash = .ok after) :
    SameUris docs after := by
  obtain ⟨_, h⟩ := require_bind_ok_iff.mp h
  obtain ⟨cusi, _, h⟩ := bind_ok_iff.mp h
  obtain ⟨number, _, h⟩ := bind_ok_iff.mp h
  cases pure_ok_iff.mp h
  exact ⟨rfl, rfl⟩

theorem sameUris_sponsorRevert {chain : Blockchain} {spi : SponsorContentUnit} {hash : String}
    {docs after : Documents} (h : docs.sponsorContentUnitRevert chain spi hash = .ok after) :
    SameUris docs after := by
  unfold sponsorContentUnitRevert at h
  split at h
  · cases h
  · obtain ⟨si, _, h⟩ := bind_ok_iff.mp h
    obtain ⟨sponsored, _, h⟩ := bind_ok_iff.mp h
    obtain ⟨number, _, h⟩ := bind_ok_iff.mp h
    obtain ⟨expirings, _, h⟩ := bind_ok_iff.mp h
    obtain ⟨_, _, h⟩ := bind_ok_iff.mp h
    cases pure_ok_iff.mp h
    exact ⟨rfl, rfl⟩

theorem sameUris_setUsed {chain : Blockchain} {uri : String} {number : ℕ} {type : SetUsed}
    {hash account : String} {pretend : Bool} {docs : Documents}
    {after : Documents × List SponsorPayment}
    (h : docs.sponsoredContentUnitSetUsed chain uri number type hash account pretend = .ok after) :
    SameUris docs after.1 := by
  obtain ⟨_, h⟩ := require_bind_ok_iff.mp h
  split at h
  · cases pure_ok_iff.mp h
    exact SameUris.refl docs
  · obtain ⟨_, h⟩ := require_bind_ok_iff.mp h
    obtain ⟨_, h⟩ := require_bind_ok_iff.mp h
    obtain ⟨used, _, h⟩ := bind_ok_iff.mp h
    obtain ⟨noted, _, h⟩ := bind_ok_iff.mp h
    cases pure_ok_iff.mp h
    exact ⟨rfl, rfl⟩

theorem sameUris_payViewed {chain : Blockchain} {number : ℕ} {type : SetUsed} {uris : List String}
    {s t : Documents × List SponsorPayment} (h : payViewed chain number type uris s = .ok t) :
    SameUris s.1 t.1 := by
  induction uris generalizing s with
  | nil =>
      cases pure_ok_iff.mp h
      exact SameUris.refl _
  | cons uri rest ih =>
      obtain ⟨used, hused, h⟩ := bind_ok_iff.mp h
      obtain ⟨_, h⟩ := require_bind_ok_iff.mp h
      exact (sameUris_setUsed hused).trans (ih (s := (used.1, s.2 ++ used.2)) h)

theorem sameUris_returnExpired {chain : Blockchain} {number : ℕ} {type : SetUsed}
    {viewed : UnitViews} {ended : List (String × String)} {s t : Documents × List SponsorPayment}
    (h : returnExpired chain number type viewed ended s = .ok t) : SameUris s.1 t.1 := by
  induction ended generalizing s with
  | nil =>
      cases pure_ok_iff.mp h
      exact SameUris.refl _
  | cons item rest ih =>
      unfold returnExpired at h
      split_ifs at h
      · exact ih h
      · obtain ⟨used, hused, h⟩ := bind_ok_iff.mp h
        obtain ⟨_, h⟩ := require_bind_ok_iff.mp h
        exact (sameUris_setUsed hused).trans (ih (s := (used.1, s.2 ++ used.2)) h)

theorem sameUris_grantRewards {ctx : Context} {block : Block} {miner : String} {type : SetUsed}
    {l : Ledger} {granted : Granted} (h : grantRewards ctx block miner type l = .ok granted) :
    SameUris l.documents granted.documents := by
  obtain ⟨_, _, viewedDocs, _, docs, _, _, _, _, _, hviewed, hended, _, rfl⟩ :=
    grantRewards_stages h
  exact (sameUris_payViewed hviewed).trans (sameUris_returnExpired (s := (viewedDocs, [])) hended)

end Documents

namespace Ledger
open Documents

def SameUris (a b : Ledger) : Prop := Documents.SameUris a.documents b.documents

theorem SameUris.trans {a b c : Ledger} (h : SameUris a b) (h' : SameUris b c) : SameUris a c :=
  Documents.SameUris.trans h h'

theorem sameUris_onState {f : State → Checked State} {l after : Ledger}
    (h : l.onState f = .ok after) : SameUris l after := by
  obtain ⟨state, _, h⟩ := bind_ok_iff.mp h
  cases pure_ok_iff.mp h
  exact Documents.SameUris.refl _

theorem sameUris_onAuthorities {f : AuthorityManager → Checked AuthorityManager}
    {l after : Ledger} (h : l.onAuthorities f = .ok after) : SameUris l after := by
  obtain ⟨authorities, _, h⟩ := bind_ok_iff.mp h
  cases pure_ok_iff.mp h
  exact Documents.SameUris.refl _

theorem sameUris_onDocuments {f : Documents → Checked Documents} {l after : Ledger}
    (same : ∀ docs after, f docs = .ok after → Documents.SameUris docs after)
    (h : l.onDocuments f = .ok after) : SameUris l after := by
  obtain ⟨documents, hdocs, h⟩ := bind_ok_iff.mp h
  cases pure_ok_iff.mp h
  exact same _ _ hdocs

theorem sameUris_increase {ctx : Context} {key : String} {amount : Message.Coin}
    {layer : StateLayer} {l after : Ledger} (h : l.increase ctx key amount layer = .ok after) :
    SameUris l after := by
  obtain ⟨coin, _, h⟩ := bind_ok_iff.mp h
  cases pure_ok_iff.mp h
  exact Documents.SameUris.refl _

theorem sameUris_decrease {ctx : Context} {key : String} {amount : Message.Coin}
    {layer : StateLayer} {l after : Ledger} (h : l.decrease ctx key amount layer = .ok after) :
    SameUris l after := by
  obtain ⟨coin, _, h⟩ := bind_ok_iff.mp h
  exact sameUris_onState h

theorem sameUris_increaseRewards {ctx : Context} {rewards : List Reward} {l after : Ledger}
    (h : increaseRewards ctx rewards l = .ok after) : SameUris l after :=
  runAll_invariant (I := SameUris l)
    (fun _ _ _ _ hs step => hs.trans (sameUris_increase step)) (Documents.SameUris.refl _) h

theorem sameUris_feeApply {ctx : Context} {st : SignedTransaction} {receiver : String}
    {l after : Ledger} (h : feeApply ctx st receiver l = .ok after) : SameUris l after := by
  unfold feeApply at h
  split_ifs at h
  · cases pure_ok_iff.mp h
    exact Documents.SameUris.refl _
  · obtain ⟨payer, _, h⟩ := bind_ok_iff.mp h
    obtain ⟨mid, hmid, h⟩ := bind_ok_iff.mp h
    exact (sameUris_increase hmid).trans (sameUris_decrease h)

section Actions
variable [Externals] {ctx : Context} {st : SignedTransaction} {layer : StateLayer}

/-- An action that publishes nothing leaves the files and units. -/
theorem sameUris_actionApply {l after : Ledger}
    (other : st.transactionDetails.action.document = none)
    (h : actionApply ctx st layer l = .ok after) : SameUris l after := by
  obtain ⟨_, _, h⟩ := bind_ok_iff.mp h
  cases haction : st.transactionDetails.action with
  | transfer a =>
      rw [haction] at h
      obtain ⟨_, _, h⟩ := bind_ok_iff.mp h
      obtain ⟨mid, hmid, h⟩ := bind_ok_iff.mp h
      exact (sameUris_increase hmid).trans (sameUris_decrease h)
  | authorizationUpdate a =>
      rw [haction] at h
      obtain ⟨_, _, h⟩ := bind_ok_iff.mp h
      exact sameUris_onAuthorities h
  | file a => rw [haction] at other; cases other
  | contentUnit a => rw [haction] at other; cases other
  | content a =>
      rw [haction] at h
      obtain ⟨_, _, h⟩ := bind_ok_iff.mp h
      obtain ⟨_, _, h⟩ := bind_ok_iff.mp h
      split at h
      · cases h
      · obtain ⟨_, _, h⟩ := bind_ok_iff.mp h
        obtain ⟨_, h⟩ := require_bind_ok_iff.mp h
        cases pure_ok_iff.mp h
        exact Documents.SameUris.refl _
  | role a =>
      rw [haction] at h
      obtain ⟨_, _, h⟩ := bind_ok_iff.mp h
      obtain ⟨_, h⟩ := require_bind_ok_iff.mp h
      obtain ⟨_, h⟩ := require_bind_ok_iff.mp h
      obtain ⟨_, _, h⟩ := bind_ok_iff.mp h
      exact sameUris_onState h
  | storageUpdate a =>
      rw [haction] at h
      obtain ⟨_, _, h⟩ := bind_ok_iff.mp h
      obtain ⟨_, h⟩ := require_bind_ok_iff.mp h
      obtain ⟨_, h⟩ := require_bind_ok_iff.mp h
      obtain ⟨_, h⟩ := require_bind_ok_iff.mp h
      cases pure_ok_iff.mp h
      exact ⟨rfl, rfl⟩
  | serviceStatistics a =>
      rw [haction] at h
      obtain ⟨_, _, h⟩ := bind_ok_iff.mp h
      obtain ⟨problem, _, h⟩ := bind_ok_iff.mp h
      split at h
      · cases h
      · cases pure_ok_iff.mp h
        exact Documents.SameUris.refl _
  | sponsorContentUnit a =>
      rw [haction] at h
      obtain ⟨_, _, h⟩ := bind_ok_iff.mp h
      obtain ⟨_, h⟩ := require_bind_ok_iff.mp h
      obtain ⟨amount, _, h⟩ := bind_ok_iff.mp h
      obtain ⟨mid, hmid, h⟩ := bind_ok_iff.mp h
      exact (sameUris_onState hmid).trans
        (sameUris_onDocuments (fun _ _ => sameUris_sponsorApply) h)
  | cancelSponsorContentUnit a =>
      rw [haction] at h
      obtain ⟨_, _, h⟩ := bind_ok_iff.mp h
      obtain ⟨_, h⟩ := require_bind_ok_iff.mp h
      obtain ⟨⟨docs, result⟩, hused, h⟩ := bind_ok_iff.mp h
      obtain ⟨_, h⟩ := require_bind_ok_iff.mp h
      cases pure_ok_iff.mp h
      exact sameUris_setUsed hused
  | unknown rtt =>
      rw [haction] at h
      cases h

/-- Reverting an action that publishes nothing leaves the files and units. -/
theorem sameUris_actionRevert {l after : Ledger}
    (other : st.transactionDetails.action.document = none)
    (h : actionRevert ctx st layer l = .ok after) : SameUris l after := by
  obtain ⟨_, _, h⟩ := bind_ok_iff.mp h
  cases haction : st.transactionDetails.action with
  | transfer a =>
      rw [haction] at h
      obtain ⟨mid, hmid, h⟩ := bind_ok_iff.mp h
      obtain ⟨last, hlast, h⟩ := bind_ok_iff.mp h
      obtain ⟨_, _, h⟩ := bind_ok_iff.mp h
      cases pure_ok_iff.mp h
      exact (sameUris_increase hmid).trans (sameUris_decrease hlast)
  | authorizationUpdate a =>
      rw [haction] at h
      exact sameUris_onAuthorities h
  | file a => rw [haction] at other; cases other
  | contentUnit a => rw [haction] at other; cases other
  | content a =>
      rw [haction] at h
      obtain ⟨_, _, h⟩ := bind_ok_iff.mp h
      cases pure_ok_iff.mp h
      exact Documents.SameUris.refl _
  | role a =>
      rw [haction] at h
      obtain ⟨_, _, h⟩ := bind_ok_iff.mp h
      cases pure_ok_iff.mp h
      exact Documents.SameUris.refl _
  | storageUpdate a =>
      rw [haction] at h
      obtain ⟨_, _, h⟩ := bind_ok_iff.mp h
      cases pure_ok_iff.mp h
      exact ⟨rfl, rfl⟩
  | serviceStatistics a =>
      rw [haction] at h
      obtain ⟨_, _, h⟩ := bind_ok_iff.mp h
      cases pure_ok_iff.mp h
      exact Documents.SameUris.refl _
  | sponsorContentUnit a =>
      rw [haction] at h
      obtain ⟨mid, hmid, h⟩ := bind_ok_iff.mp h
      obtain ⟨last, hlast, h⟩ := bind_ok_iff.mp h
      obtain ⟨_, _, h⟩ := bind_ok_iff.mp h
      cases pure_ok_iff.mp h
      exact (sameUris_increase hmid).trans
        (sameUris_onDocuments (fun _ _ => sameUris_sponsorRevert) hlast)
  | cancelSponsorContentUnit a =>
      rw [haction] at h
      obtain ⟨⟨docs, result⟩, hused, h⟩ := bind_ok_iff.mp h
      obtain ⟨_, h⟩ := require_bind_ok_iff.mp h
      obtain ⟨_, _, h⟩ := bind_ok_iff.mp h
      cases pure_ok_iff.mp h
      exact sameUris_setUsed hused
  | unknown rtt =>
      rw [haction] at h
      cases h

omit [Externals] in
theorem canApply_of_published {l : Ledger}
    (published : l.documents.published st.transactionDetails.action = true) {canApply : Bool}
    (h : actionCanApply ctx st layer l = .ok canApply) : canApply = false := by
  obtain ⟨_, _, h⟩ := bind_ok_iff.mp h
  cases haction : st.transactionDetails.action with
  | file a =>
      rw [haction] at h published
      obtain ⟨permitted, _, h⟩ := bind_ok_iff.mp h
      rw [← pure_ok_iff.mp h, show l.documents.fileExists a.uri = true from published]
      simp
  | contentUnit a =>
      rw [haction] at h published
      obtain ⟨permitted, _, h⟩ := bind_ok_iff.mp h
      rw [← pure_ok_iff.mp h, show l.documents.unitExists a.uri = true from published]
      simp
  | _ =>
      rw [haction] at published
      cases published

/-- What is applied is published, and what was published stays so. -/
theorem published_actionApply {l after : Ledger} (h : actionApply ctx st layer l = .ok after) :
    (∀ action, l.documents.published action = true → after.documents.published action = true) ∧
      ∀ uri authors, st.transactionDetails.action.document = some (uri, authors) → uri ≠ "" →
        l.documents.published st.transactionDetails.action = false ∧
          after.documents.published st.transactionDetails.action = true := by
  cases hdocument : st.transactionDetails.action.document with
  | none =>
      have same := sameUris_actionApply hdocument h
      exact ⟨fun action hpublished => (same.published action).trans hpublished,
        fun _ _ h => nomatch h⟩
  | some document =>
      obtain ⟨_, _, h⟩ := bind_ok_iff.mp h
      cases haction : st.transactionDetails.action with
      | file a =>
          rw [haction] at h
          obtain ⟨_, _, h⟩ := bind_ok_iff.mp h
          obtain ⟨hnew, h⟩ := require_bind_ok_iff.mp h
          cases pure_ok_iff.mp h
          refine ⟨fun action hpublished => ?_, fun uri authors hsame hne => ⟨hnew, ?_⟩⟩
          · cases action <;> simp_all [Documents.published, fileExists, unitExists, insertFile]
          · rw [haction] at hdocument
            cases hdocument.trans hsame
            simp [Documents.published, fileExists, insertFile, hne]
      | contentUnit a =>
          rw [haction] at h
          obtain ⟨_, _, h⟩ := bind_ok_iff.mp h
          split at h
          · cases h
          · obtain ⟨hnew, h⟩ := require_bind_ok_iff.mp h
            split at h
            · cases h
            · cases pure_ok_iff.mp h
              refine ⟨fun action hpublished => ?_, fun uri authors hsame hne => ⟨hnew, ?_⟩⟩
              · cases action <;> simp_all [Documents.published, fileExists, unitExists, insertUnit]
              · rw [haction] at hdocument
                cases hdocument.trans hsame
                simp [Documents.published, unitExists, insertUnit, hne]
      | _ =>
          rw [haction] at hdocument
          cases hdocument

/-- Taking back what was just applied leaves what was published before. -/
theorem published_actionRevert {l mid after : Ledger}
    (happly : actionApply ctx st layer l = .ok mid)
    (hrevert : actionRevert ctx st layer mid = .ok after) (action : Action)
    (published : l.documents.published action = true) :
    after.documents.published action = true := by
  cases hdocument : st.transactionDetails.action.document with
  | none =>
      have same := (sameUris_actionApply hdocument happly).trans
        (sameUris_actionRevert hdocument hrevert)
      exact (same.published action).trans published
  | some document =>
      obtain ⟨hkeep, _⟩ := published_actionApply happly
      have hmid := hkeep action published
      obtain ⟨_, _, happly⟩ := bind_ok_iff.mp happly
      obtain ⟨_, _, hrevert⟩ := bind_ok_iff.mp hrevert
      cases haction : st.transactionDetails.action with
      | file a =>
          rw [haction] at happly hrevert
          obtain ⟨_, _, happly⟩ := bind_ok_iff.mp happly
          obtain ⟨hnew, happly⟩ := require_bind_ok_iff.mp happly
          obtain ⟨_, _, hrevert⟩ := bind_ok_iff.mp hrevert
          cases pure_ok_iff.mp hrevert
          cases action with
          | file other =>
              have hne : a.uri ≠ other.uri := by
                intro heq
                rw [heq] at hnew
                exact Bool.false_ne_true (hnew.symm.trans published)
              simp_all [Documents.published, fileExists, removeFile,
                Std.ExtTreeMap.contains_erase]
          | contentUnit other => exact hmid
          | _ => cases published
      | contentUnit a =>
          rw [haction] at happly hrevert
          obtain ⟨_, _, happly⟩ := bind_ok_iff.mp happly
          obtain ⟨_, _, hrevert⟩ := bind_ok_iff.mp hrevert
          cases pure_ok_iff.mp hrevert
          split at happly
          · cases happly
          · obtain ⟨hnew, happly⟩ := require_bind_ok_iff.mp happly
            cases action with
            | file other => exact hmid
            | contentUnit other =>
                have hne : a.uri ≠ other.uri := by
                  intro heq
                  rw [heq] at hnew
                  exact Bool.false_ne_true (hnew.symm.trans published)
                simp_all [Documents.published, unitExists, removeUnit,
                  Std.ExtTreeMap.contains_erase]
            | _ => cases published
      | _ =>
          rw [haction] at hdocument
          cases hdocument

theorem published_applyTransaction {key : String} {l after : Ledger} {applied : Bool}
    (h : applyTransaction ctx key st l = .ok (applied, after)) :
    (∀ action, l.documents.published action = true → after.documents.published action = true) ∧
      (applied = true → ∀ uri authors, st.transactionDetails.action.document =
        some (uri, authors) → uri ≠ "" →
          after.documents.published st.transactionDetails.action = true) ∧
      (l.documents.published st.transactionDetails.action = true → applied = false) := by
  obtain ⟨canApply, hcan, h⟩ := bind_ok_iff.mp h
  cases canApply with
  | false =>
      cases pure_ok_iff.mp h
      exact ⟨fun _ h => h, fun h => (Bool.false_ne_true h).elim, fun _ => rfl⟩
  | true =>
      have hblocked : l.documents.published st.transactionDetails.action = true →
          applied = false :=
        fun hpublished => (Bool.false_ne_true (canApply_of_published hpublished hcan).symm).elim
      obtain ⟨mid, hmid, h⟩ := bind_ok_iff.mp h
      obtain ⟨feeOk, _, h⟩ := bind_ok_iff.mp h
      obtain ⟨hkeep, hnew⟩ := published_actionApply hmid
      cases feeOk with
      | false =>
          obtain ⟨reverted, hrevert, h⟩ := bind_ok_iff.mp h
          cases pure_ok_iff.mp h
          exact ⟨published_actionRevert hmid hrevert, fun h => (Bool.false_ne_true h).elim, hblocked⟩
      | true =>
          obtain ⟨paid, hfee, h⟩ := bind_ok_iff.mp h
          cases pure_ok_iff.mp h
          have same := sameUris_feeApply hfee
          refine ⟨fun action hpublished => ?_, fun _ uri authors hdocument hne => ?_, hblocked⟩
          · exact (same.published action).trans (hkeep action hpublished)
          · exact (same.published _).trans (hnew uri authors hdocument hne).2

end Actions

end Ledger

def Message.SignedTransaction.Named (st : SignedTransaction) : Prop :=
  ∀ uri authors, st.transactionDetails.action.document = some (uri, authors) → uri ≠ ""

theorem named_of_actionValidate [Externals] (empty : Externals.EmptyNoUri) {config : Config}
    {st : SignedTransaction} {checkComplete : Bool}
    (h : actionValidate config st checkComplete = .ok ()) : st.Named := by
  intro uri authors hdocument
  obtain ⟨_, _, h⟩ := bind_ok_iff.mp h
  cases haction : st.transactionDetails.action with
  | file a =>
      rw [haction] at h hdocument
      cases hdocument
      obtain ⟨_, _, h⟩ := bind_ok_iff.mp h
      exact ne_empty_of_requireUri empty h
  | contentUnit a =>
      rw [haction] at h hdocument
      cases hdocument
      obtain ⟨_, _, h⟩ := bind_ok_iff.mp h
      obtain ⟨_, _, h⟩ := bind_ok_iff.mp h
      obtain ⟨_, h⟩ := require_bind_ok_iff.mp h
      obtain ⟨_, huri, _⟩ := bind_ok_iff.mp h
      exact ne_empty_of_requireUri empty huri
  | _ =>
      rw [haction] at hdocument
      cases hdocument

end Publiq
