import Publiq.CoinExactness
import Publiq.Foundation.Foretelling
import Publiq.RejectedTransactions

/-! `action_can_apply` is asked before `action_apply`. What its answer says about the
action, and when it can be relied on. -/
namespace Publiq
open Message Checked

def Ledger.permits (l : Ledger) (owner signer : String) (rtt : ℕ) : Bool :=
  (l.authorityManager.record owner signer).permits rtt

namespace Ledger
variable {l : Ledger}

theorem checkAuthority_eq (normal : l.authorityManager.Normal) (owner signer : String) (rtt : ℕ) :
    l.authorityManager.checkAuthority owner signer rtt = .ok (l.permits owner signer rtt) :=
  AuthorityManager.checkAuthority_eq normal owner signer rtt

theorem foretells_requireAuthority (normal : l.authorityManager.Normal) (owner signer : String)
    (rtt : ℕ) (e : Failure) :
    Foretells (l.authorityManager.checkAuthority owner signer rtt)
      (l.requireAuthority owner signer rtt e) := by
  rw [requireAuthority, checkAuthority_eq normal, ok_bind]
  exact foretells_pure.mpr (by cases l.permits owner signer rtt <;> simp [require, Except.isOk, Except.toBool])

theorem foretells_authority (normal : l.authorityManager.Normal) {owner signer : String} {rtt : ℕ}
    {e : Failure} {α : Type} {question : Checked Bool} {x : Checked α} :
    Foretells (l.authorityManager.checkAuthority owner signer rtt >>= fun permitted =>
        if permitted = false then pure false else question)
      (l.requireAuthority owner signer rtt e >>= fun _ => x) ↔
        (l.permits owner signer rtt = true → Foretells question x) := by
  rw [requireAuthority, checkAuthority_eq normal, ok_bind, ok_bind]
  exact foretells_gate (Bool.not_eq_true _).symm.to_iff

theorem onState_isOk_iff {f : State → Checked State} :
    (l.onState f).isOk = true ↔ (f l.state).isOk = true := by
  unfold onState
  cases f l.state with
  | error e => exact Iff.rfl
  | ok s => exact Iff.rfl

theorem balanceBelow_ok {owner : String} {amount : Message.Coin} {coin : Coin}
    (h : Coin.ofMessage amount = .ok coin) :
    l.balanceBelow owner amount = .ok ((l.state.getBalance owner .pool).lt coin) := by
  rw [balanceBelow, h]
  rfl

end Ledger

theorem State.decreaseBalance_isOk_iff {own key : String} {amount : Coin} {layer : StateLayer}
    {s : State} : (decreaseBalance own key amount layer s).isOk = true ↔
      (s.getBalance key .pool).lt amount = false := by
  rw [isOk_iff, Bool.eq_false_iff, Ne, Coin.lt_iff_value, not_lt]
  constructor
  · rintro ⟨t, h⟩
    exact decreaseBalance_le h
  · intro h
    exact decreaseBalance_total own key layer h

namespace Documents

def wholeDuration (item : SponsoredInformation) : UInt64 :=
  UInt64.ofInt (clockSeconds (item.endTimePoint - item.startTimePoint))

theorem paidPart_isOk_iff {item : SponsoredInformation} {partStart partEnd : ℤ} :
    (paidPart item partStart partEnd).isOk = true ↔ wholeDuration item ≠ 0 := by
  unfold wholeDuration
  rw [isOk_iff, paidPart]
  constructor
  · rintro ⟨part, h⟩ hzero
    dsimp only at h
    rw [hzero] at h
    cases h
  · intro hlasts
    obtain ⟨rate, hrate, _⟩ := Coin.div_ok (a := item.amount) hlasts
    obtain ⟨rest, hrest, _⟩ := Coin.mod_ok hrate
    dsimp only
    rw [hrate, ok_bind]
    split_ifs
    · rw [hrest]
      exact ⟨_, rfl⟩
    · exact ⟨_, rfl⟩

theorem unpaid_isOk_iff {cusi : ContentUnitSponsoredInformation} {endTp : ℤ} {hash : String} :
    (unpaid cusi endTp hash).isOk = true ↔
      ∀ index item, target cusi.sponsoredInformations cusi.indexSi endTp hash = some (index, item) →
        lastUsed cusi < endTp → wholeDuration item ≠ 0 := by
  unfold unpaid
  cases target cusi.sponsoredInformations cusi.indexSi endTp hash with
  | none =>
      refine iff_of_true rfl ?_
      intro index item h
      cases h
  | some found =>
      obtain ⟨index, item⟩ := found
      dsimp only
      by_cases hlate : lastUsed cusi < endTp
      · have hpart := @paidPart_isOk_iff item (paidUntil cusi item) item.endTimePoint
        rw [if_pos hlate]
        constructor
        · intro h other found hother _
          cases hother
          obtain ⟨_, h⟩ := isOk_iff.mp h
          obtain ⟨part, h, _⟩ := bind_ok_iff.mp h
          exact hpart.mp (isOk_iff.mpr ⟨part, h⟩)
        · intro h
          obtain ⟨part, hpart⟩ := isOk_iff.mp (hpart.mpr (h index item rfl hlate))
          rw [hpart]
          rfl
      · rw [if_neg hlate]
        exact iff_of_true rfl fun _ _ _ h => absurd h hlate

def Unpaid.ReturnableTo (u : Unpaid) (manual : String) : Prop :=
  (manual ≠ "" → u.item.sponsorAddress = manual) ∧ u.item.cancelled = false

section
variable {docs : Documents} {uri : String} {cusi : ContentUnitSponsoredInformation} {u : Unpaid}
  {number : ℕ} {manuallyCancelled : Coin} (stored : docs.sponsored[uri]? = some cusi)
  (listed : docs.hashToBlock[u.item.transactionHash]? = some number)
  (found : docs.expirationEntryByHash u.item.transactionHash =
    .ok ⟨uri, u.item.transactionHash, number, manuallyCancelled⟩)
include stored listed found

theorem payUnpaid_of_returnable {hash manual : String} {pretend : Bool} {endTp : ℤ}
    (returnable : u.ReturnableTo manual) (kept : manuallyCancelled ≠ 0 → u.item.cancelled = true) :
    docs.payUnpaid (hashCall cusi .apply hash manual pretend endTp) uri cusi u =
      .ok (if pretend then docs else docs.settled uri cusi u
        ⟨uri, u.item.transactionHash, number, manuallyCancelled⟩ manual true, [u.payment]) := by
  obtain ⟨hsponsor, hmark⟩ := returnable
  have hzero : manuallyCancelled = 0 := by
    by_contra hne
    rw [kept hne] at hmark
    cases hmark
  rw [payUnpaid_eq stored listed found]
  have hmanual : ¬ (manual ≠ "" ∧ u.item.sponsorAddress ≠ manual) := fun h => h.2 (hsponsor h.1)
  simp only [hashCall, if_neg hmanual, hmark, hzero, reduceCtorEq, and_false, false_and, if_false,
    ne_eq, not_true, decide_true, Bool.and_true]

theorem payUnpaid_of_not_returnable {hash manual : String} {endTp : ℤ}
    (refused : ¬ u.ReturnableTo manual) :
    docs.payUnpaid (hashCall cusi .apply hash manual true endTp) uri cusi u = .ok (docs, []) ∧
      ∃ e, docs.payUnpaid (hashCall cusi .apply hash manual false endTp) uri cusi u =
        .error e := by
  rw [payUnpaid_eq stored listed found, payUnpaid_eq stored listed found]
  unfold Unpaid.ReturnableTo at refused
  by_cases hmanual : manual ≠ "" ∧ u.item.sponsorAddress ≠ manual
  · simp only [hashCall, if_pos hmanual, decide_true, Bool.and_true, if_true]
    exact ⟨trivial, _, rfl⟩
  · have hmark : u.item.cancelled = true := by
      by_contra hmark
      refine refused ⟨fun hnamed => ?_, Bool.eq_false_iff.mpr hmark⟩
      by_contra hother
      exact hmanual ⟨hnamed, hother⟩
    simp only [hashCall, if_neg hmanual, hmark, and_self, decide_true, Bool.and_true, if_true,
      Bool.false_eq_true, if_false, true_and]
    split_ifs <;> exact ⟨_, rfl⟩

end

end Documents

namespace Message
variable {ctx : Context} {st : SignedTransaction} {layer : StateLayer} {l : Ledger}

/-- A transfer throws when its amount is none, and else does what was said. -/
theorem Transfer.foretells_iff (normal : l.authorityManager.Normal) {a : Transfer}
    (differ : a.source ≠ a.target) :
    Foretells (a.actionCanApply st l) (a.actionApply ctx st layer l) ↔
      (l.permits a.source st.signer rtt = true → a.amount.Proper) := by
  rw [actionCanApply, actionApply, Ledger.foretells_authority normal]
  apply imp_congr_right
  intro _
  unfold Message.Coin.Proper
  cases hcoin : Coin.ofMessage a.amount with
  | error e =>
      have hthrows : l.balanceBelow a.source a.amount = .error e := by
        rw [Ledger.balanceBelow, hcoin]
        rfl
      rw [hthrows, error_bind]
      exact iff_of_false not_foretells_error Bool.false_ne_true
  | ok coin =>
      refine iff_of_true ?_ rfl
      have hsource : (State.increaseBalance ctx.own a.target coin layer l.state).getBalance
          a.source .pool = l.state.getBalance a.source .pool := by
        unfold State.getBalance
        dsimp only
        rw [State.increaseBalance_accounts, SparseMap.get_set_of_ne _ differ.symm]
      rw [Ledger.balanceBelow_ok hcoin, ok_bind, foretells_pure, Ledger.increase, hcoin, ok_bind]
      change _ ↔ (Ledger.decrease ctx a.source a.amount layer { l with
        state := State.increaseBalance ctx.own a.target coin layer l.state }).isOk = true
      rw [Ledger.decrease, hcoin, ok_bind, Ledger.onState_isOk_iff,
        State.decreaseBalance_isOk_iff, hsource, Bool.not_eq_true']

theorem foretells_requireSigners (normal : l.authorityManager.Normal) {rtt : ℕ}
    {e : String × String → Failure} (signers : List (String × String)) :
    Foretells (signersPermitted l rtt signers) (requireSigners l rtt e signers) := by
  induction signers with
  | nil => exact foretells_true_ok
  | cons pair rest ih =>
      obtain ⟨signer, author⟩ := pair
      rw [signersPermitted, requireSigners]
      exact (Ledger.foretells_authority normal).mpr fun _ => ih

theorem foretells_requireComplete (normal : l.authorityManager.Normal) (complete : Bool) (rtt : ℕ)
    (signers : List (String × String)) :
    Foretells (completePermitted complete l rtt signers)
      (requireComplete complete l rtt signers) := by
  cases complete with
  | false => exact foretells_true_ok
  | true => exact foretells_requireSigners normal signers

theorem File.foretells (normal : l.authorityManager.Normal) (a : File) :
    Foretells (a.actionCanApply st l) (a.actionApply st l) := by
  apply (foretells_requireComplete normal _ rtt _).and
  apply foretells_require
  · exact iff_of_eq (Bool.not_eq_true' _)
  · intro _
    rfl

theorem ContentUnit.foretells (normal : l.authorityManager.Normal) (a : ContentUnit) :
    Foretells (a.actionCanApply ctx st l) (a.actionApply ctx st l) := by
  unfold actionCanApply actionApply
  simp only [Bool.and_assoc]
  apply (foretells_requireComplete normal _ rtt _).and
  cases contentUnitValidateCheck a.fileUris ctx.blockchain.length ctx.config.testnet with
  | some duplicate => exact foretells_false_error
  | none =>
      rw [Option.isNone_none, Bool.true_and]
      apply foretells_require_and
      · exact iff_of_eq (Bool.not_eq_true' _)
      · cases l.documents.filesMissing a.fileUris with
        | some missing => exact foretells_false_error
        | none => exact foretells_true_ok

theorem Role.foretells (normal : l.authorityManager.Normal) (a : Role) :
    Foretells (a.actionCanApply ctx st l) (a.actionApply ctx st l) := by
  apply (Ledger.foretells_authority normal).mpr
  intro _
  apply (foretells_gate ?_).mpr
  · intro hnone
    apply (foretells_gate ?_).mpr
    · intro _
      apply foretells_require
      · exact iff_of_eq (Bool.not_eq_true' _)
      · intro _
        have habsent : l.state.roles.contains a.nodeAddress = false := by
          rw [State.getRole, Option.isNone_map, Option.isNone_iff_eq_none] at hnone
          rw [← Std.ExtTreeMap.isSome_getElem?_eq_contains, hnone]
          rfl
        rw [Ledger.onState_isOk_iff, State.insertRole, require_true habsent]
        rfl
    · exact not_not.symm
  · rw [Option.isNone_iff_eq_none, Option.isSome_iff_ne_none]

theorem StorageUpdate.foretells (normal : l.authorityManager.Normal) (a : StorageUpdate) :
    Foretells (a.actionCanApply st l) (a.actionApply st l) := by
  unfold actionCanApply actionApply
  simp only [Bool.and_assoc]
  apply (Ledger.foretells_requireAuthority normal _ _ _ _).and
  apply foretells_require_and decide_eq_true_iff
  apply foretells_require_and Iff.rfl
  apply foretells_require
  · exact iff_of_eq (Bool.not_eq_true' _)
  · intro _
    rfl

theorem getUnit_of_unitsMissing {docs : Documents} {uris : List String}
    (none : docs.unitsMissing uris = none) {uri : String} (h : uri ∈ uris) :
    ∃ unit, docs.getUnit uri = .ok unit := by
  have hexists : docs.unitExists uri = true := by
    have hfound := List.find?_eq_none.mp none uri h
    simpa using hfound
  have hcontains := (Bool.and_eq_true_iff.mp hexists).2
  rw [← Std.ExtTreeMap.isSome_getElem?_eq_contains, Option.isSome_iff_exists] at hcontains
  obtain ⟨unit, hunit⟩ := hcontains
  exact ⟨unit, by rw [Documents.getUnit, hunit]⟩

theorem Content.unitsCorrespond_total {a : Content} {uris : List String}
    (read : ∀ uri ∈ uris, ∃ unit, l.documents.getUnit uri = .ok unit) :
    ∃ correspond, a.unitsCorrespond l uris = .ok correspond := by
  induction uris with
  | nil => exact ⟨true, rfl⟩
  | cons uri rest ih =>
      rw [List.forall_mem_cons] at read
      obtain ⟨unit, hunit⟩ := read.1
      rw [unitsCorrespond, hunit, ok_bind]
      split_ifs
      · exact ⟨false, rfl⟩
      · exact ih read.2

/-- What is published by no channel makes the question throw. -/
theorem Content.foretells_iff (normal : l.authorityManager.Normal) (a : Content) :
    Foretells (a.actionCanApply st l) (a.actionApply st l) ↔
      (l.permits a.channelAddress st.signer rtt = true →
        l.state.getRole a.channelAddress = some .channel) := by
  rw [actionCanApply, actionApply, Ledger.foretells_authority normal]
  apply imp_congr_right
  intro _
  rw [foretells_bind]
  constructor
  · rintro ⟨_, hchannel, _⟩
    exact require_ok_iff.mp hchannel
  · intro hchannel
    refine ⟨⟨⟩, require_true hchannel, ?_⟩
    cases hmissing : l.documents.unitsMissing a.contentUnitUris with
    | some missing => exact foretells_false_error
    | none =>
        obtain ⟨correspond, hcorrespond⟩ := Content.unitsCorrespond_total
          (fun uri h => getUnit_of_unitsMissing hmissing h)
        dsimp only
        rw [hcorrespond, ok_bind]
        exact foretells_require Iff.rfl fun _ => rfl

theorem ServiceStatistics.itemsProblem_total {nodeType : NodeType}
    {items : List ServiceStatisticsFile}
    (read : nodeType = .channel → ∀ item ∈ items, ∃ unit, l.documents.getUnit item.unitUri = .ok unit) :
    ∃ problem, itemsProblem l nodeType items = .ok problem := by
  induction items with
  | nil => exact ⟨none, rfl⟩
  | cons item rest ih =>
      obtain ⟨foreign, hforeign⟩ : ∃ foreign, namesForeignFile l nodeType item = .ok foreign := by
        unfold namesForeignFile
        split_ifs with hchannel
        · obtain ⟨unit, hunit⟩ := read hchannel item List.mem_cons_self
          rw [hunit]
          exact ⟨_, rfl⟩
        · exact ⟨false, rfl⟩
      rw [itemsProblem, hforeign, ok_bind]
      split_ifs
      · exact ⟨_, rfl⟩
      · split
        · exact ⟨_, rfl⟩
        · exact ih fun hchannel other hmem => read hchannel other (List.mem_cons_of_mem item hmem)

theorem ServiceStatistics.problem_total (ctx : Context) (a : ServiceStatistics)
    (layer : StateLayer) (l : Ledger) : ∃ problem, a.problem ctx layer l = .ok problem := by
  unfold problem
  dsimp only
  split
  · exact ⟨_, rfl⟩
  · rename_i nodeType _
    split_ifs
    · exact ⟨_, rfl⟩
    · exact ⟨_, rfl⟩
    · split
      · exact ⟨_, rfl⟩
      · exact ⟨_, rfl⟩
      · exact ⟨_, rfl⟩
      · exact ⟨_, rfl⟩
      · rename_i hmissing
        apply itemsProblem_total
        intro hchannel item hmem
        apply getUnit_of_unitsMissing hmissing
        rw [unitUris, if_pos hchannel]
        exact List.mem_map_of_mem hmem

theorem ServiceStatistics.foretells (normal : l.authorityManager.Normal) (a : ServiceStatistics) :
    Foretells (a.actionCanApply ctx st layer l) (a.actionApply ctx st layer l) := by
  apply (Ledger.foretells_authority normal).mpr
  intro _
  rw [foretells_bind]
  obtain ⟨problem, hproblem⟩ := a.problem_total ctx layer l
  refine ⟨problem, hproblem, ?_⟩
  cases problem with
  | some e => exact foretells_false_error
  | none => exact foretells_true_ok

theorem AuthorizationUpdate.foretells (normal : l.authorityManager.Normal)
    (exceptionless : l.authorityManager.Exceptionless) (a : AuthorizationUpdate) :
    Foretells (a.actionCanApply st l) (a.actionApply st l) := by
  refine ⟨_, actionCanApply_eq normal exceptionless st a, ?_⟩
  rw [← @Except.ok.injEq Failure, ← actionCanApply_eq normal exceptionless st a]
  constructor
  · intro can
    obtain ⟨m, _, happly⟩ := AuthorityManager.actionApply_of_can normal exceptionless can
    rw [happly]
    rfl
  · intro happly
    obtain ⟨after, happly⟩ := isOk_iff.mp happly
    obtain ⟨_, hpermitted, happly⟩ := bind_ok_iff.mp happly
    obtain ⟨m, hm, _⟩ := onAuthorities_ok_iff.mp happly
    obtain ⟨r, hr, _⟩ := rewrite_cases normal hm
    rw [Ledger.requireAuthority, Ledger.checkAuthority_eq normal, ok_bind, require_ok_iff]
      at hpermitted
    have hpermits : (l.authorityManager.record a.owner st.signer).permits rtt = true := hpermitted
    rw [actionCanApply_eq normal exceptionless, hpermits, hr]
    rfl

theorem sponsorContentUnitApply_isOk_iff {docs : Documents} (sound : docs.SponsorshipsSound)
    (chain : Blockchain) (a : SponsorContentUnit) (amount : Publiq.Coin) (hash : String) :
    (docs.sponsorContentUnitApply chain a amount hash).isOk = true ↔
      (Documents.sponsoredInterval a).1 < (Documents.sponsoredInterval a).2 := by
  rw [isOk_iff]
  constructor
  · rintro ⟨after, h⟩
    rw [Documents.sponsorContentUnitApply_eq] at h
    exact (require_bind_ok_iff.mp h).1
  · intro interval
    exact sound.sponsorContentUnitApply_total chain amount interval

/-- A sponsorship that can be paid is not refused for its interval only. -/
theorem SponsorContentUnit.foretells_iff [Externals] (sound : LedgerSound ctx.own layer l)
    (a : SponsorContentUnit) : Foretells (a.actionCanApply st l) (a.actionApply ctx st layer l) ↔
      (l.permits a.sponsorAddress st.signer rtt = true → l.documents.unitExists a.uri = true →
        a.amount.Proper ∧ (a.amount.value ≤ l.state.worth a.sponsorAddress →
          (Documents.sponsoredInterval a).1 < (Documents.sponsoredInterval a).2)) := by
  rw [actionCanApply, actionApply, Ledger.foretells_authority sound.normal]
  apply imp_congr_right
  intro _
  rw [foretells_gate (iff_of_eq (Bool.not_eq_true _).symm)]
  apply imp_congr_right
  intro _
  cases hcoin : Coin.ofMessage a.amount with
  | error e =>
      have himproper : ¬ a.amount.Proper := by
        unfold Message.Coin.Proper
        rw [hcoin]
        exact Bool.false_ne_true
      rw [Ledger.balanceBelow, hcoin, error_bind, error_bind]
      exact iff_of_false not_foretells_error fun h => himproper h.1
  | ok coin =>
      obtain ⟨hproper, hvalue⟩ := Coin.proper_of_ofMessage hcoin
      rw [Ledger.balanceBelow_ok hcoin, ok_bind, ok_bind, ← hvalue, foretells_pure,
        Bool.not_eq_true', Bool.eq_false_iff, Ne, Coin.lt_iff_value, not_lt, and_iff_right hproper]
      change (coin.value ≤ l.state.worth a.sponsorAddress ↔ _) ↔ _
      rw [Ledger.onState]
      cases hpaid : State.decreaseBalance ctx.own a.sponsorAddress coin layer l.state with
      | error e =>
          have hpoor : ¬ coin.value ≤ l.state.worth a.sponsorAddress := by
            intro hrich
            obtain ⟨t, ht⟩ := State.decreaseBalance_total ctx.own a.sponsorAddress layer hrich
            cases hpaid.symm.trans ht
          exact iff_of_true (iff_of_false hpoor Bool.false_ne_true) fun hrich => absurd hrich hpoor
      | ok state =>
          have hrich := State.decreaseBalance_le hpaid
          rw [iff_true_left hrich, imp_iff_right hrich, ok_bind,
            ← sponsorContentUnitApply_isOk_iff sound.sponsorships ctx.blockchain a coin
              (transactionHash st)]
          change (Ledger.onDocuments _ _).isOk = true ↔ _
          rw [Ledger.onDocuments]
          cases Documents.sponsorContentUnitApply ctx.blockchain a coin (transactionHash st)
            l.documents with
          | error e => exact Iff.rfl
          | ok docs => exact Iff.rfl

/-- The sponsorship that a cancellation names, when the walk comes to it, lasts; and when
something is left of it, the one who cancels has paid for it and has not cancelled it yet. -/
def CancelSponsorContentUnit.Clear (ctx : Context) (cancel : CancelSponsorContentUnit)
    (docs : Documents) : Prop :=
  ∀ cusi, docs.sponsored[cancel.uri]? = some cusi →
    let endTp := Documents.payTime ctx.blockchain ctx.blockchain.length
    (∀ index item, Documents.target cusi.sponsoredInformations cusi.indexSi endTp
        cancel.transactionHash = some (index, item) →
      Documents.lastUsed cusi < endTp → Documents.wholeDuration item ≠ 0) ∧
    ∀ u, Documents.unpaid cusi endTp cancel.transactionHash = .ok (some u) →
      u.ReturnableTo cancel.sponsorAddress

theorem foretells_payments (payments : List SponsorPayment) (e : Failure) (after : Ledger) :
    Foretells (pure (payments.all fun payment => payment.amount ≠ 0))
      (require (∀ payment ∈ payments, payment.amount ≠ 0) e >>= fun _ => pure after) := by
  apply foretells_require
  · simp
  · intro _
    rfl

/-- The call that only pretends throws less than the call itself. -/
theorem CancelSponsorContentUnit.foretells_iff (sound : LedgerSound ctx.own layer l)
    {a : CancelSponsorContentUnit} (named : a.transactionHash ≠ "") :
    Foretells (a.actionCanApply ctx st l) (a.actionApply ctx st l) ↔
      (l.permits a.sponsorAddress st.signer rtt = true → l.documents.unitExists a.uri = true →
        a.Clear ctx l.documents) := by
  rw [actionCanApply, actionApply, Ledger.foretells_authority sound.normal]
  apply imp_congr_right
  intro _
  rw [foretells_gate (iff_of_eq (Bool.not_eq_true _).symm)]
  apply imp_congr_right
  intro _
  have hcall := Documents.setUsed_hash (sound.sponsorships.orderly a.uri)
    (Documents.nextTo_length ctx.blockchain) .apply named a.sponsorAddress
  have hidle := foretells_payments []
    (.wrongData ("invalid transaction hash: " ++ a.transactionHash)) l
  unfold Clear setUsed
  rw [hcall, hcall]
  cases hunit : l.documents.sponsored[a.uri]? with
  | none =>
      refine iff_of_true hidle ?_
      intro cusi h
      cases h
  | some cusi =>
      simp only [Option.some.injEq, forall_eq']
      rw [← Documents.unpaid_isOk_iff]
      cases hu : Documents.unpaid cusi (Documents.payTime ctx.blockchain ctx.blockchain.length)
          a.transactionHash with
      | error e =>
          exact iff_of_false not_foretells_error fun h => Bool.false_ne_true h.1
      | ok found =>
          cases found with
          | none =>
              refine iff_of_true hidle ⟨rfl, ?_⟩
              intro u h
              cases h
          | some u =>
              have hitem := List.mem_of_getElem? (Documents.Unpaid.item_of_unpaid hu).1
              obtain ⟨number, manuallyCancelled, hnumber, hentry, hcancelled⟩ :=
                (sound.sponsorships.recorded a.uri cusi hunit u.item hitem).entry
              rw [ok_bind, ok_bind]
              dsimp only
              by_cases hreturn : u.ReturnableTo a.sponsorAddress
              · refine iff_of_true ?_ ⟨rfl, fun other hother => ?_⟩
                · rw [Documents.payUnpaid_of_returnable hunit hnumber hentry hreturn hcancelled,
                    Documents.payUnpaid_of_returnable hunit hnumber hentry hreturn hcancelled]
                  exact foretells_payments [u.payment] _ _
                · cases hother
                  exact hreturn
              · refine iff_of_false (fun h => ?_) fun h => hreturn (h.2 u rfl)
                obtain ⟨hpretended, e, hthrows⟩ := Documents.payUnpaid_of_not_returnable
                  hunit hnumber hentry hreturn
                rw [hpretended, hthrows] at h
                exact absurd h not_foretells_true_error

theorem CancelSponsorContentUnit.setUsed_pretend (sound : LedgerSound ctx.own layer l)
    {a : CancelSponsorContentUnit} (named : a.transactionHash ≠ "") {docs : Documents}
    {payments : List SponsorPayment}
    (h : a.setUsed ctx .apply true l.documents = .ok (docs, payments)) : docs = l.documents := by
  rcases Documents.setUsed_hash_cases sound.sponsorships (Documents.nextTo_length ctx.blockchain)
    named h with ⟨rfl, _⟩ | ⟨_, _, _, _, _, _, _, _, _, _, _, _, rfl⟩
  · rfl
  · rfl

end Message
/-- `action_can_apply` returns, changes nothing, and says whether `action_apply` completes. -/
def Predicts [Externals] (ctx : Context) (st : SignedTransaction) (layer : StateLayer)
    (l : Ledger) : Prop :=
  Foretells (actionCanApply ctx st layer l) (actionApply ctx st layer l) ∧
    ∀ cancel, st.transactionDetails.action = .cancelSponsorContentUnit cancel →
      ∀ docs payments, cancel.setUsed ctx .apply true l.documents = .ok (docs, payments) →
        docs = l.documents

/-- Whoever signs has the authority and names something that is there. Then the amounts are
coins, who publishes is a channel, a sponsorship that can be paid has an interval, and a
cancellation is clear. -/
def Predictable (ctx : Context) (st : SignedTransaction) (l : Ledger) : Prop :=
  match st.transactionDetails.action with
  | .transfer a => l.permits a.source st.signer Transfer.rtt = true → a.amount.Proper
  | .content a => l.permits a.channelAddress st.signer Content.rtt = true →
      l.state.getRole a.channelAddress = some .channel
  | .sponsorContentUnit a => l.permits a.sponsorAddress st.signer SponsorContentUnit.rtt = true →
      l.documents.unitExists a.uri = true →
        a.amount.Proper ∧ (a.amount.value ≤ l.state.worth a.sponsorAddress →
          (Documents.sponsoredInterval a).1 < (Documents.sponsoredInterval a).2)
  | .cancelSponsorContentUnit a =>
      l.permits a.sponsorAddress st.signer CancelSponsorContentUnit.rtt = true →
        l.documents.unitExists a.uri = true → a.Clear ctx l.documents
  | _ => True

section
variable [Externals] {ctx : Context} {st : SignedTransaction} {layer : StateLayer} {l : Ledger}

end

section Examples

local instance predictedExternals : Externals := readingExternals

def strayContent : SignedTransaction := byChannel 0 (.content ⟨0, "channel", ["unit"]⟩)

theorem strayContent_valid :
    actionValidate (exampleNode "own" .blockchain).config strayContent true = .ok () := rfl

end Examples

section Examples

/-- A node that takes every key and signature but the empty key, reads a hash from every text but
the empty one, and hashes everything to the same text. -/
@[reducible] def sponsoringExternals : Externals :=
  { readingExternals with
    hash := fun _ => "hash"
    publicKey := fun s => if s = "" then .error (.runtimeError "invalid public key") else .ok () }

local instance returningExternals : Externals := sponsoringExternals

theorem sponsoring_emptyNoUri : Externals.EmptyNoUri := readingExternals_emptyNoUri

theorem sponsoring_keyed : Externals.publicKey "" ≠ .ok () := by decide

theorem sponsoring_hashed (s : String) : Externals.hash s ≠ "" := show "hash" ≠ "" by decide

def unitOfOne : List SignedTransaction :=
  [byChannel 0 (.role ⟨"channel", .channel⟩), byChannel 0 (.file ⟨"file", ["channel"]⟩),
    byChannel 0 (.contentUnit ⟨"unit", 0, ["channel"], "channel", ["file"]⟩)]

def sponsorUnit : SignedTransaction :=
  byChannel 0 (.sponsorContentUnit ⟨"channel", "unit", 0, 24, ⟨1000, 0⟩⟩)

def cancelUnit : SignedTransaction :=
  byChannel 0 (.cancelSponsorContentUnit ⟨"channel", "unit", "hash"⟩)

theorem cancelUnit_valid :
    actionValidate (exampleNode "own" .blockchain).config cancelUnit true = .ok () := rfl

def ledgerOf (transactions : List SignedTransaction) : Checked Ledger := do
  let l ← increaseRewards (exampleNode "own" .blockchain) [⟨"channel", ⟨100000, 0⟩, .initial⟩]
    default
  runAll (applyMined (exampleNode "own" .blockchain) "own") transactions l

theorem ledgerOf_reached {transactions : List SignedTransaction} {l : Ledger}
    (h : ledgerOf transactions = .ok l) (fresh : ∀ st ∈ transactions, ∀ l, FreshSponsorship st l) :
    Reached "own" .chain l := by
  obtain ⟨funded, hfunded, hrun⟩ := bind_ok_iff.mp h
  have reached : Reached "own" (layerOf "own") funded := Reached.increase Reached.start rfl hfunded
  change Reached "own" (layerOf "own") l
  refine runAll_invariant (fun st hmem s t hs step => ?_) reached hrun
  exact Reached.apply hs rfl (fresh st hmem s) (applyTransaction_of_applyMined step)

theorem unsponsored_isOk : (ledgerOf unitOfOne).isOk = true := rfl

theorem unsponsored_reached : Reached "own" .chain (okValue _ unsponsored_isOk) := by
  apply ledgerOf_reached (eq_okValue unsponsored_isOk)
  intro st hmem l sponsor haction
  simp only [unitOfOne, List.mem_cons, List.not_mem_nil, or_false] at hmem
  rcases hmem with rfl | rfl | rfl <;> cases haction

theorem sponsorUnit_isOk : (applyMined (exampleNode "own" .blockchain) "own" sponsorUnit
    (okValue _ unsponsored_isOk)).isOk = true := rfl

def sponsoredLedger : Ledger := okValue _ sponsorUnit_isOk

-- A day has 144 blocks.
example : sponsoredLedger.documents.hashToBlock["hash"]? = some 144 := rfl

theorem sponsoredLedger_reached : Reached "own" .chain sponsoredLedger := by
  have reached : Reached "own" (layerOf "own") (okValue _ unsponsored_isOk) := unsponsored_reached
  refine reached.apply rfl ?_ (applyTransaction_of_applyMined (eq_okValue sponsorUnit_isOk))
  intro sponsor _
  decide +kernel

end Examples
end Publiq
