import Publiq.MineSelection
import Publiq.RejectedTransactions

/-! Merging the copies of a transaction that its owners signed apart. Every owner gets the first
signer that has authority for it, in the order of the hash table, and no signer may stand for two
of them. -/
namespace Publiq
open Message Checked

namespace AuthorityManager
variable {m : AuthorityManager} {rtt : ℕ} {owner signer other : String} {signers : List String}

def Serves (m : AuthorityManager) (rtt : ℕ) (signers : List String) (owner signer : String) :
    Prop :=
  ∃ before after, signers = before ++ signer :: after ∧
    (∀ passed ∈ before, m.checkAuthority owner passed rtt = .ok false) ∧
    m.checkAuthority owner signer rtt = .ok true

theorem Serves.mem (h : m.Serves rtt signers owner signer) : signer ∈ signers := by
  obtain ⟨before, after, rfl, _⟩ := h
  exact List.mem_append_right _ List.mem_cons_self

theorem Serves.authority (h : m.Serves rtt signers owner signer) :
    m.checkAuthority owner signer rtt = .ok true := by
  obtain ⟨_, _, _, _, h⟩ := h
  exact h

theorem not_serves_nil : ¬ m.Serves rtt [] owner signer := fun h => nomatch h.mem

theorem serves_cons_iff : m.Serves rtt (other :: signers) owner signer ↔
    m.checkAuthority owner other rtt = .ok true ∧ signer = other ∨
      m.checkAuthority owner other rtt = .ok false ∧ m.Serves rtt signers owner signer := by
  constructor
  · rintro ⟨before, after, hsplit, hbefore, h⟩
    cases before with
    | nil =>
        cases hsplit
        exact .inl ⟨h, rfl⟩
    | cons first rest =>
        cases hsplit
        exact .inr ⟨hbefore _ List.mem_cons_self, rest, after, rfl,
          fun passed hpassed => hbefore passed (List.mem_cons_of_mem _ hpassed), h⟩
  · rintro (⟨h, rfl⟩ | ⟨hother, before, after, rfl, hbefore, h⟩)
    · exact ⟨[], signers, rfl, fun _ hpassed => (nomatch hpassed), h⟩
    · exact ⟨other :: before, after, rfl, List.forall_mem_cons.mpr ⟨hother, hbefore⟩, h⟩

theorem Serves.unique (h : m.Serves rtt signers owner signer)
    (h' : m.Serves rtt signers owner other) : signer = other := by
  induction signers with
  | nil => exact absurd h not_serves_nil
  | cons first rest ih =>
      rw [serves_cons_iff] at h h'
      rcases h with ⟨hfirst, rfl⟩ | ⟨hfirst, h⟩
      · rcases h' with ⟨_, rfl⟩ | ⟨hnot, _⟩
        · rfl
        · cases hfirst.symm.trans hnot
      · rcases h' with ⟨hpermitted, _⟩ | ⟨_, h'⟩
        · cases hfirst.symm.trans hpermitted
        · exact ih h h'

theorem firstAuthority_iff (named : signer ≠ "") :
    m.firstAuthority owner rtt signers = .ok signer ↔ m.Serves rtt signers owner signer := by
  induction signers with
  | nil =>
      refine iff_of_false (fun h => ?_) not_serves_nil
      cases h
      exact named rfl
  | cons first rest ih =>
      rw [serves_cons_iff]
      unfold firstAuthority
      cases hfirst : m.checkAuthority owner first rtt with
      | error e => simp
      | ok permitted =>
          cases permitted with
          | true =>
              simp only [ok_bind, if_true, true_and, reduceCtorEq, Except.ok.injEq, false_and,
                or_false]
              exact pure_ok_iff.trans eq_comm
          | false => simpa using ih

theorem checkAuthority_unstored (unstored : m.store.contains owner = false) :
    m.checkAuthority owner signer rtt = .ok (decide (signer = owner)) := by
  have hnone : m.store[owner]? = none := by
    rwa [Std.ExtTreeMap.contains_eq_isSome_getElem?, Option.isSome_eq_false_iff,
      Option.isNone_iff_eq_none] at unstored
  unfold checkAuthority getRecord
  rw [hnone]
  by_cases hsame : signer = owner
  · simp [hsame, AccountAuthorization.full, AccountAuthorization.permits]
  · simp [hsame, AccountAuthorization.dummy, AccountAuthorization.permits]

/-- `find_authority` looks for the first signer with authority. -/
theorem findAuthority_iff (named : signer ≠ "") :
    m.findAuthority signers owner rtt = .ok signer ↔ m.Serves rtt signers owner signer := by
  unfold findAuthority
  by_cases unstored : m.store.contains owner = false
  · rw [if_pos unstored]
    constructor
    · intro h
      by_cases hmem : owner ∈ signers
      · rw [if_pos hmem] at h
        cases h
        obtain ⟨before, after, hsplit, hbefore⟩ := List.eq_append_cons_of_mem hmem
        refine ⟨before, after, hsplit, fun passed hpassed => ?_, ?_⟩
        · rw [checkAuthority_unstored unstored, decide_eq_false]
          rintro rfl
          exact hbefore hpassed
        · rw [checkAuthority_unstored unstored, decide_eq_true rfl]
      · rw [if_neg hmem] at h
        cases h
        exact absurd rfl named
    · intro h
      have hsame := h.authority
      rw [checkAuthority_unstored unstored] at hsame
      obtain rfl : signer = owner := of_decide_eq_true (Except.ok.inj hsame)
      rw [if_pos h.mem]
  · rw [if_neg unstored]
    exact firstAuthority_iff named

end AuthorityManager

section
variable {m : AuthorityManager} {rtt : ℕ} {authorizations found chosen : List Authority}
  {owners : List String}

def signersOf (authorizations : List Authority) : List String :=
  (authorizations.map Authority.address).dedup

theorem mem_signersOf {address : String} :
    address ∈ signersOf authorizations ↔ ∃ a ∈ authorizations, a.address = address := by
  rw [signersOf, List.mem_dedup, List.mem_map]

theorem mem_of_signatureOf {address signature : String}
    (h : signatureOf authorizations address = some signature) :
    ⟨address, signature⟩ ∈ authorizations := by
  obtain ⟨a, ha, rfl⟩ := Option.map_eq_some_iff.mp h
  obtain rfl : a.address = address := by simpa using List.find?_some ha
  exact List.mem_reverse.mp (List.mem_of_find?_eq_some ha)

theorem exists_signatureOf {address : String} (h : address ∈ signersOf authorizations) :
    ∃ signature, signatureOf authorizations address = some signature := by
  obtain ⟨a, ha, haddress⟩ := mem_signersOf.mp h
  rw [signatureOf, ← Option.isSome_iff_exists, Option.isSome_map, List.find?_isSome]
  exact ⟨a, List.mem_reverse.mpr ha, by simpa using haddress⟩

def SignsFor (m : AuthorityManager) (rtt : ℕ) (authorizations : List Authority) (owner : String)
    (a : Authority) : Prop :=
  m.Serves rtt (signersOf authorizations) owner a.address ∧ a.address ≠ "" ∧
    signatureOf authorizations a.address = some a.signature

theorem authorizeOwners_cons {owner : String} {result : List Authority} :
    authorizeOwners m rtt authorizations (owner :: owners) found = .ok (some result) ↔
      ∃ a, SignsFor m rtt authorizations owner a ∧ a.signature ∉ found.map Authority.signature ∧
        authorizeOwners m rtt authorizations owners (found ++ [a]) = .ok (some result) := by
  rw [authorizeOwners, bind_ok_iff]
  constructor
  · rintro ⟨address, hfind, h⟩
    by_cases hnone : address = ""
    · rw [if_pos hnone] at h
      cases h
    rw [if_neg hnone] at h
    have hserves := (AuthorityManager.findAuthority_iff hnone).mp hfind
    obtain ⟨signature, hsignature⟩ := exists_signatureOf hserves.mem
    simp only [hsignature] at h
    by_cases hused : signature ∈ found.map Authority.signature
    · rw [if_pos hused] at h
      cases h
    rw [if_neg hused] at h
    exact ⟨⟨address, signature⟩, ⟨hserves, hnone, hsignature⟩, hused, h⟩
  · rintro ⟨a, ⟨hserves, hnamed, hsignature⟩, hused, h⟩
    refine ⟨a.address, (AuthorityManager.findAuthority_iff hnamed).mpr hserves, ?_⟩
    rw [if_neg hnamed]
    simp only [hsignature]
    rw [if_neg hused]
    exact h

theorem authorizeOwners_iff {result : List Authority} :
    authorizeOwners m rtt authorizations owners found = .ok (some result) ↔
      ∃ chosen, result = found ++ chosen ∧
        List.Forall₂ (SignsFor m rtt authorizations) owners chosen ∧
        (chosen.map Authority.signature).Nodup ∧
        ∀ a ∈ chosen, a.signature ∉ found.map Authority.signature := by
  induction owners generalizing found with
  | nil =>
      constructor
      · intro h
        cases pure_ok_iff.mp h
        exact ⟨[], (List.append_nil _).symm, .nil, List.nodup_nil, fun _ ha => nomatch ha⟩
      · rintro ⟨chosen, rfl, hchosen, _⟩
        cases hchosen
        rw [List.append_nil]
        rfl
  | cons owner rest ih =>
      rw [authorizeOwners_cons]
      constructor
      · rintro ⟨a, hsigns, hused, h⟩
        obtain ⟨more, rfl, hmore, hnodup, hapart⟩ := ih.mp h
        simp only [List.map_append, List.mem_append, List.map_cons, List.map_nil,
          List.mem_singleton, not_or] at hapart
        refine ⟨a :: more, List.append_assoc _ _ _, .cons hsigns hmore, ?_, ?_⟩
        · rw [List.map_cons, List.nodup_cons]
          refine ⟨fun hmem => ?_, hnodup⟩
          obtain ⟨b, hb, hsame⟩ := List.mem_map.mp hmem
          exact (hapart b hb).2 hsame
        · exact List.forall_mem_cons.mpr ⟨hused, fun b hb => (hapart b hb).1⟩
      · rintro ⟨chosen, rfl, hchosen, hnodup, hapart⟩
        obtain ⟨a, more, hsigns, hmore, rfl⟩ := List.forall₂_cons_left_iff.mp hchosen
        rw [List.forall_mem_cons] at hapart
        rw [List.map_cons, List.nodup_cons] at hnodup
        refine ⟨a, hsigns, hapart.1, ih.mpr ⟨more, ?_, hmore, hnodup.2, fun b hb => ?_⟩⟩
        · exact (List.append_cons _ _ _)
        · rw [List.map_append, List.mem_append, List.map_singleton, List.mem_singleton, not_or]
          refine ⟨hapart.2 b hb, fun hsame => hnodup.1 ?_⟩
          exact hsame ▸ List.mem_map_of_mem hb

theorem exists_of_forall₂ {α β : Type} {R : α → β → Prop} {as : List α} {bs : List β}
    (h : List.Forall₂ R as bs) {a : α} (ha : a ∈ as) : ∃ b ∈ bs, R a b := by
  induction h with
  | nil => cases ha
  | cons hfirst _ ih =>
      rcases List.mem_cons.mp ha with rfl | ha
      · exact ⟨_, List.mem_cons_self, hfirst⟩
      · obtain ⟨b, hb, hrest⟩ := ih ha
        exact ⟨b, List.mem_cons_of_mem _ hb, hrest⟩

/-- Every owner has a first signer, and those of different owners differ in their signatures. -/
structure ServedApart (m : AuthorityManager) (rtt : ℕ) (authorizations : List Authority)
    (owners : List String) : Prop where
  served : ∀ owner ∈ owners, ∃ signer,
    m.Serves rtt (signersOf authorizations) owner signer ∧ signer ≠ ""
  apart : owners.Pairwise fun owner other => ∀ signer next,
    m.Serves rtt (signersOf authorizations) owner signer →
    m.Serves rtt (signersOf authorizations) other next →
    signatureOf authorizations signer ≠ signatureOf authorizations next

/-- Different signers, one for each owner, each with authority for its owner. -/
structure Assignment (m : AuthorityManager) (rtt : ℕ) (signers owners assigned : List String) :
    Prop where
  authority : List.Forall₂ (fun owner signer => m.checkAuthority owner signer rtt = .ok true) owners
    assigned
  differ : assigned.Nodup
  signed : ∀ signer ∈ assigned, signer ∈ signers

theorem exists_signing_iff : (∃ chosen, List.Forall₂ (SignsFor m rtt authorizations) owners chosen ∧
      (chosen.map Authority.signature).Nodup) ↔ ServedApart m rtt authorizations owners := by
  constructor
  · rintro ⟨chosen, hchosen, hnodup⟩
    induction hchosen with
    | nil => exact ⟨fun _ h => (nomatch h), .nil⟩
    | @cons owner a rest more hsigns hmore ih =>
        rw [List.map_cons, List.nodup_cons] at hnodup
        obtain ⟨hserved, hapart⟩ := ih hnodup.2
        refine ⟨List.forall_mem_cons.mpr ⟨⟨a.address, hsigns.1, hsigns.2.1⟩, hserved⟩,
          .cons (fun other hother signer next hsigner hnext hsame => hnodup.1 ?_) hapart⟩
        obtain ⟨b, hb, hserves, _, hsignature⟩ := exists_of_forall₂ hmore hother
        rw [hsigner.unique hsigns.1, hsigns.2.2, hnext.unique hserves, hsignature,
          Option.some.injEq] at hsame
        exact List.mem_map.mpr ⟨b, hb, hsame.symm⟩
  · rintro ⟨served, apart⟩
    induction owners with
    | nil => exact ⟨[], .nil, List.nodup_nil⟩
    | cons owner rest ih =>
        rw [List.forall_mem_cons] at served
        rw [List.pairwise_cons] at apart
        obtain ⟨more, hmore, hnodup⟩ := ih served.2 apart.2
        obtain ⟨signer, hserves, hnamed⟩ := served.1
        obtain ⟨signature, hsignature⟩ := exists_signatureOf hserves.mem
        refine ⟨⟨signer, signature⟩ :: more, .cons ⟨hserves, hnamed, hsignature⟩ hmore, ?_⟩
        rw [List.map_cons, List.nodup_cons]
        refine ⟨fun hmem => ?_, hnodup⟩
        obtain ⟨b, hb, hsame⟩ := List.mem_map.mp hmem
        obtain ⟨other, hother, hother', _, hsignature'⟩ := exists_of_forall₂ hmore.flip hb
        refine apart.1 other hother signer b.address hserves hother' ?_
        rw [hsignature, hsignature', hsame]

theorem assignment_of_signing (h : List.Forall₂ (SignsFor m rtt authorizations) owners chosen)
    (nodup : (chosen.map Authority.signature).Nodup) :
    Assignment m rtt (signersOf authorizations) owners (chosen.map Authority.address) := by
  refine ⟨?_, ?_, fun signer hsigner => ?_⟩
  · rw [List.forall₂_map_right_iff]
    exact h.imp fun owner a hsigns => hsigns.1.authority
  · -- one signer has one signature
    refine List.Nodup.map_on (fun a ha b hb hsame => ?_) nodup.of_map
    obtain ⟨_, _, _, _, hfirst⟩ := exists_of_forall₂ h.flip ha
    obtain ⟨_, _, _, _, hsecond⟩ := exists_of_forall₂ h.flip hb
    rw [hsame] at hfirst
    exact List.inj_on_of_nodup_map nodup ha hb (Option.some.inj (hfirst.symm.trans hsecond))
  · obtain ⟨a, ha, rfl⟩ := List.mem_map.mp hsigner
    obtain ⟨_, _, hserves, _⟩ := exists_of_forall₂ h.flip ha
    exact hserves.mem

end

section
variable {l : Ledger} {copies : List SignedTransaction} {d : Transaction} {owners : List String}
  {merged : SignedTransaction}

def signaturesOf (copies : List SignedTransaction) : List Authority :=
  copies.filterMap fun copy => copy.authorizations.head?

theorem mergeCopies_iff (nonempty : copies ≠ [])
    (same : ∀ copy ∈ copies, copy.transactionDetails = d)
    (howners : actionOwners d.action = .ok owners) :
    mergeCopies l copies = .ok (some merged) ↔ ∃ chosen, merged = ⟨d, chosen⟩ ∧
      List.Forall₂ (SignsFor l.authorityManager d.action.rtt (signaturesOf copies)) owners chosen ∧
      (chosen.map Authority.signature).Nodup := by
  cases copies with
  | nil => exact absurd rfl nonempty
  | cons first rest =>
      have hfirst := same first List.mem_cons_self
      rw [mergeCopies, bind_ok_iff]
      constructor
      · rintro ⟨_, hsame, h⟩
        rw [hfirst] at hsame h
        cases hsame.symm.trans howners
        obtain ⟨found, hfound, h⟩ := bind_ok_iff.mp h
        obtain ⟨chosen, rfl, rfl⟩ := Option.map_eq_some_iff.mp (pure_ok_iff.mp h)
        obtain ⟨_, rfl, hchosen, hnodup, _⟩ := authorizeOwners_iff.mp hfound
        exact ⟨_, rfl, hchosen, hnodup⟩
      · rintro ⟨chosen, rfl, hchosen, hnodup⟩
        rw [hfirst]
        refine ⟨owners, howners, bind_ok_iff.mpr ⟨some chosen, ?_, ?_⟩⟩
        · exact authorizeOwners_iff.mpr
            ⟨chosen, rfl, hchosen, hnodup, fun _ _ => List.not_mem_nil⟩
        · rfl

theorem mergeGroups_of_mem {groups : List (List SignedTransaction)}
    {complete incomplete : List SignedTransaction}
    (h : mergeGroups l groups = .ok (complete, incomplete)) (hcopies : copies ∈ groups) :
    ∃ found, mergeCopies l copies = .ok found ∧
      (∀ merged, found = some merged → merged ∈ complete) ∧
      (found = none → copies.Sublist incomplete) := by
  induction groups generalizing complete incomplete with
  | nil => cases hcopies
  | cons first rest ih =>
      obtain ⟨found, hfound, h⟩ := bind_ok_iff.mp h
      obtain ⟨⟨complete', incomplete'⟩, hrest, h⟩ := bind_ok_iff.mp h
      rcases List.mem_cons.mp hcopies with rfl | hcopies
      · refine ⟨found, hfound, ?_, ?_⟩
        · rintro merged rfl
          cases pure_ok_iff.mp h
          exact List.mem_cons_self
        · rintro rfl
          cases pure_ok_iff.mp h
          exact List.sublist_append_left _ _
      · obtain ⟨other, hother, hcomplete, hincomplete⟩ := ih hrest hcopies
        cases found with
        | some signedTransaction =>
            cases pure_ok_iff.mp h
            exact ⟨other, hother, fun merged hmerged =>
              List.mem_cons_of_mem _ (hcomplete merged hmerged), hincomplete⟩
        | none =>
            cases pure_ok_iff.mp h
            exact ⟨other, hother, hcomplete, fun hnone =>
              (hincomplete hnone).trans (List.sublist_append_right _ _)⟩

theorem fillBlock_waiting (tpStart tpEnd : ℤ) (transactions : List SignedTransaction)
    (s : Selection) : s.waiting.Sublist (fillBlock tpStart tpEnd transactions s).waiting := by
  unfold fillBlock
  induction transactions generalizing s with
  | nil => exact .refl _
  | cons first rest ih =>
      rw [List.foldl_cons]
      split_ifs
      · exact ih { s with blockTransactions := s.blockTransactions ++ [first] }
      · exact (List.sublist_append_left _ _).trans (ih { s with waiting := s.waiting ++ [first] })

theorem reserveLoop_waiting (statCount : ℕ) (stats : List SignedTransaction) (index : ℕ)
    (s : Selection) : ∃ left, (reserveLoop statCount stats index s).waiting = s.waiting ++ left ∧
      ∀ st ∈ left, st ∈ stats := by
  induction stats generalizing index s with
  | nil => exact ⟨[], (List.append_nil _).symm, fun _ hst => hst⟩
  | cons stat rest ih =>
      unfold reserveLoop
      split_ifs
      · obtain ⟨left, hleft, hmem⟩ := ih (index + 1) { s with
          blockTransactions := s.blockTransactions ++ [stat] }
        exact ⟨left, hleft, fun st hst => List.mem_cons_of_mem _ (hmem st hst)⟩
      · obtain ⟨left, hleft, hmem⟩ := ih index { s with waiting := s.waiting ++ [stat] }
        refine ⟨stat :: left, hleft.trans (List.append_assoc _ _ _), ?_⟩
        exact List.forall_mem_cons.mpr
          ⟨List.mem_cons_self, fun st hst => List.mem_cons_of_mem _ (hmem st hst)⟩

theorem reserveStatistics_incomplete {statistics : List SignedTransaction} {s after : Selection}
    (complete : ∀ st ∈ statistics, st.isComplete = true)
    (h : reserveStatistics statistics s = .ok after) :
    (after.waiting.filter fun st => !st.isComplete) =
      s.waiting.filter fun st => !st.isComplete := by
  obtain ⟨sorted, hsorted, h⟩ := bind_ok_iff.mp h
  cases pure_ok_iff.mp h
  obtain ⟨left, hleft, hmem⟩ := reserveLoop_waiting sorted.length sorted 0 s
  have hnone : (left.filter fun st => !st.isComplete) = [] := by
    rw [List.filter_eq_nil_iff]
    intro st hst
    rw [complete st ((sortByAmount_perm hsorted).mem_iff.mp (hmem st hst))]
    exact Bool.false_ne_true
  rw [hleft, List.filter_append, hnone, List.append_nil]

theorem reported_complete {header : BlockHeader} {st : SignedTransaction}
    (h : lastRole l header st ≠ none) : st.isComplete = true :=
  isComplete_of_document (document_of_reportedRole h)

/-- The authorizations of all owners make a valid transaction of a copy. -/
theorem actionValidate_authorized [Externals] {config : Config} {copy : SignedTransaction}
    {chosen : List Authority} (hcopy : copy.transactionDetails = d) (part : copy.isComplete = false)
    (howners : actionOwners d.action = .ok owners) (hlength : chosen.length = owners.length)
    (valid : actionValidate config copy false = .ok ()) :
    actionValidate config ⟨d, chosen⟩ true = .ok () := by
  have authorship {what : String} {authors : List String}
      (hauthors : owners = authors)
      (h : validateAuthorship what copy authors false = .ok ()) :
      validateAuthorship what ⟨d, chosen⟩ authors true = .ok () := by
    obtain ⟨hsome, h⟩ := require_bind_ok_iff.mp h
    simp only [Bool.false_eq_true, if_false] at h
    obtain ⟨_, h⟩ := require_bind_ok_iff.mp h
    subst hauthors
    refine require_bind_ok_iff.mpr ⟨hsome, ?_⟩
    simp only [if_true]
    exact require_bind_ok_iff.mpr ⟨hlength.le, require_bind_ok_iff.mpr ⟨hlength.ge, h⟩⟩
  unfold SignedTransaction.isComplete at part
  subst hcopy
  obtain ⟨_, htransfer, h⟩ := bind_ok_iff.mp valid
  refine bind_ok_iff.mpr ⟨_, htransfer, ?_⟩
  cases haction : copy.transactionDetails.action with
  | file a =>
      rw [haction] at howners
      simp only [haction] at h ⊢
      obtain ⟨_, hauthorship, h⟩ := bind_ok_iff.mp h
      exact bind_ok_iff.mpr ⟨_, authorship (pure_ok_iff.mp howners).symm hauthorship, h⟩
  | contentUnit a =>
      rw [haction] at howners
      simp only [haction] at h ⊢
      obtain ⟨_, hauthorship, h⟩ := bind_ok_iff.mp h
      exact bind_ok_iff.mpr ⟨_, authorship (pure_ok_iff.mp howners).symm hauthorship, h⟩
  | _ =>
      rw [haction] at part
      cases part

theorem signersPermitted_ok_iff {signers : List (String × String)} {rtt : ℕ} :
    signersPermitted l rtt signers = .ok true ↔
      ∀ p ∈ signers, l.authorityManager.checkAuthority p.2 p.1 rtt = .ok true := by
  induction signers with
  | nil => exact ⟨fun _ _ hp => (nomatch hp), fun _ => rfl⟩
  | cons p rest ih =>
      rw [List.forall_mem_cons, ← ih, signersPermitted, bind_ok_iff]
      constructor
      · rintro ⟨permitted, hpermitted, h⟩
        cases permitted with
        | false => cases h
        | true => exact ⟨hpermitted, h⟩
      · rintro ⟨hpermitted, h⟩
        exact ⟨true, hpermitted, h⟩

end

section
variable [Externals] {config : Config} {l : Ledger} {header : BlockHeader}
  {reverted : List SignedTransaction} {selection : Selection} {d : Transaction}
  {owners : List String}

def copiesOf (header : BlockHeader) (reverted : List SignedTransaction) (d : Transaction) :
    List SignedTransaction :=
  (early header reverted).filter fun st => !st.isComplete && decide (st.transactionDetails = d)

def Combined (l : Ledger) (selection : Selection) (copies : List SignedTransaction)
    (merged : SignedTransaction) : Prop :=
  mergeCopies l copies = .ok (some merged) ∧ merged ∈ selection.all

/-- The copies of a transaction are merged into one that is signed for every owner. -/
structure SignedForOwners (config : Config) (l : Ledger) (copies : List SignedTransaction)
    (owners : List String) (merged : SignedTransaction) : Prop where
  details : ∀ copy ∈ copies, merged.transactionDetails = copy.transactionDetails
  signed : ∀ a ∈ merged.authorizations, a ∈ signaturesOf copies
  length : merged.authorizations.length = owners.length
  valid : actionValidate config merged true = .ok ()
  permitted : completePermitted merged.isComplete l merged.transactionDetails.action.rtt
    (signersWithAuthors merged owners) = .ok true
  complete : merged.isComplete = true

/-- The copies are merged exactly when their signers can be assigned to the owners. -/
structure MergesExactly (config : Config) (l : Ledger) (selection : Selection)
    (copies : List SignedTransaction) (rtt : ℕ) (owners : List String) : Prop where
  produced : (∃ merged, Combined l selection copies merged) ↔ ∃ assigned,
    Assignment l.authorityManager rtt (signersOf (signaturesOf copies)) owners assigned
  combined : ∀ merged, Combined l selection copies merged →
    SignedForOwners config l copies owners merged
  returned : (¬ ∃ assigned,
      Assignment l.authorityManager rtt (signersOf (signaturesOf copies)) owners assigned) →
    copies.Sublist selection.waiting

/-- What becomes of the copies in a selection. -/
theorem copiesOf_selected (text : Function.Injective Externals.transactionToString)
    (h : selectTransactions config l header reverted = .ok selection)
    (nonempty : copiesOf header reverted d ≠ []) :
    ∃ found, mergeCopies l (copiesOf header reverted d) = .ok found ∧
      (∀ merged, found = some merged → merged ∈ selection.all) ∧
      (found = none → (copiesOf header reverted d).Sublist selection.waiting) := by
  obtain ⟨channels, reserved, merged, unmerged, sorted, hchannels, hstorages, hmerged, hsorted,
    rfl⟩ := selectTransactions_stages h
  have hreported {p : SignedTransaction → Bool} (hp : ∀ st, lastRole l header st = none →
      p st = false) : ∀ st ∈ (early header reverted).filter p, st.isComplete = true := by
    intro st hst
    have hrole : lastRole l header st ≠ none := by
      intro hnone
      rw [List.mem_filter, hp st hnone] at hst
      exact Bool.false_ne_true hst.2
    exact reported_complete hrole
  have hincomplete : (reserved.waiting.filter fun st => !st.isComplete) =
      (early header reverted).filter fun st => !st.isComplete := by
    rw [reserveStatistics_incomplete (hreported fun st hnone => by simp [hnone]) hstorages,
      reserveStatistics_incomplete (hreported fun st hnone => by simp [hnone]) hchannels,
      List.filter_filter]
    refine List.filter_congr fun st _ => ?_
    by_cases hrole : lastRole l header st = none
    · simp [hrole]
    · simp [reported_complete hrole]
  have hgroup : copiesOf header reverted d ∈ groupBy
      (fun (st : SignedTransaction) => Externals.transactionToString st.transactionDetails)
      (reserved.waiting.filter fun st => !st.isComplete) := by
    obtain ⟨copy, hcopy⟩ := List.exists_mem_of_ne_nil _ nonempty
    obtain ⟨hearly, hwanted⟩ := List.mem_filter.mp hcopy
    rw [Bool.and_eq_true, decide_eq_true_iff] at hwanted
    rw [hincomplete]
    refine List.mem_map.mpr ⟨Externals.transactionToString d, ?_, ?_⟩
    · rw [List.mem_dedup, ← hwanted.2]
      exact List.mem_map_of_mem (f := fun (st : SignedTransaction) =>
        Externals.transactionToString st.transactionDetails)
        (List.mem_filter.mpr ⟨hearly, hwanted.1⟩)
    · rw [List.filter_filter, copiesOf]
      refine List.filter_congr fun st _ => ?_
      rw [Bool.and_comm]
      simp only [text.eq_iff]
  obtain ⟨found, hfound, hcomplete, hleft⟩ := mergeGroups_of_mem hmerged hgroup
  have hall := (sorts_fillBlock (header.timeSigned - blockMineDelay - blockMineDelay)
    (header.timeSigned - blockMineDelay) sorted
    ⟨reserved.blockTransactions, late header reverted ++ unmerged⟩).all
  refine ⟨found, hfound, fun st hst => ?_, fun hnone => ?_⟩
  · rw [hall.mem_iff, List.mem_append, hsorted.mem_iff, List.mem_append]
    exact .inr (.inr (hcomplete st hst))
  · exact (hleft hnone).trans ((List.sublist_append_right _ _).trans (fillBlock_waiting _ _ sorted
      ⟨reserved.blockTransactions, late header reverted ++ unmerged⟩))

/-- The copies of a transaction are merged as they should be exactly when no assignment of signers
to owners is missed: two owners that are first served by one signer keep the copies apart. -/
theorem mergedCopies_exact_iff (text : Function.Injective Externals.transactionToString)
    (hselect : selectTransactions config l header reverted = .ok selection)
    (howners : actionOwners d.action = .ok owners) (nonempty : copiesOf header reverted d ≠ [])
    (valid : ∀ copy ∈ copiesOf header reverted d, actionValidate config copy false = .ok ()) :
    MergesExactly config l selection (copiesOf header reverted d) d.action.rtt owners ↔
      ((∃ assigned, Assignment l.authorityManager d.action.rtt
          (signersOf (signaturesOf (copiesOf header reverted d))) owners assigned) →
        ServedApart l.authorityManager d.action.rtt (signaturesOf (copiesOf header reverted d))
          owners) := by
  have hcopies : ∀ copy ∈ copiesOf header reverted d, copy.isComplete = false ∧
      copy.transactionDetails = d := by
    intro copy hcopy
    have hwanted := (List.mem_filter.mp hcopy).2
    simpa using hwanted
  have hdocuments : ∀ copy ∈ copiesOf header reverted d,
      copy.transactionDetails.action.document ≠ none := by
    intro copy hcopy hnone
    cases (isComplete_of_document hnone).symm.trans (hcopies copy hcopy).1
  obtain ⟨found, hfound, hcomplete, hleft⟩ := copiesOf_selected text hselect nonempty
  have hmerge (merged : SignedTransaction) :
      mergeCopies l (copiesOf header reverted d) = .ok (some merged) ↔ _ :=
    mergeCopies_iff nonempty (fun copy hcopy => (hcopies copy hcopy).2) howners
  have hproduced : (∃ merged, Combined l selection (copiesOf header reverted d) merged) ↔
      ServedApart l.authorityManager d.action.rtt (signaturesOf (copiesOf header reverted d))
        owners := by
    rw [← exists_signing_iff]
    constructor
    · rintro ⟨merged, hmerged, _⟩
      obtain ⟨chosen, _, hchosen⟩ := (hmerge _).mp hmerged
      exact ⟨chosen, hchosen⟩
    · rintro ⟨chosen, hchosen⟩
      have hmerged := (hmerge _).mpr ⟨chosen, rfl, hchosen⟩
      exact ⟨_, hmerged, hcomplete _ (Except.ok.inj (hfound.symm.trans hmerged))⟩
  have hassigned (h : ServedApart l.authorityManager d.action.rtt
      (signaturesOf (copiesOf header reverted d)) owners) : ∃ assigned,
      Assignment l.authorityManager d.action.rtt
        (signersOf (signaturesOf (copiesOf header reverted d))) owners assigned := by
    obtain ⟨chosen, hchosen, hnodup⟩ := exists_signing_iff.mpr h
    exact ⟨_, assignment_of_signing hchosen hnodup⟩
  constructor
  · intro exactly h
    exact hproduced.mp (exactly.produced.mpr h)
  · intro served
    refine ⟨hproduced.trans ⟨hassigned, served⟩, ?_, fun hnone => ?_⟩
    · rintro merged ⟨hmerged, _⟩
      obtain ⟨chosen, rfl, hchosen, _⟩ := (hmerge _).mp hmerged
      obtain ⟨copy, hcopy⟩ := List.exists_mem_of_ne_nil _ nonempty
      have hlength := hchosen.length_eq.symm
      have hvalid := actionValidate_authorized (hcopies copy hcopy).2 (hcopies copy hcopy).1 howners
        hlength (valid copy hcopy)
      have hwhole : (⟨d, chosen⟩ : SignedTransaction).isComplete = true :=
        (mergeCopies_spec hdocuments hmerged).1
      refine ⟨fun other hother => (hcopies other hother).2.symm, fun a ha => ?_, hlength, hvalid,
        ?_, hwhole⟩
      · obtain ⟨_, _, _, _, hsignature⟩ := exists_of_forall₂ hchosen.flip ha
        exact mem_of_signatureOf hsignature
      · rw [completePermitted, if_pos hwhole, signersPermitted_ok_iff]
        rintro ⟨signer, owner⟩ hp
        have haligned : List.Forall₂ (fun signer owner =>
            l.authorityManager.checkAuthority owner signer d.action.rtt = .ok true)
            (chosen.map Authority.address) owners := by
          rw [List.forall₂_map_left_iff]
          exact (hchosen.imp fun owner a hsigns => hsigns.1.authority).flip
        exact List.forall₂_zip haligned hp
    · refine hleft ?_
      rcases found with _ | merged
      · rfl
      · exact absurd (hassigned (hproduced.mp ⟨merged, hfound, hcomplete merged rfl⟩)) hnone

end

section Examples

def jointFile : Transaction := ⟨0, 1000, 0, .file ⟨"file", ["writer", "painter"]⟩⟩

noncomputable local instance mergingExternals : Externals :=
  { readingExternals with transactionToString := nameOf [jointFile] }

theorem mergingExternals_text : Function.Injective Externals.transactionToString :=
  nameOf_injective _

def signedBy (authority : String) : SignedTransaction :=
  ⟨jointFile, [⟨authority, "signature of " ++ authority⟩]⟩

def agentStore : AuthorityManager :=
  let full := AccountAuthorization.full
  ⟨((∅ : Std.ExtTreeMap String AccountAuthorizations).insert "writer"
      (((∅ : AccountAuthorizations).insert "writer" full).insert "agent" full)).insert "painter"
      (((∅ : AccountAuthorizations).insert "painter" full).insert "agent" full)⟩

def agentLedger : Ledger := { (default : Ledger) with authorityManager := agentStore }

def agentHeader : BlockHeader := ⟨1, 0, 0, 1, "", 600⟩

def agentConfig : Config := (exampleNode "own" .blockchain).config

theorem agentFirst_isOk : (selectTransactions agentConfig agentLedger agentHeader
    [signedBy "agent", signedBy "painter"]).isOk = true := by
  decide +kernel

theorem agentLast_isOk : (selectTransactions agentConfig agentLedger agentHeader
    [signedBy "painter", signedBy "agent"]).isOk = true := by
  decide +kernel

theorem signedBy_valid (authority : String) :
    actionValidate agentConfig (signedBy authority) false = .ok () := by
  rfl

theorem agentLast_served : ServedApart agentStore File.rtt
    (signaturesOf (copiesOf agentHeader [signedBy "painter", signedBy "agent"] jointFile))
    ["writer", "painter"] := by
  have hsignatures : signaturesOf (copiesOf agentHeader [signedBy "painter", signedBy "agent"]
      jointFile) = [⟨"painter", "signature of painter"⟩, ⟨"agent", "signature of agent"⟩] := by
    decide +kernel
  rw [hsignatures]
  have writer : agentStore.Serves File.rtt (signersOf [⟨"painter", "signature of painter"⟩,
      ⟨"agent", "signature of agent"⟩]) "writer" "agent" :=
    ⟨["painter"], [], by decide, by decide +kernel, by decide +kernel⟩
  have painter : agentStore.Serves File.rtt (signersOf [⟨"painter", "signature of painter"⟩,
      ⟨"agent", "signature of agent"⟩]) "painter" "painter" :=
    ⟨[], ["agent"], by decide, fun _ h => (nomatch h), by decide +kernel⟩
  refine ⟨?_, .cons ?_ (List.pairwise_singleton _ _)⟩
  · simp only [List.forall_mem_cons]
    exact ⟨⟨_, writer, by decide⟩, ⟨_, painter, by decide⟩, fun _ h => nomatch h⟩
  · intro other hother signer next hsigner hnext
    cases List.mem_singleton.mp hother
    rw [hsigner.unique writer, hnext.unique painter]
    decide

theorem agentLast_merged : MergesExactly agentConfig agentLedger (okValue _ agentLast_isOk)
    (copiesOf agentHeader [signedBy "painter", signedBy "agent"] jointFile) File.rtt
    ["writer", "painter"] := by
  refine (mergedCopies_exact_iff mergingExternals_text (eq_okValue agentLast_isOk) rfl
    (by decide +kernel) fun copy hcopy => ?_).mpr fun _ => agentLast_served
  have hmem : copy ∈ [signedBy "painter", signedBy "agent"] :=
    List.mem_of_mem_filter (List.mem_of_mem_filter hcopy)
  rcases List.mem_pair.mp hmem with rfl | rfl
  · exact signedBy_valid "painter"
  · exact signedBy_valid "agent"

/-- When the agent comes first it is found for both authors, and the copies stay apart. -/
theorem agentFirst_unmerged : ¬ ∀ [Externals] (config : Config) (l : Ledger) (header : BlockHeader)
    (reverted : List SignedTransaction) (selection : Selection) (d : Transaction)
    (owners : List String), Function.Injective Externals.transactionToString →
    selectTransactions config l header reverted = .ok selection →
    actionOwners d.action = .ok owners → copiesOf header reverted d ≠ [] →
    (∀ copy ∈ copiesOf header reverted d, actionValidate config copy false = .ok ()) →
    MergesExactly config l selection (copiesOf header reverted d) d.action.rtt owners := by
  intro claim
  have merges := claim agentConfig agentLedger agentHeader [signedBy "agent", signedBy "painter"]
    _ jointFile ["writer", "painter"] mergingExternals_text (eq_okValue agentFirst_isOk) rfl
    (by decide +kernel) fun copy hcopy => by
      have hmem : copy ∈ [signedBy "agent", signedBy "painter"] :=
        List.mem_of_mem_filter (List.mem_of_mem_filter hcopy)
      rcases List.mem_pair.mp hmem with rfl | rfl
      · exact signedBy_valid "agent"
      · exact signedBy_valid "painter"
  obtain ⟨merged, hmerged, _⟩ := merges.produced.mpr ⟨["agent", "painter"],
    .cons (by decide +kernel) (.cons (by decide +kernel) .nil), by decide, by decide +kernel⟩
  have hnone : (mergeCopies agentLedger (copiesOf agentHeader
      [signedBy "agent", signedBy "painter"] jointFile)).toOption = some none := by
    decide +kernel
  rw [hmerged] at hnone
  cases hnone

end Examples

end Publiq
