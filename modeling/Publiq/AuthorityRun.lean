import Publiq.Actions.Authorization

/-! The authority store over whole runs. Updates are applied one after another and
reverted from the last one back, as the pool and the blocks are. -/
namespace Publiq
open Message Checked

namespace AuthorityManager
open AccountAuthorization

def Exceptionless (m : AuthorityManager) : Prop :=
  ∀ address authority, (m.record address authority).defaultFull = true →
    (m.record address authority).actionIds = ∅

def Owned (m : AuthorityManager) : Prop :=
  ∀ owner, ∃ actor, (m.record owner actor).permits AuthorizationUpdate.rtt = true

/-- What every reachable store keeps. -/
structure Kept (m : AuthorityManager) : Prop where
  normal : m.Normal
  exceptionless : m.Exceptionless
  owned : m.Owned

/-- The form of a stored entry. -/
structure NormalForm (address : String) (auths : AccountAuthorizations) : Prop where
  own : address ∈ auths
  exceptionless : ∀ (actor : String) (record : AccountAuthorization),
    auths[actor]? = some record → record.defaultFull = true → record.actionIds = ∅
  noDummy : ∀ actor, actor ≠ address → auths[actor]? ≠ some dummy
  notDefault : auths ≠ (∅ : AccountAuthorizations).insert address full

theorem kept_empty : Kept default := by
  have hrecord (address authority : String) :
      record default address authority = usual address authority := by
    have hnone : (default : AuthorityManager).store[address]? = none := by
      change (∅ : Std.ExtTreeMap String AccountAuthorizations)[address]? = none
      exact Std.ExtTreeMap.getElem?_empty
    rw [record, hnone]
  refine ⟨normal_empty, ?_, ?_⟩
  · intro address authority _
    rw [hrecord, usual]
    split_ifs <;> rfl
  · intro owner
    refine ⟨owner, ?_⟩
    rw [hrecord, usual, if_pos rfl]
    rfl

theorem record_of_stored {m : AuthorityManager} {address : String} {auths : AccountAuthorizations}
    (h : m.store[address]? = some auths) (actor : String) :
    m.record address actor = auths[actor]?.getD dummy := by
  rw [record, h]

theorem normalForm_of_kept {m : AuthorityManager} (kept : m.Kept) {address : String}
    {auths : AccountAuthorizations} (h : m.store[address]? = some auths) :
    NormalForm address auths := by
  have entry := kept.normal address auths h
  refine ⟨entry.own, ?_, entry.noDummy, ?_⟩
  · intro actor record hrecord hfull
    have hread := record_of_stored h actor
    rw [hrecord] at hread
    have hclean := kept.exceptionless address actor
    rw [hread] at hclean
    exact hclean hfull
  · rintro rfl
    obtain ⟨actor, hunusual⟩ := entry.unusual
    apply hunusual
    rw [Std.ExtTreeMap.getElem?_insert, usual]
    by_cases heq : address = actor
    · simp [heq]
    · simp [heq, Ne.symm heq]

/-- A normal entry is determined by what it expresses. -/
theorem entry_ext {address : String} {a b : AccountAuthorizations} (ha : NormalEntry address a)
    (hb : NormalEntry address b)
    (h : ∀ actor : String, a[actor]?.getD dummy = b[actor]?.getD dummy) : a = b := by
  apply Std.ExtTreeMap.ext_getElem?
  intro actor
  have hactor := h actor
  by_cases heq : actor = address
  · subst heq
    obtain ⟨x, hx⟩ := Option.isSome_iff_exists.mp
      (Std.ExtTreeMap.mem_iff_isSome_getElem?.mp ha.own)
    obtain ⟨y, hy⟩ := Option.isSome_iff_exists.mp
      (Std.ExtTreeMap.mem_iff_isSome_getElem?.mp hb.own)
    rw [hx, hy] at hactor ⊢
    exact congrArg some hactor
  · have hx := ha.noDummy actor heq
    have hy := hb.noDummy actor heq
    cases hxa : a[actor]? with
    | none =>
        cases hyb : b[actor]? with
        | none => rfl
        | some y =>
            rw [hxa, hyb] at hactor
            rw [hyb] at hy
            exact absurd (congrArg some hactor.symm) hy
    | some x =>
        cases hyb : b[actor]? with
        | none =>
            rw [hxa, hyb] at hactor
            rw [hxa] at hx
            exact absurd (congrArg some hactor) hx
        | some y =>
            rw [hxa, hyb] at hactor
            exact congrArg some hactor

theorem Normal.ext {m n : AuthorityManager} (hm : m.Normal) (hn : n.Normal)
    (h : ∀ address authority, m.record address authority = n.record address authority) :
    m = n := by
  have hstore : m.store = n.store := by
    apply Std.ExtTreeMap.ext_getElem?
    intro address
    have hrecord := h address
    unfold record at hrecord
    cases hx : m.store[address]? with
    | none =>
        cases hy : n.store[address]? with
        | none => rfl
        | some b =>
            rw [hx, hy] at hrecord
            obtain ⟨actor, hunusual⟩ := (hn address b hy).unusual
            exact absurd (hrecord actor).symm hunusual
    | some a =>
        cases hy : n.store[address]? with
        | none =>
            rw [hx, hy] at hrecord
            obtain ⟨actor, hunusual⟩ := (hm address a hx).unusual
            exact absurd (hrecord actor) hunusual
        | some b =>
            rw [hx, hy] at hrecord
            exact congrArg some (entry_ext (hm address a hx) (hn address b hy) hrecord)
  cases m
  cases n
  exact congrArg mk hstore

/-- `find_authority` never throws on a normal store. -/
theorem findAuthority_total {m : AuthorityManager} (normal : m.Normal) (authorities : List String)
    (address : String) (actionId : ℕ) :
    ∃ found, m.findAuthority authorities address actionId = .ok found := by
  unfold findAuthority
  split_ifs
  · exact ⟨_, rfl⟩
  · exact ⟨_, rfl⟩
  · induction authorities with
    | nil => exact ⟨"", rfl⟩
    | cons authority rest ih =>
        rw [firstAuthority, checkAuthority_eq normal, ok_bind]
        split_ifs
        · exact ⟨authority, rfl⟩
        · exact ih

end AuthorityManager

namespace Message.AuthorizationUpdate
open AuthorityManager AccountAuthorization

theorem rewrite_ok {m : AuthorityManager} (normal : m.Normal) {update : AuthorizationUpdate}
    {f : AccountAuthorization → Except Refusal AccountAuthorization} (e : Refusal → Failure)
    {r : AccountAuthorization} (h : f (m.record update.owner update.actor) = .ok r) :
    ∃ after, update.rewrite f e m = .ok after ∧ after.Normal ∧
      ∀ a b, after.record a b =
        if a = update.owner ∧ b = update.actor then r else m.record a b := by
  obtain ⟨set, after, hset, hclean, hnormal, hrecord⟩ :=
    rewrite_record normal update.owner update.actor r
  refine ⟨after, ?_, hnormal, hrecord⟩
  simp only [rewrite, getRecord_smartCreate normal, ok_bind, h, Except.mapError, hset, hclean]

theorem rewrite_cases {m after : AuthorityManager} (normal : m.Normal)
    {update : AuthorizationUpdate} {f : AccountAuthorization → Except Refusal AccountAuthorization}
    {e : Refusal → Failure} (h : update.rewrite f e m = .ok after) :
    ∃ r, f (m.record update.owner update.actor) = .ok r ∧ after.Normal ∧
      ∀ a b, after.record a b =
        if a = update.owner ∧ b = update.actor then r else m.record a b := by
  cases hf : f (m.record update.owner update.actor) with
  | error refusal =>
      simp only [rewrite, getRecord_smartCreate normal, ok_bind, hf, Except.mapError,
        error_bind] at h
      cases h
  | ok r =>
      obtain ⟨result, hresult, hnormal, hrecord⟩ := rewrite_ok normal e hf
      cases hresult.symm.trans h
      exact ⟨r, rfl, hnormal, hrecord⟩

theorem mem_ids {update : AuthorizationUpdate} {id : ℕ} :
    id ∈ update.ids ↔ id ∈ update.actionIds := Finset.mem_sort _

theorem find?_ids_eq_none {update : AuthorizationUpdate} {p : ℕ → Bool} :
    update.ids.find? p = none ↔ ∀ id ∈ update.actionIds, p id = false := by
  simp [List.find?_eq_none, mem_ids]

theorem awardRecord_ok_iff {update : AuthorizationUpdate}
    {onFull : AccountAuthorization → Refusal} {record r : AccountAuthorization} :
    update.awardRecord onFull record = .ok r ↔
      (update.actionIds = ∅ ∧ record = dummy ∧ r = full) ∨
        (update.actionIds ≠ ∅ ∧ record.defaultFull = false ∧
          Disjoint record.actionIds update.actionIds ∧
          r = ⟨false, record.actionIds ∪ update.actionIds⟩) := by
  obtain ⟨defaultFull, ids⟩ := record
  unfold awardRecord
  by_cases hempty : update.actionIds = ∅
  · rw [if_pos hempty, require_bind_ok_iff, pure_ok_iff]
    simp only [hempty, full, dummy, AccountAuthorization.mk.injEq, not_or, ne_eq, not_not,
      Bool.not_eq_true, true_and, not_true, false_and, or_false]
    constructor
    · rintro ⟨⟨hfull, hids⟩, rfl⟩
      exact ⟨⟨hfull, hids⟩, by rw [hids]⟩
    · rintro ⟨⟨hfull, hids⟩, rfl⟩
      exact ⟨⟨hfull, hids⟩, by rw [hids]⟩
  · rw [if_neg hempty]
    cases defaultFull with
    | true => simp [hempty]
    | false =>
        have hfind : update.ids.find? (· ∈ ids) = none ↔ Disjoint ids update.actionIds := by
          rw [find?_ids_eq_none, disjoint_comm, Finset.disjoint_left]
          simp
        cases hresult : update.ids.find? (· ∈ ids) with
        | some id =>
            have hnot : ¬ Disjoint ids update.actionIds := by
              rw [← hfind, hresult]
              simp
            simp [hempty, hnot]
        | none =>
            simp [hempty, hfind.mp hresult, pure, Except.pure, eq_comm]

theorem rejectRecord_ok_iff {update : AuthorizationUpdate}
    {onFull : AccountAuthorization → Refusal} {record r : AccountAuthorization} :
    update.rejectRecord onFull record = .ok r ↔
      (update.actionIds = ∅ ∧ record = full ∧ r = dummy) ∨
        (update.actionIds ≠ ∅ ∧ record.defaultFull = false ∧
          update.actionIds ⊆ record.actionIds ∧
          r = ⟨false, record.actionIds \ update.actionIds⟩) := by
  obtain ⟨defaultFull, ids⟩ := record
  unfold rejectRecord
  by_cases hempty : update.actionIds = ∅
  · rw [if_pos hempty, require_bind_ok_iff, pure_ok_iff]
    simp only [hempty, full, dummy, AccountAuthorization.mk.injEq, not_or, ne_eq, not_not,
      Bool.not_eq_false, true_and, not_true, false_and, or_false]
    constructor
    · rintro ⟨⟨hfull, hids⟩, rfl⟩
      exact ⟨⟨hfull, hids⟩, by rw [hids]⟩
    · rintro ⟨⟨hfull, hids⟩, rfl⟩
      exact ⟨⟨hfull, hids⟩, by rw [hids]⟩
  · rw [if_neg hempty]
    cases defaultFull with
    | true => simp [hempty]
    | false =>
        have hfind : update.ids.find? (· ∉ ids) = none ↔ update.actionIds ⊆ ids := by
          rw [find?_ids_eq_none, Finset.subset_iff]
          simp
        cases hresult : update.ids.find? (· ∉ ids) with
        | some id =>
            have hnot : ¬ update.actionIds ⊆ ids := by
              rw [← hfind, hresult]
              simp
            simp [hempty, hnot]
        | none =>
            simp [hempty, hfind.mp hresult, pure, Except.pure, eq_comm]

theorem revertRecord_applyRecord {update : AuthorizationUpdate} {record r : AccountAuthorization}
    (h : update.applyRecord record = .ok r) : update.revertRecord r = .ok record := by
  unfold applyRecord at h
  unfold revertRecord
  cases hupdate : update.updateType with
  | store =>
      simp only [hupdate] at h ⊢
      rw [rejectRecord_ok_iff]
      rcases awardRecord_ok_iff.mp h with ⟨hempty, rfl, rfl⟩ | ⟨hids, hfull, hdisjoint, rfl⟩
      · exact .inl ⟨hempty, rfl, rfl⟩
      · refine .inr ⟨hids, rfl, Finset.subset_union_right, ?_⟩
        rw [Finset.union_sdiff_cancel_right hdisjoint, ← hfull]
  | remove =>
      simp only [hupdate] at h ⊢
      rw [awardRecord_ok_iff]
      rcases rejectRecord_ok_iff.mp h with ⟨hempty, rfl, rfl⟩ | ⟨hids, hfull, hsubset, rfl⟩
      · exact .inl ⟨hempty, rfl, rfl⟩
      · refine .inr ⟨hids, rfl, Finset.sdiff_disjoint, ?_⟩
        rw [Finset.sdiff_union_of_subset hsubset, ← hfull]

theorem exceptionless_awardRecord {update : AuthorizationUpdate}
    {onFull : AccountAuthorization → Refusal} {record r : AccountAuthorization}
    (h : update.awardRecord onFull record = .ok r) (hfull : r.defaultFull = true) :
    r.actionIds = ∅ := by
  rcases awardRecord_ok_iff.mp h with ⟨_, _, rfl⟩ | ⟨_, _, _, rfl⟩
  · rfl
  · cases hfull

theorem exceptionless_rejectRecord {update : AuthorizationUpdate}
    {onFull : AccountAuthorization → Refusal} {record r : AccountAuthorization}
    (h : update.rejectRecord onFull record = .ok r) (hfull : r.defaultFull = true) :
    r.actionIds = ∅ := by
  rcases rejectRecord_ok_iff.mp h with ⟨_, _, rfl⟩ | ⟨_, _, _, rfl⟩
  · rfl
  · cases hfull

theorem exceptionless_applyRecord {update : AuthorizationUpdate}
    {record r : AccountAuthorization} (h : update.applyRecord record = .ok r) :
    r.defaultFull = true → r.actionIds = ∅ := by
  unfold applyRecord at h
  cases hupdate : update.updateType with
  | store =>
      simp only [hupdate] at h
      exact exceptionless_awardRecord h
  | remove =>
      simp only [hupdate] at h
      exact exceptionless_rejectRecord h

theorem exceptionless_revertRecord {update : AuthorizationUpdate}
    {record r : AccountAuthorization} (h : update.revertRecord record = .ok r) :
    r.defaultFull = true → r.actionIds = ∅ := by
  unfold revertRecord at h
  cases hupdate : update.updateType with
  | store =>
      simp only [hupdate] at h
      exact exceptionless_rejectRecord h
  | remove =>
      simp only [hupdate] at h
      exact exceptionless_awardRecord h

theorem exceptionless_rewrite {m after : AuthorityManager} (normal : m.Normal)
    (exceptionless : m.Exceptionless) {update : AuthorizationUpdate}
    {f : AccountAuthorization → Except Refusal AccountAuthorization} {e : Refusal → Failure}
    (clean : ∀ r, f (m.record update.owner update.actor) = .ok r →
      r.defaultFull = true → r.actionIds = ∅)
    (h : update.rewrite f e m = .ok after) : after.Normal ∧ after.Exceptionless := by
  obtain ⟨r, hr, hnormal, hrecord⟩ := rewrite_cases normal h
  refine ⟨hnormal, ?_⟩
  intro a b hfull
  rw [hrecord] at hfull ⊢
  split_ifs at hfull ⊢
  · exact clean r hr hfull
  · exact exceptionless a b hfull

/-- The limitation of the source is out of reach: there is no full record with exceptions. -/
theorem applyRecord_refusal {update : AuthorizationUpdate} {record : AccountAuthorization}
    (clean : record.defaultFull = true → record.actionIds = ∅) :
    update.applyRecord record ≠ .error .fullWithExceptions := by
  unfold applyRecord
  cases update.updateType with
  | store =>
      simp only [awardRecord]
      split_ifs with hempty hfull
      · unfold require
        split_ifs <;> simp [pure, Except.pure]
      · obtain ⟨id, hid⟩ := Finset.nonempty_of_ne_empty hempty
        have hids := mem_ids.mpr hid
        cases hlist : update.ids with
        | nil => simp [hlist] at hids
        | cons first rest => simp [awardOnFull, hlist, clean hfull]
      · split <;> simp [pure, Except.pure]
  | remove =>
      simp only [rejectRecord]
      split_ifs with hempty hfull
      · unfold require
        split_ifs <;> simp [pure, Except.pure]
      · simp
      · split <;> simp [pure, Except.pure]

/-- `action_can_apply` says whether the signer may act and the record can be rewritten. -/
theorem actionCanApply_eq {l : Ledger} (normal : l.authorityManager.Normal)
    (exceptionless : l.authorityManager.Exceptionless)
    (signedTransaction : SignedTransaction) (update : AuthorizationUpdate) :
    update.actionCanApply signedTransaction l = .ok
      ((l.authorityManager.record update.owner signedTransaction.signer).permits rtt &&
        (update.applyRecord (l.authorityManager.record update.owner update.actor)).isOk) := by
  have hrefusal := @applyRecord_refusal update _ (exceptionless update.owner update.actor)
  rw [actionCanApply, checkAuthority_eq normal, ok_bind, getRecord_eq normal]
  cases hpermits :
      (l.authorityManager.record update.owner signedTransaction.signer).permits rtt with
  | false => rfl
  | true =>
      cases hrecord :
          update.applyRecord (l.authorityManager.record update.owner update.actor) with
      | ok r => simp [hrecord, Except.isOk, Except.toBool, pure, Except.pure]
      | error refusal =>
          rw [hrecord] at hrefusal
          cases refusal <;>
            simp_all [Except.isOk, Except.toBool, pure, Except.pure]

/-- Whoever signs an update that is applied may go on updating: it is not about himself. -/
theorem kept_of_rewrite {m after : AuthorityManager} (kept : m.Kept)
    {update : AuthorizationUpdate} {signer : String} {e : Refusal → Failure}
    (other : signer ≠ update.actor)
    (permitted : (m.record update.owner signer).permits rtt = true)
    (h : update.rewrite update.applyRecord e m = .ok after) : after.Kept := by
  obtain ⟨r, hr, hnormal, hrecord⟩ := rewrite_cases kept.normal h
  refine ⟨hnormal, ?_, ?_⟩
  · exact (exceptionless_rewrite kept.normal kept.exceptionless
      (fun _ => exceptionless_applyRecord) h).2
  · intro owner
    by_cases howner : owner = update.owner
    · refine ⟨signer, ?_⟩
      rw [hrecord, if_neg fun hsame => other hsame.2, howner]
      exact permitted
    · obtain ⟨actor, hactor⟩ := kept.owned owner
      refine ⟨actor, ?_⟩
      rw [hrecord, if_neg fun hsame => howner hsame.1]
      exact hactor

/-- Reverting the update that led to a store gives back the store before it. -/
theorem revert_rewrite {m after : AuthorityManager} (normal : m.Normal)
    {update : AuthorizationUpdate} {e e' : Refusal → Failure}
    (h : update.rewrite update.applyRecord e m = .ok after) :
    update.rewrite update.revertRecord e' after = .ok m := by
  obtain ⟨r, hr, hnormal, hrecord⟩ := rewrite_cases normal h
  have hback := revertRecord_applyRecord hr
  have hread : after.record update.owner update.actor = r := by
    rw [hrecord, if_pos ⟨rfl, rfl⟩]
  rw [← hread] at hback
  obtain ⟨before, hbefore, hnormal', hrecord'⟩ := rewrite_ok hnormal e' hback
  have hsame : before = m := by
    apply hnormal'.ext normal
    intro a b
    rw [hrecord', hrecord]
    split_ifs with hab
    · rw [hab.1, hab.2]
    · rfl
  rw [hbefore, hsame]

end Message.AuthorizationUpdate

/-- A step of a run: an update is applied, the applied one at some place is reverted, counted
from the last one, or any other action leaves the authorities alone. -/
inductive AuthorityEvent where
  | apply (signedTransaction : SignedTransaction) (update : AuthorizationUpdate)
  | revert (place : ℕ)
  | other

/-- A step that reverts nothing but the last applied update. -/
def AuthorityEvent.LastFirst : AuthorityEvent → Prop
  | .revert place => place = 0
  | _ => True

open Message.AuthorizationUpdate in
/-- What a run of updates from the empty store reaches: its steps, the updates that are applied,
the last one first, and the ledger. An update is validated and can be applied before it is
applied. `revert_pool` skips the transactions that the cache has forgotten, so any applied
update can be the one to be reverted. -/
inductive AuthorityRun [Externals] : List AuthorityEvent →
    List (SignedTransaction × AuthorizationUpdate) → Ledger → Prop
  | start {l : Ledger} : l.authorityManager = default → AuthorityRun [] [] l
  | apply {events : List AuthorityEvent}
      {applied : List (SignedTransaction × AuthorizationUpdate)} {l after : Ledger}
      {signedTransaction : SignedTransaction} {update : AuthorizationUpdate} :
      AuthorityRun events applied l → actionValidate signedTransaction update = .ok () →
      update.actionCanApply signedTransaction l = .ok true →
      update.actionApply signedTransaction l = .ok after →
      AuthorityRun (.apply signedTransaction update :: events)
        ((signedTransaction, update) :: applied) after
  | revert {events : List AuthorityEvent}
      {applied : List (SignedTransaction × AuthorizationUpdate)} {l before : Ledger} {place : ℕ}
      {signedTransaction : SignedTransaction} {update : AuthorizationUpdate} :
      AuthorityRun events applied l → applied[place]? = some (signedTransaction, update) →
      update.actionRevert l = .ok before →
      AuthorityRun (.revert place :: events) (applied.eraseIdx place) before
  | other {events : List AuthorityEvent}
      {applied : List (SignedTransaction × AuthorizationUpdate)} {l after : Ledger} :
      AuthorityRun events applied l → after.authorityManager = l.authorityManager →
      AuthorityRun (.other :: events) applied after

/-- What the authority store is worth in a state that a run reaches. -/
structure AuthoritiesSafe
    (applied : List (SignedTransaction × AuthorizationUpdate)) (l : Ledger) : Prop where
  /-- Every stored entry is in normal form. -/
  normalForm : ∀ (address : String) (auths : AccountAuthorizations),
    l.authorityManager.store[address]? = some auths →
    AuthorityManager.NormalForm address auths
  /-- The reading functions throw nothing. -/
  reads : ∀ address authority, ∃ record,
    l.authorityManager.getRecord address authority = .ok record
  checks : ∀ address authority actionId, ∃ permitted,
    l.authorityManager.checkAuthority address authority actionId = .ok permitted
  finds : ∀ authorities address actionId, ∃ found,
    l.authorityManager.findAuthority authorities address actionId = .ok found
  /-- Deciding on an update throws nothing, and what can be applied is. -/
  decides : ∀ (signedTransaction : SignedTransaction) (update : AuthorizationUpdate),
    ∃ can, update.actionCanApply signedTransaction l = .ok can ∧
      (can = true → ∃ after, update.actionApply signedTransaction l = .ok after)
  /-- The last applied update can be reverted. -/
  reverts : ∀ (signedTransaction : SignedTransaction) (update : AuthorizationUpdate) rest,
    applied = (signedTransaction, update) :: rest → ∃ before, update.actionRevert l = .ok before
  /-- No account is locked out. -/
  owned : ∀ owner, ∃ actor,
    l.authorityManager.checkAuthority owner actor AuthorizationUpdate.rtt = .ok true

def AuthorityHistory :
    List (SignedTransaction × AuthorizationUpdate) → AuthorityManager → Prop
  | [], m => m = default
  | (_, update) :: rest, m => ∃ before : AuthorityManager, before.Kept ∧
      update.rewrite update.applyRecord (AuthorizationUpdate.Refusal.onApply update.actor)
        before = .ok m ∧ AuthorityHistory rest before

theorem onAuthorities_ok_iff {f : AuthorityManager → Checked AuthorityManager}
    {l after : Ledger} : l.onAuthorities f = .ok after ↔
      ∃ m, f l.authorityManager = .ok m ∧ after = { l with authorityManager := m } := by
  rw [Ledger.onAuthorities, bind_ok_iff]
  simp only [pure_ok_iff, @eq_comm _ after]

theorem AuthorityManager.actionApply_of_can {l : Ledger} (normal : l.authorityManager.Normal)
    (exceptionless : l.authorityManager.Exceptionless) {signedTransaction : SignedTransaction}
    {update : AuthorizationUpdate}
    (can : update.actionCanApply signedTransaction l = .ok true) :
    ∃ m, update.rewrite update.applyRecord (AuthorizationUpdate.Refusal.onApply update.actor)
        l.authorityManager = .ok m ∧
      update.actionApply signedTransaction l = .ok { l with authorityManager := m } := by
  rw [AuthorizationUpdate.actionCanApply_eq normal exceptionless] at can
  obtain ⟨hpermitted, hrecord⟩ := Bool.and_eq_true_iff.mp (Except.ok.inj can)
  obtain ⟨r, hr⟩ := isOk_iff.mp hrecord
  obtain ⟨m, hrewrite, _⟩ := AuthorizationUpdate.rewrite_ok normal
    (AuthorizationUpdate.Refusal.onApply update.actor) hr
  refine ⟨m, hrewrite, ?_⟩
  rw [AuthorizationUpdate.actionApply, Ledger.requireAuthority,
    AuthorityManager.checkAuthority_eq normal, ok_bind, require_true hpermitted]
  exact onAuthorities_ok_iff.mpr ⟨m, hrewrite, rfl⟩

/-- Any run, in whatever order it reverts, keeps the entries normal and full records without
exceptions. -/
theorem AuthorityRun.normal [Externals] {events : List AuthorityEvent}
    {applied : List (SignedTransaction × AuthorizationUpdate)} {l : Ledger}
    (run : AuthorityRun events applied l) :
    l.authorityManager.Normal ∧ l.authorityManager.Exceptionless := by
  induction run with
  | start hstart =>
      rw [hstart]
      exact ⟨AuthorityManager.kept_empty.normal, AuthorityManager.kept_empty.exceptionless⟩
  | apply _ _ _ happly ih =>
      obtain ⟨_, _, happly⟩ := bind_ok_iff.mp happly
      obtain ⟨m, hrewrite, rfl⟩ := onAuthorities_ok_iff.mp happly
      exact AuthorizationUpdate.exceptionless_rewrite ih.1 ih.2
        (fun _ => AuthorizationUpdate.exceptionless_applyRecord) hrewrite
  | revert _ _ hrevert ih =>
      obtain ⟨m, hrewrite, rfl⟩ := onAuthorities_ok_iff.mp hrevert
      exact AuthorizationUpdate.exceptionless_rewrite ih.1 ih.2
        (fun _ => AuthorizationUpdate.exceptionless_revertRecord) hrewrite
  | other _ hsame ih =>
      rw [hsame]
      exact ih

/-- A run that reverts from the last update back goes through the stores of its history. -/
theorem AuthorityRun.history [Externals] {events : List AuthorityEvent}
    {applied : List (SignedTransaction × AuthorizationUpdate)} {l : Ledger}
    (run : AuthorityRun events applied l) (lastFirst : ∀ event ∈ events, event.LastFirst) :
    l.authorityManager.Kept ∧ AuthorityHistory applied l.authorityManager := by
  induction run with
  | start hstart =>
      rw [hstart]
      exact ⟨AuthorityManager.kept_empty, rfl⟩
  | @apply events applied l after signedTransaction update _ hvalidate hcan happly ih =>
      obtain ⟨kept, history⟩ := ih (List.forall_mem_cons.mp lastFirst).2
      rw [AuthorizationUpdate.actionCanApply_eq kept.normal kept.exceptionless] at hcan
      have hpermitted := (Bool.and_eq_true_iff.mp (Except.ok.inj hcan)).1
      obtain ⟨_, hvalidate⟩ := require_bind_ok_iff.mp hvalidate
      have hother := (require_bind_ok_iff.mp hvalidate).1
      obtain ⟨_, _, happly⟩ := bind_ok_iff.mp happly
      obtain ⟨m, hrewrite, rfl⟩ := onAuthorities_ok_iff.mp happly
      exact ⟨AuthorizationUpdate.kept_of_rewrite kept hother hpermitted hrewrite,
        l.authorityManager, kept, hrewrite, history⟩
  | @revert events applied l before place signedTransaction update _ hplace hrevert ih =>
      obtain ⟨hlast, hrest⟩ := List.forall_mem_cons.mp lastFirst
      have hzero : place = 0 := hlast
      subst hzero
      obtain ⟨_, history⟩ := ih hrest
      cases applied with
      | nil => cases hplace
      | cons first rest =>
          cases hplace
          obtain ⟨m, kept, hrewrite, history⟩ := history
          obtain ⟨n, hback, rfl⟩ := onAuthorities_ok_iff.mp hrevert
          rw [AuthorizationUpdate.revert_rewrite kept.normal hrewrite] at hback
          cases hback
          exact ⟨kept, history⟩
  | other _ hsame ih =>
      rw [hsame]
      exact ih (List.forall_mem_cons.mp lastFirst).2

theorem authoritiesSafe_of_history {applied : List (SignedTransaction × AuthorizationUpdate)}
    {l : Ledger} (kept : l.authorityManager.Kept)
    (history : AuthorityHistory applied l.authorityManager) : AuthoritiesSafe applied l := by
  constructor
  · intro address auths hstored
    exact AuthorityManager.normalForm_of_kept kept hstored
  · intro address authority
    exact ⟨_, AuthorityManager.getRecord_eq kept.normal address authority⟩
  · intro address authority actionId
    exact ⟨_, AuthorityManager.checkAuthority_eq kept.normal address authority actionId⟩
  · intro authorities address actionId
    exact AuthorityManager.findAuthority_total kept.normal authorities address actionId
  · intro signedTransaction update
    have hdecides := AuthorizationUpdate.actionCanApply_eq kept.normal kept.exceptionless
      signedTransaction update
    refine ⟨_, hdecides, ?_⟩
    intro hcan
    rw [hcan] at hdecides
    obtain ⟨m, _, happly⟩ :=
      AuthorityManager.actionApply_of_can kept.normal kept.exceptionless hdecides
    exact ⟨_, happly⟩
  · rintro signedTransaction update rest rfl
    obtain ⟨m, hkept, hrewrite, _⟩ := history
    refine ⟨{ l with authorityManager := m }, ?_⟩
    exact onAuthorities_ok_iff.mpr
      ⟨m, AuthorizationUpdate.revert_rewrite hkept.normal hrewrite, rfl⟩
  · intro owner
    obtain ⟨actor, hactor⟩ := kept.owned owner
    refine ⟨actor, ?_⟩
    rw [AuthorityManager.checkAuthority_eq kept.normal, hactor]

/-- Over every run that reverts from the last update back the store stays in normal form, none
of its functions throws, and every account keeps somebody who may update its authorities. -/
theorem authoritiesSafe_of_run [Externals] {events : List AuthorityEvent}
    {applied : List (SignedTransaction × AuthorizationUpdate)} {l : Ledger}
    (run : AuthorityRun events applied l) (lastFirst : ∀ event ∈ events, event.LastFirst) :
    AuthoritiesSafe applied l := by
  obtain ⟨kept, history⟩ := run.history lastFirst
  exact authoritiesSafe_of_history kept history

/-- An update that can be applied in a state that a run reaches is applied, and reverting it
gives back the state before it, in whatever order the run has reverted others. -/
theorem revert_apply_of_run [Externals] {events : List AuthorityEvent}
    {applied : List (SignedTransaction × AuthorizationUpdate)} {l : Ledger}
    (run : AuthorityRun events applied l) {signedTransaction : SignedTransaction}
    {update : AuthorizationUpdate} (can : update.actionCanApply signedTransaction l = .ok true) :
    ∃ after, update.actionApply signedTransaction l = .ok after ∧
      update.actionRevert after = .ok l := by
  obtain ⟨normal, exceptionless⟩ := run.normal
  obtain ⟨m, hrewrite, happly⟩ := AuthorityManager.actionApply_of_can normal exceptionless can
  refine ⟨_, happly, ?_⟩
  exact onAuthorities_ok_iff.mpr
    ⟨l.authorityManager, AuthorizationUpdate.revert_rewrite normal hrewrite, rfl⟩

section Examples

noncomputable local instance authorityExternals : Externals := plainExternals

def signedUpdate (signer : String) (update : AuthorizationUpdate) :
    SignedTransaction × AuthorizationUpdate :=
  (⟨⟨0, 0, ⟨0, 0⟩, .authorizationUpdate update⟩, [⟨signer, ""⟩]⟩, update)

def awardAgent : SignedTransaction × AuthorizationUpdate :=
  signedUpdate "owner" ⟨.store, "owner", "agent", ∅⟩

def rejectOwner : SignedTransaction × AuthorizationUpdate :=
  signedUpdate "agent" ⟨.remove, "owner", "owner", ∅⟩

theorem awardAgent_isOk : (awardAgent.2.actionApply awardAgent.1 default).isOk = true := by
  decide +kernel

def awarded : Ledger := okValue _ awardAgent_isOk

theorem awarded_run : AuthorityRun [.apply awardAgent.1 awardAgent.2] [awardAgent] awarded := by
  apply AuthorityRun.apply
  · exact AuthorityRun.start (l := default) rfl
  · decide +kernel
  · decide +kernel
  · exact eq_okValue awardAgent_isOk

theorem rejectOwner_taken_back : ∃ after,
    rejectOwner.2.actionApply rejectOwner.1 awarded = .ok after ∧
      rejectOwner.2.actionRevert after = .ok awarded :=
  revert_apply_of_run awarded_run (by decide +kernel)

theorem rejectOwner_isOk : (rejectOwner.2.actionApply rejectOwner.1 awarded).isOk = true := by
  decide +kernel

def rejected : Ledger := okValue _ rejectOwner_isOk

theorem rejected_run : AuthorityRun
    [.apply rejectOwner.1 rejectOwner.2, .apply awardAgent.1 awardAgent.2]
    [rejectOwner, awardAgent] rejected := by
  apply AuthorityRun.apply
  · exact awarded_run
  · decide +kernel
  · decide +kernel
  · exact eq_okValue rejectOwner_isOk

theorem rejectOwner_revert_isOk : (rejectOwner.2.actionRevert rejected).isOk = true := by
  decide +kernel

/-- The rejection is reverted before the award. -/
theorem rejected_safe :
    AuthoritiesSafe [awardAgent] (okValue _ rejectOwner_revert_isOk) := by
  have hlast : [rejectOwner, awardAgent][0]? = some rejectOwner := rfl
  have run := AuthorityRun.revert rejected_run hlast (eq_okValue rejectOwner_revert_isOk)
  refine authoritiesSafe_of_run run ?_
  simp [AuthorityEvent.LastFirst]

end Examples
end Publiq
