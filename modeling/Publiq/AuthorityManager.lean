import Publiq.Common
import Std.Data.ExtTreeMap

/-! `authority_manager.cpp`: who may sign for an account. An account with the
usual rights, the full one for itself and none for others, has no entry. -/
namespace Publiq
open Message Checked

/-- `StorageTypes::AccountAuthorization`. The ids are the exceptions to the default. -/
structure AccountAuthorization where
  defaultFull : Bool
  actionIds : Finset ℕ
  deriving DecidableEq

namespace AccountAuthorization

def full : AccountAuthorization := ⟨true, ∅⟩

def dummy : AccountAuthorization := ⟨false, ∅⟩

def permits (r : AccountAuthorization) (actionId : ℕ) : Bool :=
  if actionId ∈ r.actionIds then !r.defaultFull else r.defaultFull

end AccountAuthorization

/-- `StorageTypes::AccountAuthorizations`, by the actor. -/
abbrev AccountAuthorizations := Std.ExtTreeMap String AccountAuthorization

/-- `authority_manager`. -/
structure AuthorityManager where
  store : Std.ExtTreeMap String AccountAuthorizations
  deriving DecidableEq

namespace AuthorityManager
open AccountAuthorization

instance : Inhabited AuthorityManager := ⟨⟨∅⟩⟩

/-- `authority_manager::get_record`. -/
def getRecord (m : AuthorityManager) (address authority : String) : Checked AccountAuthorization :=
  match m.store[address]? with
  | none => .ok (if authority = address then full else dummy)
  | some auths =>
      match auths[authority]? with
      | some record => .ok record
      | none =>
          if authority = address then
            .error (.logicError "authority_manager::get_record: authority == address")
          else .ok dummy

/-- `authority_manager::check_authority`. -/
def checkAuthority (m : AuthorityManager) (address authority : String) (actionId : ℕ) :
    Checked Bool := do
  let record ← m.getRecord address authority
  pure (record.permits actionId)

/-- `authority_manager::get_authority`. -/
def getAuthority (_m : AuthorityManager) (address : String) : String := address

/-- The first authority that may act, as the second half of `find_authority` looks for it. -/
def firstAuthority (m : AuthorityManager) (address : String) (actionId : ℕ) :
    List String → Checked String
  | [] => .ok ""
  | authority :: rest => do
      if ← m.checkAuthority address authority actionId then pure authority
      else m.firstAuthority address actionId rest

/-- `authority_manager::find_authority`. -/
def findAuthority (m : AuthorityManager) (authorities : List String) (address : String)
    (actionId : ℕ) : Checked String :=
  if m.store.contains address = false then
    .ok (if address ∈ authorities then address else "")
  else m.firstAuthority address actionId authorities

/-- `authority_manager::set_record`. -/
def setRecord (m : AuthorityManager) (address authority : String) (record : AccountAuthorization) :
    Checked AuthorityManager :=
  match m.store[address]? with
  | none => .error (.logicError
      "authority_manager::set_record: false == m_pimpl->m_authority_store.contains(address)")
  | some auths =>
      if auths.contains authority then
        .ok ⟨m.store.insert address (auths.insert authority record)⟩
      else .error (.logicError
        "authority_manager::set_record: it_authority == auths.authorizations.end()")

def baseEntry (m : AuthorityManager) (address : String) : AccountAuthorizations :=
  m.store[address]?.getD ((∅ : AccountAuthorizations).insert address full)

/-- `authority_manager::smart_create_dummy_record`: afterwards the account has an
entry, and the authority a record in it. -/
def smartCreateDummyRecord (m : AuthorityManager) (address authority : String) :
    AuthorityManager :=
  if address ≠ authority then
    ⟨m.store.insert address ((m.baseEntry address).insertIfNew authority dummy)⟩
  else ⟨m.store.insert address (m.baseEntry address)⟩

/-- The first half of `smart_cleanup_dummy_record`: drop a record that permits nothing. -/
def cleanupAuthority (address authority : String) (auths : AccountAuthorizations) :
    Checked AccountAuthorizations :=
  if address ≠ authority then
    match auths[authority]? with
    | none => .error (.logicError
        "authority_manager::smart_cleanup_dummy_record: it_authority == auths.authorizations.end()")
    | some record => .ok (if record = dummy then auths.erase authority else auths)
  else .ok auths

/-- `authority_manager::smart_cleanup_dummy_record`. -/
def smartCleanupDummyRecord (m : AuthorityManager) (address authority : String) :
    Checked AuthorityManager :=
  match m.store[address]? with
  | none =>
      if address ≠ authority then .error (.logicError
        "authority_manager::smart_cleanup_dummy_record: false == m_pimpl->m_authority_store.contains(address)")
      else .ok m
  | some auths => do
      let auths ← cleanupAuthority address authority auths
      match auths[address]? with
      | none => .error (.logicError
          "authority_manager::smart_cleanup_dummy_record: it_address == auths.authorizations.end()")
      | some own =>
          if own = full ∧ auths.size = 1 then pure ⟨m.store.erase address⟩
          else pure ⟨m.store.insert address auths⟩

def usual (address authority : String) : AccountAuthorization :=
  if authority = address then full else dummy

def record (m : AuthorityManager) (address authority : String) : AccountAuthorization :=
  match m.store[address]? with
  | none => usual address authority
  | some auths => auths[authority]?.getD dummy

/-- An entry holds the account's own record, no record that permits nothing to
another, and not only the usual rights. -/
structure NormalEntry (address : String) (auths : AccountAuthorizations) : Prop where
  own : address ∈ auths
  noDummy : ∀ actor, actor ≠ address → auths[actor]? ≠ some dummy
  unusual : ∃ actor, auths[actor]?.getD dummy ≠ usual address actor

def Normal (m : AuthorityManager) : Prop :=
  ∀ address auths, m.store[address]? = some auths → NormalEntry address auths

theorem normal_empty : Normal default := by
  intro address auths h
  change (∅ : Std.ExtTreeMap String AccountAuthorizations)[address]? = some auths at h
  simp at h

/-- On a normal store `get_record` never throws. -/
theorem getRecord_eq {m : AuthorityManager} (normal : m.Normal) (address authority : String) :
    m.getRecord address authority = .ok (m.record address authority) := by
  unfold getRecord record
  cases h : m.store[address]? with
  | none => rfl
  | some auths =>
      have entry := normal address auths h
      cases ha : auths[authority]? with
      | some r => simp [ha]
      | none =>
          have hne : authority ≠ address := by
            rintro rfl
            have hown := Std.ExtTreeMap.mem_iff_isSome_getElem?.mp entry.own
            rw [ha] at hown
            cases hown
          simp [ha, hne]

theorem checkAuthority_eq {m : AuthorityManager} (normal : m.Normal)
    (address authority : String) (actionId : ℕ) :
    m.checkAuthority address authority actionId =
      .ok ((m.record address authority).permits actionId) := by
  rw [checkAuthority, getRecord_eq normal]
  rfl

/-- A table of one entry holds no other key. -/
theorem size_one_iff {auths : AccountAuthorizations} {address : String} (own : address ∈ auths) :
    auths.size = 1 ↔ ∀ actor, actor ≠ address → auths[actor]? = none := by
  have herase : (auths.erase address).size = auths.size - 1 := by
    rw [Std.ExtTreeMap.size_erase, if_pos (Std.ExtTreeMap.mem_iff_contains.mp own)]
  have hpos : auths.size ≠ 0 := by
    intro h
    rw [← Std.ExtTreeMap.eq_empty_iff_size_eq_zero] at h
    rw [h] at own
    simp at own
  have hrest : auths.size = 1 ↔ auths.erase address = ∅ := by
    rw [Std.ExtTreeMap.eq_empty_iff_size_eq_zero, herase]
    omega
  rw [hrest]
  constructor
  · intro h actor hne
    have hget : (auths.erase address)[actor]? = none := by simp [h]
    rw [Std.ExtTreeMap.getElem?_erase] at hget
    simpa [hne.symm] using hget
  · intro h
    apply Std.ExtTreeMap.ext_getElem?
    intro actor
    rw [Std.ExtTreeMap.getElem?_erase]
    by_cases heq : address = actor
    · simp [heq]
    · simp [heq, h actor (Ne.symm heq)]

theorem baseEntry_record (m : AuthorityManager) (address actor : String) :
    (m.baseEntry address)[actor]?.getD dummy = m.record address actor := by
  unfold baseEntry record
  cases m.store[address]? with
  | some auths => rfl
  | none =>
      by_cases h : address = actor
      · simp [usual, h]
      · simp [usual, h, Ne.symm h]

theorem baseEntry_own {m : AuthorityManager} (normal : m.Normal) (address : String) :
    address ∈ m.baseEntry address := by
  unfold baseEntry
  cases h : m.store[address]? with
  | some auths => exact (normal address auths h).own
  | none => simp

theorem baseEntry_noDummy {m : AuthorityManager} (normal : m.Normal) {address actor : String}
    (hne : actor ≠ address) : (m.baseEntry address)[actor]? ≠ some dummy := by
  unfold baseEntry
  cases h : m.store[address]? with
  | some auths => exact (normal address auths h).noDummy actor hne
  | none => simp [hne.symm]

/-- The records after one of them is rewritten and dropped if it permits nothing. -/
def rewriteEntry (address actor : String) (r : AccountAuthorization)
    (auths : AccountAuthorizations) : AccountAuthorizations :=
  if address ≠ actor ∧ r = dummy then auths.erase actor else auths.insert actor r

theorem rewriteEntry_getD (address actor : String) (r : AccountAuthorization)
    (auths : AccountAuthorizations) (b : String) :
    (rewriteEntry address actor r auths)[b]?.getD dummy =
      if actor = b then r else auths[b]?.getD dummy := by
  unfold rewriteEntry
  split
  · rename_i h
    rw [Std.ExtTreeMap.getElem?_erase]
    by_cases hb : actor = b
    · simp [hb, h.2]
    · simp [hb]
  · rw [Std.ExtTreeMap.getElem?_insert]
    by_cases hb : actor = b
    · simp [hb]
    · simp [hb]

theorem rewriteEntry_own {address actor : String} {r : AccountAuthorization}
    {auths : AccountAuthorizations} (own : address ∈ auths) :
    address ∈ rewriteEntry address actor r auths := by
  unfold rewriteEntry
  split
  · rename_i h
    simp [Std.ExtTreeMap.mem_erase, Ne.symm h.1, own]
  · simp [own]

theorem rewriteEntry_noDummy {address actor : String} {r : AccountAuthorization}
    {auths : AccountAuthorizations}
    (noDummy : ∀ b, b ≠ address → auths[b]? ≠ some dummy) {b : String} (hb : b ≠ address) :
    (rewriteEntry address actor r auths)[b]? ≠ some dummy := by
  unfold rewriteEntry
  split
  · rw [Std.ExtTreeMap.getElem?_erase]
    split
    · simp
    · exact noDummy b hb
  · rename_i h
    rw [Std.ExtTreeMap.getElem?_insert]
    split
    · rename_i heq
      have heq' : actor = b := by simpa using heq
      intro hr
      exact h ⟨fun h2 => hb (heq'.symm.trans h2.symm), Option.some.inj hr⟩
    · exact noDummy b hb

/-- Store the records of an account, unless they are the usual ones. -/
def settle (m : AuthorityManager) (address : String) (auths : AccountAuthorizations) :
    AuthorityManager :=
  if auths[address]? = some full ∧ auths.size = 1 then ⟨m.store.erase address⟩
  else ⟨m.store.insert address auths⟩

theorem settle_record {m : AuthorityManager} {address : String} {auths : AccountAuthorizations}
    (own : address ∈ auths) (a b : String) :
    (m.settle address auths).record a b =
      if a = address then auths[b]?.getD dummy else m.record a b := by
  unfold settle
  split
  · rename_i h
    by_cases ha : address = a
    · subst ha
      simp only [record, Std.ExtTreeMap.getElem?_erase_self, if_true]
      by_cases hb : b = address
      · rw [hb, h.1]
        simp [usual]
      · rw [(size_one_iff own).mp h.2 b hb]
        simp [usual, hb]
    · simp [record, Std.ExtTreeMap.getElem?_erase, ha, Ne.symm ha]
  · by_cases ha : address = a
    · simp [record, ha]
    · simp [record, Std.ExtTreeMap.getElem?_insert, ha, Ne.symm ha]

theorem settle_normal {m : AuthorityManager} (normal : m.Normal) {address : String}
    {auths : AccountAuthorizations} (own : address ∈ auths)
    (noDummy : ∀ b, b ≠ address → auths[b]? ≠ some dummy) : (m.settle address auths).Normal := by
  intro a entries hstore
  unfold settle at hstore
  split at hstore
  · rw [Std.ExtTreeMap.getElem?_erase] at hstore
    split at hstore
    · cases hstore
    · exact normal a entries hstore
  · rename_i h
    rw [Std.ExtTreeMap.getElem?_insert] at hstore
    split at hstore
    · rename_i heq
      have ha : address = a := by simpa using heq
      cases hstore
      subst ha
      refine ⟨own, noDummy, ?_⟩
      by_contra hall
      simp only [not_exists, not_not] at hall
      -- an entry of the usual rights only is never settled
      apply h
      constructor
      · have hown := hall address
        rw [@Std.ExtTreeMap.getElem?_eq_some_getD _ _ _ _ _ _ dummy own]
        rw [← Std.ExtTreeMap.getD_eq_getD_getElem?] at hown
        rw [hown]
        simp [usual]
      · rw [size_one_iff own]
        intro b hb
        have hus := hall b
        rw [usual, if_neg hb] at hus
        cases hget : auths[b]? with
        | none => rfl
        | some r =>
            rw [hget] at hus
            exact absurd (hget.trans (congrArg some hus)) (noDummy b hb)
    · exact normal a entries hstore

/-- `get_record` after a record was made sure of reads what the store expressed. -/
theorem getRecord_smartCreate {m : AuthorityManager} (normal : m.Normal) (owner actor : String) :
    (m.smartCreateDummyRecord owner actor).getRecord owner actor = .ok (m.record owner actor) := by
  have hbase := baseEntry_record m owner actor
  by_cases h : owner = actor
  · subst h
    have hown := baseEntry_own normal owner
    have hget := @Std.ExtTreeMap.getElem?_eq_some_getD _ _ _ _ _ _ dummy hown
    rw [← Std.ExtTreeMap.getD_eq_getD_getElem?] at hbase
    simp only [smartCreateDummyRecord, ne_eq, not_true, if_false, getRecord,
      Std.ExtTreeMap.getElem?_insert_self]
    rw [hget, hbase]
  · simp only [smartCreateDummyRecord, ne_eq, h, not_false_eq_true, if_true, getRecord,
      Std.ExtTreeMap.getElem?_insert_self, Std.ExtTreeMap.getElem?_insertIfNew]
    cases hget : (m.baseEntry owner)[actor]? with
    | none =>
        rw [hget] at hbase
        have hmem : actor ∉ m.baseEntry owner := by
          rw [Std.ExtTreeMap.mem_iff_isSome_getElem?, hget]
          simp
        simp [← hbase, hmem]
    | some r =>
        rw [hget] at hbase
        have hmem : actor ∈ m.baseEntry owner := by
          rw [Std.ExtTreeMap.mem_iff_isSome_getElem?, hget]
          rfl
        simp [hmem, ← hbase]

theorem setRecord_smartCreate {m : AuthorityManager} (normal : m.Normal) (owner actor : String)
    (r : AccountAuthorization) :
    (m.smartCreateDummyRecord owner actor).setRecord owner actor r =
      .ok ⟨m.store.insert owner ((m.baseEntry owner).insert actor r)⟩ := by
  by_cases h : owner = actor
  · subst h
    have hown := Std.ExtTreeMap.mem_iff_contains.mp (baseEntry_own normal owner)
    simp only [smartCreateDummyRecord, ne_eq, not_true, if_false, setRecord,
      Std.ExtTreeMap.getElem?_insert_self]
    rw [if_pos (show _ = true from hown)]
    congr 2
    apply Std.ExtTreeMap.ext_getElem?
    intro k
    simp only [Std.ExtTreeMap.getElem?_insert]
    split <;> rfl
  · simp only [smartCreateDummyRecord, ne_eq, h, not_false_eq_true, if_true, setRecord,
      Std.ExtTreeMap.getElem?_insert_self]
    rw [if_pos (by simp)]
    congr 2
    apply Std.ExtTreeMap.ext_getElem?
    intro k
    simp only [Std.ExtTreeMap.getElem?_insert]
    split
    · congr 1
      apply Std.ExtTreeMap.ext_getElem?
      intro a
      simp only [Std.ExtTreeMap.getElem?_insert, Std.ExtTreeMap.getElem?_insertIfNew]
      by_cases ha : actor = a
      · simp [ha]
      · simp [ha]
    · rfl

theorem cleanup_settle {m : AuthorityManager} {owner actor : String} {r : AccountAuthorization}
    (own : owner ∈ rewriteEntry owner actor r (m.baseEntry owner)) :
    (⟨m.store.insert owner ((m.baseEntry owner).insert actor r)⟩ :
      AuthorityManager).smartCleanupDummyRecord owner actor =
      .ok (m.settle owner (rewriteEntry owner actor r (m.baseEntry owner))) := by
  have hclean : cleanupAuthority owner actor ((m.baseEntry owner).insert actor r) =
      .ok (rewriteEntry owner actor r (m.baseEntry owner)) := by
    unfold cleanupAuthority rewriteEntry
    by_cases h : owner = actor
    · simp [h]
    · by_cases hr : r = dummy
      · simp only [ne_eq, h, not_false_eq_true, if_true, Std.ExtTreeMap.getElem?_insert_self, hr,
          and_self]
        congr 1
        apply Std.ExtTreeMap.ext_getElem?
        intro a
        simp only [Std.ExtTreeMap.getElem?_erase, Std.ExtTreeMap.getElem?_insert]
        split <;> rfl
      · simp [h, hr]
  have hget := @Std.ExtTreeMap.getElem?_eq_some_getD _ _ _ _ _ _ dummy own
  simp only [smartCleanupDummyRecord, Std.ExtTreeMap.getElem?_insert_self, hclean, ok_bind, hget,
    settle, Option.some.injEq]
  split
  · refine congrArg Except.ok (congrArg mk (Std.ExtTreeMap.ext_getElem? fun k => ?_))
    simp only [Std.ExtTreeMap.getElem?_erase, Std.ExtTreeMap.getElem?_insert]
    split <;> rfl
  · refine congrArg Except.ok (congrArg mk (Std.ExtTreeMap.ext_getElem? fun k => ?_))
    simp only [Std.ExtTreeMap.getElem?_insert]
    split <;> rfl

theorem rewrite_record {m : AuthorityManager} (normal : m.Normal) (owner actor : String)
    (r : AccountAuthorization) :
    ∃ m₁ m₂, (m.smartCreateDummyRecord owner actor).setRecord owner actor r = .ok m₁ ∧
      m₁.smartCleanupDummyRecord owner actor = .ok m₂ ∧ m₂.Normal ∧
      ∀ a b, m₂.record a b = if a = owner ∧ b = actor then r else m.record a b := by
  have own : owner ∈ m.baseEntry owner := baseEntry_own normal owner
  have own' : owner ∈ rewriteEntry owner actor r (m.baseEntry owner) := rewriteEntry_own own
  have noDummy : ∀ b, b ≠ owner →
      (rewriteEntry owner actor r (m.baseEntry owner))[b]? ≠ some dummy :=
    fun b hb => rewriteEntry_noDummy (fun b hb => baseEntry_noDummy normal hb) hb
  refine ⟨⟨m.store.insert owner ((m.baseEntry owner).insert actor r)⟩,
    m.settle owner (rewriteEntry owner actor r (m.baseEntry owner)), ?_, ?_,
    settle_normal normal own' noDummy, ?_⟩
  · exact setRecord_smartCreate normal owner actor r
  · exact cleanup_settle own' 
  · intro a b
    rw [settle_record own', rewriteEntry_getD, baseEntry_record]
    by_cases ha : a = owner
    · subst ha
      by_cases hb : actor = b
      · simp [hb]
      · simp [hb, Ne.symm hb]
    · simp [ha]

end AuthorityManager
end Publiq
