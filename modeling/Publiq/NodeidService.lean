import Mathlib.Data.Int.Notation
import Mathlib.Data.List.Count
import Mathlib.Data.List.Nodup
import Mathlib.Tactic.Common

/-! `nodeid_service.cpp`, the addresses under which nodes are said to be found, and the
sessions of `sessions.cpp` that ask these addresses for a signature. -/
namespace Publiq

/-- `nodeid_address_unit::verified_type`. -/
inductive VerifiedType where
  | never
  | past
  | current
  deriving DecidableEq

/-- `nodeid_address_unit`, with the address a type of its own. -/
structure NodeidAddressUnit (A B : Type*) where
  nodeAddress : String
  address : A
  sslAddress : A
  action : Option B
  verified : VerifiedType
  checkedTimePoint : ℤ
  deriving DecidableEq

/-- The key of the unique index `by_nodeid_and_address`. -/
def NodeidAddressUnit.key {A B : Type*} (unit : NodeidAddressUnit A B) : String × A :=
  (unit.nodeAddress, unit.address)

/-- `nodeid_service`: a container with a unique key. -/
structure NodeidService (A B : Type*) where
  nodeids : List (NodeidAddressUnit A B)
  unique : (nodeids.map NodeidAddressUnit.key).Nodup
  deriving DecidableEq

variable {A B : Type*}

namespace NodeidService

instance : Inhabited (NodeidService A B) := ⟨⟨[], .nil⟩⟩

/-- The units of a node. They are adjacent in the index `by_nodeid`. -/
def group (s : NodeidService A B) (nodeAddress : String) : List (NodeidAddressUnit A B) :=
  s.nodeids.filter fun unit => unit.nodeAddress = nodeAddress

/-- `multi_index_container::erase`, of all units that have a property. -/
def erase (s : NodeidService A B) (p : NodeidAddressUnit A B → Bool) : NodeidService A B where
  nodeids := s.nodeids.filter fun unit => !p unit
  unique := s.unique.sublist (List.filter_sublist.map _)

/-- `multi_index_container::modify`, of all units, by a change that leaves the keys alone. -/
def modify (s : NodeidService A B) (f : NodeidAddressUnit A B → NodeidAddressUnit A B)
    (keeps : ∀ unit, (f unit).key = unit.key) : NodeidService A B where
  nodeids := s.nodeids.map f
  unique := by
    rw [List.map_map]
    have hsame : NodeidAddressUnit.key ∘ f = NodeidAddressUnit.key := funext keeps
    rw [hsame]
    exact s.unique

/-- The loop of `take_actions`: the first action of each node is taken. -/
def takeFirst (nodeids : List (NodeidAddressUnit A B)) (prevNodeAddresses : List String) :
    List (String × A × B) × List (NodeidAddressUnit A B) :=
  match nodeids with
  | [] => ([], [])
  | unit :: rest =>
      match unit.action with
      | some action =>
          if unit.nodeAddress ∈ prevNodeAddresses then
            let (taken, rest) := takeFirst rest prevNodeAddresses
            (taken, unit :: rest)
          else
            let (taken, rest) := takeFirst rest (unit.nodeAddress :: prevNodeAddresses)
            ((unit.nodeAddress, unit.address, action) :: taken,
              { unit with action := none } :: rest)
      | none =>
          let (taken, rest) := takeFirst rest prevNodeAddresses
          (taken, unit :: rest)

theorem takeFirst_keeps {γ : Type*} {f : NodeidAddressUnit A B → γ}
    (keeps : ∀ unit, f { unit with action := none } = f unit)
    (nodeids : List (NodeidAddressUnit A B)) (prevNodeAddresses : List String) :
    (takeFirst nodeids prevNodeAddresses).2.map f = nodeids.map f := by
  induction nodeids generalizing prevNodeAddresses with
  | nil => rfl
  | cons unit rest ih =>
      rw [takeFirst]
      cases unit.action with
      | none => simp [ih]
      | some action =>
          dsimp only
          split_ifs
          · simp [ih]
          · simp [ih, keeps]

/-- `nodeid_service::take_actions`: the actions for the callback, and what is left. -/
def takeActions (s : NodeidService A B) : List (String × A × B) × NodeidService A B :=
  ((takeFirst s.nodeids []).1, {
    nodeids := (takeFirst s.nodeids []).2
    unique := by
      rw [takeFirst_keeps fun _ => rfl]
      exact s.unique })

section
variable [DecidableEq A]

/-- `multi_index_container::insert`, which a unit of the same key prevents. -/
def insert (s : NodeidService A B) (unit : NodeidAddressUnit A B) : NodeidService A B :=
  if h : unit.key ∈ s.nodeids.map NodeidAddressUnit.key then s
  else
    { nodeids := s.nodeids ++ [unit]
      unique := by
        rw [List.map_append, List.nodup_append]
        refine ⟨s.unique, List.nodup_singleton _, ?_⟩
        rintro a ha b hb rfl
        cases List.mem_singleton.mp hb
        exact h ha }

def modifyAt (s : NodeidService A B) (key : String × A)
    (f : NodeidAddressUnit A B → NodeidAddressUnit A B)
    (keeps : ∀ unit, (f unit).key = unit.key) : NodeidService A B :=
  s.modify (fun unit => if unit.key = key then f unit else unit) fun unit => by
    split_ifs
    · exact keeps unit
    · rfl

/-- `nodeid_service::add`. -/
def add (s : NodeidService A B) (nodeAddress : String) (address sslAddress : A) (action : B) :
    NodeidService A B :=
  match (s.group nodeAddress).head? with
  | some ⟨_, _, _, _, .current, _⟩ => s
  | _ =>
    (s.insert ⟨nodeAddress, address, sslAddress, none, .never, 0⟩).modifyAt (nodeAddress, address)
      (fun unit => { unit with action := some action, sslAddress }) fun _ => rfl

/-- The loop of `keep_successful`: the other addresses of the node go, and the one that
answered is verified or no longer verified. -/
def keepLoop (s : NodeidService A B) (nodeAddress : String) (address : A) (verified : Bool) :
    NodeidService A B :=
  (s.erase fun unit => unit.nodeAddress = nodeAddress && unit.address ≠ address).modifyAt
    (nodeAddress, address)
    (fun unit => { unit with verified := if verified then .current else .past }) fun _ => rfl

/-- `nodeid_service::keep_successful`, with what it leaves behind when it throws. -/
def keepSuccessful (s : NodeidService A B) (now : ℤ) (nodeAddress : String) (address : A)
    (verified : Bool) : NodeidService A B × Except String Unit :=
  match (s.group nodeAddress).head? with
  | none => (s, .error "nodeid_service::keep_successful cannot find the expected nodeid")
  | some _ =>
      let erasedCount := (s.group nodeAddress).countP fun unit => unit.address ≠ address
      let keptCount := (s.group nodeAddress).countP fun unit => unit.address = address
      let s := s.keepLoop nodeAddress address verified
      if keptCount ≠ 1 then (s, .error "nodeid_service keep_successful()")
      else if verified = false ∧ erasedCount ≠ 0 then
        (s, .error "nodeid_service keep_successful(false)")
      else
        match (s.group nodeAddress).head? with
        | none => (s, .error "this is not possible")
        | some unit =>
            (s.modifyAt unit.key (fun unit => { unit with checkedTimePoint := now }) fun _ => rfl,
              .ok ())

/-- `nodeid_service::erase_failed`. -/
def eraseFailed (s : NodeidService A B) (nodeAddress : String) (address : A) :
    NodeidService A B × Except String Unit :=
  match (s.group nodeAddress).head? with
  | none => (s, .error "nodeid_service::erase_failed cannot find the expected entry")
  | some _ =>
      (s.erase fun unit => unit.nodeAddress = nodeAddress && unit.address = address, .ok ())

end

def Registered (s : NodeidService A B) (nodeAddress : String) (address : A) : Prop :=
  (nodeAddress, address) ∈ s.nodeids.map NodeidAddressUnit.key

/-- A node that is verified now has no other address. -/
def OnlyCurrent (s : NodeidService A B) : Prop :=
  ∀ unit ∈ s.nodeids, unit.verified = .current →
    ∀ other ∈ s.nodeids, other.nodeAddress = unit.nodeAddress → other.address = unit.address

def addresses (s : NodeidService A B) (nodeAddress : String) : List A :=
  (s.group nodeAddress).map NodeidAddressUnit.address

theorem mem_group {s : NodeidService A B} {nodeAddress : String} {unit : NodeidAddressUnit A B} :
    unit ∈ s.group nodeAddress ↔ unit ∈ s.nodeids ∧ unit.nodeAddress = nodeAddress := by
  rw [group, List.mem_filter, decide_eq_true_eq]

theorem registered_iff {s : NodeidService A B} {nodeAddress : String} {address : A} :
    s.Registered nodeAddress address ↔ address ∈ s.addresses nodeAddress := by
  rw [Registered, addresses, List.mem_map, List.mem_map]
  constructor
  · rintro ⟨unit, hunit, hkey⟩
    cases hkey
    exact ⟨unit, mem_group.mpr ⟨hunit, rfl⟩, rfl⟩
  · rintro ⟨unit, hunit, rfl⟩
    obtain ⟨hstored, rfl⟩ := mem_group.mp hunit
    exact ⟨unit, hstored, rfl⟩

theorem eq_of_key {s : NodeidService A B} {a b : NodeidAddressUnit A B} (ha : a ∈ s.nodeids)
    (hb : b ∈ s.nodeids) (h : a.key = b.key) : a = b :=
  List.inj_on_of_nodup_map s.unique ha hb h

theorem head?_group_eq_none {s : NodeidService A B} {nodeAddress : String} :
    (s.group nodeAddress).head? = none ↔ s.addresses nodeAddress = [] := by
  rw [List.head?_eq_none_iff, addresses, List.map_eq_nil_iff]

theorem nodup_addresses (s : NodeidService A B) (nodeAddress : String) :
    (s.addresses nodeAddress).Nodup := by
  have hkeys := s.unique.sublist ((List.filter_sublist (l := s.nodeids)
    (p := fun unit => unit.nodeAddress = nodeAddress)).map NodeidAddressUnit.key)
  have hpairs : (s.group nodeAddress).map NodeidAddressUnit.key =
      (s.addresses nodeAddress).map (Prod.mk nodeAddress) := by
    rw [addresses, List.map_map]
    apply List.map_congr_left
    intro unit hunit
    rw [NodeidAddressUnit.key, (mem_group.mp hunit).2]
    rfl
  change ((s.group nodeAddress).map NodeidAddressUnit.key).Nodup at hkeys
  rw [hpairs] at hkeys
  exact hkeys.of_map _

/-- A step keeps `OnlyCurrent` when it verifies nothing and adds nothing. -/
theorem OnlyCurrent.of_back {s after : NodeidService A B} (h : s.OnlyCurrent)
    (back : ∀ unit ∈ after.nodeids, ∃ before ∈ s.nodeids,
      before.key = unit.key ∧ (unit.verified = .current → before.verified = .current)) :
    after.OnlyCurrent := by
  intro unit hunit hcurrent other hother hnode
  obtain ⟨x, hx, hxkey, hxverified⟩ := back unit hunit
  obtain ⟨y, hy, hykey, _⟩ := back other hother
  obtain ⟨hxnode, hxaddress⟩ := Prod.mk.inj hxkey
  obtain ⟨hynode, hyaddress⟩ := Prod.mk.inj hykey
  rw [← hxaddress, ← hyaddress]
  apply h x hx (hxverified hcurrent) y hy
  rw [hynode, hxnode, hnode]

theorem OnlyCurrent.erase {s : NodeidService A B} (h : s.OnlyCurrent)
    (p : NodeidAddressUnit A B → Bool) : (s.erase p).OnlyCurrent := by
  apply h.of_back
  intro unit hunit
  exact ⟨unit, List.mem_of_mem_filter hunit, rfl, id⟩

theorem OnlyCurrent.takeActions {s : NodeidService A B} (h : s.OnlyCurrent) :
    s.takeActions.2.OnlyCurrent := by
  apply h.of_back
  intro unit hunit
  have hsame := @takeFirst_keeps A B _
    (fun unit => (unit.key, unit.verified)) (fun _ => rfl) s.nodeids []
  have hmem : (unit.key, unit.verified) ∈
      (takeFirst s.nodeids []).2.map fun unit => (unit.key, unit.verified) :=
    List.mem_map_of_mem hunit
  rw [hsame] at hmem
  obtain ⟨before, hbefore, heq⟩ := List.mem_map.mp hmem
  obtain ⟨hkey, hverified⟩ := Prod.mk.inj heq
  exact ⟨before, hbefore, hkey, hverified.trans⟩

section
variable [DecidableEq A]

theorem OnlyCurrent.modifyAt {s : NodeidService A B} (h : s.OnlyCurrent)
    {key : String × A} {f : NodeidAddressUnit A B → NodeidAddressUnit A B}
    (keeps : ∀ unit, (f unit).key = unit.key)
    (same : ∀ unit, (f unit).verified = unit.verified) :
    (s.modifyAt key f keeps).OnlyCurrent := by
  apply h.of_back
  intro unit hunit
  obtain ⟨before, hbefore, rfl⟩ := List.mem_map.mp hunit
  refine ⟨before, hbefore, ?_⟩
  split_ifs
  · exact ⟨(keeps before).symm, (same before).symm.trans⟩
  · exact ⟨rfl, id⟩

/-- A change of the only unit of a node. -/
theorem OnlyCurrent.modifyAt_alone {s : NodeidService A B} (h : s.OnlyCurrent)
    {key : String × A} {f : NodeidAddressUnit A B → NodeidAddressUnit A B}
    {keeps : ∀ unit, (f unit).key = unit.key}
    (alone : ∀ unit ∈ s.nodeids, unit.nodeAddress = key.1 → unit.address = key.2) :
    (s.modifyAt key f keeps).OnlyCurrent := by
  have hback : ∀ unit ∈ (s.modifyAt key f keeps).nodeids, ∃ before ∈ s.nodeids,
      before.key = unit.key ∧ (before.key = key ∨ before = unit) := by
    intro unit hunit
    obtain ⟨before, hbefore, rfl⟩ := List.mem_map.mp hunit
    refine ⟨before, hbefore, ?_⟩
    split_ifs with hkey
    · exact ⟨(keeps before).symm, .inl hkey⟩
    · exact ⟨rfl, .inr rfl⟩
  intro unit hunit hcurrent other hother hnode
  obtain ⟨x, hx, hxkey, hcase⟩ := hback unit hunit
  obtain ⟨y, hy, hykey, _⟩ := hback other hother
  obtain ⟨hxnode, hxaddress⟩ := Prod.mk.inj hxkey
  obtain ⟨hynode, hyaddress⟩ := Prod.mk.inj hykey
  have hsame : y.nodeAddress = x.nodeAddress := by rw [hynode, hxnode, hnode]
  rw [← hxaddress, ← hyaddress]
  rcases hcase with rfl | rfl
  · exact alone y hy hsame
  · exact h x hx hcurrent y hy hsame

theorem OnlyCurrent.add {s : NodeidService A B} (h : s.OnlyCurrent) (nodeAddress : String)
    (address sslAddress : A) (action : B) :
    (s.add nodeAddress address sslAddress action).OnlyCurrent := by
  unfold NodeidService.add
  split
  · exact h
  · rename_i hfirst
    have hinsert : (s.insert ⟨nodeAddress, address, sslAddress, none, .never, 0⟩).OnlyCurrent := by
      unfold NodeidService.insert
      split_ifs
      · exact h
      · intro unit hunit hcurrent other hother hnode
        rcases List.mem_append.mp hunit with hunit | hunit
        · rcases List.mem_append.mp hother with hother | hother
          · exact h unit hunit hcurrent other hother hnode
          · cases List.mem_singleton.mp hother
            -- a unit that is verified now would have been the first of its group
            exfalso
            have hmem := mem_group.mpr ⟨hunit, hnode.symm⟩
            cases hgroup : s.group nodeAddress with
            | nil =>
                rw [hgroup] at hmem
                cases hmem
            | cons first rest =>
                have hhead : first ∈ s.group nodeAddress := by
                  rw [hgroup]
                  exact List.mem_cons_self
                obtain ⟨hstored, hfirstNode⟩ := mem_group.mp hhead
                have hsame : first.nodeAddress = unit.nodeAddress := hfirstNode.trans hnode
                have haddress := h unit hunit hcurrent first hstored hsame
                cases eq_of_key hstored hunit (Prod.ext hsame haddress)
                cases unit
                cases hcurrent
                exact hfirst _ _ _ _ _ (by rw [hgroup, List.head?_cons])
        · cases List.mem_singleton.mp hunit
          cases hcurrent
    apply OnlyCurrent.modifyAt hinsert
    intro unit
    rfl

/-- What `keep_successful` does to the container, whether it throws or not. -/
theorem OnlyCurrent.keepSuccessful {s : NodeidService A B} (h : s.OnlyCurrent) (now : ℤ)
    (nodeAddress : String) (address : A) (verified : Bool) :
    (s.keepSuccessful now nodeAddress address verified).1.OnlyCurrent := by
  unfold NodeidService.keepSuccessful
  cases (s.group nodeAddress).head? with
  | none => exact h
  | some _ =>
      have hkept : (s.keepLoop nodeAddress address verified).OnlyCurrent := by
        apply (h.erase _).modifyAt_alone
        intro unit hunit hnode
        have hnot := List.of_mem_filter hunit
        simpa [hnode] using hnot
      dsimp only
      split_ifs
      · exact hkept
      · exact hkept
      · split
        · exact hkept
        · apply OnlyCurrent.modifyAt hkept <;> intro unit <;> rfl

theorem OnlyCurrent.eraseFailed {s : NodeidService A B} (h : s.OnlyCurrent)
    (nodeAddress : String) (address : A) :
    (s.eraseFailed nodeAddress address).1.OnlyCurrent := by
  unfold NodeidService.eraseFailed
  cases (s.group nodeAddress).head? with
  | none => exact h
  | some _ => exact h.erase _

/-- `erase_failed` finds some entry of the node, or throws. -/
theorem eraseFailed_isOk {s : NodeidService A B} {nodeAddress : String} {address : A} :
    (s.eraseFailed nodeAddress address).2 = .ok () ↔ s.addresses nodeAddress ≠ [] := by
  unfold eraseFailed
  cases hhead : (s.group nodeAddress).head? with
  | none => simp [head?_group_eq_none.mp hhead]
  | some unit =>
      have hsome : s.addresses nodeAddress ≠ [] := by
        rw [ne_eq, ← head?_group_eq_none, hhead]
        simp
      simp [hsome]

theorem countP_kept {s : NodeidService A B} {nodeAddress : String} {address : A} :
    (s.group nodeAddress).countP (fun unit => unit.address = address) =
      (s.addresses nodeAddress).count address := by
  rw [addresses, List.count, List.countP_map]
  congr 1

theorem countP_erased {s : NodeidService A B} {nodeAddress : String} {address : A} :
    (s.group nodeAddress).countP (fun unit => unit.address ≠ address) = 0 ↔
      ∀ other ∈ s.addresses nodeAddress, other = address := by
  simp [List.countP_eq_zero, addresses]

theorem addresses_modifyAt (s : NodeidService A B) (key : String × A)
    (f : NodeidAddressUnit A B → NodeidAddressUnit A B)
    (keeps : ∀ unit, (f unit).key = unit.key) (nodeAddress : String) :
    (s.modifyAt key f keeps).addresses nodeAddress = s.addresses nodeAddress := by
  have hkeys (unit : NodeidAddressUnit A B) :
      (if unit.key = key then f unit else unit).key = unit.key := by
    split_ifs
    · exact keeps unit
    · rfl
  change ((s.nodeids.map fun unit => if unit.key = key then f unit else unit).filter
    fun unit => unit.nodeAddress = nodeAddress).map NodeidAddressUnit.address =
      (s.nodeids.filter fun unit => unit.nodeAddress = nodeAddress).map NodeidAddressUnit.address
  induction s.nodeids with
  | nil => rfl
  | cons unit rest ih =>
      obtain ⟨hnode, haddress⟩ := Prod.mk.inj (hkeys unit)
      simp only [List.map_cons, List.filter_cons, hnode]
      split_ifs <;> simp_all

/-- The addresses that `keep_successful` keeps. -/
theorem addresses_keepLoop {s : NodeidService A B} {nodeAddress : String} {address : A}
    {verified : Bool} : (s.keepLoop nodeAddress address verified).addresses nodeAddress =
      (s.addresses nodeAddress).filter (· = address) := by
  refine (addresses_modifyAt _ _ _ _ nodeAddress).trans ?_
  unfold addresses group NodeidService.erase
  rw [List.filter_filter, List.filter_map, List.filter_filter]
  congr 1
  apply List.filter_congr
  intro unit _
  by_cases hnode : unit.nodeAddress = nodeAddress
  · simp [hnode]
  · simp [hnode]

theorem addresses_keepLoop_of_count {s : NodeidService A B} {nodeAddress : String} {address : A}
    {verified : Bool} (h : (s.addresses nodeAddress).count address = 1) :
    (s.keepLoop nodeAddress address verified).addresses nodeAddress = [address] := by
  rw [addresses_keepLoop, List.filter_eq, h]
  rfl

/-- When `keep_successful` does not throw, and what is kept then. -/
theorem keepSuccessful_isOk {s : NodeidService A B} {now : ℤ} {nodeAddress : String}
    {address : A} {verified : Bool} :
    (s.keepSuccessful now nodeAddress address verified).2 = .ok () ↔
      (s.addresses nodeAddress).count address = 1 ∧
        (verified = false → ∀ other ∈ s.addresses nodeAddress, other = address) := by
  unfold keepSuccessful
  cases hhead : (s.group nodeAddress).head? with
  | none => simp [head?_group_eq_none.mp hhead]
  | some first =>
      dsimp only
      rw [countP_kept]
      by_cases hcount : (s.addresses nodeAddress).count address = 1
      · have hkept : (s.keepLoop nodeAddress address verified).addresses nodeAddress =
            [address] := addresses_keepLoop_of_count hcount
        rw [if_neg (not_not.mpr hcount)]
        by_cases hothers : verified = false ∧
            (s.group nodeAddress).countP (fun unit => unit.address ≠ address) ≠ 0
        · rw [if_pos hothers, ← countP_erased]
          constructor
          · intro herror
            cases herror
          · rintro ⟨_, hnone⟩
            exact absurd (hnone hothers.1) hothers.2
        · rw [if_neg hothers, ← countP_erased]
          cases hafter : ((s.keepLoop nodeAddress address verified).group nodeAddress).head? with
          | none =>
              rw [head?_group_eq_none.mp hafter] at hkept
              cases hkept
          | some unit =>
              have hclear : verified = false →
                  (s.group nodeAddress).countP (fun unit => unit.address ≠ address) = 0 :=
                fun hverified => by_contra fun hne => hothers ⟨hverified, hne⟩
              exact ⟨fun _ => ⟨hcount, hclear⟩, fun _ => rfl⟩
      · rw [if_pos hcount]
        simp [hcount]

theorem count_eq_one_iff {s : NodeidService A B} {nodeAddress : String} {address : A} :
    (s.addresses nodeAddress).count address = 1 ↔ s.Registered nodeAddress address := by
  rw [registered_iff]
  constructor
  · intro hcount
    exact List.count_pos_iff.mp (by rw [hcount]; exact Nat.one_pos)
  · exact List.count_eq_one_of_mem (s.nodup_addresses nodeAddress)

/-- `keep_successful` of an address that answered finds its entry, or throws. -/
theorem keepSuccessful_true_isOk {s : NodeidService A B} {now : ℤ} {nodeAddress : String}
    {address : A} : (s.keepSuccessful now nodeAddress address true).2 = .ok () ↔
      s.Registered nodeAddress address := by
  rw [keepSuccessful_isOk, count_eq_one_iff]
  simp

/-- `keep_successful` of an address that is no longer verified finds its entry and no other
one, or throws. -/
theorem keepSuccessful_false_isOk {s : NodeidService A B} {now : ℤ} {nodeAddress : String}
    {address : A} : (s.keepSuccessful now nodeAddress address false).2 = .ok () ↔
      s.addresses nodeAddress = [address] := by
  rw [keepSuccessful_isOk]
  constructor
  · rintro ⟨hcount, honly⟩
    rw [List.eq_replicate_of_mem (honly rfl)] at hcount ⊢
    rw [List.count_replicate_self] at hcount
    rw [hcount]
    rfl
  · intro haddresses
    rw [haddresses]
    simp

/-- Of a node whose address answered no other address is kept. -/
theorem addresses_keepSuccessful {s : NodeidService A B} {now : ℤ} {nodeAddress : String}
    {address : A} {verified : Bool}
    (h : (s.keepSuccessful now nodeAddress address verified).2 = .ok ()) :
    (s.keepSuccessful now nodeAddress address verified).1.addresses nodeAddress = [address] := by
  have hkept := @addresses_keepLoop_of_count _ _ _ _ _ _ verified (keepSuccessful_isOk.mp h).1
  unfold keepSuccessful at h ⊢
  cases hhead : (s.group nodeAddress).head? with
  | none =>
      rw [hhead] at h
      cases h
  | some first =>
      simp only [hhead] at h
      dsimp only
      split_ifs at h ⊢
      split
      · exact hkept
      · refine Eq.trans ?_ hkept
        apply addresses_modifyAt
        exact fun _ => rfl

end

end NodeidService

/-- `session_action_signatures`. -/
structure SessionActionSignatures (A : Type*) where
  nodeid : String
  address : A
  needToRevertKeepSuccessful : Bool
  /-- `expected_next_package_type` is `Pong::rtt`. -/
  expected : Bool
  deriving DecidableEq

/-- The registry with the sessions that check its addresses, and what they threw. -/
structure AddressChecks (A B : Type*) where
  service : NodeidService A B
  sessions : List (SessionActionSignatures A)
  thrown : List String
  deriving DecidableEq

/-- What happens to the registry. A pong is what the socket delivers; whether it is valid is
up to its stamp, its node and its signature. -/
inductive CheckEvent (A B : Type*) where
  | add (nodeAddress : String) (address sslAddress : A) (action : B)
  | takeActions
  | initiate (nodeAddress : String) (address : A)
  | pong (index : ℕ) (valid : Bool) (now : ℤ)
  | destroy (index : ℕ) (now : ℤ)

namespace AddressChecks

def called (c : AddressChecks A B) (outcome : NodeidService A B × Except String Unit) :
    AddressChecks A B :=
  match outcome with
  | (service, .ok ()) => { c with service }
  | (service, .error e) => { c with service, thrown := c.thrown ++ [e] }

theorem called_service (c : AddressChecks A B)
    (outcome : NodeidService A B × Except String Unit) :
    (c.called outcome).service = outcome.1 := by
  obtain ⟨service, _ | _⟩ := outcome <;> rfl

theorem called_thrown {c : AddressChecks A B}
    {outcome : NodeidService A B × Except String Unit} :
    (c.called outcome).thrown = c.thrown ↔ outcome.2 = .ok () := by
  obtain ⟨service, e | u⟩ := outcome
  · simp [called]
  · simp [called]

variable [DecidableEq A]

def start : AddressChecks A B := ⟨default, [], []⟩

/-- `session_action_signatures::process`. A session whose call throws still expects. -/
def process (c : AddressChecks A B) (index : ℕ) (valid : Bool) (now : ℤ) : AddressChecks A B :=
  match c.sessions[index]? with
  | none => c
  | some session =>
      if session.expected then
        let outcome :=
          if valid then c.service.keepSuccessful now session.nodeid session.address true
          else c.service.eraseFailed session.nodeid session.address
        let sessions := c.sessions.set index
          { session with needToRevertKeepSuccessful := valid, expected := false }
        if outcome.2.isOk then { c.called outcome with sessions } else c.called outcome
      else c

/-- `~session_action_signatures`. -/
def destroy (c : AddressChecks A B) (index : ℕ) (now : ℤ) : AddressChecks A B :=
  match c.sessions[index]? with
  | none => c
  | some session =>
      let c := { c with sessions := c.sessions.eraseIdx index }
      if session.needToRevertKeepSuccessful then
        c.called (c.service.keepSuccessful now session.nodeid session.address false)
      else if session.expected then
        c.called (c.service.eraseFailed session.nodeid session.address)
      else c

/-- One event. A session is only started for an entry that is there. -/
def step (c : AddressChecks A B) : CheckEvent A B → AddressChecks A B
  | .add nodeAddress address sslAddress action =>
      { c with service := c.service.add nodeAddress address sslAddress action }
  | .takeActions => { c with service := c.service.takeActions.2 }
  | .initiate nodeAddress address =>
      if (nodeAddress, address) ∈ c.service.nodeids.map NodeidAddressUnit.key then
        { c with sessions := c.sessions ++ [⟨nodeAddress, address, false, true⟩] }
      else c
  | .pong index valid now => c.process index valid now
  | .destroy index now => c.destroy index now

def Always (P : AddressChecks A B → CheckEvent A B → Prop) (c : AddressChecks A B) :
    List (CheckEvent A B) → Prop
  | [] => True
  | event :: rest => P c event ∧ Always P (c.step event) rest

/-- A session that answers finds its own entry; one that fails, or ends without an answer,
finds some entry of its node; one that ends verified finds its own entry alone. -/
def FindsEntry (c : AddressChecks A B) : CheckEvent A B → Prop
  | .pong index valid _ => ∀ session, c.sessions[index]? = some session →
      session.expected = true →
        if valid then c.service.Registered session.nodeid session.address
        else c.service.addresses session.nodeid ≠ []
  | .destroy index _ => ∀ session, c.sessions[index]? = some session →
      if session.needToRevertKeepSuccessful then
        c.service.addresses session.nodeid = [session.address]
      else session.expected = true → c.service.addresses session.nodeid ≠ []
  | _ => True

/-- What the registry promises of an event. -/
structure KeepsRegistry (c : AddressChecks A B) (event : CheckEvent A B) : Prop where
  /-- No call of a session throws. -/
  quiet : (c.step event).thrown = c.thrown
  /-- No node has two addresses that are verified now. -/
  oneCurrent : ∀ a ∈ (c.step event).service.nodeids, ∀ b ∈ (c.step event).service.nodeids,
    a.verified = .current → b.verified = .current → a.nodeAddress = b.nodeAddress →
      a.address = b.address
  /-- Of a node whose address answered no other address is kept. -/
  answered : ∀ index now session, event = .pong index true now →
    c.sessions[index]? = some session → session.expected = true →
      (c.step event).service.addresses session.nodeid = [session.address]

theorem process_spec {c : AddressChecks A B} {index : ℕ} (valid : Bool) (now : ℤ)
    {session : SessionActionSignatures A} (hsession : c.sessions[index]? = some session)
    (hexpected : session.expected = true) :
    ∃ outcome : NodeidService A B × Except String Unit,
      outcome = (if valid then c.service.keepSuccessful now session.nodeid session.address true
        else c.service.eraseFailed session.nodeid session.address) ∧
      (c.process index valid now).service = outcome.1 ∧
      ((c.process index valid now).thrown = c.thrown ↔ outcome.2 = .ok ()) := by
  refine ⟨_, rfl, ?_⟩
  unfold process
  simp only [hsession, hexpected, ↓reduceIte]
  generalize (if valid = true then
    c.service.keepSuccessful now session.nodeid session.address true
    else c.service.eraseFailed session.nodeid session.address) = outcome
  split_ifs
  · exact ⟨called_service c outcome, called_thrown⟩
  · exact ⟨called_service c outcome, called_thrown⟩

/-- A pong that no session waits for is nothing to the registry. -/
theorem process_idle {c : AddressChecks A B} {index : ℕ} {valid : Bool} {now : ℤ}
    (h : ∀ session, c.sessions[index]? = some session → session.expected = false) :
    c.process index valid now = c := by
  unfold process
  cases hsession : c.sessions[index]? with
  | none => rfl
  | some session =>
      have hidle := h session hsession
      simp [hidle]

theorem onlyCurrent_process {c : AddressChecks A B} (h : c.service.OnlyCurrent) (index : ℕ)
    (valid : Bool) (now : ℤ) : (c.process index valid now).service.OnlyCurrent := by
  by_cases hwaits : ∃ session, c.sessions[index]? = some session ∧ session.expected = true
  · obtain ⟨session, hsession, hexpected⟩ := hwaits
    obtain ⟨outcome, houtcome, hservice, _⟩ :=
      process_spec valid now hsession hexpected
    rw [hservice, houtcome]
    split_ifs
    · exact h.keepSuccessful now session.nodeid session.address true
    · exact h.eraseFailed session.nodeid session.address
  · rw [process_idle]
    · exact h
    · intro session hsession
      rw [← Bool.not_eq_true]
      exact fun hexpected => hwaits ⟨session, hsession, hexpected⟩

theorem onlyCurrent_destroy {c : AddressChecks A B} (h : c.service.OnlyCurrent) (index : ℕ)
    (now : ℤ) : (c.destroy index now).service.OnlyCurrent := by
  unfold destroy
  cases c.sessions[index]? with
  | none => exact h
  | some session =>
      dsimp only
      split_ifs
      · rw [called_service]
        exact h.keepSuccessful now session.nodeid session.address false
      · rw [called_service]
        exact h.eraseFailed session.nodeid session.address
      · exact h

theorem onlyCurrent_step {c : AddressChecks A B} (h : c.service.OnlyCurrent)
    (event : CheckEvent A B) : (c.step event).service.OnlyCurrent := by
  cases event with
  | add nodeAddress address sslAddress action => exact h.add nodeAddress address sslAddress action
  | takeActions => exact h.takeActions
  | initiate nodeAddress address =>
      unfold step
      dsimp only
      split_ifs <;> exact h
  | pong index valid now => exact onlyCurrent_process h index valid now
  | destroy index now => exact onlyCurrent_destroy h index now

/-- A pong throws nothing exactly when its session finds the entry that it needs. -/
theorem process_quiet_iff {c : AddressChecks A B} (index : ℕ) (valid : Bool) (now : ℤ) :
    (c.process index valid now).thrown = c.thrown ↔ c.FindsEntry (.pong index valid now) := by
  by_cases hwaits : ∃ session, c.sessions[index]? = some session ∧ session.expected = true
  · obtain ⟨session, hsession, hexpected⟩ := hwaits
    obtain ⟨outcome, houtcome, _, hthrown⟩ :=
      process_spec valid now hsession hexpected
    have hfinds : c.FindsEntry (.pong index valid now) ↔
        if valid then c.service.Registered session.nodeid session.address
        else c.service.addresses session.nodeid ≠ [] := by
      constructor
      · intro h
        exact h session hsession hexpected
      · intro h other hother _
        cases hsession.symm.trans hother
        exact h
    rw [hthrown, houtcome, hfinds]
    split_ifs
    · exact NodeidService.keepSuccessful_true_isOk
    · exact NodeidService.eraseFailed_isOk
  · rw [process_idle]
    · simp only [true_iff]
      intro session hsession hexpected
      exact absurd ⟨session, hsession, hexpected⟩ hwaits
    · intro session hsession
      rw [← Bool.not_eq_true]
      exact fun hexpected => hwaits ⟨session, hsession, hexpected⟩

theorem destroy_quiet_iff {c : AddressChecks A B} (index : ℕ) (now : ℤ) :
    (c.destroy index now).thrown = c.thrown ↔ c.FindsEntry (.destroy index now) := by
  simp only [destroy, FindsEntry]
  cases hsession : c.sessions[index]? with
  | none => simp
  | some session =>
      simp only [Option.some.injEq, forall_eq']
      split_ifs with hrevert hexpected
      · exact called_thrown.trans NodeidService.keepSuccessful_false_isOk
      · rw [forall_prop_of_true hexpected]
        exact called_thrown.trans NodeidService.eraseFailed_isOk
      · simp [hexpected]

/-- One event keeps what the registry promises exactly when its session finds its entry. -/
theorem keepsRegistry_iff {c : AddressChecks A B} (h : c.service.OnlyCurrent)
    (event : CheckEvent A B) : c.KeepsRegistry event ↔ c.FindsEntry event := by
  have hquiet : (c.step event).thrown = c.thrown ↔ c.FindsEntry event := by
    cases event with
    | add nodeAddress address sslAddress action => exact iff_of_true rfl trivial
    | takeActions => exact iff_of_true rfl trivial
    | initiate nodeAddress address =>
        refine iff_of_true ?_ trivial
        unfold step
        dsimp only
        split_ifs <;> rfl
    | pong index valid now => exact process_quiet_iff index valid now
    | destroy index now => exact destroy_quiet_iff index now
  constructor
  · intro keeps
    exact hquiet.mp keeps.quiet
  · intro finds
    refine ⟨hquiet.mpr finds, ?_, ?_⟩
    · intro a ha b hb hcurrent _ hnode
      exact (onlyCurrent_step h event a ha hcurrent b hb hnode.symm).symm
    · rintro index now session rfl hsession hexpected
      obtain ⟨outcome, houtcome, hservice, hthrown⟩ :=
        process_spec true now hsession hexpected
      have hok := hthrown.mp (hquiet.mpr finds)
      change (c.process index true now).service.addresses session.nodeid = [session.address]
      rw [hservice]
      rw [houtcome, if_pos rfl] at hok ⊢
      exact NodeidService.addresses_keepSuccessful hok

/-- In every run from an empty registry nothing throws and every promise is kept exactly when
every session finds the entry it needs. -/
theorem keepsRegistry_iff_findsEntry (events : List (CheckEvent A B)) :
    Always KeepsRegistry start events ↔ Always FindsEntry start events := by
  have hstart : (start : AddressChecks A B).service.OnlyCurrent := fun _ hunit => nomatch hunit
  generalize (start : AddressChecks A B) = c at hstart
  induction events generalizing c with
  | nil => exact Iff.rfl
  | cons event rest ih =>
      exact and_congr (keepsRegistry_iff hstart event) (ih _ (onlyCurrent_step hstart event))

/-- Both addresses of a node answer. The second answer erases the first address, finds its
own already erased and throws. -/
theorem second_answer_throws : ¬ ∀ events : List (CheckEvent String String),
    Always KeepsRegistry start events := by
  intro claim
  have hrun := claim [.add "node" "first" "" "", .add "node" "second" "" "",
    .initiate "node" "first", .initiate "node" "second", .pong 0 true 0, .pong 1 true 0]
  have hquiet := hrun.2.2.2.2.2.1.quiet
  revert hquiet
  decide +kernel

end AddressChecks
end Publiq
