import Publiq.NodeidService
import Mathlib.Algebra.Ring.Int.Defs

/-! `nodeid_service::get_addresses`: the addresses with the seconds since each was checked,
which the callers read up to the first one that is stale. -/
namespace Publiq

/-- What the two clocks show, each a 64-bit count of nanoseconds since its epoch. -/
structure Clocks where
  system : ℤ
  steady : ℤ
  system_lt : system < 2 ^ 63
  steady_lt : steady < 2 ^ 63

/-- `uint64_t(duration_cast<seconds>(...).count())`. -/
def wholeSeconds (duration : ℤ) : UInt64 := UInt64.ofInt (duration.tdiv 1000000000)

theorem wholeSeconds_le {x y : ℤ} (nonneg : 0 ≤ x) (le : x ≤ y) (small : y < 2 ^ 63) :
    wholeSeconds x ≤ wholeSeconds y := by
  have value : ∀ z : ℤ, 0 ≤ z → z < 2 ^ 63 →
      (wholeSeconds z).toNat = (z / 1000000000).toNat := by
    intro z hz hsmall
    rw [wholeSeconds, UInt64.ofInt, Int.tdiv_eq_ediv_of_nonneg hz,
      UInt64.toNat_ofNat_of_lt' (by change _ < 2 ^ 64; omega)]
    omega
  rw [UInt64.le_iff_toNat_le, value x nonneg (by omega), value y (by omega) small]
  omega

/-- One of the `addresses_info` that are listed. -/
structure ListedAddress (A : Type*) where
  nodeAddress : String
  ipAddress : A
  sslIpAddress : A
  secondsSinceChecked : UInt64
  deriving DecidableEq

namespace NodeidService
variable {A B : Type*}

/-- The `seconds_since_checked` of an entry. -/
def secondsSince (clocks : Clocks) (unit : NodeidAddressUnit A B) : UInt64 :=
  match unit.verified with
  | .current => 0
  | .never => wholeSeconds clocks.system
  | .past => wholeSeconds (clocks.steady - unit.checkedTimePoint)

def addressInfo (clocks : Clocks) (unit : NodeidAddressUnit A B) : ListedAddress A :=
  ⟨unit.nodeAddress, unit.address, unit.sslAddress, secondsSince clocks unit⟩

/-- The loop of `get_addresses`: `result_verified` and `result`, with what the clocks show
at each entry. -/
def collectAddresses : List (NodeidAddressUnit A B) → (ℕ → Clocks) →
    List (ListedAddress A) × List (ListedAddress A)
  | [], _ => ([], [])
  | unit :: rest, clocks =>
      let (verified, others) := collectAddresses rest fun i => clocks (i + 1)
      if unit.verified = .current then (addressInfo (clocks 0) unit :: verified, others)
      else (verified, addressInfo (clocks 0) unit :: others)

/-- `nodeid_service::get_addresses`, over the entries as the index lists them backwards. -/
def getAddresses (walk : List (NodeidAddressUnit A B)) (clocks : ℕ → Clocks) :
    List (ListedAddress A) :=
  (collectAddresses walk clocks).1 ++ (collectAddresses walk clocks).2

/-- A walk of the index `by_checked_time_point` backwards. -/
structure BackwardWalk (s : NodeidService A B) (walk : List (NodeidAddressUnit A B)) : Prop where
  perm : walk.Perm s.nodeids
  backward : walk.Pairwise fun a b => b.checkedTimePoint ≤ a.checkedTimePoint

/-- An entry that was never checked has no time, another one the time of its last check. -/
def Timed (last : ℤ) (unit : NodeidAddressUnit A B) : Prop :=
  if unit.verified = .never then unit.checkedTimePoint = 0
  else 0 < unit.checkedTimePoint ∧ unit.checkedTimePoint ≤ last

theorem Timed.later {last now : ℤ} {unit : NodeidAddressUnit A B} (timed : Timed last unit)
    (le : last ≤ now) : Timed now unit := by
  unfold Timed at *
  split_ifs at timed ⊢
  · exact timed
  · exact ⟨timed.1, Int.le_trans timed.2 le⟩

/-- The system clock agrees with the steady one where it counts: at an entry that was never
checked it shows no less than the age of every checked entry before it, and it was not set
back since an entry before it that was never checked either. -/
structure SystemAhead (walk : List (NodeidAddressUnit A B)) (clocks : ℕ → Clocks) : Prop where
  past : ∀ i j a b, walk[i]? = some a → walk[j]? = some b → i < j → a.verified = .past →
    b.verified = .never → (clocks i).steady - a.checkedTimePoint ≤ (clocks j).system
  never : ∀ i j a b, walk[i]? = some a → walk[j]? = some b → i < j → a.verified = .never →
    b.verified = .never → 0 ≤ (clocks i).system ∧ (clocks i).system ≤ (clocks j).system

theorem SystemAhead.tail {unit : NodeidAddressUnit A B} {rest : List (NodeidAddressUnit A B)}
    {clocks : ℕ → Clocks} (ahead : SystemAhead (unit :: rest) clocks) :
    SystemAhead rest fun i => clocks (i + 1) :=
  ⟨fun i j a b ha hb lt => ahead.past (i + 1) (j + 1) a b ha hb (by omega),
    fun i j a b ha hb lt => ahead.never (i + 1) (j + 1) a b ha hb (by omega)⟩

/-- What is listed behind the verified entries: entries of the walk that are not. -/
theorem mem_collectAddresses {walk : List (NodeidAddressUnit A B)} {clocks : ℕ → Clocks}
    {info : ListedAddress A} (member : info ∈ (collectAddresses walk clocks).2) :
    ∃ (j : ℕ) (unit : NodeidAddressUnit A B), walk[j]? = some unit ∧
      unit.verified ≠ .current ∧ info = addressInfo (clocks j) unit := by
  induction walk generalizing clocks with
  | nil => cases member
  | cons unit rest ih =>
      rw [collectAddresses] at member
      have later : info ∈ (collectAddresses rest fun i => clocks (i + 1)).2 →
          ∃ (j : ℕ) (found : NodeidAddressUnit A B), (unit :: rest)[j]? = some found ∧
            found.verified ≠ .current ∧ info = addressInfo (clocks j) found := by
        intro member
        obtain ⟨j, found, place, kind, eq⟩ := ih member
        exact ⟨j + 1, found, place, kind, eq⟩
      by_cases current : unit.verified = .current
      · simp only [if_pos current] at member
        exact later member
      · simp only [if_neg current] at member
        rcases List.mem_cons.mp member with eq | member
        · exact ⟨0, unit, rfl, current, eq⟩
        · exact later member

theorem verified_collectAddresses {walk : List (NodeidAddressUnit A B)} {clocks : ℕ → Clocks}
    {info : ListedAddress A} (member : info ∈ (collectAddresses walk clocks).1) :
    info.secondsSinceChecked = 0 := by
  induction walk generalizing clocks with
  | nil => cases member
  | cons unit rest ih =>
      rw [collectAddresses] at member
      by_cases current : unit.verified = .current
      · simp only [if_pos current] at member
        rcases List.mem_cons.mp member with rfl | member
        · simp only [addressInfo, secondsSince, current]
        · exact ih member
      · simp only [if_neg current] at member
        exact ih member

/-- Two entries of a walk, neither verified now: the one behind is no younger. -/
theorem secondsSince_le {walk : List (NodeidAddressUnit A B)} {clocks : ℕ → Clocks} {last : ℤ}
    (timed : ∀ unit ∈ walk, Timed last unit) (started : last ≤ (clocks 0).steady)
    (steady : ∀ i j, i ≤ j → (clocks i).steady ≤ (clocks j).steady)
    (ahead : SystemAhead walk clocks)
    (backward : walk.Pairwise fun a b => b.checkedTimePoint ≤ a.checkedTimePoint)
    {i j : ℕ} {a b : NodeidAddressUnit A B} (ha : walk[i]? = some a) (hb : walk[j]? = some b)
    (lt : i < j) (hacurrent : a.verified ≠ .current) (hbcurrent : b.verified ≠ .current) :
    secondsSince (clocks i) a ≤ secondsSince (clocks j) b := by
  have timedA := timed a (List.mem_of_getElem? ha)
  have timedB := timed b (List.mem_of_getElem? hb)
  have order : b.checkedTimePoint ≤ a.checkedTimePoint := by
    obtain ⟨hi, rfl⟩ := List.getElem?_eq_some_iff.mp ha
    obtain ⟨hj, rfl⟩ := List.getElem?_eq_some_iff.mp hb
    exact List.pairwise_iff_getElem.mp backward i j hi hj lt
  have onward : (clocks i).steady ≤ (clocks j).steady := steady i j (Nat.le_of_lt lt)
  have begun : last ≤ (clocks i).steady := Int.le_trans started (steady 0 i (Nat.zero_le i))
  have smallJ := (clocks j).steady_lt
  unfold Timed at timedA timedB
  cases kindA : a.verified with
  | current => exact absurd kindA hacurrent
  | never =>
      cases kindB : b.verified with
      | current => exact absurd kindB hbcurrent
      | never =>
          simp only [secondsSince, kindA, kindB]
          obtain ⟨nonneg, le⟩ := ahead.never i j a b ha hb lt kindA kindB
          exact wholeSeconds_le nonneg le (clocks j).system_lt
      | past =>
          -- an entry with a time stands before all that have none
          rw [if_pos kindA] at timedA
          rw [if_neg (by rw [kindB]; decide)] at timedB
          omega
  | past =>
      rw [if_neg (by rw [kindA]; decide)] at timedA
      cases kindB : b.verified with
      | current => exact absurd kindB hbcurrent
      | never =>
          simp only [secondsSince, kindA, kindB]
          exact wholeSeconds_le (by omega) (ahead.past i j a b ha hb lt kindA kindB)
            (clocks j).system_lt
      | past =>
          rw [if_neg (by rw [kindB]; decide)] at timedB
          simp only [secondsSince, kindA, kindB]
          exact wholeSeconds_le (by omega) (by omega) (by omega)

theorem others_sorted {walk : List (NodeidAddressUnit A B)} {clocks : ℕ → Clocks} {last : ℤ}
    (timed : ∀ unit ∈ walk, Timed last unit) (started : last ≤ (clocks 0).steady)
    (steady : ∀ i j, i ≤ j → (clocks i).steady ≤ (clocks j).steady)
    (ahead : SystemAhead walk clocks)
    (backward : walk.Pairwise fun a b => b.checkedTimePoint ≤ a.checkedTimePoint) :
    (collectAddresses walk clocks).2.Pairwise fun a b =>
      a.secondsSinceChecked ≤ b.secondsSinceChecked := by
  induction walk generalizing clocks with
  | nil => exact List.Pairwise.nil
  | cons unit rest ih =>
      have below := @ih (fun i => clocks (i + 1))
        (fun other member => timed other (List.mem_cons_of_mem _ member))
        (Int.le_trans started (steady 0 1 (Nat.zero_le 1)))
        (fun i j le => steady (i + 1) (j + 1) (Nat.succ_le_succ le)) ahead.tail
        (List.pairwise_cons.mp backward).2
      rw [collectAddresses]
      by_cases current : unit.verified = .current
      · simp only [if_pos current]
        exact below
      · simp only [if_neg current]
        refine List.pairwise_cons.mpr ⟨?_, below⟩
        intro info member
        obtain ⟨j, other, place, kind, rfl⟩ := mem_collectAddresses member
        exact secondsSince_le timed started steady ahead backward (i := 0) (j := j + 1) rfl place
          (Nat.succ_pos j) current kind

def Ordered (infos : List (ListedAddress A)) : Prop :=
  infos.Pairwise fun a b => a.secondsSinceChecked ≤ b.secondsSinceChecked

theorem Ordered.takeWhile_eq_filter {infos : List (ListedAddress A)} (ordered : Ordered infos)
    (threshhold : UInt64) :
    (infos.takeWhile fun info => info.secondsSinceChecked ≤ threshhold) =
      infos.filter fun info => info.secondsSinceChecked ≤ threshhold := by
  induction infos with
  | nil => rfl
  | cons info rest ih =>
      obtain ⟨first, below⟩ := List.pairwise_cons.mp ordered
      by_cases fresh : info.secondsSinceChecked ≤ threshhold
      · rw [List.takeWhile_cons_of_pos (by simpa using fresh),
          List.filter_cons_of_pos (by simpa using fresh), ih below]
      · rw [List.takeWhile_cons_of_neg (by simpa using fresh),
          List.filter_cons_of_neg (by simpa using fresh), eq_comm, List.filter_eq_nil_iff]
        intro other member
        have stale : ¬ other.secondsSinceChecked ≤ threshhold := fun le =>
          fresh (UInt64.le_trans (first other member) le)
        simpa using stale

theorem ordered_getAddresses {walk : List (NodeidAddressUnit A B)} {clocks : ℕ → Clocks}
    {last : ℤ} (timed : ∀ unit ∈ walk, Timed last unit) (started : last ≤ (clocks 0).steady)
    (steady : ∀ i j, i ≤ j → (clocks i).steady ≤ (clocks j).steady)
    (ahead : SystemAhead walk clocks)
    (backward : walk.Pairwise fun a b => b.checkedTimePoint ≤ a.checkedTimePoint) :
    Ordered (getAddresses walk clocks) := by
  refine List.pairwise_append.mpr
    ⟨?_, others_sorted timed started steady ahead backward, ?_⟩
  · refine List.Pairwise.imp_of_mem ?_ (List.pairwise_of_forall fun _ _ => trivial)
    intro a b ha _ _
    rw [verified_collectAddresses ha]
    exact UInt64.zero_le
  · intro a ha b _
    rw [verified_collectAddresses ha]
    exact UInt64.zero_le

end NodeidService

/-- What is asked of the registry, the steady clock read where the code reads it. -/
inductive RegistryEvent (A B : Type*) where
  | add (nodeAddress : String) (address sslAddress : A) (action : B)
  | keepSuccessful (now : ℤ) (nodeAddress : String) (address : A) (verified : Bool)
  | eraseFailed (nodeAddress : String) (address : A)
  | takeActions

namespace NodeidService
variable {A B : Type*} [DecidableEq A]

def step (s : NodeidService A B) : RegistryEvent A B → NodeidService A B
  | .add nodeAddress address sslAddress action => s.add nodeAddress address sslAddress action
  | .keepSuccessful now nodeAddress address verified =>
      (s.keepSuccessful now nodeAddress address verified).1
  | .eraseFailed nodeAddress address => (s.eraseFailed nodeAddress address).1
  | .takeActions => s.takeActions.2

def run (events : List (RegistryEvent A B)) : NodeidService A B := events.foldl step default

def lastReading (started : ℤ) (events : List (RegistryEvent A B)) : ℤ :=
  events.foldl (fun last event =>
    match event with
    | .keepSuccessful now _ _ _ => now
    | _ => last) started

def Dated (started : ℤ) : List (RegistryEvent A B) → Prop
  | [] => True
  | .keepSuccessful now _ _ _ :: rest => started ≤ now ∧ Dated now rest
  | _ :: rest => Dated started rest

/-- An address that was never checked is reported as no longer verified while its node has
another address. -/
def Spoils (s : NodeidService A B) : RegistryEvent A B → Prop
  | .keepSuccessful _ nodeAddress address false =>
      ∃ unit ∈ s.nodeids, unit.key = (nodeAddress, address) ∧ unit.verified = .never ∧
        ∃ other ∈ s.nodeids, other.nodeAddress = nodeAddress ∧ other.address ≠ address
  | _ => False

def Unspoiled (s : NodeidService A B) : List (RegistryEvent A B) → Prop
  | [] => True
  | event :: rest => ¬ s.Spoils event ∧ Unspoiled (s.step event) rest

def AllTimed (last : ℤ) (s : NodeidService A B) : Prop := ∀ unit ∈ s.nodeids, Timed last unit

theorem AllTimed.add {last : ℤ} {s : NodeidService A B} (h : s.AllTimed last)
    (nodeAddress : String) (address sslAddress : A) (action : B) :
    (s.add nodeAddress address sslAddress action).AllTimed last := by
  unfold NodeidService.add
  split
  · exact h
  · have inserted : (s.insert ⟨nodeAddress, address, sslAddress, none, .never, 0⟩).AllTimed
        last := by
      unfold NodeidService.insert
      split_ifs
      · exact h
      · intro unit member
        rcases List.mem_append.mp member with member | member
        · exact h unit member
        · cases List.mem_singleton.mp member
          exact rfl
    intro unit member
    obtain ⟨before, memBefore, rfl⟩ := List.mem_map.mp member
    have timed := inserted before memBefore
    split_ifs
    · exact timed
    · exact timed

omit [DecidableEq A] in
theorem AllTimed.erase {last : ℤ} {s : NodeidService A B} (h : s.AllTimed last)
    (p : NodeidAddressUnit A B → Bool) : (s.erase p).AllTimed last :=
  fun unit member => h unit (List.mem_of_mem_filter member)

omit [DecidableEq A] in
theorem AllTimed.takeActions {last : ℤ} {s : NodeidService A B} (h : s.AllTimed last) :
    s.takeActions.2.AllTimed last := by
  intro unit member
  have same := @takeFirst_keeps A B _
    (fun unit => (unit.verified, unit.checkedTimePoint)) (fun _ => rfl) s.nodeids []
  have found : (unit.verified, unit.checkedTimePoint) ∈
      (takeFirst s.nodeids []).2.map fun unit => (unit.verified, unit.checkedTimePoint) :=
    List.mem_map_of_mem member
  rw [same] at found
  obtain ⟨before, memBefore, eq⟩ := List.mem_map.mp found
  obtain ⟨verified, checked⟩ := Prod.mk.inj eq
  have timed := h before memBefore
  unfold Timed at timed ⊢
  rwa [verified, checked] at timed

theorem AllTimed.eraseFailed {last : ℤ} {s : NodeidService A B} (h : s.AllTimed last)
    (nodeAddress : String) (address : A) : (s.eraseFailed nodeAddress address).1.AllTimed last := by
  unfold NodeidService.eraseFailed
  cases (s.group nodeAddress).head? with
  | none => exact h
  | some _ => exact h.erase _

/-- An entry behind the loop of `keep_successful`: the one of the address, or one of before. -/
theorem mem_keepLoop {s : NodeidService A B} {nodeAddress : String} {address : A}
    {verified : Bool} {unit : NodeidAddressUnit A B}
    (member : unit ∈ (s.keepLoop nodeAddress address verified).nodeids) :
    ∃ before ∈ s.nodeids, before.key = unit.key ∧
      if before.key = (nodeAddress, address) then
        unit = { before with verified := if verified then .current else .past }
      else unit = before := by
  obtain ⟨before, kept, rfl⟩ := List.mem_map.mp member
  refine ⟨before, List.mem_of_mem_filter kept, ?_⟩
  by_cases same : before.key = (nodeAddress, address)
  · simp only [if_pos same]
    exact ⟨rfl, trivial⟩
  · simp only [if_neg same]
    exact ⟨trivial, trivial⟩

/-- The loop leaves the time of the entry that it changes, which is only wrong for one that
was never checked. -/
theorem AllTimed.keepLoop {last : ℤ} {s : NodeidService A B} (h : s.AllTimed last)
    {nodeAddress : String} {address : A} {verified : Bool}
    (checked : ∀ unit ∈ s.nodeids, unit.key = (nodeAddress, address) → unit.verified ≠ .never) :
    (s.keepLoop nodeAddress address verified).AllTimed last := by
  intro unit member
  obtain ⟨before, memBefore, -, change⟩ := mem_keepLoop member
  have timed := h before memBefore
  by_cases same : before.key = (nodeAddress, address)
  · rw [if_pos same] at change
    unfold Timed at timed ⊢
    rw [if_neg (checked before memBefore same)] at timed
    rw [change, if_neg (by cases verified <;> exact nofun)]
    exact timed
  · rw [if_neg same] at change
    exact change ▸ timed

/-- The last step gives the entry of the address, the only one of its node, its time. -/
theorem AllTimed.checkedNow {last now : ℤ} {s : NodeidService A B} (h : s.AllTimed last)
    (positive : 0 < now) (le : last ≤ now) {nodeAddress : String} {address : A} {verified : Bool}
    {first : NodeidAddressUnit A B} (only : first.key = (nodeAddress, address)) :
    ((s.keepLoop nodeAddress address verified).modifyAt first.key
      (fun unit => { unit with checkedTimePoint := now }) fun _ => rfl).AllTimed now := by
  intro unit member
  obtain ⟨kept, memKept, rfl⟩ := List.mem_map.mp member
  obtain ⟨before, memBefore, sameKey, change⟩ := mem_keepLoop memKept
  by_cases same : before.key = (nodeAddress, address)
  · rw [if_pos same] at change
    rw [if_pos (sameKey.symm.trans (same.trans only.symm))]
    unfold Timed
    rw [change, if_neg (by cases verified <;> exact nofun)]
    exact ⟨positive, Int.le_refl now⟩
  · rw [if_neg same] at change
    rw [if_neg fun key => same (sameKey.trans (key.trans only)), change]
    exact (h before memBefore).later le

theorem AllTimed.keepSuccessful {last now : ℤ} {s : NodeidService A B} (h : s.AllTimed last)
    (positive : 0 < now) (le : last ≤ now) {nodeAddress : String} {address : A} {verified : Bool}
    (unspoiled : ¬ s.Spoils (.keepSuccessful now nodeAddress address verified)) :
    (s.keepSuccessful now nodeAddress address verified).1.AllTimed now := by
  have later : s.AllTimed now := fun unit member => (h unit member).later le
  unfold NodeidService.keepSuccessful
  cases (s.group nodeAddress).head? with
  | none => exact later
  | some _ =>
      dsimp only
      rw [countP_kept]
      by_cases missing : (s.addresses nodeAddress).count address = 1
      · rw [if_neg (not_not.mpr missing)]
        by_cases others : verified = false ∧
            (s.group nodeAddress).countP (fun unit => unit.address ≠ address) ≠ 0
        · rw [if_pos others]
          refine later.keepLoop fun unit member key never => unspoiled ?_
          obtain ⟨rfl, erased⟩ := others
          obtain ⟨other, memOther, differs⟩ := List.countP_pos_iff.mp (Nat.pos_of_ne_zero erased)
          obtain ⟨stored, node⟩ := mem_group.mp memOther
          exact ⟨unit, member, key, never, other, stored, node, by simpa using differs⟩
        · rw [if_neg others]
          have alone : (s.keepLoop nodeAddress address verified).addresses nodeAddress = [address] :=
            addresses_keepLoop_of_count missing
          cases found : ((s.keepLoop nodeAddress address verified).group nodeAddress).head? with
          | none =>
              rw [head?_group_eq_none.mp found] at alone
              cases alone
          | some first =>
              have member := List.mem_of_head? found
              have address_eq : first.address ∈
                  (s.keepLoop nodeAddress address verified).addresses nodeAddress :=
                List.mem_map_of_mem member
              rw [alone] at address_eq
              exact h.checkedNow positive le (Prod.ext (mem_group.mp member).2
                (List.mem_singleton.mp address_eq))
      · rw [if_pos missing]
        refine later.keepLoop fun unit member key _ => missing ?_
        exact count_eq_one_iff.mpr (List.mem_map.mpr ⟨unit, member, key⟩)

theorem AllTimed.run {started : ℤ} (positive : 0 < started)
    {events : List (RegistryEvent A B)} {s : NodeidService A B} (h : s.AllTimed started)
    (dated : Dated started events) (unspoiled : s.Unspoiled events) :
    (events.foldl step s).AllTimed (lastReading started events) := by
  induction events generalizing s started with
  | nil => exact h
  | cons event rest ih =>
      obtain ⟨fits, unspoiledRest⟩ := unspoiled
      cases event with
      | add nodeAddress address sslAddress action =>
          exact ih positive (h.add nodeAddress address sslAddress action) dated unspoiledRest
      | keepSuccessful now nodeAddress address verified =>
          have later : 0 < now := Int.lt_of_lt_of_le positive dated.1
          exact ih later (h.keepSuccessful later dated.1 fits) dated.2 unspoiledRest
      | eraseFailed nodeAddress address =>
          exact ih positive (h.eraseFailed nodeAddress address) dated unspoiledRest
      | takeActions => exact ih positive h.takeActions dated unspoiledRest

/-- In every run in which no address that was never checked is reported as no longer verified
beside another one of its node, and with the system clock ahead where it counts, the addresses
are listed in order, and a caller that stops at the first stale one has seen all fresh ones. -/
theorem addresses_ordered_of_unspoiled {started : ℤ} (positive : 0 < started)
    {events : List (RegistryEvent A B)} (dated : Dated started events)
    (unspoiled : Unspoiled default events) {walk : List (NodeidAddressUnit A B)}
    (index : BackwardWalk (run events) walk) {clocks : ℕ → Clocks}
    (onward : lastReading started events ≤ (clocks 0).steady)
    (steady : ∀ i j, i ≤ j → (clocks i).steady ≤ (clocks j).steady)
    (ahead : SystemAhead walk clocks) :
    Ordered (getAddresses walk clocks) ∧
      ∀ threshhold : UInt64,
        ((getAddresses walk clocks).takeWhile fun info => info.secondsSinceChecked ≤ threshhold) =
          (getAddresses walk clocks).filter fun info => info.secondsSinceChecked ≤ threshhold := by
  have timed : (run events).AllTimed (lastReading started events) :=
    AllTimed.run positive (fun _ member => nomatch member) dated unspoiled
  have ordered := ordered_getAddresses (fun unit member => timed unit (index.perm.subset member))
    onward steady ahead index.backward
  exact ⟨ordered, ordered.takeWhile_eq_filter⟩

def sampleClocks : Clocks := ⟨1500000000000000000, 5400000000000, by decide, by decide⟩

/-- An address answers within the hour and then no longer, another one was never checked. -/
def oneChecked : List (RegistryEvent String String) :=
  [.add "node" "first" "" "", .add "other" "second" "" "",
    .keepSuccessful 3000000000000 "node" "first" true,
    .keepSuccessful 3600000000000 "node" "first" false]

theorem oneChecked_ordered :
    Ordered (getAddresses (run oneChecked).nodeids fun _ => sampleClocks) := by
  have dated : Dated 1 oneChecked := by
    refine ⟨?_, ?_, trivial⟩
    · decide
    · decide
  have unspoiled : Unspoiled default oneChecked := by
    refine ⟨not_false, not_false, not_false, ?_, trivial⟩
    rintro ⟨unit, member, -, never, other, memOther, node, differs⟩
    revert unit other
    decide +kernel
  refine (addresses_ordered_of_unspoiled (by decide) dated unspoiled
    ⟨List.Perm.refl _, by decide⟩ (by decide) (fun _ _ _ => Int.le_refl _) ⟨?_, ?_⟩).1
  · intro i j a b ha _ _ _ _
    have young : ∀ unit ∈ (run oneChecked).nodeids,
        sampleClocks.steady - unit.checkedTimePoint ≤ sampleClocks.system := by decide
    exact young a (List.mem_of_getElem? ha)
  · intro i j a b _ _ _ _ _
    exact ⟨by decide, Int.le_refl _⟩

/-- A node is found under two addresses. One of them is reported as no longer verified before
it was ever checked, and takes the age of the machine for its own. -/
theorem spoiled_address_out_of_order :
    ¬ ∀ (started : ℤ) (events : List (RegistryEvent String String))
      (walk : List (NodeidAddressUnit String String)) (clocks : ℕ → Clocks), 0 < started →
      Dated started events → BackwardWalk (run events) walk →
      lastReading started events ≤ (clocks 0).steady →
      (∀ i j, i ≤ j → (clocks i).steady ≤ (clocks j).steady) →
      Ordered (getAddresses walk clocks) := by
  intro ordered
  have spoiled := ordered 1 [.add "node" "first" "" "", .add "node" "second" "" "",
    .keepSuccessful 3600000000000 "node" "first" false, .add "other" "third" "" ""] _
    (fun _ => sampleClocks) (by decide) ⟨by decide, trivial⟩
    ⟨List.reverse_perm _, by decide⟩ (by decide) (fun _ _ _ => Int.le_refl _)
  revert spoiled
  unfold Ordered
  decide +kernel

end NodeidService

end Publiq
