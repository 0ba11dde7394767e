import Publiq.Mine
import Publiq.Foundation.Frontier
import Mathlib.Algebra.Order.BigOperators.Group.Finset
import Mathlib.Data.Set.Card
import Mathlib.Combinatorics.SimpleGraph.Connectivity.Finite

/-! The labelling loop of `mine_block`: a transaction is weighed by the fees of all that are
connected to it through their participants. Hash sets are gone through in any order. -/
namespace Publiq
open Message Checked

/-- The order in which a hash set of indices is gone through. -/
structure HashOrder (n : ℕ) where
  list : Finset (Fin n) → List (Fin n)
  nodup : ∀ indices, (list indices).Nodup
  mem_iff : ∀ indices index, index ∈ list indices ↔ index ∈ indices

/-- `extented_info`. -/
structure ExtentedInfo where
  value : Coin
  size : UInt64
  stx : SignedTransaction

def ExtentedInfo.average (info : ExtentedInfo) : Checked Coin := info.value.div info.size

/-- `index_participants`. -/
abbrev IndexParticipants (n : ℕ) := Std.ExtTreeMap String (Finset (Fin n))

def noteParticipant {n : ℕ} (index : Fin n) (known : IndexParticipants n) (participant : String) :
    IndexParticipants n :=
  if participant = "" then known
  else known.insert participant (insert index (known.getD participant ∅))

variable (transactions : List SignedTransaction)

def participantsAt (index : Fin transactions.length) : Checked (List String) :=
  actionParticipants (transactions.get index).transactionDetails.action

def indexParticipants : Checked (IndexParticipants transactions.length) :=
  runAll (fun index known => do
    let participants ← participantsAt transactions index
    pure (participants.foldl (noteParticipant index) known))
    (List.finRange transactions.length) ∅

/-- What has been added up, and the participants of the level. -/
structure Level where
  value : Coin
  size : UInt64
  participants : Finset String

def visit (index : Fin transactions.length) (level : Level) : Checked Level := do
  let fee ← feeOf (transactions.get index)
  let participants ← participantsAt transactions index
  pure ⟨level.value + fee, level.size + 1, level.participants ∪ participants.toFinset⟩

/-- `used_indices` and `next_indices`. -/
structure Indices (n : ℕ) where
  used : Finset (Fin n)
  next : Finset (Fin n)
  disjoint : Disjoint used next

namespace Indices
variable {n : ℕ}

def start (index : Fin n) : Indices n := ⟨∅, {index}, Finset.disjoint_empty_left _⟩

def advance (indices : Indices n) (known : IndexParticipants n) (participants : Finset String) :
    Indices n where
  used := indices.used ∪ indices.next
  next := participants.biUnion fun participant =>
    (known.getD participant ∅).filter fun index => index ∉ indices.used ∪ indices.next
  disjoint := by
    refine Finset.disjoint_right.mpr fun index member => ?_
    obtain ⟨participant, _, found⟩ := Finset.mem_biUnion.mp member
    exact (Finset.mem_filter.mp found).2

end Indices

def searchConnected (known : IndexParticipants transactions.length)
    (order : Finset (Fin transactions.length) → HashOrder transactions.length)
    (indices : Indices transactions.length) (value : Coin) (size : UInt64) :
    Checked (Finset (Fin transactions.length) × Coin × UInt64) :=
  if indices.next = ∅ then pure (indices.used, value, size)
  else do
    let level ← runAll (visit transactions) ((order indices.used).list indices.next)
      ⟨value, size, ∅⟩
    searchConnected known order (indices.advance known level.participants) level.value level.size
termination_by (Finset.univ \ indices.used).card
decreasing_by
  exact card_unfound_lt indices.disjoint (Finset.nonempty_iff_ne_empty.mpr ‹_›)

def shareLabel {n : ℕ} (order : HashOrder n) (used : Finset (Fin n)) (value : Coin)
    (size : UInt64) (infos : Fin n → ExtentedInfo) : Fin n → ExtentedInfo :=
  (order.list used).foldl (fun infos index =>
    Function.update infos index { infos index with value, size }) infos

/-- Label a transaction and all that are connected to it, unless it has a label. -/
def labelStep (known : IndexParticipants transactions.length)
    (orders : Fin transactions.length → Finset (Fin transactions.length) →
      HashOrder transactions.length)
    (index : Fin transactions.length) (infos : Fin transactions.length → ExtentedInfo) :
    Checked (Fin transactions.length → ExtentedInfo) :=
  if 0 < (infos index).size then pure infos
  else do
    let (used, value, size) ← searchConnected transactions known (orders index)
      (Indices.start index) (infos index).value (infos index).size
    pure (shareLabel (orders index used) used value size infos)

def labelFees (orders : Fin transactions.length → Finset (Fin transactions.length) →
    HashOrder transactions.length) : Checked (Fin transactions.length → ExtentedInfo) := do
  let known ← indexParticipants transactions
  runAll (labelStep transactions known orders) (List.finRange transactions.length)
    fun index => ⟨0, 0, transactions.get index⟩

/-- The participants that a transaction names; none where its action is not known. -/
def namedAt (index : Fin transactions.length) : List String :=
  (participantsAt transactions index).toOption.getD []

def Known (index : Fin transactions.length) : Prop :=
  participantsAt transactions index = .ok (namedAt transactions index)

def participantGraph : SimpleGraph (Fin transactions.length) where
  Adj a b := a ≠ b ∧ ∃ participant, participant ≠ "" ∧
    participant ∈ namedAt transactions a ∧ participant ∈ namedAt transactions b
  symm := ⟨fun _ _ ⟨differ, participant, named, here, there⟩ =>
    ⟨differ.symm, participant, named, there, here⟩⟩
  loopless := ⟨fun _ linked => linked.1 rfl⟩

section Participants
variable {transactions} {n : ℕ}

theorem participantsAt_eq_ok_iff {index : Fin transactions.length} {participants : List String} :
    participantsAt transactions index = .ok participants ↔
      Known transactions index ∧ participants = namedAt transactions index := by
  constructor
  · intro found
    have named : namedAt transactions index = participants := by
      unfold namedAt
      rw [found]
      rfl
    exact ⟨found.trans (congrArg Except.ok named.symm), named.symm⟩
  · rintro ⟨known, rfl⟩
    exact known

theorem mem_noteParticipant {index index' : Fin n} {known : IndexParticipants n}
    {participant participant' : String} :
    index' ∈ (noteParticipant index known participant).getD participant' ∅ ↔
      index' ∈ known.getD participant' ∅ ∨
        index' = index ∧ participant' ≠ "" ∧ participant' = participant := by
  unfold noteParticipant
  by_cases empty : participant = ""
  · rw [if_pos empty]
    refine ⟨.inl, ?_⟩
    rintro (found | ⟨_, named, same⟩)
    · exact found
    · exact absurd (same.trans empty) named
  · rw [if_neg empty, Std.ExtTreeMap.getD_insert]
    by_cases same : participant = participant'
    · subst same
      rw [if_pos (Std.compare_eq_iff_eq.mpr rfl), Finset.mem_insert, or_comm]
      simp [empty]
    · rw [if_neg (fun equal => same (Std.compare_eq_iff_eq.mp equal))]
      simp [Ne.symm same]

theorem mem_noteParticipants {index index' : Fin n} (participants : List String)
    (known : IndexParticipants n) {participant : String} :
    index' ∈ (participants.foldl (noteParticipant index) known).getD participant ∅ ↔
      index' ∈ known.getD participant ∅ ∨
        index' = index ∧ participant ≠ "" ∧ participant ∈ participants := by
  induction participants generalizing known with
  | nil => simp
  | cons first rest ih =>
      rw [List.foldl_cons, ih, mem_noteParticipant, List.mem_cons, or_assoc]
      constructor
      · rintro (found | ⟨same, named, equal⟩ | ⟨same, named, member⟩)
        · exact .inl found
        · exact .inr ⟨same, named, .inl equal⟩
        · exact .inr ⟨same, named, .inr member⟩
      · rintro (found | ⟨same, named, equal | member⟩)
        · exact .inl found
        · exact .inr (.inl ⟨same, named, equal⟩)
        · exact .inr (.inr ⟨same, named, member⟩)

/-- What `index_participants` holds when all actions are known. -/
theorem mem_noteAll (indices : List (Fin transactions.length))
    (known : IndexParticipants transactions.length) {index : Fin transactions.length}
    {participant : String} :
    index ∈ (indices.foldl (fun known other =>
        (namedAt transactions other).foldl (noteParticipant other) known) known).getD
          participant ∅ ↔
      index ∈ known.getD participant ∅ ∨
        index ∈ indices ∧ participant ≠ "" ∧ participant ∈ namedAt transactions index := by
  induction indices generalizing known with
  | nil => simp
  | cons first rest ih =>
      rw [List.foldl_cons, ih, mem_noteParticipants, List.mem_cons, or_assoc]
      constructor
      · rintro (found | ⟨rfl, named, member⟩ | ⟨inside, named, member⟩)
        · exact .inl found
        · exact .inr ⟨.inl rfl, named, member⟩
        · exact .inr ⟨.inr inside, named, member⟩
      · rintro (found | ⟨rfl | inside, named, member⟩)
        · exact .inl found
        · exact .inr (.inl ⟨rfl, named, member⟩)
        · exact .inr (.inr ⟨inside, named, member⟩)

/-- The index of the participants is made if and only if all actions are known, and leads from a
participant to its transactions. -/
theorem indexParticipants_ok_iff {known : IndexParticipants transactions.length} :
    indexParticipants transactions = .ok known ↔ (∀ index, Known transactions index) ∧
      known = (List.finRange transactions.length).foldl (fun known other =>
        (namedAt transactions other).foldl (noteParticipant other) known) ∅ := by
  unfold indexParticipants
  rw [@runAll_ok_iff _ _ _ _ (Known transactions) fun other known =>
    (namedAt transactions other).foldl (noteParticipant other) known]
  · simp only [List.mem_finRange, true_imp_iff]
  · intro index _ s t
    rw [bind_ok_iff]
    constructor
    · rintro ⟨participants, found, rest⟩
      obtain ⟨hknown, rfl⟩ := participantsAt_eq_ok_iff.mp found
      exact ⟨hknown, (pure_ok_iff.mp rest).symm⟩
    · rintro ⟨hknown, rfl⟩
      exact ⟨_, hknown, rfl⟩

theorem noted_of_indexed {known : IndexParticipants transactions.length}
    (indexed : indexParticipants transactions = .ok known) (participant : String)
    (index : Fin transactions.length) : index ∈ known.getD participant ∅ ↔
      participant ≠ "" ∧ participant ∈ namedAt transactions index := by
  rw [(indexParticipants_ok_iff.mp indexed).2, mem_noteAll, Std.ExtTreeMap.getD_empty]
  simp [List.mem_finRange]

end Participants

/-- The fee of a transaction as a coin; nothing where it is not one. -/
def feeAt (index : Fin transactions.length) : Coin :=
  (feeOf (transactions.get index)).toOption.getD 0

def HasFee (index : Fin transactions.length) : Prop :=
  (transactions.get index).transactionDetails.fee.Proper

@[reducible] def coinSums : AddCommMonoid Coin where
  add_assoc := Coin.add_assoc
  zero_add := Coin.zero_add
  add_zero := Coin.add_zero
  add_comm := Coin.add_comm
  nsmul := nsmulRec

section Search
variable {transactions}

attribute [local instance] coinSums

theorem value_sum {ι : Type} (elements : Finset ι) (amount : ι → Coin) :
    (∑ i ∈ elements, amount i).value = (∑ i ∈ elements, (amount i).value) % Coin.limit := by
  classical
  induction elements using Finset.induction with
  | empty =>
      rw [Finset.sum_empty, Finset.sum_empty, Nat.zero_mod]
      exact Coin.value_zero
  | insert i elements fresh ih =>
      rw [Finset.sum_insert fresh, Finset.sum_insert fresh, Coin.value_add_mod, ih, Nat.add_mod_mod]

theorem feeOf_eq_ok_iff {index : Fin transactions.length} {fee : Coin} :
    feeOf (transactions.get index) = .ok fee ↔
      HasFee transactions index ∧ fee = feeAt transactions index := by
  unfold HasFee feeAt feeOf
  constructor
  · intro found
    refine ⟨(Coin.proper_of_ofMessage found).1, ?_⟩
    rw [found]
    rfl
  · rintro ⟨proper, rfl⟩
    obtain ⟨coin, found, _⟩ := proper.ofMessage
    rw [found]
    rfl

theorem value_feeAt {index : Fin transactions.length} (proper : HasFee transactions index) :
    (feeAt transactions index).value = (transactions.get index).transactionDetails.fee.value := by
  have found := feeOf_eq_ok_iff.mpr ⟨proper, rfl⟩
  exact (Coin.proper_of_ofMessage found).2

def visited (index : Fin transactions.length) (level : Level) : Level :=
  ⟨level.value + feeAt transactions index, level.size + 1,
    level.participants ∪ (namedAt transactions index).toFinset⟩

theorem visit_ok_iff {index : Fin transactions.length} (known : Known transactions index)
    {level after : Level} :
    visit transactions index level = .ok after ↔
      HasFee transactions index ∧ after = visited index level := by
  unfold visit
  rw [bind_ok_iff]
  constructor
  · rintro ⟨fee, found, rest⟩
    obtain ⟨proper, rfl⟩ := feeOf_eq_ok_iff.mp found
    rw [known, ok_bind] at rest
    exact ⟨proper, (pure_ok_iff.mp rest).symm⟩
  · rintro ⟨proper, rfl⟩
    refine ⟨_, feeOf_eq_ok_iff.mpr ⟨proper, rfl⟩, ?_⟩
    rw [known, ok_bind]
    rfl

theorem foldl_visited (indices : List (Fin transactions.length)) (level : Level) :
    indices.foldl (fun level index => visited index level) level =
      ⟨level.value + (indices.map (feeAt transactions)).sum,
        level.size + UInt64.ofNat indices.length,
        level.participants ∪ indices.toFinset.biUnion fun index =>
          (namedAt transactions index).toFinset⟩ := by
  induction indices generalizing level with
  | nil =>
      simp only [List.foldl_nil, List.map_nil, List.sum_nil, List.length_nil, List.toFinset_nil,
        Finset.biUnion_empty, Finset.union_empty]
      rw [Coin.add_zero, show UInt64.ofNat 0 = 0 from rfl, UInt64.add_zero]
  | cons index rest ih =>
      rw [List.foldl_cons, ih, List.map_cons, List.sum_cons, List.toFinset_cons,
        Finset.biUnion_insert, List.length_cons, UInt64.ofNat_add]
      unfold visited
      dsimp only
      rw [Coin.add_assoc, Finset.union_assoc, UInt64.add_assoc, UInt64.add_comm 1]
      rfl

open Classical in
noncomputable def connectedTo (index : Fin transactions.length) :
    Finset (Fin transactions.length) :=
  Finset.univ.filter fun other =>
    other ∈ ((participantGraph transactions).connectedComponentMk index).supp

theorem mem_connectedTo {index other : Fin transactions.length} :
    other ∈ connectedTo index ↔ (participantGraph transactions).Reachable index other := by
  classical
  unfold connectedTo
  rw [Finset.mem_filter, SimpleGraph.ConnectedComponent.mem_supp_iff,
    SimpleGraph.ConnectedComponent.eq]
  exact ⟨fun h => h.2.symm, fun h => ⟨Finset.mem_univ _, h.symm⟩⟩

theorem mem_advance {known : IndexParticipants transactions.length}
    (noted : ∀ (participant : String) (index : Fin transactions.length),
      index ∈ known.getD participant ∅ ↔
        participant ≠ "" ∧ participant ∈ namedAt transactions index)
    (indices : Indices transactions.length) (other : Fin transactions.length) :
    other ∈ (indices.advance known (indices.next.biUnion fun index =>
        (namedAt transactions index).toFinset)).next ↔
      other ∉ indices.used ∪ indices.next ∧
        ∃ index ∈ indices.next, (participantGraph transactions).Adj index other := by
  unfold Indices.advance
  dsimp only
  rw [Finset.mem_biUnion]
  constructor
  · rintro ⟨participant, member, found⟩
    obtain ⟨index, here, named⟩ := Finset.mem_biUnion.mp member
    obtain ⟨there, unused⟩ := Finset.mem_filter.mp found
    obtain ⟨nonempty, named'⟩ := (noted participant other).mp there
    refine ⟨unused, index, here, ?_, participant, nonempty, List.mem_toFinset.mp named, named'⟩
    rintro rfl
    exact unused (Finset.mem_union_right _ here)
  · rintro ⟨unused, index, here, _, participant, nonempty, named, named'⟩
    exact ⟨participant, Finset.mem_biUnion.mpr ⟨index, here, List.mem_toFinset.mpr named⟩,
      Finset.mem_filter.mpr ⟨(noted participant other).mpr ⟨nonempty, named'⟩, unused⟩⟩

theorem HashOrder.toFinset_list {n : ℕ} (order : HashOrder n) (indices : Finset (Fin n)) :
    (order.list indices).toFinset = indices := by
  ext index
  rw [List.mem_toFinset, order.mem_iff]

/-- A level is looked at, in any order, if and only if its fees are coins. -/
theorem level_ok_iff (all_known : ∀ index, Known transactions index)
    (order : HashOrder transactions.length) {next : Finset (Fin transactions.length)}
    {value : Coin} {size : UInt64} {level : Level} :
    runAll (visit transactions) (order.list next) ⟨value, size, ∅⟩ = .ok level ↔
      (∀ index ∈ next, HasFee transactions index) ∧
        level = ⟨value + ∑ index ∈ next, feeAt transactions index,
          size + UInt64.ofNat next.card,
          next.biUnion fun index => (namedAt transactions index).toFinset⟩ := by
  rw [runAll_ok_iff fun index _ _ _ => visit_ok_iff (all_known index), foldl_visited,
    ← List.sum_toFinset _ (order.nodup next), ← List.toFinset_card_of_nodup (order.nodup next),
    order.toFinset_list, Finset.empty_union]
  simp only [order.mem_iff]

theorem sdiff_used_eq {start : Fin transactions.length} {indices : Indices transactions.length}
    (frontier : Frontier (participantGraph transactions) start indices.used indices.next) :
    connectedTo start \ indices.used =
      indices.next ∪ connectedTo start \ (indices.used ∪ indices.next) := by
  ext index
  rw [Finset.mem_sdiff, Finset.mem_union, Finset.mem_sdiff, Finset.mem_union, mem_connectedTo]
  constructor
  · rintro ⟨reachable, unused⟩
    by_cases here : index ∈ indices.next
    · exact .inl here
    · exact .inr ⟨reachable, fun found => found.elim unused here⟩
  · rintro (here | ⟨reachable, new⟩)
    · exact ⟨frontier.reachable index (Finset.mem_union_right _ here),
        Finset.disjoint_right.mp indices.disjoint here⟩
    · exact ⟨reachable, fun used => new (.inl used)⟩

theorem disjoint_next_rest {indices : Indices transactions.length}
    (reached : Finset (Fin transactions.length)) :
    Disjoint indices.next (reached \ (indices.used ∪ indices.next)) := by
  refine Finset.disjoint_left.mpr fun index here rest => ?_
  exact (Finset.mem_sdiff.mp rest).2 (Finset.mem_union_right _ here)

/-- The search ends, with all that is connected to its start, if and only if the fees it meets
are coins. -/
theorem searchConnected_ok_iff (all_known : ∀ index, Known transactions index)
    {known : IndexParticipants transactions.length}
    (noted : ∀ (participant : String) (index : Fin transactions.length),
      index ∈ known.getD participant ∅ ↔
        participant ≠ "" ∧ participant ∈ namedAt transactions index)
    (order : Finset (Fin transactions.length) → HashOrder transactions.length)
    {start : Fin transactions.length} (indices : Indices transactions.length)
    (frontier : Frontier (participantGraph transactions) start indices.used indices.next)
    (value : Coin) (size : UInt64)
    {found : Finset (Fin transactions.length) × Coin × UInt64} :
    searchConnected transactions known order indices value size = .ok found ↔
      (∀ index ∈ connectedTo start \ indices.used, HasFee transactions index) ∧
        found = (connectedTo start,
          value + ∑ index ∈ connectedTo start \ indices.used, feeAt transactions index,
          size + UInt64.ofNat (connectedTo start \ indices.used).card) := by
  induction left : (Finset.univ \ indices.used).card using Nat.strong_induction_on
    generalizing indices value size with
  | _ count ih =>
      rw [searchConnected]
      by_cases done : indices.next = ∅
      · rw [if_pos done, pure_ok_iff]
        rw [done] at frontier
        have all_found : connectedTo start = indices.used := by
          ext index
          rw [mem_connectedTo, frontier.mem_iff]
        rw [all_found, Finset.sdiff_self, Finset.sum_empty, Finset.card_empty, Coin.add_zero,
          show UInt64.ofNat 0 = 0 from rfl, UInt64.add_zero]
        exact ⟨fun same => ⟨fun index member => absurd member (Finset.notMem_empty index),
          same.symm⟩, fun h => h.2.symm⟩
      · rw [if_neg done, bind_ok_iff]
        have split := sdiff_used_eq frontier
        have apart := @disjoint_next_rest _ indices (connectedTo start)
        have decreases : (Finset.univ \ (indices.used ∪ indices.next)).card < count := by
          rw [← left]
          exact card_unfound_lt indices.disjoint (Finset.nonempty_iff_ne_empty.mpr done)
        have rest := fun value size => ih _ decreases
          (indices.advance known (indices.next.biUnion fun index =>
            (namedAt transactions index).toFinset))
          (frontier.step (mem_advance noted indices)) value size rfl
        rw [split, Finset.sum_union apart, Finset.card_union_of_disjoint apart, UInt64.ofNat_add,
          ← Coin.add_assoc, ← UInt64.add_assoc]
        constructor
        · rintro ⟨level, run, goes_on⟩
          obtain ⟨fees, rfl⟩ := (level_ok_iff all_known _).mp run
          obtain ⟨fees', same⟩ := (rest _ _).mp goes_on
          refine ⟨fun index member => ?_, same⟩
          exact (Finset.mem_union.mp member).elim (fees index) (fees' index)
        · rintro ⟨fees, same⟩
          refine ⟨_, (level_ok_iff all_known _).mpr
            ⟨fun index member => fees index (Finset.mem_union_left _ member), rfl⟩, ?_⟩
          exact (rest _ _).mpr
            ⟨fun index member => fees index (Finset.mem_union_right _ member), same⟩

theorem shareLabel_apply {n : ℕ} (order : HashOrder n) (used : Finset (Fin n)) (value : Coin)
    (size : UInt64) (infos : Fin n → ExtentedInfo) (index : Fin n) :
    shareLabel order used value size infos index =
      if index ∈ used then { infos index with value, size } else infos index := by
  have among : ∀ (indices : List (Fin n)) (infos : Fin n → ExtentedInfo),
      indices.foldl (fun infos index =>
        Function.update infos index { infos index with value, size }) infos index =
      if index ∈ indices then { infos index with value, size } else infos index := by
    intro indices
    induction indices with
    | nil =>
        intro infos
        rw [List.foldl_nil, if_neg List.not_mem_nil]
    | cons first rest ih =>
        intro infos
        rw [List.foldl_cons, ih]
        by_cases same : index = first
        · subst same
          rw [Function.update_self, if_pos List.mem_cons_self]
          split_ifs <;> rfl
        · rw [Function.update_of_ne same]
          simp [same]
  unfold shareLabel
  rw [among]
  simp only [order.mem_iff]

theorem connectedTo_eq {index other : Fin transactions.length}
    (reachable : (participantGraph transactions).Reachable index other) :
    connectedTo index = connectedTo other := by
  ext third
  rw [mem_connectedTo, mem_connectedTo]
  exact ⟨fun h => reachable.symm.trans h, fun h => reachable.trans h⟩

noncomputable def labelOf (index : Fin transactions.length) : ExtentedInfo :=
  ⟨∑ other ∈ connectedTo index, feeAt transactions other, UInt64.ofNat (connectedTo index).card,
    transactions.get index⟩

open Classical in
noncomputable def labelsAfter (labelled : List (Fin transactions.length))
    (index : Fin transactions.length) : ExtentedInfo :=
  if ∃ first ∈ labelled, (participantGraph transactions).Reachable first index then labelOf index
  else ⟨0, 0, transactions.get index⟩

theorem labelsAfter_stx (labelled : List (Fin transactions.length))
    (index : Fin transactions.length) :
    (labelsAfter labelled index).stx = transactions.get index := by
  unfold labelsAfter
  split_ifs <;> rfl

theorem card_connectedTo_lt (fits : transactions.length < 2 ^ 64)
    (index : Fin transactions.length) : (connectedTo index).card < 2 ^ 64 := by
  have atMost := Finset.card_le_univ (connectedTo index)
  rw [Fintype.card_fin] at atMost
  omega

theorem labelOf_size (fits : transactions.length < 2 ^ 64) (index : Fin transactions.length) :
    (labelOf index).size.toNat = (connectedTo index).card :=
  UInt64.toNat_ofNat_of_lt' (card_connectedTo_lt fits index)

theorem card_connectedTo_pos (index : Fin transactions.length) : 0 < (connectedTo index).card :=
  Finset.card_pos.mpr ⟨index, mem_connectedTo.mpr (SimpleGraph.Reachable.refl index)⟩

theorem labelOf_size_pos (fits : transactions.length < 2 ^ 64) (index : Fin transactions.length) :
    0 < (labelOf index).size := by
  rw [UInt64.lt_iff_toNat_lt, labelOf_size fits]
  exact card_connectedTo_pos index

/-- A transaction gets its label with all that are connected to it, if their fees are coins. -/
theorem labelStep_ok_iff (fits : transactions.length < 2 ^ 64)
    (all_known : ∀ index, Known transactions index)
    {known : IndexParticipants transactions.length}
    (noted : ∀ (participant : String) (index : Fin transactions.length),
      index ∈ known.getD participant ∅ ↔
        participant ≠ "" ∧ participant ∈ namedAt transactions index)
    (orders : Fin transactions.length → Finset (Fin transactions.length) →
      HashOrder transactions.length)
    {labelled : List (Fin transactions.length)}
    (fees : ∀ first ∈ labelled, ∀ other ∈ connectedTo first, HasFee transactions other)
    (index : Fin transactions.length) {after : Fin transactions.length → ExtentedInfo} :
    labelStep transactions known orders index (labelsAfter labelled) = .ok after ↔
      (∀ other ∈ connectedTo index, HasFee transactions other) ∧
        after = labelsAfter (labelled ++ [index]) := by
  classical
  have grows : ∀ other, labelsAfter (labelled ++ [index]) other =
      if other ∈ connectedTo index then labelOf other else labelsAfter labelled other := by
    intro other
    unfold labelsAfter
    simp only [List.mem_append, List.mem_singleton, mem_connectedTo]
    by_cases here : (participantGraph transactions).Reachable index other
    · rw [if_pos ⟨index, .inr rfl, here⟩, if_pos here]
    · rw [if_neg here]
      refine if_congr ⟨?_, ?_⟩ rfl rfl
      · rintro ⟨first, member | rfl, reachable⟩
        · exact ⟨first, member, reachable⟩
        · exact absurd reachable here
      · rintro ⟨first, member, reachable⟩
        exact ⟨first, .inl member, reachable⟩
  unfold labelStep
  by_cases done : ∃ first ∈ labelled, (participantGraph transactions).Reachable first index
  · obtain ⟨first, member, reachable⟩ := done
    have has_label : labelsAfter labelled index = labelOf index := if_pos ⟨first, member, reachable⟩
    have same : labelsAfter (labelled ++ [index]) = labelsAfter labelled := by
      funext other
      rw [grows]
      by_cases here : other ∈ connectedTo index
      · rw [if_pos here]
        exact (if_pos ⟨first, member, reachable.trans (mem_connectedTo.mp here)⟩).symm
      · rw [if_neg here]
    rw [if_pos (by rw [has_label]; exact labelOf_size_pos fits index), pure_ok_iff, same]
    refine ⟨fun equal => ⟨fun other here => fees first member other ?_, equal.symm⟩,
      fun h => h.2.symm⟩
    rw [connectedTo_eq reachable]
    exact here
  · have unlabelled : labelsAfter labelled index = ⟨0, 0, transactions.get index⟩ := if_neg done
    rw [unlabelled, if_neg (UInt64.lt_irrefl 0), bind_ok_iff]
    have from_start : connectedTo index \ (Indices.start index).used = connectedTo index :=
      Finset.sdiff_empty
    have search : ∀ found, searchConnected transactions known (orders index)
        (Indices.start index) 0 0 = .ok found ↔
        (∀ other ∈ connectedTo index, HasFee transactions other) ∧
          found = (connectedTo index, (labelOf index).value, (labelOf index).size) := by
      intro found
      rw [searchConnected_ok_iff all_known noted (orders index) (Indices.start index)
        (Frontier.initial _ index) 0 0, from_start, Coin.zero_add, UInt64.zero_add]
      rfl
    have shares : shareLabel (orders index (connectedTo index)) (connectedTo index)
        (labelOf index).value (labelOf index).size (labelsAfter labelled) =
        labelsAfter (labelled ++ [index]) := by
      funext other
      rw [shareLabel_apply, grows]
      by_cases here : other ∈ connectedTo index
      · rw [if_pos here, if_pos here]
        unfold labelOf
        dsimp only
        rw [labelsAfter_stx, connectedTo_eq (mem_connectedTo.mp here)]
      · rw [if_neg here, if_neg here]
    constructor
    · rintro ⟨found, run, shared⟩
      obtain ⟨proper, rfl⟩ := (search found).mp run
      exact ⟨proper, (pure_ok_iff.mp shared).symm.trans shares⟩
    · rintro ⟨proper, rfl⟩
      exact ⟨_, (search _).mpr ⟨proper, rfl⟩, congrArg Except.ok shares⟩

/-- The loop labels the transactions one after the other, if their fees are coins. -/
theorem labelRun_ok_iff (fits : transactions.length < 2 ^ 64)
    (all_known : ∀ index, Known transactions index)
    {known : IndexParticipants transactions.length}
    (noted : ∀ (participant : String) (index : Fin transactions.length),
      index ∈ known.getD participant ∅ ↔
        participant ≠ "" ∧ participant ∈ namedAt transactions index)
    (orders : Fin transactions.length → Finset (Fin transactions.length) →
      HashOrder transactions.length)
    (rest : List (Fin transactions.length)) {labelled : List (Fin transactions.length)}
    (fees : ∀ first ∈ labelled, ∀ other ∈ connectedTo first, HasFee transactions other)
    {after : Fin transactions.length → ExtentedInfo} :
    runAll (labelStep transactions known orders) rest (labelsAfter labelled) = .ok after ↔
      (∀ index ∈ rest, ∀ other ∈ connectedTo index, HasFee transactions other) ∧
        after = labelsAfter (labelled ++ rest) := by
  induction rest generalizing labelled with
  | nil =>
      rw [runAll_nil, List.append_nil]
      exact ⟨fun same => ⟨fun _ member => absurd member List.not_mem_nil,
        (Except.ok.inj same).symm⟩, fun h => congrArg Except.ok h.2.symm⟩
  | cons index rest ih =>
      have grown : (∀ other ∈ connectedTo index, HasFee transactions other) →
          ∀ first ∈ labelled ++ [index], ∀ other ∈ connectedTo first,
            HasFee transactions other := by
        intro here first member
        rcases List.mem_append.mp member with before | last
        · exact fees first before
        · rw [List.mem_singleton.mp last]
          exact here
      rw [runAll_cons_ok_iff, List.forall_mem_cons, List.append_cons]
      constructor
      · rintro ⟨infos, first, run⟩
        obtain ⟨here, rfl⟩ :=
          (labelStep_ok_iff fits all_known noted orders fees index).mp first
        obtain ⟨others, same⟩ := (ih (grown here)).mp run
        exact ⟨⟨here, others⟩, same⟩
      · rintro ⟨⟨here, others⟩, same⟩
        exact ⟨_, (labelStep_ok_iff fits all_known noted orders fees index).mpr ⟨here, rfl⟩,
          (ih (grown here)).mpr ⟨others, same⟩⟩

/-- All transactions get their labels, whatever the orders, if and only if all actions are known
and all fees are coins. -/
theorem labelFees_ok_iff (fits : transactions.length < 2 ^ 64)
    (orders : Fin transactions.length → Finset (Fin transactions.length) →
      HashOrder transactions.length)
    {infos : Fin transactions.length → ExtentedInfo} :
    labelFees transactions orders = .ok infos ↔
      (∀ index, Known transactions index) ∧ (∀ index, HasFee transactions index) ∧
        infos = labelOf := by
  have unlabelled : (fun index => ⟨0, 0, transactions.get index⟩) =
      @labelsAfter transactions [] := by
    funext index
    exact (if_neg fun ⟨_, member, _⟩ => List.not_mem_nil member).symm
  have labelled : labelsAfter (List.finRange transactions.length) = labelOf := by
    funext index
    exact if_pos ⟨index, List.mem_finRange index, SimpleGraph.Reachable.refl index⟩
  unfold labelFees
  rw [bind_ok_iff, unlabelled]
  constructor
  · rintro ⟨known, indexed, run⟩
    obtain ⟨all_known, _⟩ := indexParticipants_ok_iff.mp indexed
    obtain ⟨fees, rfl⟩ := (labelRun_ok_iff fits all_known (noted_of_indexed indexed) orders
      (List.finRange transactions.length)
      (fun _ member => absurd member List.not_mem_nil)).mp run
    refine ⟨all_known, fun index => fees index (List.mem_finRange index) index ?_, ?_⟩
    · exact mem_connectedTo.mpr (SimpleGraph.Reachable.refl index)
    · rw [List.nil_append, labelled]
  · rintro ⟨all_known, fees, rfl⟩
    have indexed := indexParticipants_ok_iff.mpr ⟨all_known, rfl⟩
    refine ⟨_, indexed, (labelRun_ok_iff fits all_known (noted_of_indexed indexed) orders
      (List.finRange transactions.length)
      (fun _ member => absurd member List.not_mem_nil)).mpr ⟨fun _ _ other _ => fees other, ?_⟩⟩
    rw [List.nil_append, labelled]

theorem sort_labels (fits : transactions.length < 2 ^ 64) :
    ∃ sorted, sortByAmount ExtentedInfo.average
      (List.ofFn (@labelOf transactions)) = .ok sorted := by
  have averaged : ∀ info ∈ List.ofFn (@labelOf transactions),
      ∃ average, info.average = .ok average := by
    intro info member
    obtain ⟨index, rfl⟩ := List.mem_ofFn.mp member
    have divides : (labelOf index).size ≠ 0 :=
      UInt64.pos_iff_ne_zero.mp (labelOf_size_pos fits index)
    exact ⟨_, dif_neg divides⟩
  choose! average average_eq using averaged
  unfold sortByAmount
  split_ifs
  · exact ⟨_, rfl⟩
  · rw [mapM_of_ok (g := fun info => (average info, info)) fun info member => by
      rw [average_eq info member]
      rfl]
    exact ⟨_, rfl⟩

end Search

/-- Every transaction gets the fees and the number of its connected component, and no size that
the sort divides by is zero. -/
def Labelled (orders : Fin transactions.length → Finset (Fin transactions.length) →
    HashOrder transactions.length) : Prop :=
  ∃ infos, labelFees transactions orders = .ok infos ∧
    (∀ index, (infos index).stx = transactions.get index ∧
      (infos index).size.toNat = (connectedTo index).card ∧ (infos index).size ≠ 0 ∧
      (infos index).value.value =
        ∑ other ∈ connectedTo index, (transactions.get other).transactionDetails.fee.value) ∧
    ∃ sorted, sortByAmount ExtentedInfo.average (List.ofFn infos) = .ok sorted

/-- The actions are known, the fees are coins, and those of a component are together less than
the largest amount. -/
def FeesFit : Prop :=
  (∀ index, Known transactions index) ∧ (∀ index, HasFee transactions index) ∧
    ∀ index : Fin transactions.length, ∑ other ∈ connectedTo index,
      (transactions.get other).transactionDetails.fee.value < Coin.limit

/-- The labelling loop always ends; the labels are the sums and the sizes of the connected
components exactly when the fees fit. A vector has fewer elements than its size can count. -/
theorem labelled_iff_feesFit (fits : transactions.length < 2 ^ 64)
    (orders : Fin transactions.length → Finset (Fin transactions.length) →
      HashOrder transactions.length) :
    Labelled transactions orders ↔ FeesFit transactions := by
  have total : ∀ (_ : ∀ index, HasFee transactions index) (index : Fin transactions.length),
      (labelOf index).value.value = (∑ other ∈ connectedTo index,
        (transactions.get other).transactionDetails.fee.value) % Coin.limit := by
    intro fees index
    unfold labelOf
    rw [value_sum, Finset.sum_congr rfl fun other _ => value_feeAt (fees other)]
  constructor
  · rintro ⟨infos, run, labels, _⟩
    obtain ⟨all_known, fees, rfl⟩ := (labelFees_ok_iff fits orders).mp run
    refine ⟨all_known, fees, fun index => ?_⟩
    rw [← (labels index).2.2.2]
    exact Coin.value_bound _
  · rintro ⟨all_known, fees, bounded⟩
    refine ⟨labelOf, (labelFees_ok_iff fits orders).mpr ⟨all_known, fees, rfl⟩,
      fun index => ⟨rfl, labelOf_size fits index, ?_, ?_⟩, sort_labels fits⟩
    · exact UInt64.pos_iff_ne_zero.mp (labelOf_size_pos fits index)
    · rw [total fees, Nat.mod_eq_of_lt (bounded index)]

def HashOrder.increasing (n : ℕ) : HashOrder n where
  list indices := (List.finRange n).filter (· ∈ indices)
  nodup indices := (List.nodup_finRange n).filter _
  mem_iff indices index := by
    rw [List.mem_filter]
    exact ⟨fun h => of_decide_eq_true h.2, fun h => ⟨List.mem_finRange index, decide_eq_true h⟩⟩

/-- A file of two authors, for a fee with a whole coin among the fractions. The copies that they
sign apart go into the pool without a look at the fee, and are merged when a block is mined. -/
def sharedFile : SignedTransaction :=
  ⟨⟨0, 0, ⟨0, 100000000⟩, .file ⟨"file", ["first", "second"]⟩⟩, [⟨"first", ""⟩, ⟨"second", ""⟩]⟩

/-- No block is mined with the merged file in the pool. -/
theorem sharedFile_unlabelled :
    ¬ ∀ (transactions : List SignedTransaction)
      (orders : Fin transactions.length → Finset (Fin transactions.length) →
        HashOrder transactions.length),
      transactions.length < 2 ^ 64 → Labelled transactions orders := by
  intro claim
  have fits : [sharedFile].length < 2 ^ 64 := by decide
  obtain ⟨infos, run, _⟩ := claim [sharedFile] (fun _ _ => .increasing _) fits
  have fee := ((labelFees_ok_iff fits _).mp run).2.1 ⟨0, Nat.zero_lt_one⟩
  have improper : (Coin.ofMessage ⟨0, 100000000⟩).isOk = false := by decide
  exact Bool.false_ne_true (improper.symm.trans fee)

def paidTransactions : List SignedTransaction :=
  [⟨⟨0, 0, ⟨0, 100⟩, .file ⟨"file", ["first", "second"]⟩⟩, [⟨"first", ""⟩, ⟨"second", ""⟩]⟩,
    ⟨⟨0, 0, ⟨0, 200⟩, .transfer ⟨"second", "third", ⟨1, 0⟩, ""⟩⟩, [⟨"second", ""⟩]⟩,
    ⟨⟨0, 0, ⟨0, 0⟩, .transfer ⟨"fourth", "fifth", ⟨1, 0⟩, ""⟩⟩, [⟨"fourth", ""⟩]⟩]

theorem paidTransactions_labelled :
    Labelled paidTransactions (fun _ _ => .increasing _) := by
  refine (labelled_iff_feesFit paidTransactions (by decide) _).mpr ⟨?_, ?_, fun index => ?_⟩
  · unfold Known
    decide
  · unfold HasFee Message.Coin.Proper
    decide
  · refine (Finset.sum_le_sum_of_subset (Finset.subset_univ _)).trans_lt ?_
    decide +kernel

end Publiq
