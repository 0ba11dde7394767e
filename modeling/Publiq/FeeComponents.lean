import Publiq.FeeAveraging
import Mathlib.Algebra.Order.BigOperators.Group.Finset
import Mathlib.Combinatorics.SimpleGraph.Paths

/-! The average fees by which `mine_block` sorts are those of the labels: the transactions that are
reached in as many rounds as there are transactions are those of the connected component. -/
namespace Publiq
open Message Checked

variable {transactions : List SignedTransaction}

def namedLists (transactions : List SignedTransaction) : List (List String) :=
  (List.finRange transactions.length).map (namedAt transactions)

theorem getD_namedLists (index : Fin transactions.length) :
    (namedLists transactions).getD index [] = namedAt transactions index := by
  unfold namedLists
  rw [List.getD_eq_getElem?_getD, List.getElem?_map, List.getElem?_eq_getElem (by simp)]
  simp

theorem length_namedLists : (namedLists transactions).length = transactions.length := by
  rw [namedLists, List.length_map, List.length_finRange]

theorem shareParticipant_iff {a b : List String} : shareParticipant a b = true ↔
    ∃ participant, participant ≠ "" ∧ participant ∈ a ∧ participant ∈ b := by
  unfold shareParticipant
  rw [List.any_eq_true]
  simp only [Bool.and_eq_true, ne_eq, decide_eq_true_eq]
  exact exists_congr fun _ => and_left_comm

theorem mem_spread {reached : List ℕ} (inside : ∀ other ∈ reached, other < transactions.length)
    (index : Fin transactions.length) : (index : ℕ) ∈ spread (namedLists transactions) reached ↔
      ∃ other : Fin transactions.length, (other : ℕ) ∈ reached ∧
        (other = index ∨ (participantGraph transactions).Adj other index) := by
  unfold spread
  rw [List.mem_filter, List.mem_range, length_namedLists, List.any_eq_true]
  constructor
  · rintro ⟨_, other, hother, hlinked⟩
    refine ⟨⟨other, inside other hother⟩, hother, ?_⟩
    by_cases same : (⟨other, inside other hother⟩ : Fin transactions.length) = index
    · exact .inl same
    · rw [Bool.or_eq_true, decide_eq_true_eq, getD_namedLists index,
        getD_namedLists ⟨other, inside other hother⟩, shareParticipant_iff] at hlinked
      exact .inr ⟨same, hlinked.resolve_left fun h => same (Fin.ext h)⟩
  · rintro ⟨other, hother, hlinked⟩
    refine ⟨index.isLt, other, hother, ?_⟩
    rw [Bool.or_eq_true, decide_eq_true_eq, getD_namedLists, getD_namedLists, shareParticipant_iff]
    exact hlinked.imp (congrArg Fin.val) And.right

theorem inside_spread (rounds : ℕ) (start : Fin transactions.length) :
    ∀ other ∈ (spread (namedLists transactions))^[rounds] [↑start],
      other < transactions.length := by
  cases rounds with
  | zero => exact List.forall_mem_singleton.mpr start.isLt
  | succ rounds =>
      intro other hother
      rw [Function.iterate_succ_apply', spread, List.mem_filter, List.mem_range,
        length_namedLists] at hother
      exact hother.1

theorem mem_rounds (rounds : ℕ) (start index : Fin transactions.length) :
    (index : ℕ) ∈ (spread (namedLists transactions))^[rounds] [↑start] ↔
      ∃ walk : (participantGraph transactions).Walk index start, walk.length ≤ rounds := by
  induction rounds generalizing index with
  | zero =>
      rw [Function.iterate_zero_apply, List.mem_singleton]
      constructor
      · intro same
        obtain rfl := Fin.ext same
        exact ⟨.nil, le_rfl⟩
      · rintro ⟨walk, short⟩
        rw [walk.eq_of_length_eq_zero (Nat.le_zero.mp short)]
  | succ rounds ih =>
      rw [Function.iterate_succ_apply', mem_spread (inside_spread rounds start)]
      constructor
      · rintro ⟨other, hother, rfl | linked⟩
        · obtain ⟨walk, short⟩ := (ih other).mp hother
          exact ⟨walk, Nat.le_succ_of_le short⟩
        · obtain ⟨walk, short⟩ := (ih other).mp hother
          exact ⟨.cons linked.symm walk, Nat.succ_le_succ short⟩
      · rintro ⟨walk, short⟩
        cases walk with
        | nil => exact ⟨start, (ih start).mpr ⟨.nil, Nat.zero_le _⟩, .inl rfl⟩
        | @cons _ other _ linked rest =>
            exact ⟨other, (ih other).mpr ⟨rest, Nat.le_of_succ_le_succ short⟩, .inr linked.symm⟩

theorem nodup_rounds {rounds : ℕ} (start : Fin transactions.length) :
    ((spread (namedLists transactions))^[rounds] [↑start]).Nodup := by
  cases rounds with
  | zero => exact List.nodup_singleton _
  | succ rounds =>
      rw [Function.iterate_succ_apply']
      exact List.nodup_range.filter _

/-- With as many rounds as there are transactions, the component is reached, each transaction of it
once. -/
theorem component_eq (start : Fin transactions.length) :
    (component (namedLists transactions) start).Nodup ∧
      (component (namedLists transactions) start).toFinset =
        (connectedTo start).map Fin.valEmbedding := by
  unfold component
  rw [length_namedLists]
  refine ⟨nodup_rounds start, ?_⟩
  ext other
  rw [List.mem_toFinset, Finset.mem_map]
  constructor
  · intro hother
    have inside := inside_spread _ start other hother
    obtain ⟨walk, _⟩ := (mem_rounds _ start ⟨other, inside⟩).mp hother
    exact ⟨⟨other, inside⟩, mem_connectedTo.mpr walk.reachable.symm, rfl⟩
  · rintro ⟨index, connected, rfl⟩
    obtain ⟨walk, path⟩ := (mem_connectedTo.mp connected).symm.exists_isPath
    have short := path.length_lt
    rw [Fintype.card_fin] at short
    exact (mem_rounds _ start index).mpr ⟨walk, short.le⟩

section
attribute [local instance] coinSums

theorem foldl_component (start : Fin transactions.length) {fees : List Coin}
    (hfees : fees = (List.finRange transactions.length).map (feeAt transactions)) :
    (component (namedLists transactions) start).foldl
        (fun sum member => sum + fees.getD member 0) 0 =
      ∑ other ∈ connectedTo start, feeAt transactions other := by
  obtain ⟨nodup, members⟩ := component_eq start
  have hfee (index : Fin transactions.length) : fees.getD index 0 = feeAt transactions index := by
    rw [hfees, List.getD_eq_getElem?_getD, List.getElem?_map, List.getElem?_eq_getElem (by simp)]
    simp
  calc (component (namedLists transactions) start).foldl
        (fun sum member => sum + fees.getD member 0) 0
      = ((component (namedLists transactions) start).map fun member => fees.getD member 0).sum := by
        rw [List.sum_eq_foldl, List.foldl_map]
    _ = ∑ member ∈ (connectedTo start).map Fin.valEmbedding, fees.getD member 0 := by
        rw [← members, List.sum_toFinset _ nodup]
    _ = ∑ other ∈ connectedTo start, feeAt transactions other := by
        rw [Finset.sum_map]
        exact Finset.sum_congr rfl fun other _ => hfee other

end

theorem length_component (start : Fin transactions.length) :
    (component (namedLists transactions) start).length = (connectedTo start).card := by
  obtain ⟨nodup, members⟩ := component_eq start
  rw [← List.toFinset_card_of_nodup nodup, members, Finset.card_map]

theorem mapM_finRange {β : Type} (f : SignedTransaction → Checked β) :
    transactions.mapM f = (List.finRange transactions.length).mapM fun index =>
      f (transactions.get index) := by
  conv_lhs => rw [← List.map_get_finRange transactions]
  rw [List.mapM_map]
  rfl

theorem zipIdx_eq_map : transactions.zipIdx =
    (List.finRange transactions.length).map fun index => (transactions.get index, ↑index) := by
  apply List.ext_getElem
  · rw [List.length_zipIdx, List.length_map, List.length_finRange]
  · intro i _ _
    simp

theorem ok_of_mapM {α β : Type} {f : α → Checked β} {as : List α} {bs : List β}
    (h : as.mapM f = .ok bs) : ∀ a ∈ as, ∃ b, f a = .ok b := by
  induction as generalizing bs with
  | nil => exact List.forall_mem_nil _
  | cons a rest ih =>
      rw [List.mapM_cons] at h
      obtain ⟨b, hb, h⟩ := bind_ok_iff.mp h
      obtain ⟨rest', hrest, _⟩ := bind_ok_iff.mp h
      exact List.forall_mem_cons.mpr ⟨⟨b, hb⟩, ih hrest⟩

attribute [local instance] coinSums in
theorem averageFees_labelOf (known : ∀ index, Known transactions index)
    (fees : ∀ index, HasFee transactions index) : averageFees transactions =
      (List.ofFn (@labelOf transactions)).mapM fun info => (·, info.stx) <$> info.average := by
  have hparticipants : (transactions.mapM fun signedTransaction =>
      actionParticipants signedTransaction.transactionDetails.action) =
        .ok (namedLists transactions) := by
    rw [mapM_finRange]
    exact mapM_of_ok fun index _ => known index
  have hfees : transactions.mapM feeOf =
      .ok ((List.finRange transactions.length).map (feeAt transactions)) := by
    rw [mapM_finRange]
    exact mapM_of_ok fun index _ => feeOf_eq_ok_iff.mpr ⟨fees index, rfl⟩
  rw [averageFees, hparticipants, ok_bind, hfees, ok_bind, zipIdx_eq_map, List.mapM_map,
    List.ofFn_eq_map, List.mapM_map]
  congr 1
  funext index
  dsimp only [Function.comp_apply]
  rw [foldl_component index rfl, length_component]
  rfl

/-- The averages that `mine_block` sorts by are those of the labels, whatever the orders in which
the labelling goes through its sets. -/
theorem averageFees_ok_iff (fits : transactions.length < 2 ^ 64)
    (orders : Fin transactions.length → Finset (Fin transactions.length) →
      HashOrder transactions.length) {averages : List (Coin × SignedTransaction)} :
    averageFees transactions = .ok averages ↔ ∃ infos, labelFees transactions orders = .ok infos ∧
      (List.ofFn infos).mapM (fun info => (·, info.stx) <$> info.average) = .ok averages := by
  constructor
  · intro h
    obtain ⟨participants, hparticipants, hrest⟩ := bind_ok_iff.mp h
    obtain ⟨amounts, hamounts, _⟩ := bind_ok_iff.mp hrest
    rw [mapM_finRange] at hparticipants hamounts
    have known (index : Fin transactions.length) : Known transactions index := by
      obtain ⟨named, hnamed⟩ := ok_of_mapM hparticipants index (List.mem_finRange index)
      exact (participantsAt_eq_ok_iff.mp hnamed).1
    have fees (index : Fin transactions.length) : HasFee transactions index := by
      obtain ⟨fee, hfee⟩ := ok_of_mapM hamounts index (List.mem_finRange index)
      exact (feeOf_eq_ok_iff.mp hfee).1
    exact ⟨labelOf, (labelFees_ok_iff fits orders).mpr ⟨known, fees, rfl⟩,
      (averageFees_labelOf known fees).symm.trans h⟩
  · rintro ⟨infos, run, h⟩
    obtain ⟨known, fees, rfl⟩ := (labelFees_ok_iff fits orders).mp run
    exact (averageFees_labelOf known fees).trans h

end Publiq
