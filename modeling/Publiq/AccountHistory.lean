import Std.Data.ExtTreeSet
import Mathlib.Data.List.Range
import Mathlib.Data.UInt

/-! `range_break` and `get_history` of the explorer: which blocks of an account are walked,
and in what order their transactions and their rewards are shown. -/
namespace Publiq

/-- The bounds of a walk over block numbers, the upper one not in it. -/
structure BlockRange where
  min : UInt64
  max : UInt64
  deriving DecidableEq

def BlockRange.Holds (range : BlockRange) (block : UInt64) : Prop :=
  range.min ≤ block ∧ block < range.max

/-- The five walks of `get_history`. -/
structure BrokenRange where
  rw1 : BlockRange := ⟨0, 0⟩
  tx1 : BlockRange := ⟨0, 0⟩
  rwtx : BlockRange := ⟨0, 0⟩
  rw2 : BlockRange := ⟨0, 0⟩
  tx2 : BlockRange := ⟨0, 0⟩
  deriving DecidableEq

/-- `range_break`. -/
def rangeBreak (rw tx : BlockRange) : BrokenRange :=
  if rw.max ≤ tx.min then { rw1 := rw, tx2 := tx }
  else if tx.max ≤ rw.min then { tx1 := tx, rw2 := rw }
  else
    { rw1 := if rw.min < tx.min then ⟨rw.min, tx.min⟩ else ⟨0, 0⟩
      tx1 := if tx.min < rw.min then ⟨tx.min, rw.min⟩ else ⟨0, 0⟩
      rw2 := if rw.max > tx.max then ⟨tx.max, rw.max⟩ else ⟨0, 0⟩
      tx2 := if tx.max > rw.max then ⟨rw.max, tx.max⟩ else ⟨0, 0⟩
      rwtx := ⟨if rw.min < tx.min then tx.min else rw.min,
        if tx.max < rw.max then tx.max else rw.max⟩ }

/-- The blocks of `for (i = min; i != max; ++i)`, which goes on from zero if it must. -/
def BlockRange.blocks (range : BlockRange) : List UInt64 :=
  (List.range (range.max - range.min).toNat).map fun k => range.min + UInt64.ofNat k

theorem BlockRange.blocks_self (block : UInt64) : (⟨block, block⟩ : BlockRange).blocks = [] := by
  simp [blocks]

/-- The range walks the numbers from `a` to `b`. -/
def BlockRange.Spans (range : BlockRange) (a b : ℕ) : Prop :=
  range.blocks = (List.range' a (b - a)).map UInt64.ofNat

theorem BlockRange.spans_steps (range : BlockRange) :
    range.Spans range.min.toNat (range.min.toNat + (range.max - range.min).toNat) := by
  unfold Spans blocks
  rw [Nat.add_sub_cancel_left, List.range'_eq_map_range, List.map_map]
  apply List.map_congr_left
  intro k _
  rw [Function.comp_apply, UInt64.ofNat_add, UInt64.ofNat_toNat]

theorem BlockRange.spans {min max : UInt64} (h : min.toNat ≤ max.toNat) :
    (⟨min, max⟩ : BlockRange).Spans min.toNat max.toNat := by
  have steps := spans_steps ⟨min, max⟩
  simp only at steps
  rwa [UInt64.toNat_sub_of_le _ _ (UInt64.le_iff_toNat_le.mpr h), Nat.add_sub_cancel' h] at steps

theorem BlockRange.spans_wrap {min : UInt64} (h : min ≠ 0) :
    (⟨min, 0⟩ : BlockRange).Spans min.toNat (2 ^ 64) := by
  have steps := spans_steps ⟨min, 0⟩
  have positive : min.toNat ≠ 0 := fun zero => h (UInt64.toNat_inj.mp zero)
  have hmin := min.toNat_lt
  have zero : (0 : UInt64).toNat = 0 := rfl
  simp only at steps
  rwa [UInt64.toNat_sub, zero, show min.toNat + (2 ^ 64 - min.toNat + 0) % 2 ^ 64 = 2 ^ 64 by
    omega] at steps

/-- A block of one account whose entries are put into the history. -/
inductive HistoryVisit where
  | transactions (block : UInt64)
  | rewards (block : UInt64)
  deriving DecidableEq

namespace AccountHistory

/-- `set<uint64_t>`. -/
abbrev Blocks := Std.ExtTreeSet UInt64

def select (blockStart blockCount : UInt64) (index : Blocks) : Blocks :=
  index.filter fun block => block ≥ blockStart &&
    (block < blockStart + blockCount || blockStart > blockStart + blockCount)

/-- From `*set.cbegin()` to `*set.crbegin() + 1`, zeros for an empty set. -/
def bounds (blocks : Blocks) : BlockRange :=
  ⟨blocks.min?.getD 0, (blocks.max?.map (· + 1)).getD 0⟩

def visitTransactions (tx : Blocks) (block : UInt64) : List HistoryVisit :=
  if block ∈ tx then [.transactions block] else []

def visitRewards (rw : Blocks) (block : UInt64) : List HistoryVisit :=
  if block ∈ rw then [.rewards block] else []

/-- The loops of `get_history` over the blocks selected. -/
def walk (tx rw : Blocks) : List HistoryVisit :=
  let broken := rangeBreak (bounds rw) (bounds tx)
  broken.tx1.blocks.flatMap (visitTransactions tx) ++
    broken.rw1.blocks.flatMap (visitRewards rw) ++
    broken.rwtx.blocks.flatMap (fun block => visitTransactions tx block ++ visitRewards rw block) ++
    broken.tx2.blocks.flatMap (visitTransactions tx) ++
    broken.rw2.blocks.flatMap (visitRewards rw)

/-- `get_history`: the blocks whose entries it shows, in order. -/
def getHistory (blockStart blockCount : UInt64) (transactionIndex rewardIndex : Blocks) :
    List HistoryVisit :=
  walk (select blockStart blockCount transactionIndex) (select blockStart blockCount rewardIndex)

variable {tx rw : Blocks}

def visitBoth (tx rw : Blocks) (n : ℕ) : List HistoryVisit :=
  visitTransactions tx (UInt64.ofNat n) ++ visitRewards rw (UInt64.ofNat n)

/-- What is shown of the blocks from `a` to `b`, one after the other. -/
def inOrder (tx rw : Blocks) (a b : ℕ) : List HistoryVisit :=
  (List.range' a (b - a)).flatMap (visitBoth tx rw)

def plainMerge (tx rw : Blocks) : List HistoryVisit := inOrder tx rw 0 (2 ^ 64)

theorem inOrder_append (tx rw : Blocks) {a b c : ℕ} (hab : a ≤ b) (hbc : b ≤ c) :
    inOrder tx rw a c = inOrder tx rw a b ++ inOrder tx rw b c := by
  unfold inOrder
  rw [← List.flatMap_append]
  congr 1
  have joined : List.range' a (b - a) ++ List.range' (a + (b - a)) (c - b) =
      List.range' a ((b - a) + (c - b)) := by simp
  rw [Nat.add_sub_cancel' hab] at joined
  rw [joined]
  congr 1
  omega

def Misses (blocks : Blocks) (a b : ℕ) : Prop :=
  ∀ block ∈ blocks, block.toNat < a ∨ b ≤ block.toNat

theorem Misses.notMem {blocks : Blocks} {a b n : ℕ} (misses : Misses blocks a b)
    (bound : b ≤ 2 ^ 64) (member : n ∈ List.range' a (b - a)) : UInt64.ofNat n ∉ blocks := by
  intro found
  have range := List.mem_range'_1.mp member
  have value : (UInt64.ofNat n).toNat = n := UInt64.toNat_ofNat_of_lt' (by
    change n < 2 ^ 64
    omega)
  have side := misses _ found
  rw [value] at side
  omega

/-- Between bounds without rewards only the transactions are shown. -/
theorem inOrder_transactions {a b : ℕ} (bound : b ≤ 2 ^ 64) (misses : Misses rw a b)
    {range : BlockRange} (spans : range.Spans a b) :
    range.blocks.flatMap (visitTransactions tx) = inOrder tx rw a b := by
  rw [spans, List.flatMap_map]
  refine List.flatMap_congr fun n member => ?_
  rw [visitBoth, visitRewards, if_neg (misses.notMem bound member), List.append_nil]

theorem inOrder_rewards {a b : ℕ} (bound : b ≤ 2 ^ 64) (misses : Misses tx a b)
    {range : BlockRange} (spans : range.Spans a b) :
    range.blocks.flatMap (visitRewards rw) = inOrder tx rw a b := by
  rw [spans, List.flatMap_map]
  refine List.flatMap_congr fun n member => ?_
  rw [visitBoth, visitTransactions, if_neg (misses.notMem bound member), List.nil_append]

theorem inOrder_both (tx rw : Blocks) {a b : ℕ} {range : BlockRange} (spans : range.Spans a b) :
    range.blocks.flatMap (fun block => visitTransactions tx block ++ visitRewards rw block) =
      inOrder tx rw a b := by
  rw [spans, List.flatMap_map]
  rfl

theorem inOrder_nil {a b : ℕ} (bound : b ≤ 2 ^ 64) (missTx : Misses tx a b)
    (missRw : Misses rw a b) : inOrder tx rw a b = [] := by
  rw [inOrder, List.flatMap_eq_nil_iff]
  intro n member
  rw [visitBoth, visitTransactions, visitRewards, if_neg (missTx.notMem bound member),
    if_neg (missRw.notMem bound member), List.append_nil]

def Within (blocks : Blocks) (a b : ℕ) : Prop :=
  ∀ block ∈ blocks, a ≤ block.toNat ∧ block.toNat < b

theorem Within.misses {blocks : Blocks} {a b c d : ℕ} (within : Within blocks a b)
    (apart : d ≤ a ∨ b ≤ c) : Misses blocks c d := by
  intro block member
  have := within block member
  omega

def lastBlock : UInt64 := 18446744073709551615

theorem le_lastBlock (block : UInt64) : block ≤ lastBlock := by
  rw [UInt64.le_iff_toNat_le]
  have := block.toNat_lt
  change block.toNat ≤ 18446744073709551615
  omega

theorem bounds_of_ne_empty {blocks : Blocks} (h : blocks ≠ ∅) :
    ∃ first ∈ blocks, ∃ last ∈ blocks, bounds blocks = ⟨first, last + 1⟩ ∧
      ∀ block ∈ blocks, first ≤ block ∧ block ≤ last := by
  obtain ⟨first, hfirst⟩ := Option.isSome_iff_exists.mp
    (Std.ExtTreeSet.isSome_min?_iff_ne_empty.mpr h)
  obtain ⟨last, hlast⟩ := Option.isSome_iff_exists.mp
    (Std.ExtTreeSet.isSome_max?_iff_ne_empty.mpr h)
  obtain ⟨memFirst, low⟩ := Std.ExtTreeSet.min?_eq_some_iff_mem_and_forall.mp hfirst
  obtain ⟨memLast, high⟩ := Std.ExtTreeSet.max?_eq_some_iff_mem_and_forall.mp hlast
  refine ⟨first, memFirst, last, memLast, ?_, fun block member => ⟨?_, ?_⟩⟩
  · rw [bounds, hfirst, hlast]
    rfl
  · exact Std.isLE_compare.mp (low block member)
  · exact Std.isLE_compare.mp (high block member)

theorem bounds_empty : bounds ∅ = ⟨0, 0⟩ := by simp [bounds]

theorem bounds_of_notMem_last {blocks : Blocks} (h : lastBlock ∉ blocks) :
    (bounds blocks).min.toNat ≤ (bounds blocks).max.toNat ∧
      Within blocks (bounds blocks).min.toNat (bounds blocks).max.toNat := by
  by_cases empty : blocks = ∅
  · subst empty
    rw [bounds_empty]
    exact ⟨le_refl _, fun block member => absurd member (by simp)⟩
  · obtain ⟨first, memFirst, last, memLast, eq, between⟩ := bounds_of_ne_empty empty
    have next : (last + 1).toNat = last.toNat + 1 := by
      have apart : last.toNat ≠ 18446744073709551615 := fun same =>
        h ((UInt64.toNat_inj.mp same : last = lastBlock) ▸ memLast)
      have := last.toNat_lt
      rw [UInt64.toNat_add]
      change (last.toNat + 1) % 2 ^ 64 = _
      omega
    have all : ∀ block ∈ blocks, first.toNat ≤ block.toNat ∧ block.toNat ≤ last.toNat :=
      fun block member => ⟨UInt64.le_iff_toNat_le.mp (between block member).1,
        UInt64.le_iff_toNat_le.mp (between block member).2⟩
    rw [eq]
    simp only [next]
    refine ⟨?_, fun block member => ?_⟩
    · have := (all last memLast).1
      omega
    · have := all block member
      omega

theorem bounds_of_mem_last {blocks : Blocks} (h : lastBlock ∈ blocks) :
    ∃ first ∈ blocks, bounds blocks = ⟨first, 0⟩ ∧ Within blocks first.toNat (2 ^ 64) := by
  have nonempty : blocks ≠ ∅ := by
    rintro rfl
    exact absurd h (by simp)
  obtain ⟨first, memFirst, last, memLast, eq, between⟩ := bounds_of_ne_empty nonempty
  have top : last = lastBlock := UInt64.le_antisymm (le_lastBlock last) (between _ h).2
  subst top
  refine ⟨first, memFirst, eq, fun block member => ?_⟩
  exact ⟨UInt64.le_iff_toNat_le.mp (between block member).1, block.toNat_lt⟩

theorem rewards_then_transactions {a b c d : ℕ} (hab : a ≤ b) (hbc : b ≤ c) (hcd : c ≤ d)
    (hd : d ≤ 2 ^ 64) (rwWithin : Within rw a b) (txWithin : Within tx c d)
    {rwRange txRange : BlockRange} (rwSpans : rwRange.Spans a b) (txSpans : txRange.Spans c d) :
    rwRange.blocks.flatMap (visitRewards rw) ++ txRange.blocks.flatMap (visitTransactions tx) =
      plainMerge tx rw := by
  rw [plainMerge, inOrder_append tx rw (Nat.zero_le a) (by omega),
    inOrder_append tx rw hab (by omega), inOrder_append tx rw hbc (by omega),
    inOrder_append tx rw hcd hd,
    inOrder_rewards (by omega) (txWithin.misses (by omega)) rwSpans,
    inOrder_transactions hd (rwWithin.misses (by omega)) txSpans,
    inOrder_nil (a := 0) (by omega) (txWithin.misses (by omega)) (rwWithin.misses (by omega)),
    inOrder_nil (a := b) (by omega) (txWithin.misses (by omega)) (rwWithin.misses (by omega)),
    inOrder_nil (a := d) (by omega) (txWithin.misses (by omega)) (rwWithin.misses (by omega))]
  simp only [List.nil_append, List.append_nil]

theorem transactions_then_rewards {a b c d : ℕ} (hab : a ≤ b) (hbc : b ≤ c) (hcd : c ≤ d)
    (hd : d ≤ 2 ^ 64) (txWithin : Within tx a b) (rwWithin : Within rw c d)
    {rwRange txRange : BlockRange} (txSpans : txRange.Spans a b) (rwSpans : rwRange.Spans c d) :
    txRange.blocks.flatMap (visitTransactions tx) ++ rwRange.blocks.flatMap (visitRewards rw) =
      plainMerge tx rw := by
  rw [plainMerge, inOrder_append tx rw (Nat.zero_le a) (by omega),
    inOrder_append tx rw hab (by omega), inOrder_append tx rw hbc (by omega),
    inOrder_append tx rw hcd hd,
    inOrder_rewards hd (txWithin.misses (by omega)) rwSpans,
    inOrder_transactions (by omega) (rwWithin.misses (by omega)) txSpans,
    inOrder_nil (a := 0) (by omega) (txWithin.misses (by omega)) (rwWithin.misses (by omega)),
    inOrder_nil (a := b) (by omega) (txWithin.misses (by omega)) (rwWithin.misses (by omega)),
    inOrder_nil (a := d) (by omega) (txWithin.misses (by omega)) (rwWithin.misses (by omega))]
  simp only [List.nil_append, List.append_nil]

theorem flatMap_blocks_zero (visit : UInt64 → List HistoryVisit) :
    (⟨0, 0⟩ : BlockRange).blocks.flatMap visit = [] := by
  rw [BlockRange.blocks_self, List.flatMap_nil]

theorem walk_rewards_first (h : (bounds rw).max ≤ (bounds tx).min) :
    walk tx rw = (bounds rw).blocks.flatMap (visitRewards rw) ++
      (bounds tx).blocks.flatMap (visitTransactions tx) := by
  unfold walk rangeBreak
  rw [if_pos h]
  simp only [flatMap_blocks_zero, List.nil_append, List.append_nil]

theorem walk_transactions_first (h : ¬ (bounds rw).max ≤ (bounds tx).min)
    (h' : (bounds tx).max ≤ (bounds rw).min) :
    walk tx rw = (bounds tx).blocks.flatMap (visitTransactions tx) ++
      (bounds rw).blocks.flatMap (visitRewards rw) := by
  unfold walk rangeBreak
  rw [if_neg h, if_pos h']
  simp only [flatMap_blocks_zero, List.append_nil]

/-- The walks on one side of the common range: one of them at most is not empty. -/
theorem outer_walks (tx rw : Blocks) (x y : UInt64)
    (missRw : x < y → Misses rw x.toNat y.toNat)
    (missTx : y < x → Misses tx y.toNat x.toNat) :
    (if x < y then (⟨x, y⟩ : BlockRange) else ⟨0, 0⟩).blocks.flatMap (visitTransactions tx) ++
      (if y < x then (⟨y, x⟩ : BlockRange) else ⟨0, 0⟩).blocks.flatMap (visitRewards rw) =
      inOrder tx rw (min x.toNat y.toNat) (max x.toNat y.toNat) := by
  rcases lt_trichotomy x.toNat y.toNat with lt | eq | gt
  · have less : x < y := UInt64.lt_iff_toNat_lt.mpr lt
    rw [if_pos less, if_neg (UInt64.lt_asymm less), flatMap_blocks_zero, List.append_nil,
      Nat.min_eq_left lt.le, Nat.max_eq_right lt.le]
    exact inOrder_transactions y.toNat_lt.le (missRw less) (BlockRange.spans lt.le)
  · have same := UInt64.toNat_inj.mp eq
    subst same
    rw [if_neg (UInt64.lt_irrefl x), flatMap_blocks_zero, flatMap_blocks_zero, Nat.min_self,
      Nat.max_self, inOrder, Nat.sub_self]
    rfl
  · have less : y < x := UInt64.lt_iff_toNat_lt.mpr gt
    rw [if_neg (UInt64.lt_asymm less), if_pos less, flatMap_blocks_zero, List.nil_append,
      Nat.min_eq_right gt.le, Nat.max_eq_left gt.le]
    exact inOrder_rewards x.toNat_lt.le (missTx less) (BlockRange.spans gt.le)

/-- The common range, as `max` of the lower bounds and `min` of the upper ones. -/
theorem spans_common {rwRange txRange : BlockRange}
    (rwLe : rwRange.min.toNat ≤ rwRange.max.toNat) (txLe : txRange.min.toNat ≤ txRange.max.toNat)
    (below : txRange.min.toNat < rwRange.max.toNat)
    (above : rwRange.min.toNat < txRange.max.toNat) :
    (⟨if rwRange.min < txRange.min then txRange.min else rwRange.min,
      if txRange.max < rwRange.max then txRange.max else rwRange.max⟩ : BlockRange).Spans
      (max txRange.min.toNat rwRange.min.toNat) (min rwRange.max.toNat txRange.max.toNat) := by
  have low : (if rwRange.min < txRange.min then txRange.min else rwRange.min).toNat =
      max txRange.min.toNat rwRange.min.toNat := by
    split_ifs with h
    · rw [UInt64.lt_iff_toNat_lt] at h
      omega
    · rw [UInt64.lt_iff_toNat_lt] at h
      omega
  have high : (if txRange.max < rwRange.max then txRange.max else rwRange.max).toNat =
      min rwRange.max.toNat txRange.max.toNat := by
    split_ifs with h
    · rw [UInt64.lt_iff_toNat_lt] at h
      omega
    · rw [UInt64.lt_iff_toNat_lt] at h
      omega
  rw [← low, ← high]
  refine BlockRange.spans ?_
  rw [low, high]
  omega

/-- Without the last number the walks are the plain merge. -/
theorem walk_of_notMem_last (htx : lastBlock ∉ tx) (hrw : lastBlock ∉ rw) :
    walk tx rw = plainMerge tx rw := by
  obtain ⟨txLe, txWithin⟩ := bounds_of_notMem_last htx
  obtain ⟨rwLe, rwWithin⟩ := bounds_of_notMem_last hrw
  have txTop := (bounds tx).max.toNat_lt
  have rwTop := (bounds rw).max.toNat_lt
  by_cases rwFirst : (bounds rw).max ≤ (bounds tx).min
  · rw [walk_rewards_first rwFirst]
    exact rewards_then_transactions rwLe (UInt64.le_iff_toNat_le.mp rwFirst) txLe txTop.le
      rwWithin txWithin (BlockRange.spans rwLe) (BlockRange.spans txLe)
  by_cases txFirst : (bounds tx).max ≤ (bounds rw).min
  · rw [walk_transactions_first rwFirst txFirst]
    exact transactions_then_rewards txLe (UInt64.le_iff_toNat_le.mp txFirst) rwLe rwTop.le
      txWithin rwWithin (BlockRange.spans txLe) (BlockRange.spans rwLe)
  · -- The sets overlap: what lies below both, the common range, what lies above both.
    have below : (bounds tx).min.toNat < (bounds rw).max.toNat := by
      rw [UInt64.le_iff_toNat_le] at rwFirst
      omega
    have above : (bounds rw).min.toNat < (bounds tx).max.toNat := by
      rw [UInt64.le_iff_toNat_le] at txFirst
      omega
    have head := outer_walks tx rw (bounds tx).min (bounds rw).min
      (fun _ => rwWithin.misses (.inl (le_refl _))) (fun _ => txWithin.misses (.inl (le_refl _)))
    have common := inOrder_both tx rw (spans_common rwLe txLe below above)
    have tail := outer_walks tx rw (bounds rw).max (bounds tx).max
      (fun _ => rwWithin.misses (.inr (le_refl _))) (fun _ => txWithin.misses (.inr (le_refl _)))
    unfold walk rangeBreak
    rw [if_neg rwFirst, if_neg txFirst]
    simp only [gt_iff_lt]
    have middle : max (bounds tx).min.toNat (bounds rw).min.toNat ≤
        min (bounds rw).max.toNat (bounds tx).max.toNat :=
      max_le (le_min below.le txLe) (le_min rwLe above.le)
    have top : max (bounds rw).max.toNat (bounds tx).max.toNat ≤ 2 ^ 64 :=
      max_le rwTop.le txTop.le
    have toLow := inOrder_append tx rw (Nat.zero_le _)
      ((min_le_max.trans middle).trans (min_le_max.trans top))
    have toCommon := inOrder_append tx rw min_le_max
      (middle.trans (min_le_max.trans top))
    have toHigh := inOrder_append tx rw middle (min_le_max.trans top)
    have toEnd := inOrder_append tx rw min_le_max top
    rw [head, common, List.append_assoc, tail, plainMerge, toLow, toCommon, toHigh, toEnd,
      inOrder_nil ((min_le_left _ _).trans (bounds tx).min.toNat_lt.le)
        (txWithin.misses (.inl (min_le_left _ _))) (rwWithin.misses (.inl (min_le_right _ _))),
      inOrder_nil (le_refl (2 ^ 64)) (txWithin.misses (.inr (le_max_right _ _)))
        (rwWithin.misses (.inr (le_max_left _ _)))]
    simp only [List.nil_append, List.append_nil, List.append_assoc]

def visitPlace : HistoryVisit → ℕ
  | .transactions block => 2 * block.toNat
  | .rewards block => 2 * block.toNat + 1

theorem mem_visitTransactions {block : UInt64} {visit : HistoryVisit} :
    visit ∈ visitTransactions tx block ↔ block ∈ tx ∧ visit = .transactions block := by
  unfold visitTransactions
  by_cases found : block ∈ tx
  · simp [found]
  · simp [found]

theorem mem_visitRewards {block : UInt64} {visit : HistoryVisit} :
    visit ∈ visitRewards rw block ↔ block ∈ rw ∧ visit = .rewards block := by
  unfold visitRewards
  by_cases found : block ∈ rw
  · simp [found]
  · simp [found]

theorem mem_visitBoth {n : ℕ} {visit : HistoryVisit} :
    visit ∈ visitBoth tx rw n ↔
      (UInt64.ofNat n ∈ tx ∧ visit = .transactions (UInt64.ofNat n)) ∨
        (UInt64.ofNat n ∈ rw ∧ visit = .rewards (UInt64.ofNat n)) := by
  rw [visitBoth, List.mem_append, mem_visitTransactions, mem_visitRewards]

theorem mem_plainMerge {visit : HistoryVisit} :
    visit ∈ plainMerge tx rw ↔
      (∃ block ∈ tx, visit = .transactions block) ∨ ∃ block ∈ rw, visit = .rewards block := by
  rw [plainMerge, inOrder, List.mem_flatMap]
  constructor
  · rintro ⟨n, -, member⟩
    rcases mem_visitBoth.mp member with ⟨found, eq⟩ | ⟨found, eq⟩
    · exact .inl ⟨_, found, eq⟩
    · exact .inr ⟨_, found, eq⟩
  · rintro (⟨block, found, eq⟩ | ⟨block, found, eq⟩)
    · refine ⟨block.toNat, List.mem_range'_1.mpr ⟨Nat.zero_le _, ?_⟩, mem_visitBoth.mpr (.inl ?_)⟩
      · rw [Nat.zero_add]
        exact block.toNat_lt
      · rw [UInt64.ofNat_toNat]
        exact ⟨found, eq⟩
    · refine ⟨block.toNat, List.mem_range'_1.mpr ⟨Nat.zero_le _, ?_⟩, mem_visitBoth.mpr (.inr ?_)⟩
      · rw [Nat.zero_add]
        exact block.toNat_lt
      · rw [UInt64.ofNat_toNat]
        exact ⟨found, eq⟩

theorem transactions_mem_plainMerge (rw : Blocks) {block : UInt64} (h : block ∈ tx) :
    .transactions block ∈ plainMerge tx rw := mem_plainMerge.mpr (.inl ⟨block, h, rfl⟩)

theorem rewards_mem_plainMerge (tx : Blocks) {block : UInt64} (h : block ∈ rw) :
    .rewards block ∈ plainMerge tx rw := mem_plainMerge.mpr (.inr ⟨block, h, rfl⟩)

/-- The plain merge goes up, so it visits nothing twice. -/
theorem plainMerge_sorted :
    (plainMerge tx rw).Pairwise fun a b => visitPlace a < visitPlace b := by
  have place : ∀ n ∈ List.range' 0 (2 ^ 64 - 0), ∀ visit ∈ visitBoth tx rw n,
      2 * n ≤ visitPlace visit ∧ visitPlace visit ≤ 2 * n + 1 := by
    intro n member visit found
    have small : n < 2 ^ 64 := by
      have := List.mem_range'_1.mp member
      omega
    have value : (UInt64.ofNat n).toNat = n := UInt64.toNat_ofNat_of_lt' small
    rcases mem_visitBoth.mp found with ⟨-, rfl⟩ | ⟨-, rfl⟩
    · rw [visitPlace, value]
      omega
    · rw [visitPlace, value]
      omega
  rw [plainMerge, inOrder, List.pairwise_flatMap]
  constructor
  · intro n _
    unfold visitBoth visitTransactions visitRewards
    split_ifs
    · simp [visitPlace]
    · simp
    · simp
    · simp
  · have up : (List.range' 0 (2 ^ 64 - 0)).Pairwise (· < ·) := List.pairwise_lt_range' 1
    refine up.imp_of_mem ?_
    intro n m memberN memberM lt visit found visit' found'
    have high := (place n memberN visit found).2
    have low := (place m memberM visit' found').1
    omega

/-- No selected block has the last number, or all rewards lie below all transactions and
neither set has both the first and the last number. -/
def Unwrapped (tx rw : Blocks) : Prop :=
  (lastBlock ∉ tx ∧ lastBlock ∉ rw) ∨
    ((∀ r ∈ rw, ∀ t ∈ tx, r < t) ∧ ¬ (lastBlock ∈ tx ∧ 0 ∈ tx) ∧ ¬ (lastBlock ∈ rw ∧ 0 ∈ rw))

theorem walk_of_unwrapped (unwrapped : Unwrapped tx rw) : walk tx rw = plainMerge tx rw := by
  by_cases htx : lastBlock ∈ tx
  · obtain ⟨apart, notBothTx, -⟩ := unwrapped.resolve_left fun h => h.1 htx
    have hrw : lastBlock ∉ rw := fun member => UInt64.lt_irrefl _ (apart _ member _ htx)
    obtain ⟨first, memFirst, eq, within⟩ := bounds_of_mem_last htx
    obtain ⟨rwLe, rwWithin⟩ := bounds_of_notMem_last hrw
    have nonzero : first ≠ 0 := fun zero => notBothTx ⟨htx, zero ▸ memFirst⟩
    have rwFirst : (bounds rw).max ≤ first := by
      by_cases empty : rw = ∅
      · subst empty
        rw [bounds_empty]
        exact UInt64.zero_le
      · obtain ⟨_, _, last, memLast, eqRw, -⟩ := bounds_of_ne_empty empty
        have less := UInt64.lt_iff_toNat_lt.mp (apart last memLast first memFirst)
        have := first.toNat_lt
        rw [eqRw, UInt64.le_iff_toNat_le, UInt64.toNat_add]
        change (last.toNat + 1) % 2 ^ 64 ≤ _
        omega
    rw [walk_rewards_first (by rw [eq]; exact rwFirst), eq]
    exact rewards_then_transactions rwLe (UInt64.le_iff_toNat_le.mp rwFirst) first.toNat_lt.le
      (le_refl _) rwWithin within (BlockRange.spans rwLe) (BlockRange.spans_wrap nonzero)
  by_cases hrw : lastBlock ∈ rw
  · obtain ⟨apart, -, notBothRw⟩ := unwrapped.resolve_left fun h => h.2 hrw
    have empty : tx = ∅ := by
      by_contra nonempty
      obtain ⟨first, memFirst, -⟩ := bounds_of_ne_empty nonempty
      exact UInt64.not_le.mpr (apart _ hrw first memFirst) (le_lastBlock first)
    subst empty
    obtain ⟨first, memFirst, eq, within⟩ := bounds_of_mem_last hrw
    have nonzero : first ≠ 0 := fun zero => notBothRw ⟨hrw, zero ▸ memFirst⟩
    rw [walk_rewards_first (by rw [eq]; exact UInt64.zero_le), eq, bounds_empty]
    refine rewards_then_transactions (c := 2 ^ 64) (d := 2 ^ 64) first.toNat_lt.le (le_refl _)
      (le_refl _) (le_refl _) within (fun block member => absurd member (by simp))
      (BlockRange.spans_wrap nonzero) ?_
    rw [BlockRange.Spans, BlockRange.blocks_self, Nat.sub_self]
    rfl
  · exact walk_of_notMem_last htx hrw

theorem place_lt_of_append {first second : List HistoryVisit}
    (eq : first ++ second = plainMerge tx rw) {a b : HistoryVisit} (ha : a ∈ first)
    (hb : b ∈ second) : visitPlace a < visitPlace b :=
  (List.pairwise_append.mp (eq ▸ plainMerge_sorted)).2.2 a ha b hb

theorem rewards_notMem_transactions {block : UInt64} {blocks : List UInt64} :
    HistoryVisit.rewards block ∉ blocks.flatMap (visitTransactions tx) := by
  intro member
  obtain ⟨other, -, found⟩ := List.mem_flatMap.mp member
  cases (mem_visitTransactions.mp found).2

theorem transactions_notMem_rewards {block : UInt64} {blocks : List UInt64} :
    HistoryVisit.transactions block ∉ blocks.flatMap (visitRewards rw) := by
  intro member
  obtain ⟨other, -, found⟩ := List.mem_flatMap.mp member
  cases (mem_visitRewards.mp found).2

/-- Of two walks that make the plain merge, rewards first: all rewards lie in the one and
below all transactions, which lie in the other. -/
theorem apart_of_rewards_first {rwBlocks txBlocks : List UInt64}
    (eq : rwBlocks.flatMap (visitRewards rw) ++ txBlocks.flatMap (visitTransactions tx) =
      plainMerge tx rw) :
    (∀ r ∈ rw, .rewards r ∈ rwBlocks.flatMap (visitRewards rw)) ∧
      (∀ t ∈ tx, .transactions t ∈ txBlocks.flatMap (visitTransactions tx)) ∧
      ∀ r ∈ rw, ∀ t ∈ tx, r < t := by
  have rewards : ∀ r ∈ rw, .rewards r ∈ rwBlocks.flatMap (visitRewards rw) := by
    intro r member
    have all := rewards_mem_plainMerge tx member
    exact (List.mem_append.mp (eq ▸ all)).resolve_right rewards_notMem_transactions
  have transactions : ∀ t ∈ tx, .transactions t ∈ txBlocks.flatMap (visitTransactions tx) := by
    intro t member
    have all := transactions_mem_plainMerge rw member
    exact (List.mem_append.mp (eq ▸ all)).resolve_left transactions_notMem_rewards
  refine ⟨rewards, transactions, ?_⟩
  intro r hr t ht
  have lt := place_lt_of_append eq (rewards r hr) (transactions t ht)
  rw [UInt64.lt_iff_toNat_lt]
  simp only [visitPlace] at lt
  omega

theorem unwrapped_of_walk (eq : walk tx rw = plainMerge tx rw) : Unwrapped tx rw := by
  by_cases hrw : lastBlock ∈ rw
  · -- The walk over the rewards comes first, whatever the transactions are.
    obtain ⟨first, memFirst, bound, within⟩ := bounds_of_mem_last hrw
    rw [walk_rewards_first (by rw [bound]; exact UInt64.zero_le), bound] at eq
    obtain ⟨rewards, -, apart⟩ := apart_of_rewards_first eq
    refine .inr ⟨apart, fun both => ?_, fun both => ?_⟩
    · exact UInt64.not_lt.mpr UInt64.zero_le (apart _ hrw _ both.2)
    · have zero : first = 0 :=
        UInt64.toNat_inj.mp (Nat.le_zero.mp (within 0 both.2).1)
      have member := rewards 0 both.2
      rw [zero, flatMap_blocks_zero] at member
      exact List.not_mem_nil member
  by_cases htx : lastBlock ∈ tx
  · obtain ⟨first, memFirst, bound, within⟩ := bounds_of_mem_last htx
    by_cases rwFirst : (bounds rw).max ≤ (bounds tx).min
    · rw [walk_rewards_first rwFirst, bound] at eq
      obtain ⟨-, transactions, apart⟩ := apart_of_rewards_first eq
      refine .inr ⟨apart, fun both => ?_, fun both => hrw both.1⟩
      have zero : first = 0 := UInt64.toNat_inj.mp (Nat.le_zero.mp (within 0 both.2).1)
      have member := transactions 0 both.2
      rw [zero, flatMap_blocks_zero] at member
      exact List.not_mem_nil member
    · -- All transactions come before the rewards, the last number before a smaller one.
      rw [walk_transactions_first rwFirst (by rw [bound]; exact UInt64.zero_le)] at eq
      by_cases empty : rw = ∅
      · subst empty
        rw [bounds_empty] at rwFirst
        exact absurd UInt64.zero_le rwFirst
      · obtain ⟨r, member, -⟩ := bounds_of_ne_empty empty
        have inTx := transactions_mem_plainMerge rw htx
        have inRw := rewards_mem_plainMerge tx member
        have lt := place_lt_of_append eq
          ((List.mem_append.mp (eq ▸ inTx)).resolve_right transactions_notMem_rewards)
          ((List.mem_append.mp (eq ▸ inRw)).resolve_left rewards_notMem_transactions)
        have high := UInt64.le_iff_toNat_le.mp (le_lastBlock r)
        simp only [visitPlace] at lt
        have same : r = lastBlock := UInt64.toNat_inj.mp (by omega)
        exact absurd (same ▸ member) hrw
  · exact .inl ⟨htx, hrw⟩

/-- The blocks from `blockStart` on, as many as `blockCount`. -/
def chosen (blockStart blockCount : UInt64) (index : Blocks) : Blocks :=
  index.filter fun block => decide (blockStart.toNat ≤ block.toNat ∧
    block.toNat < blockStart.toNat + blockCount.toNat)

theorem select_eq_chosen (blockStart blockCount : UInt64) (index : Blocks) :
    select blockStart blockCount index = chosen blockStart blockCount index := by
  unfold select chosen
  congr 1
  funext block
  have hs := blockStart.toNat_lt
  have hc := blockCount.toNat_lt
  have hb := block.toNat_lt
  rw [Bool.eq_iff_iff]
  simp only [ge_iff_le, gt_iff_lt, Bool.and_eq_true, Bool.or_eq_true, decide_eq_true_eq,
    UInt64.le_iff_toNat_le, UInt64.lt_iff_toNat_lt, UInt64.toNat_add]
  omega

structure HalfOpen extends BlockRange where
  le : min ≤ max

/-- Five pieces with nothing in common that cover two ranges, the common one in both. -/
structure Breaks (rwRange txRange : BlockRange) (broken : BrokenRange) : Prop where
  rewards : ∀ block, rwRange.Holds block ↔
    broken.rw1.Holds block ∨ broken.rwtx.Holds block ∨ broken.rw2.Holds block
  transactions : ∀ block, txRange.Holds block ↔
    broken.tx1.Holds block ∨ broken.rwtx.Holds block ∨ broken.tx2.Holds block
  disjoint : [broken.rw1, broken.tx1, broken.rwtx, broken.rw2, broken.tx2].Pairwise
    fun piece other => ∀ block, ¬ (piece.Holds block ∧ other.Holds block)

theorem rangeBreak_breaks (rwRange txRange : HalfOpen) :
    Breaks rwRange.toBlockRange txRange.toBlockRange
      (rangeBreak rwRange.toBlockRange txRange.toBlockRange) := by
  obtain ⟨⟨ra, rb⟩, rwLe⟩ := rwRange
  obtain ⟨⟨ta, tb⟩, txLe⟩ := txRange
  have zero : (0 : UInt64).toNat = 0 := rfl
  simp only [UInt64.le_iff_toNat_le] at rwLe txLe
  unfold rangeBreak
  simp only [UInt64.le_iff_toNat_le, gt_iff_lt, UInt64.lt_iff_toNat_lt]
  split_ifs
  all_goals
    refine ⟨?_, ?_, ?_⟩
    · intro block
      simp only [BlockRange.Holds, UInt64.le_iff_toNat_le, UInt64.lt_iff_toNat_lt, zero]
      omega
    · intro block
      simp only [BlockRange.Holds, UInt64.le_iff_toNat_le, UInt64.lt_iff_toNat_lt, zero]
      omega
    · simp only [List.pairwise_cons, List.mem_cons, List.not_mem_nil, or_false,
        forall_eq_or_imp, forall_eq, BlockRange.Holds, UInt64.le_iff_toNat_le,
        UInt64.lt_iff_toNat_lt, zero, List.Pairwise.nil, and_true, IsEmpty.forall_iff,
        implies_true]
      refine ⟨⟨?_, ?_, ?_, ?_⟩, ⟨?_, ?_, ?_⟩, ⟨?_, ?_⟩, ?_⟩
      all_goals
        intro block
        omega

end AccountHistory

end Publiq
