import Publiq.PeerSelection

/-! What `header_worker` decides after the scan: `sync_now`, `mine_now` or neither, and why it
never asks for headers without a peer to ask. -/
namespace Publiq
open Message Checked

/-- `sync_now` and `mine_now`. -/
structure WorkerFlags where
  syncNow : Bool
  mineNow : Bool
  deriving DecidableEq

/-- The flags of `header_worker`. `sinceHead` is counted in ticks of the clock, of which `second`
make a second. -/
def workerFlags (second : ℕ) (sinceHead : ℤ) (head scan : BlockHeaderExtended) (scanPeer : String)
    (ownSum netSum : UInt64) : WorkerFlags :=
  if head.blockNumber + 1 < scan.blockNumber ∧
      ((blockMineDelay + blockWaitDelay) * second : ℕ) ≤ sinceHead then ⟨true, false⟩
  else if head.cSum < scan.cSum ∧ head.blockNumber = scan.blockNumber then ⟨true, false⟩
  else if sinceHead < (blockSafeDelay * second : ℕ) ∧ head.cSum = scan.cSum ∧
      head.blockNumber = scan.blockNumber ∧ head.blockHash ≠ scan.blockHash then ⟨true, false⟩
  else if ownSum < scan.cSum ∧ netSum < scan.cSum then ⟨true, false⟩
  else if ownSum < scan.cSum ∧ netSum = scan.cSum then ⟨true, false⟩
  else if ownSum < scan.cSum then
    ⟨((blockMineDelay + blockWaitDelay) * second : ℕ) < sinceHead, false⟩
  else if ((blockMineDelay - blockWaitDelay) * second : ℕ) ≤ sinceHead ∧
      sinceHead < (blockMineDelay * second : ℕ) then ⟨scanPeer ≠ "", false⟩
  else ⟨false, ((blockMineDelay + blockWaitDelay) * second : ℕ) ≤ sinceHead ∨
    ((blockMineDelay * second : ℕ) ≤ sinceHead ∧ netSum ≤ ownSum)⟩

theorem workerFlags_exclusive (second : ℕ) (sinceHead : ℤ) (head scan : BlockHeaderExtended)
    (scanPeer : String) (ownSum netSum : UInt64) :
    ¬ ((workerFlags second sinceHead head scan scanPeer ownSum netSum).mineNow = true ∧
      (workerFlags second sinceHead head scan scanPeer ownSum netSum).syncNow = true) := by
  unfold workerFlags
  split_ifs <;> simp

/-- A block is mined only when nothing selected is heavier than the own chain with it. -/
theorem sum_le_of_mineNow {second : ℕ} {sinceHead : ℤ} {head scan : BlockHeaderExtended}
    {scanPeer : String} {ownSum netSum : UInt64}
    (mines : (workerFlags second sinceHead head scan scanPeer ownSum netSum).mineNow = true) :
    scan.cSum ≤ ownSum := by
  by_contra heavier
  have lighter : ownSum < scan.cSum := UInt64.not_le.mp heavier
  unfold workerFlags at mines
  split_ifs at mines with ahead better fork ready promised

/-- The flags are set in the order in which the choices of the synchronization are made. -/
theorem workerFlags_choice {α : Type} (syncs mines idles : α) (sinceHead : ℤ)
    (head scan : BlockHeaderExtended) (scanPeer : String) (ownSum netSum : UInt64) :
    (if (workerFlags 1 sinceHead head scan scanPeer ownSum netSum).syncNow then syncs
      else if (workerFlags 1 sinceHead head scan scanPeer ownSum netSum).mineNow then mines
      else idles) =
    if head.blockNumber + 1 < scan.blockNumber ∧
      (blockMineDelay + blockWaitDelay : ℕ) ≤ sinceHead then syncs
    else if head.cSum < scan.cSum ∧ head.blockNumber = scan.blockNumber then syncs
    else if sinceHead < blockSafeDelay ∧ head.cSum = scan.cSum ∧
      head.blockNumber = scan.blockNumber ∧ head.blockHash ≠ scan.blockHash then syncs
    else if ownSum < scan.cSum then
      if netSum ≤ scan.cSum ∨ (blockMineDelay + blockWaitDelay : ℕ) < sinceHead then syncs
      else idles
    else if (blockMineDelay - blockWaitDelay : ℕ) ≤ sinceHead ∧ sinceHead < blockMineDelay then
      if scanPeer ≠ "" then syncs else idles
    else if (blockMineDelay + blockWaitDelay : ℕ) ≤ sinceHead ∨
      (blockMineDelay ≤ sinceHead ∧ netSum ≤ ownSum) then mines
    else idles := by
  unfold workerFlags
  simp only [Nat.mul_one]
  by_cases ahead : head.blockNumber + 1 < scan.blockNumber ∧
      (blockMineDelay + blockWaitDelay : ℕ) ≤ sinceHead
  · rw [if_pos ahead, if_pos ahead, if_pos rfl]
  rw [if_neg ahead, if_neg ahead]
  by_cases better : head.cSum < scan.cSum ∧ head.blockNumber = scan.blockNumber
  · rw [if_pos better, if_pos better, if_pos rfl]
  rw [if_neg better, if_neg better]
  by_cases fork : sinceHead < blockSafeDelay ∧ head.cSum = scan.cSum ∧
      head.blockNumber = scan.blockNumber ∧ head.blockHash ≠ scan.blockHash
  · rw [if_pos fork, if_pos fork, if_pos rfl]
  rw [if_neg fork, if_neg fork]
  by_cases lighter : ownSum < scan.cSum
  · simp only [lighter, true_and, if_true]
    -- the three branches by `net_sum` are two here
    by_cases ready : netSum < scan.cSum
    · rw [if_pos ready, if_pos rfl, if_pos (.inl (UInt64.le_of_lt ready))]
    by_cases promised : netSum = scan.cSum
    · rw [if_neg ready, if_pos promised, if_pos rfl, if_pos (.inl (UInt64.le_of_eq promised))]
    have later : ¬ netSum ≤ scan.cSum := fun atMost =>
      (UInt64.lt_or_eq_of_le atMost).elim ready promised
    rw [if_neg ready, if_neg promised]
    by_cases late : (blockMineDelay + blockWaitDelay : ℕ) < sinceHead
    · rw [if_pos (decide_eq_true late), if_pos (.inr late)]
    · rw [if_neg (fun sets => late (of_decide_eq_true sets)), if_neg Bool.false_ne_true,
        if_neg (fun either => either.elim later late)]
  · simp only [lighter, false_and, if_false]
    by_cases waits : (blockMineDelay - blockWaitDelay : ℕ) ≤ sinceHead ∧ sinceHead < blockMineDelay
    · rw [if_pos waits, if_pos waits]
      simp
    · rw [if_neg waits, if_neg waits]
      simp

/-- Without a peer, the own head stands without weight, and the flag to fetch headers is not
set. -/
theorem not_syncNow_of_empty {second : ℕ} {sinceHead : ℤ} {head : BlockHeaderExtended}
    {ownSum netSum : UInt64} (room : head.blockNumber.toNat + 1 < 2 ^ 64) :
    (workerFlags second sinceHead head { head with cSum := 0 } "" ownSum netSum).syncNow =
      false := by
  have ahead : ¬ head.blockNumber + 1 < head.blockNumber := by
    rw [UInt64.lt_iff_toNat_lt, UInt64.toNat_add]
    change ¬ (head.blockNumber.toNat + 1) % 2 ^ 64 < head.blockNumber.toNat
    rw [Nat.mod_eq_of_lt room]
    omega
  have weightless : ∀ sum : UInt64, ¬ sum < 0 := fun sum => UInt64.not_lt.mpr (UInt64.zero_le)
  unfold workerFlags
  rw [if_neg fun both => ahead both.1, if_neg fun both => weightless _ both.1,
    if_neg fun all => all.2.2.2 rfl, if_neg fun both => weightless _ both.1,
    if_neg fun both => weightless _ both.1, if_neg (weightless _)]
  split_ifs
  · exact decide_eq_false fun differ : "" ≠ "" => differ rfl
  · rfl

namespace Synchronization
variable [Externals] (s : Synchronization) (peers : List String)

/-- `scan_block_header` after the scan, from which the own head starts without its weight. -/
def scanHeader (order : List Entry) : BlockHeaderExtended :=
  (s.selectedIn peers order).getD { s.chain.lastHeaderEx with cSum := 0 }

/-- `scan_peer` after the scan. -/
def scanPeer (order : List Entry) : String :=
  ((s.scanIn peers order).1.map Prod.fst).getD ""

/-- `net_sync_info`, its weight, in some order of the table. -/
def netSumIn (order : List Entry) : UInt64 :=
  (order.map fun response => response.2.promisedHeader).foldl (fun sum header =>
    if header.blockNumber = s.chain.lastHeader.blockNumber + 1 ∧ sum < header.cSum then header.cSum
    else sum) 0

/-- The flags that `header_worker` sets, going through the responses in one order for the scan
and in another for `net_sync_info`. -/
def flagsIn (second : ℕ) (sinceHead : ℤ) (order order' : List Entry) : WorkerFlags :=
  workerFlags second sinceHead s.chain.lastHeaderEx (s.scanHeader peers order)
    (s.scanPeer peers order) s.ownSum (s.netSumIn order')

def askPeer (order : List Entry) : Checked Decision := do
  require (s.scanPeer peers order ≠ "") (.logicError "scan_peer.empty()")
  pure (.sync (s.scanPeer peers order) (s.scanHeader peers order))

/-- What `header_worker` goes on with, by its flags. -/
def decisionIn (second : ℕ) (sinceHead : ℤ) (order order' : List Entry) : Checked Decision :=
  if (s.flagsIn peers second sinceHead order order').syncNow then s.askPeer peers order
  else if (s.flagsIn peers second sinceHead order order').mineNow then pure .mine
  else pure .idle

def extendedSum : ℕ :=
  s.chain.lastHeader.cSum.toNat +
    if s.node.isMiner then
      (calcDelta s.node.ctx.own s.node.getBalance.whole s.chain.lastHash
        s.chain.lastHeader.cConst).toNat
    else 0

/-- The flags are exclusive, headers are asked for only of a selected peer with another head, and
a block is mined only when nothing selected is heavier than the own chain with it. -/
structure DecidesConsistently (second : ℕ) (sinceHead : ℤ) (order order' : List Entry) : Prop where
  exclusive : ¬ ((s.flagsIn peers second sinceHead order order').mineNow = true ∧
    (s.flagsIn peers second sinceHead order order').syncNow = true)
  asks : (s.flagsIn peers second sinceHead order order').syncNow = true →
    ∃ e ∈ s.syncResponses.toList, e.1 ∈ peers ∧ s.scanPeer peers order = e.1 ∧
      s.scanHeader peers order = e.2.ownHeader ∧
      (s.scanHeader peers order).blockHash ≠ s.chain.lastHash
  decides : ∀ error, s.decisionIn peers second sinceHead order order' ≠ .error error
  mines : (s.flagsIn peers second sinceHead order order').mineNow = true →
    (s.scanHeader peers order).cSum ≤ s.ownSum ∧
      (s.scanHeader peers order).cSum.toNat ≤ s.extendedSum

variable {s : Synchronization} {peers : List String}

/-- `own_sync_info` is not heavier than the chain it stands for. -/
theorem ownSum_le : s.ownSum.toNat ≤ s.extendedSum := by
  unfold ownSum extendedSum
  by_cases miner : s.node.isMiner = true
  · rw [if_pos miner, if_pos miner, UInt64.toNat_add]
    exact Nat.mod_le _ _
  · rw [if_neg miner, if_neg miner, Nat.add_zero]

theorem scanIn_eq (order : List Entry) :
    (s.scanIn peers order).2.1 = (s.scanHeader peers order).cSum ∧
      (s.scanIn peers order).2.2.1 = (s.scanHeader peers order).blockNumber := by
  unfold scanHeader selectedIn
  rcases @scan_open _ s peers order
      (none, 0, s.chain.lastHeader.blockNumber, []) (UInt64.le_refl _) with
    ⟨none_found, sum, number⟩ | ⟨e, _, _, _, _, _, selected, sum, number⟩
  · unfold scanIn
    rw [none_found, sum, number]
    exact ⟨rfl, rfl⟩
  · unfold scanIn
    rw [selected, sum, number]
    exact ⟨rfl, rfl⟩

theorem scan_found (order : List Entry) :
    (∃ e ∈ order, s.Open peers e ∧ (s.scanIn peers order).1 = some (e.1, e.2.ownHeader)) ∨
      (s.scanIn peers order).1 = none := by
  rcases @scan_open _ s peers order
      (none, 0, s.chain.lastHeader.blockNumber, []) (UInt64.le_refl _) with
    ⟨none_found, _⟩ | ⟨e, member, is_open, _, _, _, selected, _⟩
  · exact .inr none_found
  · exact .inl ⟨e, member, is_open, selected⟩

theorem scan_some {order : List Entry} {peer : String} {header : BlockHeaderExtended}
    (selected : (s.scanIn peers order).1 = some (peer, header)) :
    s.scanPeer peers order = peer ∧ s.scanHeader peers order = header := by
  unfold scanPeer scanHeader selectedIn
  rw [selected]
  exact ⟨rfl, rfl⟩

theorem scan_none {order : List Entry} (nothing : (s.scanIn peers order).1 = none) :
    s.scanPeer peers order = "" ∧
      s.scanHeader peers order = { s.chain.lastHeaderEx with cSum := 0 } := by
  unfold scanPeer scanHeader selectedIn
  rw [nothing]
  exact ⟨rfl, rfl⟩

theorem decision_eq (now : ℤ) (named : "" ∉ peers) :
    s.decision now peers = s.decisionIn peers 1 (now - s.chain.lastHeader.timeSigned)
      s.syncResponses.toList s.syncResponses.toList := by
  obtain ⟨weight, number⟩ := @scanIn_eq _ s peers s.syncResponses.toList
  have found := @scan_found _ s peers s.syncResponses.toList
  unfold decisionIn flagsIn
  rw [workerFlags_choice, ← weight, ← number]
  have scanned : s.syncResponses.toList.foldl (s.scanResponses peers)
      (none, 0, s.chain.lastHeader.blockNumber, []) = s.scanIn peers s.syncResponses.toList := rfl
  unfold decision askPeer
  dsimp only
  rw [scanned]
  rcases found with ⟨e, _, is_open, selected⟩ | nothing
  · have present : e.1 ≠ "" := fun empty => named (empty ▸ is_open.1)
    rw [(scan_some selected).1, (scan_some selected).2, require, if_pos present, selected,
      if_pos present, Option.isSome_some, if_pos rfl]
    rfl
  · rw [(scan_none nothing).1, (scan_none nothing).2, nothing, require]
    rfl

theorem peer_of_syncNow {second : ℕ} {sinceHead : ℤ} {order order' : List Entry}
    (fits : s.chain.length < 2 ^ 64)
    (syncs : (s.flagsIn peers second sinceHead order order').syncNow = true) :
    ∃ e ∈ order, s.Open peers e ∧ s.scanPeer peers order = e.1 ∧
      s.scanHeader peers order = e.2.ownHeader := by
  rcases @scan_found _ s peers order with
    ⟨e, member, is_open, selected⟩ | nothing
  · exact ⟨e, member, is_open, scan_some selected⟩
  · have room : s.chain.lastHeaderEx.blockNumber.toNat + 1 < 2 ^ 64 := by
      change s.chain.lastHeader.blockNumber.toNat + 1 < 2 ^ 64
      rw [s.chain.lastHeader_number]
      exact fits
    unfold flagsIn at syncs
    rw [(scan_none nothing).1, (scan_none nothing).2, not_syncNow_of_empty room] at syncs
    exact absurd syncs Bool.false_ne_true

/-- The decision of `header_worker` in whatever order it goes through the responses. Peers have
the ids that the socket gives, which are not empty. -/
theorem decisionIn_consistent (s : Synchronization) (peers : List String) (second : ℕ)
    (sinceHead : ℤ) (order order' : List Entry) (shuffled : order.Perm s.syncResponses.toList)
    (fits : s.chain.length < 2 ^ 64) (named : "" ∉ peers) :
    s.DecidesConsistently peers second sinceHead order order' := by
  refine ⟨workerFlags_exclusive _ _ _ _ _ _ _, fun syncs => ?_, fun error failed => ?_,
    fun mines => ?_⟩
  · obtain ⟨e, member, is_open, peer, header⟩ := peer_of_syncNow fits syncs
    refine ⟨e, shuffled.mem_iff.mp member, is_open.1, peer, header, ?_⟩
    rw [header]
    exact is_open.2.2.1.symm
  · unfold decisionIn at failed
    by_cases syncs : (s.flagsIn peers second sinceHead order order').syncNow = true
    · obtain ⟨e, _, is_open, peer, _⟩ := peer_of_syncNow fits syncs
      have present : s.scanPeer peers order ≠ "" := by
        rw [peer]
        exact fun empty => named (empty ▸ is_open.1)
      rw [if_pos syncs, askPeer, require, if_pos present] at failed
      cases failed
    · rw [if_neg syncs] at failed
      split_ifs at failed <;> cases failed
  · have atMost := sum_le_of_mineNow mines
    exact ⟨atMost, (UInt64.le_iff_toNat_le.mp atMost).trans ownSum_le⟩

end Synchronization

section Examples
open Synchronization

local instance decidingExternals : Externals := plainExternals

/-- The node with the forked peers decides whichever of them it looks at first. -/
theorem forkedPeers_decides : forkedPeers.DecidesConsistently ["first", "second"] 1 700
    forkedPeers.syncResponses.toList.reverse forkedPeers.syncResponses.toList :=
  decisionIn_consistent forkedPeers ["first", "second"] 1 700
    forkedPeers.syncResponses.toList.reverse forkedPeers.syncResponses.toList
    (List.reverse_perm _) (by decide) (by decide)

end Examples
end Publiq
