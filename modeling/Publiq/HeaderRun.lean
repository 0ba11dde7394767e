import Publiq.NodeLedger
import Publiq.Retarget

/-! The headers of the chain of a node over a run. Whatever the peers send, each of them passes the
check of `check_headers` against the one before it. -/
namespace Publiq
open Message Checked

/-- The rule keeps the last `c_const`, or doubles it, or halves it. -/
theorem nextConst_cases {below : List DeltaConst} (nonempty : below ≠ []) :
    nextConst below = lastConst below ∨ nextConst below = lastConst below * 2 ∨
      nextConst below = lastConst below / 2 := by
  rcases Nat.lt_or_ge below.length deltaStep with short | full
  · exact .inl (nextConst_short nonempty short)
  · obtain ⟨deltaSum, hnext⟩ := nextConst_full full
    rw [hnext]
    rcases adjustConst_cases (lastConst below) deltaSum with hup | ⟨_, hdown⟩ | hsame
    · exact .inr (.inl hup)
    · exact .inr (.inr hdown)
    · exact .inl hsame

theorem lastConst_deltasBelow (chain : Blockchain) :
    lastConst (chain.deltasBelow chain.length) = chain.lastHeader.cConst := by
  have hsplit := List.dropLast_append_getLast chain.nonempty
  rw [Blockchain.deltasBelow, Blockchain.length, List.take_length, ← hsplit, List.map_append]
  exact lastConst_append _ _

section
variable [Externals] {chain longer : Blockchain} {signedBlock : SignedBlock}

/-- Every header of the chain passes the check against the one before it. -/
def Blockchain.Successive (chain : Blockchain) : Prop :=
  (chain.blocks.map SignedBlock.headerEx).IsChain Next

namespace Blockchain

theorem Successive.start {genesis : SignedBlock} (h : Blockchain.start genesis = .ok chain) :
    chain.Successive := by
  unfold Successive
  rw [start_blocks h]
  exact .singleton _

theorem Successive.linked (h : chain.Successive) : chain.Linked :=
  (List.isChain_map _).mp h |>.imp fun _ _ => follows_of_next

theorem Successive.insert (h : chain.Successive) (hinsert : chain.insert signedBlock = .ok longer)
    (next : Next chain.lastHeaderEx signedBlock.headerEx) : longer.Successive := by
  unfold Successive at h ⊢
  rw [(insert_ok_iff.mp hinsert).2, List.map_append, List.isChain_append]
  refine ⟨h, .singleton _, fun last hlast other hother => ?_⟩
  rw [List.getLast?_map, List.getLast?_eq_some_getLast chain.nonempty] at hlast
  cases hlast
  cases hother
  exact next

theorem Successive.replace (h : chain.Successive) {common : ℕ} {base : SignedBlock}
    (hat : chain.blocks[common]? = some base) {session : BlockSession}
    (hchain : (base.headerEx :: session.expected).IsChain Next)
    (received : session.syncBlocks.map SignedBlock.headerEx =
      session.expected.take session.syncBlocks.length)
    (hblocks : longer.blocks = chain.blocks.take (common + 1) ++ session.syncBlocks) :
    longer.Successive := by
  obtain ⟨hlt, hbase⟩ := List.getElem?_eq_some_iff.mp hat
  have hupper : (base.headerEx :: session.syncBlocks.map SignedBlock.headerEx).IsChain Next := by
    rw [received]
    exact hchain.prefix ((List.prefix_cons_inj _).mpr (List.take_prefix _ _))
  have hlower : chain.blocks.take (common + 1) = chain.blocks.take common ++ [base] := by
    rw [List.take_succ_eq_append_getElem hlt, hbase]
  have hkept : (chain.blocks.take (common + 1)).map SignedBlock.headerEx <+:
      chain.blocks.map SignedBlock.headerEx := (List.take_prefix _ _).map _
  have hlow := h.prefix hkept
  unfold Successive
  rw [hblocks, hlower, List.append_assoc, List.singleton_append, List.map_append, List.map_cons,
    List.isChain_split]
  refine ⟨?_, hupper⟩
  rw [hlower, List.map_append] at hlow
  exact hlow

end Blockchain

namespace NodeInternals

/-- The header of the next block passes the check against the last one, if it is heavier and not
earlier. -/
theorem next_of_nextHeader {node : NodeInternals} {header : BlockHeader}
    (h : node.nextHeader = .ok header) (number : header.blockNumber.toNat = node.blockchain.length)
    (grows : node.blockchain.lastHeader.cSum < header.cSum)
    (later : fromTimeT node.blockchain.lastHeader.timeSigned ≤ fromTimeT header.timeSigned)
    (blockHash : String) :
    Next node.blockchain.lastHeaderEx { header with blockHash } := by
  obtain ⟨hprev, htime, hsum, _⟩ := nextHeader_spec h
  have hnonempty : node.blockchain.deltasBelow node.blockchain.length ≠ [] := by
    apply List.ne_nil_of_length_pos
    rw [Blockchain.deltasBelow, List.length_map, List.length_take]
    exact Nat.lt_min.mpr ⟨node.blockchain.length_pos, node.blockchain.length_pos⟩
  have hconst := nextHeader_cConst h
  rw [minedConst_eq hnonempty] at hconst
  have hcases := nextConst_cases hnonempty
  rw [Except.ok.inj (Except.ok.inj hconst), lastConst_deltasBelow] at hcases
  refine next_iff.mpr ⟨?_, grows, ?_, hcases, hprev, later, ?_⟩
  · apply UInt64.toNat_inj.mp
    have hlast := node.blockchain.lastHeader_number
    have hlt := header.blockNumber.toNat_lt
    rw [UInt64.toNat_add]
    change header.blockNumber.toNat = (node.blockchain.lastHeader.blockNumber.toNat + 1) % 2 ^ 64
    omega
  · exact hsum.trans (UInt64.add_comm _ _)
  · have hdelay : header.timeSigned - node.blockchain.lastHeader.timeSigned = blockMineDelay := by
      omega
    exact (congrArg clockSeconds hdelay).trans (by decide)

/-- The next block of the node is heavier than the last one and not earlier: its delta is not zero,
and neither the sum of the deltas nor the clock wraps. -/
def MinesHeavier (node : NodeInternals) : Prop :=
  ∀ header, node.nextHeader = .ok header →
    node.blockchain.lastHeader.cSum < header.cSum ∧
      fromTimeT node.blockchain.lastHeader.timeSigned ≤ fromTimeT header.timeSigned

theorem successive_mineBlock {node after : NodeInternals} (successive : node.blockchain.Successive)
    (heavier : node.MinesHeavier) (h : node.mineBlock = .ok after) :
    after.blockchain.Successive := by
  obtain ⟨header, signedBlock, hheader, hblock, hinsert, _⟩ := mineBlock_blocks h
  subst hblock
  obtain ⟨grows, later⟩ := heavier _ hheader
  have hnumber := (Blockchain.insert_ok_iff.mp hinsert).1
  exact successive.insert hinsert (next_of_nextHeader hheader hnumber grows later _)

end NodeInternals

namespace Synchronization
open NodeInternals

variable {s after : Synchronization}

/-- What an event does to the chain: it stays, the timer lets the node mine a block, or received
blocks take the place of those above a common one. -/
inductive ChainStep (s after : Synchronization) (event : Event) : Prop where
  | same (chain : after.chain = s.chain)
  | mined (work : ∃ now peers votes, event = .work now peers votes)
      (mine : s.node.mineBlock = .ok after.node)
  | replaced {common : ℕ} {base : SignedBlock} {session : BlockSession}
      (base_eq : s.chain.blocks[common]? = some base)
      (next : (base.headerEx :: session.expected).IsChain Next)
      (received : session.syncBlocks.map SignedBlock.headerEx =
        session.expected.take session.syncBlocks.length)
      (blocks : after.chain.blocks = s.chain.blocks.take (common + 1) ++ session.syncBlocks)

theorem chainStep_receiveBlocks (hash : Externals.Collisionless) (sound : s.Sound) {now : ℤ}
    {response : List SignedBlock} {event : Event}
    (h : s.receiveBlocks now response = .ok after) : ChainStep s after event := by
  unfold receiveBlocks at h
  cases hsession : s.blockSession with
  | none =>
      rw [hsession] at h
      cases pure_ok_iff.mp h
      exact .same rfl
  | some session =>
      rw [hsession] at h
      obtain ⟨⟨outcome, node⟩, hprocess, h⟩ := bind_ok_iff.mp h
      have hnode : after.node = node := by
        cases outcome <;> cases pure_ok_iff.mp h <;> rfl
      obtain ⟨common, received, hreceive, hprocess⟩ := BlockSession.processResponse_cases hprocess
      rcases hprocess with ⟨_, rfl, _⟩ | ⟨_, rfl, _⟩ | ⟨_, _, hreplace, _⟩
      · exact .same (congrArg NodeInternals.blockchain hnode)
      · exact .same (congrArg NodeInternals.blockchain hnode)
      · obtain ⟨hreceived, _, _, _, _, _, base, hat, hchain⟩ := BlockSession.receive_sound hash
          sound.linked (sound.session session hsession) hreceive
        refine .replaced hat hchain hreceived.received ?_
        change after.node.blockchain.blocks = _
        rw [hnode]
        exact (replaceBlocks_blocks hreplace).1

theorem chainStep_handle (hash : Externals.Collisionless) (sound : s.Sound) {event : Event}
    (h : s.handle event = .ok after) : ChainStep s after event := by
  cases event with
  | transaction now signedTransaction =>
      obtain ⟨node, hreceive, h⟩ := bind_ok_iff.mp h
      cases pure_ok_iff.mp h
      exact .same (receive_sameChain hreceive).blockchain
  | work now peers votes =>
      rcases node_of_headerWorker h with hnode | hmine
      · exact .same (congrArg NodeInternals.blockchain hnode)
      · exact .mined ⟨now, peers, votes, rfl⟩ hmine
  | headers now peer response =>
      exact .same (congrArg NodeInternals.blockchain (receiveHeaders_session h).2)
  | dropHeaders peer =>
      cases pure_ok_iff.mp h
      exact .same (congrArg NodeInternals.blockchain (dropHeaders_session s peer).2)
  | blocks now response => exact chainStep_receiveBlocks hash sound h
  | restart =>
      obtain ⟨node, hrestart, h⟩ := bind_ok_iff.mp h
      cases pure_ok_iff.mp h
      exact .same (restart_spec hrestart).1.blockchain
  | _ =>
      cases pure_ok_iff.mp h
      exact .same rfl

theorem chainStep_step (hash : Externals.Collisionless) (sound : s.Sound) (event : Event) :
    ChainStep s (s.step event) event := by
  unfold step
  cases hhandle : s.handle event with
  | ok after => exact chainStep_handle hash sound hhandle
  | error _ =>
      rcases recover_node s event with hnode | hnode
      · exact .same (congrArg NodeInternals.blockchain hnode)
      · have hchain := congrArg NodeInternals.blockchain hnode
        exact .same hchain

def minesHeavier (s : Synchronization) : Event → Prop
  | .work _ _ _ => s.node.MinesHeavier
  | _ => True

theorem successive_step (hash : Externals.Collisionless) (sound : s.Sound) {event : Event}
    (successive : s.chain.Successive) (heavier : s.minesHeavier event) :
    (s.step event).chain.Successive := by
  cases chainStep_step hash sound event with
  | same hchain =>
      rw [hchain]
      exact successive
  | mined work hmine =>
      obtain ⟨_, _, _, rfl⟩ := work
      exact successive_mineBlock successive heavier hmine
  | replaced hat hnext hreceived hblocks => exact successive.replace hat hnext hreceived hblocks

/-- Whenever the timer of a run lets the node mine, the next block is heavier and not earlier. -/
def MinesHeavier : Synchronization → List Event → Prop
  | _, [] => True
  | s, event :: rest => s.minesHeavier event ∧ MinesHeavier (s.step event) rest

theorem successive_run (hash : Externals.Collisionless) {events : List Event} (sound : s.Sound)
    (successive : s.chain.Successive) (heavier : s.MinesHeavier events) :
    (s.run events).chain.Successive := by
  induction events generalizing s with
  | nil => exact successive
  | cons event rest ih =>
      exact ih (sound_step hash sound event) (successive_step hash sound successive heavier.1)
        heavier.2

theorem successive_genesis {ctx : Context} {freezeBeforeBlock : ℕ} {genesis : SignedBlock}
    {node : NodeInternals} (h : insertGenesis ctx freezeBeforeBlock genesis = .ok node) :
    (idle node).chain.Successive := by
  obtain ⟨chain, hstart, h⟩ := bind_ok_iff.mp h
  obtain ⟨_, _, h⟩ := bind_ok_iff.mp h
  obtain ⟨_, _, h⟩ := bind_ok_iff.mp h
  cases pure_ok_iff.mp h
  exact .start hstart

end Synchronization

end
end Publiq
