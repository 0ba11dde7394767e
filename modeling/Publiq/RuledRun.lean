import Publiq.HeaderLaws
import Publiq.HeaderRun

/-! The `c_const` of the blocks of a node over a run. From the fourth block on it is the one of the
rule, whether the node has mined the block or taken it from a peer. -/
namespace Publiq
open Message Checked

def RuleDue (below : List DeltaConst) (pair : DeltaConst) : Prop :=
  deltaStep ≤ below.length → pair.2 = nextConst below

def Blockchain.Ruled (chain : Blockchain) : Prop :=
  Along RuleDue [] (chain.deltasBelow chain.length)

namespace Blockchain

theorem deltasBelow_length (chain : Blockchain) : chain.deltasBelow chain.length =
    chain.blocks.map fun signedBlock => signedBlock.blockDetails.header.deltaConst := by
  rw [deltasBelow, length, List.take_length]

theorem length_deltasBelow {chain : Blockchain} {number : ℕ} (h : number ≤ chain.length) :
    (chain.deltasBelow number).length = number := by
  rw [deltasBelow, List.length_map, List.length_take]
  exact Nat.min_eq_left h

theorem take_deltasBelow (chain : Blockchain) {low high : ℕ} (h : low ≤ high) :
    (chain.deltasBelow high).take low = chain.deltasBelow low := by
  rw [deltasBelow, ← List.map_take, List.take_take, Nat.min_eq_left h]
  rfl

theorem Ruled.below {chain : Blockchain} (ruled : chain.Ruled) {number : ℕ}
    (h : number ≤ chain.length) : Along RuleDue [] (chain.deltasBelow number) := by
  unfold Ruled at ruled
  rw [← List.take_append_drop number (chain.deltasBelow chain.length),
    take_deltasBelow chain h] at ruled
  exact (along_append.mp ruled).1

/-- From the fourth one on, the `c_const` of a block is that of the rule over those below it. -/
theorem Ruled.constant {chain : Blockchain} (ruled : chain.Ruled) {number : ℕ}
    {signedBlock : SignedBlock} (hat : chain.blocks[number]? = some signedBlock)
    (due : deltaStep ≤ number) : signedBlock.blockDetails.header.cConst =
      nextConst (chain.deltasBelow number) := by
  obtain ⟨hlt, hget⟩ := List.getElem?_eq_some_iff.mp hat
  have hlength := length_deltasBelow (Nat.le_of_lt hlt)
  have hsplit : chain.deltasBelow chain.length = chain.deltasBelow number ++
      signedBlock.blockDetails.header.deltaConst :: (chain.deltasBelow chain.length).drop
        (number + 1) := by
    rw [deltasBelow_length, ← hget]
    conv_lhs => rw [← List.take_append_drop number chain.blocks, List.drop_eq_getElem_cons hlt]
    rw [List.map_append, List.map_cons, List.map_drop]
    rfl
  have hrule := along_iff.mp ruled _ _ _ hsplit
  rw [List.nil_append] at hrule
  exact hrule (due.trans_eq hlength.symm)

theorem Ruled.start {chain : Blockchain} {genesis : SignedBlock}
    (h : Blockchain.start genesis = .ok chain) : chain.Ruled := by
  unfold Ruled
  rw [deltasBelow_length, start_blocks h, List.map_singleton, along_cons]
  exact ⟨fun due => absurd due (by decide), along_nil _⟩

end Blockchain

section
variable [Externals] {chain peer longer : Blockchain} {number common : ℕ}

def Shared (chain peer : Blockchain) (number : ℕ) : Prop :=
  ∃ a b, chain.blocks[number]? = some a ∧ peer.blocks[number]? = some b ∧
    a.blockDetails = b.blockDetails

theorem Shared.below (hash : Externals.Collisionless) (linked : chain.Linked)
    (linked' : peer.Linked) (shared : Shared chain peer common) (h : number ≤ common) :
    Shared chain peer number := by
  obtain ⟨d, rfl⟩ := Nat.exists_eq_add_of_le h
  clear h
  induction d generalizing number with
  | zero => exact shared
  | succ d ih =>
      rw [show number + (d + 1) = number + 1 + d by omega] at shared
      obtain ⟨a, b, ha, hb, hsame⟩ := ih shared
      obtain ⟨hlta, hgeta⟩ := List.getElem?_eq_some_iff.mp ha
      obtain ⟨hltb, hgetb⟩ := List.getElem?_eq_some_iff.mp hb
      have hfollowsa := List.isChain_iff_getElem.mp linked number hlta
      have hfollowsb := List.isChain_iff_getElem.mp linked' number hltb
      rw [hgeta] at hfollowsa
      rw [hgetb] at hfollowsb
      refine ⟨_, _, List.getElem?_eq_getElem (Nat.lt_of_succ_lt hlta),
        List.getElem?_eq_getElem (Nat.lt_of_succ_lt hltb), hash.block ?_⟩
      rw [← hfollowsa, ← hfollowsb, hsame]

theorem Shared.deltasBelow (hash : Externals.Collisionless) (linked : chain.Linked)
    (linked' : peer.Linked) (shared : Shared chain peer common) :
    chain.deltasBelow (common + 1) = peer.deltasBelow (common + 1) := by
  apply List.ext_getElem?
  intro i
  unfold Blockchain.deltasBelow
  rw [List.getElem?_map, List.getElem?_map, List.getElem?_take, List.getElem?_take]
  split_ifs with hi
  · obtain ⟨a, b, ha, hb, hsame⟩ :=
      Shared.below hash linked linked' shared (Nat.le_of_lt_succ hi)
    rw [ha, hb, Option.map_some, Option.map_some, hsame]
  · rfl

/-- Headers, the highest first, that follow the rule over the chain that they were checked
against. -/
def RuledOn (headers : List BlockHeaderExtended) : Prop :=
  ∃ (chain : Blockchain) (common : ℕ) (base : SignedBlock), chain.Linked ∧
    chain.blocks[common]? = some base ∧ (base.headerEx :: headers.reverse).IsChain Next ∧
    Along RuleDue (chain.deltasBelow (common + 1)) (receivedDeltas headers)

theorem ruledOn_of_processResponse (linked : chain.Linked) {now : ℤ}
    {response headers : List BlockHeaderExtended} {session : HeaderSession}
    (h : session.processResponse chain now response = .ok (.completed headers)) :
    RuledOn headers := by
  obtain ⟨_, hcheck, ⟨_, hcut, hcommon, houtcome⟩ | ⟨_, _, _, _, houtcome, _⟩⟩ :=
    HeaderSession.processResponse_cases h
  · cases houtcome
    obtain ⟨_, _, _, _, hvector⟩ := checkReceived_spec hcheck
    obtain ⟨_, hinitial⟩ := cutAtCommon_initial hcut
    obtain ⟨back, base, hback, hat, hnext⟩ := checkAgainstCommon_next linked hcommon
    obtain ⟨nonempty, along⟩ := along_of_checkAgainstCommon hcommon
    have hattached : attachedTo chain headers = chain.deltasBelow back.blockNumber.toNat := by
      rw [attachedTo, hback]
      rfl
    rw [hattached] at nonempty along
    have hpos : back.blockNumber.toNat ≠ 0 := by
      intro hzero
      rw [hzero] at nonempty
      exact nonempty rfl
    refine ⟨chain, back.blockNumber.toNat - 1, base, linked, hat, ?_, ?_⟩
    · rw [List.isChain_cons]
      refine ⟨fun first hfirst => ?_, hvector.suffix (List.reverse_suffix.mpr hinitial)⟩
      rw [List.head?_reverse, hback] at hfirst
      cases hfirst
      exact hnext
    · rw [Nat.sub_add_cancel (Nat.pos_of_ne_zero hpos)]
      exact along
  · cases houtcome

theorem RuledOn.along (hash : Externals.Collisionless) (linked : chain.Linked)
    {session : BlockSession} (ruled : RuledOn session.syncHeaders) {base : SignedBlock}
    (hat : chain.blocks[common]? = some base)
    (hchain : (base.headerEx :: session.expected).IsChain Next) (nonempty : session.expected ≠ []) :
    Along RuleDue (chain.deltasBelow (common + 1)) (receivedDeltas session.syncHeaders) := by
  obtain ⟨other, number, base', linked', hat', hchain', along⟩ := ruled
  obtain ⟨first, rest, hfirst⟩ := List.exists_cons_of_ne_nil nonempty
  have hexpected : session.syncHeaders.reverse = session.expected := rfl
  rw [hexpected, hfirst] at hchain'
  rw [hfirst] at hchain
  have hprev := (next_iff.mp (List.isChain_cons_cons.mp hchain).1).2.2.2.2.1
  have hprev' := (next_iff.mp (List.isChain_cons_cons.mp hchain').1).2.2.2.2.1
  have hsame : base.blockDetails = base'.blockDetails := hash.block (hprev.symm.trans hprev')
  have hnumber : common = number := by
    have h := chain.numbered common base hat
    have h' := other.numbered number base' hat'
    rw [← h, ← h', SignedBlock.number, SignedBlock.number, hsame]
  subst hnumber
  have shared : Shared chain other common := ⟨base, base', hat, hat', hsame⟩
  rw [shared.deltasBelow hash linked linked']
  exact along

theorem deltasBelow_replaced {session : BlockSession}
    (received : session.syncBlocks.map SignedBlock.headerEx =
      session.expected.take session.syncBlocks.length)
    (hblocks : longer.blocks = chain.blocks.take (common + 1) ++ session.syncBlocks) :
    longer.deltasBelow longer.length = chain.deltasBelow (common + 1) ++
      (receivedDeltas session.syncHeaders).take session.syncBlocks.length := by
  have hreceived : session.syncBlocks.map (fun signedBlock =>
      signedBlock.blockDetails.header.deltaConst) =
        (receivedDeltas session.syncHeaders).take session.syncBlocks.length := by
    unfold receivedDeltas
    rw [← List.map_take]
    change _ = (session.expected.take session.syncBlocks.length).map _
    rw [← received, List.map_map]
    rfl
  rw [Blockchain.deltasBelow_length, hblocks, List.map_append, hreceived]
  rfl

theorem Blockchain.Ruled.replace (ruled : chain.Ruled) {session : BlockSession} {base : SignedBlock}
    (hat : chain.blocks[common]? = some base)
    (along : Along RuleDue (chain.deltasBelow (common + 1)) (receivedDeltas session.syncHeaders))
    (received : session.syncBlocks.map SignedBlock.headerEx =
      session.expected.take session.syncBlocks.length)
    (hblocks : longer.blocks = chain.blocks.take (common + 1) ++ session.syncBlocks) :
    longer.Ruled := by
  have hlt : common < chain.length := (List.getElem?_eq_some_iff.mp hat).1
  unfold Ruled
  rw [deltasBelow_replaced received hblocks, along_append, List.nil_append]
  refine ⟨ruled.below hlt, ?_⟩
  rw [← List.take_append_drop session.syncBlocks.length (receivedDeltas session.syncHeaders)]
    at along
  exact (along_append.mp along).1

/-- After a batch the headers above it follow the rule over the chain with the batch on top. -/
theorem RuledOn.rest (linked : longer.Linked) {session : BlockSession} {base : SignedBlock}
    (hchain : (base.headerEx :: session.expected).IsChain Next)
    (along : Along RuleDue (chain.deltasBelow (common + 1)) (receivedDeltas session.syncHeaders))
    (received : session.syncBlocks.map SignedBlock.headerEx =
      session.expected.take session.syncBlocks.length)
    (nonempty : session.syncBlocks ≠ [])
    (hblocks : longer.blocks = chain.blocks.take (common + 1) ++ session.syncBlocks) :
    RuledOn session.afterBatch.syncHeaders := by
  have hexpected : session.afterBatch.syncHeaders.reverse =
      session.expected.drop session.syncBlocks.length := by
    rw [BlockSession.afterBatch, BlockSession.expected, List.drop_reverse]
  have hdeltas : receivedDeltas session.afterBatch.syncHeaders =
      (receivedDeltas session.syncHeaders).drop session.syncBlocks.length := by
    unfold receivedDeltas
    rw [hexpected, ← List.map_drop]
    rfl
  have hpos := longer.length_pos
  have hend : longer.length - 1 + 1 = longer.length := Nat.sub_add_cancel hpos
  refine ⟨longer, longer.length - 1, session.syncBlocks.getLast nonempty, linked, ?_, ?_, ?_⟩
  · rw [Blockchain.length, ← List.getLast?_eq_getElem?, hblocks,
      List.getLast?_append_of_ne_nil _ nonempty]
    exact List.getLast?_eq_some_getLast nonempty
  · have hsplit := (List.take_append_drop session.syncBlocks.length session.expected).symm
    rw [← received, ← List.dropLast_append_getLast nonempty, List.map_append,
      List.append_assoc] at hsplit
    have hlast := hchain.tail
    rw [List.tail_cons, hsplit] at hlast
    have hlast := hlast.right_of_append
    rw [List.dropLast_append_getLast nonempty] at hlast
    rw [hexpected]
    exact hlast
  · rw [hend, deltasBelow_replaced received hblocks, hdeltas]
    rw [← List.take_append_drop session.syncBlocks.length (receivedDeltas session.syncHeaders)]
      at along
    exact (along_append.mp along).2

theorem NodeInternals.ruled_mineBlock {node after : NodeInternals} (ruled : node.blockchain.Ruled)
    (h : node.mineBlock = .ok after) : after.blockchain.Ruled := by
  obtain ⟨header, signedBlock, hheader, hblock, hinsert, _⟩ := mineBlock_blocks h
  subst hblock
  have nonempty : node.blockchain.deltasBelow node.blockchain.length ≠ [] := by
    rw [Blockchain.deltasBelow_length]
    exact mt List.map_eq_nil_iff.mp node.blockchain.nonempty
  have hconst := nextHeader_cConst hheader
  rw [minedConst_eq nonempty] at hconst
  have hrule := Except.ok.inj (Except.ok.inj hconst)
  unfold Blockchain.Ruled at ruled ⊢
  rw [Blockchain.deltasBelow_length, (Blockchain.insert_ok_iff.mp hinsert).2, List.map_append,
    ← Blockchain.deltasBelow_length, along_append]
  exact ⟨ruled, fun _ => hrule.symm, along_nil _⟩

end
namespace Synchronization
open NodeInternals

section
variable [Externals] {s after : Synchronization}

/-- What holds of a node and its sessions all along: the blocks follow the rule, and so do the
headers that were checked. -/
structure Ruled (s : Synchronization) : Prop where
  chain : s.chain.Ruled
  promised : ∀ (peer : String) (data : HeadersActionData), s.headersActionsData[peer]? = some data →
    data.headers ≠ [] → RuledOn data.headers
  session : ∀ session, s.blockSession = some session → RuledOn session.syncHeaders

theorem Ruled.withNode (ruled : s.Ruled) {node : NodeInternals} (chain : node.blockchain.Ruled) :
    ({ s with node } : Synchronization).Ruled :=
  ⟨chain, ruled.promised, ruled.session⟩

theorem Ruled.withoutSession (ruled : s.Ruled) {node : NodeInternals}
    (chain : node.blockchain.Ruled) :
    ({ s with node, blockSession := none } : Synchronization).Ruled :=
  ⟨chain, ruled.promised, fun _ h => nomatch h⟩

theorem ruled_idle {node : NodeInternals} (chain : node.blockchain.Ruled) : (idle node).Ruled :=
  ⟨chain, fun _ _ h => by simp [idle] at h, fun _ h => nomatch h⟩

theorem ruled_blockWorker (ruled : s.Ruled) {now : ℤ} {peerCount : ℕ} {votes : List VoteInfo}
    (h : s.blockWorker now peerCount votes = .ok after) : after.Ruled := by
  rcases blockWorker_cases h with ⟨_, rfl⟩ | ⟨_, chosen, session, rfl, hsession⟩
  · exact ruled
  · refine ⟨ruled.chain, fun peer data => promised_noteCandidates ruled.promised chosen, ?_⟩
    rintro found rfl
    rcases hsession with hnone | ⟨candidate, reason, hcandidate, hsome⟩
    · cases hnone
    · cases hsome
      exact promised_of_candidate ruled.promised hcandidate

theorem ruled_dropHeaders (ruled : s.Ruled) (peer : String) : (s.dropHeaders peer).Ruled := by
  refine ⟨?_, fun other data => promised_dropHeaders ruled.promised peer, ?_⟩
  · unfold dropHeaders
    split_ifs <;> exact ruled.chain
  · unfold dropHeaders
    split_ifs <;> exact ruled.session

theorem ruled_startHeaders (ruled : s.Ruled) (peer : String)
    (promisedHeader : BlockHeaderExtended) : (s.startHeaders peer promisedHeader).Ruled := by
  refine ⟨?_, fun other data => promised_startHeaders ruled.promised peer promisedHeader, ?_⟩
  · unfold startHeaders
    split_ifs <;> exact ruled.chain
  · unfold startHeaders
    split_ifs <;> exact ruled.session

theorem ruled_headerWorker (ruled : s.Ruled) {now : ℤ} {peers : List String}
    {votes : List VoteInfo} (h : s.headerWorker now peers votes = .ok after) : after.Ruled := by
  obtain ⟨mid, hmid, h⟩ := headerWorker_cases h
  have hruled := ruled_blockWorker ruled hmid
  rcases h with rfl | ⟨_, ⟨peer, promisedHeader, rfl⟩ | ⟨node, hmine, rfl⟩⟩
  · exact hruled
  · exact ruled_startHeaders hruled peer promisedHeader
  · exact hruled.withNode (ruled_mineBlock hruled.chain hmine)

theorem ruled_receiveHeaders (linked : s.chain.Linked) (ruled : s.Ruled) {now : ℤ} {peer : String}
    {response : List BlockHeaderExtended} (h : s.receiveHeaders now peer response = .ok after) :
    after.Ruled := by
  unfold receiveHeaders at h
  split at h
  · obtain ⟨outcome, houtcome, h⟩ := bind_ok_iff.mp h
    cases outcome with
    | completed headers =>
        cases pure_ok_iff.mp h
        refine ⟨ruled.chain, fun other data hget hne => ?_, ruled.session⟩
        dsimp only at hget
        rw [Std.ExtTreeMap.getElem?_insert] at hget
        split_ifs at hget
        · cases hget
          exact ruledOn_of_processResponse linked houtcome
        · exact ruled.promised other data hget hne
    | waiting session =>
        cases pure_ok_iff.mp h
        exact ⟨ruled.chain, ruled.promised, ruled.session⟩
  · cases pure_ok_iff.mp h
    exact ruled

theorem ruled_processResponse (hash : Externals.Collisionless) {now : ℤ}
    {response : List SignedBlock} {session : BlockSession} {node after : NodeInternals}
    {outcome : BlockOutcome} (linked : node.blockchain.Linked)
    (sound : session.Sound node.ctx.config node.blockchain) (chain : node.blockchain.Ruled)
    (ruled : RuledOn session.syncHeaders)
    (h : session.processResponse now response node = .ok (outcome, after)) :
    after.blockchain.Ruled ∧ ∀ rest, outcome = .waiting rest → RuledOn rest.syncHeaders := by
  obtain ⟨common, received, hreceive, h⟩ := BlockSession.processResponse_cases h
  obtain ⟨hreceived, hheaders, _, happend, hresponse, hfits, base, hat, hchain⟩ :=
    BlockSession.receive_sound hash linked sound hreceive
  have hruled : RuledOn received.syncHeaders := hheaders ▸ ruled
  have hblocksNe : received.syncBlocks ≠ [] := by
    rw [happend]
    exact List.append_ne_nil_of_right_ne_nil _ hresponse
  have hne : received.expected ≠ [] := by
    apply List.ne_nil_of_length_pos
    rw [BlockSession.expected, List.length_reverse]
    exact Nat.lt_of_lt_of_le (List.length_pos_iff.mpr hblocksNe) hfits
  have along := hruled.along hash linked hat hchain hne
  rcases h with ⟨rfl, rfl, _⟩ | ⟨rfl, rfl, _⟩ | ⟨_, clearPool, hreplace, h⟩
  · exact ⟨chain, fun rest hrest => by cases hrest; exact hruled⟩
  · exact ⟨chain, fun rest hrest => by cases hrest⟩
  · have hblocks := (replaceBlocks_blocks hreplace).1
    refine ⟨chain.replace hat along hreceived.received hblocks, fun rest hrest => ?_⟩
    rcases h with ⟨_, rfl⟩ | ⟨_, rfl⟩
    · cases hrest
      have hlinked := linked.replace hat hchain hreceived.received hblocks
      exact RuledOn.rest hlinked hchain along hreceived.received hblocksNe hblocks
    · cases hrest

theorem ruled_receiveBlocks (hash : Externals.Collisionless) (sound : s.Sound) (ruled : s.Ruled)
    {now : ℤ} {response : List SignedBlock} (h : s.receiveBlocks now response = .ok after) :
    after.Ruled := by
  unfold receiveBlocks at h
  cases hsession : s.blockSession with
  | none =>
      rw [hsession] at h
      cases pure_ok_iff.mp h
      exact ruled
  | some session =>
      rw [hsession] at h
      obtain ⟨⟨outcome, node⟩, hprocess, h⟩ := bind_ok_iff.mp h
      obtain ⟨chain, hrest⟩ := ruled_processResponse hash sound.linked
        (sound.session session hsession) ruled.chain (ruled.session session hsession) hprocess
      cases outcome with
      | waiting rest =>
          cases pure_ok_iff.mp h
          exact ⟨chain, ruled.promised, fun found hfound => by cases hfound; exact hrest _ rfl⟩
      | completed =>
          cases pure_ok_iff.mp h
          exact ruled.withoutSession chain
      | rejected =>
          cases pure_ok_iff.mp h
          exact ruled.withoutSession chain

theorem ruled_handle (hash : Externals.Collisionless) (sound : s.Sound) (ruled : s.Ruled)
    {event : Event} (h : s.handle event = .ok after) : after.Ruled := by
  cases event with
  | transaction now signedTransaction =>
      obtain ⟨node, hreceive, h⟩ := bind_ok_iff.mp h
      cases pure_ok_iff.mp h
      exact ruled.withNode ((receive_sameChain hreceive).blockchain ▸ ruled.chain)
  | work now peers votes => exact ruled_headerWorker ruled h
  | syncResponse peer response =>
      cases pure_ok_iff.mp h
      exact ⟨ruled.chain, ruled.promised, ruled.session⟩
  | headers now peer response => exact ruled_receiveHeaders sound.linked ruled h
  | dropHeaders peer =>
      cases pure_ok_iff.mp h
      exact ruled_dropHeaders ruled peer
  | blocks now response => exact ruled_receiveBlocks hash sound ruled h
  | dropBlocks =>
      cases pure_ok_iff.mp h
      exact ruled.withoutSession ruled.chain
  | restart =>
      obtain ⟨node, hrestart, h⟩ := bind_ok_iff.mp h
      cases pure_ok_iff.mp h
      exact ruled_idle ((restart_spec hrestart).1.blockchain ▸ ruled.chain)
  | _ =>
      cases pure_ok_iff.mp h
      exact ruled.withNode ruled.chain

theorem ruled_recover (ruled : s.Ruled) (event : Event) : (s.recover event).Ruled := by
  cases event with
  | work now peers votes =>
      have hruled : ((s.blockWorker now peers.length votes).toOption.getD s).Ruled := by
        cases hwork : s.blockWorker now peers.length votes with
        | ok after => exact ruled_blockWorker ruled hwork
        | error _ => exact ruled
      exact hruled.withNode hruled.chain
  | headers now peer response => exact ruled_dropHeaders ruled peer
  | blocks now response => exact @Ruled.withoutSession _ s ruled s.node.discard ruled.chain
  | _ => exact ruled.withNode ruled.chain

theorem ruled_step (hash : Externals.Collisionless) (sound : s.Sound) (ruled : s.Ruled)
    (event : Event) : (s.step event).Ruled := by
  unfold step
  cases hhandle : s.handle event with
  | ok after => exact ruled_handle hash sound ruled hhandle
  | error _ => exact ruled_recover ruled event

theorem ruled_run (hash : Externals.Collisionless) (sound : s.Sound) (ruled : s.Ruled)
    (events : List Event) : (s.run events).Ruled := by
  induction events generalizing s with
  | nil => exact ruled
  | cons event rest ih => exact ih (sound_step hash sound event) (ruled_step hash sound ruled event)

theorem begins_step (hash : Externals.Collisionless) (sound : s.Sound) (event : Event)
    {genesis : SignedBlock} (begins : s.chain.blocks[0]? = some genesis) :
    (s.step event).chain.blocks[0]? = some genesis := by
  cases chainStep_step hash sound event with
  | same hchain =>
      rw [hchain]
      exact begins
  | mined _ hmine =>
      obtain ⟨_, _, _, _, hinsert, _⟩ := mineBlock_blocks hmine
      change (s.step event).node.blockchain.blocks[0]? = some genesis
      rw [(Blockchain.insert_ok_iff.mp hinsert).2,
        List.getElem?_append_left s.node.blockchain.length_pos]
      exact begins
  | @replaced common base session hat _ _ hblocks =>
      have hpos : 0 < (s.chain.blocks.take (common + 1)).length := by
        rw [List.length_take]
        exact Nat.lt_min.mpr ⟨Nat.succ_pos common, s.chain.length_pos⟩
      rw [hblocks, List.getElem?_append_left hpos, List.getElem?_take_of_lt (Nat.succ_pos common)]
      exact begins

theorem begins_run (hash : Externals.Collisionless) (sound : s.Sound) {genesis : SignedBlock}
    (begins : s.chain.blocks[0]? = some genesis) (events : List Event) :
    (s.run events).chain.blocks[0]? = some genesis := by
  induction events generalizing s with
  | nil => exact begins
  | cons event rest ih =>
      exact ih (sound_step hash sound event) (begins_step hash sound event begins)

theorem ruled_genesis {ctx : Context} {freezeBeforeBlock : ℕ} {genesis : SignedBlock}
    {node : NodeInternals} (h : insertGenesis ctx freezeBeforeBlock genesis = .ok node) :
    (idle node).Ruled ∧ (idle node).chain.blocks[0]? = some genesis := by
  obtain ⟨chain, hstart, h⟩ := bind_ok_iff.mp h
  obtain ⟨_, _, h⟩ := bind_ok_iff.mp h
  obtain ⟨_, _, h⟩ := bind_ok_iff.mp h
  cases pure_ok_iff.mp h
  refine ⟨ruled_idle (.start hstart), ?_⟩
  change chain.blocks[0]? = some genesis
  rw [Blockchain.start_blocks hstart]
  rfl

end

end Synchronization
section Examples
open Synchronization NodeInternals

attribute [local instance] sharedExternals

theorem minerEvents_heavier : (idle minerStart).MinesHeavier minerEvents := by
  have hheader : ((idle minerStart).step (.transaction 99600 sharedTransfer)).node.nextHeader =
      .ok sharedBlock.blockDetails.header := by
    decide +kernel
  refine ⟨trivial, fun header h => ?_, trivial⟩
  rw [hheader] at h
  cases h
  decide +kernel

end Examples
end Publiq
