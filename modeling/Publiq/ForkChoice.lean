import Publiq.HeaderSync

/-! Fork choice: what a block session that runs to completion does to the weight of the
chain. The last header of the chain it leaves is the highest one it was started with,
so the weight is kept if and only if those headers were not lighter than the chain that
the node held when it took them. -/
namespace Publiq
open Message Checked NodeInternals

/-- The headers reach above the chain, weigh more than it, or are one header that is as
heavy as the last block. -/
def NotLighter (chain : Blockchain) (headers : List BlockHeaderExtended) : Prop :=
  ∃ front lowest, headers.head? = some front ∧ headers.getLast? = some lowest ∧
    (lowest.blockNumber.toNat = chain.length ∨ chain.lastHeader.cSum < front.cSum ∨
      (front.cSum = chain.lastHeader.cSum ∧ headers.length = 1 ∧
        front.blockNumber.toNat + 1 = chain.length))

section Weight
variable [Externals]

def NodeInternals.Richer (node : NodeInternals) (inserted received : SignedBlock) : Prop :=
  ∃ insertedMiner receivedMiner, getMiner inserted = .ok insertedMiner ∧
    getMiner received = .ok receivedMiner ∧
    (node.ledger.state.getBalance insertedMiner .pool).lt
      (node.ledger.state.getBalance receivedMiner .pool) = true

/-- The chain that a session with some headers has left weighs more than the one before it,
or, where one block has replaced the last one, as much with a strictly richer miner. -/
def KeepsWeight (before : Blockchain) (headers : List BlockHeaderExtended)
    (node : NodeInternals) (after : Blockchain) : Prop :=
  before.lastHeader.cSum < after.lastHeader.cSum ∨
    (after.lastHeader.cSum = before.lastHeader.cSum ∧ headers.length = 1 ∧
      after.blocks.dropLast = before.blocks.dropLast ∧
      node.Richer before.lastBlock after.lastBlock)

/-- A response adds its blocks to those received before. -/
theorem BlockSession.receive_spec {node : NodeInternals} {response : List SignedBlock}
    {session received : BlockSession} {common : ℕ}
    (h : session.receive node response = .ok (common, received)) :
    response ≠ [] ∧ received = { session with syncBlocks := session.syncBlocks ++ response } ∧
      received.syncBlocks.length ≤ received.syncHeaders.length := by
  obtain ⟨hresponse, h⟩ := require_bind_ok_iff.mp h
  obtain ⟨hfits, h⟩ := require_bind_ok_iff.mp h
  dsimp only at h
  split at h
  · obtain ⟨_, h⟩ := require_bind_ok_iff.mp h
    obtain ⟨_, h⟩ := require_bind_ok_iff.mp h
    obtain ⟨_, h⟩ := require_bind_ok_iff.mp h
    obtain ⟨_, _, h⟩ := bind_ok_iff.mp h
    cases pure_ok_iff.mp h
    refine ⟨hresponse, rfl, ?_⟩
    simp only [List.length_append]
    omega
  · cases h

omit [Externals] in
theorem cSum_lt_of_isChain {base : BlockHeaderExtended} {headers : List BlockHeaderExtended}
    (h : (base :: headers).IsChain Next) {front : BlockHeaderExtended}
    (hfront : headers.getLast? = some front) : base.cSum < front.cSum := by
  induction headers generalizing base with
  | nil => cases hfront
  | cons header rest ih =>
      obtain ⟨hnext, hrest⟩ := List.isChain_cons_cons.mp h
      have hlt := (next_iff.mp hnext).2.1
      cases rest with
      | nil =>
          cases hfront
          exact hlt
      | cons next rest =>
          exact UInt64.lt_trans hlt (ih hrest (by simpa using hfront))

namespace Synchronization

/-- The states of a block session that a node in a state starts with some headers, for as
long as the session is in progress. -/
inductive InSession (s : Synchronization) (reason : Reason) (headers : List BlockHeaderExtended) :
    Synchronization → Prop where
  | start {event : Event} (idle : s.blockSession = none)
      (started : (s.step event).blockSession = some ⟨reason, headers, []⟩) :
      InSession s reason headers (s.step event)
  | goesOn {t : Synchronization} {event : Event} (session : InSession s reason headers t)
      (inProgress : (t.step event).blockSession ≠ none) :
      InSession s reason headers (t.step event)

def Completes (t : Synchronization) (event : Event) : Prop :=
  ∃ now response session node, event = .blocks now response ∧ t.blockSession = some session ∧
    session.processResponse now response t.node = .ok (.completed, node)

omit [Externals] in
theorem startHeaders_session (s : Synchronization) (peer : String)
    (promisedHeader : BlockHeaderExtended) :
    (s.startHeaders peer promisedHeader).blockSession = s.blockSession ∧
      (s.startHeaders peer promisedHeader).node = s.node := by
  unfold startHeaders
  split_ifs <;> exact ⟨rfl, rfl⟩

omit [Externals] in
theorem dropHeaders_session (s : Synchronization) (peer : String) :
    (s.dropHeaders peer).blockSession = s.blockSession ∧ (s.dropHeaders peer).node = s.node := by
  unfold dropHeaders
  split_ifs <;> exact ⟨rfl, rfl⟩

theorem receiveHeaders_session {s after : Synchronization} {now : ℤ} {peer : String}
    {response : List BlockHeaderExtended} (h : s.receiveHeaders now peer response = .ok after) :
    after.blockSession = s.blockSession ∧ after.node = s.node := by
  unfold receiveHeaders at h
  split at h
  · obtain ⟨outcome, _, h⟩ := bind_ok_iff.mp h
    cases outcome <;> cases pure_ok_iff.mp h <;> exact ⟨rfl, rfl⟩
  · cases pure_ok_iff.mp h
    exact ⟨rfl, rfl⟩

/-- Without a session a step of the worker starts none and may change the chain, or starts
one with the headers of a candidate and leaves the chain. -/
theorem headerWorker_starts {s after : Synchronization} {now : ℤ} {peers : List String}
    {votes : List VoteInfo} (idle : s.blockSession = none)
    (h : s.headerWorker now peers votes = .ok after) {session : BlockSession}
    (started : after.blockSession = some session) :
    after.chain = s.chain ∧ ∃ candidate reason, candidate ∈ s.candidates now ∧
      session = ⟨reason, candidate.headers, []⟩ := by
  obtain ⟨mid, hmid, h⟩ := headerWorker_cases h
  rcases h with rfl | ⟨hnone, ⟨peer, promisedHeader, rfl⟩ | ⟨node, _, rfl⟩⟩
  · rcases blockWorker_cases hmid with ⟨hsome, rfl⟩ | ⟨_, chosen, found, rfl, hfound⟩
    · rw [idle] at hsome
      cases hsome
    · cases started
      rcases hfound with hnone | ⟨candidate, reason, hcandidate, hsome⟩
      · cases hnone
      · cases hsome
        exact ⟨rfl, candidate, reason, hcandidate, rfl⟩
  · rw [(startHeaders_session mid peer promisedHeader).1, hnone] at started
    cases started
  · rw [show ({ mid with node } : Synchronization).blockSession = none from hnone] at started
    cases started

theorem Completes.of_outcome {t : Synchronization} {now : ℤ} {response : List SignedBlock}
    {session : BlockSession} (hsession : t.blockSession = some session)
    (h : (session.processResponse now response t.node).map Prod.fst = .ok .completed) :
    t.Completes (.blocks now response) := by
  cases hprocess : session.processResponse now response t.node with
  | error e =>
      rw [hprocess] at h
      cases h
  | ok result =>
      rw [hprocess] at h
      obtain ⟨outcome, node⟩ := result
      cases Except.ok.inj h
      exact ⟨now, response, session, node, rfl, hsession, hprocess⟩

/-- A session is started by `block_worker` alone, with the headers of a candidate. -/
theorem step_starts {s : Synchronization} {event : Event} {session : BlockSession}
    (idle : s.blockSession = none) (h : (s.step event).blockSession = some session) :
    (s.step event).chain = s.chain ∧ ∃ now candidate reason, candidate ∈ s.candidates now ∧
      session = ⟨reason, candidate.headers, []⟩ := by
  have absurd : ∀ {after : Synchronization}, after.blockSession = s.blockSession →
      after.blockSession ≠ some session := by
    intro after hsame
    simp [hsame, idle]
  unfold step at h ⊢
  cases hhandle : s.handle event with
  | ok after =>
      rw [hhandle] at h
      dsimp only at h ⊢
      cases event with
      | work now peers votes =>
          obtain ⟨hchain, candidate, reason, hcandidate⟩ := headerWorker_starts idle hhandle h
          exact ⟨hchain, now, candidate, reason, hcandidate⟩
      | transaction now signedTransaction =>
          obtain ⟨node, _, hhandle⟩ := bind_ok_iff.mp hhandle
          cases pure_ok_iff.mp hhandle
          exact (absurd rfl h).elim
      | headers now peer response =>
          exact (absurd (receiveHeaders_session hhandle).1 h).elim
      | dropHeaders peer =>
          cases pure_ok_iff.mp hhandle
          exact (absurd (dropHeaders_session s peer).1 h).elim
      | blocks now response =>
          rw [handle, receiveBlocks, idle] at hhandle
          cases pure_ok_iff.mp hhandle
          exact (absurd rfl h).elim
      | restart =>
          obtain ⟨node, _, hhandle⟩ := bind_ok_iff.mp hhandle
          cases pure_ok_iff.mp hhandle
          cases h
      | dropBlocks =>
          cases pure_ok_iff.mp hhandle
          cases h
      | _ =>
          cases pure_ok_iff.mp hhandle
          exact (absurd rfl h).elim
  | error _ =>
      rw [hhandle] at h
      dsimp only at h ⊢
      cases event with
      | work now peers votes =>
          rw [recover] at h ⊢
          dsimp only at h ⊢
          cases hwork : s.blockWorker now peers.length votes with
          | error _ =>
              rw [hwork] at h
              exact (absurd rfl h).elim
          | ok mid =>
              have hprogress : mid.inProgress := by
                rw [hwork] at h
                exact congrArg Option.isSome h
              rw [handle, headerWorker, hwork, ok_bind, if_pos hprogress] at hhandle
              cases hhandle
      | headers now peer response =>
          exact (absurd (dropHeaders_session s peer).1 h).elim
      | blocks now response => cases h
      | _ => exact (absurd rfl h).elim

/-- What a step during a session does that leaves it in progress. -/
theorem step_goesOn {t : Synchronization} {event : Event} {session after : BlockSession}
    (inProgress : t.blockSession = some session)
    (h : (t.step event).blockSession = some after) :
    (after = session ∧ (t.step event).chain = t.chain) ∨
      ∃ now response, session.processResponse now response t.node =
        .ok (.waiting after, (t.step event).node) := by
  have same : ∀ {other : Synchronization}, other.blockSession = some after →
      other.blockSession = t.blockSession → other.chain = t.chain →
      after = session ∧ other.chain = t.chain := by
    intro other hother hsession hchain
    rw [hsession, inProgress] at hother
    exact ⟨(Option.some.inj hother).symm, hchain⟩
  have hbusy : t.inProgress := by simp [Synchronization.inProgress, inProgress]
  have hworker : ∀ now peerCount votes, t.blockWorker now peerCount votes = .ok t := by
    intro now peerCount votes
    rw [blockWorker, if_pos hbusy]
    rfl
  unfold step at h ⊢
  cases hhandle : t.handle event with
  | ok after' =>
      rw [hhandle] at h
      dsimp only at h ⊢
      cases event with
      | work now peers votes =>
          rw [handle, headerWorker, hworker, ok_bind, if_pos hbusy] at hhandle
          cases pure_ok_iff.mp hhandle
          exact .inl (same h rfl rfl)
      | transaction now signedTransaction =>
          obtain ⟨node, hreceive, hhandle⟩ := bind_ok_iff.mp hhandle
          cases pure_ok_iff.mp hhandle
          exact .inl (same h rfl (receive_sameChain hreceive).blockchain)
      | headers now peer response =>
          obtain ⟨hsession, hnode⟩ := receiveHeaders_session hhandle
          exact .inl (same h hsession (congrArg NodeInternals.blockchain hnode))
      | dropHeaders peer =>
          cases pure_ok_iff.mp hhandle
          obtain ⟨hsession, hnode⟩ := dropHeaders_session t peer
          exact .inl (same h hsession (congrArg NodeInternals.blockchain hnode))
      | blocks now response =>
          rw [handle, receiveBlocks, inProgress] at hhandle
          obtain ⟨⟨outcome, node⟩, hprocess, hhandle⟩ := bind_ok_iff.mp hhandle
          cases outcome with
          | waiting rest =>
              cases pure_ok_iff.mp hhandle
              cases h
              exact .inr ⟨now, response, hprocess⟩
          | completed =>
              cases pure_ok_iff.mp hhandle
              cases h
          | rejected =>
              cases pure_ok_iff.mp hhandle
              cases h
      | restart =>
          obtain ⟨node, _, hhandle⟩ := bind_ok_iff.mp hhandle
          cases pure_ok_iff.mp hhandle
          cases h
      | dropBlocks =>
          cases pure_ok_iff.mp hhandle
          cases h
      | _ =>
          cases pure_ok_iff.mp hhandle
          exact .inl (same h rfl rfl)
  | error _ =>
      rw [hhandle] at h
      dsimp only at h ⊢
      cases event with
      | work now peers votes =>
          rw [handle, headerWorker, hworker, ok_bind, if_pos hbusy] at hhandle
          cases hhandle
      | headers now peer response =>
          obtain ⟨hsession, hnode⟩ := dropHeaders_session t peer
          exact .inl (same h hsession (congrArg NodeInternals.blockchain hnode))
      | blocks now response => cases h
      | _ => exact .inl (same h rfl rfl)

/-- The session holds the highest headers it was started with, and all of them for as long
as the chain is the one it was started on. -/
theorem InSession.session {s t : Synchronization} {reason : Reason}
    {headers : List BlockHeaderExtended} (h : s.InSession reason headers t) :
    ∃ session, t.blockSession = some session ∧ session.syncHeaders <+: headers ∧
      (session.syncHeaders = headers → t.chain = s.chain) := by
  induction h with
  | start idle started =>
      exact ⟨_, started, List.prefix_rfl, fun _ => (step_starts idle started).1⟩
  | @goesOn t event _ inProgress ih =>
      obtain ⟨session, hsession, hinitial, hchain⟩ := ih
      obtain ⟨after, hafter⟩ := Option.ne_none_iff_exists'.mp inProgress
      refine ⟨after, hafter, ?_⟩
      rcases step_goesOn hsession hafter with ⟨rfl, hsame⟩ | ⟨now, response, hprocess⟩
      · exact ⟨hinitial, fun heq => hsame.trans (hchain heq)⟩
      · obtain ⟨common, received, hreceive, hcases⟩ := BlockSession.processResponse_cases hprocess
        obtain ⟨hresponse, hreceived, _⟩ := BlockSession.receive_spec hreceive
        have hsame : received.syncHeaders = session.syncHeaders := by rw [hreceived]
        have hnonempty : received.syncBlocks ≠ [] := by simp [hreceived, hresponse]
        rcases hcases with ⟨houtcome, hnode, _⟩ | ⟨houtcome, _⟩ | ⟨_, _, hreplace, hcases⟩
        · cases houtcome
          rw [hsame]
          exact ⟨hinitial, fun heq =>
            (congrArg NodeInternals.blockchain hnode).trans (hchain heq)⟩
        · cases houtcome
        · rcases hcases with ⟨hmissing, houtcome⟩ | ⟨_, houtcome⟩
          · cases houtcome
            have hshort : received.afterBatch.syncHeaders.length < session.syncHeaders.length := by
              rw [BlockSession.afterBatch, ← hsame]
              dsimp only
              rw [List.length_take]
              have := List.length_pos_iff.mpr hnonempty
              omega
            refine ⟨?_, fun heq => ?_⟩
            · refine List.IsPrefix.trans ?_ hinitial
              rw [← hsame]
              exact List.take_prefix _ _
            · have := hinitial.length_le
              rw [heq] at hshort
              omega
          · cases houtcome

theorem InSession.candidate {s t : Synchronization} {reason : Reason}
    {headers : List BlockHeaderExtended} (h : s.InSession reason headers t) :
    ∃ now candidate, candidate ∈ s.candidates now ∧ candidate.headers = headers := by
  induction h with
  | start idle started =>
      obtain ⟨_, now, candidate, _, hcandidate, hsession⟩ := step_starts idle started
      cases hsession
      exact ⟨now, candidate, hcandidate, rfl⟩
  | goesOn _ _ ih => exact ih

/-- What the completion of a session leaves: the blocks of its headers, on top of the block
that they join. -/
theorem Completes.spec (hash : Externals.Collisionless) {t : Synchronization} (sound : t.Sound)
    {event : Event} (h : t.Completes event) :
    ∃ session common blocks, t.blockSession = some session ∧
      blocks.map SignedBlock.headerEx = session.expected ∧
      common < t.chain.length ∧
      (t.step event).chain.blocks = t.chain.blocks.take (common + 1) ++ blocks ∧
      t.node.rejectsFork common blocks = .ok false := by
  obtain ⟨now, response, session, node, rfl, hsession, hprocess⟩ := h
  have hafter : (t.step (.blocks now response)).chain = node.blockchain := by
    rw [step, handle, receiveBlocks, hsession]
    dsimp only
    rw [hprocess]
    rfl
  obtain ⟨common, received, hreceive, hcases⟩ := BlockSession.processResponse_cases hprocess
  obtain ⟨hsound, hsame, _, _, _, hfits, base, hat, _⟩ :=
    BlockSession.receive_sound hash sound.linked (sound.session session hsession) hreceive
  rcases hcases with ⟨houtcome, _⟩ | ⟨houtcome, _⟩ | ⟨hfork, _, hreplace, hcases⟩
  · cases houtcome
  · cases houtcome
  · rcases hcases with ⟨_, houtcome⟩ | ⟨hall, _⟩
    · cases houtcome
    · refine ⟨session, common, received.syncBlocks, hsession, ?_, ?_, ?_, hfork⟩
      · have hlength : received.syncBlocks.length = received.expected.length := by
          rw [BlockSession.expected, List.length_reverse]
          omega
        rw [hsound.received, hlength, List.take_length, BlockSession.expected,
          BlockSession.expected, hsame]
      · exact (List.getElem?_eq_some_iff.mp hat).1
      · rw [hafter]
        exact (replaceBlocks_blocks hreplace).1

theorem InSession.sound (hash : Externals.Collisionless) {s t : Synchronization} {reason : Reason}
    {headers : List BlockHeaderExtended} (h : s.InSession reason headers t) (sound : s.Sound) :
    t.Sound := by
  induction h with
  | start => exact sound_step hash sound _
  | goesOn _ _ ih => exact sound_step hash ih _

/-- Headers above the chain outweigh it: they were checked down to its last block. -/
theorem cSum_lt_of_candidate (hash : Externals.Collisionless) {s : Synchronization}
    (sound : s.Sound) {now : ℤ} {candidate : Candidate} (h : candidate ∈ s.candidates now)
    {front lowest : BlockHeaderExtended} (hfront : candidate.headers.head? = some front)
    (hlowest : candidate.headers.getLast? = some lowest)
    (above : lowest.blockNumber.toNat = s.chain.length) :
    s.chain.lastHeader.cSum < front.cSum := by
  obtain ⟨hne, base, hchain⟩ := promised_of_candidate sound.promised h
  have hbase : base.headerEx.blockHash = s.chain.lastHash := by
    obtain ⟨⟨peer, data⟩, _, hcandidate⟩ := List.mem_filterMap.mp h
    unfold candidateOf at hcandidate
    dsimp only at hcandidate
    split at hcandidate
    · cases hcandidate
    · rename_i back hback
      split_ifs at hcandidate with _ hprev
      cases hcandidate
      rw [hlowest] at hback
      cases hback
      have hpositive := s.chain.length_pos
      have hlast : s.chain.blocks[s.chain.length - 1]? = some s.chain.lastBlock := by
        rw [Blockchain.lastBlock, List.getLast_eq_getElem, Blockchain.length,
          List.getElem?_eq_getElem]
      rw [above, sound.linked.headerExAt hlast] at hprev
      have hfollows := (List.isChain_cons.mp hchain).1 lowest (by rw [List.head?_reverse, hlowest];
                                                                  rfl)
      rw [← (next_iff.mp hfollows).2.2.2.2.1]
      by_contra hdifferent
      refine hprev ⟨hpositive, ?_⟩
      intro heq
      exact hdifferent (Option.some.inj heq).symm
  have hsame : base.blockDetails = s.chain.lastBlock.blockDetails := hash.block hbase
  have hlt := @cSum_lt_of_isChain _ _ hchain front (by rw [List.getLast?_reverse, hfront])
  change base.blockDetails.header.cSum < front.cSum at hlt
  rw [hsame] at hlt
  exact hlt

theorem Completes.lastBlock (hash : Externals.Collisionless) {s t : Synchronization}
    (sound : s.Sound) {reason : Reason} {headers : List BlockHeaderExtended}
    (session : s.InSession reason headers t) {event : Event} (done : t.Completes event) :
    headers.head? = some (t.step event).chain.lastBlock.headerEx := by
  obtain ⟨current, hcurrent, ⟨rest, hinitial⟩, _⟩ := session.session
  obtain ⟨same, common, blocks, hsame, hmap, _, hblocks, _⟩ :=
    done.spec hash (session.sound hash sound)
  cases hcurrent.symm.trans hsame
  obtain ⟨hne, _⟩ := ((session.sound hash sound).session current hcurrent).promised
  have hnonempty : blocks ≠ [] := by
    rintro rfl
    exact hne (by simpa [BlockSession.expected] using hmap.symm)
  have hlast : (t.step event).chain.lastBlock = blocks.getLast hnonempty := by
    simp only [Blockchain.lastBlock, hblocks, List.getLast_append_of_ne_nil _ hnonempty]
  have hhead := congrArg List.getLast? hmap
  rw [BlockSession.expected, List.getLast?_reverse, List.getLast?_map,
    List.getLast?_eq_some_getLast hnonempty, Option.map_some, ← hlast] at hhead
  rw [← hinitial, List.head?_append, ← hhead]
  rfl

/-- One header is replaced by its block at once, on the chain that the session started on,
and in a normal fork the miner of that block is richer. -/
theorem Completes.single (hash : Externals.Collisionless) {s t : Synchronization}
    (sound : s.Sound) {reason : Reason} {header : BlockHeaderExtended}
    (session : s.InSession reason [header] t) {event : Event} (done : t.Completes event) :
    (t.step event).chain.blocks = s.chain.blocks.take header.blockNumber.toNat ++
        [(t.step event).chain.lastBlock] ∧
      (header.blockNumber.toNat + 1 = s.chain.length → header.cSum = s.chain.lastHeader.cSum →
        t.node.Richer s.chain.lastBlock (t.step event).chain.lastBlock) := by
  have hfront := done.lastBlock hash sound session
  obtain ⟨current, hcurrent, hinitial, hchain⟩ := session.session
  obtain ⟨same, common, blocks, hsame, hmap, hcommon, hblocks, hfork⟩ :=
    done.spec hash (session.sound hash sound)
  cases hcurrent.symm.trans hsame
  obtain ⟨hne, _⟩ := ((session.sound hash sound).session current hcurrent).promised
  have hall : current.syncHeaders = [header] := by
    apply hinitial.eq_of_length
    have hpositive := List.length_pos_iff.mpr hne
    have hle := hinitial.length_le
    rw [List.length_singleton] at hle ⊢
    omega
  have hsame : t.chain = s.chain := hchain hall
  rw [BlockSession.expected, hall] at hmap
  obtain ⟨received, rfl, hreceived⟩ := List.map_eq_singleton_iff.mp hmap
  have hlast : (t.step event).chain.lastBlock = received := by
    simp only [Blockchain.lastBlock, hblocks, List.getLast_append_singleton]
  have hnumber : header.blockNumber.toNat = common + 1 := by
    have hlength : (t.chain.blocks.take (common + 1)).length = common + 1 :=
      List.length_take_of_le hcommon
    have hat : (t.step event).chain.blocks[common + 1]? = some received := by
      rw [hblocks, List.getElem?_append_right hlength.le, hlength, Nat.sub_self]
      rfl
    rw [← (t.step event).chain.numbered _ _ hat, ← hreceived]
    rfl
  rw [hlast, hnumber, ← hsame]
  refine ⟨hblocks, ?_⟩
  intro hheight hequal
  rw [NodeInternals.rejectsFork, if_pos (show common + 2 = t.chain.length by omega)] at hfork
  obtain ⟨insertedMiner, hinserted, hfork⟩ := bind_ok_iff.mp hfork
  obtain ⟨receivedMiner, hreceivedMiner, hfork⟩ := bind_ok_iff.mp hfork
  have hfork := pure_ok_iff.mp hfork
  have hweight : t.node.blockchain.lastBlock.blockDetails.header.cSum =
      received.blockDetails.header.cSum := by
    rw [show received.blockDetails.header.cSum = header.cSum by rw [← hreceived]; rfl, hequal]
    rfl
  refine ⟨insertedMiner, receivedMiner, hinserted, hreceivedMiner, ?_⟩
  simpa [hweight] using hfork

/-- A session that runs to completion keeps the weight of the chain that the node held when
it started if and only if its headers were not lighter than that chain. -/
theorem keepsWeight_iff_notLighter (hash : Externals.Collisionless) {ctx : Context}
    {freezeBeforeBlock : ℕ} {genesis : SignedBlock} {node : NodeInternals}
    (start : insertGenesis ctx freezeBeforeBlock genesis = .ok node) {events : List Event}
    {reason : Reason} {headers : List BlockHeaderExtended} {t : Synchronization}
    (session : ((idle node).run events).InSession reason headers t) {event : Event}
    (done : t.Completes event) :
    KeepsWeight ((idle node).run events).chain headers t.node (t.step event).chain ↔
      NotLighter ((idle node).run events).chain headers := by
  have sound := sound_run hash (sound_genesis start) events
  generalize (idle node).run events = s at session sound ⊢
  have hfront := done.lastBlock hash sound session
  obtain ⟨now, candidate, hcandidate, rfl⟩ := session.candidate
  constructor
  · intro hkeeps
    obtain ⟨hne, _⟩ := promised_of_candidate sound.promised hcandidate
    refine ⟨_, _, hfront, List.getLast?_eq_some_getLast hne, ?_⟩
    rcases hkeeps with hless | ⟨hequal, hlength, hreplaced, _⟩
    · exact .inr (.inl hless)
    · refine .inr (.inr ⟨hequal, hlength, ?_⟩)
      have hcount := congrArg List.length hreplaced
      have hpositive := (t.step event).chain.length_pos
      have hpositive' := s.chain.length_pos
      rw [List.length_dropLast, List.length_dropLast] at hcount
      have hlast : (t.step event).chain.blocks[(t.step event).chain.length - 1]? =
          some (t.step event).chain.lastBlock := by
        rw [Blockchain.lastBlock, List.getLast_eq_getElem, Blockchain.length,
          List.getElem?_eq_getElem]
      have hnumber := (t.step event).chain.numbered _ _ hlast
      unfold Blockchain.length at hpositive hpositive' hnumber ⊢
      rw [show (t.step event).chain.lastBlock.headerEx.blockNumber.toNat = _ from hnumber]
      omega
  · rintro ⟨front, lowest, hfront', hlowest, habove | hless | ⟨hequal, hlength, hheight⟩⟩ <;>
      cases hfront.symm.trans hfront'
    · exact .inl (cSum_lt_of_candidate hash sound hcandidate hfront hlowest habove)
    · exact .inl hless
    · obtain ⟨header, hheader⟩ := List.length_eq_one_iff.mp hlength
      rw [hheader] at session hfront
      obtain ⟨hblocks, hricher⟩ := done.single hash sound session
      cases Option.some.inj hfront
      refine .inr ⟨hequal, hlength, ?_, hricher hheight hequal⟩
      rw [hblocks, List.dropLast_concat, List.dropLast_eq_take]
      congr 1
      unfold Blockchain.length at hheight
      omega

end Synchronization
end Weight

section Examples
open Synchronization

def forkGenesis : SignedBlock :=
  ⟨⟨⟨0, 0, 0, 4294967296, "", 0⟩, [⟨"a", ⟨30, 0⟩, .initial⟩, ⟨"b", ⟨20, 0⟩, .initial⟩], []⟩,
    ⟨"genesis", ""⟩⟩

def forkBlock (miner : String) (balance : UInt64) : SignedBlock :=
  ⟨⟨⟨1, balance, balance, 4294967296, "#", 600⟩, [⟨miner, ⟨1000, 0⟩, .miner⟩], []⟩, ⟨miner, ""⟩⟩

noncomputable local instance : Externals :=
  namedExternals ([forkGenesis, forkBlock "a" 30, forkBlock "b" 20].map SignedBlock.blockDetails) []

/-- Both miners announce their block, and the node asks both for its header before it takes
the block of the first. -/
noncomputable def forkEvents : List Event :=
  let a := forkBlock "a" 30
  let b := forkBlock "b" 20
  [.syncResponse "b" ⟨b.headerEx, b.headerEx⟩, .work 700 ["a", "b"] [],
    .syncResponse "a" ⟨a.headerEx, a.headerEx⟩, .work 700 ["a", "b"] [],
    .headers 700 "b" [b.headerEx], .headers 700 "a" [a.headerEx]]

theorem forkStart_isOk :
    (insertGenesis (exampleNode "own" .storage) 1000 forkGenesis).isOk = true := by
  decide +kernel

noncomputable def forkStart : NodeInternals := okValue _ forkStart_isOk

theorem forkStart_eq :
    insertGenesis (exampleNode "own" .storage) 1000 forkGenesis = .ok forkStart :=
  eq_okValue forkStart_isOk

noncomputable def forkKnown : Synchronization := (idle forkStart).run forkEvents

noncomputable def forkSession : Synchronization := forkKnown.step (.work 700 ["a", "b"] [])

theorem forkSession_inSession :
    forkKnown.InSession .safeBetter [(forkBlock "a" 30).headerEx] forkSession :=
  .start (by decide +kernel) (by decide +kernel)

theorem forkSession_completes : forkSession.Completes (.blocks 700 [forkBlock "a" 30]) :=
  have started : forkSession.blockSession =
      some ⟨.safeBetter, [(forkBlock "a" 30).headerEx], []⟩ := by
    decide +kernel
  .of_outcome started (by decide +kernel)

/-- The session for the block of the richer miner keeps the weight. -/
theorem richerBlock_keepsWeight :
    KeepsWeight forkKnown.chain [(forkBlock "a" 30).headerEx] forkSession.node
        (forkSession.step (.blocks 700 [forkBlock "a" 30])).chain ↔
      NotLighter forkKnown.chain [(forkBlock "a" 30).headerEx] :=
  keepsWeight_iff_notLighter (namedExternals_collisionless _ _) forkStart_eq
    forkSession_inSession forkSession_completes

noncomputable def forkTaken : Synchronization := forkSession.step (.blocks 700 [forkBlock "a" 30])

noncomputable def forkBack : Synchronization := forkTaken.step (.work 700 ["a", "b"] [])

theorem forkBack_inSession :
    forkTaken.InSession .safeRevert [(forkBlock "b" 20).headerEx] forkBack :=
  .start (by decide +kernel) (by decide +kernel)

theorem forkBack_completes : forkBack.Completes (.blocks 700 [forkBlock "b" 20]) :=
  have started : forkBack.blockSession =
      some ⟨.safeRevert, [(forkBlock "b" 20).headerEx], []⟩ := by
    decide +kernel
  .of_outcome started (by decide +kernel)

theorem forkTaken_eq : (idle forkStart).run
    (forkEvents ++ [.work 700 ["a", "b"] [], .blocks 700 [forkBlock "a" 30]]) = forkTaken := by
  rw [run, List.foldl_append]
  rfl

theorem forkTaken_weight : forkTaken.chain.lastHeader.cSum = 30 ∧
    (forkBack.step (.blocks 700 [forkBlock "b" 20])).chain.lastHeader.cSum = 20 := by
  decide +kernel

/-- The headers of the poorer miner were fetched before the node took the richer one's block,
and for as long as that block is new they make the node go back to the lighter one. -/
theorem lighter_block_returns :
    ¬ ∀ [Externals], Externals.Collisionless → ∀ (ctx : Context) (freezeBeforeBlock : ℕ)
      (genesis : SignedBlock) (node : NodeInternals) (events : List Event) (reason : Reason)
      (headers : List BlockHeaderExtended) (t : Synchronization) (event : Event),
      insertGenesis ctx freezeBeforeBlock genesis = .ok node →
      ((idle node).run events).InSession reason headers t →
      (reason = .safeBetter ∨ reason = .safeRevert) → t.Completes event →
      KeepsWeight ((idle node).run events).chain headers t.node (t.step event).chain := by
  intro claim
  have keeps := claim (namedExternals_collisionless _ _) _ _ _ _ _ _ _ _ _ forkStart_eq
    (forkTaken_eq.symm ▸ forkBack_inSession) (.inr rfl) forkBack_completes
  rw [forkTaken_eq] at keeps
  obtain ⟨before, after⟩ := forkTaken_weight
  unfold KeepsWeight at keeps
  rw [before, after] at keeps
  rcases keeps with hless | ⟨hequal, _⟩
  · exact absurd hless (by decide)
  · exact absurd hequal (by decide)

end Examples
end Publiq
