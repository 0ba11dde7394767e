import Publiq.NodeSteps
import Mathlib.Data.List.Chain

/-! What the header checks buy: whatever a peer sends and whenever it is used, every
block of a node's chain refers to the one before it. Headers that were checked against an older
chain still join the chain where they are used, because a hash stands for one block. -/
namespace Publiq
open Message Checked

def Next (header next : BlockHeaderExtended) : Prop := checkHeaders next header = false

theorem next_iff {header next : BlockHeaderExtended} : Next header next ↔
    next.blockNumber = header.blockNumber + 1 ∧ header.cSum < next.cSum ∧
      next.cSum = next.delta + header.cSum ∧
      (next.cConst = header.cConst ∨ next.cConst = header.cConst * 2 ∨
        next.cConst = header.cConst / 2) ∧
      next.prevHash = header.blockHash ∧
      fromTimeT header.timeSigned ≤ fromTimeT next.timeSigned ∧
      clockSeconds (next.timeSigned - header.timeSigned) = blockMineDelay := by
  unfold Next checkHeaders
  simp only [Bool.or_eq_false_iff, decide_eq_false_iff_not, not_not, Bool.and_eq_false_iff,
    UInt64.not_le, Int.not_lt, ne_eq]
  constructor
  · rintro ⟨⟨⟨⟨⟨⟨h1, h2⟩, h3⟩, h4⟩, h5⟩, h6⟩, h7⟩
    refine ⟨h1, h2, h3, ?_, h5, h6, h7⟩
    rcases h4 with (h4 | h4) | h4
    · exact .inl h4
    · exact .inr (.inl h4)
    · exact .inr (.inr h4)
  · rintro ⟨h1, h2, h3, h4, h5, h6, h7⟩
    refine ⟨⟨⟨⟨⟨⟨h1, h2⟩, h3⟩, ?_⟩, h5⟩, h6⟩, h7⟩
    rcases h4 with h4 | h4 | h4
    · exact .inl (.inl h4)
    · exact .inl (.inr h4)
    · exact .inr h4

theorem isChain_of_checkHeadersVector {headers : List BlockHeaderExtended}
    (h : checkHeadersVector headers = false) : headers.reverse.IsChain Next := by
  rw [List.isChain_reverse]
  induction headers with
  | nil => exact .nil
  | cons next rest ih =>
      cases rest with
      | nil => exact .singleton _
      | cons header rest =>
          rw [checkHeadersVector, Bool.or_eq_false_iff] at h
          exact .cons_cons h.1 (ih h.2)

variable [Externals]

def Message.SignedBlock.headerEx (signedBlock : SignedBlock) : BlockHeaderExtended :=
  { signedBlock.blockDetails.header with blockHash := blockHash signedBlock.blockDetails }

/-- A block that refers to the one before it. -/
def Follows (a b : SignedBlock) : Prop :=
  b.blockDetails.header.prevHash = blockHash a.blockDetails

theorem follows_of_next {a b : SignedBlock} (h : Next a.headerEx b.headerEx) : Follows a b :=
  (next_iff.mp h).2.2.2.2.1

/-- Every block of the chain follows the one before it. -/
def Blockchain.Linked (chain : Blockchain) : Prop := chain.blocks.IsChain Follows

namespace Blockchain

theorem Linked.insert {chain after : Blockchain} {signedBlock : SignedBlock} (h : chain.Linked)
    (hinsert : chain.insert signedBlock = .ok after)
    (follows : Follows chain.lastBlock signedBlock) : after.Linked := by
  unfold Linked at h ⊢
  rw [(insert_ok_iff.mp hinsert).2, List.isChain_append]
  refine ⟨h, .singleton _, ?_⟩
  intro last hlast next hnext
  cases hnext
  rw [List.getLast?_eq_some_getLast chain.nonempty] at hlast
  cases hlast
  exact follows

theorem Linked.headerExAt {chain : Blockchain} (h : chain.Linked) {number : ℕ}
    {signedBlock : SignedBlock} (hat : chain.blocks[number]? = some signedBlock) :
    chain.headerExAt number = .ok signedBlock.headerEx := by
  obtain ⟨hlt, hblock⟩ := List.getElem?_eq_some_iff.mp hat
  unfold Blockchain.headerExAt
  split_ifs with hnumber
  · have hnext : number + 1 < chain.blocks.length := by
      rw [Blockchain.length] at hnumber
      omega
    have hget := List.getElem?_eq_getElem hnext
    have hfollows := (List.isChain_iff_getElem.mp h) number hnext
    rw [hblock] at hfollows
    simp only [headerAt, blockAt, hat, hget, ok_bind]
    rw [Follows] at hfollows
    exact congrArg Except.ok (by rw [hfollows]; rfl)
  · have hlast : signedBlock = chain.lastBlock := by
      rw [not_not.mp hnumber] at hat
      rw [lastBlock, List.getLast_eq_getElem]
      exact ((List.getElem?_eq_some_iff.mp hat).2).symm
    rw [hlast]
    rfl

/-- The hash that a header of a number has to refer to is that of the block before it. -/
theorem Linked.knownPrevHash {chain : Blockchain} (h : chain.Linked) {number : ℕ}
    (positive : number ≠ 0) {hash : String} (hknown : knownPrevHash chain number = some hash) :
    ∃ signedBlock, chain.blocks[number - 1]? = some signedBlock ∧
      hash = blockHash signedBlock.blockDetails := by
  unfold Publiq.knownPrevHash at hknown
  split_ifs at hknown with hnumber
  · refine ⟨chain.lastBlock, ?_, (Option.some.inj hknown).symm⟩
    rw [lastBlock, List.getLast_eq_getElem, hnumber, length, List.getElem?_eq_getElem]
  · obtain ⟨signedBlock, hget, hhash⟩ := Option.map_eq_some_iff.mp hknown
    obtain ⟨hlt, hblock⟩ := List.getElem?_eq_some_iff.mp hget
    have hfollows := (List.isChain_iff_getElem.mp h) (number - 1) (by omega)
    refine ⟨chain.blocks[number - 1], List.getElem?_eq_getElem _, ?_⟩
    rw [Follows] at hfollows
    rw [← hhash, ← hfollows]
    congr 3
    rw [← hblock]
    congr 1
    omega

end Blockchain

def Promised (headers : List BlockHeaderExtended) : Prop :=
  headers ≠ [] ∧ ∃ base : SignedBlock, (base.headerEx :: headers.reverse).IsChain Next

theorem cutAtCommon_initial {chain : Blockchain} {headers kept : List BlockHeaderExtended}
    (h : cutAtCommon chain headers = some kept) : kept ≠ [] ∧ kept <+: headers := by
  induction headers generalizing kept with
  | nil => cases h
  | cons header rest ih =>
      rw [cutAtCommon] at h
      split_ifs at h
      · cases h
        exact ⟨List.cons_ne_nil _ _, List.prefix_append [header] rest⟩
      · obtain ⟨tail, htail, rfl⟩ := Option.map_eq_some_iff.mp h
        refine ⟨List.cons_ne_nil _ _, ?_⟩
        rw [List.prefix_cons_inj]
        exact (ih htail).2

omit [Externals] in
theorem checkReceived_spec {now : ℤ} {promised : BlockHeaderExtended}
    {headers : List BlockHeaderExtended} (h : checkReceived now promised headers = .ok ()) :
    headers.head? = some promised ∧
      ∃ lowest, headers.getLast? = some lowest ∧
        promised.blockNumber.toNat + 1 = lowest.blockNumber.toNat + headers.length ∧
        headers.reverse.IsChain Next := by
  unfold checkReceived at h
  cases hfront : headers.head? with
  | none => simp [hfront] at h
  | some front =>
      cases hback : headers.getLast? with
      | none => simp [hfront, hback] at h
      | some back =>
          simp only [hfront, hback, require_bind_ok_iff] at h
          obtain ⟨rfl, hcount, _, hvector⟩ := h
          exact ⟨rfl, back, rfl, hcount.1, isChain_of_checkHeadersVector (require_ok_iff.mp hvector)⟩

theorem HeaderSession.processResponse_cases {session : HeaderSession} {chain : Blockchain}
    {now : ℤ} {response : List BlockHeaderExtended} {outcome : HeaderOutcome}
    (h : session.processResponse chain now response = .ok outcome) :
    response ≠ [] ∧
    checkReceived now session.promisedHeader (session.syncHeaders ++ response) = .ok () ∧
    ((∃ headers, cutAtCommon chain (session.syncHeaders ++ response) = some headers ∧
        checkAgainstCommon chain headers = .ok () ∧ outcome = .completed headers) ∨
      ∃ lowest, (session.syncHeaders ++ response).getLast? = some lowest ∧
        cutAtCommon chain (session.syncHeaders ++ response) = none ∧
        ∃ after, outcome = .waiting after ∧
          after.promisedHeader = session.promisedHeader ∧
          after.syncHeaders = session.syncHeaders ++ response ∧
          after.blockIndexFrom = ActionLog.before lowest.blockNumber.toNat) := by
  obtain ⟨hne, h⟩ := require_bind_ok_iff.mp h
  obtain ⟨_, hcheck, h⟩ := bind_ok_iff.mp h
  refine ⟨hne, hcheck, ?_⟩
  cases hcut : cutAtCommon chain (session.syncHeaders ++ response) with
  | some headers =>
      simp only [hcut] at h
      obtain ⟨_, hcommon, h⟩ := bind_ok_iff.mp h
      exact .inl ⟨headers, rfl, hcommon, (pure_ok_iff.mp h).symm⟩
  | none =>
      have hlast := List.getLast?_eq_some_getLast
        (List.append_ne_nil_of_right_ne_nil session.syncHeaders hne)
      simp only [hcut, hlast] at h
      exact .inr ⟨_, hlast, rfl, _, (pure_ok_iff.mp h).symm, rfl, rfl, rfl⟩

theorem checkAgainstCommon_next {chain : Blockchain} (linked : chain.Linked)
    {headers : List BlockHeaderExtended} (h : checkAgainstCommon chain headers = .ok ()) :
    ∃ back base, headers.getLast? = some back ∧
      chain.blocks[back.blockNumber.toNat - 1]? = some base ∧ Next base.headerEx back := by
  unfold checkAgainstCommon at h
  cases hback : headers.getLast? with
  | none => simp [hback] at h
  | some back =>
      simp only [hback] at h
      obtain ⟨_, h⟩ := require_bind_ok_iff.mp h
      obtain ⟨header, hheader, h⟩ := bind_ok_iff.mp h
      obtain ⟨hnext, _⟩ := require_bind_ok_iff.mp h
      obtain ⟨base, hbase⟩ := Blockchain.headerExAt_total hheader
      rw [linked.headerExAt hbase] at hheader
      cases hheader
      exact ⟨back, base, rfl, hbase, hnext⟩

theorem promised_of_processResponse {chain : Blockchain} (linked : chain.Linked) {now : ℤ}
    {response headers : List BlockHeaderExtended} {session : HeaderSession}
    (h : session.processResponse chain now response = .ok (.completed headers)) :
    Promised headers := by
  obtain ⟨_, hcheck, ⟨_, hcut, hcommon, houtcome⟩ | ⟨_, _, _, _, houtcome, _⟩⟩ :=
    HeaderSession.processResponse_cases h
  · cases houtcome
    obtain ⟨_, _, _, _, hvector⟩ := checkReceived_spec hcheck
    obtain ⟨hne, hinitial⟩ := cutAtCommon_initial hcut
    obtain ⟨back, base, hback, _, hnext⟩ := checkAgainstCommon_next linked hcommon
    refine ⟨hne, base, ?_⟩
    rw [List.isChain_cons]
    constructor
    · intro first hfirst
      rw [List.head?_reverse, hback] at hfirst
      cases hfirst
      exact hnext
    · exact hvector.suffix (List.reverse_suffix.mpr hinitial)
  · cases houtcome

def BlockSession.expected (session : BlockSession) : List BlockHeaderExtended :=
  session.syncHeaders.reverse

/-- What holds of a block session all along: its headers were checked, the blocks received
are those of the lowest headers, and from the first one on they join the chain. -/
structure BlockSession.Sound (config : Config) (chain : Blockchain) (session : BlockSession) :
    Prop where
  promised : Promised session.syncHeaders
  received : session.syncBlocks.map SignedBlock.headerEx =
    session.expected.take session.syncBlocks.length
  checked : ∀ signedBlock ∈ session.syncBlocks,
    checkReceivedBlock config signedBlock.headerEx signedBlock = .ok ()
  joins : session.syncBlocks ≠ [] → ∃ base lowest, session.expected.head? = some lowest ∧
    chain.blocks[lowest.blockNumber.toNat - 1]? = some base ∧
    (base.headerEx :: session.expected).IsChain Next

theorem headerEx_of_checkReceivedBlock {config : Config} {header : BlockHeaderExtended}
    {signedBlock : SignedBlock} (h : checkReceivedBlock config header signedBlock = .ok ()) :
    header = signedBlock.headerEx := by
  obtain ⟨_, h⟩ := require_bind_ok_iff.mp h
  obtain ⟨_, _, h⟩ := bind_ok_iff.mp h
  obtain ⟨_, h⟩ := require_bind_ok_iff.mp h
  obtain ⟨⟨hheader, hhash⟩, _⟩ := require_bind_ok_iff.mp h
  rcases header with ⟨header, hash⟩
  simp only at hheader hhash
  subst hheader hhash
  rfl

theorem checkReceivedBlocks_spec {config : Config} {headers : List BlockHeaderExtended}
    {signedBlocks : List SignedBlock} (fits : signedBlocks.length ≤ headers.length)
    (h : checkReceivedBlocks config headers signedBlocks = .ok ()) :
    signedBlocks.map SignedBlock.headerEx = headers.take signedBlocks.length ∧
      ∀ signedBlock ∈ signedBlocks,
        checkReceivedBlock config signedBlock.headerEx signedBlock = .ok () := by
  induction signedBlocks generalizing headers with
  | nil => exact ⟨rfl, fun _ h => nomatch h⟩
  | cons signedBlock rest ih =>
      cases headers with
      | nil => exact absurd fits (by simp)
      | cons header headers =>
          obtain ⟨_, hfirst, h⟩ := bind_ok_iff.mp h
          obtain ⟨hmap, hall⟩ := ih (by simpa using fits) h
          have hheader := headerEx_of_checkReceivedBlock hfirst
          subst hheader
          refine ⟨by rw [List.map_cons, hmap]; rfl, ?_⟩
          intro other hmem
          rcases List.mem_cons.mp hmem with rfl | hmem
          · exact hfirst
          · exact hall other hmem

/-- After a response the blocks received join the chain at the common block. -/
theorem BlockSession.receive_sound (hash : Externals.Collisionless) {node : NodeInternals}
    (linked : node.blockchain.Linked) {response : List SignedBlock} {session after : BlockSession}
    {common : ℕ} (sound : session.Sound node.ctx.config node.blockchain)
    (h : session.receive node response = .ok (common, after)) :
    after.Sound node.ctx.config node.blockchain ∧ after.syncHeaders = session.syncHeaders ∧
      after.reason = session.reason ∧ after.syncBlocks = session.syncBlocks ++ response ∧
      response ≠ [] ∧ after.syncBlocks.length ≤ after.syncHeaders.length ∧
      ∃ base, node.blockchain.blocks[common]? = some base ∧
        (base.headerEx :: after.expected).IsChain Next := by
  obtain ⟨hresponse, h⟩ := require_bind_ok_iff.mp h
  obtain ⟨hfits, h⟩ := require_bind_ok_iff.mp h
  have hexpected : session.syncHeaders.reverse = session.expected := rfl
  simp only [hexpected] at h
  cases hlowest : session.expected.head? with
  | none =>
      rw [hlowest] at h
      cases h
  | some lowest =>
      cases hdrop : session.expected.drop session.syncBlocks.length with
      | nil => simp [hlowest, hdrop] at h
      | cons header headers =>
          simp only [hlowest, hdrop] at h
          obtain ⟨hnumber, h⟩ := require_bind_ok_iff.mp h
          obtain ⟨_, h⟩ := require_bind_ok_iff.mp h
          obtain ⟨hprev, h⟩ := require_bind_ok_iff.mp h
          obtain ⟨_, hblocks, h⟩ := bind_ok_iff.mp h
          cases pure_ok_iff.mp h
          have hroom : response.length ≤ (header :: headers).length := by
            rw [← hdrop, List.length_drop, BlockSession.expected, List.length_reverse]
            omega
          obtain ⟨hmap, hall⟩ := checkReceivedBlocks_spec hroom hblocks
          have hbase : ∃ base, node.blockchain.blocks[lowest.blockNumber.toNat - 1]? = some base ∧
              (base.headerEx :: session.expected).IsChain Next := by
            by_cases hempty : session.syncBlocks = []
            · rw [hempty] at hprev hdrop
              have hheader : header = lowest := by
                rw [show session.expected = header :: headers from hdrop] at hlowest
                exact Option.some.inj hlowest
              subst hheader
              obtain ⟨base, hat, hhash⟩ := linked.knownPrevHash hnumber hprev
              obtain ⟨_, base', hchain⟩ := sound.promised
              have hfollow := (List.isChain_cons.mp hchain).1 header hlowest
              have hsame : blockHash base'.blockDetails = blockHash base.blockDetails := by
                rw [← hhash, (next_iff.mp hfollow).2.2.2.2.1]
                rfl
              refine ⟨base, hat, ?_⟩
              rw [SignedBlock.headerEx, ← hash.block hsame]
              exact hchain
            · obtain ⟨base, lowest', hlowest', hat, hchain⟩ := sound.joins hempty
              rw [hlowest] at hlowest'
              cases hlowest'
              exact ⟨base, hat, hchain⟩
          obtain ⟨base, hat, hchain⟩ := hbase
          refine ⟨⟨sound.promised, ?_, ?_, ?_⟩, rfl, rfl, rfl, hresponse, ?_, base, hat, hchain⟩
          · rw [List.map_append, sound.received, hmap, ← hdrop, List.length_append]
            exact List.take_add.symm
          · intro signedBlock hmem
            rcases List.mem_append.mp hmem with hmem | hmem
            · exact sound.checked signedBlock hmem
            · exact hall signedBlock hmem
          · intro _
            exact ⟨base, lowest, hlowest, hat, hchain⟩
          · simp only [List.length_append]
            omega

theorem Blockchain.Linked.replace {chain after : Blockchain} (linked : chain.Linked) {common : ℕ}
    {base : SignedBlock} (hat : chain.blocks[common]? = some base) {session : BlockSession}
    (hchain : (base.headerEx :: session.expected).IsChain Next)
    (received : session.syncBlocks.map SignedBlock.headerEx =
      session.expected.take session.syncBlocks.length)
    (hblocks : after.blocks = chain.blocks.take (common + 1) ++ session.syncBlocks) :
    after.Linked := by
  obtain ⟨hlt, hbase⟩ := List.getElem?_eq_some_iff.mp hat
  have hupper : (base :: session.syncBlocks).IsChain Follows := by
    apply List.isChain_of_isChain_map SignedBlock.headerEx fun a b h => follows_of_next h
    rw [List.map_cons, received]
    exact hchain.prefix ((List.prefix_cons_inj _).mpr ( List.take_prefix _ _))
  have hlower : chain.blocks.take (common + 1) = chain.blocks.take common ++ [base] := by
    rw [List.take_succ_eq_append_getElem hlt, hbase]
  unfold Blockchain.Linked
  rw [hblocks, hlower, List.append_assoc, List.singleton_append, List.isChain_split]
  refine ⟨?_, hupper⟩
  rw [← hlower]
  exact linked.take _

theorem BlockSession.Sound.rest {config : Config} {chain after : Blockchain}
    {session : BlockSession} (sound : session.Sound config chain)
    (nonempty : session.syncBlocks ≠ [])
    (missing : session.syncBlocks.length < session.syncHeaders.length) :
    BlockSession.Sound config after { session with
      syncHeaders := session.syncHeaders.take
        (session.syncHeaders.length - session.syncBlocks.length)
      syncBlocks := [] } := by
  have hexpected : (session.syncHeaders.take
      (session.syncHeaders.length - session.syncBlocks.length)).reverse =
      session.expected.drop session.syncBlocks.length := by
    rw [BlockSession.expected, List.drop_reverse]
  refine ⟨⟨?_, session.syncBlocks.getLast nonempty, ?_⟩, rfl, fun _ h => (nomatch h),
    fun h => (h rfl).elim⟩
  · intro hnil
    have hlength := congrArg List.length hnil
    simp only [List.length_take, List.length_nil] at hlength
    omega
  · rw [hexpected]
    obtain ⟨_, base, hchain⟩ := sound.promised
    have hchain : session.expected.IsChain Next := hchain.tail
    have hsplit := (List.take_append_drop session.syncBlocks.length session.expected).symm
    rw [← sound.received, ← List.dropLast_append_getLast nonempty, List.map_append,
      List.append_assoc] at hsplit
    rw [hsplit] at hchain
    have hlast := hchain.right_of_append
    rw [List.dropLast_append_getLast nonempty] at hlast
    exact hlast

def BlockSession.afterBatch (session : BlockSession) : BlockSession :=
  { session with
    syncHeaders := session.syncHeaders.take
      (session.syncHeaders.length - session.syncBlocks.length)
    syncBlocks := [] }

/-- What a response of blocks leads to: more blocks are waited for, the only block is
rejected, or the blocks replace those of the chain. -/
theorem BlockSession.processResponse_cases {now : ℤ} {response : List SignedBlock}
    {session : BlockSession} {node after : NodeInternals} {outcome : BlockOutcome}
    (h : session.processResponse now response node = .ok (outcome, after)) :
    ∃ common received, session.receive node response = .ok (common, received) ∧
      ((outcome = .waiting received ∧ after = node ∧
          received.syncBlocks.length < received.syncHeaders.length) ∨
        (outcome = .rejected ∧ after = node ∧
          node.rejectsFork common received.syncBlocks = .ok true) ∨
        (node.rejectsFork common received.syncBlocks = .ok false ∧ ∃ clearPool,
          node.replaceBlocks now common received.syncBlocks clearPool = .ok after ∧
          (received.syncBlocks.length < received.syncHeaders.length ∧
              outcome = .waiting received.afterBatch ∨
            ¬ received.syncBlocks.length < received.syncHeaders.length ∧
              outcome = .completed))) := by
  obtain ⟨⟨common, received⟩, hreceive, h⟩ := bind_ok_iff.mp h
  refine ⟨common, received, hreceive, ?_⟩
  simp only at h
  split_ifs at h with hwait hmissing
  · cases pure_ok_iff.mp h
    exact .inl ⟨rfl, rfl, hwait.2⟩
  all_goals
    obtain ⟨rejected, hrejected, h⟩ := bind_ok_iff.mp h
    cases rejected with
    | true =>
        cases pure_ok_iff.mp h
        exact .inr (.inl ⟨rfl, rfl, hrejected⟩)
    | false =>
        obtain ⟨replaced, hreplace, h⟩ := bind_ok_iff.mp h
        cases pure_ok_iff.mp h
        first
        | exact .inr (.inr ⟨hrejected, _, hreplace, .inl ⟨hmissing, rfl⟩⟩)
        | exact .inr (.inr ⟨hrejected, _, hreplace, .inr ⟨hmissing, rfl⟩⟩)

section
omit [Externals]

def Scan.found (scan : Scan) : List Candidate :=
  scan.approvedWinner.toList ++ scan.leastRevert.toList ++ scan.mostApproved.toList

theorem Candidate.better_cases (found : Option Candidate) (candidate : Candidate) :
    Candidate.better found candidate = some candidate ∨
      Candidate.better found candidate = found := by
  cases found with
  | none => exact .inl rfl
  | some before =>
      rw [Candidate.better]
      split_ifs
      · exact .inl rfl
      · exact .inr rfl

theorem Scan.step_found (poll : Poll) (candidate : Candidate) (scan : Scan) :
    (scan.step poll candidate).found ⊆ candidate :: scan.found := by
  have happroved := Candidate.better_cases scan.approvedWinner candidate
  have hleast := Candidate.better_cases scan.leastRevert candidate
  have hmost := Candidate.better_cases scan.mostApproved candidate
  intro found hfound
  unfold Scan.step at hfound
  dsimp only at hfound
  split_ifs at hfound <;> simp only [Scan.found, List.mem_append, List.mem_cons] at hfound ⊢ <;>
    grind

theorem Scan.foldl_found (poll : Poll) (candidates : List Candidate) (scan : Scan) :
    (candidates.foldl (fun (scan : Scan) candidate => scan.step poll candidate) scan).found ⊆
      candidates ++ scan.found := by
  induction candidates generalizing scan with
  | nil => exact List.Subset.refl _
  | cons candidate rest ih =>
      intro found hfound
      have hstep := Scan.step_found poll candidate scan
      rcases List.mem_append.mp (ih _ hfound) with hrest | hscan
      · simp [hrest]
      · have := hstep hscan
        simp only [List.cons_append, List.mem_cons, List.mem_append] at this ⊢
        tauto

theorem Scan.choice_mem {scan : Scan} {candidate : Candidate} {reason : Reason}
    (h : scan.choice = some (candidate, reason)) : candidate ∈ scan.found := by
  rcases scan with ⟨_ | _, _ | _, _ | _⟩ <;> cases h <;> simp [Scan.found]

end

namespace Synchronization
open NodeInternals

/-- What holds of a node and its sessions all along. -/
structure Sound (s : Synchronization) : Prop where
  linked : s.chain.Linked
  promised : ∀ (peer : String) (data : HeadersActionData), s.headersActionsData[peer]? = some data →
    data.headers ≠ [] → Promised data.headers
  session : ∀ session, s.blockSession = some session →
    session.Sound s.node.ctx.config s.chain

theorem sound_idle {node : NodeInternals} (linked : node.blockchain.Linked) :
    (idle node).Sound :=
  ⟨linked, fun _ _ h => by simp [idle] at h, fun _ h => nomatch h⟩

theorem Sound.withNode {s : Synchronization} (sound : s.Sound) {node : NodeInternals}
    (chain : node.blockchain = s.chain) (config : node.ctx.config = s.node.ctx.config) :
    ({ s with node } : Synchronization).Sound := by
  refine ⟨?_, sound.promised, ?_⟩
  · change node.blockchain.Linked
    exact chain ▸ sound.linked
  · intro session hsession
    have h := sound.session session hsession
    rw [← chain, ← config] at h
    exact h

section
variable {P : List BlockHeaderExtended → Prop} {s : Synchronization}

theorem promised_of_candidate
    (promised : ∀ (peer : String) (data : HeadersActionData),
      s.headersActionsData[peer]? = some data → data.headers ≠ [] → P data.headers) {now : ℤ}
    {candidate : Candidate} (h : candidate ∈ s.candidates now) : P candidate.headers := by
  obtain ⟨⟨peer, data⟩, hmem, hcandidate⟩ := List.mem_filterMap.mp h
  have hget := (Std.ExtTreeMap.mem_toList_iff_getElem?_eq_some).mp hmem
  unfold candidateOf at hcandidate
  cases hback : data.headers.getLast? with
  | none => simp [hback] at hcandidate
  | some back =>
      simp only [hback] at hcandidate
      split_ifs at hcandidate
      cases hcandidate
      apply promised peer data hget
      intro hnil
      simp [hnil] at hback

theorem promised_noteCandidates
    (promised : ∀ (peer : String) (data : HeadersActionData),
      s.headersActionsData[peer]? = some data → data.headers ≠ [] → P data.headers) {now : ℤ}
    (chosen : Option String) {peer : String} {data : HeadersActionData}
    (h : (s.noteCandidates (s.candidates now) chosen)[peer]? = some data)
    (nonempty : data.headers ≠ []) : P data.headers := by
  unfold noteCandidates at h
  have hall : ∀ candidate ∈ s.candidates now, P candidate.headers :=
    fun _ h => promised_of_candidate promised h
  generalize s.candidates now = candidates at h hall
  generalize s.headersActionsData = start at h promised
  induction candidates generalizing start with
  | nil => exact promised peer data h nonempty
  | cons candidate rest ih =>
      refine ih (fun other hmem => hall other (List.mem_cons_of_mem _ hmem)) _ h ?_
      intro other found hfound hne
      rw [Std.ExtTreeMap.getElem?_insert] at hfound
      split_ifs at hfound
      · cases hfound
        exact (hne rfl).elim
      · cases hfound
        exact hall candidate List.mem_cons_self
      · exact promised other found hfound hne

omit [Externals] in
theorem promised_dropHeaders
    (promised : ∀ (peer : String) (data : HeadersActionData),
      s.headersActionsData[peer]? = some data → data.headers ≠ [] → P data.headers)
    (dropped : String) {peer : String} {data : HeadersActionData}
    (h : (s.dropHeaders dropped).headersActionsData[peer]? = some data)
    (nonempty : data.headers ≠ []) : P data.headers := by
  unfold dropHeaders at h
  split_ifs at h
  · dsimp only at h
    rw [Std.ExtTreeMap.getElem?_erase] at h
    split_ifs at h
    exact promised peer data h nonempty
  · exact promised peer data h nonempty

omit [Externals] in
theorem promised_startHeaders
    (promised : ∀ (peer : String) (data : HeadersActionData),
      s.headersActionsData[peer]? = some data → data.headers ≠ [] → P data.headers)
    (asked : String) (promisedHeader : BlockHeaderExtended) {peer : String}
    {data : HeadersActionData}
    (h : (s.startHeaders asked promisedHeader).headersActionsData[peer]? = some data)
    (nonempty : data.headers ≠ []) : P data.headers := by
  unfold startHeaders at h
  split_ifs at h
  · exact promised peer data h nonempty
  · dsimp only at h
    rw [Std.ExtTreeMap.getElem?_insert] at h
    split_ifs at h
    · cases h
      exact (nonempty rfl).elim
    · exact promised peer data h nonempty

end

omit [Externals] in
theorem choice_mem {poll : Poll} {candidates : List Candidate} {candidate : Candidate}
    {reason : Reason} (h : (candidates.foldl (fun (scan : Scan) candidate =>
      scan.step poll candidate) ⟨none, none, none⟩).choice = some (candidate, reason)) :
    candidate ∈ candidates := by
  have hmem := Scan.choice_mem h
  have hsub := Scan.foldl_found poll candidates ⟨none, none, none⟩ hmem
  simpa [Scan.found] using hsub

/-- What `block_worker` does: nothing during a session, else it notes the candidates and
may start a session with one of them. -/
theorem blockWorker_cases {now : ℤ} {peerCount : ℕ} {votes : List VoteInfo}
    {s after : Synchronization} (h : s.blockWorker now peerCount votes = .ok after) :
    (s.blockSession.isSome ∧ after = s) ∨ s.blockSession = none ∧ ∃ chosen session,
      after = { s with
        headersActionsData := s.noteCandidates (s.candidates now) chosen
        blockSession := session } ∧
      (session = none ∨ ∃ candidate reason, candidate ∈ s.candidates now ∧
        session = some ⟨reason, candidate.headers, []⟩) := by
  unfold blockWorker at h
  by_cases hprogress : s.inProgress
  · rw [if_pos hprogress] at h
    exact .inl ⟨hprogress, (pure_ok_iff.mp h).symm⟩
  · rw [if_neg hprogress] at h
    have hnone : s.blockSession = none := by
      simpa [inProgress] using hprogress
    refine .inr ⟨hnone, ?_⟩
    obtain ⟨poll, _, h⟩ := bind_ok_iff.mp h
    dsimp only at h
    cases hchoice : ((s.candidates now).foldl (fun (scan : Scan) candidate =>
        scan.step poll candidate) ⟨none, none, none⟩).choice with
    | none =>
        rw [hchoice] at h
        refine ⟨none, none, ?_, .inl rfl⟩
        rw [← pure_ok_iff.mp h, ← hnone]
    | some found =>
        obtain ⟨candidate, reason⟩ := found
        rw [hchoice] at h
        exact ⟨some candidate.peer, _, (pure_ok_iff.mp h).symm, .inr ⟨candidate, reason,
          choice_mem hchoice, rfl⟩⟩

/-- What `header_worker` goes on with: with a session in progress nothing, else headers are
asked for or a block is mined. -/
theorem headerWorker_cases {now : ℤ} {peers : List String} {votes : List VoteInfo}
    {s after : Synchronization} (h : s.headerWorker now peers votes = .ok after) :
    ∃ mid, s.blockWorker now peers.length votes = .ok mid ∧
      (after = mid ∨ mid.blockSession = none ∧
        ((∃ peer promisedHeader, after = mid.startHeaders peer promisedHeader) ∨
          ∃ node, mid.node.mineBlock = .ok node ∧ after = { mid with node })) := by
  obtain ⟨mid, hmid, h⟩ := bind_ok_iff.mp h
  refine ⟨mid, hmid, ?_⟩
  by_cases hprogress : mid.inProgress
  · rw [if_pos hprogress] at h
    exact .inl (pure_ok_iff.mp h).symm
  · rw [if_neg hprogress] at h
    obtain ⟨decision, _, h⟩ := bind_ok_iff.mp h
    have hnone : mid.blockSession = none := by
      simpa [inProgress] using hprogress
    cases decision with
    | sync peer promisedHeader =>
        exact .inr ⟨hnone, .inl ⟨peer, promisedHeader, (pure_ok_iff.mp h).symm⟩⟩
    | mine =>
        unfold act at h
        split_ifs at h
        · obtain ⟨node, hmine, h⟩ := bind_ok_iff.mp h
          exact .inr ⟨hnone, .inr ⟨node, hmine, (pure_ok_iff.mp h).symm⟩⟩
        · exact .inl (pure_ok_iff.mp h).symm
    | idle => exact .inl (pure_ok_iff.mp h).symm

theorem Sound.withChain {s : Synchronization} (sound : s.Sound) {node : NodeInternals}
    (linked : node.blockchain.Linked) : ({ s with node, blockSession := none } :
      Synchronization).Sound :=
  ⟨linked, sound.promised, fun _ h => nomatch h⟩

theorem sound_dropHeaders {s : Synchronization} (sound : s.Sound) (peer : String) :
    (s.dropHeaders peer).Sound := by
  refine ⟨?_, fun other data => promised_dropHeaders sound.promised peer, ?_⟩
  · unfold dropHeaders
    split_ifs <;> exact sound.linked
  · unfold dropHeaders
    split_ifs <;> exact sound.session

theorem sound_startHeaders {s : Synchronization} (sound : s.Sound) (peer : String)
    (promisedHeader : BlockHeaderExtended) : (s.startHeaders peer promisedHeader).Sound := by
  refine ⟨?_, fun other data => promised_startHeaders sound.promised peer promisedHeader, ?_⟩
  · unfold startHeaders
    split_ifs <;> exact sound.linked
  · unfold startHeaders
    split_ifs <;> exact sound.session

theorem sound_blockWorker {s after : Synchronization} (sound : s.Sound) {now : ℤ} {peerCount : ℕ}
    {votes : List VoteInfo} (h : s.blockWorker now peerCount votes = .ok after) : after.Sound := by
  rcases blockWorker_cases h with ⟨_, rfl⟩ | ⟨_, chosen, session, rfl, hsession⟩
  · exact sound
  · refine ⟨sound.linked, fun peer data => promised_noteCandidates sound.promised chosen, ?_⟩
    rintro found rfl
    rcases hsession with hnone | ⟨candidate, reason, hcandidate, hsome⟩
    · cases hnone
    · cases hsome
      exact ⟨promised_of_candidate sound.promised hcandidate, rfl, fun _ h => (nomatch h),
        fun h => (h rfl).elim⟩

theorem sound_mineBlock {s : Synchronization} (sound : s.Sound) (idle : s.blockSession = none)
    {node : NodeInternals} (h : s.node.mineBlock = .ok node) :
    ({ s with node } : Synchronization).Sound := by
  obtain ⟨header, signedBlock, hheader, hblock, hinsert, _⟩ := mineBlock_blocks h
  have hprev := (nextHeader_spec hheader).1
  have linked : node.blockchain.Linked := by
    apply sound.linked.insert hinsert
    rw [Follows, hblock, hprev]
    rfl
  have hsound := sound.withChain linked
  rwa [← idle] at hsound

theorem sound_headerWorker {s after : Synchronization} (sound : s.Sound) {now : ℤ}
    {peers : List String} {votes : List VoteInfo} (h : s.headerWorker now peers votes = .ok after) :
    after.Sound := by
  obtain ⟨mid, hmid, h⟩ := headerWorker_cases h
  have hsound := sound_blockWorker sound hmid
  rcases h with rfl | ⟨hnone, ⟨peer, promisedHeader, rfl⟩ | ⟨node, hmine, rfl⟩⟩
  · exact hsound
  · exact sound_startHeaders hsound peer promisedHeader
  · exact sound_mineBlock hsound hnone hmine

theorem sound_receiveHeaders {s after : Synchronization} (sound : s.Sound) {now : ℤ}
    {peer : String} {response : List BlockHeaderExtended}
    (h : s.receiveHeaders now peer response = .ok after) : after.Sound := by
  unfold receiveHeaders at h
  split at h
  · obtain ⟨outcome, houtcome, h⟩ := bind_ok_iff.mp h
    cases outcome with
    | completed headers =>
        cases pure_ok_iff.mp h
        refine ⟨sound.linked, ?_, sound.session⟩
        intro other data hget hne
        dsimp only at hget
        rw [Std.ExtTreeMap.getElem?_insert] at hget
        split_ifs at hget
        · cases hget
          exact promised_of_processResponse sound.linked houtcome
        · exact sound.promised other data hget hne
    | waiting session =>
        cases pure_ok_iff.mp h
        exact ⟨sound.linked, sound.promised, sound.session⟩
  · cases pure_ok_iff.mp h
    exact sound

theorem sound_processResponse (hash : Externals.Collisionless) {now : ℤ}
    {response : List SignedBlock} {session : BlockSession} {node after : NodeInternals}
    {outcome : BlockOutcome} (linked : node.blockchain.Linked)
    (sound : session.Sound node.ctx.config node.blockchain)
    (h : session.processResponse now response node = .ok (outcome, after)) :
    after.blockchain.Linked ∧ ∀ rest, outcome = .waiting rest →
      rest.Sound after.ctx.config after.blockchain := by
  obtain ⟨common, received, hreceive, h⟩ := BlockSession.processResponse_cases h
  obtain ⟨hreceived, _, _, happend, hresponse, _, base, hat, hchain⟩ :=
    BlockSession.receive_sound hash linked sound hreceive
  rcases h with ⟨rfl, rfl, _⟩ | ⟨rfl, rfl, _⟩ | ⟨_, clearPool, hreplace, h⟩
  · exact ⟨linked, fun rest hrest => by cases hrest; exact hreceived⟩
  · exact ⟨linked, fun rest hrest => by cases hrest⟩
  · obtain ⟨hblocks, hctx, _⟩ := replaceBlocks_blocks hreplace
    refine ⟨linked.replace hat hchain hreceived.received hblocks, ?_⟩
    intro rest hrest
    rcases h with ⟨hmissing, rfl⟩ | ⟨_, rfl⟩
    · cases hrest
      have hconfig : after.ctx.config = node.ctx.config := by
        rw [hctx]
        rfl
      rw [hconfig]
      refine hreceived.rest ?_ hmissing
      simp [happend, hresponse]
    · cases hrest

theorem sound_receiveBlocks (hash : Externals.Collisionless) {s after : Synchronization}
    (sound : s.Sound) {now : ℤ} {response : List SignedBlock}
    (h : s.receiveBlocks now response = .ok after) : after.Sound := by
  unfold receiveBlocks at h
  cases hsession : s.blockSession with
  | none =>
      rw [hsession] at h
      cases pure_ok_iff.mp h
      exact sound
  | some session =>
      rw [hsession] at h
      obtain ⟨⟨outcome, node⟩, hprocess, h⟩ := bind_ok_iff.mp h
      obtain ⟨linked, hrest⟩ := sound_processResponse hash sound.linked
        (sound.session session hsession) hprocess
      cases outcome with
      | waiting rest =>
          cases pure_ok_iff.mp h
          exact ⟨linked, sound.promised, fun found hfound => by cases hfound; exact hrest _ rfl⟩
      | completed =>
          cases pure_ok_iff.mp h
          exact sound.withChain linked
      | rejected =>
          cases pure_ok_iff.mp h
          exact sound.withChain linked

theorem sound_handle (hash : Externals.Collisionless) {s after : Synchronization}
    (sound : s.Sound) {event : Event} (h : s.handle event = .ok after) : after.Sound := by
  cases event with
  | transaction now signedTransaction =>
      obtain ⟨node, hreceive, h⟩ := bind_ok_iff.mp h
      cases pure_ok_iff.mp h
      have hsame := receive_sameChain hreceive
      exact sound.withNode hsame.blockchain (congrArg Context.config hsame.1)
  | work now peers votes => exact sound_headerWorker sound h
  | syncResponse peer response =>
      cases pure_ok_iff.mp h
      exact ⟨sound.linked, sound.promised, sound.session⟩
  | headers now peer response => exact sound_receiveHeaders sound h
  | dropHeaders peer =>
      cases pure_ok_iff.mp h
      exact sound_dropHeaders sound peer
  | blocks now response => exact sound_receiveBlocks hash sound h
  | dropBlocks =>
      cases pure_ok_iff.mp h
      exact sound.withChain sound.linked
  | clean =>
      cases pure_ok_iff.mp h
      exact sound.withNode rfl rfl
  | addresses addresses =>
      cases pure_ok_iff.mp h
      exact sound.withNode rfl rfl
  | restart =>
      obtain ⟨node, hrestart, h⟩ := bind_ok_iff.mp h
      cases pure_ok_iff.mp h
      have hsame := (restart_spec hrestart).1
      exact sound_idle (hsame.blockchain ▸ sound.linked)

theorem sound_recover {s : Synchronization} (sound : s.Sound) (event : Event) :
    (s.recover event).Sound := by
  cases event with
  | work now peers votes =>
      have hsound : ((s.blockWorker now peers.length votes).toOption.getD s).Sound := by
        cases hwork : s.blockWorker now peers.length votes with
        | ok after => exact sound_blockWorker sound hwork
        | error _ => exact sound
      exact hsound.withNode rfl rfl
  | headers now peer response => exact sound_dropHeaders sound peer
  | blocks now response => exact @Sound.withChain _ s sound s.node.discard sound.linked
  | _ => exact sound.withNode rfl rfl

theorem sound_step (hash : Externals.Collisionless) {s : Synchronization} (sound : s.Sound)
    (event : Event) : (s.step event).Sound := by
  unfold step
  cases hhandle : s.handle event with
  | ok after => exact sound_handle hash sound hhandle
  | error _ => exact sound_recover sound event

theorem sound_run (hash : Externals.Collisionless) {s : Synchronization} (sound : s.Sound)
    (events : List Event) : (s.run events).Sound := by
  induction events generalizing s with
  | nil => exact sound
  | cons event rest ih => exact ih (sound_step hash sound event)

theorem sound_genesis {ctx : Context} {freezeBeforeBlock : ℕ} {genesis : SignedBlock}
    {node : NodeInternals} (h : insertGenesis ctx freezeBeforeBlock genesis = .ok node) :
    (idle node).Sound := by
  obtain ⟨chain, hstart, h⟩ := bind_ok_iff.mp h
  obtain ⟨ledger, _, h⟩ := bind_ok_iff.mp h
  obtain ⟨log, _, h⟩ := bind_ok_iff.mp h
  cases pure_ok_iff.mp h
  apply sound_idle
  change chain.Linked
  rw [Blockchain.Linked, Blockchain.start_blocks hstart]
  exact .singleton _

end Synchronization
end Publiq
