import Publiq.LastCommon

/-! The two sessions against any peer: how many requests they send, what they hold between
responses, and where they read. -/
namespace Publiq
open Message Checked

section
variable [Externals]

/-- When the headers come down to number zero, one of them refers to a block of the chain. -/
def Grounded (chain : Blockchain) (headers : List BlockHeaderExtended) : Prop :=
  ∀ lowest, headers.getLast? = some lowest → lowest.blockNumber = 0 →
    ∃ header ∈ headers, meetsChain chain header = true

theorem cutAtCommon_eq_none_iff {chain : Blockchain} {headers : List BlockHeaderExtended} :
    cutAtCommon chain headers = none ↔ ∀ header ∈ headers, meetsChain chain header = false := by
  induction headers with
  | nil => simp [cutAtCommon]
  | cons header rest ih =>
      rw [cutAtCommon, List.forall_mem_cons]
      split_ifs with hmeets
      · simp [hmeets]
      · simp [hmeets, ih]

section
variable {begun chain : Blockchain} {promised : BlockHeaderExtended}
  {responses : List HeaderResponse} {session : HeaderSession} {now : ℤ}
  {response : List BlockHeaderExtended}

/-- If more headers are requested after a response, then from below those received, and from
lower down than before. -/
def HeaderSession.Descends (chain : Blockchain) (now : ℤ) (response : List BlockHeaderExtended)
    (session : HeaderSession) : Prop :=
  ∀ after, session.processResponse chain now response = .ok (.waiting after) →
    after.blockIndexFrom < session.blockIndexFrom ∧
      ∃ lowest, after.syncHeaders.getLast? = some lowest ∧
        after.blockIndexFrom + 1 = lowest.blockNumber.toNat

theorem HeaderSession.Waiting.count {started : HeaderSession}
    (waiting : started.Waiting responses session) :
    responses.length + started.syncHeaders.length ≤ session.syncHeaders.length := by
  induction waiting with
  | start => simp
  | response before more ih =>
      obtain ⟨hne, _, ⟨_, _, _, houtcome⟩ | ⟨_, _, _, _, houtcome, _, hheaders, _⟩⟩ :=
        processResponse_cases more
      · cases houtcome
      · cases houtcome
        have hpos := List.length_pos_iff.mpr hne
        rw [hheaders, List.length_append, List.length_append, List.length_singleton]
        omega

/-- Where a waiting session goes on, unless it has come down to number zero. -/
theorem HeaderSession.Waiting.position
    (waiting : (HeaderSession.start begun promised).Waiting responses session) :
    session.syncHeaders.length ≤ promised.blockNumber.toNat + 1 ∧
      (session.blockIndexFrom + session.syncHeaders.length = promised.blockNumber.toNat ∨
        ∃ lowest, session.syncHeaders.getLast? = some lowest ∧ lowest.blockNumber = 0) := by
  cases waiting with
  | start => exact ⟨Nat.zero_le _, .inl rfl⟩
  | response before more =>
      obtain ⟨_, hcheck, ⟨_, _, _, houtcome⟩ | ⟨lowest, hlowest, _, _, houtcome, _, hheaders,
        hfrom⟩⟩ := processResponse_cases more
      · cases houtcome
      · cases houtcome
        obtain ⟨_, lowest', hlowest', hcount, _⟩ := checkReceived_spec hcheck
        rw [hlowest] at hlowest'
        cases hlowest'
        rw [before.kept.1] at hcount
        change promised.blockNumber.toNat + 1 = _ at hcount
        rw [hheaders]
        refine ⟨by omega, ?_⟩
        by_cases hzero : lowest.blockNumber = 0
        · exact .inr ⟨lowest, hlowest, hzero⟩
        · have hpos : lowest.blockNumber.toNat ≠ 0 := fun h => hzero (UInt64.toNat_inj.mp h)
          rw [hfrom, ActionLog.before, if_neg hpos]
          exact .inl (by omega)

theorem HeaderSession.processResponse_waiting (nonempty : response ≠ [])
    (checked : checkReceived now session.promisedHeader (session.syncHeaders ++ response) =
      .ok ())
    (none : cutAtCommon chain (session.syncHeaders ++ response) = none) :
    ∃ after, session.processResponse chain now response = .ok (.waiting after) := by
  unfold HeaderSession.processResponse
  rw [require_true nonempty, ok_bind]
  simp only [checked, none, ok_bind]
  exact ⟨_, rfl⟩

/-- A response makes the session go on lower down exactly when it is refused or the headers
received are grounded. -/
theorem descends_iff (waiting : (HeaderSession.start begun promised).Waiting responses session) :
    session.Descends chain now response ↔
      (response ≠ [] → checkReceived now promised (receivedHeaders responses ++ response) = .ok () →
        Grounded chain (receivedHeaders responses ++ response)) := by
  obtain ⟨hpromised, hreceived⟩ := waiting.kept
  have hpromised : session.promisedHeader = promised := hpromised
  have hreceived : session.syncHeaders = receivedHeaders responses := hreceived
  rw [← hreceived, ← hpromised]
  constructor
  · intro descends hne hcheck lowest hlowest hzero
    by_contra hnone
    have hcut : cutAtCommon chain (session.syncHeaders ++ response) = none := by
      rw [cutAtCommon_eq_none_iff]
      intro header hmem
      rw [← Bool.not_eq_true]
      exact fun hmeets => hnone ⟨header, hmem, hmeets⟩
    obtain ⟨after, hafter⟩ := HeaderSession.processResponse_waiting hne hcheck hcut
    obtain ⟨_, lowest', hlowest', hfrom⟩ := descends after hafter
    obtain ⟨_, _, ⟨_, _, _, houtcome⟩ | ⟨_, _, _, _, houtcome, _, hheaders, _⟩⟩ :=
      HeaderSession.processResponse_cases hafter
    · cases houtcome
    · cases houtcome
      rw [hheaders, hlowest] at hlowest'
      cases hlowest'
      have hnumber : lowest.blockNumber.toNat = 0 := UInt64.toNat_inj.mpr hzero
      omega
  · intro grounded after hafter
    obtain ⟨hne, hcheck, ⟨_, _, _, houtcome⟩ | ⟨lowest, hlowest, hcut, _, houtcome, _, hheaders,
      hfrom⟩⟩ := HeaderSession.processResponse_cases hafter
    · cases houtcome
    · cases houtcome
      have hpos : lowest.blockNumber.toNat ≠ 0 := by
        intro hnumber
        obtain ⟨header, hmem, hmeets⟩ :=
          grounded hne hcheck lowest hlowest (UInt64.toNat_inj.mp hnumber)
        rw [cutAtCommon_eq_none_iff.mp hcut header hmem] at hmeets
        cases hmeets
      obtain ⟨_, lowest', hlowest', hcount, _⟩ := checkReceived_spec hcheck
      rw [hlowest] at hlowest'
      cases hlowest'
      have hlength := List.length_pos_iff.mpr hne
      rw [List.length_append, hpromised] at hcount
      rw [ActionLog.before, if_neg hpos] at hfrom
      rcases waiting.position.2 with hposition | ⟨bottom, hbottom, hzero⟩
      · refine ⟨by omega, lowest, ?_, by omega⟩
        rw [hheaders, hlowest]
      · obtain ⟨e, hrefused⟩ := refused_below_genesis chain now response hbottom hzero
        rw [hrefused] at hafter
        cases hafter

end

section
variable {begun session after : BlockSession} {origin node next : NodeInternals}
  {now : ℤ} {response : List SignedBlock} {count : ℕ}

/-- A block session that has asked for more after every response. Between two responses the
node may change, but neither its chain nor its configuration. -/
inductive BlockSession.Collecting (begun : BlockSession) (origin : NodeInternals) :
    ℕ → BlockSession → NodeInternals → Prop
  | start : Collecting begun origin 0 begun origin
  | between {count : ℕ} {session : BlockSession} {node changed : NodeInternals}
      (before : Collecting begun origin count session node)
      (chain : changed.blockchain = node.blockchain)
      (config : changed.ctx.config = node.ctx.config) :
      Collecting begun origin count session changed
  | response {count : ℕ} {session after : BlockSession} {node next : NodeInternals} {now : ℤ}
      {response : List SignedBlock} (before : Collecting begun origin count session node)
      (more : session.processResponse now response node = .ok (.waiting after, next)) :
      Collecting begun origin (count + 1) after next

def BlockSession.missing (session : BlockSession) : ℕ :=
  session.syncHeaders.length - session.syncBlocks.length

/-- The headers of a session are those of the blocks that are not on the chain yet. -/
def BlockSession.Committed (begun session : BlockSession) (chain : Blockchain) : Prop :=
  ∃ committed, begun.syncHeaders =
      session.syncHeaders ++ (committed.map SignedBlock.headerEx).reverse ∧
    committed <:+ chain.blocks

/-- What holds of a block session between two responses. -/
structure BlockSession.Progress (begun : BlockSession) (count : ℕ) (session : BlockSession)
    (node : NodeInternals) : Prop where
  linked : node.blockchain.Linked
  sound : session.Sound node.ctx.config node.blockchain
  missing : session.syncBlocks.length < session.syncHeaders.length
  counted : count + session.missing ≤ begun.missing
  committed : begun.Committed session node.blockchain

omit [Externals] in
theorem expected_take (session : BlockSession) (count : ℕ) :
    (session.syncHeaders.drop (session.syncHeaders.length - count)) =
      (session.expected.take count).reverse := by
  rw [BlockSession.expected, List.take_reverse, List.reverse_reverse]

/-- A header that follows the last block of the chain follows no other one of it. -/
theorem tip_of_follows (hash : Externals.Collisionless) {chain : Blockchain} {common : ℕ}
    {kept : List SignedBlock} {base last : SignedBlock} {lowest : BlockHeaderExtended}
    (hlast : chain.blocks = kept ++ [last]) (hat : chain.blocks[common]? = some base)
    (followsBase : Next base.headerEx lowest) (followsLast : Next last.headerEx lowest) :
    chain.blocks.take (common + 1) = chain.blocks := by
  have hbase : lowest.prevHash = blockHash base.blockDetails :=
    (next_iff.mp followsBase).2.2.2.2.1
  have hprev : lowest.prevHash = blockHash last.blockDetails :=
    (next_iff.mp followsLast).2.2.2.2.1
  have hsame : base.blockDetails = last.blockDetails := hash.block (hbase.symm.trans hprev)
  have hplace : chain.blocks[kept.length]? = some last := by
    rw [hlast, List.getElem?_append_right le_rfl, Nat.sub_self]
    rfl
  have hnumber : common = kept.length := by
    rw [← chain.numbered common base hat, ← chain.numbered kept.length last hplace,
      SignedBlock.number, SignedBlock.number, hsame]
  apply List.take_of_length_le
  rw [hnumber, hlast, List.length_append, List.length_singleton]

/-- A batch joins the blocks that were committed before it. -/
theorem committed_afterBatch (hash : Externals.Collisionless) {common : ℕ} {base : SignedBlock}
    (committed : begun.Committed session node.blockchain)
    (promised : Promised begun.syncHeaders)
    (hat : node.blockchain.blocks[common]? = some base)
    (hchain : (base.headerEx :: session.expected).IsChain Next)
    (received : session.syncBlocks.map SignedBlock.headerEx =
      session.expected.take session.syncBlocks.length)
    (missing : session.syncBlocks.length < session.syncHeaders.length)
    (hblocks : next.blockchain.blocks =
      node.blockchain.blocks.take (common + 1) ++ session.syncBlocks) :
    begun.Committed session.afterBatch next.blockchain := by
  obtain ⟨committed, hheaders, kept, hkept⟩ := committed
  refine ⟨committed ++ session.syncBlocks, ?_, ?_⟩
  · have hsplit : session.syncHeaders = session.afterBatch.syncHeaders ++
        (session.syncBlocks.map SignedBlock.headerEx).reverse := by
      rw [received, ← expected_take]
      exact (List.take_append_drop _ _).symm
    rw [hheaders, List.map_append, List.reverse_append, ← List.append_assoc, ← hsplit]
  · rw [hblocks]
    rcases List.eq_nil_or_concat committed with rfl | ⟨earlier, last, rfl⟩
    · exact List.suffix_append _ _
    · have hwhole : node.blockchain.blocks.take (common + 1) = node.blockchain.blocks := by
        obtain ⟨lowest, hlowest⟩ : ∃ lowest, session.expected.head? = some lowest := by
          apply Option.ne_none_iff_exists'.mp
          rw [ne_eq, List.head?_eq_none_iff, BlockSession.expected, List.reverse_eq_nil_iff]
          exact List.ne_nil_of_length_pos (Nat.zero_lt_of_lt missing)
        have hfollows : Next last.headerEx lowest := by
          obtain ⟨_, first, hpromised⟩ := promised
          have hbegun : begun.syncHeaders.reverse =
              earlier.map SignedBlock.headerEx ++ last.headerEx :: session.expected := by
            rw [hheaders, List.reverse_append, List.reverse_reverse]
            simp [BlockSession.expected]
          have htail := hpromised.tail
          rw [List.tail_cons, hbegun] at htail
          exact (List.isChain_cons.mp htail.right_of_append).1 lowest hlowest
        have hlast : node.blockchain.blocks = kept ++ earlier ++ [last] := by
          rw [← hkept, List.append_assoc]
          simp
        exact tip_of_follows hash hlast hat ((List.isChain_cons.mp hchain).1 lowest hlowest)
          hfollows
      rw [hwhole, ← hkept, List.append_assoc]
      exact List.suffix_append _ _

/-- One response, as long as the session goes on after it. -/
theorem BlockSession.Progress.step (hash : Externals.Collisionless)
    (promised : Promised begun.syncHeaders) (progress : begun.Progress count session node)
    (h : session.processResponse now response node = .ok (.waiting after, next)) :
    begun.Progress (count + 1) after next ∧ after.missing < session.missing := by
  obtain ⟨hlinked, hsound⟩ := Synchronization.sound_processResponse hash progress.linked
    progress.sound h
  have hsound := hsound after rfl
  obtain ⟨common, received, hreceive, hcases⟩ := BlockSession.processResponse_cases h
  obtain ⟨hreceived, hheaders, _, hblocks, hresponse, _, base, hat, hchain⟩ :=
    BlockSession.receive_sound hash progress.linked progress.sound hreceive
  have hcounted := progress.counted
  have hbefore := progress.missing
  have hcommitted : begun.Committed received node.blockchain := by
    obtain ⟨committed, hall, hsuffix⟩ := progress.committed
    exact ⟨committed, hheaders ▸ hall, hsuffix⟩
  have hfewer : received.missing < session.missing := by
    have hpos := List.length_pos_iff.mpr hresponse
    rw [BlockSession.missing, BlockSession.missing, hheaders, hblocks, List.length_append]
    omega
  rcases hcases with ⟨houtcome, hnext, hmissing⟩ | ⟨houtcome, _⟩ |
    ⟨_, _, hreplace, ⟨hmissing, houtcome⟩ | ⟨_, houtcome⟩⟩
  · cases houtcome
    cases hnext
    exact ⟨⟨hlinked, hsound, hmissing, by omega, hcommitted⟩, hfewer⟩
  · cases houtcome
  · cases houtcome
    have hsame : received.afterBatch.missing = received.missing := by
      rw [BlockSession.missing, BlockSession.missing, BlockSession.afterBatch]
      simp
    obtain ⟨hreplaced, _⟩ := NodeInternals.replaceBlocks_blocks hreplace
    refine ⟨⟨hlinked, hsound, ?_, by omega, ?_⟩, hsame ▸ hfewer⟩
    · have hleft : 0 < received.missing := Nat.sub_pos_of_lt hmissing
      rw [← hsame] at hleft
      exact Nat.lt_of_sub_pos hleft
    · exact committed_afterBatch hash hcommitted promised hat hchain hreceived.received hmissing
        hreplaced
  · cases houtcome

theorem BlockSession.Collecting.progress (hash : Externals.Collisionless)
    (begins : begun.Progress 0 begun origin) (run : begun.Collecting origin count session node) :
    begun.Progress count session node := by
  induction run with
  | start => exact begins
  | between before chain config ih =>
      refine ⟨chain ▸ ih.linked, ?_, ih.missing, ih.counted, chain ▸ ih.committed⟩
      rw [chain, config]
      exact ih.sound
  | response before more ih => exact (ih.step hash begins.sound.promised more).1

theorem progress_begin {headers : List BlockHeaderExtended} (reason : Reason)
    (promised : Promised headers) (linked : origin.blockchain.Linked) :
    BlockSession.Progress ⟨reason, headers, []⟩ 0 ⟨reason, headers, []⟩ origin := by
  refine ⟨linked, ⟨promised, rfl, fun _ h => (nomatch h), fun h => (h rfl).elim⟩, ?_, ?_, ?_⟩
  · exact List.length_pos_iff.mpr promised.1
  · exact Nat.le_of_eq (Nat.zero_add _)
  · exact ⟨[], (List.append_nil _).symm, List.nil_suffix⟩

/-- The places of `sync_headers`, counted from its end, at which `process_response` reads: the
last one, those of the blocks received, and, when more are requested, the next one and the
first. Of a response that is empty or too long it reads none. -/
def BlockSession.readPlaces (session : BlockSession) (response : List SignedBlock) : List ℕ :=
  let received := session.syncBlocks.length
  let total := session.syncHeaders.length
  if response = [] ∨ total < response.length + received then []
  else 0 :: received :: List.range' received response.length ++
    if received + response.length < total then [received + response.length, total - 1] else []

omit [Externals] in
theorem BlockSession.readPlaces_lt {place : ℕ}
    (missing : session.syncBlocks.length < session.syncHeaders.length)
    (h : place ∈ session.readPlaces response) : place < session.syncHeaders.length := by
  unfold BlockSession.readPlaces at h
  dsimp only at h
  split_ifs at h with hrefused hmore
  · cases h
  · rw [not_or, Nat.not_lt] at hrefused
    simp only [List.cons_append, List.mem_cons, List.mem_append, List.mem_range'_1,
      List.not_mem_nil, or_false] at h
    omega
  · rw [not_or, Nat.not_lt] at hrefused
    simp only [List.mem_cons, List.append_nil, List.mem_range'_1] at h
    omega

def BlockSession.collected (begun session : BlockSession) : ℕ :=
  begun.syncHeaders.length - session.syncHeaders.length + session.syncBlocks.length

end

theorem BlockSession.Committed.length_le {begun session : BlockSession} {chain : Blockchain}
    (committed : begun.Committed session chain) :
    session.syncHeaders.length ≤ begun.syncHeaders.length := by
  obtain ⟨blocks, hheaders, _⟩ := committed
  rw [hheaders, List.length_append]
  exact Nat.le_add_right _ _

/-- Both sessions against any peer. -/
theorem sessions_bounded (hash : Externals.Collisionless) :
    (∀ {begun : Blockchain} {promised : BlockHeaderExtended} {responses : List HeaderResponse}
      {session : HeaderSession},
      (HeaderSession.start begun promised).Waiting responses session →
      responses.length ≤ promised.blockNumber.toNat + 1 ∧
      ∀ chain now response,
        (session.Descends chain now response ↔
          (response ≠ [] →
            checkReceived now promised (receivedHeaders responses ++ response) = .ok () →
            Grounded chain (receivedHeaders responses ++ response))) ∧
        ∀ kept, cutAtCommon chain (receivedHeaders responses ++ response) = some kept →
          kept ≠ []) ∧
    ∀ {reason : Reason} {headers : List BlockHeaderExtended} {origin node : NodeInternals}
      {count : ℕ} {session : BlockSession}, Promised headers → origin.blockchain.Linked →
      BlockSession.Collecting ⟨reason, headers, []⟩ origin count session node →
      count < headers.length ∧
      BlockSession.Committed ⟨reason, headers, []⟩ session node.blockchain ∧
      ∀ response, (∀ place ∈ session.readPlaces response, place < session.syncHeaders.length) ∧
        ∀ now after next,
          session.processResponse now response node = .ok (.waiting after, next) →
          BlockSession.collected ⟨reason, headers, []⟩ session <
            BlockSession.collected ⟨reason, headers, []⟩ after := by
  constructor
  · intro begun promised responses session waiting
    refine ⟨waiting.count.trans waiting.position.1, fun chain now response => ?_⟩
    exact ⟨descends_iff waiting, fun kept hkept => (cutAtCommon_initial hkept).1⟩
  · intro reason headers origin node count session promised linked run
    have begins := progress_begin reason promised linked
    have progress := run.progress hash begins
    have hmissing := progress.missing
    have hbegun : BlockSession.missing ⟨reason, headers, []⟩ = headers.length := rfl
    refine ⟨?_, progress.committed, fun response =>
      ⟨fun place => BlockSession.readPlaces_lt hmissing, ?_⟩⟩
    · have hcounted := progress.counted
      have hleft : 0 < session.missing := Nat.sub_pos_of_lt hmissing
      omega
    · intro now after next h
      obtain ⟨hafter, hfewer⟩ := progress.step hash promised h
      have hless := hafter.missing
      have hheaders := progress.committed.length_le
      have hheaders' := hafter.committed.length_le
      simp only [BlockSession.missing] at hfewer
      simp only [BlockSession.collected] at hheaders hheaders' ⊢
      omega

end

section Examples

noncomputable local instance strangeExternals : Externals :=
  namedExternals [] []

def strangeHeader : BlockHeaderExtended where
  blockNumber := 0
  delta := 0
  cSum := 1
  cConst := 1
  prevHash := "other"
  timeSigned := 0
  blockHash := "strange"

theorem sessions_bounded_begin :
    (HeaderSession.start commonChain upperHeader).Descends commonChain 1300
      [upperHeader, lowerHeader] := by
  refine ((sessions_bounded (namedExternals_collisionless [] [])).1 .start).2 _ _ _ |>.1.mpr ?_
  intro _ _ lowest hlowest hzero
  cases hlowest
  exact absurd hzero (by decide)

/-- Headers that come down to the genesis block of another network let the number below it
wrap. -/
theorem headers_wrap_below_genesis :
    ¬ ∀ [Externals] (begun chain : Blockchain) (promised : BlockHeaderExtended)
      (responses : List HeaderResponse) (session : HeaderSession) (now : ℤ)
      (response : List BlockHeaderExtended),
      (HeaderSession.start begun promised).Waiting responses session →
        session.Descends chain now response := by
  intro claim
  have more : (HeaderSession.start commonChain strangeHeader).processResponse commonChain 0
      [strangeHeader] = .ok (.waiting ⟨18446744073709551615, 18446744073709551566, strangeHeader,
        [strangeHeader]⟩) := by
    decide +kernel
  have hlower := (claim commonChain commonChain strangeHeader [] _ 0 [strangeHeader] .start _
    more).1
  exact absurd hlower (by decide)

end Examples
end Publiq
