import Publiq.LastCommon
import Publiq.RequestServers
import Publiq.RuledRun

/-! A header session with a peer that answers from its chain. Whatever the two nodes do meanwhile,
as long as the peer keeps the block it has promised, the session comes down to the last common
block. -/
namespace Publiq
open Message Checked

section
variable [Externals]

/-- A chain as nodes build it that follow the rules: every header passes the check against the one
before it, and has the `c_const` of the rule. -/
structure Blockchain.Lawful (chain : Blockchain) : Prop where
  successive : chain.Successive
  ruled : chain.Ruled

/-- A request and its response: the chain that the peer answers from, and the chain and the clock of
the node when the response arrives. -/
structure Round where
  served : Blockchain
  chain : Blockchain
  now : ℤ

/-- A header session with a peer that answers every request from its chain: the chain that the
session has ended on, and the headers above it. -/
def headerExchange :
    List Round → HeaderSession → Checked (Option (Blockchain × List BlockHeaderExtended))
  | [], _ => pure none
  | round :: rest, session => do
      let response ← processHeaderRequest round.served session.blockIndexFrom session.blockIndexTo
      match ← session.processResponse round.chain round.now response with
      | .completed headers => pure (some (round.chain, headers))
      | .waiting session => headerExchange rest session

def Blockchain.headerOf (chain : Blockchain) (number : ℕ) : BlockHeaderExtended :=
  (chain.blocks[number]?.getD chain.lastBlock).headerEx

def Blockchain.headersDown (chain : Blockchain) (low high : ℕ) : List BlockHeaderExtended :=
  (numbersUpTo low high).reverse.map chain.headerOf

/-- The last block below a number that two chains have in common. -/
structure LastShared (chain peer : Blockchain) (high common : ℕ) : Prop where
  below : common < high
  shared : Shared chain peer common
  last : ∀ number, common < number → number < high → ¬ Shared chain peer number

variable {chain peer : Blockchain} {low mid high number common : ℕ}

omit [Externals] in
theorem numbersUpTo_append (hlow : low ≤ mid) (hmid : mid ≤ high + 1) :
    numbersUpTo low high = List.range' low (mid - low) ++ numbersUpTo mid high := by
  unfold numbersUpTo
  rw [show high + 1 - low = mid - low + (high + 1 - mid) by omega, ← List.range'_append_1,
    Nat.add_sub_cancel' hlow]

theorem headersDown_append (hlow : low < mid) (hmid : mid ≤ high + 1) :
    peer.headersDown low high = peer.headersDown mid high ++ peer.headersDown low (mid - 1) := by
  unfold Blockchain.headersDown
  rw [numbersUpTo_append hlow.le hmid, List.reverse_append, List.map_append]
  congr 3
  rw [numbersUpTo]
  congr 1
  omega

theorem headersDown_succ (h : low ≤ high + 1) :
    peer.headersDown low (high + 1) = peer.headerOf (high + 1) :: peer.headersDown low high := by
  unfold Blockchain.headersDown numbersUpTo
  rw [show high + 1 + 1 - low = high + 1 - low + 1 by omega, List.range'_1_concat,
    Nat.add_sub_cancel' h]
  simp

theorem headersDown_self : peer.headersDown low low = [peer.headerOf low] := by
  unfold Blockchain.headersDown numbersUpTo
  rw [Nat.add_sub_cancel_left]
  rfl

theorem length_headersDown : (peer.headersDown low high).length = high + 1 - low := by
  simp [Blockchain.headersDown, numbersUpTo]

theorem head_headersDown (h : low ≤ high) :
    (peer.headersDown low high).head? = some (peer.headerOf high) := by
  unfold Blockchain.headersDown numbersUpTo
  rw [List.head?_map, List.head?_reverse, List.getLast?_range',
    if_neg (by omega), Option.map_some, show low + (high + 1 - low) - 1 = high by omega]

theorem getLast_headersDown (h : low ≤ high) :
    (peer.headersDown low high).getLast? = some (peer.headerOf low) := by
  unfold Blockchain.headersDown numbersUpTo
  rw [List.getLast?_map, List.getLast?_reverse, List.head?_range', if_neg (by omega),
    Option.map_some]

omit [Externals] in
theorem Blockchain.getElem?_of_lt (h : number < chain.length) :
    ∃ signedBlock, chain.blocks[number]? = some signedBlock :=
  ⟨_, List.getElem?_eq_getElem h⟩

theorem headerOf_number (h : number < peer.length) :
    (peer.headerOf number).blockNumber.toNat = number := by
  obtain ⟨signedBlock, hat⟩ := Blockchain.getElem?_of_lt h
  rw [Blockchain.headerOf, hat]
  exact peer.numbered number signedBlock hat

theorem Blockchain.Lawful.linked (lawful : peer.Lawful) : peer.Linked := lawful.successive.linked

theorem Blockchain.Lawful.next (lawful : peer.Lawful) (h : number + 1 < peer.length) :
    Next (peer.headerOf number) (peer.headerOf (number + 1)) := by
  have hlt : number + 1 < peer.blocks.length := h
  have hnext := List.isChain_iff_getElem.mp lawful.successive number (by simpa using hlt)
  rw [List.getElem_map, List.getElem_map] at hnext
  unfold Blockchain.headerOf
  rw [List.getElem?_eq_getElem hlt, List.getElem?_eq_getElem (Nat.lt_of_succ_lt hlt)]
  exact hnext

theorem Shared.headerOf (shared : Shared chain peer number) :
    chain.headerOf number = peer.headerOf number := by
  obtain ⟨a, b, ha, hb, hsame⟩ := shared
  unfold Blockchain.headerOf SignedBlock.headerEx
  rw [ha, hb, Option.getD_some, Option.getD_some, hsame]

theorem Shared.headersDown (hash : Externals.Collisionless) (linked : chain.Linked)
    (linked' : peer.Linked) (shared : Shared chain peer common) (h : high ≤ common) :
    chain.headersDown low high = peer.headersDown low high := by
  unfold Blockchain.headersDown
  refine List.map_congr_left fun number hnumber => ?_
  rw [List.mem_reverse, numbersUpTo, List.mem_range'_1] at hnumber
  exact (Shared.below hash linked linked' shared (by omega)).headerOf

theorem meetsChain_headerOf (hash : Externals.Collisionless)
    (hashed : ∀ text, Externals.hash text ≠ "") (linked : chain.Linked) (linked' : peer.Linked)
    (h : number + 1 < peer.length) :
    meetsChain chain (peer.headerOf (number + 1)) = true ↔ Shared chain peer number := by
  have hlt : number + 1 < peer.blocks.length := h
  obtain ⟨base, hb⟩ := peer.getElem?_of_lt (Nat.lt_of_succ_lt h)
  have hfollows : (peer.headerOf (number + 1)).prevHash = blockHash base.blockDetails := by
    unfold Blockchain.headerOf
    rw [List.getElem?_eq_getElem hlt, ← (List.getElem?_eq_some_iff.mp hb).2]
    exact List.isChain_iff_getElem.mp linked' number hlt
  constructor
  · intro hmeets
    unfold meetsChain at hmeets
    rw [headerOf_number h, Bool.and_eq_true, decide_eq_true_eq] at hmeets
    obtain ⟨signedBlock, hat, hprev⟩ := linked.knownPrevHash (Nat.succ_ne_zero number) hmeets.1
    exact ⟨signedBlock, base, hat, hb, hash.block (hprev.symm.trans hfollows)⟩
  · rintro ⟨a, b, ha, hb', hsame⟩
    obtain rfl := Option.some.inj (hb.symm.trans hb')
    exact meetsChain_of_extends hashed linked
      ⟨headerOf_number h, a, ha, by rw [hfollows, hsame]⟩

/-- What the scan for the last common block makes of headers of the peer. -/
theorem cutAtCommon_headersDown (hash : Externals.Collisionless)
    (hashed : ∀ text, Externals.hash text ≠ "") (linked : chain.Linked) (linked' : peer.Linked)
    (genesis : Shared chain peer 0) (positive : 0 < high) (inside : high < peer.length)
    (h : low ≤ high) :
    (∃ common, LastShared chain peer high common ∧
      cutAtCommon chain (peer.headersDown low high) = some (peer.headersDown (common + 1) high)) ∨
    (1 < low ∧ cutAtCommon chain (peer.headersDown low high) = none) := by
  induction high with
  | zero => omega
  | succ high ih =>
      rw [headersDown_succ h, cutAtCommon]
      by_cases hshared : Shared chain peer high
      · rw [if_pos ((meetsChain_headerOf hash hashed linked linked' inside).mpr hshared)]
        refine .inl ⟨high, ⟨Nat.lt_succ_self high, hshared, fun k _ _ => by omega⟩, ?_⟩
        rw [headersDown_self]
      · rw [if_neg (mt (meetsChain_headerOf hash hashed linked linked' inside).mp hshared)]
        have hpos : 0 < high := Nat.pos_of_ne_zero fun hzero => hshared (hzero ▸ genesis)
        rcases Nat.lt_or_ge high low with hlast | hlow
        · right
          have hnone : peer.headersDown low high = [] :=
            List.eq_nil_of_length_eq_zero (by rw [length_headersDown]; omega)
          rw [hnone]
          exact ⟨by omega, rfl⟩
        · rcases ih hpos (Nat.lt_of_succ_lt inside) hlow with
            ⟨common, hlast, hcut⟩ | ⟨hmore, hcut⟩
          · refine .inl ⟨common, ⟨hlast.below.trans (Nat.lt_succ_self high), hlast.shared,
              fun k hk hlt => ?_⟩, ?_⟩
            · rcases Nat.lt_succ_iff_lt_or_eq.mp hlt with hlt | rfl
              · exact hlast.last k hk hlt
              · exact hshared
            · rw [hcut, headersDown_succ (Nat.succ_le_succ hlast.below.le)]
              rfl
          · exact .inr ⟨hmore, by rw [hcut]; rfl⟩

omit [Externals] in
theorem checkHeadersVector_of_isChain {headers : List BlockHeaderExtended}
    (h : headers.reverse.IsChain Next) : checkHeadersVector headers = false := by
  rw [List.isChain_reverse] at h
  induction headers with
  | nil => rfl
  | cons next rest ih =>
      cases rest with
      | nil => rfl
      | cons header rest =>
          rw [List.isChain_cons_cons] at h
          rw [checkHeadersVector, Bool.or_eq_false_iff]
          exact ⟨h.1, ih h.2⟩

theorem Blockchain.Lawful.isChain_headersDown (lawful : peer.Lawful) (inside : high < peer.length) :
    (peer.headersDown low high).reverse.IsChain Next := by
  unfold Blockchain.headersDown numbersUpTo
  rw [← List.map_reverse, List.reverse_reverse, List.isChain_iff_getElem]
  intro i hi
  rw [List.length_map, List.length_range'] at hi
  rw [List.getElem_map, List.getElem_map, List.getElem_range', List.getElem_range', Nat.one_mul,
    Nat.one_mul]
  exact lawful.next (by omega)

theorem checkReceived_headersDown (lawful : peer.Lawful) {now : ℤ}
    (time : fromTimeT (peer.headerOf high).timeSigned ≤ (now + nodesTimeShift) * 1000000000)
    (inside : high < peer.length) (h : low ≤ high) :
    checkReceived now (peer.headerOf high) (peer.headersDown low high) = .ok () := by
  unfold checkReceived
  rw [head_headersDown h, getLast_headersDown h]
  dsimp only
  have hhigh := headerOf_number inside
  have hlow := headerOf_number (Nat.lt_of_le_of_lt h inside)
  have hle : (peer.headerOf low).blockNumber ≤ (peer.headerOf high).blockNumber := by
    rw [UInt64.le_iff_toNat_le, hhigh, hlow]
    exact h
  have hcount : (peer.headerOf high).blockNumber.toNat + 1 =
      (peer.headerOf low).blockNumber.toNat + (peer.headersDown low high).length := by
    rw [hhigh, hlow, length_headersDown]
    omega
  rw [require_true rfl, ok_bind, require_true ⟨hcount, hle⟩, ok_bind, require_true time, ok_bind]
  exact require_true (checkHeadersVector_of_isChain (lawful.isChain_headersDown inside))

theorem receivedDeltas_headersDown (inside : high < peer.length) :
    receivedDeltas (peer.headersDown low high) = (peer.deltasBelow (high + 1)).drop low := by
  have hlength : peer.blocks.length = peer.length := rfl
  unfold receivedDeltas Blockchain.headersDown Blockchain.deltasBelow numbersUpTo
  rw [← List.map_reverse, List.reverse_reverse, List.map_map]
  apply List.ext_getElem
  · simp only [List.length_map, List.length_range', List.length_drop, List.length_take]
    omega
  · intro i hi _
    rw [List.length_map, List.length_range'] at hi
    have hlt : low + i < peer.blocks.length := by omega
    rw [List.getElem_map, List.getElem_range', List.getElem_drop, List.getElem_map,
      List.getElem_take, Nat.one_mul, Function.comp_apply, Blockchain.headerOf,
      List.getElem?_eq_getElem hlt]
    rfl

/-- The deltas of a lawful chain pass the check from any number on. -/
theorem Blockchain.Lawful.checkDeltaVector (lawful : peer.Lawful) (inside : high < peer.length)
    (h : low ≤ high) :
    ∃ cConst, Publiq.checkDeltaVector ((peer.deltasBelow (high + 1)).drop low) =
      .ok (.ok cConst) := by
  have hlength : (peer.deltasBelow (high + 1)).length = high + 1 :=
    Blockchain.length_deltasBelow inside
  by_cases full : deltaStep ≤ ((peer.deltasBelow (high + 1)).drop low).length
  · refine ⟨_, (checkDeltaVector_ok_iff full).mpr ⟨along_due_iff.mpr ?_, rfl⟩⟩
    intro index pair due hpair
    rw [List.getElem?_drop] at hpair
    have hlt := (List.getElem?_eq_some_iff.mp hpair).1
    rw [hlength] at hlt
    obtain ⟨signedBlock, hat⟩ := peer.getElem?_of_lt (Nat.lt_of_lt_of_le hlt inside)
    have hpair : signedBlock.blockDetails.header.deltaConst = pair := by
      rw [Blockchain.deltasBelow, List.getElem?_map, List.getElem?_take_of_lt hlt, hat] at hpair
      exact Option.some.inj hpair
    have hrule := lawful.ruled.constant hat (due.trans (Nat.le_add_left index low))
    have hbelow : peer.deltasBelow (low + index) = (peer.deltasBelow (high + 1)).take low ++
        ((peer.deltasBelow (high + 1)).drop low).take index := by
      rw [← List.take_add]
      exact (peer.take_deltasBelow hlt.le).symm
    rw [hbelow, nextConst_append] at hrule
    · rw [← hpair]
      exact hrule
    · rw [List.length_take, List.length_drop, hlength]
      omega
  · have nonempty : (peer.deltasBelow (high + 1)).drop low ≠ [] := by
      apply List.ne_nil_of_length_pos
      rw [List.length_drop, hlength]
      omega
    have hmined := minedConst_eq nonempty
    rw [minedConst, Nat.sub_eq_zero_of_le (Nat.le_of_not_le full), List.drop_zero] at hmined
    exact ⟨_, hmined⟩

/-- The headers of the peer pass the checks against the last block that both have. -/
theorem checkAgainstCommon_headersDown (hash : Externals.Collisionless) (linked : chain.Linked)
    (lawful : peer.Lawful) (inside : high < peer.length) (shared : Shared chain peer common)
    (below : common < high) :
    checkAgainstCommon chain (peer.headersDown (common + 1) high) = .ok () := by
  obtain ⟨a, b, ha, hb, hsame⟩ := shared
  have hnumber : (peer.headerOf (common + 1)).blockNumber.toNat = common + 1 :=
    headerOf_number (Nat.lt_of_le_of_lt below inside)
  have hcommon : a.headerEx = peer.headerOf common := by
    unfold Blockchain.headerOf
    rw [hb, Option.getD_some, SignedBlock.headerEx, hsame]
    rfl
  have hlt : common < chain.length := (List.getElem?_eq_some_iff.mp ha).1
  have hdeltas : chain.deltasBelow (common + 1) =
      (peer.deltasBelow (high + 1)).take (common + 1) := by
    rw [peer.take_deltasBelow (Nat.succ_le_succ below.le)]
    exact Shared.deltasBelow hash linked lawful.linked ⟨a, b, ha, hb, hsame⟩
  have hlength : (chain.deltasBelow (common + 1)).length = common + 1 :=
    Blockchain.length_deltasBelow hlt
  obtain ⟨cConst, hchecked⟩ :=
    lawful.checkDeltaVector inside (show common + 1 - deltaStep ≤ high by omega)
  unfold checkAgainstCommon
  rw [getLast_headersDown (Nat.succ_le_of_lt below)]
  dsimp only
  rw [hnumber, Nat.add_sub_cancel, require_true, ok_bind, linked.headerExAt ha, ok_bind,
    require_true, ok_bind, lastDeltas_eq hlt, ok_bind, hlength]
  · have hvector : (chain.deltasBelow (common + 1)).drop (common + 1 - deltaStep) ++
        (peer.headersDown (common + 1) high).reverse.map
          (fun header => (header.delta, header.cConst)) =
        (peer.deltasBelow (high + 1)).drop (common + 1 - deltaStep) := by
      have hreceived : receivedDeltas (peer.headersDown (common + 1) high) =
          (peer.deltasBelow (high + 1)).drop (common + 1) := receivedDeltas_headersDown inside
      unfold receivedDeltas at hreceived
      rw [show (fun header : BlockHeaderExtended => (header.delta, header.cConst)) =
        fun header => header.deltaConst from rfl, hreceived, hdeltas]
      conv_rhs => rw [← List.take_append_drop (common + 1) (peer.deltasBelow (high + 1))]
      rw [List.drop_append_of_le_length]
      rw [← hdeltas, hlength]
      omega
    rw [hvector, hchecked]
    rfl
  · rw [hcommon]
    exact lawful.next (Nat.lt_of_le_of_lt below inside)
  · intro hzero
    rw [hzero] at hnumber
    exact absurd hnumber.symm (Nat.succ_ne_zero common)

theorem processHeaderRequest_down (linked : peer.Linked) {blocksFrom : ℕ} (blocksTo : ℕ)
    (inside : blocksFrom < peer.length) :
    ∃ low, low ≤ blocksFrom ∧ processHeaderRequest peer blocksFrom blocksTo =
        .ok (peer.headersDown low blocksFrom) ∧
      (blocksTo ≤ blocksFrom - headerTrLength → low = blocksFrom - headerTrLength) := by
  obtain ⟨⟨first, last⟩, hrange⟩ : ∃ range,
      headerRange peer.length blocksFrom blocksTo = range := ⟨_, rfl⟩
  obtain ⟨hfirst, _, hle, _⟩ := headerRange_spec peer.length_pos hrange
  have hfrom : first = blocksFrom := by omega
  subst hfrom
  refine ⟨last, hle, ?_, fun hto => ?_⟩
  · unfold processHeaderRequest
    rw [hrange]
    refine mapM_of_ok fun number hnumber => ?_
    rw [List.mem_reverse, numbersUpTo, List.mem_range'_1] at hnumber
    obtain ⟨signedBlock, hat⟩ := peer.getElem?_of_lt (show number < peer.length by omega)
    rw [linked.headerExAt hat, Blockchain.headerOf, hat, Option.getD_some]
  · unfold headerRange at hrange
    obtain ⟨_, rfl⟩ := Prod.mk.inj hrange
    split_ifs <;> omega

/-- A session that has the headers of the peer down to a number, and asks for those below. -/
structure Asking (peer : Blockchain) (high low : ℕ) (session : HeaderSession) : Prop where
  promised : session.promisedHeader = peer.headerOf high
  headers : session.syncHeaders = peer.headersDown low high
  next : session.blockIndexFrom = low - 1
  more : 1 < low
  room : low ≤ high + 1

/-- What a round needs: a peer that has the promised block, a chain that begins where the peer's
does, and a clock that the promised header does not run ahead of. -/
structure Round.Ready (peer : Blockchain) (high : ℕ) (round : Round) : Prop where
  kept : round.served.Linked
  promise : Shared round.served peer high
  linked : round.chain.Linked
  genesis : Shared round.chain peer 0
  time : fromTimeT (peer.headerOf high).timeSigned ≤ (round.now + nodesTimeShift) * 1000000000

theorem Round.Ready.serves (hash : Externals.Collisionless) (linked : peer.Linked) {round : Round}
    (ready : round.Ready peer high) {blocksFrom : ℕ} (blocksTo : ℕ) (h : blocksFrom ≤ high) :
    ∃ low, low ≤ blocksFrom ∧ processHeaderRequest round.served blocksFrom blocksTo =
        .ok (peer.headersDown low blocksFrom) ∧
      (blocksTo ≤ blocksFrom - headerTrLength → low = blocksFrom - headerTrLength) := by
  obtain ⟨a, b, ha, hb, hsame⟩ := ready.promise
  have hlt : high < round.served.length := (List.getElem?_eq_some_iff.mp ha).1
  obtain ⟨low, hlow, hserved, hstep⟩ :=
    processHeaderRequest_down ready.kept blocksTo (Nat.lt_of_le_of_lt h hlt)
  rw [ready.promise.headersDown hash ready.kept linked h] at hserved
  exact ⟨low, hlow, hserved, hstep⟩

/-- One round: the session ends above the last common block, or it has headers from further down. -/
theorem processResponse_headersDown (hash : Externals.Collisionless)
    (hashed : ∀ text, Externals.hash text ≠ "") (lawful : peer.Lawful)
    (positive : 0 < high) (inside : high < peer.length) {session : HeaderSession}
    (asking : Asking peer high mid session) (h : low ≤ mid - 1) {round : Round}
    (ready : round.Ready peer high) :
    (∃ common, LastShared round.chain peer high common ∧
      session.processResponse round.chain round.now (peer.headersDown low (mid - 1)) =
        .ok (.completed (peer.headersDown (common + 1) high))) ∨
    ∃ after, Asking peer high low after ∧ after.blockIndexTo ≤ low - 1 - headerTrLength ∧
      session.processResponse round.chain round.now (peer.headersDown low (mid - 1)) =
        .ok (.waiting after) := by
  have hmore := asking.more
  have hroom := asking.room
  have hlow : low ≤ high := by omega
  have hall : session.syncHeaders ++ peer.headersDown low (mid - 1) =
      peer.headersDown low high := by
    rw [asking.headers, ← headersDown_append (by omega) hroom]
  have hne : peer.headersDown low (mid - 1) ≠ [] := by
    apply List.ne_nil_of_length_pos
    rw [length_headersDown]
    omega
  unfold HeaderSession.processResponse
  rw [require_true hne, ok_bind]
  dsimp only
  rw [hall, asking.promised, checkReceived_headersDown lawful ready.time inside hlow, ok_bind]
  rcases cutAtCommon_headersDown hash hashed ready.linked lawful.linked ready.genesis positive
    inside hlow with ⟨common, hlast, hcut⟩ | ⟨hbelow, hcut⟩
  · refine .inl ⟨common, hlast, ?_⟩
    rw [hcut]
    dsimp only
    rw [checkAgainstCommon_headersDown hash ready.linked lawful inside hlast.shared hlast.below]
    rfl
  · right
    rw [hcut, getLast_headersDown hlow]
    have hbefore : ActionLog.before (peer.headerOf low).blockNumber.toNat = low - 1 := by
      rw [headerOf_number (Nat.lt_of_le_of_lt hlow inside)]
      unfold ActionLog.before
      rw [if_neg (by omega)]
    refine ⟨⟨_, _, _, _⟩, ⟨rfl, rfl, hbefore, hbelow, by omega⟩, ?_, rfl⟩
    dsimp only [Option.map_some, Option.getD_some]
    split_ifs
    · rw [hbefore]
    · exact Nat.zero_le _

/-- A session that has begun, with rounds enough to come down to the genesis block. -/
theorem headerExchange_asking (hash : Externals.Collisionless)
    (hashed : ∀ text, Externals.hash text ≠ "") (lawful : peer.Lawful)
    (positive : 0 < high) (inside : high < peer.length) {rounds : List Round}
    (ready : ∀ round ∈ rounds, round.Ready peer high) {session : HeaderSession}
    (asking : Asking peer high mid session)
    (further : session.blockIndexTo ≤ mid - 1 - headerTrLength)
    (enough : mid ≤ 1 + rounds.length * (headerTrLength + 1)) :
    ∃ round ∈ rounds, ∃ common, LastShared round.chain peer high common ∧
      headerExchange rounds session =
        .ok (some (round.chain, peer.headersDown (common + 1) high)) := by
  induction rounds generalizing mid session with
  | nil =>
      have hmore := asking.more
      rw [List.length_nil, Nat.zero_mul] at enough
      omega
  | cons round rest ih =>
      have hroom := asking.room
      have hmore := asking.more
      rw [List.forall_mem_cons] at ready
      obtain ⟨low, hlow, hserved, hstep⟩ :=
        ready.1.serves hash lawful.linked session.blockIndexTo (show mid - 1 ≤ high by omega)
      rw [headerExchange, asking.next, hserved, ok_bind]
      rcases processResponse_headersDown hash hashed lawful positive inside asking hlow ready.1 with
        ⟨common, hlast, houtcome⟩ | ⟨after, hasking, hto, houtcome⟩
      · exact ⟨round, List.mem_cons_self, common, hlast, by rw [houtcome]; rfl⟩
      · have hfewer : low ≤ 1 + rest.length * (headerTrLength + 1) := by
          rw [List.length_cons, Nat.succ_mul] at enough
          have hlow := hstep further
          omega
        obtain ⟨other, hother, common, hlast, hrest⟩ := ih ready.2 hasking hto hfewer
        refine ⟨other, List.mem_cons_of_mem round hother, common, hlast, ?_⟩
        rw [houtcome, ok_bind]
        exact hrest

/-- A header session with a peer of a lawful chain completes, as long as the peer keeps the block
that it has promised, after as many responses at most as the numbers down to the genesis block need.
It ends with the headers above the last block that the promised chain has in common with the one of
the node, whatever that one has been before. -/
theorem headerExchange_completes (hash : Externals.Collisionless)
    (hashed : ∀ text, Externals.hash text ≠ "") (lawful : peer.Lawful)
    (positive : 0 < high) (inside : high < peer.length) (begun : Blockchain)
    {rounds : List Round} (nonempty : rounds ≠ [])
    (ready : ∀ round ∈ rounds, round.Ready peer high)
    (enough : high ≤ 1 + (rounds.length - 1) * (headerTrLength + 1)) :
    ∃ round ∈ rounds, ∃ common, LastShared round.chain peer high common ∧
      headerExchange rounds (.start begun (peer.headerOf high)) =
        .ok (some (round.chain, peer.headersDown (common + 1) high)) := by
  obtain ⟨round, rest, rfl⟩ := List.exists_cons_of_ne_nil nonempty
  rw [List.forall_mem_cons] at ready
  have hnone : peer.headersDown (high + 1) high = [] :=
    List.eq_nil_of_length_eq_zero (by rw [length_headersDown, Nat.sub_self])
  have asking : Asking peer high (high + 1) (.start begun (peer.headerOf high)) :=
    ⟨rfl, hnone.symm, headerOf_number inside, by omega, le_rfl⟩
  obtain ⟨low, hlow, hserved, _⟩ := ready.1.serves hash lawful.linked
    (HeaderSession.start begun (peer.headerOf high)).blockIndexTo le_rfl
  rw [headerExchange, asking.next, Nat.add_sub_cancel, hserved, ok_bind]
  rcases processResponse_headersDown hash hashed lawful positive inside asking hlow ready.1 with
    ⟨common, hlast, houtcome⟩ | ⟨after, hasking, hto, houtcome⟩
  · rw [Nat.add_sub_cancel] at houtcome
    exact ⟨round, List.mem_cons_self, common, hlast, by rw [houtcome]; rfl⟩
  · rw [Nat.add_sub_cancel] at houtcome
    rw [List.length_cons, Nat.add_sub_cancel] at enough
    obtain ⟨other, hother, common, hlast, hrest⟩ :=
      headerExchange_asking hash hashed lawful positive inside ready.2 hasking hto
        (hlow.trans enough)
    refine ⟨other, List.mem_cons_of_mem round hother, common, hlast, ?_⟩
    rw [houtcome, ok_bind]
    exact hrest

omit [Externals] in
theorem shared_self (h : number < chain.length) : Shared chain chain number := by
  obtain ⟨signedBlock, hat⟩ := Blockchain.getElem?_of_lt h
  exact ⟨signedBlock, signedBlock, hat, hat, rfl⟩

namespace Synchronization
open NodeInternals

theorem lawful_run (hash : Externals.Collisionless) {ctx : Context} {freezeBeforeBlock : ℕ}
    {genesis : SignedBlock} {node : NodeInternals}
    (start : insertGenesis ctx freezeBeforeBlock genesis = .ok node) {events : List Event}
    (heavier : (idle node).MinesHeavier events) : ((idle node).run events).chain.Lawful :=
  ⟨successive_run hash (sound_genesis start) (successive_genesis start) heavier,
    (ruled_run hash (sound_genesis start) (ruled_genesis start).1 events).chain⟩

/-- When a response arrives: what has happened to the peer before it has answered, what has happened
to the node, and the clock of the node. -/
structure Moment where
  served : List Event
  own : List Event
  now : ℤ

def Moment.round (peer node : NodeInternals) (moment : Moment) : Round :=
  ⟨((idle peer).run moment.served).chain, ((idle node).run moment.own).chain, moment.now⟩

end Synchronization

end

section Examples
open Synchronization NodeInternals

attribute [local instance] sharedExternals

theorem sharedExternals_hashed (text : String) : Externals.hash text ≠ "" := by
  show "#" ++ text ≠ ""
  simp

theorem miner_length : 1 < ((idle minerStart).run minerEvents).chain.length := by
  decide +kernel

def listenerMoment : Moment := ⟨minerEvents, [], 100100⟩

end Examples
end Publiq
