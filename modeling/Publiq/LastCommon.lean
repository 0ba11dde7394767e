import Publiq.HeaderSync

/-! The search for the last common block: whatever a peer answers to a header session, the
headers that the session completes with stand on the highest block of this chain that the
headers received extend. -/
namespace Publiq
open Message Checked

section
variable [Externals]

/-- A response to a header session, with the chain and the clock that it finds here. -/
structure HeaderResponse where
  chain : Blockchain
  now : ℤ
  headers : List BlockHeaderExtended

/-- A header session that has asked for more after every response. -/
inductive HeaderSession.Waiting (started : HeaderSession) :
    List HeaderResponse → HeaderSession → Prop
  | start : Waiting started [] started
  | response {responses : List HeaderResponse} {session after : HeaderSession}
      {response : HeaderResponse} (before : Waiting started responses session)
      (more : session.processResponse response.chain response.now response.headers =
        .ok (.waiting after)) :
      Waiting started (responses ++ [response]) after

def receivedHeaders (responses : List HeaderResponse) : List BlockHeaderExtended :=
  responses.flatMap HeaderResponse.headers

section
variable {session : HeaderSession}

theorem HeaderSession.Waiting.kept {started : HeaderSession} {responses : List HeaderResponse}
    (waiting : started.Waiting responses session) :
    session.promisedHeader = started.promisedHeader ∧
      session.syncHeaders = started.syncHeaders ++ receivedHeaders responses := by
  induction waiting with
  | start => exact ⟨rfl, (List.append_nil _).symm⟩
  | response before more ih =>
      obtain ⟨_, _, ⟨_, _, _, houtcome⟩ | ⟨_, _, _, _, houtcome, hpromised, hheaders, _⟩⟩ :=
        processResponse_cases more
      · cases houtcome
      · cases houtcome
        refine ⟨hpromised.trans ih.1, ?_⟩
        rw [hheaders, ih.2, receivedHeaders, receivedHeaders, List.flatMap_append,
          List.append_assoc, List.flatMap_singleton]

end

omit [Externals] in
theorem checkReceived_numbers {now : ℤ} {promised : BlockHeaderExtended}
    {headers : List BlockHeaderExtended} (h : checkReceived now promised headers = .ok ())
    {i : ℕ} {header : BlockHeaderExtended} (hi : headers[i]? = some header) :
    header.blockNumber.toNat + i = promised.blockNumber.toNat := by
  obtain ⟨hfront, lowest, hlowest, hcount, hchain⟩ := checkReceived_spec h
  rw [List.isChain_reverse] at hchain
  induction i generalizing header with
  | zero =>
      rw [List.head?_eq_getElem?, hi] at hfront
      cases hfront
      rfl
  | succ i ih =>
      obtain ⟨hlt, hget⟩ := List.getElem?_eq_some_iff.mp hi
      have hbefore := ih (List.getElem?_eq_getElem (Nat.lt_of_succ_lt hlt))
      have hnext := (next_iff.mp (List.isChain_iff_getElem.mp hchain i hlt)).1
      rw [hget] at hnext
      rw [hnext, UInt64.toNat_add] at hbefore
      change (header.blockNumber.toNat + 1) % 2 ^ 64 + i = _ at hbefore
      have hword := header.blockNumber.toNat_lt
      omega

/-- The header of a number refers to the block before it on this chain. -/
def Extends (chain : Blockchain) (header : BlockHeaderExtended) (number : ℕ) : Prop :=
  header.blockNumber.toNat = number + 1 ∧ ∃ signedBlock,
    chain.blocks[number]? = some signedBlock ∧
      header.prevHash = blockHash signedBlock.blockDetails

section
variable {chain : Blockchain} {headers kept : List BlockHeaderExtended}
  {header : BlockHeaderExtended} {number : ℕ}

/-- The scan does not pass over a header that extends this chain. -/
theorem meetsChain_of_extends (hashed : ∀ text, Externals.hash text ≠ "")
    (linked : chain.Linked) (extends_ : Extends chain header number) :
    meetsChain chain header = true := by
  obtain ⟨hnumber, signedBlock, hat, hprev⟩ := extends_
  obtain ⟨hlt, hget⟩ := List.getElem?_eq_some_iff.mp hat
  have hknown : knownPrevHash chain (number + 1) = some (blockHash signedBlock.blockDetails) := by
    unfold knownPrevHash
    split_ifs with htip
    · have hlast : chain.lastBlock = signedBlock := by
        rw [Blockchain.lastBlock, List.getLast_eq_getElem, ← hget]
        congr 1
        rw [Blockchain.length] at htip
        omega
      rw [Blockchain.lastHash, hlast]
    · have hnext : number + 1 < chain.blocks.length := by
        rw [Blockchain.length] at htip
        omega
      have hfollows := List.isChain_iff_getElem.mp linked number hnext
      rw [hget] at hfollows
      rw [List.getElem?_eq_getElem hnext, Option.map_some, hfollows]
  unfold meetsChain
  rw [hnumber, hknown, hprev]
  have hhash : blockHash signedBlock.blockDetails ≠ "" := hashed _
  simpa using hhash

theorem cutAtCommon_first (h : cutAtCommon chain headers = some kept) {i : ℕ}
    (hi : headers[i]? = some header) (meets : meetsChain chain header = true) :
    kept.length ≤ i + 1 := by
  induction headers generalizing kept i with
  | nil => cases h
  | cons first rest ih =>
      rw [cutAtCommon] at h
      split_ifs at h with hfirst
      · cases h
        simp
      · obtain ⟨tail, htail, rfl⟩ := Option.map_eq_some_iff.mp h
        cases i with
        | zero =>
            cases hi
            exact absurd meets hfirst
        | succ i =>
            have hlength := ih htail hi
            rw [List.length_cons]
            omega

theorem checkAgainstCommon_extends (linked : chain.Linked)
    (h : checkAgainstCommon chain headers = .ok ()) :
    ∃ lowest, headers.getLast? = some lowest ∧
      Extends chain lowest (lowest.blockNumber.toNat - 1) := by
  obtain ⟨back, base, hback, hat, hnext⟩ := checkAgainstCommon_next linked h
  refine ⟨back, hback, ?_, base, hat, (next_iff.mp hnext).2.2.2.2.1⟩
  unfold checkAgainstCommon at h
  simp only [hback] at h
  obtain ⟨hnumber, _⟩ := require_bind_ok_iff.mp h
  have hpos : back.blockNumber.toNat ≠ 0 := fun hzero => hnumber (UInt64.toNat_inj.mp hzero)
  omega

end

/-- What a header session has to complete with: the headers received from the promised one
down to the one above the highest common block. -/
structure OnCommon (chain : Blockchain) (promised : BlockHeaderExtended)
    (received headers : List BlockHeaderExtended) (common : ℕ) : Prop where
  initial : headers <+: received
  head : headers.head? = some promised
  numbers : ∀ i header, headers[i]? = some header →
    header.blockNumber.toNat + i = promised.blockNumber.toNat
  contiguous : headers.reverse.IsChain Next
  lowest : ∃ lowest, headers.getLast? = some lowest ∧ Extends chain lowest common
  highest : ∀ header ∈ received, ∀ number, Extends chain header number → number ≤ common

section
variable {session : HeaderSession} {chain : Blockchain} {now : ℤ}
  {response headers : List BlockHeaderExtended}

theorem onCommon_of_completed (hashed : ∀ text, Externals.hash text ≠ "")
    (linked : chain.Linked)
    (h : session.processResponse chain now response = .ok (.completed headers)) :
    ∃ common, OnCommon chain session.promisedHeader (session.syncHeaders ++ response) headers
      common := by
  obtain ⟨_, hcheck, ⟨_, hcut, hcommon, houtcome⟩ | ⟨_, _, _, _, houtcome, _⟩⟩ :=
    HeaderSession.processResponse_cases h
  · cases houtcome
    obtain ⟨hfront, _, _, _, hchain⟩ := checkReceived_spec hcheck
    obtain ⟨hne, hinitial⟩ := cutAtCommon_initial hcut
    obtain ⟨lowest, hlowest, hextends⟩ := checkAgainstCommon_extends linked hcommon
    have hplace : ∀ (i : ℕ) (header : BlockHeaderExtended), headers[i]? = some header →
        (session.syncHeaders ++ response)[i]? = some header := by
      intro i header hi
      obtain ⟨rest, hrest⟩ := hinitial
      rw [← hrest, List.getElem?_append_left (List.getElem?_eq_some_iff.mp hi).1]
      exact hi
    have hnumbers : ∀ (i : ℕ) (header : BlockHeaderExtended), headers[i]? = some header →
        header.blockNumber.toNat + i = session.promisedHeader.blockNumber.toNat :=
      fun i header hi => checkReceived_numbers hcheck (hplace i header hi)
    refine ⟨_, hinitial, ?_, hnumbers, ?_, ⟨lowest, hlowest, hextends⟩, ?_⟩
    · obtain ⟨first, hfirst⟩ := Option.ne_none_iff_exists'.mp (mt List.head?_eq_none_iff.mp hne)
      rw [List.head?_eq_getElem?] at hfirst hfront ⊢
      rw [hfirst, ← hplace 0 first hfirst, hfront]
    · exact hchain.suffix (List.reverse_suffix.mpr hinitial)
    · intro header hmem number hheader
      obtain ⟨i, hi⟩ := List.mem_iff_getElem?.mp hmem
      have hlength := cutAtCommon_first hcut hi (meetsChain_of_extends hashed linked hheader)
      have hnumber := checkReceived_numbers hcheck hi
      rw [List.getLast?_eq_getElem?] at hlowest
      have hbottom := hnumbers _ lowest hlowest
      have habove := hheader.1
      omega
  · cases houtcome

/-- Below the genesis block there is nothing to send. -/
theorem refused_below_genesis (chain : Blockchain) (now : ℤ)
    (response : List BlockHeaderExtended) {lowest : BlockHeaderExtended}
    (hlowest : session.syncHeaders.getLast? = some lowest) (hzero : lowest.blockNumber = 0) :
    ∃ e, session.processResponse chain now response = .error e := by
  cases h : session.processResponse chain now response with
  | error e => exact ⟨e, rfl⟩
  | ok outcome =>
      obtain ⟨hne, hcheck, _⟩ := HeaderSession.processResponse_cases h
      obtain ⟨next, hnext⟩ := Option.ne_none_iff_exists'.mp (mt List.head?_eq_none_iff.mp hne)
      rw [List.getLast?_eq_getElem?] at hlowest
      rw [List.head?_eq_getElem?] at hnext
      have hlast := (List.getElem?_eq_some_iff.mp hlowest).1
      have hbottom := checkReceived_numbers hcheck
        ((List.getElem?_append_left hlast).trans hlowest)
      have hbelow : (session.syncHeaders ++ response)[session.syncHeaders.length]? =
          some next := by
        rw [List.getElem?_append_right le_rfl, Nat.sub_self, hnext]
      have hover := checkReceived_numbers hcheck hbelow
      have hnone : lowest.blockNumber.toNat = 0 := UInt64.toNat_inj.mpr hzero
      omega

/-- Whatever a peer has answered, a header session completes only with the headers above the
highest block of the chain that they extend; of headers that extend none it never does, and
once they have come down to number zero it refuses every further response. -/
theorem headerSession_common (hashed : ∀ text, Externals.hash text ≠ "")
    {begun : Blockchain} {promised : BlockHeaderExtended} {responses : List HeaderResponse}
    (waiting : (HeaderSession.start begun promised).Waiting responses session)
    (linked : chain.Linked) :
    (∀ headers, session.processResponse chain now response = .ok (.completed headers) →
      ∃ common, OnCommon chain promised (receivedHeaders responses ++ response) headers common) ∧
    ((∀ header ∈ receivedHeaders responses ++ response, ∀ number,
        ¬ Extends chain header number) →
      ∀ headers, session.processResponse chain now response ≠ .ok (.completed headers)) ∧
    ∀ lowest, (receivedHeaders responses).getLast? = some lowest → lowest.blockNumber = 0 →
      ∃ e, session.processResponse chain now response = .error e := by
  obtain ⟨hpromised, hreceived⟩ := waiting.kept
  have hreceived : session.syncHeaders = receivedHeaders responses := hreceived
  have hcommon : ∀ headers,
      session.processResponse chain now response = .ok (.completed headers) →
      ∃ common, OnCommon chain promised (receivedHeaders responses ++ response) headers
        common := by
    intro headers h
    have honCommon := onCommon_of_completed hashed linked h
    rwa [hpromised, hreceived] at honCommon
  refine ⟨hcommon, ?_, ?_⟩
  · intro hnone headers h
    obtain ⟨common, onCommon⟩ := hcommon headers h
    obtain ⟨lowest, hlowest, hextends⟩ := onCommon.lowest
    exact hnone lowest (onCommon.initial.subset (List.mem_of_getLast? hlowest)) common hextends
  · intro lowest hlowest hzero
    rw [← hreceived] at hlowest
    exact refused_below_genesis chain now response hlowest hzero

end

end

section Examples

local instance commonExternals : Externals := { plainExternals with hash _ := "#" }

theorem commonExternals_hashed (text : String) : Externals.hash text ≠ "" :=
  show "#" ≠ "" by decide

def commonGenesis : SignedBlock := ⟨⟨⟨0, 0, 0, 1, "", 0⟩, [], []⟩, ⟨"genesis", ""⟩⟩

theorem commonGenesis_isOk : (Blockchain.start commonGenesis).isOk = true := by
  decide

def commonChain : Blockchain := okValue _ commonGenesis_isOk

def lowerHeader : BlockHeaderExtended where
  blockNumber := 1
  delta := 1
  cSum := 1
  cConst := 1
  prevHash := "#"
  timeSigned := 600
  blockHash := "lower"

def upperHeader : BlockHeaderExtended where
  blockNumber := 2
  delta := 1
  cSum := 2
  cConst := 1
  prevHash := "lower"
  timeSigned := 1200
  blockHash := "upper"

/-- Two headers in two responses, above the genesis block. -/
theorem headerSession_common_upper :
    ∃ common, OnCommon commonChain upperHeader [upperHeader, lowerHeader]
      [upperHeader, lowerHeader] common := by
  have more : (HeaderSession.start commonChain upperHeader).processResponse commonChain 1300
      [upperHeader] = .ok (.waiting ⟨1, 0, upperHeader, [upperHeader]⟩) := by
    decide +kernel
  have completes : HeaderSession.processResponse commonChain 1300 [lowerHeader]
      ⟨1, 0, upperHeader, [upperHeader]⟩ = .ok (.completed [upperHeader, lowerHeader]) := by
    decide +kernel
  have waiting : (HeaderSession.start commonChain upperHeader).Waiting
      [⟨commonChain, 1300, [upperHeader]⟩] ⟨1, 0, upperHeader, [upperHeader]⟩ :=
    .response .start more
  have linked : commonChain.Linked := List.IsChain.singleton commonGenesis
  exact (headerSession_common commonExternals_hashed waiting linked).1 _ completes

end Examples
end Publiq
