import Publiq.Workers
import Publiq.CoinExactness
import Publiq.Foundation.Highest
import Mathlib.Algebra.Order.BigOperators.Group.List

/-! The votes that `block_worker` keeps, one for each IP address, and how it counts them. -/
namespace Publiq
open Message Checked

/-- `SYNC_TIMER`, in seconds. -/
def syncTimer : ℕ := 30

/-- `vote_info` with the reading of the steady clock, in nanoseconds, when it was cast. -/
structure TimedVote extends VoteInfo where
  tp : ℤ
  deriving DecidableEq

/-- `m_votes`. -/
abbrev VoteTable := Std.ExtTreeMap String TimedVote

/-- What `m_votes[address]` creates. -/
def TimedVote.initial : TimedVote := ⟨⟨0, ""⟩, 0⟩

/-- One run of `block_worker`: the node with the addresses that it knows, what its peers have
answered, in any order, and the steady clock. -/
structure Polling where
  synchronization : Synchronization
  /-- The connected peers with their remote addresses. -/
  peers : List (String × String)
  steadyNow : ℤ
  responses : List (String × SyncResponse)
  listed : responses.Perm synchronization.syncResponses.toList

namespace Polling

/-- `map_nodeid_ip_address`: the peers, then the fresh public addresses of other nodes. -/
def addresses (p : Polling) : Std.ExtTreeMap String String :=
  let ofPeers := p.peers.foldl (fun found (peer, address) => found.insert peer address) ∅
  (p.synchronization.node.ctx.addresses.takeWhile fun info =>
      info.secondsSinceChecked ≤ publicAddressFreshThreshholdSeconds).foldl
    (fun found info =>
      if info.nodeAddress ∈ p.peers.map Prod.fst then found
      else found.insert info.nodeAddress info.ipAddress) ofPeers

def unexpired (p : Polling) (votes : VoteTable) : VoteTable :=
  votes.filter fun _ vote => p.steadyNow - vote.tp < syncTimer * 2 * 1000000000

def voting (p : Polling) (response : String × SyncResponse) : VoteInfo :=
  ⟨p.synchronization.node.ledger.state.getBalance response.1 .pool,
    response.2.ownHeader.blockHash⟩

/-- Consider the response of one node: the entry of its address is created, and replaced by a
vote of more stake. -/
def cast (p : Polling) (votes : VoteTable) (response : String × SyncResponse) : VoteTable :=
  match p.addresses[response.1]? with
  | none => votes
  | some address =>
      let replacing := votes[address]?.getD .initial
      let voting := p.voting response
      votes.insert address (if replacing.stake.lt voting.stake then ⟨voting, p.steadyNow⟩
        else replacing)

/-- The votes after the first half of `block_worker`. -/
def update (p : Polling) (votes : VoteTable) : VoteTable :=
  p.responses.foldl p.cast (p.unexpired votes)

def reports (p : Polling) (address : String) : List VoteInfo :=
  (p.responses.filter fun response => p.addresses[response.1]? = some address).map p.voting

end Polling

/-- `m_votes` after some runs of `block_worker`, the last one first. -/
def voteTable : List Polling → VoteTable
  | [] => ∅
  | p :: earlier => p.update (voteTable earlier)

def lastReports : List Polling → String → List VoteInfo
  | [], _ => []
  | p :: earlier, address =>
      if p.reports address = [] then lastReports earlier address else p.reports address

def VoteInfo.rank (vote : VoteInfo) : ℕ := vote.stake.value

namespace Polling
variable {p : Polling} {votes : VoteTable} {address : String}

/-- The entry of an address after the responses: its reports, each against the one found. -/
theorem foldl_cast (p : Polling) (responses : List (String × SyncResponse)) (votes : VoteTable)
    (address : String) :
    (responses.foldl p.cast votes)[address]?.map TimedVote.toVoteInfo =
      ((responses.filter fun response => p.addresses[response.1]? = some address).map
        p.voting).foldl
        (fun found next => some (keepHighest VoteInfo.rank (found.getD ⟨0, ""⟩) next))
        (votes[address]?.map TimedVote.toVoteInfo) := by
  induction responses generalizing votes with
  | nil => rfl
  | cons response rest ih =>
      rw [List.foldl_cons, ih, List.filter_cons]
      unfold cast
      cases hfound : p.addresses[response.1]? with
      | none => simp
      | some found =>
          dsimp only
          rw [Std.ExtTreeMap.getElem?_insert]
          by_cases hsame : found = address
          · subst hsame
            have hkept : (if ((votes[found]?.getD .initial).stake.lt (p.voting response).stake) = true
                then (⟨p.voting response, p.steadyNow⟩ : TimedVote)
                else votes[found]?.getD .initial).toVoteInfo =
                keepHighest VoteInfo.rank ((votes[found]?.map TimedVote.toVoteInfo).getD ⟨0, ""⟩)
                  (p.voting response) := by
              have hstored : (votes[found]?.map TimedVote.toVoteInfo).getD ⟨0, ""⟩ =
                  (votes[found]?.getD .initial).toVoteInfo := by
                cases votes[found]? <;> rfl
              rw [hstored, keepHighest, VoteInfo.rank, VoteInfo.rank]
              simp only [Coin.lt_iff_value]
              split_ifs <;> rfl
            rw [if_pos Std.ReflOrd.compare_self, Option.map_some, hkept, if_pos (by simp),
              List.map_cons, List.foldl_cons]
          · have hother : compare found address ≠ .eq := by
              rwa [ne_eq, Std.compare_eq_iff_eq]
            simp [hother, hsame]

/-- What the vote of an address is before the responses: the one kept or the one created. -/
def found (p : Polling) (votes : VoteTable) (address : String) : VoteInfo :=
  ((p.unexpired votes)[address]?.getD .initial).toVoteInfo

theorem update_getElem? (p : Polling) (votes : VoteTable) (address : String) :
    (p.update votes)[address]?.map TimedVote.toVoteInfo =
      if p.reports address = [] then (p.unexpired votes)[address]?.map TimedVote.toVoteInfo
      else some ((p.reports address).foldl (keepHighest VoteInfo.rank) (p.found votes address)) := by
  have hfound : ((p.unexpired votes)[address]?.map TimedVote.toVoteInfo).getD ⟨0, ""⟩ =
      p.found votes address := by
    unfold found
    cases (p.unexpired votes)[address]? <;> rfl
  rw [update, foldl_cast, foldl_keepHighest_option, hfound]
  rfl

/-- At every address with a report, a report has more stake than the vote found there, or that
vote is already what the node of the highest stake reports. -/
def Settles (p : Polling) (votes : VoteTable) : Prop :=
  ∀ address, p.reports address ≠ [] →
    (∃ vote ∈ p.reports address, (p.found votes address).rank < vote.rank) ∨
      Highest VoteInfo.rank (p.reports address) (p.found votes address)

end Polling

def RealVotes (history : List Polling) : Prop :=
  ∀ address vote, (voteTable history)[address]? = some vote →
    Highest VoteInfo.rank (lastReports history address) vote.toVoteInfo

theorem realVotes_nil : RealVotes [] := by
  intro address vote h
  rw [voteTable, Std.ExtTreeMap.getElem?_empty] at h
  cases h

/-- One run of `block_worker` keeps the votes real exactly when it settles them. -/
theorem realVotes_cons_iff {p : Polling} {earlier : List Polling} (real : RealVotes earlier) :
    RealVotes (p :: earlier) ↔ p.Settles (voteTable earlier) := by
  constructor
  · intro h address hreports
    have hentry := p.update_getElem? (voteTable earlier) address
    rw [if_neg hreports] at hentry
    obtain ⟨vote, hvote, hinfo⟩ := Option.map_eq_some_iff.mp hentry
    have hhighest := h address vote hvote
    rw [lastReports, if_neg hreports, hinfo] at hhighest
    exact (highest_foldl_iff _ _ _).mp hhighest
  · intro settles address vote hvote
    have hentry := p.update_getElem? (voteTable earlier) address
    rw [← voteTable, hvote, Option.map_some] at hentry
    rw [lastReports]
    by_cases hreports : p.reports address = []
    · rw [if_pos hreports] at hentry ⊢
      obtain ⟨before, hbefore, hinfo⟩ := Option.map_eq_some_iff.mp hentry.symm
      rw [Polling.unexpired, Std.ExtTreeMap.getElem?_filter', Option.filter_eq_some_iff]
        at hbefore
      rw [← hinfo]
      exact real address before hbefore.1
    · rw [if_neg hreports] at hentry ⊢
      rw [Option.some.inj hentry]
      exact (highest_foldl_iff _ _ _).mpr (settles address hreports)

theorem vote_of_report {p : Polling} {earlier : List Polling} {address : String}
    (h : p.reports address ≠ []) : ∃ vote, (voteTable (p :: earlier))[address]? = some vote := by
  have hentry := p.update_getElem? (voteTable earlier) address
  rw [if_neg h] at hentry
  obtain ⟨vote, hvote, _⟩ := Option.map_eq_some_iff.mp hentry
  exact ⟨vote, hvote⟩

def VoteInfo.weight (vote : VoteInfo) : ℕ := vote.stake.value + fractionsInWhole

/-- `sum_stake`. -/
def stakeSum (votes : List VoteInfo) : Coin :=
  votes.foldl (fun sum vote => sum + (vote.stake + voteBase)) 0

theorem value_stake_add_voteBase (vote : VoteInfo) :
    (vote.stake + voteBase).value = vote.weight % Coin.limit := by
  have hbase : voteBase.value = fractionsInWhole := by
    rw [Coin.value_eq]
    rfl
  rw [Coin.value_add_mod, hbase, VoteInfo.weight]

theorem foldl_weigh (through : VoteInfo → Prop) [DecidablePred through] (votes : List VoteInfo)
    (sum : Coin) :
    (votes.foldl (fun sum vote => if through vote then sum + (vote.stake + voteBase) else sum)
      sum).value =
      (sum.value + ((votes.filter fun vote => through vote).map VoteInfo.weight).sum) %
        Coin.limit := by
  induction votes generalizing sum with
  | nil => exact (Nat.mod_eq_of_lt sum.value_bound).symm
  | cons vote rest ih =>
      rw [List.foldl_cons, ih, List.filter_cons]
      by_cases h : through vote
      · simp only [h, if_true, decide_true, List.map_cons, List.sum_cons]
        rw [Coin.value_add_mod, value_stake_add_voteBase, Nat.add_mod_mod, Nat.mod_add_mod,
          Nat.add_assoc]
      · simp only [h, if_false, decide_false, Bool.false_eq_true]

theorem stakeSum_value (votes : List VoteInfo) :
    (stakeSum votes).value = (votes.map VoteInfo.weight).sum % Coin.limit := by
  have h := foldl_weigh (fun _ => True) votes 0
  simpa [stakeSum] using h

theorem approval_value (votes : List VoteInfo) (blockHash : String) :
    (approval votes blockHash).value =
      ((votes.filter fun vote => vote.blockHash = blockHash).map VoteInfo.weight).sum %
        Coin.limit := by
  have h := foldl_weigh (fun vote => vote.blockHash = blockHash) votes 0
  rwa [Coin.value_zero, Nat.zero_add] at h

/-- Votes for two blocks weigh no more than all votes. -/
theorem weights_disjoint (votes : List VoteInfo) {first second : String} (h : first ≠ second) :
    ((votes.filter fun vote => vote.blockHash = first).map VoteInfo.weight).sum +
      ((votes.filter fun vote => vote.blockHash = second).map VoteInfo.weight).sum ≤
      (votes.map VoteInfo.weight).sum := by
  induction votes with
  | nil => rfl
  | cons vote rest ih =>
      rw [List.filter_cons, List.filter_cons, List.map_cons, List.sum_cons]
      by_cases hfirst : vote.blockHash = first
      · have hsecond : vote.blockHash ≠ second := fun hs => h (hfirst.symm.trans hs)
        simp only [hfirst, h, decide_true, decide_false, if_true, Bool.false_eq_true, if_false,
          List.map_cons, List.sum_cons]
        omega
      · simp only [hfirst, decide_false, Bool.false_eq_true, if_false]
        split_ifs
        · rw [List.map_cons, List.sum_cons]
          omega
        · omega

theorem weight_le (votes : List VoteInfo) (blockHash : String) :
    ((votes.filter fun vote => vote.blockHash = blockHash).map VoteInfo.weight).sum ≤
      (votes.map VoteInfo.weight).sum :=
  (List.filter_sublist.map VoteInfo.weight).sum_le_sum fun _ _ => Nat.zero_le _

/-- Every vote weighs its stake and one coin, what does not approve of a block can be taken
from the sum, and at most one block has more votes for it than against it. -/
structure FairCount (votes : List VoteInfo) : Prop where
  sum : (stakeSum votes).value = (votes.map VoteInfo.weight).sum
  approvals : ∀ blockHash, (approval votes blockHash).value =
    ((votes.filter fun vote => vote.blockHash = blockHash).map VoteInfo.weight).sum
  rejects : ∀ blockHash, ∃ reject, (stakeSum votes).sub (approval votes blockHash) = .ok reject
  majority : ∀ first second firstReject secondReject,
    (stakeSum votes).sub (approval votes first) = .ok firstReject →
    (stakeSum votes).sub (approval votes second) = .ok secondReject →
    firstReject.lt (approval votes first) → secondReject.lt (approval votes second) →
    first = second

theorem fairCount_iff {votes : List VoteInfo} :
    FairCount votes ↔ (votes.map VoteInfo.weight).sum < Coin.limit := by
  constructor
  · intro fair
    rw [← fair.sum]
    exact (stakeSum votes).value_bound
  · intro hfits
    have hsum : (stakeSum votes).value = (votes.map VoteInfo.weight).sum := by
      rw [stakeSum_value, Nat.mod_eq_of_lt hfits]
    have happrove : ∀ blockHash, (approval votes blockHash).value =
        ((votes.filter fun vote => vote.blockHash = blockHash).map VoteInfo.weight).sum := by
      intro blockHash
      rw [approval_value, Nat.mod_eq_of_lt ((weight_le votes blockHash).trans_lt hfits)]
    refine ⟨hsum, happrove, ?_, ?_⟩
    · intro blockHash
      obtain ⟨reject, hreject, _⟩ := Coin.sub_total (a := stakeSum votes)
        (b := approval votes blockHash) (by rw [hsum, happrove]; exact weight_le votes blockHash)
      exact ⟨reject, hreject⟩
    · intro first second firstReject secondReject hfirst hsecond hfor hfor'
      by_contra hne
      have hdisjoint := weights_disjoint votes hne
      rw [← happrove, ← happrove, ← hsum] at hdisjoint
      have hagainst := Coin.value_sub hfirst
      have hagainst' := Coin.value_sub hsecond
      rw [Coin.lt_iff_value] at hfor hfor'
      omega

theorem filterMap_zip_map {α β : Type} (keys : List α) (f : α → β) (keep : α → β → Prop)
    [∀ a b, Decidable (keep a b)] :
    ((keys.zip (keys.map f)).filterMap fun entry =>
      if keep entry.1 entry.2 then some entry.1 else none) =
      keys.filter fun key => keep key (f key) := by
  induction keys with
  | nil => rfl
  | cons key rest ih =>
      rw [List.map_cons, List.zip_cons_cons, List.filterMap_cons, List.filter_cons, ih]
      by_cases h : keep key (f key)
      · simp [h]
      · simp [h]

theorem length_le_one_of_nodup {α : Type} {values : List α} (nodup : values.Nodup)
    (same : ∀ a ∈ values, ∀ b ∈ values, a = b) : values.length ≤ 1 := by
  match values with
  | [] => exact Nat.zero_le 1
  | [_] => exact le_rfl
  | a :: b :: rest =>
      have hab := same a List.mem_cons_self b (List.mem_cons_of_mem a List.mem_cons_self)
      exact absurd (hab ▸ List.mem_cons_self) (List.nodup_cons.mp nodup).1

/-- The votes of a fair count are counted, and at most one block wins with them. -/
theorem countVotes_fair {votes : List VoteInfo} {own : VoteInfo} (fair : FairCount (votes ++ [own]))
    (testnet : Bool) (peerCount : ℕ) :
    ∃ poll, countVotes testnet peerCount votes own = .ok poll ∧ poll.winners.length ≤ 1 := by
  let against (blockHash : String) : Coin :=
    ((stakeSum (votes ++ [own])).sub (approval (votes ++ [own]) blockHash)).toOption.getD 0
  have hagainst : ∀ blockHash,
      (stakeSum (votes ++ [own])).sub (approval (votes ++ [own]) blockHash) =
        .ok (against blockHash) := by
    intro blockHash
    obtain ⟨reject, hreject⟩ := fair.rejects blockHash
    simp only [against, hreject]
    rfl
  let hashes := ((votes ++ [own]).map VoteInfo.blockHash).dedup
  have hrejects : (hashes.mapM fun blockHash =>
      (stakeSum (votes ++ [own])).sub (approval (votes ++ [own]) blockHash)) =
        .ok (hashes.map against) :=
    mapM_of_ok fun blockHash _ => hagainst blockHash
  unfold countVotes
  dsimp only
  change ∃ poll, (hashes.mapM (fun blockHash =>
    (stakeSum (votes ++ [own])).sub (approval (votes ++ [own]) blockHash)) >>= _) = _ ∧ _
  rw [hrejects, ok_bind]
  refine ⟨_, rfl, ?_⟩
  dsimp only
  have hwinners := filterMap_zip_map hashes against fun blockHash reject =>
    reject.lt (approval (votes ++ [own]) blockHash) = true ∧
      max 2 (peerCount / 3) < votes.length ∧
      (if testnet = true then 1 else max 2 (peerCount / 4)) <
        votes.countP fun vote => vote.stake ≠ 0
  rw [hwinners]
  apply length_le_one_of_nodup ((List.nodup_dedup _).filter _)
  intro first hfirst second hsecond
  have hfor := (decide_eq_true_iff.mp (List.mem_filter.mp hfirst).2).1
  have hfor' := (decide_eq_true_iff.mp (List.mem_filter.mp hsecond).2).1
  exact fair.majority first second _ _ (hagainst first) (hagainst second) hfor hfor'

section
variable [Externals]

def Polling.own (p : Polling) : VoteInfo :=
  ⟨p.synchronization.node.ledger.state.getBalance p.synchronization.node.ctx.own .pool,
    p.synchronization.chain.lastHash⟩

/-- The votes of the table, which `blockWorker` counts together with the own one. -/
def voteInfos (votes : VoteTable) : List VoteInfo :=
  votes.toList.map fun entry => entry.2.toVoteInfo

def Polling.ballot (p : Polling) (votes : VoteTable) : List VoteInfo := voteInfos votes ++ [p.own]

/-- What a run of `block_worker` has to make of the votes. -/
structure RealPoll (p : Polling) (earlier : List Polling) : Prop where
  real : RealVotes (p :: earlier)
  included : ∀ address, p.reports address ≠ [] →
    ∃ vote, (voteTable (p :: earlier))[address]? = some vote
  fair : FairCount (p.ballot (voteTable (p :: earlier)))
  winner : ∀ testnet peerCount, ∃ poll,
    countVotes testnet peerCount (voteInfos (voteTable (p :: earlier))) p.own = .ok poll ∧
      poll.winners.length ≤ 1

/-- All along a history the votes are real and counted fairly exactly when every run settles
them and the weights stay below 2^64 coins. -/
theorem votes_real_iff (history : List Polling) :
    (∀ p earlier, p :: earlier <:+ history → RealPoll p earlier) ↔
      ∀ p earlier, p :: earlier <:+ history → p.Settles (voteTable earlier) ∧
        ((p.ballot (voteTable (p :: earlier))).map VoteInfo.weight).sum < Coin.limit := by
  constructor
  · intro h p earlier hsuffix
    have hpoll := h p earlier hsuffix
    refine ⟨(realVotes_cons_iff ?_).mp hpoll.real, fairCount_iff.mp hpoll.fair⟩
    cases earlier with
    | nil => exact realVotes_nil
    | cons before rest =>
        exact (h before rest ((List.suffix_cons p (before :: rest)).trans hsuffix)).real
  · intro h
    have hreal : ∀ later, later <:+ history → RealVotes later := by
      intro later
      induction later with
      | nil => exact fun _ => realVotes_nil
      | cons p earlier ih =>
          intro hsuffix
          have hbefore := ih ((List.suffix_cons p earlier).trans hsuffix)
          exact (realVotes_cons_iff hbefore).mpr (h p earlier hsuffix).1
    intro p earlier hsuffix
    have fair := fairCount_iff.mpr (h p earlier hsuffix).2
    exact ⟨hreal _ hsuffix, fun address => vote_of_report, fair, countVotes_fair fair⟩

end

section Examples

local instance pollingExternals : Externals := plainExternals

/-- A head that a peer without stake reports. -/
def reportedHead : BlockHeaderExtended where
  blockNumber := 1
  delta := 1
  cSum := 1
  cConst := 1
  prevHash := ""
  timeSigned := 600
  blockHash := "head"

def pollingNode : NodeInternals where
  ctx := exampleNode "own" .blockchain
  ledger := default
  actionLog := ActionLog.loaded [] false
  transactionPool := []
  transactionCache := ∅
  storageController := ∅
  freezeBeforeBlock := 0

def reportedResponses : Std.ExtTreeMap String SyncResponse :=
  (∅ : Std.ExtTreeMap String SyncResponse).insert "peer" ⟨reportedHead, reportedHead⟩

def stakelessPolling : Polling where
  synchronization := ⟨pollingNode, reportedResponses, ∅, ∅, none⟩
  peers := [("peer", "192.0.2.1")]
  steadyNow := 100000000000
  responses := [("peer", ⟨reportedHead, reportedHead⟩)]
  listed := by decide +kernel

/-- The vote of a node without stake is for no block at all. -/
theorem stakeless_vote_empty :
    ¬ ∀ [Externals] (history : List Polling) (p : Polling) (earlier : List Polling),
      p :: earlier <:+ history → RealPoll p earlier := by
  intro claim
  have hpoll := claim [stakelessPolling] stakelessPolling [] List.suffix_rfl
  have hvote : (voteTable [stakelessPolling])["192.0.2.1"]? = some .initial := by
    decide +kernel
  have hreports : lastReports [stakelessPolling] "192.0.2.1" = [⟨0, "head"⟩] := by
    decide +kernel
  have hhighest := hpoll.real "192.0.2.1" .initial hvote
  rw [hreports] at hhighest
  exact absurd hhighest.1 (by decide)

end Examples
end Publiq
