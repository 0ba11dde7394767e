import Publiq.NodeSteps
import Publiq.ShareSums

/-! Who has mined a block. The header does not say, so `get_miner` takes the receiver of the
miner reward, or the signer where nothing was left for a reward. -/
namespace Publiq
open Message Checked

theorem raiseUnitViews_isEmpty (serving : String) (views : OwnerViews) (counts : UnitViews) :
    raiseUnitViews serving views counts = ∅ ↔
      counts = ∅ ∧ (views.toList.flatMap fun byContent => byContent.2.toList) = [] := by
  unfold raiseUnitViews
  induction views.toList.flatMap fun byContent => byContent.2.toList using List.reverseRecOn with
  | nil => simp
  | append_singleton others last _ =>
      rw [List.foldl_append]
      constructor
      · intro h
        have hmem := congrArg (fun counts : UnitViews => last.1 ∈ counts) h
        simp at hmem
      · rintro ⟨_, h⟩
        simp at h

theorem ownerViews_units {docs : Documents} {rows : List StatisticsRow} (some_row : rows ≠ []) :
    ((ownerViews docs rows).toList.flatMap fun byContent => byContent.2.toList) ≠ [] := by
  obtain ⟨row, hrow⟩ := List.exists_mem_of_ne_nil rows some_row
  rw [ownerViews, tabulate_toList, List.flatMap_map]
  have hcontent : row ∈ rowsOf (contentOf docs) rows (contentOf docs row) :=
    mem_rowsOf.mpr ⟨hrow, rfl⟩
  refine List.ne_nil_of_mem (a := (row.unitUri, fileViews (rowsOf StatisticsRow.unitUri
    (rowsOf (contentOf docs) rows (contentOf docs row)) row.unitUri))) ?_
  refine List.mem_flatMap.mpr ⟨contentOf docs row, mem_keysOf.mpr ⟨row, hrow, rfl⟩, ?_⟩
  rw [unitViews, tabulate_toList]
  exact List.mem_map.mpr ⟨row.unitUri, mem_keysOf.mpr ⟨row, hcontent, rfl⟩, rfl⟩

theorem views_isEmpty (docs : Documents) (rows : List StatisticsRow) :
    (groupsOf docs rows).pairs.foldl (fun counts (serving, _, views) =>
      raiseUnitViews serving views counts) ∅ = (∅ : UnitViews) ↔ rows = [] := by
  constructor
  · intro hempty
    by_contra hsome
    have hpairs : pairRows docs rows ≠ [] := pairRows_ne_nil hsome
    rw [groupsOf_pairs, List.foldl_map] at hempty
    rw [← List.dropLast_append_getLast hpairs, List.foldl_append] at hempty
    have hlast := mem_pairRows (List.getLast_mem hpairs)
    exact ownerViews_units hlast.2 ((raiseUnitViews_isEmpty _ _ _).mp hempty).2
  · rintro rfl
    rfl

/-- What `validate_statistics` gives without any confirmed row, and what it counts with some. -/
theorem validateStatistics_views {ctx : Context} {docs : Documents}
    {channelProvided storageProvided : Provided} {blockNumber : ℕ} {validated : Validated}
    (h : validateStatistics ctx docs channelProvided storageProvided blockNumber =
      .ok validated) :
    ((reportsOf channelProvided storageProvided).verified = [] →
      validated.authorResult = [] ∧ validated.channelResult = [] ∧
        validated.storageResult = []) ∧
    (validated.unitUriViewCounts.isEmpty = true ↔
      (reportsOf channelProvided storageProvided).verified = []) := by
  obtain ⟨_, h⟩ := require_bind_ok_iff.mp h
  obtain ⟨_, h⟩ := require_bind_ok_iff.mp h
  obtain ⟨_, h⟩ := require_bind_ok_iff.mp h
  obtain ⟨hunits, h⟩ := require_bind_ok_iff.mp h
  obtain ⟨groups, hgroups, h⟩ := bind_ok_iff.mp h
  obtain ⟨authors, hauthors, h⟩ := bind_ok_iff.mp h
  have hknown : ∀ row ∈ (reportsOf channelProvided storageProvided).verified,
      ∃ unit, docs.units[row.unitUri]? = some unit := by
    intro row hrow
    rw [Option.isNone_iff_eq_none, Documents.unitsMissing, List.find?_eq_none] at hunits
    have hunit := hunits row.unitUri (List.mem_map_of_mem
      ((reportsOf channelProvided storageProvided).verified_sublist.subset hrow))
    exact unit_of_exists (by simpa using hunit)
  have hclosed : groups = groupsOf docs (reportsOf channelProvided storageProvided).verified :=
    Except.ok.inj (hgroups.symm.trans (foldlM_count hknown))
  cases pure_ok_iff.mp h
  subst hclosed
  refine ⟨fun hnone => ?_, ?_⟩
  · rw [hnone] at hauthors ⊢
    cases hauthors
    exact ⟨rfl, rfl, rfl⟩
  · rw [Std.ExtTreeMap.isEmpty_iff]
    exact views_isEmpty docs _

def ConfirmsViews (l : Ledger) (transactions : List SignedTransaction) : Prop :=
  ∃ collected, transactions.foldlM (Collected.add l) ⟨∅, ∅, []⟩ = .ok collected ∧
    (reportsOf collected.channelProvided collected.storageProvided).verified ≠ []

/-- The schedule leaves something for the miner of a block: its whole amount without any
views, else a tenth of it. -/
def LeavesMinerPart (ctx : Context) (blockNumber : ℕ) (viewed : Prop) : Prop :=
  ∃ emission, ctx.blockRewardArray[blockNumber / 50000]? = some emission ∧ emission ≠ 0 ∧
    (viewed → percentOf emission 10 ≠ .ok 0)

theorem percentOf_zero (percent : UInt64) : percentOf 0 percent = .ok 0 := by
  obtain ⟨part, hpart, _⟩ := Coin.div_ok (a := (0 : Coin).mul percent)
    (show (100 : UInt64) ≠ 0 by decide)
  have hback := (Coin.value_mul_div hpart).2.trans (Coin.value_mul_le 0 percent)
  rw [Coin.value_zero, Nat.zero_mul, show (100 : UInt64).toNat = 100 from rfl] at hback
  rw [percentOf, hpart]
  exact congrArg _ (Coin.value_injective (by rw [Coin.value_zero]; omega))

theorem splitEmission_spec {blockRewardArray : List Coin} {blockNumber : ℕ} {split : Split}
    (h : splitEmission blockRewardArray blockNumber = .ok split) :
    match blockRewardArray[blockNumber / 50000]? with
    | none => split = ⟨0, 0, 0, 0⟩
    | some emission => percentOf emission 10 = .ok split.miner ∧
        split.miner.value + split.author.value + split.channel.value + split.storage.value =
          emission.value := by
  unfold splitEmission at h
  cases hemission : blockRewardArray[blockNumber / 50000]? with
  | none =>
      rw [hemission] at h
      exact (pure_ok_iff.mp h).symm
  | some emission =>
      rw [hemission] at h
      obtain ⟨miner, hminer, h⟩ := bind_ok_iff.mp h
      obtain ⟨author, _, h⟩ := bind_ok_iff.mp h
      obtain ⟨channel, _, h⟩ := bind_ok_iff.mp h
      obtain ⟨rest, hrest, h⟩ := bind_ok_iff.mp h
      obtain ⟨rest', hrest', h⟩ := bind_ok_iff.mp h
      obtain ⟨storage, hstorage, h⟩ := bind_ok_iff.mp h
      cases pure_ok_iff.mp h
      have h1 := Coin.value_sub hrest
      have h2 := Coin.value_sub hrest'
      have h3 := Coin.value_sub hstorage
      refine ⟨hminer, ?_⟩
      change miner.value + author.value + channel.value + storage.value = emission.value
      omega

theorem splitSponsored_zero : splitSponsored 0 = .ok ⟨0, 0, 0, 0⟩ := by
  have hsub : (0 : Coin).sub 0 = .ok 0 := rfl
  rw [splitSponsored, percentOf_zero, percentOf_zero, ok_bind, ok_bind, hsub, ok_bind, hsub]
  rfl

theorem distributeRewards_nil (total : Coin) (rewardType : RewardType) :
    distributeRewards [] total rewardType = .ok ([], total) := rfl

theorem distributeRewards_rest {shares : List Share} {total returned : Coin}
    {rewardType : RewardType} {rewards : List Reward} (some_share : shares ≠ [])
    (h : distributeRewards shares total rewardType = .ok (rewards, returned)) : returned = 0 := by
  have hspec := (distributeRewards_spec h).2
  by_cases hzero : total = 0
  · rw [if_pos (.inr hzero)] at hspec
    exact hspec.2.trans hzero
  · rw [if_neg fun hnone => hnone.elim some_share hzero] at hspec
    exact hspec.2

theorem distributeRewards_type {shares : List Share} {total returned : Coin}
    {rewardType : RewardType} {rewards : List Reward}
    (h : distributeRewards shares total rewardType = .ok (rewards, returned)) :
    ∀ reward ∈ rewards, reward.rewardType = rewardType := by
  have hspec := (distributeRewards_spec h).2
  split_ifs at hspec
  · rw [hspec.1]
    exact fun reward hreward => absurd hreward List.not_mem_nil
  · exact hspec.1.type

/-- The rewards of a block are for others, and then for its miner if anything is left. -/
theorem composeRewards_spec {ctx : Context} {minerAddress : String} {blockNumber : ℕ}
    {shares : Validated} {paid returned : List SponsorPayment} {rewards : List Reward}
    (h : composeRewards ctx minerAddress blockNumber shares paid returned = .ok rewards) :
    ∃ emission sponsored authors authorRest channels channelRest storages storageRest,
      splitEmission ctx.blockRewardArray blockNumber = .ok emission ∧
      splitSponsored (sumPayments paid) = .ok sponsored ∧
      distributeRewards shares.authorResult (emission.author + sponsored.author) .author =
        .ok (authors, authorRest) ∧
      distributeRewards shares.channelResult (emission.channel + sponsored.channel) .channel =
        .ok (channels, channelRest) ∧
      distributeRewards shares.storageResult (emission.storage + sponsored.storage) .storage =
        .ok (storages, storageRest) ∧
      rewards = authors ++ channels ++ storages ++
        rewardsOf .sponsoredReturn (returnsBySponsor returned).toList ++
        (if (emission.miner + authorRest + channelRest + storageRest).isEmpty then []
          else rewardsOf .miner
            [(minerAddress, emission.miner + authorRest + channelRest + storageRest)]) := by
  obtain ⟨emission, hemission, h⟩ := bind_ok_iff.mp h
  obtain ⟨sponsored, hsponsored, h⟩ := bind_ok_iff.mp h
  obtain ⟨⟨authors, authorRest⟩, hauthors, h⟩ := bind_ok_iff.mp h
  obtain ⟨⟨channels, channelRest⟩, hchannels, h⟩ := bind_ok_iff.mp h
  obtain ⟨⟨storages, storageRest⟩, hstorages, h⟩ := bind_ok_iff.mp h
  cases pure_ok_iff.mp h
  exact ⟨emission, sponsored, authors, authorRest, channels, channelRest, storages, storageRest,
    hemission, hsponsored, hauthors, hchannels, hstorages, rfl⟩

theorem notMiner_foldlM {rewards : List Reward} (others : ∀ reward ∈ rewards,
    reward.rewardType ≠ .miner) (miner : String) :
    rewards.foldlM (fun miner reward =>
      if reward.rewardType = .miner then do
        require (miner = "") (.logicError "blockchain::get_miner: false == miner.empty()")
        pure reward.target
      else pure miner) miner = (.ok miner : Checked String) := by
  induction rewards with
  | nil => rfl
  | cons reward rest ih =>
      rw [List.forall_mem_cons] at others
      rw [List.foldlM_cons, if_neg others.1]
      exact ih others.2

theorem getMiner_of_rewards {signedBlock : SignedBlock} {others : List Reward}
    {minerAddress : String} {amount : Coin}
    (notMiner : ∀ reward ∈ others, reward.rewardType ≠ .miner)
    (hrewards : signedBlock.blockDetails.rewards = others ++
      (if amount.isEmpty then [] else rewardsOf .miner [(minerAddress, amount)])) :
    getMiner signedBlock = .ok
      (if amount.isEmpty = true ∨ minerAddress = "" then signedBlock.authorization.address
        else minerAddress) := by
  rw [getMiner, hrewards, List.foldlM_append, notMiner_foldlM notMiner, ok_bind]
  cases hamount : amount.isEmpty with
  | true => rfl
  | false =>
      by_cases hminer : minerAddress = ""
      · subst hminer
        rfl
      · simp only [Bool.false_eq_true, if_false, false_or, if_neg hminer]
        exact congrArg Except.ok (if_neg hminer)

/-- The miner's part of the schedule, and the whole of it where nobody else has a share. -/
theorem leavesMinerPart_iff {ctx : Context} {blockNumber : ℕ} {split : Split} {viewed : Prop}
    {left : Coin} (h : splitEmission ctx.blockRewardArray blockNumber = .ok split)
    (some_view : viewed → left = split.miner)
    (no_view : ¬ viewed → left = split.miner + split.author + split.channel + split.storage) :
    left.isEmpty = false ↔ LeavesMinerPart ctx blockNumber viewed := by
  rw [Bool.eq_false_iff, Ne, Coin.isEmpty_iff, LeavesMinerPart]
  have hsplit := splitEmission_spec h
  cases hemission : ctx.blockRewardArray[blockNumber / 50000]? with
  | none =>
      rw [hemission] at hsplit
      subst hsplit
      have hzero : left = 0 := by
        by_cases hviewed : viewed
        · exact some_view hviewed
        · exact no_view hviewed
      simp [hzero]
  | some emission =>
      rw [hemission] at hsplit
      obtain ⟨hminer, hwhole⟩ := hsplit
      by_cases hviewed : viewed
      · have hpart : (percentOf emission 10 ≠ .ok 0) ↔ split.miner ≠ 0 := by
          rw [hminer, Ne, Except.ok.injEq]
        constructor
        · intro hleft
          rw [some_view hviewed] at hleft
          refine ⟨emission, rfl, ?_, fun _ => hpart.mpr hleft⟩
          rintro rfl
          exact hpart.mpr hleft (percentOf_zero 10)
        · rintro ⟨_, hsame, _, hsome⟩
          cases hsame
          rw [some_view hviewed]
          exact hpart.mp (hsome hviewed)
      · have hbound := emission.value_bound
        have hfirst := Coin.value_add (a := split.miner) (b := split.author) (by omega)
        have hsecond := Coin.value_add (a := split.miner + split.author) (b := split.channel)
          (by omega)
        have hthird := Coin.value_add (a := split.miner + split.author + split.channel)
          (b := split.storage) (by omega)
        have hleft : left = emission := by
          apply Coin.value_injective
          rw [no_view hviewed]
          omega
        rw [hleft]
        constructor
        · exact fun hne => ⟨emission, rfl, hne, fun h => absurd h hviewed⟩
        · rintro ⟨_, hsame, hne, _⟩
          cases hsame
          exact hne

/-- What is left for the miner is nothing unless the schedule leaves it a part. -/
theorem grantRewards_miner {ctx : Context} {header : BlockHeader}
    {transactions : List SignedTransaction} {minerAddress : String} {type : SetUsed} {l : Ledger}
    {granted : Granted}
    (h : grantRewards ctx ⟨header, [], transactions⟩ minerAddress type l = .ok granted) :
    ∃ others amount, granted.rewards = others ++
        (if amount.isEmpty then [] else rewardsOf .miner [(minerAddress, amount)]) ∧
      (∀ reward ∈ others, reward.rewardType ≠ .miner) ∧
      (amount.isEmpty = false ↔
        LeavesMinerPart ctx header.blockNumber.toNat (ConfirmsViews l transactions)) := by
  obtain ⟨collected, shares, viewedDocs, paid, docs, expired, rewards, hcollect, hshares, hwhole,
    hpaid, _, hrewards, rfl⟩ := grantRewards_stages h
  obtain ⟨emission, sponsored, authors, authorRest, channels, channelRest, storages, storageRest,
    hemission, hsponsored, hauthors, hchannels, hstorages, hcomposed⟩ := composeRewards_spec hrewards
  refine ⟨_, emission.miner + authorRest + channelRest + storageRest, hcomposed,
    fun reward hreward => ?_, ?_⟩
  · simp only [List.mem_append] at hreward
    rcases hreward with ((hauthor | hchannel) | hstorage) | hreturn
    · simp [distributeRewards_type hauthors reward hauthor]
    · simp [distributeRewards_type hchannels reward hchannel]
    · simp [distributeRewards_type hstorages reward hstorage]
    · obtain ⟨entry, _, rfl⟩ := List.mem_map.mp hreturn
      simp
  · have hviewed : ConfirmsViews l transactions ↔
        (reportsOf collected.channelProvided collected.storageProvided).verified ≠ [] := by
      constructor
      · rintro ⟨other, hother, hsome⟩
        cases hcollect.symm.trans hother
        exact hsome
      · exact fun hsome => ⟨collected, hcollect, hsome⟩
    obtain ⟨hnothing, hviews⟩ := validateStatistics_views hshares
    apply leavesMinerPart_iff hemission
    · intro hsome
      have hshared : shares.authorResult ≠ [] ∧ shares.channelResult ≠ [] ∧
          shares.storageResult ≠ [] :=
        hwhole.resolve_left fun hnone => hviewed.mp hsome (hviews.mp hnone)
      rw [distributeRewards_rest hshared.1 hauthors, distributeRewards_rest hshared.2.1 hchannels,
        distributeRewards_rest hshared.2.2 hstorages]
      simp only [Coin.add_zero]
    · intro hnone
      have hrows := not_not.mp fun hsome => hnone (hviewed.mpr hsome)
      obtain ⟨hauthor, hchannel, hstorage⟩ := hnothing hrows
      have hkeys : shares.unitUriViewCounts.keys = [] := by
        rw [Std.ExtTreeMap.keys_eq_nil_iff, ← Std.ExtTreeMap.isEmpty_iff]
        exact hviews.mpr hrows
      rw [hkeys] at hpaid
      cases pure_ok_iff.mp hpaid
      cases hsponsored.symm.trans splitSponsored_zero
      rw [hauthor] at hauthors
      rw [hchannel] at hchannels
      rw [hstorage] at hstorages
      cases hauthors
      cases hchannels
      cases hstorages
      simp only [Coin.add_zero]

namespace NodeInternals
variable [Externals] {node after : NodeInternals}

def CollectsFee (ctx : Context) (miner : String) (signedTransaction : SignedTransaction)
    (l paid : Ledger) : Prop :=
  ∃ applied, actionApply ctx signedTransaction (layerOf miner) l = .ok applied ∧
    feeApply ctx signedTransaction miner applied = .ok paid

/-- What mining does for an address: its balance gives the delta of the block, the transactions
of the block are applied one after the other with their fees for it, no other address has a
reward of a miner, and the rewards are paid in the ledger that the node goes on with. -/
structure MinedFor (miner : String) (m : Mining node after) : Prop where
  last : after.blockchain.lastBlock = m.signedBlock
  delta : m.header.delta =
    calcDelta miner (node.ledger.state.getBalance miner .chain).whole node.blockchain.lastHash
      node.blockchain.lastHeader.cConst
  fees : ∀ signedTransaction ∈ m.filled.blockTransactions, ∃ turn next,
    m.ComesTo signedTransaction turn ∧ mineTransaction signedTransaction turn = .ok next ∧
      CollectsFee node.ctx miner signedTransaction turn.1.ledger next.1.ledger
  reward : ∀ reward ∈ m.granted.rewards, reward.rewardType = .miner → reward.target = miner
  paid : increaseRewards node.ctx m.granted.rewards
    { m.mined.ledger with documents := m.granted.documents } = .ok m.appended.ledger

theorem collectsFee_of_applied {ctx : Context} {miner : String}
    {signedTransaction : SignedTransaction} {l paid : Ledger}
    (h : Publiq.applyTransaction ctx miner signedTransaction l = .ok (true, paid)) :
    CollectsFee ctx miner signedTransaction l paid := by
  obtain ⟨canApply, _, h⟩ := bind_ok_iff.mp h
  cases canApply with
  | false => cases pure_ok_iff.mp h
  | true =>
      obtain ⟨applied, happlied, h⟩ := bind_ok_iff.mp h
      obtain ⟨feeOk, _, h⟩ := bind_ok_iff.mp h
      cases feeOk with
      | false =>
          obtain ⟨reverted, _, h⟩ := bind_ok_iff.mp h
          cases pure_ok_iff.mp h
      | true =>
          obtain ⟨paid, hpaid, h⟩ := bind_ok_iff.mp h
          cases pure_ok_iff.mp h
          exact ⟨applied, happlied, hpaid⟩

/-- Every transaction that is mined was applied in its turn for the address of the node. -/
theorem mineAll_fees {transactions : List SignedTransaction} {a b : NodeInternals × Selection}
    (h : runAll mineTransaction transactions a = .ok b) :
    ∀ st ∈ b.2.blockTransactions, st ∈ a.2.blockTransactions ∨ ∃ turn next,
      RunComesTo mineTransaction transactions a st turn ∧ mineTransaction st turn = .ok next ∧
        CollectsFee a.1.ctx a.1.ctx.own st turn.1.ledger next.1.ledger := by
  induction transactions generalizing a with
  | nil =>
      cases h
      exact fun st hst => .inl hst
  | cons st rest ih =>
      obtain ⟨mid, first, h⟩ := runAll_cons_ok_iff.mp h
      have hctx : mid.1.ctx = a.1.ctx := (mineTransaction_sameChain first).1
      intro other hother
      rcases ih h other hother with hmid | ⟨turn, next, hturn, hnext, hcollects⟩
      · rcases a with ⟨node, s⟩
        rcases mid with ⟨after, t⟩
        rcases mineTransaction_cases first with ⟨_, _, rfl⟩ | ⟨cache, _, hcases⟩
        · exact .inl hmid
        · rcases hcases with ⟨applied, happly, hafter, rfl⟩ | ⟨_, _, _, rfl⟩
          · rcases List.mem_append.mp hmid with hold | hnew
            · exact .inl hold
            · obtain rfl := List.mem_singleton.mp hnew
              refine .inr ⟨(node, s), _, runComesTo_head _ _ _ _, first, ?_⟩
              have hledger := (applyTransaction_spec happly).1
              rw [← hafter] at hledger
              exact collectsFee_of_applied hledger
          · exact .inl hmid
      · rw [hctx] at hcollects
        exact .inr ⟨turn, next, hturn.cons first, hnext, hcollects⟩

theorem minedFor_own (m : Mining node after) : MinedFor node.ctx.own m := by
  have hreverted := (revertPool_spec m.revertPool).1
  have hmined := m.mined_sameChain
  obtain ⟨others, amount, hrewards, hothers, _⟩ := grantRewards_miner m.grants
  obtain ⟨_, _, _, _, _, _, hledger⟩ := appendBlock_spec m.appends
  refine ⟨Blockchain.lastBlock_insert m.insert_signedBlock, (nextHeader_spec m.nextHeader).2.2.2,
    fun st hst => ?_, fun reward hreward htype => ?_, ?_⟩
  · rcases mineAll_fees m.mines st hst with hnone | hturn
    · exact absurd hnone List.not_mem_nil
    · rw [← hreverted.1]
      exact hturn
  · rw [hrewards] at hreward
    rcases List.mem_append.mp hreward with hother | hminer
    · exact absurd htype (hothers reward hother)
    · split_ifs at hminer
      · exact absurd hminer List.not_mem_nil
      · rw [List.mem_singleton.mp hminer, ← hmined.1]
  · rw [← hmined.1]
    exact hledger

/-- A node mines for its own address. That is the miner who is inferred from the block
exactly when the node signs with the key of this address or the schedule leaves something
for a reward to it. -/
theorem mineBlock_getMiner_iff (h : node.mineBlock = .ok after) :
    ∃ m : Mining node after, MinedFor node.ctx.own m ∧
      (getMiner after.blockchain.lastBlock = .ok node.ctx.own ↔
        (Externals.sign node.ctx.config.key
          (Externals.blockToString after.blockchain.lastBlock.blockDetails)).address =
            node.ctx.own ∨
        node.ctx.own ≠ "" ∧ LeavesMinerPart node.ctx node.blockchain.length
          (ConfirmsViews m.mined.ledger
            after.blockchain.lastBlock.blockDetails.signedTransactions)) := by
  obtain ⟨m⟩ := mining_of_mineBlock h
  have minedFor := minedFor_own m
  refine ⟨m, minedFor, ?_⟩
  have hmined := m.mined_sameChain
  have hgrant := m.grants
  rw [hmined.1] at hgrant
  have hnumber : m.header.blockNumber.toNat = node.blockchain.length :=
    (Blockchain.insert_ok_iff.mp m.insert_signedBlock).1
  obtain ⟨others, amount, hrewards, hothers, hleft⟩ := grantRewards_miner hgrant
  have hsigner : m.signedBlock.authorization = Externals.sign node.ctx.config.key
      (Externals.blockToString m.signedBlock.blockDetails) := by
    rw [← hmined.1]
    rfl
  rw [hnumber] at hleft
  rw [minedFor.last, getMiner_of_rewards hothers hrewards, hsigner, Except.ok.injEq]
  change _ ↔ _ ∨ node.ctx.own ≠ "" ∧ LeavesMinerPart node.ctx node.blockchain.length
    (ConfirmsViews m.mined.ledger m.filled.blockTransactions)
  rw [← hleft]
  cases hamount : amount.isEmpty with
  | true => simp
  | false =>
      by_cases hown : node.ctx.own = ""
      · simp [hown]
      · simp [hown]

end NodeInternals

section Examples
open NodeInternals

local instance minerExternals : Externals := plainExternals

/-- A node that signs with the key of another address, on a schedule that grants nothing. -/
def unpaidNode : Context :=
  { exampleNode "own" .blockchain with
    config := ⟨"own", "key", .blockchain, "", false, false, false⟩
    blockRewardArray := [0] }

theorem unpaidStart_isOk :
    (insertGenesis unpaidNode 1000 unpaidNode.blockchain.lastBlock).isOk = true := by rfl

def unpaidStart : NodeInternals := okValue _ unpaidStart_isOk

theorem unpaidMined_isOk : unpaidStart.mineBlock.isOk = true := by rfl

def unpaidMined : NodeInternals := okValue _ unpaidMined_isOk

def payingNode : Context :=
  { exampleNode "own" .blockchain with
    config := ⟨"own", "key", .blockchain, "", false, false, false⟩ }

def payingGenesis : SignedBlock :=
  ⟨⟨⟨0, 0, 0, 1, "", 0⟩, [⟨"alice", ⟨100, 0⟩, .initial⟩], []⟩, ⟨"genesis", ""⟩⟩

def paidTransfer : SignedTransaction :=
  ⟨⟨100, 1000, ⟨1, 0⟩, .transfer ⟨"alice", "bob", ⟨5, 0⟩, ""⟩⟩, [⟨"alice", ""⟩]⟩

def paidPooled : Checked NodeInternals := do
  let node ← insertGenesis payingNode 1000 payingGenesis
  node.receive 500 paidTransfer

theorem paidPooled_isOk : paidPooled.isOk = true := by decide +kernel

theorem paidMined_isOk : (okValue _ paidPooled_isOk).mineBlock.isOk = true := by decide +kernel

def paidMined : NodeInternals := okValue _ paidMined_isOk

-- The reward of the miner, and the fee.
example : paidMined.blockchain.lastBlock.blockDetails.signedTransactions = [paidTransfer] ∧
    paidMined.ledger.state.worth "own" = 100100000000 := by decide +kernel

theorem paid_mineBlock_getMiner_iff :
    ∃ m : Mining (okValue _ paidPooled_isOk) paidMined, MinedFor "own" m ∧
      (getMiner paidMined.blockchain.lastBlock = .ok "own" ↔
        (Externals.sign "key"
          (Externals.blockToString paidMined.blockchain.lastBlock.blockDetails)).address = "own" ∨
        "own" ≠ "" ∧ LeavesMinerPart (okValue _ paidPooled_isOk).ctx
          (okValue _ paidPooled_isOk).blockchain.length
          (ConfirmsViews m.mined.ledger
            paidMined.blockchain.lastBlock.blockDetails.signedTransactions)) :=
  mineBlock_getMiner_iff (eq_okValue paidMined_isOk)

/-- Where nothing is left for the miner, the signer is taken for it. -/
theorem unpaid_miner_mistaken : ¬ ∀ [Externals], ∀ (ctx : Context) (freezeBeforeBlock : ℕ)
    (genesis : SignedBlock) (start after : NodeInternals) (events : List Event),
    insertGenesis ctx freezeBeforeBlock genesis = .ok start →
    ((Synchronization.idle start).run events).node.mineBlock = .ok after →
    getMiner after.blockchain.lastBlock =
      .ok ((Synchronization.idle start).run events).node.ctx.own := by
  intro claim
  have hminer := claim _ _ _ _ unpaidMined [] (eq_okValue unpaidStart_isOk)
    (eq_okValue unpaidMined_isOk)
  have hkey : getMiner unpaidMined.blockchain.lastBlock = .ok "key" := by rfl
  rw [hkey] at hminer
  exact absurd (Except.ok.inj hminer) (by decide)

end Examples
end Publiq
