import Publiq.BlockDues
import Publiq.BlockMiner

/-! What the rewards of a block add up to: the emission of the schedule, what the sponsors pay
for viewed units, and what they get back. -/
namespace Publiq
open Message Checked

def totalPayments (payments : List SponsorPayment) : ℕ :=
  (payments.map fun payment => payment.amount.value).sum

@[simp] theorem totalPayments_nil : totalPayments [] = 0 := rfl

theorem totalPayments_append (first second : List SponsorPayment) :
    totalPayments (first ++ second) = totalPayments first + totalPayments second := by
  simp [totalPayments]

theorem totalPayments_singleton (payment : SponsorPayment) :
    totalPayments [payment] = payment.amount.value := Nat.add_zero _

def totalTo (sponsor : String) (payments : List SponsorPayment) : ℕ :=
  totalPayments (payments.filter fun payment => payment.sponsorAddress = sponsor)

theorem totalTo_concat (sponsor : String) (payments : List SponsorPayment)
    (payment : SponsorPayment) : totalTo sponsor (payments ++ [payment]) =
      totalTo sponsor payments +
        if payment.sponsorAddress = sponsor then payment.amount.value else 0 := by
  unfold totalTo
  rw [List.filter_append, totalPayments_append]
  by_cases h : payment.sponsorAddress = sponsor
  · rw [if_pos h, List.filter_cons_of_pos (by simpa using h), List.filter_nil,
      totalPayments_singleton]
  · rw [if_neg h, List.filter_cons_of_neg (by simpa using h), List.filter_nil]
    rfl

theorem value_sumPayments (payments : List SponsorPayment) :
    (sumPayments payments).value = totalPayments payments % Coin.limit := by
  induction payments using List.reverseRecOn with
  | nil => rw [sumPayments, List.foldl_nil, Coin.value_zero, totalPayments_nil, Nat.zero_mod]
  | append_singleton payments payment ih =>
      unfold sumPayments at ih ⊢
      rw [List.foldl_append, List.foldl_cons, List.foldl_nil, Coin.value_add_mod, ih,
        totalPayments_append, totalPayments_singleton, Nat.mod_add_mod]

theorem returnsBySponsor_concat (payments : List SponsorPayment) (payment : SponsorPayment) :
    returnsBySponsor (payments ++ [payment]) =
      (returnsBySponsor payments).give payment.sponsorAddress payment.amount := by
  unfold returnsBySponsor
  rw [List.foldl_append, List.foldl_cons, List.foldl_nil]

theorem value_returnsBySponsor (payments : List SponsorPayment) (sponsor : String) :
    ((returnsBySponsor payments).getD sponsor 0).value = totalTo sponsor payments % Coin.limit := by
  induction payments using List.reverseRecOn with
  | nil => exact Coin.value_zero.trans (Nat.zero_mod _).symm
  | append_singleton payments payment ih =>
      rw [returnsBySponsor_concat, Distribution.getD_give, totalTo_concat]
      by_cases h : payment.sponsorAddress = sponsor
      · rw [if_pos h, if_pos h, h, Coin.value_add_mod, ih, Nat.mod_add_mod]
      · rw [if_neg h, if_neg h, ih, Nat.add_zero]

/-- What goes back to the sponsors is what they are to get, if each of them can be told. -/
theorem total_returnsBySponsor (payments : List SponsorPayment) :
    (returnsBySponsor payments).total ≤ totalPayments payments ∧
      ((returnsBySponsor payments).total = totalPayments payments ↔
        ∀ sponsor, totalTo sponsor payments < Coin.limit) := by
  induction payments using List.reverseRecOn with
  | nil =>
      have hempty : (returnsBySponsor []).total = 0 := tableSum_empty _
      rw [hempty]
      exact ⟨le_rfl, iff_of_true rfl fun _ => (Coin.value_bound 0).trans_le' (Nat.zero_le _)⟩
  | append_singleton payments payment ih =>
      obtain ⟨hle, hiff⟩ := ih
      have hgive := (returnsBySponsor payments).total_give_add payment.sponsorAddress payment.amount
      have hold := value_returnsBySponsor payments payment.sponsorAddress
      have hnew := Coin.value_add_mod
        ((returnsBySponsor payments).getD payment.sponsorAddress 0) payment.amount
      have hwraps := Nat.mod_le (((returnsBySponsor payments).getD payment.sponsorAddress 0).value +
        payment.amount.value) Coin.limit
      have hbound := Coin.value_bound
        ((returnsBySponsor payments).getD payment.sponsorAddress 0 + payment.amount)
      rw [returnsBySponsor_concat, totalPayments_append, totalPayments_singleton]
      refine ⟨by omega, ?_⟩
      constructor
      · intro hsum sponsor
        have hall := hiff.mp (by omega)
        rw [Nat.mod_eq_of_lt (hall payment.sponsorAddress)] at hold
        rw [totalTo_concat]
        split_ifs with hsponsor
        · rw [← hsponsor]
          omega
        · exact hall sponsor
      · intro hall
        have hbefore : ∀ sponsor, totalTo sponsor payments < Coin.limit := by
          intro sponsor
          have h := hall sponsor
          rw [totalTo_concat] at h
          omega
        have hthis := hall payment.sponsorAddress
        rw [totalTo_concat, if_pos rfl] at hthis
        rw [Nat.mod_eq_of_lt (hbefore payment.sponsorAddress)] at hold
        rw [hold, Nat.mod_eq_of_lt hthis] at hnew
        have htotal := hiff.mpr hbefore
        omega

theorem percentOf_le {amount part : Coin} {percent : UInt64}
    (h : percentOf amount percent = .ok part) :
    100 * part.value ≤ percent.toNat * amount.value := by
  have hback := (Coin.value_mul_div h).2.trans (Coin.value_mul_le amount percent)
  have hhundred : (100 : UInt64).toNat = 100 := rfl
  rw [hhundred] at hback
  rw [Nat.mul_comm, Nat.mul_comm percent.toNat]
  exact hback

def emissionAt (blockRewardArray : List Coin) (blockNumber : ℕ) : ℕ :=
  (blockRewardArray[blockNumber / 50000]?.map Coin.value).getD 0

/-- A split of an amount: it is whole, and the authors and the channels have their part. -/
structure SplitsUp (split : Split) (amount authorPercent channelPercent : ℕ) : Prop where
  whole : split.miner.value + split.author.value + split.channel.value + split.storage.value =
    amount
  author : 100 * split.author.value ≤ authorPercent * amount
  channel : 100 * split.channel.value ≤ channelPercent * amount

theorem splitEmission_splitsUp {blockRewardArray : List Coin} {blockNumber : ℕ} {split : Split}
    (h : splitEmission blockRewardArray blockNumber = .ok split) :
    SplitsUp split (emissionAt blockRewardArray blockNumber) 40 30 := by
  unfold emissionAt
  unfold splitEmission at h
  cases hemission : blockRewardArray[blockNumber / 50000]? with
  | none =>
      rw [hemission] at h
      cases pure_ok_iff.mp h
      constructor <;> simp [Coin.value_zero]
  | some emission =>
      rw [hemission] at h
      obtain ⟨miner, _, h⟩ := bind_ok_iff.mp h
      obtain ⟨author, hauthor, h⟩ := bind_ok_iff.mp h
      obtain ⟨channel, hchannel, h⟩ := bind_ok_iff.mp h
      obtain ⟨rest, hrest, h⟩ := bind_ok_iff.mp h
      obtain ⟨rest', hrest', h⟩ := bind_ok_iff.mp h
      obtain ⟨storage, hstorage, h⟩ := bind_ok_iff.mp h
      cases pure_ok_iff.mp h
      have h1 := Coin.value_sub hrest
      have h2 := Coin.value_sub hrest'
      have h3 := Coin.value_sub hstorage
      refine ⟨?_, percentOf_le hauthor, percentOf_le hchannel⟩
      change miner.value + author.value + channel.value + storage.value = emission.value
      omega

theorem splitSponsored_splitsUp {sponsored : Coin} {split : Split}
    (h : splitSponsored sponsored = .ok split) :
    split.miner = 0 ∧ SplitsUp split sponsored.value 50 30 := by
  obtain ⟨author, hauthor, h⟩ := bind_ok_iff.mp h
  obtain ⟨channel, hchannel, h⟩ := bind_ok_iff.mp h
  obtain ⟨rest, hrest, h⟩ := bind_ok_iff.mp h
  obtain ⟨storage, hstorage, h⟩ := bind_ok_iff.mp h
  cases pure_ok_iff.mp h
  have h1 := Coin.value_sub hrest
  have h2 := Coin.value_sub hstorage
  refine ⟨rfl, ?_, percentOf_le hauthor, percentOf_le hchannel⟩
  change (0 : Coin).value + author.value + channel.value + storage.value = sponsored.value
  rw [Coin.value_zero]
  omega

/-- The amounts that a block adds up fit in a coin: what the sponsors pay, the part of the
storages, and what goes back to one sponsor. -/
structure AmountsFit (blockRewardArray : List Coin) (blockNumber : ℕ)
    (paid returned : List SponsorPayment) : Prop where
  sponsored : totalPayments paid < Coin.limit
  storages : ∀ emission sponsored, splitEmission blockRewardArray blockNumber = .ok emission →
    splitSponsored (sumPayments paid) = .ok sponsored →
      emission.storage.value + sponsored.storage.value < Coin.limit
  returned : ∀ sponsor, totalTo sponsor returned < Coin.limit

/-- Either everybody who serves views has a share, or nothing was viewed and nobody has one. -/
def SharesWhole (shares : Validated) (paid : List SponsorPayment) : Prop :=
  (shares.authorResult ≠ [] ∧ shares.channelResult ≠ [] ∧ shares.storageResult ≠ []) ∨
    (shares.authorResult = [] ∧ shares.channelResult = [] ∧ shares.storageResult = [] ∧ paid = [])

theorem sumRewards_miner (minerAddress : String) (amount : Coin) :
    sumRewards (if amount.isEmpty then [] else rewardsOf .miner [(minerAddress, amount)]) =
      amount.value := by
  split_ifs with hempty
  · exact ((Coin.isEmpty_iff_value amount).mp hempty).symm
  · rw [sumRewards_rewardsOf, sumAmounts_cons]
    rfl

/-- The miner gets his part of the emission, and all of it where nobody else has a share. -/
theorem minerPart_value {emission sponsored : Split} {amount : ℕ} {shares : Validated}
    {paid : List SponsorPayment} (splits : SplitsUp emission amount 40 30) (fits : amount < Coin.limit)
    (hsponsored : splitSponsored (sumPayments paid) = .ok sponsored)
    (whole : SharesWhole shares paid) {authors channels storages : List Reward}
    {authorRest channelRest storageRest : Coin}
    (hauthors : distributeRewards shares.authorResult (emission.author + sponsored.author)
      .author = .ok (authors, authorRest))
    (hchannels : distributeRewards shares.channelResult (emission.channel + sponsored.channel)
      .channel = .ok (channels, channelRest))
    (hstorages : distributeRewards shares.storageResult (emission.storage + sponsored.storage)
      .storage = .ok (storages, storageRest)) :
    (emission.miner + authorRest + channelRest + storageRest).value =
      emission.miner.value + authorRest.value + channelRest.value + storageRest.value := by
  rcases whole with ⟨hauthor, hchannel, hstorage⟩ | ⟨hauthor, hchannel, hstorage, rfl⟩
  · rw [distributeRewards_rest hauthor hauthors, distributeRewards_rest hchannel hchannels,
      distributeRewards_rest hstorage hstorages]
    rw [Coin.add_zero, Coin.add_zero, Coin.add_zero, Coin.value_zero, Nat.add_zero]
  · obtain rfl := Except.ok.inj (hsponsored.symm.trans splitSponsored_zero)
    rw [hauthor, distributeRewards_nil] at hauthors
    rw [hchannel, distributeRewards_nil] at hchannels
    rw [hstorage, distributeRewards_nil] at hstorages
    have hwhole := splits.whole
    obtain rfl : emission.author = authorRest :=
      (Coin.add_zero _).symm.trans (congrArg Prod.snd (Except.ok.inj hauthors))
    obtain rfl : emission.channel = channelRest :=
      (Coin.add_zero _).symm.trans (congrArg Prod.snd (Except.ok.inj hchannels))
    obtain rfl : emission.storage = storageRest :=
      (Coin.add_zero _).symm.trans (congrArg Prod.snd (Except.ok.inj hstorages))
    have hfirst : (emission.miner + emission.author).value =
        emission.miner.value + emission.author.value := Coin.value_add (by omega)
    have hsecond : (emission.miner + emission.author + emission.channel).value =
        emission.miner.value + emission.author.value + emission.channel.value := by
      rw [Coin.value_add (by omega), hfirst]
    rw [Coin.value_add (by omega), hsecond]

/-- The rewards of a block make up what it has to share out, if the amounts fit. -/
theorem composeRewards_total_iff {ctx : Context} {minerAddress : String} {blockNumber : ℕ}
    {shares : Validated} {paid returned : List SponsorPayment} {rewards : List Reward}
    (whole : SharesWhole shares paid)
    (h : composeRewards ctx minerAddress blockNumber shares paid returned = .ok rewards) :
    sumRewards rewards = emissionAt ctx.blockRewardArray blockNumber + totalPayments paid +
        totalPayments returned ↔
      AmountsFit ctx.blockRewardArray blockNumber paid returned := by
  obtain ⟨emission, sponsored, authors, authorRest, channels, channelRest, storages, storageRest,
    hemission, hsponsored, hauthors, hchannels, hstorages, rfl⟩ := composeRewards_spec h
  have hsplit := splitEmission_splitsUp hemission
  obtain ⟨hminer, hpaidSplit⟩ := splitSponsored_splitsUp hsponsored
  have hlimit : emissionAt ctx.blockRewardArray blockNumber < Coin.limit := by
    unfold emissionAt
    cases ctx.blockRewardArray[blockNumber / 50000]? with
    | none => exact (Coin.value_bound 0).trans_le' (Nat.zero_le _)
    | some emission => exact emission.value_bound
  have hreturned := total_returnsBySponsor returned
  have hpart := minerPart_value hsplit hlimit hsponsored whole hauthors hchannels hstorages
  have hauthorSum := (distributeRewards_spec hauthors).1
  have hchannelSum := (distributeRewards_spec hchannels).1
  have hstorageSum := (distributeRewards_spec hstorages).1
  rw [sumRewards_append, sumRewards_append, sumRewards_append, sumRewards_append, sumRewards_miner,
    sumRewards_rewardsOf, hpart]
  change _ + _ + _ + (returnsBySponsor returned).total + _ = _ ↔ _
  have hsum := value_sumPayments paid
  have hsumLimit := (sumPayments paid).value_bound
  obtain ⟨hwhole, hauthorPart, hchannelPart⟩ := hsplit
  obtain ⟨hpaidWhole, hpaidAuthor, hpaidChannel⟩ := hpaidSplit
  rw [hminer, Coin.value_zero] at hpaidWhole
  rw [Coin.value_add (by omega)] at hauthorSum hchannelSum
  rw [Coin.value_add_mod] at hstorageSum
  have hsumLe := Nat.mod_le (totalPayments paid) Coin.limit
  have hstorageLe := Nat.mod_le (emission.storage.value + sponsored.storage.value) Coin.limit
  have hpositive : 0 < Coin.limit := by omega
  have hstorageLt := Nat.mod_lt (emission.storage.value + sponsored.storage.value) hpositive
  constructor
  · intro htotal
    refine ⟨by omega, fun emission' sponsored' hemission' hsponsored' => ?_,
      hreturned.2.mp (by omega)⟩
    cases hemission.symm.trans hemission'
    cases hsponsored.symm.trans hsponsored'
    omega
  · intro fit
    have hall := hreturned.2.mpr fit.returned
    rw [Nat.mod_eq_of_lt fit.sponsored] at hsum
    rw [Nat.mod_eq_of_lt (fit.storages emission sponsored hemission hsponsored)] at hstorageSum
    omega

theorem grantRewards_compose {ctx : Context} {block : Block} {miner : String} {type : SetUsed}
    {l : Ledger} {granted : Granted} (h : grantRewards ctx block miner type l = .ok granted) :
    ∃ shares, SharesWhole shares granted.appliedSponsorItems ∧
      composeRewards ctx miner block.header.blockNumber.toNat shares granted.appliedSponsorItems
        granted.returned = .ok granted.rewards := by
  obtain ⟨collected, shares, viewedDocs, paid, docs, expired, rewards, _, hshares, hwhole, hpaid, _,
    hrewards, rfl⟩ := grantRewards_stages h
  refine ⟨shares, ?_, hrewards⟩
  rcases hwhole with hnone | hsome
  · obtain ⟨hnothing, hviews⟩ := validateStatistics_views hshares
    obtain ⟨hauthor, hchannel, hstorage⟩ := hnothing (hviews.mp hnone)
    have hkeys : shares.unitUriViewCounts.keys = [] := by
      rw [Std.ExtTreeMap.keys_eq_nil_iff, ← Std.ExtTreeMap.isEmpty_iff]
      exact hnone
    rw [hkeys] at hpaid
    cases pure_ok_iff.mp hpaid
    exact .inr ⟨hauthor, hchannel, hstorage, rfl⟩
  · exact .inl hsome

theorem composeRewards_oneMiner {ctx : Context} {minerAddress : String} {blockNumber : ℕ}
    {shares : Validated} {paid returned : List SponsorPayment} {rewards : List Reward}
    (h : composeRewards ctx minerAddress blockNumber shares paid returned = .ok rewards) :
    (rewards.filter fun reward => reward.rewardType = .miner).length ≤ 1 := by
  obtain ⟨emission, sponsored, authors, authorRest, channels, channelRest, storages, storageRest,
    _, _, hauthors, hchannels, hstorages, rfl⟩ := composeRewards_spec h
  have hothers : ∀ reward ∈ authors ++ channels ++ storages ++
      rewardsOf .sponsoredReturn (returnsBySponsor returned).toList,
      ¬ decide (reward.rewardType = .miner) = true := by
    intro reward hreward
    simp only [List.mem_append] at hreward
    rcases hreward with ((hauthor | hchannel) | hstorage) | hreturn
    · simp [distributeRewards_type hauthors reward hauthor]
    · simp [distributeRewards_type hchannels reward hchannel]
    · simp [distributeRewards_type hstorages reward hstorage]
    · obtain ⟨entry, _, rfl⟩ := List.mem_map.mp hreturn
      simp
  rw [List.filter_append, List.filter_eq_nil_iff.mpr hothers, List.nil_append]
  apply (List.length_filter_le _ _).trans
  split_ifs
  · exact Nat.zero_le 1
  · exact le_rfl

/-- The rewards of a block add up to what the schedule emits, what sponsors pay for views and
what sponsors get back, with every sponsorship in one of these groups, and the schedule is
not read past its end. -/
structure RewardsAddUp (ctx : Context) (block : Block) (type : SetUsed) (docs : Documents)
    (granted : Granted) : Prop where
  scheduled : block.header.blockNumber.toNat / 50000 < ctx.blockRewardArray.length
  total : sumRewards granted.rewards =
    emissionAt ctx.blockRewardArray block.header.blockNumber.toNat +
      totalPayments granted.appliedSponsorItems + totalPayments granted.returned
  oneMiner : (granted.rewards.filter fun reward => reward.rewardType = .miner).length ≤ 1
  groups : ∃ cancelled expired, PaymentGroups docs block type granted cancelled expired
  once : (paidHashes (granted.appliedSponsorItems ++ granted.returned)).Nodup

/-- When the rewards of a block add up: the schedule has an entry for it, its amounts fit, and
no two of its cancellations name the same sponsorship. -/
structure RewardsCountable (ctx : Context) (block : Block) (type : SetUsed) (l : Ledger) :
    Prop where
  scheduled : block.header.blockNumber.toNat / 50000 < ctx.blockRewardArray.length
  fit : AmountsFit ctx.blockRewardArray block.header.blockNumber.toNat (viewDues ctx block type l)
    (cancelDues block l.documents ++ expiryDues ctx block type l)
  distinct : ((cancels block.signedTransactions).map
    CancelSponsorContentUnit.transactionHash).Nodup

theorem grantRewards_addUp_iff [Externals] (hashed : ∀ s, Externals.hash s ≠ "") {own : String}
    {layer : StateLayer} {l : Ledger} (reached : Reached own layer l) {ctx : Context} {block : Block}
    {miner : String} {type : SetUsed} {granted : Granted}
    (h : grantRewards ctx block miner type l = .ok granted) :
    RewardsAddUp ctx block type l.documents granted ↔ RewardsCountable ctx block type l := by
  have sound := reached.sound.sponsorships
  obtain ⟨hviewed, hreturned⟩ := grantRewards_dues sound (reached.entriesNamed hashed) h
  obtain ⟨cancelled, expired, groups⟩ := grantRewards_groups sound (reached.entriesNamed hashed) h
  obtain ⟨shares, hwhole, hcompose⟩ := grantRewards_compose h
  have hfit : AmountsFit ctx.blockRewardArray block.header.blockNumber.toNat
      granted.appliedSponsorItems granted.returned ↔
      AmountsFit ctx.blockRewardArray block.header.blockNumber.toNat (viewDues ctx block type l)
        (cancelDues block l.documents ++ expiryDues ctx block type l) := by
    rw [hviewed, hreturned]
  have htotal := (composeRewards_total_iff hwhole hcompose).trans hfit
  constructor
  · intro adds
    exact ⟨adds.scheduled, htotal.mp adds.total, (groups.once_iff sound).mp adds.once⟩
  · intro countable
    exact ⟨countable.scheduled, htotal.mpr countable.fit,
      composeRewards_oneMiner hcompose, ⟨cancelled, expired, groups⟩,
      (groups.once_iff sound).mpr countable.distinct⟩

section Examples

@[reducible] def datedExternals : Externals :=
  { plainExternals with
    signedTransactionToString := fun st =>
      if st.transactionDetails.creation = 1 then "first"
      else if st.transactionDetails.creation = 2 then "second"
      else if st.transactionDetails.creation = 3 then "third"
      else ""
    hash := fun s => if s = "" then "other" else s }

local instance totalsExternals : Externals := datedExternals

theorem datedExternals_hashed (s : String) : Externals.hash s ≠ "" := by
  show (if s = "" then "other" else s) ≠ ""
  split_ifs with h
  · decide
  · exact h

def lateContext : Context := (exampleNode "own" .blockchain).withChain lateChain

def dated (creation : ℤ) (account : String) (action : Action) : SignedTransaction :=
  ⟨⟨creation, 0, 0, action⟩, [⟨account, ""⟩]⟩

def twoUnits : List SignedTransaction :=
  [dated 0 "channel" (.role ⟨"channel", .channel⟩), dated 0 "storage" (.role ⟨"storage", .storage⟩),
    dated 0 "channel" (.file ⟨"file", ["channel"]⟩),
    dated 0 "channel" (.contentUnit ⟨"viewed", 0, ["channel"], "channel", ["file"]⟩),
    dated 0 "channel" (.contentUnit ⟨"ended", 0, ["channel"], "channel", ["file"]⟩)]

def unitsLedger : Checked Ledger := do
  let l ← increaseRewards lateContext
    [⟨"channel", ⟨200000, 0⟩, .initial⟩, ⟨"storage", ⟨100000, 0⟩, .initial⟩] default
  runAll (applyMined lateContext "own") twoUnits l

def sponsorFirst : SignedTransaction :=
  dated 1 "channel" (.sponsorContentUnit ⟨"channel", "viewed", 10000, 2, ⟨1000, 0⟩⟩)

def sponsorSecond : SignedTransaction :=
  dated 2 "channel" (.sponsorContentUnit ⟨"channel", "viewed", 12000, 2, ⟨1000, 0⟩⟩)

def sponsorThird : SignedTransaction :=
  dated 3 "channel" (.sponsorContentUnit ⟨"channel", "ended", 10200, 1, ⟨1000, 0⟩⟩)

def busyBlock : Block :=
  ⟨⟨1, 0, 0, 1, "", 13800⟩, [],
    [dated 4 "channel" (.serviceStatistics
        ⟨"channel", 12600, 13200, [⟨"file", "viewed", [⟨5, "storage"⟩]⟩]⟩),
      dated 5 "storage" (.serviceStatistics
        ⟨"storage", 12600, 13200, [⟨"file", "", [⟨5, "channel"⟩]⟩]⟩),
      dated 6 "channel" (.cancelSponsorContentUnit ⟨"channel", "viewed", "second"⟩)]⟩

theorem unitsLedger_isOk : unitsLedger.isOk = true := by decide +kernel

theorem sponsorFirst_isOk : (applyMined lateContext "own" sponsorFirst
    (okValue _ unitsLedger_isOk)).isOk = true := by decide +kernel

theorem sponsorSecond_isOk : (applyMined lateContext "own" sponsorSecond
    (okValue _ sponsorFirst_isOk)).isOk = true := by decide +kernel

theorem sponsorThird_isOk : (applyMined lateContext "own" sponsorThird
    (okValue _ sponsorSecond_isOk)).isOk = true := by decide +kernel

theorem busyBlock_isOk : (runAll (applyMined lateContext "own") busyBlock.signedTransactions
    (okValue _ sponsorThird_isOk)).isOk = true := by decide +kernel

def busyLedger : Ledger := okValue _ busyBlock_isOk

theorem reached_of_applyMined {st : SignedTransaction} {l after : Ledger}
    (reached : Reached "own" .chain l) (fresh : FreshSponsorship st l)
    (h : applyMined lateContext "own" st l = .ok after) : Reached "own" .chain after :=
  have reached : Reached "own" (layerOf "own") l := reached
  reached.apply rfl fresh (applyTransaction_of_applyMined h)

theorem reached_of_runMined {transactions : List SignedTransaction} {l after : Ledger}
    (reached : Reached "own" .chain l)
    (unsponsored : ∀ st ∈ transactions, ∀ a, st.transactionDetails.action ≠ .sponsorContentUnit a)
    (h : runAll (applyMined lateContext "own") transactions l = .ok after) :
    Reached "own" .chain after :=
  runAll_invariant (fun st hmem _ _ hs step =>
    reached_of_applyMined hs (fun a ha => absurd ha (unsponsored st hmem a)) step) reached h

theorem busyLedger_reached : Reached "own" .chain busyLedger := by
  obtain ⟨funded, hfunded, hunits⟩ := bind_ok_iff.mp (eq_okValue unitsLedger_isOk)
  have hreached : Reached "own" .chain funded := Reached.increase Reached.start rfl hfunded
  have units := reached_of_runMined hreached (by simp [twoUnits, dated]) hunits
  have first := reached_of_applyMined units
    (fun _ _ => by decide +kernel) (eq_okValue sponsorFirst_isOk)
  have second := reached_of_applyMined first
    (fun _ _ => by decide +kernel) (eq_okValue sponsorSecond_isOk)
  have third := reached_of_applyMined second
    (fun _ _ => by decide +kernel) (eq_okValue sponsorThird_isOk)
  exact reached_of_runMined third (by simp [busyBlock, dated]) (eq_okValue busyBlock_isOk)

theorem busyBlock_granted : (grantRewards lateContext busyBlock "own" .apply busyLedger).isOk =
    true := by decide +kernel

-- One sponsorship is viewed, one was cancelled and one ends.
example : paidHashes (viewDues lateContext busyBlock .apply busyLedger) = ["first"] ∧
    paidHashes (cancelDues busyBlock busyLedger.documents) = ["second"] ∧
    paidHashes (expiryDues lateContext busyBlock .apply busyLedger) = ["third"] := by
  decide +kernel

theorem busyBlock_addUp_iff :
    RewardsAddUp lateContext busyBlock .apply busyLedger.documents (okValue _ busyBlock_granted) ↔
      RewardsCountable lateContext busyBlock .apply busyLedger :=
  grantRewards_addUp_iff datedExternals_hashed busyLedger_reached (eq_okValue busyBlock_granted)

def idleBlock (blockNumber : UInt64) : Block := ⟨⟨blockNumber, 0, 0, 1, "", 0⟩, [], []⟩

theorem grantRewards_lateBlock_isOk :
    (grantRewards (exampleNode "own" .blockchain) (idleBlock 50000) "miner" .apply default).isOk =
      true := by decide +kernel

/-- The first block past the end of the schedule reads behind it. -/
theorem schedule_read_pastEnd : ¬ ∀ [Externals], ∀ (own : String) (layer : StateLayer) (l : Ledger)
    (ctx : Context) (block : Block) (miner : String) (type : SetUsed) (granted : Granted),
    (∀ s, Externals.hash s ≠ "") → Reached own layer l →
    grantRewards ctx block miner type l = .ok granted →
    RewardsAddUp ctx block type l.documents granted := by
  intro claim
  have adds := claim "own" .chain default _ _ "miner" .apply _ datedExternals_hashed .start
    (eq_okValue grantRewards_lateBlock_isOk)
  exact absurd adds.scheduled (by decide)

end Examples
end Publiq
