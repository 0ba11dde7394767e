import Publiq.Statistics

/-! `distribute_rewards`, `grant_rewards` and `check_rewards` of
`communication_p2p.cpp`: the emission of a block and what the sponsors pay for
the viewed units are shared out, and the rest of ended sponsorships goes back. -/
namespace Publiq
open Message Checked

variable [Documents.EntrySort]

abbrev Distribution := Std.ExtTreeMap String Coin

/-- `distribution[address] += amount`. -/
def Distribution.give (address : String) (amount : Coin) (distribution : Distribution) :
    Distribution :=
  distribution.insert address (distribution.getD address 0 + amount)

/-- The loop of `distribute_rewards`: what is left of the total, and who gets what. -/
def shareOut (total : Coin) : List Share → Coin × Distribution → Checked (Coin × Distribution)
  | [], s => pure s
  | share :: rest, (restAmount, distribution) => do
      let amount ← (total.mul share.numerator).div share.denominator
      let restAmount ← restAmount.sub amount
      shareOut total rest (restAmount, distribution.give share.address amount)

def addToLast (amount : Coin) : List (String × Coin) → List (String × Coin)
  | [] => []
  | [(address, last)] => [(address, amount + last)]
  | first :: rest => first :: addToLast amount rest

def rewardsOf (rewardType : RewardType) (amounts : List (String × Coin)) : List Reward :=
  amounts.map fun (address, amount) => ⟨address, amount.toMessage, rewardType⟩

/-- `distribute_rewards`: the rewards to append, and what is left for the miner. -/
def distributeRewards (statDistribution : List Share) (totalAmount : Coin)
    (rewardType : RewardType) : Checked (List Reward × Coin) :=
  if statDistribution = [] ∨ totalAmount = 0 then pure ([], totalAmount)
  else do
    let (restAmount, distribution) ← shareOut totalAmount statDistribution (totalAmount, ∅)
    pure (rewardsOf rewardType (addToLast restAmount distribution.toList), 0)

/-- `counts / 100` of an amount. -/
def percentOf (amount : Coin) (percent : UInt64) : Checked Coin := (amount.mul percent).div 100

/-- A reward split over the miner, the authors, the channels and the storages. -/
structure Split where
  miner : Coin
  author : Coin
  channel : Coin
  storage : Coin
  deriving DecidableEq

/-- The emission of a block. The array is read before its bound is checked; past the
end the value read is not used. -/
def splitEmission (blockRewardArray : List Coin) (blockNumber : ℕ) : Checked Split :=
  match blockRewardArray[blockNumber / 50000]? with
  | none => pure ⟨0, 0, 0, 0⟩
  | some emission => do
      let miner ← percentOf emission 10
      let author ← percentOf emission 40
      let channel ← percentOf emission 30
      let rest ← emission.sub miner
      let rest ← rest.sub author
      let storage ← rest.sub channel
      pure ⟨miner, author, channel, storage⟩

/-- What the sponsors pay at a block, split without a part for the miner. -/
def splitSponsored (sponsored : Coin) : Checked Split := do
  let author ← percentOf sponsored 50
  let channel ← percentOf sponsored 30
  let rest ← sponsored.sub author
  let storage ← rest.sub channel
  pure ⟨0, author, channel, storage⟩

/-- What `grant_rewards` collects from the transactions of a block. -/
structure Collected where
  channelProvided : Provided
  storageProvided : Provided
  returns : List SponsorPayment

/-- Collect from one transaction: a report, the last of a server counting, or what a
cancelled sponsorship returns. -/
def Collected.add (l : Ledger) (collected : Collected) (signedTransaction : SignedTransaction) :
    Checked Collected :=
  match signedTransaction.transactionDetails.action with
  | .serviceStatistics statistics =>
      match l.state.getRole statistics.serverAddress with
      | none => pure collected
      | some .channel => pure { collected with
          channelProvided := collected.channelProvided.insert statistics.serverAddress statistics }
      | some .storage => pure { collected with
          storageProvided := collected.storageProvided.insert statistics.serverAddress statistics }
      | some .blockchain => .error (.logicError
          "node_type != NodeType::channel && node_type != NodeType::storage")
  | .cancelSponsorContentUnit cancel => do
      let entry ← l.documents.expirationEntryByHash cancel.transactionHash
      require (entry.manuallyCancelled ≠ 0)
        (.logicError "expiry_entry.manually_cancelled == StorageTypes::Coin()")
      pure { collected with
        returns := collected.returns ++
          [⟨cancel.sponsorAddress, cancel.transactionHash, entry.manuallyCancelled⟩] }
  | _ => pure collected

/-- What the viewed units have their sponsors pay: the documents after it, and every
payment. A transaction pays once. -/
def payViewed (chain : Blockchain) (blockNumber : ℕ) (type : SetUsed) :
    List String → Documents × List SponsorPayment → Checked (Documents × List SponsorPayment)
  | [], s => pure s
  | uri :: rest, (docs, paid) => do
      let (docs, payments) ← docs.sponsoredContentUnitSetUsed chain uri blockNumber type "" "" false
      require ((paid ++ payments).map SponsorPayment.transactionHash).Nodup
        (.logicError "applied_sponsor_items.insert")
      payViewed chain blockNumber type rest (docs, paid ++ payments)

/-- What ended sponsorships of units that were not viewed return. -/
def returnExpired (chain : Blockchain) (blockNumber : ℕ) (type : SetUsed) (viewed : UnitViews) :
    List (String × String) → Documents × List SponsorPayment →
    Checked (Documents × List SponsorPayment)
  | [], s => pure s
  | (uri, hash) :: rest, (docs, returned) =>
      if viewed.contains uri then returnExpired chain blockNumber type viewed rest (docs, returned)
      else do
        let (docs, payments) ←
          docs.sponsoredContentUnitSetUsed chain uri blockNumber type hash "" false
        require (∀ payment ∈ payments, payment.amount ≠ 0)
          (.logicError "sponsored_reward_by_sponsor_by_txid.second == coin()")
        returnExpired chain blockNumber type viewed rest (docs, returned ++ payments)

def sumPayments (payments : List SponsorPayment) : Coin :=
  payments.foldl (fun sum payment => sum + payment.amount) 0

/-- `sponsored_rewards_returns`: the returned amounts by the sponsor. -/
def returnsBySponsor (payments : List SponsorPayment) : Distribution :=
  payments.foldl (fun returns payment => returns.give payment.sponsorAddress payment.amount) ∅

/-- The rewards of a block from its shares, what the sponsors paid and what is returned. -/
def composeRewards (ctx : Context) (minerAddress : String) (blockNumber : ℕ) (shares : Validated)
    (paid returned : List SponsorPayment) : Checked (List Reward) := do
  let emission ← splitEmission ctx.blockRewardArray blockNumber
  let sponsored ← splitSponsored (sumPayments paid)
  let (authors, authorRest) ←
    distributeRewards shares.authorResult (emission.author + sponsored.author) .author
  let (channels, channelRest) ←
    distributeRewards shares.channelResult (emission.channel + sponsored.channel) .channel
  let (storages, storageRest) ←
    distributeRewards shares.storageResult (emission.storage + sponsored.storage) .storage
  let miner := emission.miner + authorRest + channelRest + storageRest
  pure (authors ++ channels ++ storages ++
    rewardsOf .sponsoredReturn (returnsBySponsor returned).toList ++
    (if miner.isEmpty then [] else rewardsOf .miner [(minerAddress, miner)]))

/-- The outcome of `grant_rewards`. The source keeps `returned` only by its sums. -/
structure Granted where
  documents : Documents
  rewards : List Reward
  unitUriViewCounts : UnitViews
  appliedSponsorItems : List SponsorPayment
  returned : List SponsorPayment

/-- `grant_rewards`, on the node whose chain ends right before the block. -/
def grantRewards (ctx : Context) (block : Block) (minerAddress : String) (type : SetUsed)
    (l : Ledger) : Checked Granted := do
  let blockNumber := block.header.blockNumber.toNat
  let collected ← block.signedTransactions.foldlM (Collected.add l) ⟨∅, ∅, []⟩
  let shares ← validateStatistics ctx l.documents collected.channelProvided
    collected.storageProvided blockNumber
  require (shares.unitUriViewCounts.isEmpty ∨ (shares.authorResult ≠ [] ∧
      shares.channelResult ≠ [] ∧ shares.storageResult ≠ []))
    (.logicError "wrong result from validate_statistics(...)")
  let (viewedDocs, paid) ← payViewed ctx.blockchain blockNumber type
    shares.unitUriViewCounts.keys (l.documents, [])
  let (docs, expired) ← returnExpired ctx.blockchain blockNumber type shares.unitUriViewCounts
    (viewedDocs.contentUnitUriSponsorExpiring blockNumber) (viewedDocs, [])
  let rewards ← composeRewards ctx minerAddress blockNumber shares paid
    (collected.returns ++ expired)
  pure {
    documents := docs
    rewards
    unitUriViewCounts := shares.unitUriViewCounts
    appliedSponsorItems := paid
    returned := collected.returns ++ expired }

/-- The computations of `grant_rewards`, one after the other. -/
theorem grantRewards_stages {ctx : Context} {block : Block} {miner : String} {type : SetUsed}
    {l : Ledger} {granted : Granted} (h : grantRewards ctx block miner type l = .ok granted) :
    ∃ collected shares viewedDocs paid docs expired rewards,
      block.signedTransactions.foldlM (Collected.add l) ⟨∅, ∅, []⟩ = .ok collected ∧
      validateStatistics ctx l.documents collected.channelProvided collected.storageProvided
        block.header.blockNumber.toNat = .ok shares ∧
      (shares.unitUriViewCounts.isEmpty ∨ (shares.authorResult ≠ [] ∧
        shares.channelResult ≠ [] ∧ shares.storageResult ≠ [])) ∧
      payViewed ctx.blockchain block.header.blockNumber.toNat type
        shares.unitUriViewCounts.keys (l.documents, []) = .ok (viewedDocs, paid) ∧
      returnExpired ctx.blockchain block.header.blockNumber.toNat type shares.unitUriViewCounts
        (viewedDocs.contentUnitUriSponsorExpiring block.header.blockNumber.toNat)
        (viewedDocs, []) = .ok (docs, expired) ∧
      composeRewards ctx miner block.header.blockNumber.toNat shares paid
        (collected.returns ++ expired) = .ok rewards ∧
      granted = ⟨docs, rewards, shares.unitUriViewCounts, paid, collected.returns ++ expired⟩ := by
  obtain ⟨collected, hcollected, h⟩ := bind_ok_iff.mp h
  obtain ⟨shares, hshares, h⟩ := bind_ok_iff.mp h
  obtain ⟨hwhole, h⟩ := require_bind_ok_iff.mp h
  obtain ⟨⟨viewedDocs, paid⟩, hpaid, h⟩ := bind_ok_iff.mp h
  obtain ⟨⟨docs, expired⟩, hexpired, h⟩ := bind_ok_iff.mp h
  obtain ⟨rewards, hrewards, h⟩ := bind_ok_iff.mp h
  exact ⟨collected, shares, viewedDocs, paid, docs, expired, rewards, hcollected, hshares, hwhole,
    hpaid, hexpired, hrewards, (pure_ok_iff.mp h).symm⟩

/-- `check_rewards`, true for an error: the rewards of the block are not the granted ones. -/
def checkRewards (ctx : Context) (block : Block) (minerAddress : String) (type : SetUsed)
    (l : Ledger) : Checked (Bool × Granted) := do
  let granted ← grantRewards ctx block minerAddress type l
  pure (decide (granted.rewards ≠ block.rewards), granted)

def increaseRewards (ctx : Context) : List Reward → Ledger → Checked Ledger :=
  Checked.runAll fun reward l => l.increase ctx reward.target reward.amount .chain

def decreaseRewards (ctx : Context) (rewards : List Reward) : Ledger → Checked Ledger :=
  Checked.runAll (fun reward l => l.decrease ctx reward.target reward.amount .chain)
    rewards.reverse

end Publiq
