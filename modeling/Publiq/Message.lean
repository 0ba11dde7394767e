import Publiq.Coin
import Publiq.Foundation.Naming
import Mathlib.Data.Finset.Basic
import Mathlib.Data.Finset.Lattice.Fold

/-! `message.idl`: what nodes exchange and store. Times are seconds, as
`time_t` counts them; the `rtt` numbers follow the order of the classes. -/
namespace Publiq

namespace Message

/-- `BlockchainMessage::Coin`, as received: nothing bounds the fraction. -/
structure Coin where
  whole : UInt64
  fraction : UInt64
  deriving DecidableEq, Countable

instance : Zero Coin := ⟨⟨0, 0⟩⟩

inductive NodeType where
  | blockchain
  | channel
  | storage
  deriving DecidableEq, Countable

inductive UpdateType where
  | store
  | remove
  deriving DecidableEq, Countable

inductive RewardType where
  | initial
  | miner
  | author
  | channel
  | storage
  | sponsoredReturn
  deriving DecidableEq, Countable

structure Authority where
  address : String
  signature : String
  deriving DecidableEq, Countable

structure Transfer where
  source : String
  target : String
  amount : Coin
  message : String
  deriving DecidableEq, Countable

structure AuthorizationUpdate where
  updateType : UpdateType
  owner : String
  actor : String
  actionIds : Finset ℕ
  deriving DecidableEq, Countable

structure File where
  uri : String
  authorAddresses : List String
  deriving DecidableEq, Countable

structure ContentUnit where
  uri : String
  contentId : UInt64
  authorAddresses : List String
  channelAddress : String
  fileUris : List String
  deriving DecidableEq, Countable

structure Content where
  contentId : UInt64
  channelAddress : String
  contentUnitUris : List String
  deriving DecidableEq, Countable

structure Role where
  nodeAddress : String
  nodeType : NodeType
  deriving DecidableEq, Countable

structure StorageUpdate where
  status : UpdateType
  fileUri : String
  storageAddress : String
  deriving DecidableEq, Countable

structure ServiceStatisticsCount where
  count : UInt64
  peerAddress : String
  deriving DecidableEq, Countable

structure ServiceStatisticsFile where
  fileUri : String
  unitUri : String
  countItems : List ServiceStatisticsCount
  deriving DecidableEq, Countable

structure ServiceStatistics where
  serverAddress : String
  startTimePoint : ℤ
  endTimePoint : ℤ
  fileItems : List ServiceStatisticsFile
  deriving DecidableEq, Countable

structure SponsorContentUnit where
  sponsorAddress : String
  uri : String
  startTimePoint : ℤ
  hours : UInt64
  amount : Coin
  deriving DecidableEq, Countable

structure CancelSponsorContentUnit where
  sponsorAddress : String
  uri : String
  transactionHash : String
  deriving DecidableEq, Countable

/-- `Transaction.action`: one of the ten actions, or a package of any other
type, which the handlers refuse. -/
inductive Action where
  | transfer (a : Transfer)
  | authorizationUpdate (a : AuthorizationUpdate)
  | file (a : File)
  | contentUnit (a : ContentUnit)
  | content (a : Content)
  | role (a : Role)
  | storageUpdate (a : StorageUpdate)
  | serviceStatistics (a : ServiceStatistics)
  | sponsorContentUnit (a : SponsorContentUnit)
  | cancelSponsorContentUnit (a : CancelSponsorContentUnit)
  | unknown (rtt : ℕ)
  deriving DecidableEq, Countable

structure Transaction where
  creation : ℤ
  expiry : ℤ
  fee : Coin
  action : Action
  deriving DecidableEq, Countable

structure SignedTransaction where
  transactionDetails : Transaction
  authorizations : List Authority
  deriving DecidableEq, Countable

structure Reward where
  target : String
  amount : Coin
  rewardType : RewardType
  deriving DecidableEq, Countable

structure BlockHeader where
  blockNumber : UInt64
  delta : UInt64
  cSum : UInt64
  cConst : UInt64
  prevHash : String
  timeSigned : ℤ
  deriving DecidableEq, Countable

structure BlockHeaderExtended extends BlockHeader where
  blockHash : String
  deriving DecidableEq

structure Block where
  header : BlockHeader
  rewards : List Reward
  signedTransactions : List SignedTransaction
  deriving DecidableEq, Countable

structure SignedBlock where
  blockDetails : Block
  authorization : Authority
  deriving DecidableEq

/-- `PublicAddressInfo`: the address a node was last reached at. -/
structure PublicAddressInfo where
  nodeAddress : String
  ipAddress : String
  secondsSinceChecked : ℕ
  deriving DecidableEq

/-! The `rtt` of the packages, by which authorities are granted. -/

def Block.rtt : ℕ := 7
def Transfer.rtt : ℕ := 13
def AuthorizationUpdate.rtt : ℕ := 14
def File.rtt : ℕ := 29
def ContentUnit.rtt : ℕ := 30
def Content.rtt : ℕ := 31
def Role.rtt : ℕ := 32
def StorageUpdate.rtt : ℕ := 34
def ServiceStatistics.rtt : ℕ := 35
def SponsorContentUnit.rtt : ℕ := 38
def CancelSponsorContentUnit.rtt : ℕ := 39

/-- `package.type()`. -/
def Action.rtt : Action → ℕ
  | .transfer _ => Transfer.rtt
  | .authorizationUpdate _ => AuthorizationUpdate.rtt
  | .file _ => File.rtt
  | .contentUnit _ => ContentUnit.rtt
  | .content _ => Content.rtt
  | .role _ => Role.rtt
  | .storageUpdate _ => StorageUpdate.rtt
  | .serviceStatistics _ => ServiceStatistics.rtt
  | .sponsorContentUnit _ => SponsorContentUnit.rtt
  | .cancelSponsorContentUnit _ => CancelSponsorContentUnit.rtt
  | .unknown rtt => rtt

/-- What `action_validate(AuthorizationUpdate)` lets be granted one by one: every
action but the update itself, and to sign addresses, letters, storage commands and blocks. -/
def allowedIds : List ℕ :=
  [33, 114, 113, Transfer.rtt, Role.rtt, File.rtt, ContentUnit.rtt, Content.rtt,
    SponsorContentUnit.rtt, CancelSponsorContentUnit.rtt, ServiceStatistics.rtt,
    StorageUpdate.rtt, Block.rtt]

end Message

/-- `coin(Coin const&)`: the constructor refuses a fraction of a whole or more. -/
def Coin.ofMessage (c : Message.Coin) : Except Failure Coin :=
  if h : c.fraction.toNat < fractionsInWhole then .ok ⟨c.whole, c.fraction, h⟩
  else .error (.runtimeError s!"invalid coin amount: ({c.whole}, {c.fraction})")

/-- `coin::to_Coin`. -/
def Coin.toMessage (c : Coin) : Message.Coin := ⟨c.whole, c.fraction⟩

@[simp] theorem Coin.ofMessage_toMessage (c : Coin) : Coin.ofMessage c.toMessage = .ok c := by
  simp [Coin.ofMessage, Coin.toMessage, c.fraction_lt]

theorem Coin.toMessage_ofMessage {m : Message.Coin} {c : Coin} (h : Coin.ofMessage m = .ok c) :
    c.toMessage = m := by
  unfold Coin.ofMessage at h
  split_ifs at h
  cases h
  rfl

def Message.Coin.value (c : Message.Coin) : ℕ :=
  match Coin.ofMessage c with
  | .ok coin => coin.value
  | .error _ => 0

def Message.Coin.Proper (c : Message.Coin) : Prop := (Coin.ofMessage c).isOk = true

theorem Coin.proper_of_ofMessage {c : Message.Coin} {coin : Coin} (h : Coin.ofMessage c = .ok coin) :
    c.Proper ∧ coin.value = c.value := by
  unfold Message.Coin.Proper Message.Coin.value
  rw [h]
  exact ⟨rfl, rfl⟩

theorem Message.Coin.Proper.ofMessage {c : Message.Coin} (h : c.Proper) :
    ∃ coin, Coin.ofMessage c = .ok coin ∧ coin.value = c.value := by
  obtain ⟨coin, hcoin⟩ := Checked.isOk_iff.mp h
  exact ⟨coin, hcoin, (Coin.proper_of_ofMessage hcoin).2⟩

theorem Message.Coin.value_zero : (0 : Message.Coin).value = 0 := by
  have h : Coin.ofMessage 0 = .ok 0 := rfl
  rw [← (Coin.proper_of_ofMessage h).2]
  exact Publiq.Coin.value_zero

@[simp] theorem Coin.value_toMessage (c : Coin) : c.toMessage.value = c.value :=
  (Coin.proper_of_ofMessage (Coin.ofMessage_toMessage c)).2.symm

end Publiq
