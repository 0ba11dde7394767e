import Publiq.Message

/-! `common.hpp`, `config.hpp` and the libraries the node is linked with: the
constants of the protocol, the clock, the settings of one node, and the
functions of serialisation and cryptography taken as parameters. -/
namespace Publiq
open Message

/-- `BLOCK_TR_LENGTH`: blocks in one response, less one. -/
def blockTrLength : ℕ := 9

/-- `HEADER_TR_LENGTH`: headers in one response, less one. -/
def headerTrLength : ℕ := 49

/-- `BLOCK_INSERT_LENGTH`: blocks collected before they are inserted. -/
def blockInsertLength : ℕ := 50

/-- `BLOCK_MINE_DELAY`, in seconds as the next three. -/
def blockMineDelay : ℕ := 600

/-- `BLOCK_WAIT_DELAY`. -/
def blockWaitDelay : ℕ := 120

/-- `BLOCK_SAFE_DELAY`. -/
def blockSafeDelay : ℕ := 240

/-- `NODES_TIME_SHIFT`. -/
def nodesTimeShift : ℕ := 60

/-- `BLOCK_MAX_TRANSACTIONS`. -/
def blockMaxTransactions : ℕ := 1000

/-- `TRANSACTION_MAX_LIFETIME_HOURS`. -/
def transactionMaxLifetimeHours : ℕ := 24

/-- `PUBLIC_ADDRESS_FRESH_THRESHHOLD_SECONDS`. -/
def publicAddressFreshThreshholdSeconds : ℕ := 600

/-- `DELTA_STEP`. -/
def deltaStep : ℕ := 3

/-- `DELTA_MAX`. -/
def deltaMax : UInt64 := 7000000000

/-- `DELTA_UP`. -/
def deltaUp : UInt64 := 4000000000

/-- `DELTA_DOWN`. -/
def deltaDown : UInt64 := 1000000000

/-- `DIST_MAX`. -/
def distMax : UInt64 := 4294967296

/-- `CHANNEL_AMOUNT_THRESHOLD`. -/
def channelAmountThreshold : Coin := ⟨100000, 0, Coin.zero_fraction_lt⟩

/-- `STORAGE_AMOUNT_THRESHOLD`. -/
def storageAmountThreshold : Coin := ⟨10000, 0, Coin.zero_fraction_lt⟩

/-- `state_layer`. -/
inductive StateLayer where
  | chain
  | pool
  deriving DecidableEq

/-- What the generated serialisers and `mesh.pp` compute. -/
class Externals where
  /-- `Transaction::to_string`. -/
  transactionToString : Transaction → String
  /-- `SignedTransaction::to_string`. -/
  signedTransactionToString : SignedTransaction → String
  /-- `Block::to_string`. -/
  blockToString : Block → String
  /-- `meshpp::hash`. -/
  hash : String → String
  /-- `meshpp::distance`. -/
  distance : String → String → UInt64
  /-- `meshpp::public_key`, which refuses a malformed key. -/
  publicKey : String → Checked Unit
  /-- `meshpp::signature`, which refuses a signature that does not verify. -/
  signature : (publicKey message signature : String) → Checked Unit
  /-- `meshpp::verify_signature`. -/
  verifySignature : (publicKey message signature : String) → Bool
  /-- `meshpp::from_base58`. -/
  fromBase58 : String → Checked (List UInt8)
  /-- `private_key::sign`: the public key and the signature. -/
  sign : (privateKey message : String) → Authority

/-- A node that takes every key and signature, and writes everything as the same text. -/
@[reducible] def plainExternals : Externals where
  transactionToString _ := ""
  signedTransactionToString _ := ""
  blockToString _ := ""
  hash s := s
  distance _ _ := 0
  publicKey _ := .ok ()
  signature _ _ _ := .ok ()
  verifySignature _ _ _ := true
  fromBase58 _ := .ok (List.replicate 32 0)
  sign key _ := ⟨key, ""⟩

/-- A node that takes every key and signature, and names every block and transaction: those
given by their place. -/
@[reducible] noncomputable def namedExternals (blocks : List Block)
    (transactions : List SignedTransaction) : Externals :=
  { plainExternals with
    signedTransactionToString := nameOf transactions
    blockToString := nameOf blocks }

section
variable [Externals]

/-- `meshpp::hash(signed_transaction.to_string())`. -/
def transactionHash (signedTransaction : SignedTransaction) : String :=
  Externals.hash (Externals.signedTransactionToString signedTransaction)

/-- `meshpp::hash(block.to_string())`. -/
def blockHash (block : Block) : String := Externals.hash (Externals.blockToString block)

/-- A hash stands for one block, and for one transaction. -/
structure Externals.Collisionless : Prop where
  block : Function.Injective blockHash
  transaction : Function.Injective transactionHash

/-- Refuse a uri that is not the base58 form of a 32-byte hash. -/
def requireUri (uri : String) : Checked Unit := do
  let fileHash ← Externals.fromBase58 uri
  Checked.require (fileHash.length = 32) (.uri uri .invalid)

/-- `from_base58` does not read a hash from an empty text. -/
def Externals.EmptyNoUri : Prop :=
  ∀ bytes, Externals.fromBase58 "" = .ok bytes → bytes.length ≠ 32

theorem ne_empty_of_requireUri (empty : Externals.EmptyNoUri) {uri : String} {u : PUnit}
    (h : requireUri uri = .ok u) : uri ≠ "" := by
  rintro rfl
  obtain ⟨bytes, hbytes, h⟩ := Checked.bind_ok_iff.mp h
  exact empty bytes hbytes (Checked.require_ok_iff.mp h)

end

theorem namedExternals_collisionless (blocks : List Block)
    (transactions : List SignedTransaction) :
    @Externals.Collisionless (namedExternals blocks transactions) :=
  @Externals.Collisionless.mk (namedExternals blocks transactions) (nameOf_injective blocks)
    (nameOf_injective transactions)

/-- `config`, as far as the modelled functions read it. -/
structure Config where
  publicKey : String
  key : String
  nodeType : NodeType
  managerAddress : String
  testnet : Bool
  transferOnly : Bool
  actionLog : Bool
  deriving DecidableEq

/-- Seconds as a 64-bit count of nanoseconds keeps them, the form of
`system_clock` time points and durations. -/
def clockSeconds (seconds : ℤ) : ℤ := (Int.bmod (seconds * 1000000000) (2 ^ 64)).tdiv 1000000000

/-- `system_clock::from_time_t`: nanoseconds in a word of 64 bits, which wraps. -/
def fromTimeT (seconds : ℤ) : ℤ := Int.bmod (seconds * 1000000000) (2 ^ 64)

/-- The time that `clockSeconds` keeps in the sum and the difference of two times. -/
def clockRange : ℤ := 4611686018

theorem clockSeconds_eq {t : ℤ} (low : -(2 * clockRange) ≤ t) (high : t ≤ 2 * clockRange) :
    clockSeconds t = t := by
  unfold clockRange at low high
  have keep : Int.bmod (t * 1000000000) (2 ^ 64) = t * 1000000000 := by
    apply Int.bmod_eq_of_le
    · omega
    · omega
  rw [clockSeconds, keep]
  exact Int.mul_tdiv_cancel t (by decide)

/-- `signed_transaction.authorizations.front()`. An empty list of authorizations
is refused before any action is looked at. -/
def Message.SignedTransaction.signer (signedTransaction : SignedTransaction) : String :=
  (signedTransaction.authorizations.head?.map Authority.address).getD ""

/-- `authority_exception(signed_transaction.authorizations.back().address, string())`. -/
def Message.SignedTransaction.backAuthority (signedTransaction : SignedTransaction) : Failure :=
  .authority ((signedTransaction.authorizations.getLast?.map Authority.address).getD "") ""

end Publiq
