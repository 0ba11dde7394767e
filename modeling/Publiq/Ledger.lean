import Publiq.AuthorityManager
import Publiq.Sponsoring
import Publiq.State

/-! What the actions of a transaction read and change: the ledger, which blocks
and the pool build up, and around it the parts of the node that they only read. -/
namespace Publiq
open Message Checked

/-- The part of the node that transactions change. -/
structure Ledger where
  state : State
  documents : Documents
  authorityManager : AuthorityManager
  deriving DecidableEq

/-- The parts of `node_internals` that transactions read and never change. -/
structure Context where
  config : Config
  /-- `m_nodeid_service.get_addresses()`. -/
  addresses : List PublicAddressInfo
  blockchain : Blockchain
  mineAmountThreshhold : Coin
  blockRewardArray : List Coin
  deriving DecidableEq

def Context.withChain (ctx : Context) (chain : Blockchain) : Context :=
  { ctx with blockchain := chain }

/-- A node with a key and a type, on any chain. -/
def exampleNode (own : String) (nodeType : NodeType) : Context :=
  { config := ⟨own, own, nodeType, "", false, false, false⟩
    addresses := []
    blockchain := ⟨[⟨⟨⟨0, 0, 0, 1, "", 0⟩, [], []⟩, ⟨"", ""⟩⟩], by decide, by
      intro i b h
      rw [List.getElem?_singleton] at h
      split at h
      · rename_i hi
        cases h
        exact hi.symm
      · cases h⟩
    mineAmountThreshhold := 0
    blockRewardArray := [⟨1000, 0, by decide⟩] }

/-- `front_public_key().to_string()`. -/
def Context.own (ctx : Context) : String := ctx.config.publicKey

namespace Ledger

instance : Inhabited Ledger := ⟨⟨default, default, default⟩⟩

def onState (f : State → Checked State) (l : Ledger) : Checked Ledger := do
  let state ← f l.state
  pure { l with state }

def onDocuments (f : Documents → Checked Documents) (l : Ledger) : Checked Ledger := do
  let documents ← f l.documents
  pure { l with documents }

def onAuthorities (f : AuthorityManager → Checked AuthorityManager) (l : Ledger) :
    Checked Ledger := do
  let authorityManager ← f l.authorityManager
  pure { l with authorityManager }

def requireAuthority (l : Ledger) (owner signer : String) (rtt : ℕ) (e : Failure) :
    Checked Unit := do
  let permitted ← l.authorityManager.checkAuthority owner signer rtt
  require (permitted = true) e

/-- `balance < amount` for an amount as it stands in a message. -/
def balanceBelow (l : Ledger) (owner : String) (amount : Message.Coin) : Checked Bool := do
  let amount ← Coin.ofMessage amount
  pure ((l.state.getBalance owner .pool).lt amount)

/-- `increase_balance` with an amount as it stands in a message. -/
def increase (ctx : Context) (key : String) (amount : Message.Coin) (layer : StateLayer)
    (l : Ledger) : Checked Ledger := do
  let amount ← Coin.ofMessage amount
  pure { l with state := l.state.increaseBalance ctx.own key amount layer }

/-- `decrease_balance` with an amount as it stands in a message. -/
def decrease (ctx : Context) (key : String) (amount : Message.Coin) (layer : StateLayer)
    (l : Ledger) : Checked Ledger := do
  let amount ← Coin.ofMessage amount
  l.onState (State.decreaseBalance ctx.own key amount layer)

end Ledger
end Publiq
