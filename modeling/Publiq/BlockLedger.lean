import Publiq.Rewards
import Publiq.TransactionHandler

/-! A block as a function of the ledger: its transactions, then its rewards. A chain
gives the ledger that its blocks build up from nothing. -/
namespace Publiq
open Message Checked

variable [Documents.EntrySort] [Externals]

def applyMined (ctx : Context) (miner : String) (signedTransaction : SignedTransaction)
    (l : Ledger) : Checked Ledger := do
  let (applied, l) ← applyTransaction ctx miner signedTransaction l
  require (applied = true) (.wrongData "blockchain response. apply_transaction(). ")
  pure l

def applyRewards (ctx : Context) (block : Block) (miner : String) (l : Ledger) :
    Checked Ledger := do
  let (mismatch, granted) ← checkRewards ctx block miner .apply l
  require (mismatch = false)
    (.wrongData s!"block response - {block.header.blockNumber}. block rewards!")
  increaseRewards ctx block.rewards { l with documents := granted.documents }

/-- The ledger after a block that was mined by an account, on the chain before it. -/
def applyBlock (ctx : Context) (block : Block) (miner : String) (l : Ledger) :
    Checked Ledger := do
  let l ← runAll (applyMined ctx miner) block.signedTransactions l
  applyRewards ctx block miner l

def revertRewards (ctx : Context) (block : Block) (miner : String) (l : Ledger) :
    Checked Ledger := do
  let (mismatch, granted) ← checkRewards ctx block miner .revert l
  require (mismatch = false) (.wrongData
    s!"block response - {block.header.blockNumber}. block rewards reverting error!")
  decreaseRewards ctx block.rewards { l with documents := granted.documents }

/-- The ledger before a block that was mined by an account, on the chain before it. -/
def revertBlock (ctx : Context) (block : Block) (miner : String) (l : Ledger) :
    Checked Ledger := do
  let l ← revertRewards ctx block miner l
  runAll (revertTransaction ctx miner) block.signedTransactions.reverse l

def replayBlock (ctx : Context) (signedBlock : SignedBlock) (s : Blockchain × Ledger) :
    Checked (Blockchain × Ledger) := do
  let miner ← getMiner signedBlock
  let l ← applyBlock (ctx.withChain s.1) signedBlock.blockDetails miner s.2
  let chain ← s.1.insert signedBlock
  pure (chain, l)

def replay (ctx : Context) (genesis : SignedBlock) (blocks : List SignedBlock) :
    Checked (Blockchain × Ledger) := do
  let chain ← Blockchain.start genesis
  let l ← increaseRewards (ctx.withChain chain) genesis.blockDetails.rewards default
  runAll (replayBlock ctx) blocks (chain, l)

end Publiq
