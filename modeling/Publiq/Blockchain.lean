import Publiq.Common
import Mathlib.Data.List.GetD
import Mathlib.Tactic.Common

/-! `blockchain.cpp`: the blocks a node holds, from the genesis block up. -/
namespace Publiq
open Message Checked

def Message.SignedBlock.number (signedBlock : SignedBlock) : ℕ :=
  signedBlock.blockDetails.header.blockNumber.toNat

/-- `publiqpp::blockchain` with at least the genesis block. `insert` takes only
the block whose number is the length, so every block stands at its number. -/
structure Blockchain where
  blocks : List SignedBlock
  nonempty : blocks ≠ []
  numbered : ∀ i (b : SignedBlock), blocks[i]? = some b → b.number = i
  deriving DecidableEq

/-- `blockchain::get_miner`: who receives the miner reward, or else the signer. -/
def getMiner (signedBlock : SignedBlock) : Checked String := do
  let miner ← signedBlock.blockDetails.rewards.foldlM (fun miner reward =>
    if reward.rewardType = .miner then do
      require (miner = "") (.logicError "blockchain::get_miner: false == miner.empty()")
      pure reward.target
    else pure miner) ""
  pure (if miner = "" then signedBlock.authorization.address else miner)

theorem getMiner_ne_empty {signedBlock : SignedBlock} {miner : String}
    (signed : signedBlock.authorization.address ≠ "") (h : getMiner signedBlock = .ok miner) :
    miner ≠ "" := by
  obtain ⟨found, _, h⟩ := bind_ok_iff.mp h
  have h := pure_ok_iff.mp h
  split_ifs at h with hfound
  · exact h ▸ signed
  · exact h ▸ hfound

namespace Blockchain

@[ext] theorem ext {a b : Blockchain} (h : a.blocks = b.blocks) : a = b := by
  rcases a with ⟨a, ha, hna⟩
  rcases b with ⟨b, hb, hnb⟩
  cases h
  rfl

def start (genesis : SignedBlock) : Checked Blockchain :=
  if h : genesis.number = 0 then
    .ok ⟨[genesis], by simp, by
      intro i b hb
      rw [List.getElem?_singleton] at hb
      split at hb
      · rename_i hi
        cases hb
        exact h.trans hi.symm
      · cases hb⟩
  else .error (.runtimeError "Wrong block to insert!")

/-- `blockchain::length`. -/
def length (chain : Blockchain) : ℕ := chain.blocks.length

def lastBlock (chain : Blockchain) : SignedBlock := chain.blocks.getLast chain.nonempty

/-- `blockchain::last_header`. -/
def lastHeader (chain : Blockchain) : BlockHeader := chain.lastBlock.blockDetails.header

/-- `blockchain::at`. -/
def blockAt (chain : Blockchain) (number : ℕ) : Checked SignedBlock :=
  match chain.blocks[number]? with
  | some signedBlock => .ok signedBlock
  | none => .error (.outOfRange "blockchain::at")

/-- `blockchain::header_at`. -/
def headerAt (chain : Blockchain) (number : ℕ) : Checked BlockHeader := do
  let signedBlock ← chain.blockAt number
  pure signedBlock.blockDetails.header

/-- `blockchain::insert`. -/
def insert (chain : Blockchain) (signedBlock : SignedBlock) : Checked Blockchain :=
  if h : signedBlock.number = chain.length then
    .ok ⟨chain.blocks ++ [signedBlock], by simp, by
      intro i b hb
      rw [List.getElem?_append] at hb
      split at hb
      · exact chain.numbered i b hb
      · rename_i hi
        rw [List.getElem?_singleton] at hb
        split at hb
        · rename_i hz
          cases hb
          simp only [length] at h
          omega
        · cases hb⟩
  else .error (.runtimeError "Wrong block to insert!")

/-- `blockchain::remove_last_block`. -/
def removeLastBlock (chain : Blockchain) : Checked Blockchain :=
  if h : chain.length = 1 then .error (.runtimeError "Nothing to remove!")
  else .ok ⟨chain.blocks.dropLast, by
      have hpos := List.length_pos_iff.mpr chain.nonempty
      intro hnil
      have hl := congrArg List.length hnil
      simp only [List.length_dropLast, List.length_nil, length] at *
      omega, by
      intro i b hb
      rw [List.getElem?_dropLast] at hb
      split at hb
      · exact chain.numbered i b hb
      · cases hb⟩

theorem length_pos (chain : Blockchain) : 0 < chain.length :=
  List.length_pos_iff.mpr chain.nonempty

theorem lastHeader_number (chain : Blockchain) :
    chain.lastHeader.blockNumber.toNat + 1 = chain.length := by
  have hlast : chain.blocks[chain.length - 1]? = some chain.lastBlock := by
    rw [lastBlock, List.getLast_eq_getElem, length, List.getElem?_eq_getElem]
  have hnumber := chain.numbered _ _ hlast
  have hpos := chain.length_pos
  change chain.lastBlock.number + 1 = chain.length
  omega

theorem start_blocks {chain : Blockchain} {genesis : SignedBlock}
    (h : start genesis = .ok chain) : chain.blocks = [genesis] := by
  unfold start at h
  split_ifs at h
  cases h
  rfl

theorem insert_ok_iff {chain after : Blockchain} {signedBlock : SignedBlock} :
    chain.insert signedBlock = .ok after ↔
      signedBlock.number = chain.length ∧ after.blocks = chain.blocks ++ [signedBlock] := by
  unfold insert
  split
  · rename_i h
    constructor
    · intro heq
      cases heq
      exact ⟨h, rfl⟩
    · rintro ⟨_, hb⟩
      exact congrArg Except.ok (ext hb.symm)
  · rename_i h
    simp [h]

theorem length_insert {chain after : Blockchain} {signedBlock : SignedBlock}
    (h : chain.insert signedBlock = .ok after) : after.length = chain.length + 1 := by
  rw [length, (insert_ok_iff.mp h).2, List.length_append]
  rfl

theorem lastBlock_insert {chain after : Blockchain} {signedBlock : SignedBlock}
    (h : chain.insert signedBlock = .ok after) : after.lastBlock = signedBlock := by
  have hb := (insert_ok_iff.mp h).2
  simp only [lastBlock, hb, List.getLast_append_singleton]

theorem removeLastBlock_ok_iff {chain before : Blockchain} :
    chain.removeLastBlock = .ok before ↔
      chain.length ≠ 1 ∧ before.blocks = chain.blocks.dropLast := by
  unfold removeLastBlock
  split
  · rename_i h
    simp [h]
  · rename_i h
    constructor
    · intro heq
      cases heq
      exact ⟨h, rfl⟩
    · rintro ⟨_, hb⟩
      exact congrArg Except.ok (ext hb.symm)

theorem removeLastBlock_insert {chain after : Blockchain} {signedBlock : SignedBlock}
    (h : chain.insert signedBlock = .ok after) : after.removeLastBlock = .ok chain := by
  have hb := (insert_ok_iff.mp h).2
  have hl := length_insert h
  have hpos := chain.length_pos
  rw [removeLastBlock_ok_iff]
  refine ⟨by omega, ?_⟩
  rw [hb, List.dropLast_concat]

theorem blockAt_ok_iff {chain : Blockchain} {number : ℕ} {signedBlock : SignedBlock} :
    chain.blockAt number = .ok signedBlock ↔ chain.blocks[number]? = some signedBlock := by
  unfold blockAt
  cases chain.blocks[number]? with
  | none => simp
  | some b => simp

theorem blockAt_removeLastBlock {chain before : Blockchain}
    (h : chain.removeLastBlock = .ok before) {number : ℕ} {signedBlock : SignedBlock}
    (hat : before.blocks[number]? = some signedBlock) :
    chain.blocks[number]? = some signedBlock := by
  rw [(removeLastBlock_ok_iff.mp h).2, List.getElem?_dropLast] at hat
  split_ifs at hat
  exact hat

section
variable [Externals]

/-- `blockchain::last_hash`. -/
def lastHash (chain : Blockchain) : String := blockHash chain.lastBlock.blockDetails

/-- `blockchain::last_header_ex`. -/
def lastHeaderEx (chain : Blockchain) : BlockHeaderExtended :=
  { chain.lastHeader with blockHash := chain.lastHash }

/-- `blockchain::header_ex_at`: the hash of a block that is not the last one is
what the next header refers to. -/
def headerExAt (chain : Blockchain) (number : ℕ) : Checked BlockHeaderExtended :=
  if number ≠ chain.length - 1 then do
    let header ← chain.headerAt number
    let next ← chain.headerAt (number + 1)
    pure { header with blockHash := next.prevHash }
  else pure chain.lastHeaderEx

theorem headerExAt_total {chain : Blockchain} {number : ℕ} {header : BlockHeaderExtended}
    (h : chain.headerExAt number = .ok header) :
    ∃ signedBlock, chain.blocks[number]? = some signedBlock := by
  unfold headerExAt at h
  split_ifs at h with hnumber
  · obtain ⟨_, h, _⟩ := bind_ok_iff.mp h
    obtain ⟨signedBlock, hat, _⟩ := bind_ok_iff.mp h
    exact ⟨signedBlock, blockAt_ok_iff.mp hat⟩
  · refine ⟨chain.lastBlock, ?_⟩
    rw [not_not.mp hnumber, lastBlock, List.getLast_eq_getElem, length, List.getElem?_eq_getElem]

end
end Blockchain
end Publiq
