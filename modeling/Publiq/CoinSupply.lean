import Publiq.BlockPayouts
import Publiq.BlockTotals

/-! What all accounts have together. Transactions move it, sponsorships lock a part of it, and
only the genesis block and the schedule make it. -/
namespace Publiq
open Message Checked

namespace State

def supply (s : State) : ℕ := mapSum Coin.value s.accounts

theorem supply_setBalance (own key : String) (amount : Coin) (layer : StateLayer) (s : State) :
    (setBalance own key amount layer s).supply + s.worth key = s.supply + amount.value :=
  mapSum_set Coin.value_zero s.accounts key amount

theorem worth_le_supply (s : State) (key : String) : s.worth key ≤ s.supply := by
  have h := supply_setBalance "" key 0 .pool s
  rw [Coin.value_zero] at h
  omega

theorem worth_add_worth_le_supply (s : State) {key other : String} (differ : key ≠ other) :
    s.worth key + s.worth other ≤ s.supply := by
  have h := supply_setBalance "" key 0 .pool s
  have hother := worth_le_supply (setBalance "" key 0 .pool s) other
  rw [worth, setBalance_accounts, SparseMap.get_set_of_ne _ differ] at hother
  rw [Coin.value_zero] at h
  change s.worth other ≤ _ at hother
  omega

theorem supply_increaseBalance {own key : String} {amount : Coin} {layer : StateLayer} {s : State}
    (fits : s.worth key + amount.value < Coin.limit) :
    (increaseBalance own key amount layer s).supply = s.supply + amount.value := by
  have h := mapSum_set Coin.value_zero s.accounts key (s.accounts.get key + amount)
  have hsum : (s.accounts.get key + amount).value = s.worth key + amount.value :=
    Coin.value_add fits
  have hworth : (s.accounts.get key).value = s.worth key := rfl
  rw [hsum, hworth] at h
  rw [supply, increaseBalance_accounts, supply]
  omega

theorem supply_decreaseBalance {own key : String} {amount : Coin} {layer : StateLayer}
    {s t : State} (h : decreaseBalance own key amount layer s = .ok t) :
    t.supply + amount.value = s.supply := by
  obtain ⟨rest, hsub, ht⟩ := decreaseBalance_accounts h
  have hset := mapSum_set Coin.value_zero s.accounts key rest
  have hrest := Coin.value_sub hsub
  rw [supply, ht, supply]
  omega

/-- The balance of the receiver of an amount cannot wrap, or the sender did not have the amount. -/
theorem worth_fits_of_moved {own source target : String} {amount : Coin} {layer : StateLayer}
    {s t : State} (fits : s.supply < Coin.limit)
    (h : decreaseBalance own source amount layer (increaseBalance own target amount layer s) =
      .ok t) : s.worth target + amount.value < Coin.limit := by
  have hhas := decreaseBalance_le h
  rw [worth, increaseBalance_accounts, SparseMap.get_set] at hhas
  split_ifs at hhas with hsame
  · rw [Coin.value_add_mod] at hhas
    have hbound := amount.value_bound
    have hworth := (s.accounts.get target).value_bound
    change (s.accounts.get target).value + _ < _
    by_contra hwraps
    have hmod := Nat.mod_eq_sub_mod (not_lt.mp hwraps)
    rw [hmod, Nat.mod_eq_of_lt (by omega)] at hhas
    omega
  · have hboth := s.worth_add_worth_le_supply hsame
    change _ ≤ s.worth source at hhas
    omega

/-- An amount that goes from one account to another is counted once, though the receiver has it
first. -/
theorem supply_moved {own source target : String} {amount : Coin} {layer : StateLayer}
    {s t : State} (fits : s.supply < Coin.limit)
    (h : decreaseBalance own source amount layer (increaseBalance own target amount layer s) =
      .ok t) : t.supply = s.supply := by
  have hup : (increaseBalance own target amount layer s).supply = s.supply + amount.value :=
    supply_increaseBalance (worth_fits_of_moved fits h)
  have hdown := supply_decreaseBalance h
  omega

end State

def lockedBy (st : SignedTransaction) : ℕ :=
  match st.transactionDetails.action with
  | .sponsorContentUnit sponsor => sponsor.amount.value
  | _ => 0

section
variable {ctx : Context} {st : SignedTransaction} {layer : StateLayer} {l mid after : Ledger}

theorem supply_of_move {target source : String} {amount : Message.Coin}
    (fits : l.state.supply < Coin.limit) (hup : l.increase ctx target amount layer = .ok mid)
    (hdown : mid.decrease ctx source amount layer = .ok after) :
    after.state.supply = l.state.supply := by
  obtain ⟨coin, hcoin, hup⟩ := bind_ok_iff.mp hup
  cases pure_ok_iff.mp hup
  obtain ⟨same, hsame, hdown⟩ := bind_ok_iff.mp hdown
  cases hcoin.symm.trans hsame
  obtain ⟨state, hstate, hdown⟩ := bind_ok_iff.mp hdown
  cases pure_ok_iff.mp hdown
  exact State.supply_moved fits hstate

theorem supply_increase {key : String} {amount : Message.Coin}
    (fits : l.state.supply + amount.value < Coin.limit)
    (h : l.increase ctx key amount layer = .ok after) :
    after.state.supply = l.state.supply + amount.value := by
  obtain ⟨coin, hcoin, h⟩ := bind_ok_iff.mp h
  cases pure_ok_iff.mp h
  rw [← (Coin.proper_of_ofMessage hcoin).2] at fits ⊢
  exact State.supply_increaseBalance
    ((Nat.add_le_add_right (l.state.worth_le_supply key) _).trans_lt fits)

theorem supply_feeApply {receiver : String} (fits : l.state.supply < Coin.limit)
    (h : feeApply ctx st receiver l = .ok after) : after.state.supply = l.state.supply := by
  unfold feeApply at h
  split_ifs at h with hnobody
  · cases pure_ok_iff.mp h
    rfl
  · obtain ⟨payer, _, h⟩ := bind_ok_iff.mp h
    obtain ⟨mid, hmid, h⟩ := bind_ok_iff.mp h
    exact supply_of_move fits hmid h

variable [Externals]

/-- An action that is applied moves what the accounts have, or locks a part of it. -/
theorem supply_actionApply (fits : l.state.supply < Coin.limit)
    (h : actionApply ctx st layer l = .ok after) :
    after.state.supply + lockedBy st = l.state.supply := by
  obtain ⟨_, _, h⟩ := bind_ok_iff.mp h
  unfold lockedBy
  cases haction : st.transactionDetails.action with
  | transfer a =>
      rw [haction] at h
      have h := requireAuthority_bind h
      obtain ⟨mid, hmid, h⟩ := bind_ok_iff.mp h
      exact supply_of_move fits hmid h
  | authorizationUpdate a =>
      rw [haction] at h
      have h := requireAuthority_bind h
      obtain ⟨m, _, rfl⟩ := onAuthorities_ok_iff.mp h
      rfl
  | file a =>
      rw [haction] at h
      obtain ⟨_, _, h⟩ := bind_ok_iff.mp h
      obtain ⟨_, h⟩ := require_bind_ok_iff.mp h
      cases pure_ok_iff.mp h
      rfl
  | contentUnit a =>
      rw [haction] at h
      obtain ⟨_, _, h⟩ := bind_ok_iff.mp h
      split at h
      · cases h
      · obtain ⟨_, h⟩ := require_bind_ok_iff.mp h
        split at h
        · cases h
        · cases pure_ok_iff.mp h
          rfl
  | content a =>
      rw [haction] at h
      rw [a.apply_eq h]
      rfl
  | role a =>
      rw [haction] at h
      have h := requireAuthority_bind h
      obtain ⟨_, h⟩ := require_bind_ok_iff.mp h
      obtain ⟨_, h⟩ := require_bind_ok_iff.mp h
      obtain ⟨_, _, h⟩ := bind_ok_iff.mp h
      obtain ⟨state, hstate, h⟩ := bind_ok_iff.mp h
      cases pure_ok_iff.mp h
      obtain ⟨_, hstate⟩ := require_bind_ok_iff.mp hstate
      cases pure_ok_iff.mp hstate
      rfl
  | storageUpdate a =>
      rw [haction] at h
      have h := requireAuthority_bind h
      obtain ⟨_, h⟩ := require_bind_ok_iff.mp h
      obtain ⟨_, h⟩ := require_bind_ok_iff.mp h
      obtain ⟨_, h⟩ := require_bind_ok_iff.mp h
      cases pure_ok_iff.mp h
      rfl
  | serviceStatistics a =>
      rw [haction] at h
      rw [a.apply_eq h]
      rfl
  | sponsorContentUnit a =>
      rw [haction] at h
      have h := requireAuthority_bind h
      obtain ⟨_, h⟩ := require_bind_ok_iff.mp h
      obtain ⟨amount, hamount, h⟩ := bind_ok_iff.mp h
      obtain ⟨mid, hmid, h⟩ := bind_ok_iff.mp h
      obtain ⟨state, hstate, hmid⟩ := bind_ok_iff.mp hmid
      cases pure_ok_iff.mp hmid
      obtain ⟨docs, _, h⟩ := bind_ok_iff.mp h
      cases pure_ok_iff.mp h
      change state.supply + a.amount.value = _
      rw [← (Coin.proper_of_ofMessage hamount).2]
      exact State.supply_decreaseBalance hstate
  | cancelSponsorContentUnit a =>
      rw [haction] at h
      have h := requireAuthority_bind h
      obtain ⟨_, h⟩ := require_bind_ok_iff.mp h
      obtain ⟨⟨docs, payments⟩, _, h⟩ := bind_ok_iff.mp h
      obtain ⟨_, h⟩ := require_bind_ok_iff.mp h
      cases pure_ok_iff.mp h
      rfl
  | unknown rtt =>
      rw [haction] at h
      cases h

theorem paid_of_applied {key : String} (h : applyTransaction ctx key st l = .ok (true, after)) :
    ∃ mid, actionApply ctx st (layerOf key) l = .ok mid ∧ feeCanApply st mid = .ok true ∧
      feeApply ctx st key mid = .ok after := by
  obtain ⟨canApply, _, h⟩ := bind_ok_iff.mp h
  cases canApply with
  | false => cases pure_ok_iff.mp h
  | true =>
      obtain ⟨mid, hmid, h⟩ := bind_ok_iff.mp h
      obtain ⟨feeOk, hfee, h⟩ := bind_ok_iff.mp h
      cases feeOk with
      | false =>
          obtain ⟨reverted, _, h⟩ := bind_ok_iff.mp h
          cases pure_ok_iff.mp h
      | true =>
          obtain ⟨paid, hpaid, h⟩ := bind_ok_iff.mp h
          cases pure_ok_iff.mp h
          exact ⟨mid, hmid, hfee, hpaid⟩

theorem supply_applyMined {miner : String} (fits : l.state.supply < Coin.limit)
    (h : applyMined ctx miner st l = .ok after) :
    after.state.supply + lockedBy st = l.state.supply := by
  obtain ⟨⟨applied, reached⟩, happly, h⟩ := bind_ok_iff.mp h
  obtain ⟨happlied, h⟩ := require_bind_ok_iff.mp h
  cases pure_ok_iff.mp h
  obtain rfl : applied = true := happlied
  obtain ⟨mid, hmid, _, hfee⟩ := paid_of_applied happly
  have hmoved := supply_actionApply fits hmid
  rw [supply_feeApply (by omega) hfee]
  exact hmoved

def lockedIn (transactions : List SignedTransaction) : ℕ := (transactions.map lockedBy).sum

theorem supply_runMined {miner : String} {transactions : List SignedTransaction}
    (fits : l.state.supply < Coin.limit)
    (h : runAll (applyMined ctx miner) transactions l = .ok after) :
    after.state.supply + lockedIn transactions = l.state.supply := by
  induction transactions generalizing l with
  | nil =>
      cases h
      rfl
  | cons st rest ih =>
      obtain ⟨mid, hmid, h⟩ := runAll_cons_ok_iff.mp h
      have hfirst := supply_applyMined fits hmid
      have hrest := ih (by omega) h
      rw [lockedIn] at hrest
      rw [lockedIn, List.map_cons, List.sum_cons]
      omega

omit [Externals] in
theorem supply_increaseRewards {rewards : List Reward}
    (fits : l.state.supply + sumRewards rewards < Coin.limit)
    (h : increaseRewards ctx rewards l = .ok after) :
    after.state.supply = l.state.supply + sumRewards rewards := by
  induction rewards generalizing l with
  | nil =>
      cases h
      rfl
  | cons reward rest ih =>
      have hsum : sumRewards (reward :: rest) = reward.amount.value + sumRewards rest := rfl
      obtain ⟨mid, hmid, h⟩ := runAll_cons_ok_iff.mp h
      have hfirst := supply_increase (by omega) hmid
      rw [ih (by omega) h, hfirst]
      omega

end

def sponsorshipOf [Externals] (st : SignedTransaction) : Option (String × ℕ) :=
  match st.transactionDetails.action with
  | .sponsorContentUnit sponsor => some (transactionHash st, sponsor.amount.value)
  | _ => none

def hashesIn [Externals] (transactions : List SignedTransaction) : List String :=
  (transactions.filterMap sponsorshipOf).map Prod.fst

def Documents.Knows (docs : Documents) (hash : String) : Prop :=
  ∃ number, docs.hashToBlock[hash]? = some number

namespace Documents

theorem Knows.of_eq {docs after : Documents} (h : after.hashToBlock = docs.hashToBlock)
    (hash : String) : after.Knows hash ↔ docs.Knows hash := by
  unfold Knows
  rw [h]

theorem knows_insert {docs after : Documents} {known hash : String} {number : ℕ}
    (h : after.hashToBlock = docs.hashToBlock.insert known number) :
    after.Knows hash ↔ docs.Knows hash ∨ known = hash := by
  unfold Knows
  rw [h, Std.ExtTreeMap.getElem?_insert]
  by_cases hsame : known = hash
  · simp [hsame]
  · simp [hsame]

theorem setUsed_hashToBlock {docs after : Documents} {chain : Blockchain} {uri : String}
    {blockNumber : ℕ} {type : SetUsed} {hash manual : String} {pretend : Bool}
    {payments : List SponsorPayment}
    (h : docs.sponsoredContentUnitSetUsed chain uri blockNumber type hash manual pretend =
      .ok (after, payments)) : after.hashToBlock = docs.hashToBlock := by
  obtain ⟨_, h⟩ := require_bind_ok_iff.mp h
  cases hunit : docs.sponsored[uri]? with
  | none =>
      rw [hunit] at h
      cases pure_ok_iff.mp h
      rfl
  | some cusi =>
      rw [hunit] at h
      obtain ⟨_, h⟩ := require_bind_ok_iff.mp h
      obtain ⟨_, h⟩ := require_bind_ok_iff.mp h
      obtain ⟨⟨unit, used⟩, _, h⟩ := bind_ok_iff.mp h
      obtain ⟨_, _, h⟩ := bind_ok_iff.mp h
      cases pure_ok_iff.mp h
      rfl

end Documents

section
variable {chain : Blockchain} {blockNumber : ℕ} {type : SetUsed} {docs after : Documents}

theorem hashToBlock_payViewed {uris : List String} {paid payments : List SponsorPayment}
    (h : payViewed chain blockNumber type uris (docs, paid) = .ok (after, payments)) :
    after.hashToBlock = docs.hashToBlock := by
  induction uris generalizing docs paid with
  | nil =>
      cases pure_ok_iff.mp h
      rfl
  | cons uri rest ih =>
      obtain ⟨⟨mid, more⟩, hmid, h⟩ := bind_ok_iff.mp h
      obtain ⟨_, h⟩ := require_bind_ok_iff.mp h
      exact (ih h).trans (Documents.setUsed_hashToBlock hmid)

theorem hashToBlock_returnExpired {viewed : UnitViews} {expiring : List (String × String)}
    {returned payments : List SponsorPayment}
    (h : returnExpired chain blockNumber type viewed expiring (docs, returned) =
      .ok (after, payments)) : after.hashToBlock = docs.hashToBlock := by
  induction expiring generalizing docs returned with
  | nil =>
      cases pure_ok_iff.mp h
      rfl
  | cons entry rest ih =>
      rw [returnExpired] at h
      split_ifs at h with hviewed
      · exact ih h
      · obtain ⟨⟨mid, more⟩, hmid, h⟩ := bind_ok_iff.mp h
        obtain ⟨_, h⟩ := require_bind_ok_iff.mp h
        exact (ih h).trans (Documents.setUsed_hashToBlock hmid)

end

section
variable [Externals] {ctx : Context} {st : SignedTransaction} {miner : String} {l after : Ledger}

/-- An action makes its own sponsorship known, and no other. -/
theorem knows_actionApply {layer : StateLayer} (h : actionApply ctx st layer l = .ok after)
    (hash : String) :
    after.documents.Knows hash ↔ l.documents.Knows hash ∨ hash ∈ hashesIn [st] := by
  have hcall := actionApply_call h
  unfold callOf at hcall
  unfold hashesIn
  cases haction : st.transactionDetails.action with
  | sponsorContentUnit sponsor =>
      rw [haction] at hcall
      obtain ⟨amount, _, hcall⟩ := bind_ok_iff.mp hcall
      obtain ⟨cusi, _, _, _, hwith⟩ := Documents.sponsorContentUnitApply_cases hcall
      rw [Documents.knows_insert (congrArg Documents.hashToBlock hwith)]
      simp [sponsorshipOf, haction, eq_comm]
  | cancelSponsorContentUnit cancel =>
      rw [haction] at hcall
      obtain ⟨⟨docs, payments⟩, hused, hdocs⟩ := map_ok_iff.mp hcall
      rw [← hdocs, Documents.Knows.of_eq (Documents.setUsed_hashToBlock hused)]
      simp [sponsorshipOf, haction]
  | _ =>
      rw [haction] at hcall
      rw [Documents.Knows.of_eq hcall.hashToBlock]
      simp [sponsorshipOf, haction]

theorem knows_applyMined (h : applyMined ctx miner st l = .ok after) (hash : String) :
    after.documents.Knows hash ↔ l.documents.Knows hash ∨ hash ∈ hashesIn [st] := by
  obtain ⟨⟨applied, reached⟩, happly, h⟩ := bind_ok_iff.mp h
  obtain ⟨happlied, h⟩ := require_bind_ok_iff.mp h
  cases pure_ok_iff.mp h
  obtain rfl : applied = true := happlied
  obtain ⟨mid, hmid, hdocs⟩ := applyTransaction_true happly
  rw [hdocs]
  exact knows_actionApply hmid hash

theorem hashesIn_append (first second : List SignedTransaction) :
    hashesIn (first ++ second) = hashesIn first ++ hashesIn second := by
  unfold hashesIn
  rw [List.filterMap_append, List.map_append]

theorem knows_runMined {transactions : List SignedTransaction}
    (h : runAll (applyMined ctx miner) transactions l = .ok after) (hash : String) :
    after.documents.Knows hash ↔ l.documents.Knows hash ∨ hash ∈ hashesIn transactions := by
  induction transactions generalizing l with
  | nil =>
      cases h
      exact (or_iff_left List.not_mem_nil).symm
  | cons st rest ih =>
      obtain ⟨mid, hmid, h⟩ := runAll_cons_ok_iff.mp h
      rw [ih h, knows_applyMined hmid, or_assoc, ← List.mem_append, ← hashesIn_append]
      rfl

/-- The sponsorships of a block differ from each other, and from those before it, if each of them
is a new one where it is applied. -/
theorem hashesIn_fresh {transactions : List SignedTransaction}
    (fresh : ∀ before st rest mid, transactions = before ++ st :: rest →
      runAll (applyMined ctx miner) before l = .ok mid →
      ∀ hash ∈ hashesIn [st], ¬ mid.documents.Knows hash)
    (h : runAll (applyMined ctx miner) transactions l = .ok after) :
    (hashesIn transactions).Nodup ∧ ∀ hash ∈ hashesIn transactions, ¬ l.documents.Knows hash := by
  induction transactions generalizing l with
  | nil => exact ⟨List.nodup_nil, List.forall_mem_nil _⟩
  | cons st rest ih =>
      obtain ⟨mid, hmid, h⟩ := runAll_cons_ok_iff.mp h
      have hfirst := fresh [] st rest l rfl rfl
      obtain ⟨hnodup, hnew⟩ := ih (fun before next later found hsplit hfound =>
        fresh (st :: before) next later found (congrArg (st :: ·) hsplit)
          (runAll_cons_ok_iff.mpr ⟨mid, hmid, hfound⟩)) h
      have hone : (hashesIn [st]).Nodup := by
        unfold hashesIn
        rw [List.filterMap_cons]
        split
        · exact List.nodup_nil
        · exact List.nodup_singleton _
      change (hashesIn ([st] ++ rest)).Nodup ∧ ∀ hash ∈ hashesIn ([st] ++ rest), _
      rw [hashesIn_append]
      refine ⟨hone.append hnodup fun hash hmem hrest => ?_, fun hash hmem hknown => ?_⟩
      · exact hnew hash hrest ((knows_applyMined hmid hash).mpr (.inr hmem))
      · rcases List.mem_append.mp hmem with hmem | hmem
        · exact hfirst hash hmem hknown
        · exact hnew hash hmem ((knows_applyMined hmid hash).mpr (.inl hknown))

omit [Externals] in
theorem knows_grantRewards {block : Block} {type : SetUsed} {granted : Granted}
    (h : grantRewards ctx block miner type l = .ok granted) (hash : String) :
    granted.documents.Knows hash ↔ l.documents.Knows hash := by
  obtain ⟨viewedDocs, expired, hpaid, hexpired⟩ := grantRewards_documents h
  exact Documents.Knows.of_eq
    ((hashToBlock_returnExpired hexpired).trans (hashToBlock_payViewed hpaid)) hash

end

theorem sum_paidFor {hashes : List String} (nodup : hashes.Nodup) {payments : List SponsorPayment}
    (others : ∀ payment ∈ payments, payment.transactionHash ∉ hashes → payment.amount.value = 0) :
    (hashes.map fun hash => paidFor hash payments).sum = totalPayments payments := by
  induction payments with
  | nil => simp
  | cons payment rest ih =>
      rw [List.forall_mem_cons] at others
      have hsplit (hash : String) : paidFor hash (payment :: rest) =
          (if payment.transactionHash = hash then payment.amount.value else 0) +
            paidFor hash rest := by
        rw [← paidFor_singleton, ← paidFor_append]
        rfl
      have htotal : totalPayments (payment :: rest) = payment.amount.value + totalPayments rest :=
        List.sum_cons
      have hone : (hashes.map fun hash =>
          if payment.transactionHash = hash then payment.amount.value else 0).sum =
            payment.amount.value := by
        rw [List.sum_map_eq_nsmul_single payment.transactionHash _
          fun hash hne _ => if_neg (Ne.symm hne), if_pos rfl]
        by_cases hmem : payment.transactionHash ∈ hashes
        · rw [List.count_eq_one_of_mem nodup hmem, one_nsmul]
        · simp [others.1 hmem]
      simp only [hsplit, List.sum_map_add]
      rw [hone, ih others.2, htotal]

theorem value_le_paidFor {payments : List SponsorPayment} {payment : SponsorPayment}
    (h : payment ∈ payments) :
    payment.amount.value ≤ paidFor payment.transactionHash payments := by
  obtain ⟨before, after, rfl⟩ := List.append_of_mem h
  have hself : paidFor payment.transactionHash [payment] = payment.amount.value :=
    (paidFor_singleton payment).trans (if_pos rfl)
  rw [paidFor_append, ← List.singleton_append, paidFor_append, hself]
  omega

def emittedIn (blockRewardArray : List Coin) (count : ℕ) : ℕ :=
  ∑ i ∈ Finset.range count, emissionAt blockRewardArray (i + 1)

/-- No more is ever emitted than every entry of the schedule for all of its blocks. -/
theorem sum_emissionAt_le (blockRewardArray : List Coin) (count : ℕ) :
    ∑ i ∈ Finset.range count, emissionAt blockRewardArray i ≤
      50000 * (blockRewardArray.map Coin.value).sum := by
  induction blockRewardArray generalizing count with
  | nil => simp [emissionAt]
  | cons emission rest ih =>
      have hfirst (i : ℕ) (hi : i < 50000) : emissionAt (emission :: rest) i = emission.value := by
        rw [emissionAt, Nat.div_eq_of_lt hi]
        rfl
      have hlater (i : ℕ) : emissionAt (emission :: rest) (50000 + i) = emissionAt rest i := by
        rw [emissionAt, emissionAt, Nat.add_div_left i (by decide)]
        rfl
      rw [List.map_cons, List.sum_cons]
      by_cases hfew : count ≤ 50000
      · have hsame : ∑ i ∈ Finset.range count, emissionAt (emission :: rest) i =
            count * emission.value := by
          rw [Finset.sum_congr rfl fun i hi => hfirst i ((Finset.mem_range.mp hi).trans_le hfew)]
          simp
        have hle := Nat.mul_le_mul_right emission.value hfew
        omega
      · obtain ⟨more, rfl⟩ := Nat.exists_eq_add_of_le (not_le.mp hfew).le
        have hsame : ∑ i ∈ Finset.range 50000, emissionAt (emission :: rest) i =
            50000 * emission.value := by
          rw [Finset.sum_congr rfl fun i hi => hfirst i (Finset.mem_range.mp hi)]
          simp
        rw [Finset.sum_range_add, hsame, Finset.sum_congr rfl fun i _ => hlater i, Nat.mul_add]
        exact Nat.add_le_add_left (ih more) _

theorem emittedIn_le (blockRewardArray : List Coin) (count : ℕ) :
    emittedIn blockRewardArray count ≤ 50000 * (blockRewardArray.map Coin.value).sum := by
  refine le_trans ?_ (sum_emissionAt_le blockRewardArray (count + 1))
  rw [Finset.sum_range_succ']
  exact Nat.le_add_right _ _

theorem emittedIn_succ (blockRewardArray : List Coin) (count : ℕ) :
    emittedIn blockRewardArray (count + 1) =
      emittedIn blockRewardArray count + emissionAt blockRewardArray (count + 1) :=
  Finset.sum_range_succ _ _

section
variable [Externals]

def sponsorshipsIn (blocks : List AppliedBlock) : List (String × ℕ) :=
  blocks.flatMap fun b => b.block.signedTransactions.filterMap sponsorshipOf

def paymentsIn (ctx : Context) (blocks : List AppliedBlock) : List SponsorPayment :=
  blocks.flatMap (AppliedBlock.payments ctx)

def openIn (ctx : Context) (blocks : List AppliedBlock) : ℕ :=
  ((sponsorshipsIn blocks).map fun s => s.2 - paidIn ctx blocks s.1).sum

theorem paidFor_paymentsIn (ctx : Context) (blocks : List AppliedBlock) (hash : String) :
    paidFor hash (paymentsIn ctx blocks) = paidIn ctx blocks hash := by
  induction blocks with
  | nil => rfl
  | cons b blocks ih =>
      rw [paidIn_cons, ← ih, ← paidFor_append]
      rfl

theorem lockedIn_eq (transactions : List SignedTransaction) :
    lockedIn transactions = ((transactions.filterMap sponsorshipOf).map Prod.snd).sum := by
  induction transactions with
  | nil => rfl
  | cons st rest ih =>
      have hcons : lockedIn (st :: rest) = lockedBy st + lockedIn rest := List.sum_cons
      rw [hcons, ih, List.filterMap_cons]
      unfold lockedBy sponsorshipOf
      cases st.transactionDetails.action <;> simp

/-- What a block that is accepted has granted, and on what. -/
structure Replayed (ctx : Context) (b : AppliedBlock) (miner : String) (mid : Ledger)
    (granted : Granted) (chain : Blockchain) (l : Ledger) : Prop where
  run : runAll (applyMined (ctx.withChain b.chain) miner) b.block.signedTransactions b.start =
    .ok mid
  mined : getMiner b.signedBlock = .ok miner
  ledger : ∀ transactions, b.ledgerAfter ctx transactions =
    runAll (applyMined (ctx.withChain b.chain) miner) transactions b.start
  grants : grantRewards (ctx.withChain b.chain) b.block miner .apply mid = .ok granted
  rewards : increaseRewards (ctx.withChain b.chain) granted.rewards
    { mid with documents := granted.documents } = .ok l
  stated : granted.rewards = b.block.rewards
  payments : b.payments ctx = granted.appliedSponsorItems ++ granted.returned
  inserts : b.chain.insert b.signedBlock = .ok chain
  number : b.number = b.chain.length
  length : chain.length = b.chain.length + 1

theorem replayed_of_replay {ctx : Context} {b : AppliedBlock} {chain : Blockchain} {l : Ledger}
    (h : replayBlock ctx b.signedBlock (b.chain, b.start) = .ok (chain, l)) :
    ∃ miner mid granted, Replayed ctx b miner mid granted chain l := by
  obtain ⟨miner, hminer, h⟩ := bind_ok_iff.mp h
  obtain ⟨_, happly, h⟩ := bind_ok_iff.mp h
  obtain ⟨_, hinsert, h⟩ := bind_ok_iff.mp h
  cases pure_ok_iff.mp h
  obtain ⟨mid, hrun, happly⟩ := bind_ok_iff.mp happly
  obtain ⟨⟨mismatch, granted⟩, hcheck, happly⟩ := bind_ok_iff.mp happly
  obtain ⟨found, hgranted, hcheck⟩ := bind_ok_iff.mp hcheck
  cases pure_ok_iff.mp hcheck
  obtain ⟨hrewards, hincrease⟩ := require_bind_ok_iff.mp happly
  change runAll (applyMined (ctx.withChain b.chain) miner) b.block.signedTransactions b.start =
    .ok mid at hrun
  have hledger (transactions : List SignedTransaction) : b.ledgerAfter ctx transactions =
      runAll (applyMined (ctx.withChain b.chain) miner) transactions b.start := by
    rw [AppliedBlock.ledgerAfter, hminer]
    rfl
  have hsame : granted.rewards = b.signedBlock.blockDetails.rewards := by
    simpa using hrewards
  refine ⟨miner, mid, granted, hrun, hminer, hledger, hgranted, hsame ▸ hincrease, hsame, ?_,
    hinsert, (Blockchain.insert_ok_iff.mp hinsert).1, Blockchain.length_insert hinsert⟩
  change grantRewards (ctx.withChain b.chain) b.block miner .apply mid = .ok granted at hgranted
  rw [AppliedBlock.payments, AppliedBlock.granted, hminer, ok_bind, hledger, hrun, ok_bind,
    hgranted]

theorem sponsors_of_replayed {ctx : Context} {b : AppliedBlock} {miner : String} {mid : Ledger}
    {granted : Granted} {chain : Blockchain} {l : Ledger}
    (replayed : Replayed ctx b miner mid granted chain l) {st : SignedTransaction}
    (hmem : st ∈ b.block.signedTransactions) {s : String × ℕ} (hs : sponsorshipOf st = some s) :
    ∃ amount, b.Sponsors s.1 amount ∧ amount.value = s.2 := by
  unfold sponsorshipOf at hs
  cases haction : st.transactionDetails.action with
  | sponsorContentUnit sponsor =>
      rw [haction] at hs
      cases hs
      obtain ⟨before, after, hstep⟩ := runAll_mem_ok replayed.run hmem
      obtain ⟨⟨applied, reached⟩, happly, hstep⟩ := bind_ok_iff.mp hstep
      obtain ⟨happlied, _⟩ := require_bind_ok_iff.mp hstep
      obtain rfl : applied = true := happlied
      obtain ⟨found, hfound, _⟩ := applyTransaction_true happly
      obtain ⟨_, _, hfound⟩ := bind_ok_iff.mp hfound
      rw [haction] at hfound
      have hfound := requireAuthority_bind hfound
      obtain ⟨_, hfound⟩ := require_bind_ok_iff.mp hfound
      obtain ⟨amount, hamount, _⟩ := bind_ok_iff.mp hfound
      exact ⟨amount, ⟨st, hmem, rfl, sponsor, haction, hamount⟩,
        (Coin.proper_of_ofMessage hamount).2⟩
  | _ =>
      rw [haction] at hs
      cases hs

/-- The documents know the sponsorships of a chain, which have different hashes. -/
structure SponsorshipsKept (blocks : List AppliedBlock) (l : Ledger) : Prop where
  knows : ∀ hash, l.documents.Knows hash ↔ hash ∈ (sponsorshipsIn blocks).map Prod.fst
  nodup : ((sponsorshipsIn blocks).map Prod.fst).Nodup
  sponsors : ∀ s ∈ sponsorshipsIn blocks, ∃ b ∈ blocks, ∃ amount, b.Sponsors s.1 amount ∧
    amount.value = s.2

/-- What every run of a chain keeps of its coins. -/
structure SupplyKept (ctx : Context) (genesis : SignedBlock) (blocks : List AppliedBlock)
    (chain : Blockchain) (l : Ledger) : Prop where
  length : chain.length = blocks.length + 1
  sponsorships : SponsorshipsKept blocks l
  total : l.state.supply + ((sponsorshipsIn blocks).map Prod.snd).sum =
    sumRewards genesis.blockDetails.rewards + emittedIn ctx.blockRewardArray blocks.length +
      totalPayments (paymentsIn ctx blocks)

section
variable {ctx : Context} {genesis : SignedBlock} {blocks : List AppliedBlock} {b : AppliedBlock}
  {chain : Blockchain} {l : Ledger}

theorem SponsorshipsKept.paid_le (kept : SponsorshipsKept blocks l)
    (exact : PaysExactly ctx blocks) :
    ∀ s ∈ sponsorshipsIn blocks, paidIn ctx blocks s.1 ≤ s.2 := by
  intro s hs
  obtain ⟨b, hb, amount, hsponsors, hamount⟩ := kept.sponsors s hs
  exact hamount ▸ (exact s.1 amount ⟨b, hb, hsponsors⟩).1

/-- What was paid of the sponsorships and what was not is all that was locked in them. -/
theorem SponsorshipsKept.openIn_add_payments (kept : SponsorshipsKept blocks l)
    {header : BlockHeader} (payouts : PayoutsKept ctx header blocks chain l) :
    openIn ctx blocks + totalPayments (paymentsIn ctx blocks) =
      ((sponsorshipsIn blocks).map Prod.snd).sum := by
  have hothers : ∀ payment ∈ paymentsIn ctx blocks,
      payment.transactionHash ∉ (sponsorshipsIn blocks).map Prod.fst →
        payment.amount.value = 0 := by
    intro payment hmem hunknown
    obtain ⟨past, built, _, hpast⟩ := payouts.built
    have hnone : l.documents.hashToBlock[payment.transactionHash]? = none := by
      cases hnone : l.documents.hashToBlock[payment.transactionHash]? with
      | none => rfl
      | some number => exact absurd ((kept.knows _).mp ⟨number, hnone⟩) hunknown
    have hle := value_le_paidFor hmem
    rw [paidFor_paymentsIn, ← hpast, built.paidOut_unknown hnone] at hle
    exact Nat.le_zero.mp hle
  have hpaid := kept.paid_le payouts.exact
  rw [← sum_paidFor kept.nodup hothers, openIn, List.map_map, ← List.sum_map_add]
  refine congrArg List.sum (List.map_congr_left fun s hs => ?_)
  rw [Function.comp_apply, paidFor_paymentsIn]
  exact Nat.sub_add_cancel (hpaid s hs)

theorem sponsorshipsIn_cons : sponsorshipsIn (b :: blocks) =
    b.block.signedTransactions.filterMap sponsorshipOf ++ sponsorshipsIn blocks :=
  List.flatMap_cons

theorem paymentsIn_cons : paymentsIn ctx (b :: blocks) = b.payments ctx ++ paymentsIn ctx blocks :=
  List.flatMap_cons

theorem sum_sponsorshipsIn_cons (b : AppliedBlock) (blocks : List AppliedBlock) :
    ((sponsorshipsIn (b :: blocks)).map Prod.snd).sum =
      lockedIn b.block.signedTransactions + ((sponsorshipsIn blocks).map Prod.snd).sum := by
  rw [sponsorshipsIn_cons, List.map_append, List.sum_append, ← lockedIn_eq]

theorem Replayed.totalPayments_cons {miner : String} {mid : Ledger} {granted : Granted}
    (replayed : Replayed ctx b miner mid granted chain l) (blocks : List AppliedBlock) :
    totalPayments (paymentsIn ctx (b :: blocks)) =
      totalPayments granted.appliedSponsorItems + totalPayments granted.returned +
        totalPayments (paymentsIn ctx blocks) := by
  rw [paymentsIn_cons, totalPayments_append, replayed.payments, totalPayments_append]

theorem SponsorshipsKept.connect (kept : SponsorshipsKept blocks b.start) {miner : String}
    {mid : Ledger} {granted : Granted} (replayed : Replayed ctx b miner mid granted chain l)
    (clear : b.Clear ctx) : SponsorshipsKept (b :: blocks) l := by
  have hfresh := hashesIn_fresh (fun before st rest found hsplit hfound hash hmem => by
    have hclear := clear.transactions before st rest found hsplit
      ((replayed.ledger before).trans hfound)
    rintro ⟨number, hknown⟩
    unfold hashesIn sponsorshipOf at hmem
    unfold ClearTransaction at hclear
    cases haction : st.transactionDetails.action with
    | sponsorContentUnit sponsor =>
        rw [haction] at hclear
        simp only [List.filterMap_cons, haction, List.filterMap_nil, List.map_cons, List.map_nil,
          List.mem_singleton] at hmem
        subst hmem
        cases hclear.2.2.symm.trans hknown
    | _ => simp [haction] at hmem) replayed.run
  have hhashes : (sponsorshipsIn (b :: blocks)).map Prod.fst =
      hashesIn b.block.signedTransactions ++ (sponsorshipsIn blocks).map Prod.fst := by
    rw [sponsorshipsIn_cons, List.map_append]
    rfl
  refine ⟨fun hash => ?_, hhashes ▸ hfresh.1.append kept.nodup fun hash hmem hold => ?_,
    fun s hs => ?_⟩
  · rw [increaseRewards_documents replayed.rewards, hhashes, List.mem_append, or_comm,
      ← kept.knows]
    exact (knows_grantRewards replayed.grants hash).trans (knows_runMined replayed.run hash)
  · exact hfresh.2 hash hmem ((kept.knows hash).mpr hold)
  · rw [sponsorshipsIn_cons] at hs
    rcases List.mem_append.mp hs with hnew | hold
    · obtain ⟨st, hst, hof⟩ := List.mem_filterMap.mp hnew
      obtain ⟨amount, hsponsors⟩ := sponsors_of_replayed replayed hst hof
      exact ⟨b, List.mem_cons_self, amount, hsponsors⟩
    · obtain ⟨other, hother, found⟩ := kept.sponsors s hold
      exact ⟨other, List.mem_cons_of_mem b hother, found⟩

omit [Externals] in
theorem amountsFit_of_total {blockRewardArray : List Coin} {blockNumber : ℕ}
    {paid returned : List SponsorPayment}
    (fits : emissionAt blockRewardArray blockNumber + totalPayments (paid ++ returned) <
      Coin.limit) : AmountsFit blockRewardArray blockNumber paid returned := by
  rw [totalPayments_append] at fits
  refine ⟨by omega, fun emission sponsored hemission hsponsored => ?_, fun sponsor => ?_⟩
  · have hwhole := (splitEmission_splitsUp hemission).whole
    have hsplit := (splitSponsored_splitsUp hsponsored).2.whole
    have hsum := value_sumPayments paid
    have hmod := Nat.mod_le (totalPayments paid) Coin.limit
    omega
  · have hle : totalTo sponsor returned ≤ totalPayments returned :=
      (List.filter_sublist.map _).sum_le_sum fun _ _ => Nat.zero_le _
    omega

/-- What a block moves, what it makes and pays, and that a coin can hold all of it. -/
theorem SupplyKept.rewarded (kept : SupplyKept ctx genesis blocks b.chain b.start)
    {header : BlockHeader} (before : PayoutsKept ctx header blocks b.chain b.start)
    (payouts : PayoutsKept ctx header (b :: blocks) chain l) (clear : b.Clear ctx)
    (fits : sumRewards genesis.blockDetails.rewards +
      50000 * (ctx.blockRewardArray.map Coin.value).sum < Coin.limit) {miner : String}
    {mid : Ledger} {granted : Granted} (replayed : Replayed ctx b miner mid granted chain l) :
    b.start.state.supply < Coin.limit ∧
      mid.state.supply + lockedIn b.block.signedTransactions = b.start.state.supply ∧
      sumRewards granted.rewards = emissionAt ctx.blockRewardArray (blocks.length + 1) +
        totalPayments granted.appliedSponsorItems + totalPayments granted.returned ∧
      mid.state.supply + sumRewards granted.rewards < Coin.limit := by
  have sponsorships := kept.sponsorships.connect replayed clear
  obtain ⟨shares, hwhole, hcompose⟩ := grantRewards_compose replayed.grants
  have hnumber : b.block.header.blockNumber.toNat = blocks.length + 1 :=
    replayed.number.trans kept.length
  rw [hnumber] at hcompose
  -- no more is ever paid than was locked, so all accounts have no more than was ever emitted
  have hopen := kept.sponsorships.openIn_add_payments before
  have hopenAfter := sponsorships.openIn_add_payments payouts
  have hlocked := sum_sponsorshipsIn_cons b blocks
  have hpaid := replayed.totalPayments_cons blocks
  have hemitted := emittedIn_succ ctx.blockRewardArray blocks.length
  have hschedule := emittedIn_le ctx.blockRewardArray (blocks.length + 1)
  have htotal := kept.total
  have hstart : b.start.state.supply < Coin.limit := by omega
  have hmoved := supply_runMined hstart replayed.run
  have hfits : AmountsFit ctx.blockRewardArray (blocks.length + 1) granted.appliedSponsorItems
      granted.returned := amountsFit_of_total (by rw [totalPayments_append]; omega)
  have hrewards := (composeRewards_total_iff hwhole hcompose).mpr hfits
  change sumRewards granted.rewards = emissionAt ctx.blockRewardArray (blocks.length + 1) + _ + _
    at hrewards
  exact ⟨hstart, hmoved, hrewards, by omega⟩

theorem SupplyKept.connect (kept : SupplyKept ctx genesis blocks b.chain b.start)
    {header : BlockHeader} (before : PayoutsKept ctx header blocks b.chain b.start)
    (payouts : PayoutsKept ctx header (b :: blocks) chain l) (clear : b.Clear ctx)
    (fits : sumRewards genesis.blockDetails.rewards +
      50000 * (ctx.blockRewardArray.map Coin.value).sum < Coin.limit)
    (h : replayBlock ctx b.signedBlock (b.chain, b.start) = .ok (chain, l)) :
    SupplyKept ctx genesis (b :: blocks) chain l := by
  obtain ⟨miner, mid, granted, replayed⟩ := replayed_of_replay h
  obtain ⟨_, hmoved, hrewards, hroom⟩ := kept.rewarded before payouts clear fits replayed
  have hsupply : l.state.supply = mid.state.supply + sumRewards granted.rewards :=
    supply_increaseRewards (l := { mid with documents := granted.documents }) hroom
      replayed.rewards
  have hlocked := sum_sponsorshipsIn_cons b blocks
  have hpaid := replayed.totalPayments_cons blocks
  have hemitted := emittedIn_succ ctx.blockRewardArray blocks.length
  have htotal := kept.total
  refine ⟨by rw [replayed.length, kept.length]; rfl, kept.sponsorships.connect replayed clear, ?_⟩
  rw [List.length_cons]
  omega

/-- The genesis block pays its rewards, and nothing is sponsored yet. -/
theorem SupplyKept.start (fits : sumRewards genesis.blockDetails.rewards < Coin.limit)
    (hchain : Blockchain.start genesis = .ok chain)
    (h : increaseRewards (ctx.withChain chain) genesis.blockDetails.rewards default = .ok l) :
    SupplyKept ctx genesis [] chain l := by
  have hnothing : (default : Ledger).state.supply = 0 := mapSum_empty _
  have hdocs : l.documents = default := increaseRewards_documents h
  have hsupply := supply_increaseRewards (by omega) h
  refine ⟨?_, ⟨fun hash => ?_, List.nodup_nil, List.forall_mem_nil _⟩, ?_⟩
  · rw [Blockchain.length, Blockchain.start_blocks hchain]
    rfl
  · rw [hdocs]
    refine iff_of_false ?_ List.not_mem_nil
    rintro ⟨number, hnumber⟩
    simp [show (default : Documents).hashToBlock = ∅ from rfl] at hnumber
  · rw [hsupply, hnothing, Nat.zero_add]
    rfl

end

/-- The coins of a chain are in the accounts and in the sponsorships that have not paid them yet,
and there are as many as the genesis block and the schedule have made. -/
structure Conserved (ctx : Context) (genesis : SignedBlock) (blocks : List AppliedBlock)
    (l : Ledger) : Prop where
  total : l.state.supply + openIn ctx blocks =
    sumRewards genesis.blockDetails.rewards + emittedIn ctx.blockRewardArray blocks.length
  paid : ∀ s ∈ sponsorshipsIn blocks, paidIn ctx blocks s.1 ≤ s.2

theorem BlockRun.supplyKept {ctx : Context} {genesis : SignedBlock} {blocks : List AppliedBlock}
    {chain : Blockchain} {l : Ledger} (empty : Externals.EmptyNoUri)
    (keyed : Externals.publicKey "" ≠ .ok ()) (hashed : ∀ s, Externals.hash s ≠ "")
    (held : HeldTime genesis.blockDetails.header)
    (fits : sumRewards genesis.blockDetails.rewards +
      50000 * (ctx.blockRewardArray.map Coin.value).sum < Coin.limit)
    (run : BlockRun ctx genesis blocks chain l) (clear : ∀ b ∈ blocks, b.Clear ctx) :
    SupplyKept ctx genesis blocks chain l := by
  induction run with
  | genesis hchain h => exact .start (by omega) hchain h
  | @connect blocks b chain l before signed next valid h ih =>
      have whole := (before.connect signed next valid h).payoutsKept empty keyed hashed held clear
      rw [List.forall_mem_cons] at clear
      exact (ih clear.2).connect (before.payoutsKept empty keyed hashed held clear.2) whole
        clear.1 fits h

/-- In every chain whose blocks call on no sponsor at the wrong time, no coin is made or lost but
for the schedule, if a coin can hold all that the genesis block and the schedule ever make. -/
theorem coins_conserved {ctx : Context} {genesis : SignedBlock} {blocks : List AppliedBlock}
    {chain : Blockchain} {l : Ledger} (empty : Externals.EmptyNoUri)
    (keyed : Externals.publicKey "" ≠ .ok ()) (hashed : ∀ s, Externals.hash s ≠ "")
    (held : HeldTime genesis.blockDetails.header)
    (fits : sumRewards genesis.blockDetails.rewards +
      50000 * (ctx.blockRewardArray.map Coin.value).sum < Coin.limit)
    (run : BlockRun ctx genesis blocks chain l) (clear : ∀ b ∈ blocks, b.Clear ctx) :
    Conserved ctx genesis blocks l := by
  have payouts := run.payoutsKept empty keyed hashed held clear
  have kept := run.supplyKept empty keyed hashed held fits clear
  have hopen := kept.sponsorships.openIn_add_payments payouts
  have htotal := kept.total
  exact ⟨by omega, kept.sponsorships.paid_le payouts.exact⟩

end
section Examples

local instance conservingExternals : Externals := payoutExternals

/-- The sponsorship that was paid back is in the account of the channel again. -/
theorem endedBlock_conserved : Conserved (exampleNode "own" .blockchain) fundingGenesis
    [endedBlock] endedAfter.2 :=
  coins_conserved readingExternals_emptyNoUri payout_keyed payout_hashed ⟨by decide, by decide⟩
    (by decide +kernel) endedBlock_run (List.forall_mem_singleton.mpr endedBlock_clear)

end Examples
end Publiq
