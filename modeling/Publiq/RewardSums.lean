import Publiq.CoinExactness
import Publiq.Foundation.TableSum
import Publiq.Rewards
import Mathlib.Algebra.Order.BigOperators.Group.List
import Mathlib.Data.Nat.Cast.Order.Field
import Mathlib.Data.Rat.Cast.Defs

/-! What the rewards of a block add up to. Every amount that is shared out is subtracted from
what is left, which throws before it could get below zero, so nothing is made or lost as
long as nothing throws. -/
namespace Publiq
open Message Checked

def sumRewards (rewards : List Reward) : ℕ := (rewards.map fun reward => reward.amount.value).sum

@[simp] theorem sumRewards_append (first second : List Reward) :
    sumRewards (first ++ second) = sumRewards first + sumRewards second := by
  simp [sumRewards]

namespace Distribution

def total (distribution : Distribution) : ℕ := tableSum (fun _ amount => amount.value) distribution

theorem le_total (distribution : Distribution) (address : String) :
    (distribution.getD address 0).value ≤ distribution.total := by
  rw [Std.ExtTreeMap.getD_eq_getD_getElem?, total, tableSum]
  cases h : distribution[address]? with
  | none =>
      rw [Option.getD_none, Coin.value_zero]
      exact Nat.zero_le _
  | some amount =>
      rw [((toList_perm_of_some h).map _).sum_eq, Option.getD_some, List.map_cons, List.sum_cons]
      exact Nat.le_add_right _ _

theorem total_give_add (distribution : Distribution) (address : String) (amount : Coin) :
    (distribution.give address amount).total + (distribution.getD address 0).value =
      distribution.total + (distribution.getD address 0 + amount).value := by
  have hsum := tableSum_insert (fun (_ : String) (amount : Coin) => amount.value) distribution
    address (distribution.getD address 0 + amount)
  have hread : (distribution[address]?.map fun amount : Coin => amount.value).getD 0 =
      (distribution.getD address 0).value := by
    rw [Std.ExtTreeMap.getD_eq_getD_getElem?]
    cases distribution[address]? with
    | none => exact Coin.value_zero.symm
    | some old => rfl
  rw [hread] at hsum
  exact hsum

theorem total_give {distribution : Distribution} {address : String} {amount : Coin}
    (fits : distribution.total + amount.value < Coin.limit) :
    (distribution.give address amount).total = distribution.total + amount.value := by
  have hold := distribution.le_total address
  have hsum := distribution.total_give_add address amount
  rw [Coin.value_add (by omega)] at hsum
  omega

theorem getD_give (distribution : Distribution) (address a : String) (amount : Coin) :
    (distribution.give address amount).getD a 0 =
      if address = a then distribution.getD address 0 + amount else distribution.getD a 0 := by
  rw [give, Std.ExtTreeMap.getD_insert]
  simp only [Std.compare_eq_iff_eq]

theorem mem_give {distribution : Distribution} {address a : String} {amount : Coin} :
    a ∈ distribution.give address amount ↔ address = a ∨ a ∈ distribution := by
  rw [give, Std.ExtTreeMap.mem_insert, Std.compare_eq_iff_eq]

end Distribution

theorem shareOut_spec {total rest rest' : Coin} {shares : List Share}
    {distribution distribution' : Distribution}
    (fits : distribution.total + rest.value < Coin.limit)
    (h : shareOut total shares (rest, distribution) = .ok (rest', distribution')) :
    distribution'.total + rest'.value = distribution.total + rest.value ∧
      ∀ a, a ∈ distribution' ↔ a ∈ distribution ∨ ∃ share ∈ shares, share.address = a := by
  induction shares generalizing rest distribution with
  | nil =>
      cases pure_ok_iff.mp h
      exact ⟨rfl, fun a => by simp⟩
  | cons share others ih =>
      obtain ⟨amount, _, h⟩ := bind_ok_iff.mp h
      obtain ⟨left, hsub, h⟩ := bind_ok_iff.mp h
      have hleft := Coin.value_sub hsub
      have hgive : (distribution.give share.address amount).total =
          distribution.total + amount.value := Distribution.total_give (by omega)
      obtain ⟨hsum, hmem⟩ := ih (by omega) h
      refine ⟨by omega, fun a => ?_⟩
      rw [hmem, Distribution.mem_give, List.exists_mem_cons_iff]
      tauto

def sumAmounts (amounts : List (String × Coin)) : ℕ :=
  (amounts.map fun entry => entry.2.value).sum

theorem sumRewards_rewardsOf (rewardType : RewardType) (amounts : List (String × Coin)) :
    sumRewards (rewardsOf rewardType amounts) = sumAmounts amounts := by
  simp [sumRewards, rewardsOf, sumAmounts, Function.comp_def]

theorem targets_rewardsOf (rewardType : RewardType) (amounts : List (String × Coin)) :
    (rewardsOf rewardType amounts).map Reward.target = amounts.map Prod.fst := by
  simp [rewardsOf, Function.comp_def]

theorem targets_addToLast (amount : Coin) (amounts : List (String × Coin)) :
    (addToLast amount amounts).map Prod.fst = amounts.map Prod.fst := by
  induction amounts with
  | nil => rfl
  | cons first rest ih =>
      cases rest with
      | nil => rfl
      | cons second rest => exact congrArg (first.1 :: ·) ih

theorem sumAmounts_cons (first : String × Coin) (rest : List (String × Coin)) :
    sumAmounts (first :: rest) = first.2.value + sumAmounts rest := List.sum_cons

theorem sumAmounts_addToLast {amount : Coin} {amounts : List (String × Coin)}
    (some_amount : amounts ≠ []) (fits : sumAmounts amounts + amount.value < Coin.limit) :
    sumAmounts (addToLast amount amounts) = sumAmounts amounts + amount.value := by
  induction amounts with
  | nil => exact absurd rfl some_amount
  | cons first rest ih =>
      rw [sumAmounts_cons] at fits ⊢
      cases rest with
      | nil =>
          have hnil : sumAmounts [] = 0 := rfl
          rw [hnil] at fits ⊢
          rw [addToLast, sumAmounts_cons, hnil, Coin.value_add (by omega)]
          omega
      | cons second rest =>
          have hrest := ih (List.cons_ne_nil _ _) (by omega)
          rw [addToLast, sumAmounts_cons, hrest]
          · omega
          · rintro address last rfl hnil
            cases hnil

/-- What `distribute_rewards` does with a total that has somebody to be shared among: one
reward for each of them. -/
structure SharesOut (shares : List Share) (rewardType : RewardType) (rewards : List Reward) :
    Prop where
  once : (rewards.map Reward.target).Nodup
  receivers : ∀ a, a ∈ rewards.map Reward.target ↔ ∃ share ∈ shares, share.address = a
  type : ∀ reward ∈ rewards, reward.rewardType = rewardType

/-- Whatever is not given to the receivers is given back. -/
theorem distributeRewards_spec {shares : List Share} {total returned : Coin}
    {rewardType : RewardType} {rewards : List Reward}
    (h : distributeRewards shares total rewardType = .ok (rewards, returned)) :
    sumRewards rewards + returned.value = total.value ∧
      if shares = [] ∨ total = 0 then rewards = [] ∧ returned = total
      else SharesOut shares rewardType rewards ∧ returned = 0 := by
  unfold distributeRewards at h
  by_cases hnone : shares = [] ∨ total = 0
  · rw [if_pos hnone] at h ⊢
    cases pure_ok_iff.mp h
    exact ⟨Nat.zero_add _, rfl, rfl⟩
  · rw [if_neg hnone] at h ⊢
    obtain ⟨⟨rest, distribution⟩, hshare, h⟩ := bind_ok_iff.mp h
    cases pure_ok_iff.mp h
    have hempty : (∅ : Distribution).total = 0 := tableSum_empty _
    have hbound := total.value_bound
    obtain ⟨hsum, hmem⟩ := shareOut_spec (by omega) hshare
    obtain ⟨share, hshare⟩ := List.exists_mem_of_ne_nil shares fun hnil => hnone (.inl hnil)
    have hreceiver : share.address ∈ distribution := (hmem _).mpr (.inr ⟨share, hshare, rfl⟩)
    have hsome : distribution.toList ≠ [] := by
      rw [Ne, Std.ExtTreeMap.toList_eq_nil_iff]
      rintro rfl
      simp at hreceiver
    have hlist : sumAmounts distribution.toList = distribution.total := rfl
    have htargets : (rewardsOf rewardType (addToLast rest distribution.toList)).map
        Reward.target = distribution.toList.map Prod.fst := by
      rw [targets_rewardsOf, targets_addToLast]
    refine ⟨?_, ⟨?_, fun a => ?_, fun reward hreward => ?_⟩, rfl⟩
    · rw [sumRewards_rewardsOf, sumAmounts_addToLast hsome (by omega), Coin.value_zero]
      omega
    · rw [htargets]
      exact keys_nodup distribution
    · rw [htargets, Std.ExtTreeMap.map_fst_toList_eq_keys, Std.ExtTreeMap.mem_keys, hmem]
      simp
    · obtain ⟨entry, _, rfl⟩ := List.mem_map.mp hreward
      rfl

def Share.part (share : Share) : ℚ := share.numerator.toNat / share.denominator.toNat

/-- The amount of a share is never too large, whatever wraps on its way. -/
theorem Share.amount_le (total : Coin) {share : Share} (positive : share.denominator ≠ 0) :
    ∃ amount, (total.mul share.numerator).div share.denominator = .ok amount ∧
      (amount.value : ℚ) ≤ total.value * share.part := by
  obtain ⟨amount, hdiv, _⟩ := Coin.div_ok (a := total.mul share.numerator) positive
  refine ⟨amount, hdiv, ?_⟩
  have hdenominator : (0 : ℚ) < share.denominator.toNat :=
    Nat.cast_pos.mpr (Coin.toNat_pos positive)
  rw [Share.part, ← mul_div_assoc, le_div_iff₀ hdenominator]
  have hback := (Coin.value_mul_div hdiv).2.trans (Coin.value_mul_le total share.numerator)
  exact_mod_cast hback

theorem shareOut_total {total rest : Coin} {shares : List Share} {distribution : Distribution}
    (positive : ∀ share ∈ shares, share.denominator ≠ 0)
    (enough : (total.value : ℚ) * (shares.map Share.part).sum ≤ rest.value) :
    ∃ result, shareOut total shares (rest, distribution) = .ok result := by
  induction shares generalizing rest distribution with
  | nil => exact ⟨_, rfl⟩
  | cons share others ih =>
      rw [List.forall_mem_cons] at positive
      obtain ⟨amount, hamount, hrounded⟩ := share.amount_le total positive.1
      have hothers : 0 ≤ (others.map Share.part).sum := by
        apply List.sum_nonneg
        intro part hpart
        obtain ⟨other, _, rfl⟩ := List.mem_map.mp hpart
        exact div_nonneg (Nat.cast_nonneg _) (Nat.cast_nonneg _)
      have htotal : (0 : ℚ) ≤ total.value := Nat.cast_nonneg _
      rw [List.map_cons, List.sum_cons, mul_add] at enough
      have hrest : amount.value ≤ rest.value := by
        have := mul_nonneg htotal hothers
        have hle : (amount.value : ℚ) ≤ rest.value := by linarith
        exact_mod_cast hle
      obtain ⟨left, hsub, hleft⟩ := Coin.sub_total hrest
      have hleft : (left.value : ℚ) + amount.value = rest.value := by exact_mod_cast hleft
      have hrun : ∃ result, shareOut total others (left, distribution.give share.address amount) =
          .ok result := ih positive.2 (by linarith)
      obtain ⟨result, hresult⟩ := hrun
      refine ⟨result, ?_⟩
      rw [shareOut, hamount, ok_bind, hsub]
      exact hresult

/-- A total that is shared out comes out whole: in one reward for each receiver, unless
there is nothing to share, and the rest of every rounding with the last of them. -/
theorem distributeRewards_conserves {shares : List Share} {total : Coin} {rewardType : RewardType}
    (some_share : shares ≠ []) (positive : ∀ share ∈ shares, share.denominator ≠ 0)
    (atMostOne : (shares.map Share.part).sum ≤ 1) :
    ∃ rewards returned, distributeRewards shares total rewardType = .ok (rewards, returned) ∧
      sumRewards rewards + returned.value = total.value ∧
      if total = 0 then rewards = [] else SharesOut shares rewardType rewards := by
  have htotal : ∃ result, distributeRewards shares total rewardType = .ok result := by
    unfold distributeRewards
    split_ifs with hnone
    · exact ⟨_, rfl⟩
    · have hrun : ∃ result, shareOut total shares (total, ∅) = .ok result :=
        shareOut_total positive (mul_le_of_le_one_right (Nat.cast_nonneg _) atMostOne)
      obtain ⟨result, hresult⟩ := hrun
      rw [hresult]
      exact ⟨_, rfl⟩
  obtain ⟨⟨rewards, returned⟩, h⟩ := htotal
  obtain ⟨hsum, houtcome⟩ := distributeRewards_spec h
  refine ⟨rewards, returned, h, hsum, ?_⟩
  by_cases hzero : total = 0
  · rw [if_pos (.inr hzero)] at houtcome
    rw [if_pos hzero]
    exact houtcome.1
  · rw [if_neg fun hnone => hnone.elim some_share hzero] at houtcome
    rw [if_neg hzero]
    exact houtcome.1

section Examples

def thirds : List Share := [⟨"b", 1, 3⟩, ⟨"a", 1, 3⟩]

theorem thirds_atMostOne : (thirds.map Share.part).sum ≤ 1 := by
  change ((1 : ℕ) : ℚ) / (3 : ℕ) + (((1 : ℕ) : ℚ) / (3 : ℕ) + 0) ≤ 1
  norm_num

theorem thirds_conserved : ∃ rewards returned,
    distributeRewards thirds ⟨0, 100, by decide⟩ .author = .ok (rewards, returned) ∧
      sumRewards rewards + returned.value = (⟨0, 100, by decide⟩ : Coin).value ∧
      if (⟨0, 100, by decide⟩ : Coin) = 0 then rewards = []
      else SharesOut thirds .author rewards :=
  distributeRewards_conserves (by decide) (by decide) thirds_atMostOne

/-- A total of nothing is not shared out. -/
theorem distributeRewards_nothing : ¬ ∀ (shares : List Share) (total : Coin)
    (rewardType : RewardType), shares ≠ [] → (∀ share ∈ shares, share.denominator ≠ 0) →
    (shares.map Share.part).sum ≤ 1 → ∃ rewards returned,
      distributeRewards shares total rewardType = .ok (rewards, returned) ∧
        sumRewards rewards + returned.value = total.value ∧
        SharesOut shares rewardType rewards := by
  intro h
  obtain ⟨rewards, returned, hok, _, hshares⟩ := h thirds 0 .author (by decide) (by decide)
    thirds_atMostOne
  have hnone : distributeRewards thirds 0 .author = .ok ([], 0) := rfl
  rw [hnone] at hok
  cases hok
  have hreceiver := (hshares.receivers "a").mpr ⟨⟨"a", 1, 3⟩, by decide, rfl⟩
  cases hreceiver

end Examples
end Publiq
