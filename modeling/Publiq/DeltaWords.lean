import Publiq.Retarget

/-! The words of `calc_delta`: where its two products wrap, and where the quotient of what
is left is still the true one. -/
namespace Publiq

/-- `calc_delta` at a distance, in words that wrap. -/
def wordDelta (dist amount consConst : UInt64) : UInt64 :=
  let delta := amount * distMax / ((dist + 1) * consConst)
  if delta > deltaMax then deltaMax else delta

/-- `calc_delta` at a distance, over the integers. -/
def wholeDelta (dist amount consConst : ℕ) : ℕ :=
  min deltaMax.toNat (amount * 2 ^ 32 / ((dist + 1) * consConst))

/-- Where the words leave the quotient of the integers. -/
structure DeltaFits (dist amount consConst : ℕ) : Prop where
  divides : (dist + 1) * consConst % 2 ^ 64 ≠ 0
  whole : (dist + 1) * consConst < 2 ^ 64 →
    amount < 2 ^ 32 ∨ deltaMax.toNat * ((dist + 1) * consConst) ≤ amount % 2 ^ 32 * 2 ^ 32
  wrapped : 2 ^ 64 ≤ (dist + 1) * consConst →
    let quotient := amount * 2 ^ 32 / ((dist + 1) * consConst)
    let left := (dist + 1) * consConst % 2 ^ 64
    quotient * left ≤ amount % 2 ^ 32 * 2 ^ 32 ∧
      amount % 2 ^ 32 * 2 ^ 32 < (quotient + 1) * left

section
variable {dist amount consConst : ℕ}

theorem product_high_low (amount : ℕ) :
    amount * 2 ^ 32 = amount / 2 ^ 32 * 2 ^ 64 + amount % 2 ^ 32 * 2 ^ 32 := by
  have hamount := Nat.div_add_mod amount (2 ^ 32)
  omega

/-- A divisor that did not wrap: the amount fits, or what is left of it is enough. -/
theorem min_div_low_iff {divisor most : ℕ} (positive : 0 < divisor) (small : divisor < 2 ^ 64) :
    min most (amount % 2 ^ 32 * 2 ^ 32 / divisor) = min most (amount * 2 ^ 32 / divisor) ↔
      amount < 2 ^ 32 ∨ most * divisor ≤ amount % 2 ^ 32 * 2 ^ 32 := by
  constructor
  · intro h
    by_contra hneither
    rw [not_or, Nat.not_lt, Nat.not_le] at hneither
    obtain ⟨hlarge, hleft⟩ := hneither
    have hbelow : amount % 2 ^ 32 * 2 ^ 32 / divisor < most :=
      (Nat.div_lt_iff_lt_mul positive).mpr hleft
    have hmore : amount % 2 ^ 32 * 2 ^ 32 / divisor + 1 ≤ amount * 2 ^ 32 / divisor :=
      calc amount % 2 ^ 32 * 2 ^ 32 / divisor + 1
          = (amount % 2 ^ 32 * 2 ^ 32 + divisor) / divisor :=
            (Nat.add_div_right _ positive).symm
        _ ≤ amount * 2 ^ 32 / divisor := Nat.div_le_div_right (by
            have hhigh : 1 ≤ amount / 2 ^ 32 := (Nat.one_le_div_iff (by decide)).mpr hlarge
            have hsplit := product_high_low amount
            omega)
    omega
  · rintro (hsmall | henough)
    · rw [Nat.mod_eq_of_lt hsmall]
    · have hleft : most ≤ amount % 2 ^ 32 * 2 ^ 32 / divisor :=
        (Nat.le_div_iff_mul_le positive).mpr henough
      have hless : amount % 2 ^ 32 * 2 ^ 32 / divisor ≤ amount * 2 ^ 32 / divisor :=
        Nat.div_le_div_right (Nat.mul_le_mul_right _ (Nat.mod_le _ _))
      rw [Nat.min_eq_left hleft, Nat.min_eq_left (hleft.trans hless)]

/-- A divisor that wrapped: the true quotient is below `DELTA_MAX`. -/
theorem quotient_lt_deltaMax (amount : UInt64) {divisor : ℕ} (large : 2 ^ 64 ≤ divisor) :
    amount.toNat * 2 ^ 32 / divisor < deltaMax.toNat := by
  have hmax : deltaMax.toNat = 7000000000 := rfl
  have hword := amount.toNat_lt
  have hquotient : amount.toNat * 2 ^ 32 / divisor < 2 ^ 32 := by
    apply Nat.div_lt_of_lt_mul
    calc amount.toNat * 2 ^ 32 < 2 ^ 64 * 2 ^ 32 := Nat.mul_lt_mul_of_pos_right hword (by decide)
      _ ≤ divisor * 2 ^ 32 := Nat.mul_le_mul_right _ large
  omega

end

theorem divisor_toNat {dist : UInt64} (hdist : dist < distMax) (consConst : UInt64) :
    ((dist + 1) * consConst).toNat = (dist.toNat + 1) * consConst.toNat % 2 ^ 64 := by
  have hdist := UInt64.lt_iff_toNat_lt.mp hdist
  have hone : (dist + 1).toNat = dist.toNat + 1 := by
    rw [UInt64.toNat_add]
    apply Nat.mod_eq_of_lt
    change dist.toNat < 2 ^ 32 at hdist
    change dist.toNat + 1 < 2 ^ 64
    omega
  rw [UInt64.toNat_mul, hone]

theorem wordDelta_toNat {dist : UInt64} (hdist : dist < distMax) (amount consConst : UInt64) :
    (wordDelta dist amount consConst).toNat = min deltaMax.toNat
      (amount.toNat % 2 ^ 32 * 2 ^ 32 / ((dist.toNat + 1) * consConst.toNat % 2 ^ 64)) := by
  have hmax : distMax.toNat = 2 ^ 32 := rfl
  have hamount : (amount * distMax).toNat = amount.toNat % 2 ^ 32 * 2 ^ 32 := by
    rw [UInt64.toNat_mul, hmax]
    exact Nat.mul_mod_mul_right (2 ^ 32) amount.toNat (2 ^ 32)
  have hquotient : (amount * distMax / ((dist + 1) * consConst)).toNat =
      amount.toNat % 2 ^ 32 * 2 ^ 32 / ((dist.toNat + 1) * consConst.toNat % 2 ^ 64) := by
    rw [UInt64.toNat_div, hamount, divisor_toNat hdist]
  rw [← hquotient]
  unfold wordDelta
  dsimp only
  split_ifs with hmore
  · exact (Nat.min_eq_left (UInt64.lt_iff_toNat_lt.mp hmore).le).symm
  · exact (Nat.min_eq_right (UInt64.le_iff_toNat_le.mp (UInt64.not_lt.mp hmore))).symm

/-- The words are the integers, and no zero is divided by, exactly where they fit. -/
theorem wordDelta_eq_wholeDelta_iff {dist consConst : UInt64} (hdist : dist < distMax)
    (positive : 1 ≤ consConst) (amount : UInt64) :
    ((dist + 1) * consConst ≠ 0 ∧
      (wordDelta dist amount consConst).toNat =
        wholeDelta dist.toNat amount.toNat consConst.toNat) ↔
      DeltaFits dist.toNat amount.toNat consConst.toNat := by
  have hzero : (dist + 1) * consConst ≠ 0 ↔ (dist.toNat + 1) * consConst.toNat % 2 ^ 64 ≠ 0 := by
    rw [← divisor_toNat hdist, ne_eq, ← UInt64.toNat_inj]
    rfl
  have hpositive : 0 < (dist.toNat + 1) * consConst.toNat :=
    Nat.mul_pos (Nat.succ_pos _) (UInt64.le_iff_toNat_le.mp positive)
  rw [hzero, wordDelta_toNat hdist, wholeDelta]
  generalize hdivisor : (dist.toNat + 1) * consConst.toNat = divisor at hpositive ⊢
  have hfits : DeltaFits dist.toNat amount.toNat consConst.toNat ↔ divisor % 2 ^ 64 ≠ 0 ∧
      (divisor < 2 ^ 64 → amount.toNat < 2 ^ 32 ∨
        deltaMax.toNat * divisor ≤ amount.toNat % 2 ^ 32 * 2 ^ 32) ∧
      (2 ^ 64 ≤ divisor →
        amount.toNat * 2 ^ 32 / divisor * (divisor % 2 ^ 64) ≤ amount.toNat % 2 ^ 32 * 2 ^ 32 ∧
          amount.toNat % 2 ^ 32 * 2 ^ 32 <
            (amount.toNat * 2 ^ 32 / divisor + 1) * (divisor % 2 ^ 64)) := by
    rw [← hdivisor]
    exact ⟨fun h => ⟨h.divides, h.whole, h.wrapped⟩, fun h => ⟨h.1, h.2.1, h.2.2⟩⟩
  rw [hfits]
  refine and_congr_right fun hdivides => ?_
  by_cases hsmall : divisor < 2 ^ 64
  · rw [Nat.mod_eq_of_lt hsmall, min_div_low_iff hpositive hsmall]
    exact ⟨fun h => ⟨fun _ => h, fun hlarge => absurd hsmall hlarge.not_gt⟩,
      fun h => h.1 hsmall⟩
  · have hlarge := Nat.le_of_not_lt hsmall
    have hquotient := quotient_lt_deltaMax amount hlarge
    have hmin : min deltaMax.toNat (amount.toNat % 2 ^ 32 * 2 ^ 32 / (divisor % 2 ^ 64)) =
        min deltaMax.toNat (amount.toNat * 2 ^ 32 / divisor) ↔
        amount.toNat % 2 ^ 32 * 2 ^ 32 / (divisor % 2 ^ 64) =
          amount.toNat * 2 ^ 32 / divisor := by
      omega
    have hleft : 0 < divisor % 2 ^ 64 := Nat.pos_of_ne_zero hdivides
    have hwords : amount.toNat % 2 ^ 32 * 2 ^ 32 / (divisor % 2 ^ 64) =
        amount.toNat * 2 ^ 32 / divisor ↔
        amount.toNat * 2 ^ 32 / divisor * (divisor % 2 ^ 64) ≤ amount.toNat % 2 ^ 32 * 2 ^ 32 ∧
          amount.toNat % 2 ^ 32 * 2 ^ 32 <
            (amount.toNat * 2 ^ 32 / divisor + 1) * (divisor % 2 ^ 64) := by
      rw [← Nat.le_div_iff_mul_le hleft, ← Nat.div_lt_iff_lt_mul hleft, Nat.lt_succ_iff]
      exact ⟨fun h => ⟨h.ge, h.le⟩, fun h => Nat.le_antisymm h.2 h.1⟩
    rw [hmin, hwords]
    exact ⟨fun h => ⟨fun hlow => absurd hlow hsmall, fun _ => h⟩, fun h => h.2 hlarge⟩

/-- Up to a balance and a `c_const`, the words fit at every distance exactly when both of
them have 32 bits. -/
theorem deltaFits_upTo_iff {most greatest : ℕ} (positive : 1 ≤ greatest) :
    (∀ dist < 2 ^ 32, ∀ amount ≤ most, ∀ consConst, 1 ≤ consConst → consConst ≤ greatest →
      DeltaFits dist amount consConst) ↔ most < 2 ^ 32 ∧ greatest < 2 ^ 32 := by
  constructor
  · intro h
    constructor
    · by_contra hlarge
      have hfits := h 0 (by decide) (2 ^ 32) (Nat.le_of_not_lt hlarge) 1 le_rfl positive
      exact absurd (hfits.whole (by decide)) (by decide)
    · by_contra hlarge
      have hfits := h (2 ^ 32 - 1) (by decide) 0 (Nat.zero_le _) (2 ^ 32) (by decide)
        (Nat.le_of_not_lt hlarge)
      exact hfits.divides (by decide)
  · rintro ⟨hmost, hgreatest⟩ dist hdist amount hamount consConst hconst hupTo
    have hdivisor : (dist + 1) * consConst < 2 ^ 64 :=
      calc (dist + 1) * consConst ≤ 2 ^ 32 * (2 ^ 32 - 1) := Nat.mul_le_mul hdist (by omega)
        _ < 2 ^ 64 := by decide
    refine ⟨?_, fun _ => .inl (by omega), fun hlarge => absurd hdivisor hlarge.not_gt⟩
    rw [Nat.mod_eq_of_lt hdivisor]
    exact (Nat.mul_pos (Nat.succ_pos _) hconst).ne'

theorem wholeDelta_mono {dist amount more consConst greater : ℕ} (positive : 1 ≤ consConst)
    (hamount : amount ≤ more) (hconst : consConst ≤ greater) :
    wholeDelta dist amount greater ≤ wholeDelta dist more consConst := by
  apply min_le_min_left
  exact Nat.div_le_div (Nat.mul_le_mul_right _ hamount) (Nat.mul_le_mul_left _ hconst)
    (Nat.mul_pos (Nat.succ_pos _) positive).ne'

section
variable [Externals]

/-- `calc_delta` divides by no zero and gives the quotient of the integers. -/
structure TrueDelta (key : String) (amount : UInt64) (prevHash : String)
    (consConst : UInt64) : Prop where
  divides : (Externals.distance (Externals.hash key) prevHash + 1) * consConst ≠ 0
  exact : (calcDelta key amount prevHash consConst).toNat =
    wholeDelta (Externals.distance (Externals.hash key) prevHash).toNat amount.toNat
      consConst.toNat

theorem calcDelta_eq_wordDelta (key : String) (amount : UInt64) (prevHash : String)
    (consConst : UInt64) : calcDelta key amount prevHash consConst =
      wordDelta (Externals.distance (Externals.hash key) prevHash) amount consConst := rfl

/-- `calc_delta` is the true quotient exactly where its words fit, and monotone there. -/
theorem calcDelta_true_iff_fits {key prevHash : String}
    (near : Externals.distance (Externals.hash key) prevHash < distMax) :
    let dist := (Externals.distance (Externals.hash key) prevHash).toNat
    (∀ amount consConst, 1 ≤ consConst →
      (TrueDelta key amount prevHash consConst ↔
        DeltaFits dist amount.toNat consConst.toNat)) ∧
    ∀ amount more consConst greater, 1 ≤ consConst → amount ≤ more → consConst ≤ greater →
      DeltaFits dist amount.toNat greater.toNat → DeltaFits dist more.toNat consConst.toNat →
      calcDelta key amount prevHash greater ≤ calcDelta key more prevHash consConst := by
  intro dist
  have htrue : ∀ amount consConst, 1 ≤ consConst →
      (TrueDelta key amount prevHash consConst ↔
        DeltaFits dist amount.toNat consConst.toNat) := by
    intro amount consConst positive
    rw [← wordDelta_eq_wholeDelta_iff near positive, ← calcDelta_eq_wordDelta]
    exact ⟨fun h => ⟨h.divides, h.exact⟩, fun h => ⟨h.1, h.2⟩⟩
  refine ⟨htrue, ?_⟩
  intro amount more consConst greater positive hamount hconst hless hmore
  have hgreater := (htrue amount greater (UInt64.le_trans positive hconst)).mpr hless
  have hsmaller := (htrue more consConst positive).mpr hmore
  rw [UInt64.le_iff_toNat_le, hgreater.exact, hsmaller.exact]
  exact wholeDelta_mono (UInt64.le_iff_toNat_le.mp positive) (UInt64.le_iff_toNat_le.mp hamount)
    (UInt64.le_iff_toNat_le.mp hconst)

end

section Examples

local instance farExternals : Externals := { plainExternals with distance _ _ := 4294967295 }

/-- The farthest key with the greatest balance of 32 bits. -/
theorem farDelta_true :
    TrueDelta "miner" 4294967295 "head" 1 ∧
      calcDelta "miner" 4294967295 "head" 2 ≤ calcDelta "miner" 4294967295 "head" 1 := by
  have near : Externals.distance (Externals.hash "miner") "head" < distMax := by decide
  have fits := (deltaFits_upTo_iff (by decide)).mpr
    (⟨by decide, by decide⟩ : 4294967295 < 2 ^ 32 ∧ 2 < 2 ^ 32) 4294967295 (by decide) 4294967295
      le_rfl
  obtain ⟨htrue, hmono⟩ := calcDelta_true_iff_fits near
  constructor
  · exact (htrue 4294967295 1 (by decide)).mpr (fits 1 le_rfl (by decide))
  · exact hmono _ _ 1 2 (by decide) (UInt64.le_refl _) (by decide) (fits 2 (by decide) le_rfl)
      (fits 1 le_rfl (by decide))

/-- At the farthest key, the divisor of a `c_const` of 33 bits is zero. -/
theorem calcDelta_divides_by_zero :
    ¬ ∀ [Externals] (key prevHash : String) (amount consConst : UInt64),
      Externals.distance (Externals.hash key) prevHash < distMax → 1 ≤ consConst →
        TrueDelta key amount prevHash consConst := by
  intro claim
  have htrue := claim "miner" "head" 1 4294967296 (by decide) (by decide)
  exact htrue.divides (by decide)

end Examples
end Publiq
