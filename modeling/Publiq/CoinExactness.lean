import Publiq.Coin

/-! How far the operators of a coin are those of the number it stands for. Nothing in
`coin.cpp` looks at a carry out of a 64-bit word, so each operator is exact as long as
its words hold what they compute, and no longer. -/
namespace Publiq
open Checked

namespace Coin

theorem toNat_fractionsInWhole : (UInt64.ofNat fractionsInWhole).toNat = 100000000 := rfl

theorem value_eq (a : Coin) : a.value = a.whole.toNat * 100000000 + a.fraction.toNat := by
  unfold value
  rfl

/-- What `coin::operator *=` computes, with every wrap. -/
theorem value_mul_wrap (a : Coin) (times : UInt64) : (a.mul times).value =
    (a.whole.toNat * times.toNat % 2 ^ 64 +
        a.fraction.toNat * times.toNat % 2 ^ 64 / 100000000) % 2 ^ 64 * 100000000 +
      a.fraction.toNat * times.toNat % 2 ^ 64 % 100000000 := by
  unfold value mul
  simp only [UInt64.toNat_add, UInt64.toNat_mul, UInt64.toNat_div, UInt64.toNat_mod,
    toNat_fractionsInWhole]

theorem value_mul_split (a : Coin) (times : UInt64) : a.value * times.toNat =
    a.whole.toNat * times.toNat * 100000000 + a.fraction.toNat * times.toNat := by
  rw [value_eq]
  ring

theorem value_mul_le (a : Coin) (times : UInt64) : (a.mul times).value ≤ a.value * times.toNat := by
  rw [value_mul_wrap, value_mul_split]
  have hwhole := Nat.mod_le (a.whole.toNat * times.toNat) (2 ^ 64)
  have hfraction := Nat.mod_le (a.fraction.toNat * times.toNat) (2 ^ 64)
  generalize a.whole.toNat * times.toNat % 2 ^ 64 = w at hwhole ⊢
  generalize a.fraction.toNat * times.toNat % 2 ^ 64 = f at hfraction ⊢
  have hsum := Nat.mod_le (w + f / 100000000) (2 ^ 64)
  generalize (w + f / 100000000) % 2 ^ 64 = s at hsum ⊢
  omega

theorem value_mul_iff (a : Coin) (times : UInt64) :
    (a.mul times).value = a.value * times.toNat ↔
      a.fraction.toNat * times.toNat < 2 ^ 64 ∧ a.value * times.toNat < limit := by
  constructor
  · intro h
    have hproduct : a.value * times.toNat < limit := h ▸ (a.mul times).value_bound
    refine ⟨?_, hproduct⟩
    by_contra hwrap
    have hwrap := not_lt.mp hwrap
    -- a wrapped product of the fractions makes the result too small, whatever else wraps
    rw [value_mul_wrap, value_mul_split] at h
    have hwhole := Nat.mod_le (a.whole.toNat * times.toNat) (2 ^ 64)
    have hfraction := Nat.mod_lt (a.fraction.toNat * times.toNat) (by decide : 0 < 2 ^ 64)
    generalize a.whole.toNat * times.toNat % 2 ^ 64 = w at h hwhole
    generalize a.fraction.toNat * times.toNat % 2 ^ 64 = f at h hfraction
    have hsum := Nat.mod_le (w + f / 100000000) (2 ^ 64)
    generalize (w + f / 100000000) % 2 ^ 64 = s at h hsum
    omega
  · rintro ⟨hfraction, hproduct⟩
    exact value_mul hfraction hproduct

/-- What `coin::operator /=` divides once the whole coins are divided. -/
def remainderFraction (a : Coin) (times : UInt64) : ℕ :=
  a.whole.toNat % times.toNat * fractionsInWhole + a.fraction.toNat

theorem value_split (a : Coin) (times : UInt64) : a.value =
    a.remainderFraction times + times.toNat * (a.whole.toNat / times.toNat * 100000000) := by
  rw [value_eq, remainderFraction, fractionsInWhole]
  have hwhole := Nat.div_add_mod a.whole.toNat times.toNat
  generalize a.whole.toNat / times.toNat = q at *
  generalize a.whole.toNat % times.toNat = r at *
  rw [← hwhole]
  ring

theorem toNat_divFraction (a : Coin) (times : UInt64) :
    (a.divFraction times).toNat = a.remainderFraction times % 2 ^ 64 := by
  unfold divFraction remainderFraction
  simp only [UInt64.toNat_add, UInt64.toNat_mul, UInt64.toNat_mod, toNat_fractionsInWhole,
    fractionsInWhole]
  omega

theorem div_ok {a : Coin} {times : UInt64} (h : times ≠ 0) : ∃ c, a.div times = .ok c ∧
    c.whole.toNat = a.whole.toNat / times.toNat ∧
    c.fraction.toNat = a.remainderFraction times % 2 ^ 64 / times.toNat := by
  unfold div
  rw [dif_neg h]
  refine ⟨_, rfl, UInt64.toNat_div _ _, ?_⟩
  rw [UInt64.toNat_div, toNat_divFraction]

theorem div_zero (a : Coin) : a.div 0 = .error (.runtimeError "zero division") := rfl

theorem value_div_iff {a c : Coin} {times : UInt64} (h : a.div times = .ok c) :
    c.value = a.value / times.toNat ↔ a.remainderFraction times < 2 ^ 64 := by
  constructor
  · intro hexact
    by_contra hwrap
    have hwrap := not_lt.mp hwrap
    have hnonzero : times ≠ 0 := by
      rintro rfl
      rw [div_zero] at h
      cases h
    obtain ⟨d, hd, hwhole, hfraction⟩ := div_ok (a := a) hnonzero
    rw [h] at hd
    cases hd
    have hpos := toNat_pos hnonzero
    have hword := times.toNat_lt
    rw [value_eq, hwhole, hfraction, a.value_split times, Nat.add_mul_div_left _ _ hpos] at hexact
    -- the wrap loses at least one whole divisor
    have hless : a.remainderFraction times % 2 ^ 64 + times.toNat ≤ a.remainderFraction times := by
      have := Nat.mod_add_div (a.remainderFraction times) (2 ^ 64)
      have hquotient : 1 ≤ a.remainderFraction times / 2 ^ 64 :=
        (Nat.one_le_div_iff (by decide)).mpr hwrap
      omega
    have hlost : a.remainderFraction times % 2 ^ 64 / times.toNat + 1 ≤
        a.remainderFraction times / times.toNat := by
      rw [← Nat.add_div_right _ hpos]
      exact Nat.div_le_div_right hless
    omega
  · intro small
    exact value_div h small

/-- What was divided and multiplied back does not exceed the coin. -/
theorem value_mul_div {a c : Coin} {times : UInt64} (h : a.div times = .ok c) :
    (c.mul times).value = c.value * times.toNat ∧ c.value * times.toNat ≤ a.value := by
  have hnonzero : times ≠ 0 := by
    rintro rfl
    rw [div_zero] at h
    cases h
  obtain ⟨d, hd, hwhole, hfraction⟩ := div_ok (a := a) hnonzero
  rw [h] at hd
  cases hd
  have hback := Nat.div_mul_le_self (a.remainderFraction times % 2 ^ 64) times.toNat
  have hmod := Nat.mod_le (a.remainderFraction times) (2 ^ 64)
  have hword := Nat.mod_lt (a.remainderFraction times) (by decide : 0 < 2 ^ 64)
  have hvalue : c.value * times.toNat ≤ a.value := by
    rw [value_eq c, hwhole, hfraction, a.value_split times, Nat.add_mul, Nat.add_comm,
      Nat.mul_comm times.toNat]
    exact Nat.add_le_add_right (hback.trans hmod) _
  refine ⟨(value_mul_iff c times).mpr ⟨?_, ?_⟩, hvalue⟩
  · rw [hfraction]
    exact lt_of_le_of_lt hback hword
  · exact lt_of_le_of_lt hvalue a.value_bound

theorem mod_ok {a q : Coin} {times : UInt64} (h : a.div times = .ok q) :
    ∃ r, a.mod times = .ok r ∧ q.value * times.toNat + r.value = a.value := by
  obtain ⟨hmul, hle⟩ := value_mul_div h
  obtain ⟨r, hsub, hvalue⟩ := sub_total (hmul ▸ hle)
  refine ⟨r, ?_, ?_⟩
  · rw [mod, h]
    exact hsub
  · rw [← hmul, Nat.add_comm]
    exact hvalue

theorem div_of_mod {a r : Coin} {times : UInt64} (h : a.mod times = .ok r) :
    ∃ q, a.div times = .ok q ∧ q.value * times.toNat + r.value = a.value := by
  obtain ⟨q, hdiv, _⟩ := bind_ok_iff.mp h
  obtain ⟨r', hmod, hvalue⟩ := mod_ok hdiv
  rw [h] at hmod
  cases hmod
  exact ⟨q, hdiv, hvalue⟩

theorem value_mod_iff {a r : Coin} {times : UInt64} (h : a.mod times = .ok r) :
    r.value = a.value % times.toNat ↔ a.remainderFraction times < 2 ^ 64 := by
  obtain ⟨q, hdiv, hvalue⟩ := div_of_mod h
  rw [← value_div_iff hdiv]
  have hnonzero : times ≠ 0 := by
    rintro rfl
    rw [div_zero] at hdiv
    cases hdiv
  have hsplit := Nat.div_add_mod a.value times.toNat
  constructor
  · intro hexact
    apply Nat.eq_of_mul_eq_mul_left (toNat_pos hnonzero)
    rw [Nat.mul_comm] at hvalue
    omega
  · intro hexact
    rw [hexact, Nat.mul_comm] at hvalue
    omega

/-- Each operator gives what the numbers give, or throws where there is no such number. -/
structure ExactArithmetic (a b : Coin) (times : UInt64) : Prop where
  add : (a + b).value = a.value + b.value
  sub : ∀ c, a.sub b = .ok c → c.value + b.value = a.value
  sub_throws : ∀ e, a.sub b = .error e → a.value < b.value
  mul : (a.mul times).value = a.value * times.toNat
  div : ∀ c, a.div times = .ok c → c.value = a.value / times.toNat
  mod : ∀ c, a.mod times = .ok c → c.value = a.value % times.toNat
  throws : ∀ e, a.div times = .error e ∨ a.mod times = .error e → times = 0
  restores : ∀ q r, a.div times = .ok q → a.mod times = .ok r → q.mul times + r = a

/-- The words of every operator hold what it computes. -/
structure Fits (a b : Coin) (times : UInt64) : Prop where
  sum : a.value + b.value < limit
  fraction : a.fraction.toNat * times.toNat < 2 ^ 64
  product : a.value * times.toNat < limit
  remainder : times ≠ 0 → a.whole.toNat % times.toNat * fractionsInWhole + a.fraction.toNat < 2 ^ 64

/-- The operators are exact on some operands if and only if nothing outgrows its word. -/
theorem exactArithmetic_iff_fits (a b : Coin) (times : UInt64) :
    ExactArithmetic a b times ↔ Fits a b times := by
  constructor
  · intro arithmetic
    obtain ⟨hfraction, hproduct⟩ := (value_mul_iff a times).mp arithmetic.mul
    refine ⟨arithmetic.add ▸ (a + b).value_bound, hfraction, hproduct, fun hnonzero => ?_⟩
    obtain ⟨q, hdiv, _⟩ := div_ok (a := a) hnonzero
    exact (value_div_iff hdiv).mp (arithmetic.div q hdiv)
  · intro fits
    have hremainder : ∀ q, a.div times = .ok q → a.remainderFraction times < 2 ^ 64 := by
      intro q hdiv
      apply fits.remainder
      rintro rfl
      rw [div_zero] at hdiv
      cases hdiv
    constructor
    · exact value_add fits.sum
    · intro c hsub
      exact value_sub hsub
    · intro e hsub
      by_contra hle
      obtain ⟨c, hc, _⟩ := sub_total (not_lt.mp hle)
      rw [hsub] at hc
      cases hc
    · exact (value_mul_iff a times).mpr ⟨fits.fraction, fits.product⟩
    · intro c hdiv
      exact (value_div_iff hdiv).mpr (hremainder c hdiv)
    · intro c hmod
      obtain ⟨q, hdiv, _⟩ := div_of_mod hmod
      exact (value_mod_iff hmod).mpr (hremainder q hdiv)
    · intro e hthrows
      by_contra hnonzero
      obtain ⟨q, hdiv, _⟩ := div_ok (a := a) hnonzero
      obtain ⟨r, hmod, _⟩ := mod_ok hdiv
      rw [hdiv, hmod] at hthrows
      rcases hthrows with hthrows | hthrows
      · cases hthrows
      · cases hthrows
    · intro q r hdiv hmod
      obtain ⟨q', hdiv', hvalue⟩ := div_of_mod hmod
      rw [hdiv] at hdiv'
      cases hdiv'
      obtain ⟨hmul, _⟩ := value_mul_div hdiv
      apply value_injective
      rw [value_add_mod, hmul, hvalue, Nat.mod_eq_of_lt a.value_bound]

def almostWhole : Coin := ⟨0, 99999999, by decide⟩

theorem mul_wraps : ¬ ExactArithmetic almostWhole 0 200000000000 := by
  intro arithmetic
  have hfraction := ((value_mul_iff _ _).mp arithmetic.mul).1
  revert hfraction
  decide

end Coin
end Publiq
