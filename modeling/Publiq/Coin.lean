import Publiq.Foundation.Checked
import Mathlib.Tactic.NormNum
import Mathlib.Tactic.Ring
import Mathlib.Tactic.Linarith

/-! `coin.cpp`: an amount as whole coins and fractions of a coin, in 64-bit
words that wrap silently. -/
namespace Publiq
open Checked

/-- `coin::fractions_in_whole`. -/
abbrev fractionsInWhole : ℕ := 100000000

/-- `publiqpp::coin`. The constructor admits no larger fraction, and every
operator below keeps it so. -/
structure Coin where
  whole : UInt64
  fraction : UInt64
  fraction_lt : fraction.toNat < fractionsInWhole
  deriving DecidableEq

/-- `uri_exception::Type`. -/
inductive UriProblem where
  | missing
  | duplicate
  | invalid
  deriving DecidableEq

/-- The exceptions of the node, with the data each of them carries. -/
inductive Failure where
  | logicError (what : String)
  | runtimeError (what : String)
  | outOfRange (what : String)
  | wrongData (message : String)
  | authority (provided required : String)
  | uri (uri : String) (problem : UriProblem)
  | notEnoughBalance (address : String) (balance spending : Coin)
  | tooLongString (used : String) (maxLength : ℕ)
  deriving DecidableEq

abbrev Checked (α : Type) := Except Failure α

namespace Coin

def value (c : Coin) : ℕ := c.whole.toNat * fractionsInWhole + c.fraction.toNat

theorem zero_fraction_lt : (0 : UInt64).toNat < fractionsInWhole := by decide

instance : Zero Coin := ⟨⟨0, 0, zero_fraction_lt⟩⟩

instance : Inhabited Coin := ⟨0⟩

/-- `coin::empty`. -/
def isEmpty (c : Coin) : Bool := c.whole == 0 && c.fraction == 0

/-- `coin::operator <`, whole coins first. -/
def lt (a b : Coin) : Bool :=
  b.whole > a.whole || (b.whole == a.whole && b.fraction > a.fraction)

def limit : ℕ := 2 ^ 64 * fractionsInWhole

theorem value_bound (c : Coin) : c.value < limit := by
  have hw := c.whole.toNat_lt
  have hf := c.fraction_lt
  unfold value limit
  simp only [fractionsInWhole] at *
  omega

theorem value_injective {a b : Coin} (h : a.value = b.value) : a = b := by
  rcases a with ⟨aw, af, ha⟩
  rcases b with ⟨bw, bf, hb⟩
  have ha' : af.toNat < 100000000 := ha
  have hb' : bf.toNat < 100000000 := hb
  simp only [value, fractionsInWhole] at h
  have hw : aw = bw := UInt64.toNat_inj.mp (by omega)
  have hf : af = bf := UInt64.toNat_inj.mp (by omega)
  subst hw hf
  rfl

@[simp] theorem value_zero : (0 : Coin).value = 0 := rfl

theorem isEmpty_iff (c : Coin) : c.isEmpty = true ↔ c = 0 := by
  constructor
  · intro h
    simp only [isEmpty, Bool.and_eq_true, beq_iff_eq] at h
    apply value_injective
    rw [value, h.1, h.2]
    rfl
  · rintro rfl
    rfl

theorem isEmpty_iff_value (c : Coin) : c.isEmpty = true ↔ c.value = 0 := by
  rw [isEmpty_iff]
  exact ⟨fun h => h ▸ rfl, fun h => value_injective h⟩

theorem lt_iff_value (a b : Coin) : a.lt b = true ↔ a.value < b.value := by
  have ha := a.fraction_lt
  have hb := b.fraction_lt
  simp only [lt, value, gt_iff_lt, Bool.or_eq_true, decide_eq_true_eq, Bool.and_eq_true,
    beq_iff_eq, UInt64.lt_iff_toNat_lt, ← UInt64.toNat_inj, fractionsInWhole] at *
  omega

/-- `coin::operator +=`: the carry and both sums wrap at the word size. -/
def add (a b : Coin) : Coin :=
  let fraction := a.fraction + b.fraction
  if h : fraction.toNat ≥ fractionsInWhole then
    ⟨a.whole + 1 + b.whole, fraction - UInt64.ofNat fractionsInWhole, by
      have ha := a.fraction_lt
      have hb := b.fraction_lt
      have hs : fraction.toNat = a.fraction.toNat + b.fraction.toNat := by
        simp only [fraction, UInt64.toNat_add, fractionsInWhole] at *
        omega
      have hle : UInt64.ofNat fractionsInWhole ≤ fraction := by
        rw [UInt64.le_iff_toNat_le]
        exact h
      rw [UInt64.toNat_sub_of_le _ _ hle]
      change fraction.toNat - fractionsInWhole < fractionsInWhole
      simp only [fractionsInWhole] at *
      omega⟩
  else ⟨a.whole + b.whole, fraction, not_le.mp h⟩

instance : Add Coin := ⟨add⟩

theorem value_add_mod (a b : Coin) :
    (a + b).value = (a.value + b.value) % limit := by
  unfold limit
  change (if h : (a.fraction + b.fraction).toNat ≥ fractionsInWhole then _ else _ : Coin).value = _
  have ha := a.fraction_lt
  have hb := b.fraction_lt
  have hs : (a.fraction + b.fraction).toNat = a.fraction.toNat + b.fraction.toNat := by
    simp only [UInt64.toNat_add, fractionsInWhole] at *
    omega
  split
  · rename_i h
    have hle : UInt64.ofNat fractionsInWhole ≤ a.fraction + b.fraction := by
      rw [UInt64.le_iff_toNat_le]
      exact h
    have hk : (UInt64.ofNat fractionsInWhole).toNat = 100000000 := rfl
    have carry : 100000000 ≤ a.fraction.toNat + b.fraction.toNat := hs ▸ h
    simp only [value, UInt64.toNat_sub_of_le _ _ hle, UInt64.toNat_add, hs, hk, fractionsInWhole,
      UInt64.reduceToNat] at *
    omega
  · rename_i h
    have noCarry : ¬ 100000000 ≤ a.fraction.toNat + b.fraction.toNat := hs ▸ h
    simp only [value, hs, UInt64.toNat_add, fractionsInWhole] at *
    omega

theorem value_add {a b : Coin} (h : a.value + b.value < limit) :
    (a + b).value = a.value + b.value := by
  rw [value_add_mod, Nat.mod_eq_of_lt h]

theorem add_comm (a b : Coin) : a + b = b + a :=
  value_injective (by rw [value_add_mod, value_add_mod, Nat.add_comm])

theorem add_assoc (a b c : Coin) : a + b + c = a + (b + c) := by
  apply value_injective
  simp only [value_add_mod, Nat.mod_add_mod, Nat.add_mod_mod, Nat.add_assoc]

theorem zero_add (a : Coin) : 0 + a = a := by
  apply value_injective
  rw [value_add_mod, value_zero, Nat.zero_add, Nat.mod_eq_of_lt a.value_bound]

theorem add_zero (a : Coin) : a + 0 = a := by rw [add_comm, zero_add]

/-- `coin::operator -=`. -/
def sub (a b : Coin) : Except Failure Coin :=
  if a.lt b then .error (.runtimeError "cannot have negative result for coin")
  else if h : a.fraction < b.fraction then
    .ok ⟨a.whole - 1 - b.whole, a.fraction + UInt64.ofNat fractionsInWhole - b.fraction, by
      have ha : a.fraction.toNat < 100000000 := a.fraction_lt
      have hb : b.fraction.toNat < 100000000 := b.fraction_lt
      have hlt := UInt64.lt_iff_toNat_lt.mp h
      have hk : (UInt64.ofNat fractionsInWhole).toNat = 100000000 := rfl
      have hs : (a.fraction + UInt64.ofNat fractionsInWhole).toNat =
          a.fraction.toNat + 100000000 := by
        rw [UInt64.toNat_add, hk]
        omega
      rw [UInt64.toNat_sub_of_le _ _ (by rw [UInt64.le_iff_toNat_le]; omega), hs]
      simp only [fractionsInWhole]
      omega⟩
  else .ok ⟨a.whole - b.whole, a.fraction - b.fraction, by
      have ha : a.fraction.toNat < 100000000 := a.fraction_lt
      have hle : b.fraction ≤ a.fraction := UInt64.not_lt.mp h
      rw [UInt64.toNat_sub_of_le _ _ hle]
      simp only [fractionsInWhole]
      omega⟩

theorem sub_lt {a b c : Coin} (h : a.sub b = .ok c) : b.value ≤ a.value := by
  by_contra hlt
  have hb := (lt_iff_value a b).mpr (not_le.mp hlt)
  simp [sub, hb] at h

theorem value_sub {a b c : Coin} (h : a.sub b = .ok c) : c.value + b.value = a.value := by
  have ha : a.fraction.toNat < 100000000 := a.fraction_lt
  have hb : b.fraction.toNat < 100000000 := b.fraction_lt
  have hle := sub_lt h
  have haw := a.whole.toNat_lt
  have hbw := b.whole.toNat_lt
  unfold sub at h
  split_ifs at h with h1 h2
  · have hlt := UInt64.lt_iff_toNat_lt.mp h2
    have hk : (UInt64.ofNat fractionsInWhole).toNat = 100000000 := rfl
    have h1' : (1 : UInt64).toNat = 1 := rfl
    cases h
    simp only [value, fractionsInWhole, UInt64.toNat_sub, UInt64.toNat_add, hk, h1'] at *
    omega
  · have hlt := UInt64.le_iff_toNat_le.mp (UInt64.not_lt.mp h2)
    cases h
    simp only [value, fractionsInWhole, UInt64.toNat_sub] at *
    omega

theorem sub_total {a b : Coin} (h : b.value ≤ a.value) :
    ∃ c, a.sub b = .ok c ∧ c.value + b.value = a.value := by
  have hlt : ¬ a.lt b = true := by
    rw [lt_iff_value]
    exact not_lt.mpr h
  obtain ⟨c, hc⟩ : ∃ c, a.sub b = .ok c := by
    unfold sub
    rw [if_neg hlt]
    split_ifs <;> exact ⟨_, rfl⟩
  exact ⟨c, hc, value_sub hc⟩

/-- `coin::operator *=`: both products and the sum wrap. -/
def mul (a : Coin) (times : UInt64) : Coin :=
  let fraction := a.fraction * times
  ⟨a.whole * times + fraction / UInt64.ofNat fractionsInWhole,
    fraction % UInt64.ofNat fractionsInWhole, by
      rw [UInt64.toNat_mod]
      exact Nat.mod_lt _ (by decide)⟩

theorem value_mul {a : Coin} {times : UInt64} (hf : a.fraction.toNat * times.toNat < 2 ^ 64)
    (hv : a.value * times.toNat < limit) :
    (a.mul times).value = a.value * times.toNat := by
  unfold limit at hv
  have hk : (UInt64.ofNat fractionsInWhole).toNat = 100000000 := rfl
  simp only [value, fractionsInWhole, mul, UInt64.toNat_add, UInt64.toNat_mul, UInt64.toNat_div,
    UInt64.toNat_mod, hk] at *
  have hsplit : (a.whole.toNat * 100000000 + a.fraction.toNat) * times.toNat =
      a.whole.toNat * times.toNat * 100000000 + a.fraction.toNat * times.toNat := by ring
  rw [hsplit] at hv ⊢
  rw [Nat.mod_eq_of_lt (a := a.fraction.toNat * times.toNat) (by omega),
    Nat.mod_eq_of_lt (a := a.whole.toNat * times.toNat) (by omega)]
  omega

theorem toNat_pos {times : UInt64} (h : times ≠ 0) : 0 < times.toNat := by
  rcases Nat.eq_zero_or_pos times.toNat with hz | hp
  · exact absurd (UInt64.toNat_inj.mp hz) h
  · exact hp

/-- The fraction that `coin::operator /=` divides: it wraps for a large remainder. -/
def divFraction (a : Coin) (times : UInt64) : UInt64 :=
  a.fraction + a.whole % times * UInt64.ofNat fractionsInWhole

theorem divFraction_lt (a : Coin) {times : UInt64} (h : times ≠ 0) :
    (a.divFraction times).toNat < times.toNat * fractionsInWhole := by
  have hf : a.fraction.toNat < 100000000 := a.fraction_lt
  have hk : (UInt64.ofNat fractionsInWhole).toNat = 100000000 := rfl
  have hpos := toNat_pos h
  have hr := Nat.mod_lt a.whole.toNat hpos
  simp only [divFraction, UInt64.toNat_add, UInt64.toNat_mul, UInt64.toNat_mod, hk,
    fractionsInWhole]
  omega

/-- `coin::operator /=`. -/
def div (a : Coin) (times : UInt64) : Except Failure Coin :=
  if h : times = 0 then .error (.runtimeError "zero division")
  else .ok ⟨a.whole / times, a.divFraction times / times, by
    have hlt := a.divFraction_lt h
    rw [UInt64.toNat_div, Nat.div_lt_iff_lt_mul (toNat_pos h), Nat.mul_comm]
    exact hlt⟩

theorem value_div {a c : Coin} {times : UInt64} (h : a.div times = .ok c)
    (small : a.whole.toNat % times.toNat * fractionsInWhole + a.fraction.toNat < 2 ^ 64) :
    c.value = a.value / times.toNat := by
  have hk : (UInt64.ofNat fractionsInWhole).toNat = 100000000 := rfl
  unfold div at h
  split_ifs at h with h0
  cases h
  have hpos := toNat_pos h0
  have hd := Nat.div_add_mod a.whole.toNat times.toNat
  simp only [value, fractionsInWhole, divFraction, UInt64.toNat_add, UInt64.toNat_mul,
    UInt64.toNat_div, UInt64.toNat_mod, hk] at small ⊢
  generalize a.whole.toNat % times.toNat = r at *
  generalize a.whole.toNat / times.toNat = q at *
  have h1 : r * 100000000 < 2 ^ 64 := lt_of_le_of_lt (Nat.le_add_right _ _) small
  have h2 : a.fraction.toNat + r * 100000000 < 2 ^ 64 := Nat.add_comm _ _ ▸ small
  rw [Nat.mod_eq_of_lt h1, Nat.mod_eq_of_lt h2]
  have hsplit : a.whole.toNat * 100000000 + a.fraction.toNat =
      (a.fraction.toNat + r * 100000000) + times.toNat * (q * 100000000) := by
    rw [← hd]
    ring
  rw [hsplit, Nat.add_mul_div_left _ _ hpos, Nat.add_comm]

/-- `coin::operator %=`. -/
def mod (a : Coin) (times : UInt64) : Except Failure Coin := do
  let part ← a.div times
  a.sub (part.mul times)

attribute [irreducible] value

end Coin
end Publiq
