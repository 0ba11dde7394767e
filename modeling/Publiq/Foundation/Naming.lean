import Mathlib.Logic.Equiv.List
import Mathlib.Tactic.DeriveCountable

/-! Distinct texts for the values of a countable type: what a hash without collisions
gives them. The values named are numbered in their order, which can be computed. -/
namespace Publiq

instance word_countable : Countable UInt64 :=
  Function.Injective.countable (f := UInt64.toNat) fun _ _ h => UInt64.toNat_inj.mp h

instance char_countable : Countable Char :=
  Function.Injective.countable (f := Char.toNat) fun _ _ h => Char.toNat_inj.mp h

instance string_countable : Countable String :=
  Function.Injective.countable (f := String.toList) fun _ _ h => String.toList_inj.mp h

def tally (n : ℕ) : String := String.ofList (List.replicate (n + 1) '#')

theorem tally_injective : Function.Injective tally := by
  intro a b h
  have hlist := congrArg (fun text : String => text.toList.length) h
  simpa [tally] using hlist

variable {α : Type} [DecidableEq α] [Countable α]

noncomputable def place (known : List α) (x : α) : ℕ :=
  if x ∈ known then known.idxOf x
  else known.length + (exists_injective_nat α).choose x

theorem place_injective (known : List α) : Function.Injective (place known) := by
  intro x y h
  unfold place at h
  split_ifs at h with hx hy hy
  · exact (List.idxOf_inj hx).mp h
  · have := List.idxOf_lt_length_of_mem hx
    omega
  · have := List.idxOf_lt_length_of_mem hy
    omega
  · exact (exists_injective_nat α).choose_spec (by omega)

noncomputable def nameOf (known : List α) (x : α) : String := tally (place known x)

theorem nameOf_injective (known : List α) : Function.Injective (nameOf known) :=
  tally_injective.comp (place_injective known)

end Publiq
