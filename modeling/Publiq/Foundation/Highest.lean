import Mathlib.Order.Defs.LinearOrder
import Mathlib.Order.Lattice
import Mathlib.Data.List.Basic

/-! The highest of some values, found one by one: a value is replaced only by one that ranks
higher. -/
namespace Publiq

universe u v

variable {α : Type u} {β : Type v} [LinearOrder β]

def keepHighest (rank : α → β) (found next : α) : α :=
  if rank found < rank next then next else found

def Highest (rank : α → β) (values : List α) (a : α) : Prop :=
  a ∈ values ∧ ∀ b ∈ values, rank b ≤ rank a

/-- What was found first stays unless some value ranks higher; then the highest one is found. -/
theorem foldl_keepHighest (rank : α → β) (values : List α) (found : α) :
    (values.foldl (keepHighest rank) found = found ∧ ∀ a ∈ values, rank a ≤ rank found) ∨
      rank found < rank (values.foldl (keepHighest rank) found) ∧
        Highest rank values (values.foldl (keepHighest rank) found) := by
  induction values generalizing found with
  | nil => exact .inl ⟨rfl, fun _ h => nomatch h⟩
  | cons a rest ih =>
      rw [List.foldl_cons]
      by_cases hmore : rank found < rank a
      · have hkeep : keepHighest rank found a = a := if_pos hmore
        rw [hkeep]
        rcases ih a with ⟨hsame, hrest⟩ | ⟨hhigher, hmem, hrest⟩
        · rw [hsame]
          exact .inr ⟨hmore, List.mem_cons_self, List.forall_mem_cons.mpr ⟨le_rfl, hrest⟩⟩
        · exact .inr ⟨hmore.trans hhigher, List.mem_cons_of_mem a hmem,
            List.forall_mem_cons.mpr ⟨hhigher.le, hrest⟩⟩
      · have hkeep : keepHighest rank found a = found := if_neg hmore
        rw [hkeep]
        rcases ih found with ⟨hsame, hrest⟩ | ⟨hhigher, hmem, hrest⟩
        · exact .inl ⟨hsame, List.forall_mem_cons.mpr ⟨not_lt.mp hmore, hrest⟩⟩
        · exact .inr ⟨hhigher, List.mem_cons_of_mem a hmem,
            List.forall_mem_cons.mpr ⟨(not_lt.mp hmore).trans hhigher.le, hrest⟩⟩

/-- The highest value is found, or was found before, exactly when some value ranks higher than
what was found first or that is one of the highest already. -/
theorem highest_foldl_iff (rank : α → β) (values : List α) (found : α) :
    Highest rank values (values.foldl (keepHighest rank) found) ↔
      (∃ a ∈ values, rank found < rank a) ∨ Highest rank values found := by
  rcases foldl_keepHighest rank values found with ⟨hsame, hle⟩ | ⟨hhigher, hhighest⟩
  · rw [hsame]
    exact ⟨.inr, fun h => h.resolve_left fun ⟨a, ha, hlt⟩ => absurd (hle a ha) (not_le.mpr hlt)⟩
  · exact ⟨fun _ => .inl ⟨_, hhighest.1, hhigher⟩, fun _ => hhighest⟩

theorem foldl_keepHighest_option (rank : α → β) (values : List α) (found : Option α)
    (default : α) :
    values.foldl (fun found next => some (keepHighest rank (found.getD default) next)) found =
      if values = [] then found
      else some (values.foldl (keepHighest rank) (found.getD default)) := by
  induction values generalizing found with
  | nil => rfl
  | cons a rest ih =>
      rw [List.foldl_cons, ih, if_neg (List.cons_ne_nil a rest), List.foldl_cons]
      split_ifs with hrest
      · rw [hrest]
        rfl
      · rfl

end Publiq
