import Std.Data.ExtTreeMap
import Mathlib.Algebra.BigOperators.Group.List.Basic
import Mathlib.Data.List.Perm.Basic

/-! Maps that answer every key. An unset key reads as the default value and a
default value is never stored, so a map is determined by what it answers. -/

universe u v

/-- A finite table with no entry for the default value. -/
structure SparseMap (κ : Type u) (ν : Type v) [Ord κ] [Std.TransOrd κ] [Std.LawfulEqOrd κ]
    [Inhabited ν] where
  entries : Std.ExtTreeMap κ ν
  sparse : ∀ k : κ, entries[k]? ≠ some (default : ν)

namespace SparseMap

variable {κ : Type u} {ν : Type v} [Ord κ] [Std.TransOrd κ] [Std.LawfulEqOrd κ]
  [Inhabited ν]

instance : EmptyCollection (SparseMap κ ν) := ⟨⟨∅, by simp⟩⟩

instance : Inhabited (SparseMap κ ν) := ⟨∅⟩

instance [DecidableEq ν] : DecidableEq (SparseMap κ ν) := fun a b =>
  decidable_of_iff (a.entries = b.entries) (by
    rcases a with ⟨a, ha⟩
    rcases b with ⟨b, hb⟩
    simp)

def get (m : SparseMap κ ν) (k : κ) : ν := m.entries[k]?.getD default

def contains (m : SparseMap κ ν) (k : κ) : Bool := m.entries.contains k

theorem getElem?_of_get_ne {m : SparseMap κ ν} {k : κ} (h : m.get k ≠ default) :
    m.entries[k]? = some (m.get k) := by
  cases hk : m.entries[k]? with
  | none => exact absurd (by simp [get, hk]) h
  | some v => simp [get, hk]

theorem getElem?_of_get_eq {m : SparseMap κ ν} {k : κ} (h : m.get k = default) :
    m.entries[k]? = none := by
  cases hk : m.entries[k]? with
  | none => rfl
  | some v =>
      have hv : v = default := by simpa [get, hk] using h
      exact absurd (hv ▸ hk) (m.sparse k)

theorem contains_iff {m : SparseMap κ ν} {k : κ} : m.contains k = true ↔ m.get k ≠ default := by
  rw [contains, Std.ExtTreeMap.contains_eq_isSome_getElem?]
  constructor
  · intro h he
    rw [getElem?_of_get_eq he] at h
    exact absurd h (by simp)
  · intro h
    rw [getElem?_of_get_ne h]
    rfl

@[ext] theorem ext {a b : SparseMap κ ν} (h : ∀ k, a.get k = b.get k) : a = b := by
  have he : a.entries = b.entries := by
    apply Std.ExtTreeMap.ext_getElem?
    intro k
    by_cases hk : a.get k = default
    · rw [getElem?_of_get_eq hk, getElem?_of_get_eq (h k ▸ hk)]
    · rw [getElem?_of_get_ne hk, getElem?_of_get_ne (h k ▸ hk), h k]
  rcases a with ⟨a, ha⟩
  rcases b with ⟨b, hb⟩
  subst he
  rfl

@[simp] theorem get_empty (k : κ) : (∅ : SparseMap κ ν).get k = default := by
  change (∅ : Std.ExtTreeMap κ ν)[k]?.getD default = default
  simp

section Writing

variable [DecidableEq κ] [DecidableEq ν]

/-- Answer `v` for `k` from now on. -/
def set (m : SparseMap κ ν) (k : κ) (v : ν) : SparseMap κ ν :=
  if h : v = default then
    ⟨m.entries.erase k, fun a => by
      rw [Std.ExtTreeMap.getElem?_erase]
      split
      · simp
      · exact m.sparse a⟩
  else
    ⟨m.entries.insert k v, fun a => by
      rw [Std.ExtTreeMap.getElem?_insert]
      split
      · simpa using h
      · exact m.sparse a⟩

theorem get_set (m : SparseMap κ ν) (k a : κ) (v : ν) :
    (m.set k v).get a = if k = a then v else m.get a := by
  unfold set get
  split
  · rename_i h
    rw [Std.ExtTreeMap.getElem?_erase]
    by_cases hk : k = a
    · simp [hk, h]
    · simp [hk]
  · rw [Std.ExtTreeMap.getElem?_insert]
    by_cases hk : k = a
    · simp [hk]
    · simp [hk]

@[simp] theorem get_set_self (m : SparseMap κ ν) (k : κ) (v : ν) : (m.set k v).get k = v := by
  rw [get_set, if_pos rfl]

theorem get_set_of_ne (m : SparseMap κ ν) {k a : κ} (h : k ≠ a) (v : ν) :
    (m.set k v).get a = m.get a := by
  rw [get_set, if_neg h]

@[simp] theorem set_get (m : SparseMap κ ν) (k : κ) : m.set k (m.get k) = m := by
  ext a
  rw [get_set]
  split
  · rename_i h
    rw [h]
  · rfl

@[simp] theorem set_set (m : SparseMap κ ν) (k : κ) (v w : ν) :
    (m.set k v).set k w = m.set k w := by
  ext a
  simp only [get_set]
  split <;> rfl

theorem set_undo (m : SparseMap κ ν) (k : κ) (v : ν) : (m.set k v).set k (m.get k) = m := by
  rw [set_set, set_get]

end Writing

end SparseMap
