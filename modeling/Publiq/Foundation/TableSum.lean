import Std.Data.ExtTreeMap
import Mathlib.Algebra.BigOperators.Group.List.Basic
import Mathlib.Data.List.Perm.Basic
import Mathlib.Data.List.Nodup
import Publiq.Foundation.SparseMap

/-! Sums over the entries of a finite table, in whatever order it lists them. -/
namespace Publiq

universe u v w

section
variable {κ : Type u} {ν : Type v} [Ord κ] [Std.TransOrd κ] [Std.LawfulEqOrd κ]

theorem keys_nodup (m : Std.ExtTreeMap κ ν) : (m.toList.map Prod.fst).Nodup := by
  have h := m.distinct_keys_toList
  rw [List.Nodup, List.pairwise_map]
  refine h.imp fun hne heq => hne ?_
  rw [heq]
  exact Std.ReflOrd.compare_self

theorem toList_nodup (m : Std.ExtTreeMap κ ν) : m.toList.Nodup := (keys_nodup m).of_map

def otherEntries [DecidableEq κ] (m : Std.ExtTreeMap κ ν) (k : κ) : List (κ × ν) :=
  m.toList.filter fun entry => entry.1 ≠ k

variable [DecidableEq κ]

theorem toList_perm_of_some {m : Std.ExtTreeMap κ ν} {k : κ} {v : ν} (h : m[k]? = some v) :
    m.toList.Perm ((k, v) :: otherEntries m k) := by
  rw [List.perm_ext_iff_of_nodup (toList_nodup m)]
  · rintro ⟨a, b⟩
    rw [List.mem_cons, otherEntries, List.mem_filter,
      Std.ExtTreeMap.mem_toList_iff_getElem?_eq_some]
    by_cases ha : a = k
    · subst ha
      simp [h, eq_comm]
    · simp [ha]
  · refine List.nodup_cons.mpr ⟨?_, (toList_nodup m).filter _⟩
    simp [otherEntries]

theorem toList_eq_of_none {m : Std.ExtTreeMap κ ν} {k : κ} (h : m[k]? = none) :
    m.toList = otherEntries m k := by
  refine (List.filter_eq_self.mpr ?_).symm
  rintro ⟨a, b⟩ hmem
  rw [Std.ExtTreeMap.mem_toList_iff_getElem?_eq_some] at hmem
  simp only [ne_eq, decide_eq_true_eq]
  rintro rfl
  rw [h] at hmem
  cases hmem

theorem toList_insert_perm (m : Std.ExtTreeMap κ ν) (k : κ) (v : ν) :
    (m.insert k v).toList.Perm ((k, v) :: otherEntries m k) := by
  have hat : (m.insert k v)[k]? = some v := Std.ExtTreeMap.getElem?_insert_self
  refine (toList_perm_of_some hat).trans ?_
  refine List.Perm.cons _ ?_
  unfold otherEntries
  rw [List.perm_ext_iff_of_nodup ((toList_nodup _).filter _) ((toList_nodup _).filter _)]
  rintro ⟨a, b⟩
  simp only [ List.mem_filter, Std.ExtTreeMap.mem_toList_iff_getElem?_eq_some,
    Std.ExtTreeMap.getElem?_insert]
  by_cases ha : a = k
  · simp [ha]
  · simp [ha, Ne.symm ha]

theorem toList_erase_perm (m : Std.ExtTreeMap κ ν) (k : κ) :
    (m.erase k).toList.Perm (otherEntries m k) := by
  unfold otherEntries
  rw [List.perm_ext_iff_of_nodup (toList_nodup _) ((toList_nodup _).filter _)]
  rintro ⟨a, b⟩
  simp only [ List.mem_filter, Std.ExtTreeMap.mem_toList_iff_getElem?_eq_some,
    Std.ExtTreeMap.getElem?_erase]
  by_cases ha : a = k
  · simp [ha]
  · simp [ha, Ne.symm ha]

end

section
variable {κ : Type u} {ν : Type v} {M : Type w} [Ord κ] [Std.TransOrd κ] [Std.LawfulEqOrd κ]
  [AddCommMonoid M]

def tableSum (f : κ → ν → M) (m : Std.ExtTreeMap κ ν) : M :=
  (m.toList.map fun entry => f entry.1 entry.2).sum

omit [Std.LawfulEqOrd κ] in
@[simp] theorem tableSum_empty (f : κ → ν → M) : tableSum f ∅ = 0 := by
  have h : (∅ : Std.ExtTreeMap κ ν).toList = [] :=
    Std.ExtTreeMap.toList_eq_nil_iff.mpr rfl
  rw [tableSum, h]
  rfl

variable [DecidableEq κ]

theorem tableSum_insert (f : κ → ν → M) (m : Std.ExtTreeMap κ ν) (k : κ) (v : ν) :
    tableSum f (m.insert k v) + (m[k]?.map (f k)).getD 0 = tableSum f m + f k v := by
  unfold tableSum
  rw [((toList_insert_perm m k v).map _).sum_eq]
  cases h : m[k]? with
  | none =>
      rw [toList_eq_of_none h]
      simp [add_comm]
  | some old =>
      rw [((toList_perm_of_some h).map _).sum_eq]
      simp only [List.map_cons, List.sum_cons, Option.map_some, Option.getD_some]
      rw [add_comm (f k v), add_right_comm, add_comm _ (f k old)]

theorem tableSum_erase (f : κ → ν → M) (m : Std.ExtTreeMap κ ν) (k : κ) :
    tableSum f (m.erase k) + (m[k]?.map (f k)).getD 0 = tableSum f m := by
  unfold tableSum
  rw [((toList_erase_perm m k).map _).sum_eq]
  cases h : m[k]? with
  | none => rw [toList_eq_of_none h, Option.map_none, Option.getD_none, add_zero]
  | some old =>
      rw [((toList_perm_of_some h).map _).sum_eq, List.map_cons, List.sum_cons, add_comm]
      rfl

end

section
variable {κ : Type u} {ν : Type v} {M : Type w} [Ord κ] [Std.TransOrd κ] [Std.LawfulEqOrd κ]
  [Inhabited ν] [AddCommMonoid M]

/-- The sum of what all the answers of a map are worth, where the default is worth nothing. -/
def mapSum (f : ν → M) (m : SparseMap κ ν) : M := tableSum (fun _ => f) m.entries

@[simp] theorem mapSum_empty (f : ν → M) : mapSum f (∅ : SparseMap κ ν) = 0 := tableSum_empty _

theorem mapSum_entry {f : ν → M} (nothing : f default = 0) (m : SparseMap κ ν) (k : κ) :
    (m.entries[k]?.map f).getD 0 = f (m.get k) := by
  unfold SparseMap.get
  cases m.entries[k]? with
  | none => exact nothing.symm
  | some v => rfl

variable [DecidableEq κ] [DecidableEq ν]

theorem mapSum_set {f : ν → M} (nothing : f default = 0) (m : SparseMap κ ν) (k : κ) (v : ν) :
    mapSum f (m.set k v) + f (m.get k) = mapSum f m + f v := by
  rw [← mapSum_entry nothing m k]
  unfold mapSum SparseMap.set
  split
  · rename_i hv
    rw [hv, nothing, add_zero]
    exact tableSum_erase _ _ _
  · exact tableSum_insert _ _ _ _

end
end Publiq
