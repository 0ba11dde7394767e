import Publiq.Foundation.TableSum
import Mathlib.Data.List.Induction
import Std.Data.ExtTreeSet

/-! Rows grouped by a key. A table that is filled row by row, each row joining what its key
holds already, is the table of what the rows of every key come to. -/
namespace Publiq

universe u v w

variable {ρ : Type u} {κ : Type v} {ν : Type w} [Ord κ] [Std.TransOrd κ] [Std.LawfulEqOrd κ]
  [DecidableEq κ]

def keysOf (key : ρ → κ) (rows : List ρ) : List κ := (Std.ExtTreeSet.ofList (rows.map key)).toList

def rowsOf (key : ρ → κ) (rows : List ρ) (k : κ) : List ρ := rows.filter fun row => key row = k

def tabulate (key : ρ → κ) (f : List ρ → ν) (rows : List ρ) : Std.ExtTreeMap κ ν :=
  (keysOf key rows).foldl (fun table k => table.insert k (f (rowsOf key rows k))) ∅

theorem mem_keysOf {key : ρ → κ} {rows : List ρ} {k : κ} :
    k ∈ keysOf key rows ↔ ∃ row ∈ rows, key row = k := by
  rw [keysOf, Std.ExtTreeSet.mem_toList, Std.ExtTreeSet.mem_ofList, List.contains_iff_mem,
    List.mem_map]

omit [Std.LawfulEqOrd κ] [DecidableEq κ] in
theorem keysOf_ordered (key : ρ → κ) (rows : List ρ) :
    (keysOf key rows).Pairwise fun a b => compare a b = .lt :=
  Std.ExtTreeSet.ordered_toList

omit [DecidableEq κ] in
theorem keysOf_nodup (key : ρ → κ) (rows : List ρ) : (keysOf key rows).Nodup :=
  (keysOf_ordered key rows).imp fun h heq => by simp [heq] at h

omit [Ord κ] [Std.TransOrd κ] [Std.LawfulEqOrd κ] in
theorem mem_rowsOf {key : ρ → κ} {rows : List ρ} {k : κ} {row : ρ} :
    row ∈ rowsOf key rows k ↔ row ∈ rows ∧ key row = k := by
  simp [rowsOf]

theorem rowsOf_eq_nil {key : ρ → κ} {rows : List ρ} {k : κ} :
    rowsOf key rows k = [] ↔ k ∉ keysOf key rows := by
  rw [mem_keysOf, List.eq_nil_iff_forall_not_mem]
  simp only [mem_rowsOf]
  exact ⟨fun h hrow => hrow.elim fun row hrow => h row hrow, fun h row hrow => h ⟨row, hrow⟩⟩

omit [Ord κ] [Std.TransOrd κ] [Std.LawfulEqOrd κ] in
theorem rowsOf_append (key : ρ → κ) (rows : List ρ) (row : ρ) (k : κ) :
    rowsOf key (rows ++ [row]) k = if key row = k then rowsOf key rows k ++ [row]
      else rowsOf key rows k := by
  rw [rowsOf, List.filter_append]
  split_ifs with h <;> simp [rowsOf, h]

theorem getElem?_foldl_insert (g : κ → ν) (keys : List κ) (table : Std.ExtTreeMap κ ν) (k : κ) :
    (keys.foldl (fun table k => table.insert k (g k)) table)[k]? =
      if k ∈ keys then some (g k) else table[k]? := by
  induction keys generalizing table with
  | nil => rfl
  | cons first rest ih =>
      rw [List.foldl_cons, ih, Std.ExtTreeMap.getElem?_insert]
      by_cases hrest : k ∈ rest
      · simp [hrest]
      · by_cases hfirst : first = k
        · simp [hfirst]
        · simp [hrest, hfirst, Ne.symm hfirst]

theorem tabulate_getElem? (key : ρ → κ) (f : List ρ → ν) (rows : List ρ) (k : κ) :
    (tabulate key f rows)[k]? = if k ∈ keysOf key rows then some (f (rowsOf key rows k)) else none := by
  rw [tabulate, getElem?_foldl_insert]
  rfl

/-- A key without rows reads as what no rows come to. -/
theorem tabulate_getD (key : ρ → κ) (f : List ρ → ν) (rows : List ρ) (k : κ) :
    (tabulate key f rows).getD k (f []) = f (rowsOf key rows k) := by
  rw [Std.ExtTreeMap.getD_eq_getD_getElem?, tabulate_getElem?]
  split_ifs with h
  · rfl
  · rw [rowsOf_eq_nil.mpr h]
    rfl

theorem tabulate_nil (key : ρ → κ) (f : List ρ → ν) : tabulate key f [] = ∅ := by
  refine Std.ExtTreeMap.ext_getElem? fun k => ?_
  rw [tabulate_getElem?, if_neg]
  · rfl
  · simp [mem_keysOf]

theorem tabulate_append (key : ρ → κ) (f : List ρ → ν) (rows : List ρ) (row : ρ) :
    tabulate key f (rows ++ [row]) =
      (tabulate key f rows).insert (key row) (f (rowsOf key rows (key row) ++ [row])) := by
  refine Std.ExtTreeMap.ext_getElem? fun k => ?_
  rw [Std.ExtTreeMap.getElem?_insert, tabulate_getElem?, tabulate_getElem?, rowsOf_append]
  by_cases h : key row = k
  · subst h
    have hmem : key row ∈ keysOf key (rows ++ [row]) := mem_keysOf.mpr ⟨row, by simp, rfl⟩
    simp [hmem]
  · have hmem : k ∈ keysOf key (rows ++ [row]) ↔ k ∈ keysOf key rows := by
      simp [mem_keysOf, h]
    simp [hmem, h]

theorem tabulate_toList (key : ρ → κ) (f : List ρ → ν) (rows : List ρ) :
    (tabulate key f rows).toList = (keysOf key rows).map fun k => (k, f (rowsOf key rows k)) := by
  have hperm : (tabulate key f rows).keys.Perm (keysOf key rows) := by
    refine (List.perm_ext_iff_of_nodup Std.ExtTreeMap.nodup_keys
      (keysOf_nodup key rows)).mpr fun k => ?_
    rw [Std.ExtTreeMap.mem_keys, Std.ExtTreeMap.mem_iff_isSome_getElem?, tabulate_getElem?]
    split_ifs with h <;> simp [h]
  have hkeys : (tabulate key f rows).keys = keysOf key rows := by
    refine List.Perm.eq_of_pairwise ?_ Std.ExtTreeMap.ordered_keys (keysOf_ordered key rows) hperm
    intro a b _ _ hab hba
    rw [Std.OrientedOrd.eq_swap, hba] at hab
    cases hab
  rw [← hkeys, ← Std.ExtTreeMap.map_fst_toList_eq_keys, List.map_map]
  refine (List.map_congr_left fun entry hentry => ?_).symm.trans (List.map_id _) |>.symm
  rw [Std.ExtTreeMap.mem_toList_iff_getElem?_eq_some (k := entry.1) (v := entry.2),
    tabulate_getElem?] at hentry
  split_ifs at hentry with h
  exact Prod.ext rfl (Option.some.inj hentry).symm

/-- What the rows of the keys add up to is what all rows add up to. -/
theorem sum_keysOf {M : Type*} [AddCancelCommMonoid M] (key : ρ → κ) (weight : ρ → M)
    (rows : List ρ) :
    ((keysOf key rows).map fun k => ((rowsOf key rows k).map weight).sum).sum =
      (rows.map weight).sum := by
  have hsum : ∀ rows : List ρ, ((keysOf key rows).map fun k =>
      ((rowsOf key rows k).map weight).sum).sum =
        tableSum (fun _ amount => amount) (tabulate key (fun rows => (rows.map weight).sum) rows) := by
    intro rows
    rw [tableSum, tabulate_toList, List.map_map]
    rfl
  rw [hsum]
  induction rows using List.reverseRecOn with
  | nil => rw [tabulate_nil, tableSum_empty, List.map_nil, List.sum_nil]
  | append_singleton rows row ih =>
      have hinsert := tableSum_insert (fun (_ : κ) (amount : M) => amount)
        (tabulate key (fun rows => (rows.map weight).sum) rows) (key row)
        (((rowsOf key rows (key row) ++ [row]).map weight).sum)
      rw [← tabulate_append, ih, List.map_append, List.sum_append] at hinsert
      have hread := tabulate_getD key (fun rows => (rows.map weight).sum) rows (key row)
      rw [Std.ExtTreeMap.getD_eq_getD_getElem?] at hread
      have hold : ((tabulate key (fun rows => (rows.map weight).sum) rows)[key row]?.map
          fun amount => amount).getD 0 = ((rowsOf key rows (key row)).map weight).sum := by
        rw [Option.map_id']
        exact hread
      rw [hold] at hinsert
      rw [List.map_append, List.sum_append]
      refine add_right_cancel (hinsert.trans ?_)
      rw [add_assoc, add_comm (List.sum (List.map weight (rowsOf key rows (key row))))]

end Publiq
