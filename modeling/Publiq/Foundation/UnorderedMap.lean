import Mathlib.Data.List.Basic
import Mathlib.Data.List.Nodup
import Mathlib.Data.List.Perm.Basic

/-! Maps that are walked in an order of their own: the entries as the walk meets
them, no key twice. What a map answers does not depend on the order. -/

universe u v w

/-- The entries of a map in the order of its iteration. -/
structure UnorderedMap (κ : Type u) (ν : Type v) where
  entries : List (κ × ν)
  distinct : (entries.map Prod.fst).Nodup

namespace UnorderedMap

variable {κ : Type u} {ν : Type v} {μ : Type w} [DecidableEq κ]

instance : EmptyCollection (UnorderedMap κ ν) := ⟨⟨[], List.nodup_nil⟩⟩

instance : Inhabited (UnorderedMap κ ν) := ⟨∅⟩

instance [DecidableEq ν] : DecidableEq (UnorderedMap κ ν) := fun a b =>
  decidable_of_iff (a.entries = b.entries) (by
    rcases a with ⟨a, ha⟩
    rcases b with ⟨b, hb⟩
    simp)

def keys (m : UnorderedMap κ ν) : List κ := m.entries.map Prod.fst

/-- `find`. -/
def find? (m : UnorderedMap κ ν) (k : κ) : Option ν :=
  (m.entries.find? fun entry => entry.1 = k).map Prod.snd

theorem find?_eq_some_iff {m : UnorderedMap κ ν} {k : κ} {v : ν} :
    m.find? k = some v ↔ (k, v) ∈ m.entries := by
  rcases m with ⟨entries, distinct⟩
  unfold find?
  induction entries with
  | nil => simp
  | cons entry rest ih =>
      rw [List.map_cons, List.nodup_cons] at distinct
      by_cases same : entry.1 = k
      · have apart : (k, v) ∉ rest := fun found =>
          distinct.1 (same ▸ List.mem_map_of_mem (f := Prod.fst) found)
        rw [List.find?_cons_of_pos (by simpa using same), List.mem_cons]
        constructor
        · intro found
          exact .inl (Prod.ext same.symm (Option.some.inj found).symm)
        · rintro (rfl | found)
          · rfl
          · exact absurd found apart
      · rw [List.find?_cons_of_neg (by simpa using same), ih distinct.2, List.mem_cons]
        constructor
        · exact .inr
        · rintro (rfl | found)
          · exact absurd rfl same
          · exact found

theorem find?_eq_none_iff {m : UnorderedMap κ ν} {k : κ} :
    m.find? k = none ↔ k ∉ m.keys := by
  constructor
  · intro none found
    obtain ⟨⟨k', v⟩, entry, rfl⟩ := List.mem_map.mp found
    rw [find?_eq_some_iff.mpr entry] at none
    cases none
  · intro apart
    cases found : m.find? k with
    | none => rfl
    | some v => exact absurd (List.mem_map_of_mem (find?_eq_some_iff.mp found)) apart

@[simp] theorem find?_empty (k : κ) : (∅ : UnorderedMap κ ν).find? k = none := rfl

theorem find?_of_perm {m n : UnorderedMap κ ν} (perm : m.entries.Perm n.entries) (k : κ) :
    m.find? k = n.find? k := by
  ext v
  rw [find?_eq_some_iff, find?_eq_some_iff, perm.mem_iff]

/-- `insert`: nothing changes under a key that is there. -/
def insert (m : UnorderedMap κ ν) (k : κ) (v : ν) : UnorderedMap κ ν :=
  if absent : k ∈ m.keys then m
  else
    ⟨m.entries ++ [(k, v)], by
      rw [List.map_append, List.nodup_append]
      refine ⟨m.distinct, List.nodup_singleton _, ?_⟩
      rintro a found b hb rfl
      cases List.mem_singleton.mp hb
      exact absent found⟩

theorem insert_of_mem {m : UnorderedMap κ ν} {k : κ} (found : k ∈ m.keys) (v : ν) :
    m.insert k v = m := dif_pos found

theorem entries_insert {m : UnorderedMap κ ν} {k : κ} (absent : k ∉ m.keys) (v : ν) :
    (m.insert k v).entries = m.entries ++ [(k, v)] := by
  rw [insert, dif_neg absent]

theorem mem_insert {m : UnorderedMap κ ν} {k k' : κ} {v v' : ν} :
    (k', v') ∈ (m.insert k v).entries ↔
      (k', v') ∈ m.entries ∨ (k ∉ m.keys ∧ k' = k ∧ v' = v) := by
  by_cases found : k ∈ m.keys
  · simp [insert_of_mem found, found]
  · simp [entries_insert found, found]

theorem find?_insert_self (m : UnorderedMap κ ν) (k : κ) (v : ν) :
    (m.insert k v).find? k = some ((m.find? k).getD v) := by
  rw [find?_eq_some_iff, mem_insert]
  cases found : m.find? k with
  | none => exact .inr ⟨find?_eq_none_iff.mp found, rfl, rfl⟩
  | some w => exact .inl (find?_eq_some_iff.mp found)

theorem find?_insert_ne (m : UnorderedMap κ ν) {k k' : κ} (v : ν) (h : k' ≠ k) :
    (m.insert k v).find? k' = m.find? k' := by
  ext w
  rw [find?_eq_some_iff, find?_eq_some_iff, mem_insert]
  simp [h]

def modify (m : UnorderedMap κ ν) (k : κ) (f : ν → ν) : UnorderedMap κ ν :=
  ⟨m.entries.map fun entry => if entry.1 = k then (entry.1, f entry.2) else entry, by
    rw [List.map_map]
    convert m.distinct using 2
    funext entry
    by_cases same : entry.1 = k
    · simp [same]
    · simp [same]⟩

theorem find?_modify (m : UnorderedMap κ ν) (k k' : κ) (f : ν → ν) :
    (m.modify k f).find? k' = if k' = k then (m.find? k').map f else m.find? k' := by
  have look : ∀ w, (m.modify k f).find? k' = some w ↔
      ∃ v, m.find? k' = some v ∧ (if k' = k then f v else v) = w := by
    intro w
    simp only [find?_eq_some_iff, modify, List.mem_map, Prod.exists]
    constructor
    · rintro ⟨a, v, entry, eq⟩
      by_cases same : a = k
      · rw [if_pos same] at eq
        cases eq
        exact ⟨v, entry, if_pos same⟩
      · rw [if_neg same] at eq
        cases eq
        exact ⟨w, entry, if_neg same⟩
    · rintro ⟨v, entry, rfl⟩
      refine ⟨k', v, entry, ?_⟩
      by_cases same : k' = k
      · rw [if_pos same, if_pos same]
      · rw [if_neg same, if_neg same]
  ext w
  rw [look]
  by_cases same : k' = k
  · simp only [if_pos same, Option.map_eq_some_iff]
  · simp only [if_neg same, exists_eq_right]

@[simp] theorem keys_modify (m : UnorderedMap κ ν) (k : κ) (f : ν → ν) :
    (m.modify k f).keys = m.keys := by
  rw [keys, modify, List.map_map]
  apply List.map_congr_left
  intro entry _
  by_cases same : entry.1 = k
  · simp [same]
  · simp [same]

theorem keys_insert {m : UnorderedMap κ ν} {k : κ} (absent : k ∉ m.keys) (v : ν) :
    (m.insert k v).keys = m.keys ++ [k] := by
  rw [keys, entries_insert absent, List.map_append]
  rfl

/-- `erase`. -/
def erase (m : UnorderedMap κ ν) (k : κ) : UnorderedMap κ ν :=
  ⟨m.entries.filter fun entry => entry.1 ≠ k,
    m.distinct.sublist (List.filter_sublist.map Prod.fst)⟩

theorem keys_erase (m : UnorderedMap κ ν) (k : κ) : (m.erase k).keys = m.keys.erase k := by
  unfold keys
  rw [m.distinct.erase_eq_filter, erase, List.filter_map]
  congr 1
  apply List.filter_congr
  intro entry _
  by_cases same : entry.1 = k
  · simp [same]
  · simp [same]

theorem find?_erase_ne (m : UnorderedMap κ ν) {k k' : κ} (h : k' ≠ k) :
    (m.erase k).find? k' = m.find? k' := by
  ext v
  rw [find?_eq_some_iff, find?_eq_some_iff, erase, List.mem_filter]
  simp [h]

/-- `operator []` on the left of an assignment. -/
def assign (m : UnorderedMap κ ν) (k : κ) (v : ν) : UnorderedMap κ ν :=
  (m.insert k v).modify k fun _ => v

theorem find?_assign (m : UnorderedMap κ ν) (k k' : κ) (v : ν) :
    (m.assign k v).find? k' = if k' = k then some v else m.find? k' := by
  rw [assign, find?_modify]
  by_cases same : k' = k
  · rw [if_pos same, if_pos same, same, find?_insert_self]
    rfl
  · rw [if_neg same, if_neg same, find?_insert_ne m v same]

def filterMap (m : UnorderedMap κ ν) (f : κ → ν → Option μ) : UnorderedMap κ μ :=
  ⟨m.entries.filterMap fun entry => (f entry.1 entry.2).map (Prod.mk entry.1), by
    have sub : ∀ entries : List (κ × ν),
        ((entries.filterMap fun entry => (f entry.1 entry.2).map (Prod.mk entry.1)).map
          Prod.fst).Sublist (entries.map Prod.fst) := by
      intro entries
      induction entries with
      | nil => exact List.Sublist.refl _
      | cons entry rest ih =>
          cases kept : f entry.1 entry.2 with
          | none => simpa [kept] using ih.cons entry.1
          | some v => simpa [kept] using ih.cons_cons entry.1
    exact m.distinct.sublist (sub m.entries)⟩

omit [DecidableEq κ] in
theorem mem_filterMap {m : UnorderedMap κ ν} {f : κ → ν → Option μ} {k : κ} {w : μ} :
    (k, w) ∈ (m.filterMap f).entries ↔ ∃ v, (k, v) ∈ m.entries ∧ f k v = some w := by
  simp only [filterMap, List.mem_filterMap, Option.map_eq_some_iff, Prod.exists, Prod.mk.injEq]
  constructor
  · rintro ⟨a, v, entry, b, kept, rfl, rfl⟩
    exact ⟨v, entry, kept⟩
  · rintro ⟨v, entry, kept⟩
    exact ⟨k, v, entry, w, kept, rfl, rfl⟩

theorem find?_filterMap (m : UnorderedMap κ ν) (f : κ → ν → Option μ) (k : κ) :
    (m.filterMap f).find? k = (m.find? k).bind (f k) := by
  ext w
  simp only [find?_eq_some_iff, mem_filterMap, Option.bind_eq_some_iff]

end UnorderedMap
