import Publiq.Sponsoring

/-! The order in which the payer walks through the sponsorships of a unit, as `refresh_index`
leaves it. -/
namespace Publiq.Documents
open Message Checked

theorem indexEntry_some {cusi : ContentUnitSponsoredInformation} {index : ℕ} {entry : ℤ × ℕ}
    (h : indexEntry cusi index = some entry) :
    entry.2 = index ∧ ∃ item, cusi.sponsoredInformations[index]? = some item ∧
      isFinished cusi (lastUsed cusi) item = false := by
  unfold indexEntry at h
  cases hitem : cusi.sponsoredInformations[index]? with
  | none => simp [hitem] at h
  | some item =>
      simp only [hitem] at h
      split_ifs at h with hfinished
      cases h
      exact ⟨rfl, item, rfl, Bool.eq_false_iff.mpr hfinished⟩

theorem indexEntry_congr {a b : ContentUnitSponsoredInformation} {index : ℕ}
    (times : a.timePointsUsed = b.timePointsUsed)
    (item : a.sponsoredInformations[index]? = b.sponsoredInformations[index]?) :
    indexEntry a index = indexEntry b index := by
  unfold indexEntry isFinished lastUsed
  rw [times, item]

theorem map_snd_filterMap (cusi : ContentUnitSponsoredInformation) (index : List ℕ) :
    (index.filterMap (indexEntry cusi)).map Prod.snd =
      index.filter fun i => (indexEntry cusi i).isSome := by
  induction index with
  | nil => rfl
  | cons i rest ih =>
      cases hentry : indexEntry cusi i with
      | none => simp [hentry, ih]
      | some entry => simp [hentry, ih, (indexEntry_some hentry).1]

/-- No sponsorship of the index was used before the times that are kept. -/
def IndexUsed (cusi : ContentUnitSponsoredInformation) : Prop :=
  ∀ index ∈ cusi.indexSi, ∀ item ∈ cusi.sponsoredInformations[index]?,
    item.timePointsUsedBefore ≤ cusi.timePointsUsed.length

section
variable [EntrySort] {cusi after : ContentUnitSponsoredInformation}

def sortedEntries (cusi : ContentUnitSponsoredInformation) (index : List ℕ) : List (ℤ × ℕ) :=
  EntrySort.sort (index.filterMap (indexEntry cusi))

theorem mem_sortedEntries {index : List ℕ} {entry : ℤ × ℕ}
    (h : entry ∈ sortedEntries cusi index) :
    ∃ i ∈ index, indexEntry cusi i = some entry :=
  List.mem_filterMap.mp ((EntrySort.perm _).mem_iff.mp h)

theorem refreshIndex_ok_iff : refreshIndex cusi = .ok after ↔ IndexUsed cusi ∧
    after = { cusi with indexSi := (sortedEntries cusi cusi.indexSi).map Prod.snd } := by
  rw [refreshIndex, require_bind_ok_iff, pure_ok_iff]
  exact and_congr Iff.rfl eq_comm

theorem refreshIndex_perm (h : refreshIndex cusi = .ok after) :
    after.indexSi.Perm (cusi.indexSi.filter fun i => (indexEntry cusi i).isSome) := by
  obtain ⟨_, rfl⟩ := refreshIndex_ok_iff.mp h
  rw [← map_snd_filterMap]
  exact (EntrySort.perm _).map Prod.snd

/-- The index is as `refresh_index` has left it. -/
def Refreshed (cusi : ContentUnitSponsoredInformation) : Prop :=
  ∃ index, refreshIndex { cusi with indexSi := index } = .ok cusi

theorem refreshed_of_refreshIndex (h : refreshIndex cusi = .ok after) : Refreshed after := by
  refine ⟨cusi.indexSi, ?_⟩
  obtain ⟨used, rfl⟩ := refreshIndex_ok_iff.mp h
  exact h

theorem Refreshed.indexed (h : Refreshed cusi) {index : ℕ} (hindex : index ∈ cusi.indexSi) :
    ∃ entry, indexEntry cusi index = some entry := by
  obtain ⟨before, h⟩ := h
  have hmem := (refreshIndex_perm h).mem_iff.mp hindex
  exact Option.isSome_iff_exists.mp (List.mem_filter.mp hmem).2

theorem Refreshed.item (h : Refreshed cusi) {index : ℕ} (hindex : index ∈ cusi.indexSi) :
    ∃ item, cusi.sponsoredInformations[index]? = some item ∧
      isFinished cusi (lastUsed cusi) item = false := by
  obtain ⟨entry, hentry⟩ := h.indexed hindex
  exact (indexEntry_some hentry).2

theorem Refreshed.lt (h : Refreshed cusi) {index : ℕ} (hindex : index ∈ cusi.indexSi) :
    index < cusi.sponsoredInformations.length := by
  obtain ⟨item, hitem, _⟩ := h.item hindex
  exact (List.getElem?_eq_some_iff.mp hitem).1

theorem Refreshed.pairwise_entries (h : Refreshed cusi) :
    cusi.indexSi.Pairwise fun i j => ∀ a b, indexEntry cusi i = some a →
      indexEntry cusi j = some b → a.1 ≤ b.1 := by
  obtain ⟨before, h⟩ := h
  obtain ⟨_, hafter⟩ := refreshIndex_ok_iff.mp h
  have hindex : cusi.indexSi = (sortedEntries cusi before).map Prod.snd :=
    congrArg ContentUnitSponsoredInformation.indexSi hafter
  rw [hindex, List.pairwise_map]
  refine (EntrySort.sorted _).imp_of_mem fun {a b} ha hb hab first second hfirst hsecond => ?_
  obtain ⟨i, _, hi⟩ := mem_sortedEntries ha
  obtain ⟨j, _, hj⟩ := mem_sortedEntries hb
  rw [(indexEntry_some hi).1, hi] at hfirst
  rw [(indexEntry_some hj).1, hj] at hsecond
  cases hfirst
  cases hsecond
  exact hab

end

/-! Where equal delays follow their index, the order is that of the entries alone, and sorting it
again changes nothing. -/

instance : Std.Antisymm (fun a b : ℤ × ℕ => indexOrder a b = true) where
  antisymm a b hab hba := by
    simp only [indexOrder_iff] at *
    apply Prod.ext
    · omega
    · omega

theorem sortedEntries_perm (cusi : ContentUnitSponsoredInformation) {index other : List ℕ}
    (h : index.Perm other) : sortedEntries cusi index = sortedEntries cusi other := by
  apply List.Perm.eq_of_pairwise' (r := fun a b => indexOrder a b = true)
  · exact List.pairwise_insertionSort _ _
  · exact List.pairwise_insertionSort _ _
  · exact (List.perm_insertionSort _ _).trans
      ((h.filterMap _).trans (List.perm_insertionSort _ _).symm)

/-- An index with the same entries in any order is refreshed to the same. -/
theorem Refreshed.of_perm {cusi : ContentUnitSponsoredInformation} (h : Refreshed cusi)
    {index : List ℕ} (perm : (index.filter fun i => (indexEntry cusi i).isSome).Perm cusi.indexSi) :
    refreshIndex { cusi with indexSi := index } = .ok cusi := by
  obtain ⟨before, h⟩ := h
  have kept (i : List ℕ) : sortedEntries cusi (i.filter fun j => (indexEntry cusi j).isSome) =
      sortedEntries cusi i := by
    rw [sortedEntries, sortedEntries, List.filterMap_filter]
    congr 2
    funext j
    cases indexEntry cusi j <;> rfl
  have hperm : (before.filter fun i => (indexEntry cusi i).isSome).Perm cusi.indexSi :=
    (refreshIndex_perm h).symm
  have same : sortedEntries cusi index = sortedEntries cusi before := by
    rw [← kept index, ← kept before, sortedEntries_perm cusi (perm.trans hperm.symm)]
  obtain ⟨used, hafter⟩ := refreshIndex_ok_iff.mp h
  rw [refreshIndex_ok_iff]
  constructor
  · intro i hi item hitem
    by_cases hentry : (indexEntry cusi i).isSome = true
    · have hindex := perm.mem_iff.mp (List.mem_filter.mpr ⟨hi, hentry⟩)
      exact used i (List.mem_of_mem_filter (hperm.mem_iff.mpr hindex)) item hitem
    · have hfinished : isFinished cusi (lastUsed cusi) item = true := by
        by_contra hnot
        rw [indexEntry, Option.mem_def.mp hitem] at hentry
        simp [hnot] at hentry
      rw [isFinished, Bool.and_eq_true, decide_eq_true_iff, decide_eq_true_iff] at hfinished
      exact hfinished.2.le
  · change cusi = { cusi with indexSi := (sortedEntries cusi index).map Prod.snd }
    rw [same]
    exact hafter

end Publiq.Documents
