import Publiq.Foundation.Grouping
import Publiq.Statistics
import Mathlib.Algebra.Order.BigOperators.Group.List

/-! The groups of `validate_statistics` in closed form. Row by row, each of its tables becomes
the table of the rows themselves, grouped by the same keys. -/
namespace Publiq
open Message Checked

def sumCounts (rows : List StatisticsRow) : UInt64 := (rows.map StatisticsRow.count).sum

theorem sumCounts_append (rows : List StatisticsRow) (row : StatisticsRow) :
    sumCounts (rows ++ [row]) = sumCounts rows + row.count := by
  rw [sumCounts, List.map_append, List.sum_append, List.map_singleton, List.sum_singleton]
  rfl

def ownerOf (docs : Documents) (row : StatisticsRow) : String :=
  (docs.units[row.unitUri]?.map ContentUnit.channelAddress).getD ""

def contentOf (docs : Documents) (row : StatisticsRow) : ℕ :=
  (docs.units[row.unitUri]?.map fun unit => unit.contentId.toNat).getD 0

def fileViews : List StatisticsRow → Tally := tabulate StatisticsRow.fileUri sumCounts

def unitViews : List StatisticsRow → Std.ExtTreeMap String Tally :=
  tabulate StatisticsRow.unitUri fileViews

def ownerViews (docs : Documents) : List StatisticsRow → OwnerViews :=
  tabulate (contentOf docs) unitViews

def groupsOf (docs : Documents) (rows : List StatisticsRow) : ViewGroups where
  storageGroup := tabulate StatisticsRow.peer sumCounts rows
  authorGroup := unitViews rows
  contentGroup := tabulate StatisticsRow.server (tabulate (ownerOf docs) (ownerViews docs)) rows

theorem tabulate_bump (key : StatisticsRow → String) (rows : List StatisticsRow)
    (row : StatisticsRow) : Tally.bump (key row) row.count (tabulate key sumCounts rows) =
      tabulate key sumCounts (rows ++ [row]) := by
  have hread := tabulate_getD key sumCounts rows (key row)
  rw [show sumCounts [] = 0 from rfl] at hread
  rw [tabulate_append, sumCounts_append, Tally.bump, hread]

theorem unitViews_bump (rows : List StatisticsRow) (row : StatisticsRow) :
    (unitViews rows).insert row.unitUri
      (Tally.bump row.fileUri row.count ((unitViews rows).getD row.unitUri ∅)) =
        unitViews (rows ++ [row]) := by
  have hread := tabulate_getD StatisticsRow.unitUri fileViews rows row.unitUri
  rw [show fileViews [] = ∅ from tabulate_nil _ _] at hread
  rw [unitViews, tabulate_append, hread]
  congr 1
  exact tabulate_bump _ _ _

theorem ownerViews_bump (docs : Documents) (rows : List StatisticsRow) (row : StatisticsRow) :
    let byUnit := (ownerViews docs rows).getD (contentOf docs row) ∅
    (ownerViews docs rows).insert (contentOf docs row) (byUnit.insert row.unitUri
      (Tally.bump row.fileUri row.count (byUnit.getD row.unitUri ∅))) =
        ownerViews docs (rows ++ [row]) := by
  have hread := tabulate_getD (contentOf docs) unitViews rows (contentOf docs row)
  rw [show unitViews [] = ∅ from tabulate_nil _ _] at hread
  rw [ownerViews, tabulate_append]
  intro byUnit
  rw [show byUnit = _ from hread, unitViews_bump]

/-- A row is counted where its keys say. -/
theorem count_groupsOf {docs : Documents} {row : StatisticsRow} {unit : ContentUnit}
    (known : docs.units[row.unitUri]? = some unit) (rows : List StatisticsRow) :
    (groupsOf docs rows).count docs row = .ok (groupsOf docs (rows ++ [row])) := by
  have hunit : docs.getUnit row.unitUri = .ok unit := by
    rw [Documents.getUnit, known]
  have howner : unit.channelAddress = ownerOf docs row := by
    rw [ownerOf, known]
    rfl
  have hcontent : unit.contentId.toNat = contentOf docs row := by
    rw [contentOf, known]
    rfl
  have hserver := tabulate_getD StatisticsRow.server (tabulate (ownerOf docs) (ownerViews docs))
    rows row.server
  rw [tabulate_nil] at hserver
  have hbyOwner := tabulate_getD (ownerOf docs) (ownerViews docs)
    (rowsOf StatisticsRow.server rows row.server) (ownerOf docs row)
  rw [show ownerViews docs [] = ∅ from tabulate_nil _ _] at hbyOwner
  rw [ViewGroups.count, hunit, ok_bind, howner, hcontent]
  simp only [groupsOf, hserver, hbyOwner, ownerViews_bump, unitViews_bump,
    tabulate_bump StatisticsRow.peer]
  rw [tabulate_append StatisticsRow.server, tabulate_append (ownerOf docs)]
  rfl

theorem foldlM_count {docs : Documents} {rows : List StatisticsRow}
    (known : ∀ row ∈ rows, ∃ unit, docs.units[row.unitUri]? = some unit) :
    rows.foldlM (ViewGroups.count docs) ⟨∅, ∅, ∅⟩ = .ok (groupsOf docs rows) := by
  induction rows using List.reverseRecOn with
  | nil =>
      simp only [groupsOf, unitViews, tabulate_nil]
      rfl
  | append_singleton rows row ih =>
      obtain ⟨unit, hunit⟩ := known row (by simp)
      rw [List.foldlM_append, ih fun other hother => known other (by simp [hother]), ok_bind,
        List.foldlM_cons, count_groupsOf hunit]
      rfl

abbrev wordLimit : ℕ := 2 ^ 64

theorem toNat_sum (words : List UInt64) :
    words.sum.toNat = (words.map UInt64.toNat).sum % wordLimit := by
  induction words with
  | nil => rfl
  | cons word rest ih =>
      rw [List.sum_cons, List.map_cons, List.sum_cons, UInt64.toNat_add, ih]
      exact Nat.add_mod_mod _ _ _

def viewsIn (rows : List StatisticsRow) : ℕ := (rows.map fun row => row.count.toNat).sum

theorem sumCounts_toNat {rows : List StatisticsRow} (fits : viewsIn rows < wordLimit) :
    (sumCounts rows).toNat = viewsIn rows := by
  rw [sumCounts, toNat_sum, List.map_map]
  exact Nat.mod_eq_of_lt fits

theorem viewsIn_keysOf {κ : Type*} [Ord κ] [Std.TransOrd κ] [Std.LawfulEqOrd κ] [DecidableEq κ]
    (key : StatisticsRow → κ) (rows : List StatisticsRow) :
    ((keysOf key rows).map fun k => viewsIn (rowsOf key rows k)).sum = viewsIn rows :=
  sum_keysOf key (fun row => row.count.toNat) rows

theorem sumCounts_keysOf (key : StatisticsRow → String) (rows : List StatisticsRow) :
    ((keysOf key rows).map fun k => sumCounts (rowsOf key rows k)).sum = sumCounts rows :=
  sum_keysOf key StatisticsRow.count rows

theorem viewsIn_rowsOf_le {κ : Type*} [DecidableEq κ] (key : StatisticsRow → κ)
    (rows : List StatisticsRow) (k : κ) : viewsIn (rowsOf key rows k) ≤ viewsIn rows :=
  ((List.filter_sublist).map _).sum_le_sum fun _ _ => Nat.zero_le _

def Counted (rows : List StatisticsRow) : Prop := ∀ row ∈ rows, row.count ≠ 0

theorem Counted.rowsOf {κ : Type*} [DecidableEq κ] {rows : List StatisticsRow}
    (counted : Counted rows) (key : StatisticsRow → κ) (k : κ) : Counted (rowsOf key rows k) :=
  fun row hrow => counted row (mem_rowsOf.mp hrow).1

theorem Counted.length_le {rows : List StatisticsRow} (counted : Counted rows) :
    rows.length ≤ viewsIn rows := by
  induction rows with
  | nil => exact Nat.zero_le _
  | cons row rest ih =>
      rw [Counted, List.forall_mem_cons] at counted
      have hrow : 0 < row.count.toNat := Coin.toNat_pos counted.1
      have hrest := ih counted.2
      rw [viewsIn, List.map_cons, List.sum_cons, List.length_cons]
      rw [viewsIn] at hrest
      omega

theorem Counted.views_pos {rows : List StatisticsRow} (counted : Counted rows)
    (some_row : rows ≠ []) : 0 < viewsIn rows :=
  (List.length_pos_iff.mpr some_row).trans_le counted.length_le

theorem keysOf_length_le {κ : Type*} [Ord κ] [Std.TransOrd κ] [Std.LawfulEqOrd κ]
    [DecidableEq κ] (key : StatisticsRow → κ) (rows : List StatisticsRow) :
    (keysOf key rows).length ≤ rows.length := by
  have hsub : (keysOf key rows).Subperm (rows.map key) :=
    List.subperm_of_subset (keysOf_nodup key rows) fun k hk => by
      obtain ⟨row, hrow, rfl⟩ := mem_keysOf.mp hk
      exact List.mem_map_of_mem hrow
  exact hsub.length_le.trans_eq (List.length_map _)

end Publiq
