import Publiq.RewardSums
import Publiq.StatisticsGroups
import Mathlib.Algebra.BigOperators.Ring.Finset
import Mathlib.Tactic.FieldSimp

/-! What the shares of a block add up to. The counts come in three groupings, and each is
scaled by the total of its own grouping, so the shares of each add up to one as long as
every number on the way fits into a word. -/
namespace Publiq
open Message Checked

/-- The blocks that `counts_per_channel_views` counts from the running sum. -/
def countsFromSum (blockNumber : ℕ) (isTestnet : Bool) : Bool :=
  !isTestnet && blockNumber ∈ [30335, 30438, 30346, 30460, 30463, 30478]

def mostViewed (special : Bool) (count : ℕ) (views : List ℕ) : ℕ :=
  views.foldl (fun most views => if special then max count views else max most views) 0

/-- `counts_per_channel_views` over the views of every content, without a limit. -/
def shownViews (special : Bool) (contents : List (List ℕ)) (count : ℕ) : ℕ :=
  contents.foldl (fun count views => count + mostViewed special count views) count

theorem le_shownViews (special : Bool) (contents : List (List ℕ)) (count : ℕ) :
    count ≤ shownViews special contents count := by
  induction contents generalizing count with
  | nil => exact le_rfl
  | cons views rest ih => exact (Nat.le_add_right _ _).trans (ih _)

theorem mostViewed_pos {special : Bool} {count : ℕ} {views : List ℕ} (some_file : views ≠ [])
    (viewed : ∀ v ∈ views, 0 < v) : 0 < mostViewed special count views := by
  induction views using List.reverseRecOn with
  | nil => exact absurd rfl some_file
  | append_singleton others last _ =>
      have hlast := viewed last (by simp)
      rw [mostViewed, List.foldl_append, List.foldl_cons, List.foldl_nil]
      split_ifs
      · exact lt_max_of_lt_right hlast
      · exact lt_max_of_lt_right hlast

theorem shownViews_pos {special : Bool} {contents : List (List ℕ)} (some_content : contents ≠ [])
    (viewed : ∀ views ∈ contents, views ≠ [] ∧ ∀ v ∈ views, 0 < v) :
    0 < shownViews special contents 0 := by
  cases contents with
  | nil => exact absurd rfl some_content
  | cons views rest =>
      have hviews := viewed views List.mem_cons_self
      have hmost : 0 < mostViewed special 0 views := mostViewed_pos hviews.1 hviews.2
      exact (hmost.trans_le (Nat.le_add_left _ _)).trans_le (le_shownViews special rest _)

theorem toNat_max (a b : UInt64) : (max a b).toNat = max a.toNat b.toNat := by
  change (if a ≤ b then b else a).toNat = _
  rw [max_def]
  by_cases h : a ≤ b
  · rw [if_pos h, if_pos (UInt64.le_iff_toNat_le.mp h)]
  · rw [if_neg h, if_neg fun hle => h (UInt64.le_iff_toNat_le.mpr hle)]

theorem mostViewed_toNat (special : Bool) (count : UInt64) (views : List UInt64) :
    (views.foldl (fun most views => if special then max count views else max most views) 0).toNat =
      mostViewed special count.toNat (views.map UInt64.toNat) := by
  induction views using List.reverseRecOn with
  | nil => rfl
  | append_singleton others last ih =>
      rw [mostViewed] at ih ⊢
      rw [List.map_append, List.foldl_append, List.foldl_append, ← ih]
      cases special with
      | false => exact toNat_max _ _
      | true => exact toNat_max _ _

theorem shownViews_toNat (special : Bool) (contents : List (List UInt64)) (count : UInt64)
    (fits : shownViews special (contents.map (List.map UInt64.toNat)) count.toNat < wordLimit) :
    (contents.foldl (fun count views => count +
      views.foldl (fun most views => if special then max count views else max most views) 0)
        count).toNat = shownViews special (contents.map (List.map UInt64.toNat)) count.toNat := by
  induction contents generalizing count with
  | nil => rfl
  | cons views rest ih =>
      rw [List.foldl_cons]
      have hnext : shownViews special ((views :: rest).map (List.map UInt64.toNat)) count.toNat =
          shownViews special (rest.map (List.map UInt64.toNat))
            (count.toNat + mostViewed special count.toNat (views.map UInt64.toNat)) := rfl
      rw [hnext, ← mostViewed_toNat] at fits ⊢
      have hsum := (le_shownViews special _ _).trans_lt fits
      rw [← Nat.mod_eq_of_lt hsum, ← UInt64.toNat_add] at fits ⊢
      exact ih _ fits

def leafViews (rows : List StatisticsRow) : List ℕ :=
  (keysOf StatisticsRow.unitUri rows).flatMap fun unitUri =>
    let rows := rowsOf StatisticsRow.unitUri rows unitUri
    (keysOf StatisticsRow.fileUri rows).map fun fileUri =>
      viewsIn (rowsOf StatisticsRow.fileUri rows fileUri)

def contentViews (docs : Documents) (rows : List StatisticsRow) : List (List ℕ) :=
  (keysOf (contentOf docs) rows).map fun content =>
    leafViews (rowsOf (contentOf docs) rows content)

theorem unitViews_counts {rows : List StatisticsRow} (exact : viewsIn rows < wordLimit) :
    ((unitViews rows).toList.flatMap fun byUnit => byUnit.2.toList.map Prod.snd).map
      UInt64.toNat = leafViews rows := by
  rw [unitViews, tabulate_toList, List.flatMap_map, List.map_flatMap, leafViews]
  congr 1
  funext unitUri
  rw [fileViews, tabulate_toList, List.map_map, List.map_map]
  refine List.map_congr_left fun fileUri _ => sumCounts_toNat ?_
  exact ((viewsIn_rowsOf_le _ _ _).trans (viewsIn_rowsOf_le _ _ _)).trans_lt exact

theorem countsPerChannelViews_toNat {docs : Documents} {rows : List StatisticsRow}
    {blockNumber : ℕ} {isTestnet : Bool} (exact : viewsIn rows < wordLimit)
    (fits : shownViews (countsFromSum blockNumber isTestnet) (contentViews docs rows) 0 < wordLimit) :
    (countsPerChannelViews (ownerViews docs rows) blockNumber isTestnet).toNat =
      shownViews (countsFromSum blockNumber isTestnet) (contentViews docs rows) 0 := by
  have hviews : (((ownerViews docs rows).toList.map fun byContent =>
      byContent.2.toList.flatMap fun byUnit => byUnit.2.toList.map Prod.snd).map
        (List.map UInt64.toNat)) = contentViews docs rows := by
    rw [ownerViews, tabulate_toList, List.map_map, List.map_map, contentViews]
    refine List.map_congr_left fun content _ => unitViews_counts ?_
    exact (viewsIn_rowsOf_le _ _ _).trans_lt exact
  rw [← hviews] at fits ⊢
  have hcount := shownViews_toNat _ _ 0 fits
  rw [List.foldl_map] at hcount
  exact hcount

theorem leafViews_pos {rows : List StatisticsRow} (counted : Counted rows) (some_row : rows ≠ []) :
    leafViews rows ≠ [] ∧ ∀ v ∈ leafViews rows, 0 < v := by
  constructor
  · obtain ⟨row, hrow⟩ := List.exists_mem_of_ne_nil rows some_row
    refine List.ne_nil_of_mem (List.mem_flatMap.mpr ⟨row.unitUri, mem_keysOf.mpr ⟨row, hrow, rfl⟩,
      List.mem_map.mpr ⟨row.fileUri, mem_keysOf.mpr ⟨row, ?_, rfl⟩, rfl⟩⟩)
    exact mem_rowsOf.mpr ⟨hrow, rfl⟩
  · intro v hv
    obtain ⟨unitUri, _, hv⟩ := List.mem_flatMap.mp hv
    obtain ⟨fileUri, hfile, rfl⟩ := List.mem_map.mp hv
    refine ((counted.rowsOf _ _).rowsOf _ _).views_pos ?_
    rwa [Ne, rowsOf_eq_nil, not_not]

theorem contentViews_pos {docs : Documents} {rows : List StatisticsRow} {special : Bool}
    (counted : Counted rows) (some_row : rows ≠ []) :
    0 < shownViews special (contentViews docs rows) 0 := by
  refine shownViews_pos ?_ fun views hviews => ?_
  · obtain ⟨row, hrow⟩ := List.exists_mem_of_ne_nil rows some_row
    exact List.ne_nil_of_mem (List.mem_map.mpr
      ⟨contentOf docs row, mem_keysOf.mpr ⟨row, hrow, rfl⟩, rfl⟩)
  · obtain ⟨content, hcontent, rfl⟩ := List.mem_map.mp hviews
    refine leafViews_pos (counted.rowsOf _ _) ?_
    rwa [Ne, rowsOf_eq_nil, not_not]

def pairRows (docs : Documents) (rows : List StatisticsRow) :
    List (String × String × List StatisticsRow) :=
  (keysOf StatisticsRow.server rows).flatMap fun server =>
    let rows := rowsOf StatisticsRow.server rows server
    (keysOf (ownerOf docs) rows).map fun owner => (server, owner, rowsOf (ownerOf docs) rows owner)

theorem groupsOf_pairs (docs : Documents) (rows : List StatisticsRow) :
    (groupsOf docs rows).pairs = (pairRows docs rows).map fun pair =>
      (pair.1, pair.2.1, ownerViews docs pair.2.2) := by
  rw [ViewGroups.pairs, groupsOf, tabulate_toList, List.flatMap_map, pairRows, List.map_flatMap]
  congr 1
  funext server
  change (tabulate (ownerOf docs) (ownerViews docs) _).toList.map _ = _
  rw [tabulate_toList, List.map_map, List.map_map]
  rfl

theorem mem_pairRows {docs : Documents} {rows : List StatisticsRow}
    {pair : String × String × List StatisticsRow} (h : pair ∈ pairRows docs rows) :
    pair.2.2.Sublist rows ∧ pair.2.2 ≠ [] := by
  obtain ⟨server, _, h⟩ := List.mem_flatMap.mp h
  obtain ⟨owner, howner, rfl⟩ := List.mem_map.mp h
  refine ⟨List.filter_sublist.trans List.filter_sublist, ?_⟩
  rwa [Ne, rowsOf_eq_nil, not_not]

def shownTotal (docs : Documents) (special : Bool) (rows : List StatisticsRow) : ℕ :=
  ((pairRows docs rows).map fun pair => shownViews special (contentViews docs pair.2.2) 0).sum

def authorsOf (docs : Documents) (fileUri : String) : List String :=
  (docs.files[fileUri]?.map File.authorAddresses).getD []

def filesOf (rows : List StatisticsRow) : List String := keysOf StatisticsRow.fileUri rows

def usageOf (rows : List StatisticsRow) : ℕ := viewsIn rows / (filesOf rows).length

def usageTotal (rows : List StatisticsRow) : ℕ :=
  ((keysOf StatisticsRow.unitUri rows).map fun unitUri =>
    usageOf (rowsOf StatisticsRow.unitUri rows unitUri)).sum

/-- The shares of the authors of one unit, before they are scaled. -/
def unitShares (docs : Documents) (rows : List StatisticsRow) : List Share :=
  (filesOf rows).flatMap fun fileUri => (authorsOf docs fileUri).map fun author =>
    ⟨author, UInt64.ofNat (usageOf rows),
      UInt64.ofNat (filesOf rows).length * UInt64.ofNat (authorsOf docs fileUri).length⟩

theorem filesOf_length {rows : List StatisticsRow} (counted : Counted rows) (some_row : rows ≠ []) :
    0 < (filesOf rows).length ∧ (filesOf rows).length ≤ viewsIn rows := by
  refine ⟨?_, (keysOf_length_le _ _).trans counted.length_le⟩
  obtain ⟨row, hrow⟩ := List.exists_mem_of_ne_nil rows some_row
  exact List.length_pos_of_mem (mem_keysOf.mpr ⟨row, hrow, rfl⟩)

theorem usageOf_pos {rows : List StatisticsRow} (counted : Counted rows) (some_row : rows ≠ []) :
    0 < usageOf rows :=
  have hlength := filesOf_length counted some_row
  Nat.div_pos hlength.2 hlength.1

theorem usageTotal_le (rows : List StatisticsRow) : usageTotal rows ≤ viewsIn rows := by
  rw [← viewsIn_keysOf StatisticsRow.unitUri rows]
  exact List.sum_le_sum fun unitUri _ => Nat.div_le_self _ _

theorem ofNat_ne_zero {n : ℕ} (positive : 0 < n) (fits : n < wordLimit) : UInt64.ofNat n ≠ 0 := by
  intro h
  have hnat := congrArg UInt64.toNat h
  rw [UInt64.toNat_ofNat_of_lt' fits] at hnat
  exact positive.ne' hnat

/-- The authors of a unit share its average views. -/
theorem unitAuthorShares_eq {docs : Documents} {rows : List StatisticsRow}
    (exact : viewsIn rows < wordLimit) (counted : Counted rows) (some_row : rows ≠ [])
    (known : ∀ row ∈ rows, ∃ file, docs.files[row.fileUri]? = some file) :
    unitAuthorShares docs (fileViews rows) =
      .ok (UInt64.ofNat (usageOf rows), unitShares docs rows) := by
  have hlength := filesOf_length counted some_row
  have husage : usageOf rows < wordLimit := (Nat.div_le_self _ _).trans_lt exact
  have hfiles : (fileViews rows).toList = (filesOf rows).map fun fileUri =>
      (fileUri, sumCounts (rowsOf StatisticsRow.fileUri rows fileUri)) := tabulate_toList _ _ _
  have htotal : (((fileViews rows).toList.map Prod.snd).sum /
      UInt64.ofNat (fileViews rows).toList.length) = UInt64.ofNat (usageOf rows) := by
    apply UInt64.toNat_inj.mp
    rw [hfiles, List.map_map, List.length_map, UInt64.toNat_div,
      UInt64.toNat_ofNat_of_lt' husage, UInt64.toNat_ofNat_of_lt' (hlength.2.trans_lt exact)]
    have hsum := sumCounts_keysOf StatisticsRow.fileUri rows
    rw [usageOf, ← sumCounts_toNat exact, ← hsum]
    rfl
  have hcount : UInt64.ofNat (fileViews rows).toList.length ≠ 0 := by
    rw [hfiles, List.length_map]
    exact ofNat_ne_zero hlength.1 (hlength.2.trans_lt exact)
  have hshares : (fileViews rows).toList.mapM (fun entry : String × UInt64 => do
      let file ← docs.getFile entry.1
      pure (file.authorAddresses.map fun author => (⟨author, UInt64.ofNat (usageOf rows),
        UInt64.ofNat (fileViews rows).toList.length *
          UInt64.ofNat file.authorAddresses.length⟩ : Share))) =
      (.ok ((fileViews rows).toList.map fun entry => (authorsOf docs entry.1).map fun author =>
        ⟨author, UInt64.ofNat (usageOf rows), UInt64.ofNat (fileViews rows).toList.length *
          UInt64.ofNat (authorsOf docs entry.1).length⟩) : Checked _) := by
    refine mapM_of_ok fun entry hentry => ?_
    rw [hfiles] at hentry
    obtain ⟨fileUri, hfile, rfl⟩ := List.mem_map.mp hentry
    obtain ⟨row, hrow, rfl⟩ := mem_keysOf.mp hfile
    obtain ⟨file, hknown⟩ := known row hrow
    rw [Documents.getFile, authorsOf, hknown]
    rfl
  unfold unitAuthorShares
  simp only [htotal]
  rw [require_true hcount, ok_bind, require_true (ofNat_ne_zero (usageOf_pos counted some_row) husage),
    ok_bind]
  refine (congrArg (fun shares => shares >>= _) hshares).trans ?_
  rw [ok_bind, hfiles, List.map_map, List.length_map, ← List.flatMap_def]
  rfl

def sumParts (shares : List Share) : ℚ := (shares.map Share.part).sum

theorem sumParts_append (first second : List Share) :
    sumParts (first ++ second) = sumParts first + sumParts second := by
  rw [sumParts, List.map_append, List.sum_append]
  rfl

theorem sumParts_flatMap {α : Type*} (f : α → List Share) (elements : List α) :
    sumParts (elements.flatMap f) = (elements.map fun a => sumParts (f a)).sum := by
  induction elements with
  | nil => rfl
  | cons a rest ih => rw [List.flatMap_cons, sumParts_append, ih, List.map_cons, List.sum_cons]

theorem scaleShares_flatMap {α : Type*} (factor : UInt64) (f : α → List Share) (elements : List α) :
    scaleShares factor (elements.flatMap f) = elements.flatMap fun a => scaleShares factor (f a) :=
  List.map_flatMap

theorem sumParts_equal {α : Type*} (address : α → String) (numerator denominator : UInt64)
    (elements : List α) : sumParts (elements.map fun a => ⟨address a, numerator, denominator⟩) =
      elements.length * ((numerator.toNat : ℚ) / denominator.toNat) := by
  rw [sumParts, List.map_map]
  have hconst : (Share.part ∘ fun a => ⟨address a, numerator, denominator⟩) =
      fun _ : α => (numerator.toNat : ℚ) / denominator.toNat := rfl
  rw [hconst, List.map_const', List.sum_replicate, nsmul_eq_mul]

theorem sum_parts_of_total {α : Type*} (amount : α → ℕ) (elements : List α)
    (positive : 0 < (elements.map amount).sum) :
    (elements.map fun a => (amount a : ℚ) / ((elements.map amount).sum : ℕ)).sum = 1 := by
  have htotal : (((elements.map amount).sum : ℕ) : ℚ) ≠ 0 := Nat.cast_ne_zero.mpr positive.ne'
  have hsum : ∀ total : ℚ, (elements.map fun a => (amount a : ℚ) / total).sum =
      (((elements.map amount).sum : ℕ) : ℚ) / total := by
    intro total
    simp only [div_eq_mul_inv]
    rw [List.sum_map_mul_right, Nat.cast_list_sum, List.map_map]
    rfl
  rw [hsum, div_self htotal]

def AuthorsFit (docs : Documents) (rows : List StatisticsRow) (total : ℕ) : Prop :=
  ∀ fileUri ∈ filesOf rows,
    (filesOf rows).length * (authorsOf docs fileUri).length * total < wordLimit

theorem denominator_toNat {a b c : ℕ} (fits : a * b * c < wordLimit) :
    (UInt64.ofNat a * UInt64.ofNat b * UInt64.ofNat c).toNat = a * b * c := by
  rw [← UInt64.ofNat_mul, ← UInt64.ofNat_mul]
  exact UInt64.toNat_ofNat_of_lt' fits

theorem sumParts_unitShares {docs : Documents} {rows : List StatisticsRow} {total : ℕ}
    (exact : viewsIn rows < wordLimit) (counted : Counted rows) (some_row : rows ≠ [])
    (authored : ∀ fileUri ∈ filesOf rows, authorsOf docs fileUri ≠ [])
    (fit : AuthorsFit docs rows total) :
    sumParts (scaleShares (UInt64.ofNat total) (unitShares docs rows)) =
      (usageOf rows : ℚ) / total := by
  have hlength := filesOf_length counted some_row
  have husage : (UInt64.ofNat (usageOf rows)).toNat = usageOf rows :=
    UInt64.toNat_ofNat_of_lt' ((Nat.div_le_self _ _).trans_lt exact)
  rw [unitShares, scaleShares_flatMap, sumParts_flatMap]
  have hfile : ∀ fileUri ∈ filesOf rows, sumParts (scaleShares (UInt64.ofNat total)
      ((authorsOf docs fileUri).map fun author => ⟨author, UInt64.ofNat (usageOf rows),
        UInt64.ofNat (filesOf rows).length *
          UInt64.ofNat (authorsOf docs fileUri).length⟩)) =
      (usageOf rows : ℚ) / total / (filesOf rows).length := by
    intro fileUri hfileUri
    have hauthors : ((authorsOf docs fileUri).length : ℚ) ≠ 0 :=
      Nat.cast_ne_zero.mpr fun hnone => authored fileUri hfileUri (List.length_eq_zero_iff.mp hnone)
    rw [scaleShares, List.map_map]
    refine (sumParts_equal id (UInt64.ofNat (usageOf rows)) (UInt64.ofNat (filesOf rows).length *
      UInt64.ofNat (authorsOf docs fileUri).length * UInt64.ofNat total) _).trans ?_
    rw [husage, denominator_toNat (fit fileUri hfileUri)]
    push_cast
    field_simp
  rw [List.map_congr_left hfile, List.map_const', List.sum_replicate, nsmul_eq_mul]
  have hfiles : ((filesOf rows).length : ℚ) ≠ 0 := Nat.cast_ne_zero.mpr hlength.1.ne'
  field_simp

theorem sum_ofNat (numbers : List ℕ) : (numbers.map UInt64.ofNat).sum = UInt64.ofNat numbers.sum := by
  induction numbers with
  | nil => rfl
  | cons n rest ih => rw [List.map_cons, List.sum_cons, ih, List.sum_cons, UInt64.ofNat_add]

def storageShares (rows : List StatisticsRow) : List Share :=
  scaleShares (sumCounts rows) ((keysOf StatisticsRow.peer rows).map fun storage =>
    ⟨storage, sumCounts (rowsOf StatisticsRow.peer rows storage), 1⟩)

def authorShares (docs : Documents) (rows : List StatisticsRow) : List Share :=
  scaleShares (UInt64.ofNat (usageTotal rows)) ((keysOf StatisticsRow.unitUri rows).flatMap
    fun unitUri => unitShares docs (rowsOf StatisticsRow.unitUri rows unitUri))

def pairCounts (docs : Documents) (blockNumber : ℕ) (isTestnet : Bool)
    (rows : List StatisticsRow) : List (String × String × UInt64) :=
  (pairRows docs rows).map fun pair => (pair.1, pair.2.1,
    countsPerChannelViews (ownerViews docs pair.2.2) blockNumber isTestnet)

def allChannelShares (counted : List (String × String × UInt64)) : List Share :=
  scaleShares (counted.map fun pair => pair.2.2).sum
    (counted.flatMap fun pair => channelShares pair.1 pair.2.1 pair.2.2)

theorem sumParts_storageShares {rows : List StatisticsRow} (exact : viewsIn rows < wordLimit)
    (counted : Counted rows) (some_row : rows ≠ []) : sumParts (storageShares rows) = 1 := by
  have hparts : (storageShares rows).map Share.part = (keysOf StatisticsRow.peer rows).map
      fun storage => (viewsIn (rowsOf StatisticsRow.peer rows storage) : ℚ) / (((keysOf
        StatisticsRow.peer rows).map fun k => viewsIn (rowsOf StatisticsRow.peer rows k)).sum : ℕ) := by
    rw [storageShares, scaleShares, List.map_map, List.map_map]
    refine List.map_congr_left fun storage _ => ?_
    change ((sumCounts (rowsOf StatisticsRow.peer rows storage)).toNat : ℚ) /
      (1 * sumCounts rows).toNat = _
    rw [one_mul, sumCounts_toNat exact, viewsIn_keysOf,
      sumCounts_toNat ((viewsIn_rowsOf_le _ _ _).trans_lt exact)]
  rw [sumParts, hparts]
  apply sum_parts_of_total
  rw [viewsIn_keysOf]
  exact counted.views_pos some_row

theorem filesOf_rowsOf {rows : List StatisticsRow} {unitUri fileUri : String}
    (h : fileUri ∈ filesOf (rowsOf StatisticsRow.unitUri rows unitUri)) :
    ∃ row ∈ rows, row.fileUri = fileUri := by
  obtain ⟨row, hrow, hfile⟩ := mem_keysOf.mp h
  exact ⟨row, (mem_rowsOf.mp hrow).1, hfile⟩

theorem usageTotal_pos {rows : List StatisticsRow} (counted : Counted rows)
    (some_row : rows ≠ []) : 0 < usageTotal rows := by
  obtain ⟨row, hrow⟩ := List.exists_mem_of_ne_nil rows some_row
  have hunit : rowsOf StatisticsRow.unitUri rows row.unitUri ≠ [] :=
    List.ne_nil_of_mem (mem_rowsOf.mpr ⟨hrow, rfl⟩)
  refine (usageOf_pos (counted.rowsOf _ _) hunit).trans_le ?_
  exact List.single_le_sum (fun _ _ => Nat.zero_le _) _
    (List.mem_map.mpr ⟨row.unitUri, mem_keysOf.mpr ⟨row, hrow, rfl⟩, rfl⟩)

theorem sumParts_authorShares {docs : Documents} {rows : List StatisticsRow}
    (exact : viewsIn rows < wordLimit) (counted : Counted rows) (some_row : rows ≠ [])
    (authored : ∀ row ∈ rows, authorsOf docs row.fileUri ≠ [])
    (fit : ∀ unitUri, AuthorsFit docs (rowsOf StatisticsRow.unitUri rows unitUri)
      (usageTotal rows)) : sumParts (authorShares docs rows) = 1 := by
  have hunit : ∀ unitUri ∈ keysOf StatisticsRow.unitUri rows,
      sumParts (scaleShares (UInt64.ofNat (usageTotal rows))
        (unitShares docs (rowsOf StatisticsRow.unitUri rows unitUri))) =
      (usageOf (rowsOf StatisticsRow.unitUri rows unitUri) : ℚ) / (((keysOf StatisticsRow.unitUri
        rows).map fun unitUri => usageOf (rowsOf StatisticsRow.unitUri rows unitUri)).sum : ℕ) := by
    intro unitUri hunitUri
    refine sumParts_unitShares ((viewsIn_rowsOf_le _ _ _).trans_lt exact) (counted.rowsOf _ _) ?_ ?_
      (fit unitUri)
    · rwa [Ne, rowsOf_eq_nil, not_not]
    · intro fileUri hfile
      obtain ⟨row, hrow, rfl⟩ := filesOf_rowsOf hfile
      exact authored row hrow
  rw [authorShares, scaleShares_flatMap, sumParts_flatMap, List.map_congr_left hunit]
  exact sum_parts_of_total _ _ (usageTotal_pos counted some_row)

theorem sumParts_channelShares {serving owner : String} {count total : UInt64}
    (fits : 2 * total.toNat < wordLimit) (part : count.toNat ≤ total.toNat) :
    sumParts (scaleShares total (channelShares serving owner count)) =
      (count.toNat : ℚ) / total.toNat := by
  have hdouble : ∀ word : UInt64, 2 * word.toNat < wordLimit →
      (2 * word).toNat = 2 * word.toNat := by
    intro word hword
    rw [UInt64.toNat_mul]
    exact Nat.mod_eq_of_lt hword
  have htwo := hdouble total fits
  have hcount := hdouble count ((Nat.mul_le_mul_left 2 part).trans_lt fits)
  rw [channelShares]
  split_ifs
  · change ((2 * count).toNat : ℚ) / (2 * total).toNat + 0 = _
    rw [htwo, hcount, add_zero]
    push_cast
    exact mul_div_mul_left _ _ two_ne_zero
  · change (count.toNat : ℚ) / (2 * total).toNat + ((count.toNat : ℚ) / (2 * total).toNat + 0) = _
    rw [htwo, add_zero, ← add_div, ← two_mul]
    push_cast
    exact mul_div_mul_left _ _ two_ne_zero

theorem sumParts_allChannelShares {counted : List (String × String × UInt64)}
    (fits : 2 * (counted.map fun pair => pair.2.2.toNat).sum < wordLimit)
    (positive : 0 < (counted.map fun pair => pair.2.2.toNat).sum) :
    sumParts (allChannelShares counted) = 1 := by
  have htotal : (counted.map fun pair : String × String × UInt64 => pair.2.2).sum.toNat =
      (counted.map fun pair => pair.2.2.toNat).sum := by
    rw [toNat_sum, List.map_map]
    change (counted.map fun pair => pair.2.2.toNat).sum % wordLimit = _
    exact Nat.mod_eq_of_lt (by omega)
  have hpair : ∀ pair ∈ counted, sumParts (scaleShares (counted.map fun pair => pair.2.2).sum
      (channelShares pair.1 pair.2.1 pair.2.2)) =
        (pair.2.2.toNat : ℚ) / ((counted.map fun pair => pair.2.2.toNat).sum : ℕ) := by
    intro pair hpair
    rw [← htotal] at fits
    rw [sumParts_channelShares fits, htotal]
    rw [htotal]
    exact List.single_le_sum (fun _ _ => Nat.zero_le _) _ (List.mem_map.mpr ⟨pair, hpair, rfl⟩)
  rw [allChannelShares, scaleShares_flatMap, sumParts_flatMap, List.map_congr_left hpair]
  exact sum_parts_of_total _ _ positive

def NamedBy (docs : Documents) (rows : List StatisticsRow) : Prop :=
  ∀ row ∈ rows, docs.fileExists row.fileUri = true ∧ authorsOf docs row.fileUri ≠ [] ∧
    docs.unitExists row.unitUri = true

theorem unit_of_exists {docs : Documents} {uri : String} (h : docs.unitExists uri = true) :
    ∃ unit, docs.units[uri]? = some unit := by
  rw [Documents.unitExists, Bool.and_eq_true, Std.ExtTreeMap.contains_eq_isSome_getElem?] at h
  exact Option.isSome_iff_exists.mp h.2

theorem file_of_exists {docs : Documents} {uri : String} (h : docs.fileExists uri = true) :
    ∃ file, docs.files[uri]? = some file := by
  rw [Documents.fileExists, Bool.and_eq_true, Std.ExtTreeMap.contains_eq_isSome_getElem?] at h
  exact Option.isSome_iff_exists.mp h.2

def sharesOf (ctx : Context) (docs : Documents) (rows : List StatisticsRow) (blockNumber : ℕ) :
    Validated where
  authorResult := authorShares docs rows
  channelResult := allChannelShares (pairCounts docs blockNumber ctx.config.testnet rows)
  storageResult := storageShares rows
  unitUriViewCounts := (groupsOf docs rows).pairs.foldl (fun counts (serving, _, views) =>
    raiseUnitViews serving views counts) ∅

/-- The reports of a block, by the kind of node, each in rows. -/
structure Reports where
  channels : List StatisticsRow
  storages : List StatisticsRow

def Reports.verified (reports : Reports) : List StatisticsRow :=
  crossVerified reports.channels reports.storages

theorem Reports.verified_sublist (reports : Reports) : reports.verified.Sublist reports.channels :=
  List.filter_sublist

def reportsOf (channelProvided storageProvided : Provided) : Reports :=
  ⟨statisticsRows channelProvided, statisticsRows storageProvided⟩

theorem validateStatistics_eq {ctx : Context} {docs : Documents}
    {channelProvided storageProvided : Provided} {blockNumber : ℕ}
    (channelCounted : Counted (statisticsRows channelProvided))
    (storageCounted : Counted (statisticsRows storageProvided))
    (named : NamedBy docs (statisticsRows channelProvided))
    (exact : viewsIn (reportsOf channelProvided storageProvided).verified < wordLimit) :
    validateStatistics ctx docs channelProvided storageProvided blockNumber =
      .ok (sharesOf ctx docs (reportsOf channelProvided storageProvided).verified blockNumber) := by
  have hsub := (reportsOf channelProvided storageProvided).verified_sublist
  have hfiles : (docs.filesMissing ((statisticsRows channelProvided).map
      StatisticsRow.fileUri)).isNone = true := by
    rw [Option.isNone_iff_eq_none, Documents.filesMissing, List.find?_eq_none]
    intro uri huri
    obtain ⟨row, hrow, rfl⟩ := List.mem_map.mp huri
    simp [(named row hrow).1]
  have hunits : (docs.unitsMissing ((statisticsRows channelProvided).map
      StatisticsRow.unitUri)).isNone = true := by
    rw [Option.isNone_iff_eq_none, Documents.unitsMissing, List.find?_eq_none]
    intro uri huri
    obtain ⟨row, hrow, rfl⟩ := List.mem_map.mp huri
    simp [(named row hrow).2.2]
  have hknown : ∀ row ∈ (reportsOf channelProvided storageProvided).verified,
      ∃ unit, docs.units[row.unitUri]? = some unit := fun row hrow =>
    unit_of_exists (named row (hsub.subset hrow)).2.2
  have hcount := foldlM_count hknown
  generalize hrows : (reportsOf channelProvided storageProvided).verified = rows at *
  have hauthors : (unitViews rows).toList.mapM (fun entry : String × Tally =>
      unitAuthorShares docs entry.2) = (.ok ((keysOf StatisticsRow.unitUri rows).map fun unitUri =>
        (UInt64.ofNat (usageOf (rowsOf StatisticsRow.unitUri rows unitUri)),
          unitShares docs (rowsOf StatisticsRow.unitUri rows unitUri))) : Checked _) := by
    rw [unitViews, tabulate_toList, List.mapM_map]
    refine mapM_of_ok fun unitUri hunit => ?_
    have hcounted : Counted rows := fun row hrow => channelCounted row (hsub.subset hrow)
    refine unitAuthorShares_eq ((viewsIn_rowsOf_le _ _ _).trans_lt exact)
      (hcounted.rowsOf _ _) ?_ fun row hrow => ?_
    · rwa [Ne, rowsOf_eq_nil, not_not]
    · exact file_of_exists (named row (hsub.subset (mem_rowsOf.mp hrow).1)).1
  have hchannels : ∀ row ∈ statisticsRows channelProvided, row.count ≠ 0 := channelCounted
  have hstorages : ∀ row ∈ statisticsRows storageProvided, row.count ≠ 0 := storageCounted
  unfold validateStatistics
  extract_lets channelRows storageRows
  rw [require_true hchannels, ok_bind, require_true hstorages, ok_bind,
    require_true hfiles, ok_bind, require_true hunits, ok_bind]
  refine (congrArg (fun groups => groups >>= _) ((congrArg _ hrows).trans hcount)).trans ?_
  rw [ok_bind]
  refine (congrArg (fun authors => authors >>= _) hauthors).trans ?_
  rw [ok_bind]
  refine congrArg Except.ok ?_
  rw [sharesOf, authorShares, storageShares, allChannelShares, pairCounts, groupsOf_pairs]
  congr 1
  · rw [List.map_map, List.flatMap_map]
    congr 1
    rw [usageTotal, ← sum_ofNat, List.map_map]
    rfl
  · simp only [List.map_map, List.flatMap_map]
    rfl
  · rw [groupsOf, tabulate_toList, List.map_map, List.map_map]
    congr 1
    exact sumCounts_keysOf _ _

/-- What the shares of a block should be: parts with a positive denominator that add up
to one for the authors, for the channels and for the storages, or none at all. -/
def Validated.SharesOne (validated : Validated) : Prop :=
  (∀ share ∈ validated.authorResult ++ validated.channelResult ++ validated.storageResult,
    share.denominator ≠ 0) ∧
  (sumParts validated.authorResult = 1 ∧ sumParts validated.channelResult = 1 ∧
      sumParts validated.storageResult = 1 ∨
    validated.authorResult = [] ∧ validated.channelResult = [] ∧ validated.storageResult = [])

namespace Reports

def reported (reports : Reports) (channel fileUri storage : String) : ℕ :=
  viewsIn (reports.channels.filter fun row =>
    row.server = channel ∧ row.fileUri = fileUri ∧ row.peer = storage)

def ofUnit (reports : Reports) (unitUri : String) : List StatisticsRow :=
  rowsOf StatisticsRow.unitUri reports.verified unitUri

/-- No addition and no multiplication of `validate_statistics` exceeds a word. A sum only
grows, so it exceeds a word when its last value does. -/
structure NoneExceeds (reports : Reports) (docs : Documents) (special : Bool) : Prop where
  channelStatistics : ∀ channel fileUri storage, reports.reported channel fileUri storage < wordLimit
  storageGroup : ∀ storage, viewsIn (rowsOf StatisticsRow.peer reports.verified storage) < wordLimit
  authorGroup : ∀ unitUri fileUri,
    viewsIn (rowsOf StatisticsRow.fileUri (reports.ofUnit unitUri) fileUri) < wordLimit
  contentGroup : ∀ pair ∈ pairRows docs reports.verified, ∀ views ∈ contentViews docs pair.2.2,
    ∀ count ∈ views, count < wordLimit
  totalViewAllFiles : ((keysOf StatisticsRow.peer reports.verified).map fun storage =>
    viewsIn (rowsOf StatisticsRow.peer reports.verified storage)).sum < wordLimit
  total : ∀ unitUri, ((filesOf (reports.ofUnit unitUri)).map fun fileUri =>
    viewsIn (rowsOf StatisticsRow.fileUri (reports.ofUnit unitUri) fileUri)).sum < wordLimit
  totalViewUnits : usageTotal reports.verified < wordLimit
  fileAuthors : ∀ unitUri, ∀ fileUri ∈ filesOf (reports.ofUnit unitUri),
    (filesOf (reports.ofUnit unitUri)).length * (authorsOf docs fileUri).length < wordLimit
  countPerChannel : ∀ pair ∈ pairRows docs reports.verified,
    shownViews special (contentViews docs pair.2.2) 0 < wordLimit
  doubled : ∀ pair ∈ pairRows docs reports.verified, pair.1 = pair.2.1 →
    2 * shownViews special (contentViews docs pair.2.2) 0 < wordLimit
  totalChannelView : shownTotal docs special reports.verified < wordLimit
  storageResult : 1 * viewsIn reports.verified < wordLimit
  authorResult : ∀ unitUri,
    AuthorsFit docs (reports.ofUnit unitUri) (usageTotal reports.verified)
  channelResult : 2 * shownTotal docs special reports.verified < wordLimit

/-- The reports stay within the words: what a channel reports of one file from one storage,
all confirmed views, the usage of all units times the files and the authors of any file, and
what the channels have shown twice over. -/
structure Bounded (reports : Reports) (docs : Documents) (special : Bool) : Prop where
  reported : ∀ channel fileUri storage, reports.reported channel fileUri storage < wordLimit
  confirmed : viewsIn reports.verified < wordLimit
  authors : ∀ unitUri, AuthorsFit docs (reports.ofUnit unitUri) (usageTotal reports.verified)
  shown : 2 * shownTotal docs special reports.verified < wordLimit

theorem NoneExceeds.bounded {reports : Reports} {docs : Documents} {special : Bool}
    (h : reports.NoneExceeds docs special) : reports.Bounded docs special :=
  ⟨h.channelStatistics, by simpa using h.storageResult, h.authorResult, h.channelResult⟩

theorem shown_le_total {docs : Documents} {special : Bool} {rows : List StatisticsRow}
    {pair : String × String × List StatisticsRow} (h : pair ∈ pairRows docs rows) :
    shownViews special (contentViews docs pair.2.2) 0 ≤ shownTotal docs special rows :=
  List.single_le_sum (fun _ _ => Nat.zero_le _) _ (List.mem_map.mpr ⟨pair, h, rfl⟩)

theorem contentViews_le {docs : Documents} {rows : List StatisticsRow} {views : List ℕ}
    (hviews : views ∈ contentViews docs rows) {count : ℕ} (hcount : count ∈ views) :
    count ≤ viewsIn rows := by
  obtain ⟨content, _, rfl⟩ := List.mem_map.mp hviews
  obtain ⟨unitUri, _, hcount⟩ := List.mem_flatMap.mp hcount
  obtain ⟨fileUri, _, rfl⟩ := List.mem_map.mp hcount
  exact (viewsIn_rowsOf_le _ _ _).trans ((viewsIn_rowsOf_le _ _ _).trans (viewsIn_rowsOf_le _ _ _))

theorem viewsIn_sublist {some all : List StatisticsRow} (h : some.Sublist all) :
    viewsIn some ≤ viewsIn all :=
  (h.map _).sum_le_sum fun _ _ => Nat.zero_le _

/-- Every other number is part of one of the bounded ones. -/
theorem Bounded.noneExceeds {reports : Reports} {docs : Documents} {special : Bool}
    (counted : Counted reports.verified) (h : reports.Bounded docs special) :
    reports.NoneExceeds docs special := by
  have hunit : ∀ unitUri, viewsIn (reports.ofUnit unitUri) < wordLimit := fun unitUri =>
    (viewsIn_rowsOf_le _ _ _).trans_lt h.confirmed
  have hshown := h.shown
  constructor
  case channelStatistics => exact h.reported
  case storageGroup => exact fun storage => (viewsIn_rowsOf_le _ _ _).trans_lt h.confirmed
  case authorGroup => exact fun unitUri fileUri => (viewsIn_rowsOf_le _ _ _).trans_lt (hunit unitUri)
  case contentGroup =>
      intro pair hpair views hviews count hcount
      exact ((contentViews_le hviews hcount).trans
        (viewsIn_sublist (mem_pairRows hpair).1)).trans_lt h.confirmed
  case totalViewAllFiles =>
      rw [viewsIn_keysOf]
      exact h.confirmed
  case total =>
      intro unitUri
      rw [filesOf, viewsIn_keysOf]
      exact hunit unitUri
  case totalViewUnits => exact (usageTotal_le _).trans_lt h.confirmed
  case fileAuthors =>
      intro unitUri fileUri hfile
      obtain ⟨row, hrow, _⟩ := filesOf_rowsOf hfile
      have hpos := usageTotal_pos counted (List.ne_nil_of_mem hrow)
      exact (Nat.le_mul_of_pos_right _ hpos).trans_lt (h.authors unitUri fileUri hfile)
  case countPerChannel =>
      intro pair hpair
      have hpart : _ ≤ shownTotal docs special _ := shown_le_total hpair
      omega
  case doubled =>
      intro pair hpair _
      have hpart : _ ≤ shownTotal docs special _ := shown_le_total hpair
      omega
  case totalChannelView => omega
  case storageResult =>
      rw [one_mul]
      exact h.confirmed
  case authorResult => exact h.authors
  case channelResult => exact h.shown

end Reports

theorem word_ne_zero {word : UInt64} (positive : 0 < word.toNat) : word ≠ 0 := by
  rintro rfl
  exact absurd positive (lt_irrefl 0)

theorem authorShares_denominator {docs : Documents} {rows : List StatisticsRow}
    (counted : Counted rows) (authored : ∀ row ∈ rows, authorsOf docs row.fileUri ≠ [])
    (fit : ∀ unitUri, AuthorsFit docs (rowsOf StatisticsRow.unitUri rows unitUri)
      (usageTotal rows)) : ∀ share ∈ authorShares docs rows, share.denominator ≠ 0 := by
  intro share hshare
  obtain ⟨unscaled, hunscaled, rfl⟩ := List.mem_map.mp hshare
  obtain ⟨unitUri, _, hunit⟩ := List.mem_flatMap.mp hunscaled
  obtain ⟨fileUri, hfile, hauthor⟩ := List.mem_flatMap.mp hunit
  obtain ⟨author, _, rfl⟩ := List.mem_map.mp hauthor
  obtain ⟨row, hrow, rfl⟩ := filesOf_rowsOf hfile
  apply word_ne_zero
  change 0 < (UInt64.ofNat _ * UInt64.ofNat _ * UInt64.ofNat _).toNat
  rw [denominator_toNat (fit unitUri _ hfile)]
  have hfiles : 0 < (filesOf (rowsOf StatisticsRow.unitUri rows unitUri)).length :=
    List.length_pos_of_mem hfile
  have hauthors := List.length_pos_iff.mpr (authored row hrow)
  exact Nat.mul_pos (Nat.mul_pos hfiles hauthors) (usageTotal_pos counted (List.ne_nil_of_mem hrow))

theorem storageShares_denominator {rows : List StatisticsRow} (exact : viewsIn rows < wordLimit)
    (counted : Counted rows) : ∀ share ∈ storageShares rows, share.denominator ≠ 0 := by
  intro share hshare
  obtain ⟨unscaled, hunscaled, rfl⟩ := List.mem_map.mp hshare
  obtain ⟨storage, hstorage, rfl⟩ := List.mem_map.mp hunscaled
  obtain ⟨row, hrow, _⟩ := mem_keysOf.mp hstorage
  apply word_ne_zero
  change 0 < (1 * sumCounts rows).toNat
  rw [one_mul, sumCounts_toNat exact]
  exact counted.views_pos (List.ne_nil_of_mem hrow)

theorem allChannelShares_denominator {counted : List (String × String × UInt64)}
    (fits : 2 * (counted.map fun pair => pair.2.2.toNat).sum < wordLimit)
    (positive : 0 < (counted.map fun pair => pair.2.2.toNat).sum) :
    ∀ share ∈ allChannelShares counted, share.denominator ≠ 0 := by
  intro share hshare
  obtain ⟨unscaled, hunscaled, rfl⟩ := List.mem_map.mp hshare
  obtain ⟨pair, _, hpair⟩ := List.mem_flatMap.mp hunscaled
  have htwo : unscaled.denominator = 2 := by
    rw [channelShares] at hpair
    split_ifs at hpair
    · rw [List.mem_singleton.mp hpair]
    · rw [List.mem_pair] at hpair
      rcases hpair with rfl | rfl <;> rfl
  apply word_ne_zero
  change 0 < (unscaled.denominator * (counted.map fun pair => pair.2.2).sum).toNat
  rw [htwo, UInt64.toNat_mul, toNat_sum, List.map_map]
  have hsum : (counted.map fun pair => pair.2.2.toNat).sum < wordLimit := by omega
  change 0 < 2 * ((counted.map fun pair => pair.2.2.toNat).sum % wordLimit) % wordLimit
  rw [Nat.mod_eq_of_lt hsum, Nat.mod_eq_of_lt fits]
  omega

theorem pairRows_ne_nil {docs : Documents} {rows : List StatisticsRow} (some_row : rows ≠ []) :
    pairRows docs rows ≠ [] := by
  obtain ⟨row, hrow⟩ := List.exists_mem_of_ne_nil rows some_row
  refine List.ne_nil_of_mem (List.mem_flatMap.mpr ⟨row.server, mem_keysOf.mpr ⟨row, hrow, rfl⟩,
    List.mem_map.mpr ⟨ownerOf docs row, mem_keysOf.mpr ⟨row, ?_, rfl⟩, rfl⟩⟩)
  exact mem_rowsOf.mpr ⟨hrow, rfl⟩

theorem shownTotal_pos {docs : Documents} {special : Bool} {rows : List StatisticsRow}
    (counted : Counted rows) (some_row : rows ≠ []) : 0 < shownTotal docs special rows := by
  have hpairs : pairRows docs rows ≠ [] := pairRows_ne_nil some_row
  obtain ⟨pair, hpair⟩ := List.exists_mem_of_ne_nil _ hpairs
  have hrows := mem_pairRows hpair
  have hshown : 0 < shownViews special (contentViews docs pair.2.2) 0 :=
    contentViews_pos (fun row hrow => counted row (hrows.1.subset hrow)) hrows.2
  exact hshown.trans_le (Reports.shown_le_total hpair)

theorem pairCounts_toNat {docs : Documents} {blockNumber : ℕ} {isTestnet : Bool}
    {rows : List StatisticsRow} (exact : viewsIn rows < wordLimit)
    (fits : shownTotal docs (countsFromSum blockNumber isTestnet) rows < wordLimit) :
    ((pairCounts docs blockNumber isTestnet rows).map fun pair => pair.2.2.toNat).sum =
      shownTotal docs (countsFromSum blockNumber isTestnet) rows := by
  rw [pairCounts, List.map_map, shownTotal]
  congr 1
  refine List.map_congr_left fun pair hpair => countsPerChannelViews_toNat ?_ ?_
  · exact (Reports.viewsIn_sublist (mem_pairRows hpair).1).trans_lt exact
  · exact (Reports.shown_le_total hpair).trans_lt fits

theorem sharesOf_one {ctx : Context} {docs : Documents} {reports : Reports} {blockNumber : ℕ}
    (counted : Counted reports.verified)
    (authored : ∀ row ∈ reports.verified, authorsOf docs row.fileUri ≠ [])
    (bounded : reports.Bounded docs (countsFromSum blockNumber ctx.config.testnet)) :
    (sharesOf ctx docs reports.verified blockNumber).SharesOne := by
  by_cases hnone : reports.verified = []
  · rw [hnone]
    exact ⟨fun share hshare => absurd hshare List.not_mem_nil, .inr ⟨rfl, rfl, rfl⟩⟩
  · have hshown := bounded.shown
    have htotal : shownTotal docs (countsFromSum blockNumber ctx.config.testnet)
        reports.verified < wordLimit := by omega
    have hcounts := pairCounts_toNat bounded.confirmed htotal
    have hpositive : 0 < shownTotal docs (countsFromSum blockNumber ctx.config.testnet)
        reports.verified := shownTotal_pos counted hnone
    rw [← hcounts] at hshown hpositive
    refine ⟨fun share hshare => ?_, .inl ⟨?_, ?_, ?_⟩⟩
    · rw [List.mem_append, List.mem_append] at hshare
      rcases hshare with (hauthor | hchannel) | hstorage
      · exact authorShares_denominator counted authored bounded.authors share hauthor
      · exact allChannelShares_denominator hshown hpositive share hchannel
      · exact storageShares_denominator bounded.confirmed counted share hstorage
    · exact sumParts_authorShares bounded.confirmed counted hnone authored bounded.authors
    · exact sumParts_allChannelShares hshown hpositive
    · exact sumParts_storageShares bounded.confirmed counted hnone

/-- The shares of a block add up to one, and nothing exceeds a word, exactly when the
reports stay within the words. -/
theorem validateStatistics_sharesOne_iff {ctx : Context} {docs : Documents}
    {channelProvided storageProvided : Provided} {blockNumber : ℕ}
    (channelCounted : Counted (statisticsRows channelProvided))
    (storageCounted : Counted (statisticsRows storageProvided))
    (named : NamedBy docs (statisticsRows channelProvided)) :
    (∃ validated, validateStatistics ctx docs channelProvided storageProvided blockNumber =
        .ok validated ∧ validated.SharesOne ∧
        (reportsOf channelProvided storageProvided).NoneExceeds docs
          (countsFromSum blockNumber ctx.config.testnet)) ↔
      (reportsOf channelProvided storageProvided).Bounded docs
        (countsFromSum blockNumber ctx.config.testnet) := by
  have hsub := (reportsOf channelProvided storageProvided).verified_sublist
  have hcounted : Counted (reportsOf channelProvided storageProvided).verified := fun row hrow =>
    channelCounted row (hsub.subset hrow)
  constructor
  · rintro ⟨_, _, _, hnone⟩
    exact hnone.bounded
  · intro bounded
    refine ⟨_, validateStatistics_eq channelCounted storageCounted named bounded.confirmed,
      sharesOf_one hcounted (fun row hrow => (named row (hsub.subset hrow)).2.1) bounded,
      bounded.noneExceeds hcounted⟩

section Examples

def servedDocuments : Documents :=
  ((default : Documents).insertFile ⟨"file", ["author"]⟩).insertUnit
    ⟨"unit", 1, ["author"], "channel", ["file"]⟩

def channelReport (count : UInt64) : Provided :=
  (∅ : Provided).insert "channel" ⟨"channel", 0, 600,
    [⟨"file", "unit", [⟨count, "storage"⟩, ⟨count, "other"⟩]⟩]⟩

def storageReports (count : UInt64) : Provided :=
  ((∅ : Provided).insert "storage" ⟨"storage", 0, 600,
    [⟨"file", "", [⟨count, "channel"⟩]⟩]⟩).insert "other" ⟨"other", 0, 600,
      [⟨"file", "", [⟨count, "channel"⟩]⟩]⟩

instance (rows : List StatisticsRow) : Decidable (Counted rows) :=
  inferInstanceAs (Decidable (∀ row ∈ rows, _))

instance (docs : Documents) (rows : List StatisticsRow) : Decidable (NamedBy docs rows) :=
  inferInstanceAs (Decidable (∀ row ∈ rows, _))

instance (docs : Documents) (rows : List StatisticsRow) (total : ℕ) :
    Decidable (AuthorsFit docs rows total) := inferInstanceAs (Decidable (∀ fileUri ∈ filesOf rows, _))

theorem fewViews_bounded : (reportsOf (channelReport 7) (storageReports 8)).Bounded servedDocuments
    (countsFromSum 1 false) := by
  constructor
  · intro channel fileUri storage
    refine (Reports.viewsIn_sublist List.filter_sublist).trans_lt ?_
    decide
  · decide
  · intro unitUri
    by_cases hunit : unitUri = "unit"
    · subst hunit
      decide
    · have hrows : (reportsOf (channelReport 7) (storageReports 8)).ofUnit unitUri = [] := by
        rw [Reports.ofUnit, rowsOf_eq_nil, mem_keysOf]
        rintro ⟨row, hrow, rfl⟩
        have hall : ∀ row ∈ (reportsOf (channelReport 7) (storageReports 8)).verified,
            row.unitUri = "unit" := by decide
        exact hunit (hall row hrow)
      rw [hrows]
      exact fun fileUri hfile => absurd hfile List.not_mem_nil
  · decide

theorem fewViews_sharesOne : ∃ validated, validateStatistics (exampleNode "own" .blockchain)
    servedDocuments (channelReport 7) (storageReports 8) 1 = .ok validated ∧
      validated.SharesOne ∧ (reportsOf (channelReport 7) (storageReports 8)).NoneExceeds
        servedDocuments (countsFromSum 1 false) :=
  (validateStatistics_sharesOne_iff (by decide) (by decide) (by decide)).mpr fewViews_bounded

/-- Two storages confirm 2^63 views each, and the sum of the views of the file wraps to zero. -/
theorem manyViews_throw : ¬ ∀ (ctx : Context) (docs : Documents)
    (channelProvided storageProvided : Provided) (blockNumber : ℕ),
    Counted (statisticsRows channelProvided) → Counted (statisticsRows storageProvided) →
    NamedBy docs (statisticsRows channelProvided) →
    ∃ validated, validateStatistics ctx docs channelProvided storageProvided blockNumber =
        .ok validated ∧ validated.SharesOne ∧
        (reportsOf channelProvided storageProvided).NoneExceeds docs
          (countsFromSum blockNumber ctx.config.testnet) := by
  intro h
  have hthrows : validateStatistics (exampleNode "own" .blockchain) servedDocuments
      (channelReport 9223372036854775808) (storageReports 9223372036854775808) 1 =
        .error (.logicError "0 == total") := by
    rfl
  obtain ⟨validated, hok, _⟩ := h (exampleNode "own" .blockchain) servedDocuments
    (channelReport 9223372036854775808) (storageReports 9223372036854775808) 1 (by decide)
    (by decide) (by decide)
  rw [hthrows] at hok
  cases hok

end Examples
end Publiq
