import Publiq.ServiceCounter
import Mathlib.Data.List.Forall2

/-! Runs of a service counter: every order that is served is in exactly one of the
reports that follow. -/
namespace Publiq
open Message Checked

namespace ServiceCounter

def fileOf (unit : ServiceUnit) : String × String := (unit.contentUnitUri, unit.fileUri)

def itemKey (statFile : ServiceStatisticsFile) : String × String :=
  (statFile.unitUri, statFile.fileUri)

def itemLines (statFile : ServiceStatisticsFile) : List (ServiceUnit × UInt64) :=
  statFile.countItems.map fun statCount =>
    (⟨statFile.fileUri, statFile.unitUri, statCount.peerAddress⟩, statCount.count)

def reportLines (fileItems : List ServiceStatisticsFile) : List (ServiceUnit × UInt64) :=
  fileItems.flatMap itemLines

/-- Each file of a unit is there once, each peer once below it, and no count is zero. -/
structure OncePerUnit (fileItems : List ServiceStatisticsFile) : Prop where
  files : (fileItems.map itemKey).Nodup
  peers : ∀ statFile ∈ fileItems, (statFile.countItems.map (·.peerAddress)).Nodup
  positive : ∀ statFile ∈ fileItems, ∀ statCount ∈ statFile.countItems, 0 < statCount.count

/-- The index finds the items, and the lines are what was pushed. -/
structure Tally.Holds (tally : Tally) (pushed : List (ServiceUnit × UInt64)) : Prop where
  index : ∀ key place, tally.index.find? key = some place ↔
    (tally.fileItems.map itemKey)[place]? = some key
  lines : (reportLines tally.fileItems).Perm pushed

theorem itemLines_push (statFile : ServiceStatisticsFile) (statCount : ServiceStatisticsCount) :
    itemLines { statFile with countItems := statFile.countItems ++ [statCount] } =
      itemLines statFile ++
        [(⟨statFile.fileUri, statFile.unitUri, statCount.peerAddress⟩, statCount.count)] := by
  rw [itemLines, List.map_append]
  rfl

theorem map_itemKey_modify (fileItems : List ServiceStatisticsFile) (place : ℕ)
    (statCount : ServiceStatisticsCount) :
    (fileItems.modify place fun statFile =>
      { statFile with countItems := statFile.countItems ++ [statCount] }).map itemKey =
      fileItems.map itemKey := by
  apply List.ext_getElem?
  intro i
  rw [List.getElem?_map, List.getElem?_modify, List.getElem?_map]
  cases fileItems[i]? with
  | none => rfl
  | some statFile =>
      by_cases here : place = i
      · simp only [Option.map_eq_map, Option.map_some, here, if_true, itemKey]
      · simp only [Option.map_eq_map, Option.map_some, here, if_false]

theorem reportLines_modify {fileItems : List ServiceStatisticsFile} {place : ℕ}
    {unit : ServiceUnit} (found : (fileItems.map itemKey)[place]? = some (fileOf unit))
    (count : UInt64) :
    (reportLines (fileItems.modify place fun statFile =>
      { statFile with
        countItems := statFile.countItems ++
          [{ count, peerAddress := unit.peerAddress }] })).Perm
      (reportLines fileItems ++ [(unit, count)]) := by
  induction fileItems generalizing place with
  | nil => simp at found
  | cons statFile rest ih =>
      cases place with
      | zero =>
          have key : itemKey statFile = fileOf unit := by simpa using found
          obtain ⟨sameUnit, sameFile⟩ := Prod.mk.inj key
          rw [List.modify_zero_cons, reportLines, List.flatMap_cons, itemLines_push, sameFile,
            sameUnit, reportLines, List.flatMap_cons, List.append_assoc, List.append_assoc]
          exact List.Perm.append_left _ List.perm_append_comm
      | succ place =>
          rw [List.modify_succ_cons, reportLines, List.flatMap_cons, reportLines,
            List.flatMap_cons, List.append_assoc]
          exact List.Perm.append_left _ (ih (by simpa using found))

theorem Tally.Holds.push {tally : Tally} {pushed : List (ServiceUnit × UInt64)}
    (holds : tally.Holds pushed) (unit : ServiceUnit) (count : UInt64) :
    (tally.push unit count).Holds (pushed ++ [(unit, count)]) := by
  unfold Tally.push
  cases found : tally.index.find? (unit.contentUnitUri, unit.fileUri) with
  | some place =>
      refine ⟨?_, ?_⟩
      · intro key place'
        simp only
        rw [holds.index, map_itemKey_modify]
      · exact (reportLines_modify ((holds.index _ _).mp found) count).trans
          (holds.lines.append_right _)
  | none =>
      refine ⟨?_, ?_⟩
      · intro key place
        simp only [List.map_append, List.map_cons, List.map_nil]
        by_cases same : key = (unit.contentUnitUri, unit.fileUri)
        · subst same
          rw [UnorderedMap.find?_insert_self, found, Option.getD_none, Option.some.injEq]
          constructor
          · rintro rfl
            rw [List.getElem?_append_right (List.length_map _).le, List.length_map, Nat.sub_self]
            rfl
          · intro at_place
            by_cases before : place < (tally.fileItems.map itemKey).length
            · rw [List.getElem?_append_left before, ← holds.index, found] at at_place
              cases at_place
            · have bound := (List.getElem?_eq_some_iff.mp at_place).1
              rw [List.length_append, List.length_singleton] at bound
              rw [List.length_map] at before bound
              omega
        · rw [UnorderedMap.find?_insert_ne _ _ same, holds.index]
          by_cases before : place < (tally.fileItems.map itemKey).length
          · rw [List.getElem?_append_left before]
          · have missing : (tally.fileItems.map itemKey)[place]? = none :=
              List.getElem?_eq_none (Nat.le_of_not_lt before)
            rw [missing, List.getElem?_append_right (Nat.le_of_not_lt before)]
            constructor
            · intro absurd
              cases absurd
            · intro at_place
              have member := List.mem_of_getElem? at_place
              exact absurd (List.mem_singleton.mp member) same
      · simp only [reportLines, List.flatMap_append, List.flatMap_cons, List.flatMap_nil,
          List.append_nil]
        exact holds.lines.append_right _

theorem tallyUnits_holds (units : List (ServiceUnit × ServiceUnitCounterMap)) {tally : Tally}
    {pushed : List (ServiceUnit × UInt64)} (holds : tally.Holds pushed) :
    (tallyUnits units tally).Holds
      (pushed ++ (units.map fun entry => (entry.1, countNew entry.2)).filter
        fun line => line.2 ≠ 0) := by
  induction units generalizing tally pushed with
  | nil => simpa [tallyUnits] using holds
  | cons entry rest ih =>
      rw [tallyUnits, List.map_cons]
      by_cases zero : countNew entry.2 = 0
      · rw [if_pos zero, List.filter_cons_of_neg (by simp [zero])]
        exact ih holds
      · rw [if_neg zero, List.filter_cons_of_pos (by simp [zero])]
        have next := ih (holds.push entry.1 (countNew entry.2))
        rwa [List.append_assoc, List.singleton_append] at next

theorem Tally.Holds.oncePerUnit {tally : Tally} {pushed : List (ServiceUnit × UInt64)}
    (holds : tally.Holds pushed) (distinct : (pushed.map Prod.fst).Nodup)
    (positive : ∀ line ∈ pushed, line.2 ≠ 0) : OncePerUnit tally.fileItems := by
  have lines : ((reportLines tally.fileItems).map Prod.fst).Nodup :=
    (holds.lines.map Prod.fst).nodup_iff.mpr distinct
  refine ⟨?_, ?_, ?_⟩
  · rw [List.nodup_iff_getElem?_ne_getElem?]
    intro i j lt bound same
    obtain ⟨key, at_i⟩ : ∃ key, (tally.fileItems.map itemKey)[i]? = some key :=
      ⟨_, List.getElem?_eq_getElem (lt.trans bound)⟩
    have first := (holds.index key i).mpr at_i
    have second := (holds.index key j).mpr (same ▸ at_i)
    rw [first, Option.some.injEq] at second
    omega
  · intro statFile member
    have below : (itemLines statFile).Sublist (reportLines tally.fileItems) :=
      List.sublist_flatten_of_mem (List.mem_map_of_mem member)
    have nodup := lines.sublist (below.map Prod.fst)
    rw [itemLines, List.map_map] at nodup
    refine List.Nodup.of_map
      (fun peer => (⟨statFile.fileUri, statFile.unitUri, peer⟩ : ServiceUnit)) ?_
    rw [List.map_map]
    exact nodup
  · intro statFile member statCount below
    have line : ((⟨statFile.fileUri, statFile.unitUri, statCount.peerAddress⟩ : ServiceUnit),
        statCount.count) ∈ reportLines tally.fileItems :=
      List.mem_flatMap.mpr ⟨statFile, member, List.mem_map_of_mem below⟩
    exact UInt64.pos_iff_ne_zero.mpr (positive _ (holds.lines.mem_iff.mp line))

theorem mem_reportLines_take {service : ServiceCounter} (sized : service.Sized) (now : ℤ)
    (unit : ServiceUnit) (count : UInt64) :
    (unit, count) ∈ reportLines (takeStatisticsInfo now service).1 ↔
      count ≠ 0 ∧ count.toNat = (service.newCounters unit).card := by
  have holds := tallyUnits_holds service.units.entries
    (show (⟨∅, []⟩ : Tally).Holds [] from ⟨by simp, List.Perm.refl []⟩)
  unfold takeStatisticsInfo
  rw [holds.lines.mem_iff, List.nil_append]
  simp only [List.mem_filter, List.mem_map, Prod.mk.injEq, Prod.exists, decide_eq_true_eq]
  constructor
  · rintro ⟨⟨unit', counters, entry, rfl, rfl⟩, positive⟩
    exact ⟨positive, countNew_toNat sized (UnorderedMap.find?_eq_some_iff.mpr entry)⟩
  · rintro ⟨positive, same⟩
    refine ⟨?_, positive⟩
    cases found : service.units.find? unit with
    | none =>
        rw [newCounters, found] at same
        exact absurd (UInt64.toNat_inj.mp same) positive
    | some counters =>
        refine ⟨unit, counters, UnorderedMap.find?_eq_some_iff.mp found, rfl, ?_⟩
        exact UInt64.toNat_inj.mp ((countNew_toNat sized found).trans same.symm)

theorem oncePerUnit_take (now : ℤ) (service : ServiceCounter) :
    OncePerUnit (takeStatisticsInfo now service).1 := by
  have holds := tallyUnits_holds service.units.entries
    (show (⟨∅, []⟩ : Tally).Holds [] from ⟨by simp, List.Perm.refl []⟩)
  refine holds.oncePerUnit ?_ ?_
  · have walked : ((service.units.entries.map fun entry =>
        (entry.1, countNew entry.2)).map Prod.fst).Nodup := by
      rw [List.map_map]
      exact service.units.distinct
    rw [List.nil_append]
    exact walked.sublist (List.filter_sublist.map Prod.fst)
  · intro line member
    rw [List.nil_append] at member
    simpa using (List.mem_filter.mp member).2

def Reordered (service service' : ServiceCounter) : Prop :=
  ∀ unit, Option.Rel (fun counters counters' => counters.entries.Perm counters'.entries)
    (service.units.find? unit) (service'.units.find? unit)

theorem Reordered.flag {service service' : ServiceCounter} (h : Reordered service service')
    (unit : ServiceUnit) (counter : ServiceUnitCounter) :
    service'.flag unit counter = service.flag unit counter := by
  have same := h unit
  unfold ServiceCounter.flag
  revert same
  generalize service.units.find? unit = before
  generalize service'.units.find? unit = after
  intro same
  cases same with
  | none => rfl
  | some perm => exact UnorderedMap.find?_of_perm perm.symm counter

theorem Reordered.sized {service service' : ServiceCounter} (h : Reordered service service')
    (sized : service.Sized) : service'.Sized := by
  intro unit counters' found
  have same := h unit
  rw [found] at same
  cases before : service.units.find? unit with
  | none =>
      rw [before] at same
      cases same
  | some counters =>
      rw [before] at same
      cases same with
      | some perm => exact perm.length_eq ▸ sized unit counters before

end ServiceCounter

inductive ServiceEvent where
  | accepted (unit : ServiceUnit) (counter : ServiceUnitCounter)
  | refused (unit : ServiceUnit) (counter : ServiceUnitCounter)
  | reported (fileItems : List ServiceStatisticsFile)

/-- Runs of a service counter, the last event first: the events, the state after them
and the clock. Between two calls the maps may come to iterate in another order. -/
inductive ServiceRun : List ServiceEvent → ServiceCounter → ℤ → Prop where
  | start (now : ℤ) : ServiceRun [] ⟨∅⟩ now
  | accepted {past : List ServiceEvent} {service service' : ServiceCounter} {last now : ℤ}
      {unit : ServiceUnit} {counter : ServiceUnitCounter}
      (run : ServiceRun past service last) (later : last ≤ now)
      (ok : service.served now unit counter = .ok service') :
      ServiceRun (.accepted unit counter :: past) service' now
  | refused {past : List ServiceEvent} {service : ServiceCounter} {last now : ℤ}
      {unit : ServiceUnit} {counter : ServiceUnitCounter} {failure : Failure}
      (run : ServiceRun past service last) (later : last ≤ now)
      (error : service.served now unit counter = .error failure) :
      ServiceRun (.refused unit counter :: past) service now
  | reported {past : List ServiceEvent} {service : ServiceCounter} {last now : ℤ}
      (run : ServiceRun past service last) (later : last ≤ now) :
      ServiceRun (.reported (service.takeStatisticsInfo now).1 :: past)
        (service.takeStatisticsInfo now).2 now
  | reordered {past : List ServiceEvent} {service service' : ServiceCounter} {last : ℤ}
      (run : ServiceRun past service last) (same : service.Reordered service') :
      ServiceRun past service' last

namespace ServiceRun
open ServiceCounter

def acceptedOrders : List ServiceEvent → Finset (ServiceUnit × ServiceUnitCounter)
  | [] => ∅
  | .accepted unit counter :: past => insert (unit, counter) (acceptedOrders past)
  | .refused _ _ :: past => acceptedOrders past
  | .reported _ :: past => acceptedOrders past

def settledOrders : List ServiceEvent → Finset (ServiceUnit × ServiceUnitCounter)
  | [] => ∅
  | .accepted _ _ :: past => settledOrders past
  | .refused _ _ :: past => settledOrders past
  | .reported _ :: past => acceptedOrders past

/-- The orders accepted since the last report, and never before it. -/
def newOrders (past : List ServiceEvent) : Finset (ServiceUnit × ServiceUnitCounter) :=
  acceptedOrders past \ settledOrders past

theorem settledOrders_subset (past : List ServiceEvent) :
    settledOrders past ⊆ acceptedOrders past := by
  induction past with
  | nil => exact Finset.Subset.refl _
  | cons event past ih =>
      cases event with
      | accepted unit counter => exact ih.trans (Finset.subset_insert _ _)
      | refused unit counter => exact ih
      | reported fileItems => exact Finset.Subset.refl _

/-- The flags against the events: what is new and what is settled. A settled order that
is forgotten has expired. -/
structure Follows (past : List ServiceEvent) (service : ServiceCounter) (now : ℤ) : Prop where
  sized : service.Sized
  new : ∀ unit counter,
    service.flag unit counter = some false ↔ (unit, counter) ∈ newOrders past
  old : ∀ unit counter,
    service.flag unit counter = some true → (unit, counter) ∈ settledOrders past
  kept : ∀ unit counter, (unit, counter) ∈ settledOrders past →
    service.flag unit counter = some true ∨ counter.Expired now

theorem Follows.later {past : List ServiceEvent} {service : ServiceCounter} {last now : ℤ}
    (follows : Follows past service last) (later : last ≤ now) : Follows past service now :=
  ⟨follows.sized, follows.new, follows.old, fun unit counter settled =>
    (follows.kept unit counter settled).imp id fun expired => expired.mono later⟩

theorem Follows.accepted {past : List ServiceEvent} {service service' : ServiceCounter}
    {now : ℤ} {unit : ServiceUnit} {counter : ServiceUnitCounter}
    (follows : Follows past service now)
    (ok : service.served now unit counter = .ok service') :
    Follows (.accepted unit counter :: past) service' now := by
  have fresh : ¬ counter.Expired now := (served_ok_iff.mp ok).2.1
  refine ⟨follows.sized.served ok, ?_, ?_, ?_⟩
  · intro unit' counter'
    by_cases same : (unit', counter') = (unit, counter)
    · cases same
      have settled : (unit, counter) ∈ settledOrders past ↔
          service.flag unit counter = some true :=
        ⟨fun h => (follows.kept unit counter h).resolve_right fresh, follows.old unit counter⟩
      rw [flag_served_self ok, newOrders, Finset.mem_sdiff, acceptedOrders, settledOrders,
        settled]
      cases service.flag unit counter with
      | none => simp
      | some counted => cases counted <;> simp
    · rw [flag_served_ne ok same, follows.new, newOrders, newOrders, Finset.mem_sdiff,
        Finset.mem_sdiff, acceptedOrders, settledOrders, Finset.mem_insert]
      simp only [same, false_or]
  · intro unit' counter' counted
    rw [settledOrders]
    by_cases same : (unit', counter') = (unit, counter)
    · cases same
      rw [flag_served_self ok] at counted
      apply follows.old
      cases before : service.flag unit counter with
      | none =>
          rw [before] at counted
          cases counted
      | some flag =>
          rw [before] at counted
          exact counted
    · rw [flag_served_ne ok same] at counted
      exact follows.old _ _ counted
  · intro unit' counter' settled
    refine (follows.kept unit' counter' settled).imp ?_ id
    intro counted
    by_cases same : (unit', counter') = (unit, counter)
    · cases same
      rw [flag_served_self ok, counted]
      rfl
    · rw [flag_served_ne ok same, counted]

theorem Follows.reported {past : List ServiceEvent} {service : ServiceCounter} {now : ℤ}
    (follows : Follows past service now) (fileItems : List ServiceStatisticsFile) :
    Follows (.reported fileItems :: past) (service.takeStatisticsInfo now).2 now := by
  have marked : ∀ unit counter, (service.takeStatisticsInfo now).2.flag unit counter ≠
      some false := by
    intro unit counter
    rw [flag_take]
    by_cases expired : counter.Expired now
    · simp [expired]
    · simp [expired]
  refine ⟨follows.sized.take now, ?_, ?_, ?_⟩
  · intro unit counter
    refine iff_of_false (marked unit counter) ?_
    rw [newOrders, acceptedOrders, settledOrders, Finset.sdiff_self]
    exact Finset.notMem_empty _
  · intro unit counter counted
    rw [settledOrders]
    rw [flag_take] at counted
    by_cases expired : counter.Expired now
    · rw [if_pos expired] at counted
      cases counted
    · rw [if_neg expired] at counted
      obtain ⟨before, known, -⟩ := Option.map_eq_some_iff.mp counted
      cases before with
      | true => exact settledOrders_subset past (follows.old unit counter known)
      | false => exact (Finset.mem_sdiff.mp ((follows.new unit counter).mp known)).1
  · intro unit counter accepted
    rw [settledOrders] at accepted
    by_cases expired : counter.Expired now
    · exact .inr expired
    · refine .inl ?_
      rw [flag_take, if_neg expired]
      by_cases settled : (unit, counter) ∈ settledOrders past
      · rw [(follows.kept unit counter settled).resolve_right expired]
        rfl
      · rw [(follows.new unit counter).mpr (Finset.mem_sdiff.mpr ⟨accepted, settled⟩)]
        rfl

theorem Follows.reordered {past : List ServiceEvent} {service service' : ServiceCounter}
    {now : ℤ} (follows : Follows past service now) (same : service.Reordered service') :
    Follows past service' now := by
  refine ⟨same.sized follows.sized, ?_, ?_, ?_⟩
  · intro unit counter
    rw [same.flag]
    exact follows.new unit counter
  · intro unit counter
    rw [same.flag]
    exact follows.old unit counter
  · intro unit counter
    rw [same.flag]
    exact follows.kept unit counter

theorem follows {past : List ServiceEvent} {service : ServiceCounter} {now : ℤ}
    (run : ServiceRun past service now) : Follows past service now := by
  induction run with
  | start now =>
      refine ⟨?_, ?_, ?_, ?_⟩
      · intro unit counters found
        cases found
      · intro unit counter
        exact iff_of_false (fun h => by cases h) (Finset.notMem_empty _)
      · intro unit counter counted
        cases counted
      · intro unit counter settled
        exact absurd settled (Finset.notMem_empty _)
  | accepted run later ok ih => exact (ih.later later).accepted ok
  | refused run later error ih =>
      exact ⟨ih.sized, ih.new, ih.old, (ih.later later).kept⟩
  | reported run later ih => exact (ih.later later).reported _
  | reordered run same ih => exact ih.reordered same

theorem Follows.newCounters_card {past : List ServiceEvent} {service : ServiceCounter}
    {now : ℤ} (follows : Follows past service now) (unit : ServiceUnit) :
    (service.newCounters unit).card =
      ((newOrders past).filter fun order => order.1 = unit).card := by
  apply Finset.card_bij fun counter _ => (unit, counter)
  · intro counter member
    rw [mem_newCounters, follows.new] at member
    exact Finset.mem_filter.mpr ⟨member, rfl⟩
  · intro a _ b _ same
    exact (Prod.mk.inj same).2
  · rintro ⟨unit', counter⟩ member
    obtain ⟨new, rfl⟩ := Finset.mem_filter.mp member
    exact ⟨counter, mem_newCounters.mpr ((follows.new _ counter).mpr new), rfl⟩

theorem before_report {past before : List ServiceEvent} {service : ServiceCounter} {now : ℤ}
    {fileItems : List ServiceStatisticsFile} (run : ServiceRun past service now)
    (suffix : .reported fileItems :: before <:+ past) :
    ∃ service' now', Follows before service' now' ∧
      fileItems = (service'.takeStatisticsInfo now').1 := by
  induction run with
  | start now => exact absurd (List.suffix_nil.mp suffix) (List.cons_ne_nil _ _)
  | accepted run later ok ih =>
      rcases List.suffix_cons_iff.mp suffix with same | below
      · cases same
      · exact ih below
  | refused run later error ih =>
      rcases List.suffix_cons_iff.mp suffix with same | below
      · cases same
      · exact ih below
  | @reported past service last now run later ih =>
      rcases List.suffix_cons_iff.mp suffix with same | below
      · cases same
        exact ⟨service, now, run.follows.later later, rfl⟩
      · exact ih below
  | reordered run same ih => exact ih suffix

theorem settled_of_report {past before : List ServiceEvent}
    {fileItems : List ServiceStatisticsFile}
    (suffix : .reported fileItems :: before <:+ past) :
    acceptedOrders before ⊆ settledOrders past := by
  induction past with
  | nil => exact absurd (List.suffix_nil.mp suffix) (List.cons_ne_nil _ _)
  | cons event past ih =>
      rcases List.suffix_cons_iff.mp suffix with same | below
      · cases same
        exact Finset.Subset.refl _
      · cases event with
        | accepted unit counter => exact ih below
        | refused unit counter => exact ih below
        | reported fileItems => exact (ih below).trans (settledOrders_subset past)

/-- The report that counts an order: the one that was taken when the order was new. -/
theorem existsUnique_report {past : List ServiceEvent}
    {order : ServiceUnit × ServiceUnitCounter} (settled : order ∈ settledOrders past) :
    ∃! before, (∃ fileItems, .reported fileItems :: before <:+ past) ∧
      order ∈ newOrders before := by
  induction past with
  | nil => exact absurd settled (Finset.notMem_empty _)
  | cons event past ih =>
      have lift : order ∈ settledOrders past →
          (∀ fileItems, event = .reported fileItems → order ∉ newOrders past) →
          ∃! before, (∃ fileItems, .reported fileItems :: before <:+ event :: past) ∧
            order ∈ newOrders before := by
        intro earlier notHere
        obtain ⟨before, ⟨⟨fileItems, below⟩, new⟩, unique⟩ := ih earlier
        refine ⟨before, ⟨⟨fileItems, below.trans (List.suffix_cons _ _)⟩, new⟩, ?_⟩
        rintro other ⟨⟨fileItems', suffix⟩, new'⟩
        rcases List.suffix_cons_iff.mp suffix with same | below'
        · obtain ⟨rfl, rfl⟩ := List.cons.inj same
          exact absurd new' (notHere fileItems' rfl)
        · exact unique other ⟨⟨fileItems', below'⟩, new'⟩
      cases event with
      | accepted unit counter => exact lift settled fun _ eq => by cases eq
      | refused unit counter => exact lift settled fun _ eq => by cases eq
      | reported fileItems =>
          by_cases earlier : order ∈ settledOrders past
          · exact lift earlier fun _ _ new => (Finset.mem_sdiff.mp new).2 earlier
          · refine ⟨past, ⟨⟨fileItems, List.suffix_rfl⟩,
              Finset.mem_sdiff.mpr ⟨settled, earlier⟩⟩, ?_⟩
            rintro other ⟨⟨fileItems', suffix⟩, new⟩
            rcases List.suffix_cons_iff.mp suffix with same | below
            · exact (List.cons.inj same).2
            · exact absurd (settled_of_report below (Finset.mem_sdiff.mp new).1) earlier

/-- Every report of a run names each file of a unit once, each peer once below it, and
counts of each unit exactly the orders that were accepted since the report before it and
never earlier. So an order that is accepted counts in exactly one of the reports. -/
theorem reports_count_orders_once {past : List ServiceEvent} {service : ServiceCounter}
    {now : ℤ} (run : ServiceRun past service now) :
    (∀ fileItems before, .reported fileItems :: before <:+ past →
      OncePerUnit fileItems ∧ ∀ unit count, (unit, count) ∈ reportLines fileItems ↔
        count ≠ 0 ∧ count.toNat = ((newOrders before).filter fun order => order.1 = unit).card) ∧
    ∀ order, (∃ fileItems before, .reported fileItems :: before <:+ past ∧
        order ∈ acceptedOrders before) →
      ∃! before, (∃ fileItems, .reported fileItems :: before <:+ past) ∧
        order ∈ newOrders before := by
  constructor
  · intro fileItems before suffix
    obtain ⟨service', now', follows, rfl⟩ := before_report run suffix
    refine ⟨oncePerUnit_take now' service', ?_⟩
    intro unit count
    rw [mem_reportLines_take follows.sized, follows.newCounters_card]
  · rintro order ⟨fileItems, before, suffix, accepted⟩
    exact existsUnique_report (settled_of_report suffix accepted)

def pieceUnit : ServiceUnit := ⟨"file", "unit", "peer"⟩

def pieceOrder (session : String) : ServiceUnitCounter := ⟨session, 0, 3600⟩

/-- Two orders of a unit, the first of which is served twice. -/
def servedTwice : Checked ServiceCounter :=
  ServiceCounter.served 0 pieceUnit (pieceOrder "first") ⟨∅⟩ >>=
    ServiceCounter.served 1 pieceUnit (pieceOrder "first") >>=
    ServiceCounter.served 2 pieceUnit (pieceOrder "second")

theorem servedTwice_isOk : servedTwice.isOk = true := by decide +kernel

def twiceServed : ServiceCounter := okValue _ servedTwice_isOk

theorem servedAgain_isOk : (ServiceCounter.served 4 pieceUnit (pieceOrder "first")
    (twiceServed.takeStatisticsInfo 3).2).isOk = true := by decide +kernel

def againServed : ServiceCounter := okValue _ servedAgain_isOk

theorem againServed_run : ServiceRun [.reported (againServed.takeStatisticsInfo 5).1,
    .accepted pieceUnit (pieceOrder "first"), .reported (twiceServed.takeStatisticsInfo 3).1,
    .accepted pieceUnit (pieceOrder "second"), .accepted pieceUnit (pieceOrder "first"),
    .accepted pieceUnit (pieceOrder "first")] (againServed.takeStatisticsInfo 5).2 5 := by
  obtain ⟨_, hserved, hsecond⟩ := bind_ok_iff.mp (eq_okValue servedTwice_isOk)
  obtain ⟨_, hfirst, hagain⟩ := bind_ok_iff.mp hserved
  have before := (((ServiceRun.start 0).accepted (le_refl 0) hfirst).accepted
    (show (0 : ℤ) ≤ 1 by decide) hagain).accepted (show (1 : ℤ) ≤ 2 by decide) hsecond
  have between := before.reported (show (2 : ℤ) ≤ 3 by decide)
  exact (between.accepted (show (3 : ℤ) ≤ 4 by decide) (eq_okValue servedAgain_isOk)).reported
    (show (4 : ℤ) ≤ 5 by decide)

/-- The first report counts both orders, and the next one no order that comes again. -/
theorem repeated_order_counted :
    (pieceUnit, (2 : UInt64)) ∈ reportLines (twiceServed.takeStatisticsInfo 3).1 ∧
      ∀ count, (pieceUnit, count) ∉ reportLines (againServed.takeStatisticsInfo 5).1 := by
  have counted := (reports_count_orders_once againServed_run).1
  constructor
  · refine ((counted _ _ ((List.suffix_cons _ _).trans (List.suffix_cons _ _))).2 _ _).mpr
      ⟨by decide, ?_⟩
    decide +kernel
  · intro count hmem
    obtain ⟨hne, hcount⟩ := ((counted _ _ List.suffix_rfl).2 _ _).mp hmem
    have hnone : (newOrders [.accepted pieceUnit (pieceOrder "first"),
        .reported (twiceServed.takeStatisticsInfo 3).1,
        .accepted pieceUnit (pieceOrder "second"), .accepted pieceUnit (pieceOrder "first"),
        .accepted pieceUnit (pieceOrder "first")]) = ∅ := by decide +kernel
    rw [hnone, Finset.filter_empty, Finset.card_empty] at hcount
    exact hne (UInt64.toNat_inj.mp hcount)

end ServiceRun

end Publiq
