import Publiq.Common
import Publiq.Foundation.Checked
import Publiq.Foundation.UnorderedMap
import Mathlib.Data.Finset.Card
import Mathlib.Data.Finset.Image

/-! `detail::service_counter`: the storage orders that were served, each counted in
one report of the channel or the storage. -/
namespace Publiq
open Message Checked

/-- `service_unit`. -/
structure ServiceUnit where
  fileUri : String
  contentUnitUri : String
  peerAddress : String
  deriving DecidableEq

/-- `service_unit_counter`, the time point in nanoseconds. -/
structure ServiceUnitCounter where
  sessionId : String
  timePoint : ℤ
  seconds : UInt64
  deriving DecidableEq

namespace ServiceUnitCounter

/-- `time_point + chrono::seconds(seconds)`, which wraps as the clock's word does. -/
def endPoint (counter : ServiceUnitCounter) : ℤ :=
  Int.bmod (counter.timePoint + fromTimeT counter.seconds.toNat) (2 ^ 64)

/-- `chrono::seconds(NODES_TIME_SHIFT)`. -/
def shift : ℤ := nodesTimeShift * 1000000000

def Expired (now : ℤ) (counter : ServiceUnitCounter) : Prop := counter.endPoint ≤ now - shift

instance (now : ℤ) (counter : ServiceUnitCounter) : Decidable (counter.Expired now) :=
  inferInstanceAs (Decidable (_ ≤ _))

theorem Expired.mono {counter : ServiceUnitCounter} {now later : ℤ} (le : now ≤ later)
    (expired : counter.Expired now) : counter.Expired later := by
  unfold Expired at *
  omega

end ServiceUnitCounter

/-- `service_unit_counter_map`: whether a counter is in a report already. -/
abbrev ServiceUnitCounterMap := UnorderedMap ServiceUnitCounter Bool

/-- `service_counter`, its `m_served`. -/
structure ServiceCounter where
  units : UnorderedMap ServiceUnit ServiceUnitCounterMap

namespace ServiceCounter

/-- `service_counter::served`. The size of a map is a `size_t`. -/
def served (now : ℤ) (unit : ServiceUnit) (counter : ServiceUnitCounter)
    (service : ServiceCounter) : Checked ServiceCounter := do
  require (¬ now + ServiceUnitCounter.shift < counter.timePoint)
    (.logicError "unit_counter.time_point > now + chrono::seconds(NODES_TIME_SHIFT)")
  require (¬ counter.Expired now)
    (.logicError ("unit_counter.time_point + chrono::seconds(unit_counter.seconds) <= " ++
      "now - chrono::seconds(NODES_TIME_SHIFT)"))
  let counters := ((service.units.find? unit).getD ∅).insert counter false
  require (counters.entries.length < 2 ^ 64) (.runtimeError "std::bad_alloc")
  pure ⟨(service.units.insert unit ∅).modify unit fun counters => counters.insert counter false⟩

/-- `++stat_count.count` for each counter that no report has counted. -/
def countNew (counters : ServiceUnitCounterMap) : UInt64 :=
  counters.entries.foldl (fun count entry => if entry.2 then count else count + 1) 0

def keepCounted (now : ℤ) (counters : ServiceUnitCounterMap) : ServiceUnitCounterMap :=
  counters.filterMap fun counter _ => if counter.Expired now then none else some true

/-- What `take_statistics_info` builds while it walks the units. -/
structure Tally where
  /-- The place of an item in `file_items`, by the unit and the file. -/
  index : UnorderedMap (String × String) ℕ
  fileItems : List ServiceStatisticsFile

def Tally.push (tally : Tally) (unit : ServiceUnit) (count : UInt64) : Tally :=
  let statCount : ServiceStatisticsCount := { count, peerAddress := unit.peerAddress }
  match tally.index.find? (unit.contentUnitUri, unit.fileUri) with
  | some place =>
      { tally with
        fileItems := tally.fileItems.modify place fun statFile =>
          { statFile with countItems := statFile.countItems ++ [statCount] } }
  | none =>
      { index := tally.index.insert (unit.contentUnitUri, unit.fileUri) tally.fileItems.length
        fileItems := tally.fileItems ++
          [{ fileUri := unit.fileUri, unitUri := unit.contentUnitUri, countItems := [statCount] }] }

/-- The walk over the units: those with nothing new are left out. -/
def tallyUnits : List (ServiceUnit × ServiceUnitCounterMap) → Tally → Tally
  | [], tally => tally
  | (unit, counters) :: rest, tally =>
      tallyUnits rest
        (if countNew counters = 0 then tally else tally.push unit (countNew counters))

/-- `service_counter::take_statistics_info`: the `file_items`, and what is left. -/
def takeStatisticsInfo (now : ℤ) (service : ServiceCounter) :
    List ServiceStatisticsFile × ServiceCounter :=
  ((tallyUnits service.units.entries ⟨∅, []⟩).fileItems,
    ⟨service.units.filterMap fun _ counters =>
      if (keepCounted now counters).entries = [] then none else some (keepCounted now counters)⟩)

def flag (service : ServiceCounter) (unit : ServiceUnit) (counter : ServiceUnitCounter) :
    Option Bool :=
  (service.units.find? unit).bind fun counters => counters.find? counter

def newCounters (service : ServiceCounter) (unit : ServiceUnit) : Finset ServiceUnitCounter :=
  ((((service.units.find? unit).getD ∅).entries.filter fun entry => !entry.2).map
    Prod.fst).toFinset

theorem mem_newCounters {service : ServiceCounter} {unit : ServiceUnit}
    {counter : ServiceUnitCounter} :
    counter ∈ service.newCounters unit ↔ service.flag unit counter = some false := by
  unfold newCounters flag
  cases service.units.find? unit with
  | none => simp [show (∅ : ServiceUnitCounterMap).entries = [] from rfl]
  | some counters =>
      simp [UnorderedMap.find?_eq_some_iff]

/-- What a `served` that does not throw has checked, and what it does to every flag. -/
theorem served_ok_iff {now : ℤ} {unit : ServiceUnit} {counter : ServiceUnitCounter}
    {service service' : ServiceCounter} :
    served now unit counter service = .ok service' ↔
      ¬ now + ServiceUnitCounter.shift < counter.timePoint ∧ ¬ counter.Expired now ∧
      (((service.units.find? unit).getD ∅).insert counter false).entries.length < 2 ^ 64 ∧
      (⟨(service.units.insert unit ∅).modify unit fun counters =>
        counters.insert counter false⟩ : ServiceCounter) = service' := by
  unfold served
  rw [require_bind_ok_iff, require_bind_ok_iff]
  simp only
  rw [require_bind_ok_iff, pure_ok_iff]

theorem find?_served {now : ℤ} {unit : ServiceUnit} {counter : ServiceUnitCounter}
    {service service' : ServiceCounter}
    (h : served now unit counter service = .ok service') (unit' : ServiceUnit) :
    service'.units.find? unit' = if unit' = unit
      then some (((service.units.find? unit).getD ∅).insert counter false)
      else service.units.find? unit' := by
  obtain ⟨-, -, -, rfl⟩ := served_ok_iff.mp h
  rw [UnorderedMap.find?_modify]
  by_cases same : unit' = unit
  · rw [if_pos same, if_pos same, same, UnorderedMap.find?_insert_self]
    rfl
  · rw [if_neg same, if_neg same, UnorderedMap.find?_insert_ne _ _ same]

theorem flag_served_self {now : ℤ} {unit : ServiceUnit} {counter : ServiceUnitCounter}
    {service service' : ServiceCounter}
    (h : served now unit counter service = .ok service') :
    service'.flag unit counter = some ((service.flag unit counter).getD false) := by
  unfold flag
  rw [find?_served h, if_pos rfl]
  change (UnorderedMap.insert _ counter false).find? counter = _
  rw [UnorderedMap.find?_insert_self]
  cases service.units.find? unit with
  | none => rfl
  | some counters => rfl

theorem flag_served_ne {now : ℤ} {unit unit' : ServiceUnit}
    {counter counter' : ServiceUnitCounter} {service service' : ServiceCounter}
    (h : served now unit counter service = .ok service')
    (ne : (unit', counter') ≠ (unit, counter)) :
    service'.flag unit' counter' = service.flag unit' counter' := by
  unfold flag
  rw [find?_served h]
  by_cases same : unit' = unit
  · subst same
    have other : counter' ≠ counter := fun eq => ne (eq ▸ rfl)
    rw [if_pos rfl]
    change (UnorderedMap.insert _ counter false).find? counter' = _
    rw [UnorderedMap.find?_insert_ne _ _ other]
    cases service.units.find? unit' with
    | none => rfl
    | some counters => rfl
  · rw [if_neg same]

theorem find?_take (now : ℤ) (service : ServiceCounter) (unit : ServiceUnit) :
    (takeStatisticsInfo now service).2.units.find? unit =
      (service.units.find? unit).bind fun counters =>
        if (keepCounted now counters).entries = [] then none
        else some (keepCounted now counters) := by
  unfold takeStatisticsInfo
  simp only
  rw [UnorderedMap.find?_filterMap]

theorem flag_take (now : ℤ) (service : ServiceCounter) (unit : ServiceUnit)
    (counter : ServiceUnitCounter) :
    (takeStatisticsInfo now service).2.flag unit counter =
      if counter.Expired now then none else (service.flag unit counter).map fun _ => true := by
  have kept : ∀ counters : ServiceUnitCounterMap,
      (keepCounted now counters).find? counter =
        if counter.Expired now then none else (counters.find? counter).map fun _ => true := by
    intro counters
    rw [keepCounted, UnorderedMap.find?_filterMap]
    by_cases expired : counter.Expired now
    · simp [expired]
    · simp only [expired, if_false]
      cases counters.find? counter with
      | none => rfl
      | some b => rfl
  unfold flag
  rw [find?_take]
  cases service.units.find? unit with
  | none => simp
  | some counters =>
      simp only [Option.bind_some]
      rw [← kept]
      by_cases empty : (keepCounted now counters).entries = []
      · have none : (keepCounted now counters).find? counter = none := by
          rw [UnorderedMap.find?_eq_none_iff, UnorderedMap.keys, empty]
          exact List.not_mem_nil
        rw [if_pos empty, none]
        rfl
      · rw [if_neg empty]
        rfl

/-- No unit of the walk has more counters than a `size_t` counts. -/
def Sized (service : ServiceCounter) : Prop :=
  ∀ unit counters, service.units.find? unit = some counters → counters.entries.length < 2 ^ 64

theorem Sized.served {now : ℤ} {unit : ServiceUnit} {counter : ServiceUnitCounter}
    {service service' : ServiceCounter} (sized : service.Sized)
    (h : served now unit counter service = .ok service') : service'.Sized := by
  intro unit' counters found
  obtain ⟨-, -, room, -⟩ := served_ok_iff.mp h
  rw [find?_served h] at found
  by_cases same : unit' = unit
  · rw [if_pos same] at found
    cases found
    exact room
  · rw [if_neg same] at found
    exact sized unit' counters found

theorem Sized.take {service : ServiceCounter} (sized : service.Sized) (now : ℤ) :
    (takeStatisticsInfo now service).2.Sized := by
  intro unit counters found
  rw [find?_take] at found
  obtain ⟨before, foundBefore, kept⟩ := Option.bind_eq_some_iff.mp found
  by_cases empty : (keepCounted now before).entries = []
  · rw [if_pos empty] at kept
    cases kept
  · rw [if_neg empty] at kept
    cases kept
    exact (List.length_filterMap_le _ _).trans_lt (sized unit before foundBefore)

/-- The counter of the walk does not wrap: it is the number of the new counters. -/
theorem countNew_toNat {service : ServiceCounter} (sized : service.Sized) {unit : ServiceUnit}
    {counters : ServiceUnitCounterMap} (found : service.units.find? unit = some counters) :
    (countNew counters).toNat = (service.newCounters unit).card := by
  have loop : ∀ (entries : List (ServiceUnitCounter × Bool)) (count : UInt64),
      count.toNat + entries.length < 2 ^ 64 →
      (entries.foldl (fun count entry => if entry.2 then count else count + 1) count).toNat =
        count.toNat + (entries.filter fun entry => !entry.2).length := by
    intro entries
    induction entries with
    | nil => intro count _; rfl
    | cons entry rest ih =>
        intro count room
        rw [List.length_cons] at room
        rw [List.foldl_cons]
        cases counted : entry.2 with
        | true =>
            rw [if_pos rfl, ih count (by omega), List.filter_cons_of_neg (by simp [counted])]
        | false =>
            have next : (count + 1).toNat = count.toNat + 1 := by
              rw [UInt64.toNat_add]
              exact Nat.mod_eq_of_lt (by change count.toNat + 1 < 2 ^ 64; omega)
            rw [if_neg Bool.false_ne_true, ih _ (by omega),
              List.filter_cons_of_pos (by simp [counted]), List.length_cons, next]
            omega
  have nodup : ((counters.entries.filter fun entry => !entry.2).map Prod.fst).Nodup :=
    counters.distinct.sublist (List.filter_sublist.map Prod.fst)
  rw [countNew, loop _ 0 (by simpa using sized unit counters found), newCounters, found,
    Option.getD_some, List.toFinset_card_of_nodup nodup, List.length_map]
  exact Nat.zero_add _

end ServiceCounter

end Publiq
