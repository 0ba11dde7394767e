import Publiq.Commander

/-! The histories that the explorer keeps of one content: the approved contents in their order,
the latest of them marked, and behind them the units that no content has approved yet. What is
done to them can be taken back from the end. -/
namespace Publiq
open Checked CommanderMessage

abbrev ShownUnits := Std.ExtTreeMap String CommanderMessage.ContentUnit

theorem shownUnits_isEmpty_iff {units : ShownUnits} :
    units.isEmpty = true ↔ ∀ uri : String, units[uri]? = none := by
  rw [Std.ExtTreeMap.isEmpty_iff]
  constructor
  · rintro rfl uri
    exact Std.ExtTreeMap.getElem?_empty
  · intro h
    apply Std.ExtTreeMap.ext_getElem?
    intro uri
    rw [h uri, Std.ExtTreeMap.getElem?_empty]

/-- A content as a shelf: the units of every approval, the earliest first, and the units that
wait for one. -/
structure Shelf where
  approved : List ShownUnits
  pending : ShownUnits

namespace Shelf

def findApproved (shelf : Shelf) (uri : String) : Option CommanderMessage.ContentUnit :=
  shelf.approved.reverse.findSome? (·[uri]?)

def find (shelf : Shelf) (uri : String) : Option CommanderMessage.ContentUnit :=
  shelf.pending[uri]?.or (shelf.findApproved uri)

def add (uri : String) (unit : CommanderMessage.ContentUnit) (shelf : Shelf) : Shelf :=
  { shelf with pending := shelf.pending.insert uri unit }

def chosen (uris : List String) (shelf : Shelf) : ShownUnits :=
  uris.foldl (fun units uri => match shelf.find uri with
    | some unit => units.insert uri unit
    | none => units) ∅

def left (uris : List String) (shelf : Shelf) : ShownUnits :=
  shelf.pending.filter fun uri _ => uri ∉ uris

def approve (uris : List String) (shelf : Shelf) : Shelf :=
  ⟨shelf.approved ++ [shelf.chosen uris], shelf.left uris⟩

/-- No unit both waits and is approved, and no approval is empty. -/
structure Tidy (shelf : Shelf) : Prop where
  apart : ∀ uri : String, shelf.pending[uri]? ≠ none → shelf.findApproved uri = none
  filled : ∀ units ∈ shelf.approved, units.isEmpty = false

theorem getElem?_left (uris : List String) (shelf : Shelf) (uri : String) :
    (shelf.left uris)[uri]? = if uri ∈ uris then none else shelf.pending[uri]? := by
  unfold left
  rw [Std.ExtTreeMap.getElem?_filter']
  by_cases h : uri ∈ uris
  · simp [h]
  · cases hp : shelf.pending[uri]? <;> simp [h]

theorem getElem?_chosen (uris : List String) (shelf : Shelf) (uri : String) :
    (shelf.chosen uris)[uri]? = if uri ∈ uris then shelf.find uri else none := by
  unfold chosen
  induction uris using List.reverseRecOn with
  | nil => simp
  | append_singleton rest last ih =>
      rw [List.foldl_append, List.foldl_cons, List.foldl_nil]
      by_cases hkey : last = uri
      · subst hkey
        cases hfind : shelf.find last with
        | none =>
            simp only
            rw [ih]
            split_ifs <;> simp [hfind]
        | some unit => simp
      · have hother : (uri ∈ rest ++ [last]) ↔ uri ∈ rest := by
          rw [List.mem_append, List.mem_singleton]
          exact or_iff_left fun h => hkey h.symm
        simp only [hother]
        cases hfind : shelf.find last with
        | none => exact ih
        | some unit =>
            simp only
            rw [Std.ExtTreeMap.getElem?_insert, if_neg (by simpa using hkey)]
            exact ih

theorem findApproved_approve (uris : List String) (shelf : Shelf) (uri : String) :
    (shelf.approve uris).findApproved uri =
      (shelf.chosen uris)[uri]?.or (shelf.findApproved uri) := by
  unfold findApproved approve
  rw [List.reverse_append, List.reverse_singleton, List.singleton_append, List.findSome?_cons]
  cases (shelf.chosen uris)[uri]? <;> rfl

theorem find_approve (uris : List String) (shelf : Shelf) (uri : String) :
    (shelf.approve uris).find uri = shelf.find uri := by
  unfold find
  rw [findApproved_approve, getElem?_chosen]
  change (shelf.left uris)[uri]?.or _ = _
  rw [getElem?_left]
  unfold find
  split_ifs
  · cases shelf.pending[uri]? <;> cases shelf.findApproved uri <;> rfl
  · cases shelf.pending[uri]? <;> rfl

theorem find_add (uri : String) (unit : CommanderMessage.ContentUnit) (shelf : Shelf)
    (other : String) : (shelf.add uri unit).find other =
      if uri = other then some unit else shelf.find other := by
  unfold find
  change (shelf.pending.insert uri unit)[other]?.or (shelf.findApproved other) = _
  rw [Std.ExtTreeMap.getElem?_insert]
  by_cases hkey : uri = other
  · simp [hkey]
  · simp [hkey]

theorem Tidy.add {shelf : Shelf} (tidy : Tidy shelf) {uri : String}
    (new : shelf.find uri = none) (unit : CommanderMessage.ContentUnit) :
    Tidy (shelf.add uri unit) := by
  refine ⟨fun other hother => ?_, tidy.filled⟩
  change shelf.findApproved other = none
  change (shelf.pending.insert uri unit)[other]? ≠ none at hother
  rw [Std.ExtTreeMap.getElem?_insert] at hother
  by_cases hkey : uri = other
  · subst hkey
    exact (Option.or_eq_none_iff.mp new).2
  · rw [if_neg (by simpa using hkey)] at hother
    exact tidy.apart other hother

theorem chosen_isEmpty {shelf : Shelf} {uris : List String} (some_uri : uris ≠ [])
    (found : ∀ uri ∈ uris, shelf.find uri ≠ none) : (shelf.chosen uris).isEmpty = false := by
  obtain ⟨uri, rest, rfl⟩ := List.exists_cons_of_ne_nil some_uri
  rw [Bool.eq_false_iff]
  intro hempty
  have hnone := shownUnits_isEmpty_iff.mp hempty uri
  rw [getElem?_chosen, if_pos List.mem_cons_self] at hnone
  exact found uri List.mem_cons_self hnone

theorem Tidy.approve {shelf : Shelf} (tidy : Tidy shelf) {uris : List String}
    (some_uri : uris ≠ []) (found : ∀ uri ∈ uris, shelf.find uri ≠ none) :
    Tidy (shelf.approve uris) := by
  refine ⟨fun uri hpending => ?_, fun units hunits => ?_⟩
  · change (shelf.left uris)[uri]? ≠ none at hpending
    rw [getElem?_left] at hpending
    split_ifs at hpending with hmem
    · exact absurd rfl hpending
    · rw [findApproved_approve, getElem?_chosen, if_neg hmem]
      exact tidy.apart uri hpending
  · rcases List.mem_append.mp hunits with hunits | hunits
    · exact tidy.filled units hunits
    · rw [List.mem_singleton.mp hunits]
      exact chosen_isEmpty some_uri found

def approvedContents (approved : List ShownUnits) : List Content :=
  match approved.getLast? with
  | none => []
  | some last => approved.dropLast.map (⟨false, ·⟩) ++ [⟨true, last⟩]

@[simp] theorem approvedContents_nil : approvedContents [] = [] := rfl

@[simp] theorem approvedContents_concat (approved : List ShownUnits) (last : ShownUnits) :
    approvedContents (approved ++ [last]) = approved.map (⟨false, ·⟩) ++ [⟨true, last⟩] := by
  simp [approvedContents]

/-- What the explorer lists behind them. An empty content may stay behind when an approval
is taken back. -/
def Behind (shelf : Shelf) (tail : List Content) : Prop :=
  tail = [⟨false, shelf.pending⟩] ∨ tail = [] ∧ shelf.pending = ∅

def Shown (shelf : Shelf) : Option (List Content) → Prop
  | none => shelf.approved = [] ∧ shelf.pending = ∅
  | some histories => (shelf.approved ≠ [] ∨ shelf.pending ≠ ∅) ∧
      ∃ tail, histories = approvedContents shelf.approved ++ tail ∧ Behind shelf tail

def contents (shelf : Shelf) : List Content :=
  approvedContents shelf.approved ++ if shelf.pending.isEmpty then [] else [⟨false, shelf.pending⟩]

theorem contents_eq (shelf : Shelf) :
    ∃ tail, shelf.contents = approvedContents shelf.approved ++ tail ∧ Behind shelf tail := by
  refine ⟨_, rfl, ?_⟩
  by_cases hempty : shelf.pending.isEmpty = true
  · exact .inr ⟨if_pos hempty, Std.ExtTreeMap.isEmpty_iff.mp hempty⟩
  · exact .inl (if_neg hempty)

theorem getLast?_approvedContents {approved : List ShownUnits} (some_units : approved ≠ []) :
    ∃ older last, approved = older ++ [last] ∧
      approvedContents approved = older.map (⟨false, ·⟩) ++ [⟨true, last⟩] := by
  rcases List.eq_nil_or_concat' approved with rfl | ⟨older, last, rfl⟩
  · exact absurd rfl some_units
  · exact ⟨older, last, rfl, approvedContents_concat older last⟩

end Shelf

namespace Histories
open Shelf

variable {shelf : Shelf} {tail : List Content} {uri : String}
  {unit : CommanderMessage.ContentUnit} {uris : List String}

theorem addUnit_ok (behind : Behind shelf tail)
    (some_content : shelf.approved ≠ [] ∨ shelf.pending ≠ ∅) :
    addUnit uri unit (approvedContents shelf.approved ++ tail) =
      .ok (approvedContents shelf.approved ++ [⟨false, shelf.pending.insert uri unit⟩]) := by
  rcases behind with rfl | ⟨rfl, hpending⟩
  · simp [addUnit]
    rfl
  · obtain ⟨older, last, _, hcontents⟩ :=
      getLast?_approvedContents (some_content.resolve_right fun h => h hpending)
    rw [List.append_nil, hcontents, hpending]
    simp [addUnit]
    rfl

/-- The unit added last is removed again. -/
theorem removeUnit_ok (behind : Behind (shelf.add uri unit) tail)
    (new : shelf.pending[uri]? = none) :
    removeUnit uri (approvedContents shelf.approved ++ tail) =
      .ok (approvedContents shelf.approved ++
        if shelf.pending.isEmpty then [] else [⟨false, shelf.pending⟩]) := by
  have hadded : (shelf.add uri unit).pending = shelf.pending.insert uri unit := rfl
  have herase : (shelf.pending.insert uri unit).erase uri = shelf.pending := by
    apply Std.ExtTreeMap.ext_getElem?
    intro other
    rw [Std.ExtTreeMap.getElem?_erase, Std.ExtTreeMap.getElem?_insert]
    by_cases hkey : uri = other
    · simp [← hkey, new]
    · simp [hkey]
  rcases behind with rfl | ⟨_, hpending⟩
  · rw [hadded]
    unfold removeUnit
    rw [List.getLast?_append_of_ne_nil _ (List.cons_ne_nil _ _), List.getLast?_singleton]
    simp only
    rw [require_true (by simp), ok_bind, require_true trivial, ok_bind, herase,
      List.dropLast_concat]
    by_cases hempty : shelf.pending.isEmpty = true
    · simp [hempty]
      rfl
    · simp [hempty]
      rfl
  · have hsome : (shelf.pending.insert uri unit)[uri]? = some unit := by simp
    rw [← hadded, hpending, Std.ExtTreeMap.getElem?_empty] at hsome
    cases hsome

theorem findUnit_eq (behind : Behind shelf tail) (uri : String) :
    findUnit uri (approvedContents shelf.approved ++ tail) = shelf.find uri := by
  have happroved : (approvedContents shelf.approved).reverse.findSome? (·.contentUnits[uri]?) =
      shelf.findApproved uri := by
    unfold findApproved
    rcases List.eq_nil_or_concat' shelf.approved with hnil | ⟨older, last, hconcat⟩
    · rw [hnil]
      rfl
    · rw [hconcat, approvedContents_concat, List.reverse_append, List.reverse_append,
        List.reverse_singleton, List.reverse_singleton, List.singleton_append,
        List.singleton_append, List.findSome?_cons, List.findSome?_cons, ← List.map_reverse,
        List.findSome?_map]
      rfl
  unfold findUnit find
  rw [List.reverse_append, List.findSome?_append, happroved]
  rcases behind with rfl | ⟨rfl, hpending⟩
  · rw [List.reverse_singleton, List.findSome?_singleton]
  · rw [hpending, Std.ExtTreeMap.getElem?_empty]
    rfl

theorem takeUnit_eq (uri : String) (behind : Behind shelf tail)
    (some_content : shelf.approved ≠ [] ∨ shelf.pending ≠ ∅) :
    takeUnit uri (approvedContents shelf.approved ++ tail) = approvedContents shelf.approved ++
      if tail = [] then [] else [⟨false, shelf.pending.erase uri⟩] := by
  unfold takeUnit
  rcases behind with rfl | ⟨rfl, hpending⟩
  · simp
  · obtain ⟨older, last, _, hcontents⟩ :=
      getLast?_approvedContents (some_content.resolve_right fun h => h hpending)
    rw [hcontents]
    simp

/-- The units of the new content are collected one after another: each of them is found, a
second time only if it was approved before. -/
theorem collect_ok (tidy : Tidy shelf) (behind : Behind shelf tail)
    (found : ∀ uri ∈ uris, shelf.find uri ≠ none)
    (once : ∀ uri, 1 < uris.count uri → shelf.findApproved uri ≠ none) :
    ∃ rest units, collect uris (approvedContents shelf.approved ++ tail, ∅) =
        .ok (approvedContents shelf.approved ++ rest, units) ∧
      units = shelf.chosen uris ∧ Behind { shelf with pending := shelf.left uris } rest := by
  induction uris using List.reverseRecOn with
  | nil =>
      have hleft : shelf.left [] = shelf.pending := by
        apply Std.ExtTreeMap.ext_getElem?
        intro uri
        rw [getElem?_left]
        rfl
      refine ⟨tail, ∅, rfl, rfl, ?_⟩
      rw [hleft]
      exact behind
  | append_singleton first uri ih =>
      obtain ⟨rest, units, hfirst, hunits, hrest⟩ := ih
        (fun other hother => found other (List.mem_append_left _ hother))
        (fun other hcount => once other (by rw [List.count_append]; omega))
      have hfound : ({ shelf with pending := shelf.left first } : Shelf).find uri =
          shelf.find uri := by
        unfold find
        change (shelf.left first)[uri]?.or (shelf.findApproved uri) = _
        rw [getElem?_left]
        split_ifs with hmem
        · have htwice := once uri (by
            rw [List.count_append, List.count_singleton_self]
            have := List.count_pos_iff.mpr hmem
            omega)
          have hgone : shelf.pending[uri]? = none := by
            by_contra hpending
            exact htwice (tidy.apart uri hpending)
          rw [hgone]
        · rfl
      obtain ⟨unit, hunit⟩ := Option.ne_none_iff_exists'.mp
        (found uri (List.mem_append_right _ List.mem_cons_self))
      refine ⟨if rest = [] then [] else [⟨false, (shelf.left first).erase uri⟩],
        units.insert uri unit, ?_, ?_, ?_⟩
      · unfold collect at hfirst ⊢
        rw [runAll_append, hfirst, ok_bind, runAll_singleton]
        have hsearch := findUnit_eq hrest uri
        have htake := takeUnit_eq uri hrest (by
          by_cases happroved : shelf.approved = []
          · refine .inr fun hempty => ?_
            change shelf.left first = ∅ at hempty
            rw [hunit] at hfound
            have hnone : ({ shelf with pending := shelf.left first } : Shelf).find uri = none := by
              unfold find findApproved
              change (shelf.left first)[uri]?.or (shelf.approved.reverse.findSome? _) = none
              rw [hempty, happroved, Std.ExtTreeMap.getElem?_empty]
              rfl
            rw [hnone] at hfound
            cases hfound
          · exact .inl happroved)
        rw [hfound, hunit] at hsearch
        change findUnit uri (approvedContents shelf.approved ++ rest) = _ at hsearch
        simp only [hsearch]
        exact congrArg (fun hs => Except.ok (hs, units.insert uri unit)) htake
      · rw [hunits]
        unfold chosen
        rw [List.foldl_append, List.foldl_cons, List.foldl_nil]
        simp only [hunit]
      · have hleft : (shelf.left first).erase uri = shelf.left (first ++ [uri]) := by
          apply Std.ExtTreeMap.ext_getElem?
          intro other
          rw [Std.ExtTreeMap.getElem?_erase, getElem?_left, getElem?_left]
          by_cases hkey : uri = other
          · simp [hkey]
          · simp [hkey, Ne.symm hkey]
        rcases hrest with rfl | ⟨rfl, hpending⟩
        · left
          rw [if_neg (List.cons_ne_nil _ _), hleft]
        · right
          refine ⟨if_pos rfl, ?_⟩
          change shelf.left first = ∅ at hpending
          change shelf.left (first ++ [uri]) = ∅
          rw [← hleft, hpending, Std.ExtTreeMap.erase_empty]

theorem placeBehind_eq (content : Content) (older : List ShownUnits) (last : ShownUnits)
    (rest : List Content) : placeBehind content (older.map (⟨false, ·⟩) ++ ⟨true, last⟩ :: rest) =
      older.map (⟨false, ·⟩) ++ ⟨false, last⟩ :: content :: rest := by
  induction older with
  | nil => rfl
  | cons first older ih =>
      rw [List.map_cons, List.cons_append, placeBehind, if_neg Bool.false_ne_true, ih]
      rfl

/-- A content is placed behind the approved ones, and before what waits. -/
theorem place_eq (approved : List ShownUnits) (units : ShownUnits) {rest : List Content}
    (behind : rest = [] ∨ ∃ waiting, rest = [⟨false, waiting⟩]) :
    place ⟨true, units⟩ (approvedContents approved ++ rest) =
      approvedContents (approved ++ [units]) ++ rest := by
  rcases List.eq_nil_or_concat' approved with rfl | ⟨older, last, rfl⟩
  · rcases behind with rfl | ⟨waiting, rfl⟩
    · rfl
    · rfl
  · have hplace : place ⟨true, units⟩ (older.map (⟨false, ·⟩) ++ ⟨true, last⟩ :: rest) =
        placeBehind ⟨true, units⟩ (older.map (⟨false, ·⟩) ++ ⟨true, last⟩ :: rest) := by
      rcases older with _ | ⟨first, _ | ⟨second, older⟩⟩
      · rcases rest with _ | ⟨next, rest⟩
        · rfl
        · rfl
      · rfl
      · rfl
    rw [approvedContents_concat, approvedContents_concat, List.append_assoc,
      List.singleton_append, hplace, placeBehind_eq]
    simp

theorem dropEmpty_eq (tidy : Tidy shelf) {rest : List Content} {waiting : ShownUnits}
    (behind : rest = [⟨false, waiting⟩] ∨ rest = [] ∧ waiting = ∅) :
    dropEmpty (approvedContents shelf.approved ++ rest) = approvedContents shelf.approved ++
      if waiting.isEmpty then [] else [⟨false, waiting⟩] := by
  unfold dropEmpty
  rcases behind with rfl | ⟨rfl, rfl⟩
  · by_cases hempty : waiting.isEmpty = true
    · simp [hempty]
    · simp [hempty]
  · have hempty : (∅ : ShownUnits).isEmpty = true := Std.ExtTreeMap.isEmpty_empty
    rw [if_pos hempty]
    by_cases happroved : shelf.approved = []
    · rw [happroved]
      rfl
    · obtain ⟨older, last, hconcat, hcontents⟩ := getLast?_approvedContents happroved
      have hfilled := tidy.filled last (by rw [hconcat]; simp)
      rw [List.append_nil, hcontents, List.getLast?_concat]
      simp [hfilled]

theorem approve_ok (tidy : Tidy shelf) (behind : Behind shelf tail)
    (some_content : shelf.approved ≠ [] ∨ shelf.pending ≠ ∅) (some_uri : uris ≠ [])
    (found : ∀ uri ∈ uris, shelf.find uri ≠ none)
    (once : ∀ uri, 1 < uris.count uri → shelf.findApproved uri ≠ none) :
    approve uris (approvedContents shelf.approved ++ tail) =
      .ok (shelf.approve uris).contents := by
  obtain ⟨rest, units, hcollect, hunits, hrest⟩ := collect_ok tidy behind found once
  unfold approve
  have hhistories : approvedContents shelf.approved ++ tail ≠ [] := by
    rcases behind with rfl | ⟨rfl, hpending⟩
    · simp
    · obtain ⟨older, last, _, hcontents⟩ :=
        getLast?_approvedContents (some_content.resolve_right fun h => h hpending)
      rw [hcontents]
      simp
  rw [require_true hhistories, ok_bind, hcollect, ok_bind]
  simp only
  rw [hunits, require_true (chosen_isEmpty some_uri found), ok_bind, dropEmpty_eq tidy hrest,
    place_eq]
  · rfl
  · by_cases hempty : (shelf.left uris).isEmpty = true
    · exact .inl (if_pos hempty)
    · exact .inr ⟨shelf.left uris, if_neg hempty⟩

/-- A unit that waits is found once: nothing is collected that names it a second time. -/
theorem once_of_collect (tidy : Tidy shelf) (behind : Behind shelf tail)
    (found : ∀ uri ∈ uris, shelf.find uri ≠ none) {result : List Content × ShownUnits}
    (collected : collect uris (approvedContents shelf.approved ++ tail, ∅) = .ok result) :
    ∀ uri, 1 < uris.count uri → shelf.findApproved uri ≠ none := by
  induction uris using List.reverseRecOn generalizing result with
  | nil =>
      intro uri twice
      cases twice
  | append_singleton first last ih =>
      have foundFirst : ∀ uri ∈ first, shelf.find uri ≠ none :=
        fun uri huri => found uri (List.mem_append_left _ huri)
      obtain ⟨mid, hfirst, hlast⟩ := runAll_append_ok_iff.mp collected
      have once := ih foundFirst hfirst
      intro uri twice
      by_cases hkey : uri = last
      · subst hkey
        by_cases hmem : uri ∈ first
        · obtain ⟨rest, units, hcollect, _, hrest⟩ := collect_ok tidy behind foundFirst once
          cases hfirst.symm.trans hcollect
          have hsearch := findUnit_eq hrest uri
          have hfind : ({ shelf with pending := shelf.left first } : Shelf).find uri =
              shelf.findApproved uri := by
            unfold find
            change (shelf.left first)[uri]?.or (shelf.findApproved uri) = _
            rw [getElem?_left, if_pos hmem]
            rfl
          intro hnone
          rw [hfind, hnone] at hsearch
          change findUnit uri (approvedContents shelf.approved ++ rest) = _ at hsearch
          rw [runAll_singleton] at hlast
          simp only [hsearch] at hlast
          cases hlast
        · rw [List.count_append, List.count_eq_zero_of_not_mem hmem,
            List.count_singleton_self] at twice
          omega
      · apply once
        rw [List.count_append, List.count_singleton, beq_eq_false_iff_ne.mpr (Ne.symm hkey)]
          at twice
        simpa using twice

theorem approveLast_eq (approved : List ShownUnits) :
    approveLast (approved.map (⟨false, ·⟩)) = approvedContents approved := by
  rcases List.eq_nil_or_concat' approved with rfl | ⟨older, last, rfl⟩
  · rfl
  · rw [approvedContents_concat, List.map_append]
    simp [approveLast]

def returned (uris : List String) (shelf : Shelf) : ShownUnits :=
  (shelf.chosen uris).filter fun uri _ =>
    (shelf.approved.map (⟨false, ·⟩ : ShownUnits → Content)).all
      fun content => !content.contentUnits.contains uri

theorem all_not_contains (approved : List ShownUnits) (uri : String) :
    ((approved.map (⟨false, ·⟩ : ShownUnits → Content)).all
      fun content => !content.contentUnits.contains uri) =
      (approved.reverse.findSome? (·[uri]?)).isNone := by
  rw [Bool.eq_iff_iff, List.all_eq_true, Option.isNone_iff_eq_none, List.findSome?_eq_none_iff]
  have habsent : ∀ units : ShownUnits,
      (!units.contains uri) = true ↔ units[uri]? = none := by
    intro units
    rw [Std.ExtTreeMap.contains_eq_isSome_getElem?]
    cases units[uri]? <;> simp
  constructor
  · intro h units hunits
    exact (habsent units).mp
      (h ⟨false, units⟩ (List.mem_map_of_mem (List.mem_reverse.mp hunits)))
  · intro h content hcontent
    obtain ⟨units, hunits, rfl⟩ := List.mem_map.mp hcontent
    exact (habsent units).mpr (h units (List.mem_reverse.mpr hunits))

theorem getElem?_returned (tidy : Tidy shelf) (uri : String) :
    (returned uris shelf)[uri]? = if uri ∈ uris then shelf.pending[uri]? else none := by
  unfold returned
  rw [Std.ExtTreeMap.getElem?_filter', getElem?_chosen, all_not_contains]
  change Option.filter (fun _ => (shelf.findApproved uri).isNone) _ = _
  split_ifs
  · unfold find
    cases happroved : shelf.findApproved uri with
    | none => cases shelf.pending[uri]? <;> rfl
    | some unit =>
        have hpending : shelf.pending[uri]? = none := by
          by_contra hsome
          rw [tidy.apart uri hsome] at happroved
          cases happroved
        rw [hpending]
        rfl
  · rfl

/-- The latest approval is taken back: what waited before it waits again. -/
theorem disapprove_ok (tidy : Tidy shelf) (behind : Behind (shelf.approve uris) tail)
    (found : ∀ uri ∈ uris, shelf.find uri ≠ none) :
    disapprove uris (approvedContents (shelf.approve uris).approved ++ tail) =
      .ok (approvedContents shelf.approved ++ [⟨false, shelf.pending⟩]) := by
  have hcontents : approvedContents (shelf.approve uris).approved ++ tail =
      shelf.approved.map (⟨false, ·⟩) ++ ⟨true, shelf.chosen uris⟩ :: tail := by
    unfold Shelf.approve
    rw [approvedContents_concat, List.append_assoc, List.singleton_append]
  have hnone : ∀ content ∈ shelf.approved.map (⟨false, ·⟩ : ShownUnits → Content),
      (!content.approved) = true := by
    intro content hcontent
    obtain ⟨units, _, rfl⟩ := List.mem_map.mp hcontent
    rfl
  have hbefore := @List.takeWhile_append_of_pos _ _ _ (⟨true, shelf.chosen uris⟩ :: tail) hnone
  have hafter := @List.dropWhile_append_of_pos _ _ _ (⟨true, shelf.chosen uris⟩ :: tail) hnone
  rw [List.takeWhile_cons_of_neg (by simp), List.append_nil] at hbefore
  rw [List.dropWhile_cons_of_neg (by simp)] at hafter
  have hcontained : ∀ uri ∈ uris, (shelf.chosen uris).contains uri = true := by
    intro uri huri
    have hfound := found uri huri
    rw [Std.ExtTreeMap.contains_eq_isSome_getElem?, getElem?_chosen, if_pos huri]
    exact Option.isSome_iff_ne_none.mpr hfound
  unfold disapprove
  rw [hcontents, require_true (by simp), ok_bind, hafter, hbefore]
  simp only
  rw [require_true hcontained, ok_bind, approveLast_eq]
  change (if tail = [] then _ else (do
    let after ← giveBack (returned uris shelf) tail
    pure (approvedContents shelf.approved ++ after))) = _
  rcases behind with rfl | ⟨rfl, hpending⟩
  · rw [if_neg (List.cons_ne_nil _ _)]
    have hgiven : giveBack (returned uris shelf) [⟨false, (shelf.approve uris).pending⟩] =
        .ok [⟨false, (shelf.approve uris).pending ∪ returned uris shelf⟩] := by
      unfold giveBack
      rw [List.getLast?_singleton]
      simp only
      rw [require_true, ok_bind]
      · rfl
      · intro uri huri
        have hmem := Std.ExtTreeMap.mem_keys.mp huri
        rw [Std.ExtTreeMap.contains_eq_isSome_getElem?]
        change ((shelf.left uris)[uri]?).isSome = false
        rw [getElem?_left]
        split_ifs with hin
        · rfl
        · rw [Std.ExtTreeMap.mem_iff_isSome_getElem?, getElem?_returned tidy, if_neg hin] at hmem
          cases hmem
    rw [hgiven, ok_bind]
    have hunion : (shelf.approve uris).pending ∪ returned uris shelf = shelf.pending := by
      apply Std.ExtTreeMap.ext_getElem?
      intro uri
      rw [Std.ExtTreeMap.getElem?_union, getElem?_returned tidy]
      change Option.or (if uri ∈ uris then _ else _) (shelf.left uris)[uri]? = _
      rw [getElem?_left]
      split_ifs
      · exact Option.or_none
      · rfl
    rw [hunion]
    rfl
  · rw [if_pos rfl]
    have hreturned : returned uris shelf = shelf.pending := by
      apply Std.ExtTreeMap.ext_getElem?
      intro uri
      rw [getElem?_returned tidy]
      split_ifs with hin
      · rfl
      · change shelf.left uris = ∅ at hpending
        have hgone := congrArg (fun units : ShownUnits => units[uri]?) hpending
        change (shelf.left uris)[uri]? = (∅ : ShownUnits)[uri]? at hgone
        rw [getElem?_left, if_neg hin, Std.ExtTreeMap.getElem?_empty] at hgone
        exact hgone.symm
    change Except.ok (approvedContents shelf.approved ++ [⟨false, returned uris shelf⟩]) = _
    rw [hreturned]

end Histories
end Publiq
