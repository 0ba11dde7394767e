import Publiq.CommanderChannels
import Publiq.RejectedTransactions
import Publiq.Foundation.Along

/-! The channel histories of the explorer while the node applies and reverts transactions: what
a transaction does to them is to be taken back exactly. -/
namespace Publiq
open Message Checked

/-- At most one content is approved, none is empty, and behind the approved one only the last
may wait. -/
structure TidyHistories (histories : List CommanderMessage.Content) : Prop where
  one : histories.countP (·.approved) ≤ 1
  filled : ∀ content ∈ histories, content.contentUnits.isEmpty = false
  last : ∀ before content after, histories = before ++ content :: after →
    content.approved = false → (∀ later ∈ after, later.approved = false) → after = []

namespace Shelf

def shown (shelf : Shelf) : Option (List CommanderMessage.Content) :=
  if shelf.contents = [] then none else some shelf.contents

theorem contents_ne_nil {shelf : Shelf} :
    shelf.contents ≠ [] ↔ shelf.approved ≠ [] ∨ shelf.pending ≠ ∅ := by
  unfold contents
  rw [ne_eq, List.append_eq_nil_iff, not_and_or]
  constructor
  · rintro (approved | waits)
    · left
      rintro empty
      rw [empty] at approved
      exact approved rfl
    · right
      rintro empty
      exact waits (if_pos (Std.ExtTreeMap.isEmpty_iff.mpr empty))
  · rintro (approved | waits)
    · left
      obtain ⟨older, last, _, contents⟩ := getLast?_approvedContents approved
      rw [contents]
      simp
    · right
      rw [if_neg fun empty => waits (Std.ExtTreeMap.isEmpty_iff.mp empty)]
      exact List.cons_ne_nil _ _

theorem shown_of_some {shelf : Shelf} (some_content : shelf.approved ≠ [] ∨ shelf.pending ≠ ∅) :
    shelf.shown = some shelf.contents := if_neg (contents_ne_nil.mpr some_content)

/-- The histories of a tidy shelf are tidy. -/
theorem Tidy.histories {shelf : Shelf} (tidy : shelf.Tidy) : TidyHistories shelf.contents := by
  obtain ⟨tail, contents, behind⟩ := contents_eq shelf
  have short : tail = [] ∨ tail = [⟨false, shelf.pending⟩] := by
    rcases behind with waits | ⟨none, _⟩
    · exact .inr waits
    · exact .inl none
  have quiet : ∀ content ∈ tail, content.approved = false := by
    rcases short with rfl | rfl
    · simp
    · simp
  have filled : ∀ content ∈ shelf.contents, content.contentUnits.isEmpty = false := by
    intro content has
    unfold Shelf.contents at has
    rcases List.mem_append.mp has with has | has
    · rcases List.eq_nil_or_concat' shelf.approved with none | ⟨older, last, approved⟩
      · rw [none] at has
        cases has
      · rw [approved, approvedContents_concat] at has
        apply tidy.filled
        rw [approved]
        rcases List.mem_append.mp has with has | has
        · obtain ⟨units, old, rfl⟩ := List.mem_map.mp has
          exact List.mem_append_left _ old
        · rw [List.mem_singleton.mp has]
          exact List.mem_append_right _ List.mem_cons_self
    · split_ifs at has with empty
      · cases has
      · rw [List.mem_singleton.mp has]
        exact Bool.not_eq_true _ ▸ empty
  rcases List.eq_nil_or_concat' shelf.approved with none | ⟨older, last, approved⟩
  · rw [none, approvedContents_nil, List.nil_append] at contents
    refine ⟨?_, filled, ?_⟩
    · rw [contents, List.countP_eq_zero.mpr]
      · exact Nat.zero_le 1
      · intro content has
        rw [quiet content has]
        exact Bool.false_ne_true
    · intro before content after split _ _
      rw [contents] at split
      rcases short with rfl | rfl
      · simp at split
      · have length := congrArg List.length split
        simp only [List.length_append, List.length_cons, List.length_nil] at length
        exact List.eq_nil_of_length_eq_zero (by omega)
  · rw [approved, approvedContents_concat, List.append_assoc, List.singleton_append] at contents
    refine ⟨?_, filled, ?_⟩
    · have old : (older.map (⟨false, ·⟩ : ShownUnits → CommanderMessage.Content)).countP
          (·.approved) = 0 := by
        rw [List.countP_eq_zero]
        intro content has
        obtain ⟨units, _, rfl⟩ := List.mem_map.mp has
        exact Bool.false_ne_true
      have behind : tail.countP (·.approved) = 0 := by
        rw [List.countP_eq_zero]
        intro content has
        rw [quiet content has]
        exact Bool.false_ne_true
      rw [contents, List.countP_append, List.countP_cons, old, behind]
      simp
    · intro before content after split waits later
      rw [contents] at split
      rcases List.append_eq_append_iff.mp split with ⟨between, _, rest⟩ | ⟨between, _, rest⟩
      · -- the approved content stands before this one
        rcases between with _ | ⟨first, between⟩
        · rw [List.nil_append, List.cons.injEq] at rest
          rw [← rest.1] at waits
          cases waits
        · rw [List.cons_append, List.cons.injEq] at rest
          have length := congrArg List.length rest.2
          rcases short with rfl | rfl
          · simp at length
          · simp only [List.length_append, List.length_cons, List.length_nil] at length
            exact List.eq_nil_of_length_eq_zero (by omega)
      · have mem : (⟨true, last⟩ : CommanderMessage.Content) ∈ content :: after := by
          rw [rest]
          exact List.mem_append_right _ List.mem_cons_self
        rcases List.mem_cons.mp mem with rfl | mem
        · cases waits
        · exact absurd (later _ mem) Bool.noConfusion

end Shelf

def FilledItems (channels : Channels) : Prop :=
  ∀ (channel : String) (item : CommanderMessage.ChannelsResponseItem),
    channels[channel]? = some item →
      item.channelAddress = channel ∧ item.contents.isEmpty = false

/-- The explorer has of every content of its channels what the shelf of the content holds. -/
structure ShowsExactly (accounts : List String) (shelves : String → UInt64 → Shelf)
    (channels : Channels) : Prop where
  histories : ∀ channel contentId, historiesOf channels channel contentId =
    if channel ∈ accounts then (shelves channel contentId).shown else none
  items : FilledItems channels

section
variable {accounts : List String} {shelves shelves' : String → UInt64 → Shelf}
  {channels after : Channels} {channel : String} {contentId : UInt64}
  {item : CommanderMessage.ChannelsResponseItem}

/-- The shelves say all of the channels. -/
theorem ShowsExactly.unique {other : Channels} (h : ShowsExactly accounts shelves channels)
    (h' : ShowsExactly accounts shelves other) : channels = other := by
  have same : ∀ channel contentId,
      historiesOf channels channel contentId = historiesOf other channel contentId := by
    intro channel contentId
    rw [h.histories, h'.histories]
  -- an item has some content, so that it shows among the histories
  have shows : ∀ {a b : Channels} {channel : String} {item : CommanderMessage.ChannelsResponseItem},
      a[channel]? = some item → item.contents.isEmpty = false → b[channel]? = none →
      (∀ contentId, historiesOf a channel contentId = historiesOf b channel contentId) → False := by
    intro a b channel item found filled none same
    have empty : item.contents = ∅ := by
      apply Std.ExtTreeMap.ext_getElem?
      intro contentId
      have histories := same contentId
      unfold historiesOf at histories
      rw [found, none, Option.bind_some, Option.bind_none] at histories
      rw [histories, Std.ExtTreeMap.getElem?_empty]
    rw [Std.ExtTreeMap.isEmpty_iff.mpr empty] at filled
    cases filled
  apply Std.ExtTreeMap.ext_getElem?
  intro channel
  cases here : channels[channel]? with
  | none =>
      cases there : other[channel]? with
      | none => rfl
      | some item =>
          exact (shows there (h'.items channel item there).2 here
            fun contentId => (same channel contentId).symm).elim
  | some item =>
      obtain ⟨address, filled⟩ := h.items channel item here
      cases there : other[channel]? with
      | none => exact (shows here filled there (same channel)).elim
      | some item' =>
          have contents : item.contents = item'.contents := by
            apply Std.ExtTreeMap.ext_getElem?
            intro contentId
            have histories := same channel contentId
            unfold historiesOf at histories
            rwa [here, there, Option.bind_some, Option.bind_some] at histories
          have address' := (h'.items channel item' there).1
          cases item
          cases item'
          simp_all

theorem ShowsExactly.change (h : ShowsExactly accounts shelves channels)
    (tracked : channel ∈ accounts)
    (others : ∀ other otherId, ¬(channel = other ∧ contentId = otherId) →
      shelves' other otherId = shelves other otherId)
    (histories : ∀ other otherId, historiesOf after other otherId =
      if channel = other ∧ contentId = otherId then (shelves' channel contentId).shown
      else historiesOf channels other otherId)
    (items : FilledItems after) : ShowsExactly accounts shelves' after := by
  refine ⟨?_, items⟩
  intro other otherId
  rw [histories]
  by_cases place : channel = other ∧ contentId = otherId
  · obtain ⟨rfl, rfl⟩ := place
    rw [if_pos ⟨rfl, rfl⟩, if_pos tracked]
  · rw [if_neg place, h.histories, others other otherId place]

theorem FilledItems.insert (h : FilledItems channels) (address : item.channelAddress = channel)
    (filled : item.contents.isEmpty = false) : FilledItems (channels.insert channel item) := by
  intro other item' found
  rw [Std.ExtTreeMap.getElem?_insert] at found
  split_ifs at found with same
  · cases found
    exact ⟨address.trans (Std.compare_eq_iff_eq.mp same), filled⟩
  · exact h other item' found

theorem isEmpty_insert_contents
    (contents : Std.ExtTreeMap UInt64 (List CommanderMessage.Content)) (contentId : UInt64)
    (histories : List CommanderMessage.Content) :
    (contents.insert contentId histories).isEmpty = false := by
  rw [Bool.eq_false_iff]
  intro empty
  exact Std.ExtTreeMap.insert_ne_empty (Std.ExtTreeMap.isEmpty_iff.mp empty)

theorem FilledItems.erase (h : FilledItems channels) (channel : String) :
    FilledItems (channels.erase channel) := by
  intro other item' found
  rw [Std.ExtTreeMap.getElem?_erase] at found
  split_ifs at found with same
  exact h other item' found

theorem ShowsExactly.listed (h : ShowsExactly accounts shelves channels) (contentId : UInt64)
    (tracked : channel ∈ accounts)
    (some_content : (shelves channel contentId).approved ≠ [] ∨
      (shelves channel contentId).pending ≠ ∅) :
    ∃ item, findHistories channels channel contentId =
        .ok (item, (shelves channel contentId).contents) ∧ channels[channel]? = some item ∧
      item.channelAddress = channel := by
  have histories := h.histories channel contentId
  rw [if_pos tracked, Shelf.shown_of_some some_content] at histories
  obtain ⟨item, found, stored⟩ := findHistories_ok histories
  exact ⟨item, found, stored, (h.items channel item stored).1⟩

/-- A unit joins what waits. -/
theorem ShowsExactly.applyUnit {unit : ContentUnit} (h : ShowsExactly accounts shelves channels)
    (tracked : unit.channelAddress ∈ accounts) :
    ∃ after, Publiq.applyUnit unit channels = .ok after ∧ ShowsExactly accounts
      (fun channel contentId => (Action.contentUnit unit).onShelf channel contentId
        (shelves channel contentId)) after := by
  let shelf := shelves unit.channelAddress unit.contentId
  let shown : CommanderMessage.ContentUnit := ⟨unit.authorAddresses, unit.fileUris⟩
  have added : ((Action.contentUnit unit).onShelf unit.channelAddress unit.contentId shelf).shown =
      some (shelf.add unit.uri shown).contents := by
    change Shelf.shown (if _ then shelf.add unit.uri shown else _) = _
    rw [if_pos ⟨rfl, rfl⟩]
    exact Shelf.shown_of_some (.inr (shelf.insert_ne_empty unit.uri shown))
  have contents : (shelf.add unit.uri shown).contents =
      Shelf.approvedContents shelf.approved ++ [⟨false, shelf.pending.insert unit.uri shown⟩] := by
    change Shelf.approvedContents shelf.approved ++ _ = _
    rw [if_neg fun empty => shelf.insert_ne_empty unit.uri shown
      (Std.ExtTreeMap.isEmpty_iff.mp empty)]
    rfl
  have begins : shelf.shown = none → (shelf.add unit.uri shown).contents =
      [⟨false, (∅ : ShownUnits).insert unit.uri shown⟩] := by
    intro none
    have empty : ¬ (shelf.approved ≠ [] ∨ shelf.pending ≠ ∅) := by
      intro some_content
      rw [Shelf.shown_of_some some_content] at none
      cases none
    rw [not_or, not_not, not_not] at empty
    rw [contents, empty.1, empty.2]
    rfl
  suffices stored : ∃ (item : CommanderMessage.ChannelsResponseItem)
      (histories : List CommanderMessage.Content), Publiq.applyUnit unit channels =
      .ok (channels.insert unit.channelAddress
        { item with contents := item.contents.insert unit.contentId histories }) ∧
      (channels[unit.channelAddress]?.map (·.contents)).getD ∅ = item.contents ∧
      item.channelAddress = unit.channelAddress ∧
      (shelf.add unit.uri shown).contents = histories by
    obtain ⟨item, histories, ok, old, address, rfl⟩ := stored
    refine ⟨_, ok, h.change tracked (fun other otherId place => if_neg place) ?_
      (h.items.insert address (isEmpty_insert_contents _ _ _))⟩
    intro other otherId
    exact (historiesOf_store old other otherId).trans (if_congr Iff.rfl added.symm rfl)
  have before := h.histories unit.channelAddress unit.contentId
  rw [if_pos tracked] at before
  change _ = shelf.shown at before
  unfold historiesOf at before
  cases found : channels[unit.channelAddress]? with
  | none =>
      rw [found] at before
      refine ⟨⟨unit.channelAddress, ∅⟩, _, ?_, rfl, rfl, begins before.symm⟩
      unfold Publiq.applyUnit
      rw [found]
      rfl
  | some item =>
      rw [found, Option.bind_some] at before
      have address := (h.items _ item found).1
      cases histories : item.contents[unit.contentId]? with
      | none =>
          rw [histories] at before
          refine ⟨item, _, ?_, rfl, address, begins before.symm⟩
          unfold Publiq.applyUnit
          rw [found]
          simp only [histories]
          rfl
      | some old =>
          rw [histories] at before
          have some_content : shelf.approved ≠ [] ∨ shelf.pending ≠ ∅ := by
            rw [← Shelf.contents_ne_nil]
            intro none
            rw [Shelf.shown, if_pos none] at before
            cases before
          rw [Shelf.shown_of_some some_content, Option.some.injEq] at before
          obtain ⟨tail, list, behind⟩ := shelf.contents_eq
          refine ⟨item, _, ?_, rfl, address, contents⟩
          unfold Publiq.applyUnit
          rw [found]
          simp only [histories]
          rw [before, list, Histories.addUnit_ok behind some_content]
          rfl

/-- The unit that joined last leaves. -/
theorem ShowsExactly.revertUnit {unit : ContentUnit}
    (h : ShowsExactly accounts (fun channel contentId =>
      (Action.contentUnit unit).onShelf channel contentId (shelves channel contentId)) channels)
    (tracked : unit.channelAddress ∈ accounts)
    (new : (shelves unit.channelAddress unit.contentId).pending[unit.uri]? = none) :
    ∃ after, Publiq.revertUnit unit channels = .ok after ∧
      ShowsExactly accounts shelves after := by
  let shelf := shelves unit.channelAddress unit.contentId
  let shown : CommanderMessage.ContentUnit := ⟨unit.authorAddresses, unit.fileUris⟩
  have here : (Action.contentUnit unit).onShelf unit.channelAddress unit.contentId shelf =
      shelf.add unit.uri shown := if_pos ⟨rfl, rfl⟩
  have listed := h.listed unit.contentId tracked (by
    change Shelf.approved ((Action.contentUnit unit).onShelf _ _ shelf) ≠ [] ∨
      Shelf.pending ((Action.contentUnit unit).onShelf _ _ shelf) ≠ ∅
    rw [here]
    exact .inr (shelf.insert_ne_empty unit.uri shown))
  obtain ⟨item, find, found, address⟩ := listed
  change findHistories _ _ _ = .ok (item, Shelf.contents ((Action.contentUnit unit).onShelf _ _ shelf))
    at find
  rw [here] at find
  obtain ⟨tail, list, behind⟩ := (shelf.add unit.uri shown).contents_eq
  have remove := Histories.removeUnit_ok behind new
  have left : Histories.removeUnit unit.uri (shelf.add unit.uri shown).contents =
      .ok shelf.contents := by
    rw [list]
    exact remove
  refine ⟨_, ?_, h.change tracked (fun other otherId place => (if_neg place).symm)
    (historiesOf_remove found rfl) ?_⟩
  · unfold Publiq.revertUnit
    rw [find, ok_bind]
    simp only [left]
    rfl
  · generalize (if shelf.contents = [] then item.contents.erase unit.contentId
      else item.contents.insert unit.contentId shelf.contents) = contents
    by_cases empty : contents.isEmpty = true
    · rw [if_pos empty]
      exact h.items.erase _
    · rw [if_neg empty]
      exact h.items.insert address (Bool.eq_false_iff.mpr empty)

/-- A content is approved. -/
theorem ShowsExactly.approve {content : Content} (h : ShowsExactly accounts shelves channels)
    (tracked : content.channelAddress ∈ accounts)
    (tidy : (shelves content.channelAddress content.contentId).Tidy)
    (some_uri : content.contentUnitUris ≠ [])
    (found : ∀ uri ∈ content.contentUnitUris,
      (shelves content.channelAddress content.contentId).find uri ≠ none)
    (some_content : (shelves content.channelAddress content.contentId).approved ≠ [] ∨
      (shelves content.channelAddress content.contentId).pending ≠ ∅)
    (once : ∀ uri, 1 < content.contentUnitUris.count uri →
      (shelves content.channelAddress content.contentId).findApproved uri ≠ none) :
    ∃ after, processContent content .apply channels = .ok after ∧ ShowsExactly accounts
      (fun channel contentId => (Action.content content).onShelf channel contentId
        (shelves channel contentId)) after := by
  let shelf := shelves content.channelAddress content.contentId
  obtain ⟨item, find, stored, address⟩ := h.listed content.contentId tracked some_content
  obtain ⟨tail, list, behind⟩ := shelf.contents_eq
  have approve : Histories.approve content.contentUnitUris shelf.contents =
      .ok (shelf.approve content.contentUnitUris).contents := by
    rw [list]
    exact Histories.approve_ok tidy behind some_content some_uri found once
  have here : ((Action.content content).onShelf content.channelAddress content.contentId
      shelf).shown = some (shelf.approve content.contentUnitUris).contents := by
    change Shelf.shown (if _ then _ else _) = _
    rw [if_pos ⟨rfl, rfl⟩]
    exact Shelf.shown_of_some (.inl (by simp [Shelf.approve]))
  let contents := item.contents.insert content.contentId
    (shelf.approve content.contentUnitUris).contents
  refine ⟨channels.insert content.channelAddress { item with contents }, ?_,
    h.change tracked (fun other otherId place => if_neg place) ?_
      (h.items.insert address (isEmpty_insert_contents _ _ _))⟩
  · unfold processContent
    rw [find, ok_bind]
    simp only
    change (Histories.approve content.contentUnitUris shelf.contents >>= _) = _
    rw [approve, ok_bind]
    rfl
  · intro other otherId
    have old : (channels[content.channelAddress]?.map (·.contents)).getD ∅ = item.contents := by
      rw [stored]
      rfl
    exact (historiesOf_store old other otherId).trans (if_congr Iff.rfl here.symm rfl)

/-- The approval is taken back: what the explorer lists then, with what waited before at its end
even when nothing did. -/
theorem ShowsExactly.disapprove {content : Content}
    (h : ShowsExactly accounts (fun channel contentId =>
      (Action.content content).onShelf channel contentId (shelves channel contentId)) channels)
    (tracked : content.channelAddress ∈ accounts)
    (tidy : (shelves content.channelAddress content.contentId).Tidy)
    (found : ∀ uri ∈ content.contentUnitUris,
      (shelves content.channelAddress content.contentId).find uri ≠ none) :
    ∃ item histories, processContent content .revert channels =
        .ok (channels.insert content.channelAddress
          { item with contents := item.contents.insert content.contentId histories }) ∧
      histories =
        Shelf.approvedContents (shelves content.channelAddress content.contentId).approved ++
          [⟨false, (shelves content.channelAddress content.contentId).pending⟩] ∧
      channels[content.channelAddress]? = some item ∧
      item.channelAddress = content.channelAddress := by
  let shelf := shelves content.channelAddress content.contentId
  have here : (Action.content content).onShelf content.channelAddress content.contentId shelf =
      shelf.approve content.contentUnitUris := if_pos ⟨rfl, rfl⟩
  have listed := h.listed content.contentId tracked (by
    change Shelf.approved ((Action.content content).onShelf _ _ shelf) ≠ [] ∨ _
    rw [here]
    exact .inl (by simp [Shelf.approve]))
  obtain ⟨item, find, stored, address⟩ := listed
  change findHistories _ _ _ = .ok (item, Shelf.contents ((Action.content content).onShelf _ _ shelf))
    at find
  rw [here] at find
  obtain ⟨tail, list, behind⟩ := (shelf.approve content.contentUnitUris).contents_eq
  have back : Histories.disapprove content.contentUnitUris
      (shelf.approve content.contentUnitUris).contents =
        .ok (Shelf.approvedContents shelf.approved ++ [⟨false, shelf.pending⟩]) := by
    rw [list]
    exact Histories.disapprove_ok tidy behind found
  refine ⟨item, _, ?_, rfl, stored, address⟩
  unfold processContent
  rw [find, ok_bind]
  simp only [back]
  rfl

theorem ShowsExactly.revertContent {content : Content}
    (h : ShowsExactly accounts (fun channel contentId =>
      (Action.content content).onShelf channel contentId (shelves channel contentId)) channels)
    (tracked : content.channelAddress ∈ accounts)
    (tidy : (shelves content.channelAddress content.contentId).Tidy)
    (found : ∀ uri ∈ content.contentUnitUris,
      (shelves content.channelAddress content.contentId).find uri ≠ none)
    (waits : (shelves content.channelAddress content.contentId).pending ≠ ∅) :
    ∃ after, processContent content .revert channels = .ok after ∧
      ShowsExactly accounts shelves after := by
  let shelf := shelves content.channelAddress content.contentId
  obtain ⟨item, _, ok, rfl, stored, address⟩ := h.disapprove tracked tidy found
  refine ⟨_, ok, h.change tracked (fun other otherId place => (if_neg place).symm) ?_
    (h.items.insert address (isEmpty_insert_contents _ _ _))⟩
  have contents : shelf.shown =
      some (Shelf.approvedContents shelf.approved ++ [⟨false, shelf.pending⟩]) := by
    rw [Shelf.shown_of_some (.inr waits), Shelf.contents,
      if_neg fun empty => waits (Std.ExtTreeMap.isEmpty_iff.mp empty)]
  intro other otherId
  have old : (channels[content.channelAddress]?.map (·.contents)).getD ∅ = item.contents := by
    rw [stored]
    rfl
  exact (historiesOf_store old other otherId).trans (if_congr Iff.rfl contents.symm rfl)

end

section
variable {accounts : List String} {shelves : String → UInt64 → Shelf} {channels : Channels}
  {docs : Documents} {log : TransactionLog}

/-- What is not tracked changes nothing. -/
theorem ShowsExactly.congr {shelves' : String → UInt64 → Shelf}
    (h : ShowsExactly accounts shelves channels)
    (same : ∀ channel ∈ accounts, ∀ contentId,
      shelves' channel contentId = shelves channel contentId) :
    ShowsExactly accounts shelves' channels := by
  refine ⟨?_, h.items⟩
  intro channel contentId
  rw [h.histories]
  split_ifs with tracked
  · rw [same channel tracked contentId]
  · rfl

def Tracks (accounts : List String) : Action → Prop
  | .contentUnit unit => unit.channelAddress ∈ accounts
  | .content content => content.channelAddress ∈ accounts
  | _ => False

instance (accounts : List String) (action : Action) : Decidable (Tracks accounts action) := by
  cases action <;> unfold Tracks <;> infer_instance

theorem process_untracked {type : LoggingType} (untracked : ¬ Tracks accounts log.action) :
    processChannelTransactions accounts log type channels = .ok channels := by
  unfold processChannelTransactions
  cases action : log.action with
  | contentUnit unit =>
      rw [action] at untracked
      exact if_neg untracked
  | content content =>
      rw [action] at untracked
      exact if_neg untracked
  | _ => rfl

theorem onShelf_untracked {action : Action} (untracked : ¬ Tracks accounts action)
    {channel : String} (tracked : channel ∈ accounts) (contentId : UInt64) (shelf : Shelf) :
    action.onShelf channel contentId shelf = shelf := by
  cases action with
  | contentUnit unit =>
      refine if_neg fun place => untracked ?_
      change unit.channelAddress ∈ accounts
      rw [place.1]
      exact tracked
  | content content =>
      refine if_neg fun place => untracked ?_
      change content.channelAddress ∈ accounts
      rw [place.1]
      exact tracked
  | _ => rfl

/-- An approval that the explorer is ready for: something of the content waits, and no unit that
waits is named twice. -/
structure Ready (uris : List String) (shelf : Shelf) : Prop where
  waits : shelf.pending ≠ ∅
  once : ∀ uri, shelf.pending[uri]? ≠ none → uris.count uri ≤ 1

def ReadyFor (accounts : List String) (shelves : String → UInt64 → Shelf) (action : Action) :
    Prop :=
  ∀ content, action = .content content → content.channelAddress ∈ accounts →
    Ready content.contentUnitUris (shelves content.channelAddress content.contentId)

theorem Publishes.found (publishes : Publishes docs log.action)
    (sorted : ∀ channel contentId, Sorted docs channel contentId (shelves channel contentId))
    {content : Content} (action : log.action = .content content) :
    ∀ uri ∈ content.contentUnitUris,
      (shelves content.channelAddress content.contentId).find uri ≠ none := by
  intro uri named
  exact ((sorted _ _).has uri).mpr ((publishes.content content action).2 uri named)

theorem Publishes.new (publishes : Publishes docs log.action)
    (sorted : ∀ channel contentId, Sorted docs channel contentId (shelves channel contentId))
    {unit : ContentUnit} (action : log.action = .contentUnit unit) :
    (shelves unit.channelAddress unit.contentId).pending[unit.uri]? = none := by
  have none : (shelves unit.channelAddress unit.contentId).find unit.uri = none := by
    by_contra found
    obtain ⟨other, stored, _⟩ := ((sorted _ _).has unit.uri).mp found
    rw [publishes.unit unit action] at stored
    cases stored
  exact (Option.or_eq_none_iff.mp none).1

theorem some_content_of_found {shelf : Shelf} {uris : List String} (some_uri : uris ≠ [])
    (found : ∀ uri ∈ uris, shelf.find uri ≠ none) :
    shelf.approved ≠ [] ∨ shelf.pending ≠ ∅ := by
  obtain ⟨uri, rest, rfl⟩ := List.exists_cons_of_ne_nil some_uri
  by_contra none
  rw [not_or, not_not, not_not] at none
  apply found uri List.mem_cons_self
  unfold Shelf.find Shelf.findApproved
  rw [none.1, none.2, Std.ExtTreeMap.getElem?_empty]
  rfl

theorem ShowsExactly.apply (log : TransactionLog) (h : ShowsExactly accounts shelves channels)
    (sorted : ∀ channel contentId, Sorted docs channel contentId (shelves channel contentId))
    (publishes : Publishes docs log.action)
    (once : ∀ content, log.action = .content content → content.channelAddress ∈ accounts →
      ∀ uri, 1 < content.contentUnitUris.count uri →
        (shelves content.channelAddress content.contentId).findApproved uri ≠ none) :
    ∃ after, processChannelTransactions accounts log .apply channels = .ok after ∧
      ShowsExactly accounts (fun channel contentId => log.action.onShelf channel contentId
        (shelves channel contentId)) after := by
  by_cases tracked : Tracks accounts log.action
  · cases action : log.action with
    | contentUnit unit =>
        rw [action] at tracked
        obtain ⟨after, ok, shows⟩ := h.applyUnit tracked
        refine ⟨after, ?_, shows⟩
        unfold processChannelTransactions
        rw [action]
        exact (if_pos tracked).trans ok
    | content content =>
        rw [action] at tracked
        have found := publishes.found sorted action
        have some_uri := (publishes.content content action).1
        obtain ⟨after, ok, shows⟩ := h.approve tracked (sorted _ _).tidy some_uri found
          (some_content_of_found some_uri found) (once content action tracked)
        refine ⟨after, ?_, shows⟩
        unfold processChannelTransactions
        rw [action]
        exact (if_pos tracked).trans ok
    | _ =>
        rw [action] at tracked
        exact tracked.elim
  · refine ⟨channels, process_untracked tracked, h.congr ?_⟩
    intro channel member contentId
    exact onShelf_untracked tracked member contentId _

/-- A transaction is shown no longer, when something waited before it. -/
theorem ShowsExactly.revert (log : TransactionLog)
    (h : ShowsExactly accounts (fun channel contentId => log.action.onShelf channel contentId
      (shelves channel contentId)) channels)
    (sorted : ∀ channel contentId, Sorted docs channel contentId (shelves channel contentId))
    (publishes : Publishes docs log.action)
    (waits : ∀ content, log.action = .content content → content.channelAddress ∈ accounts →
      (shelves content.channelAddress content.contentId).pending ≠ ∅) :
    ∃ before, processChannelTransactions accounts log .revert channels = .ok before ∧
      ShowsExactly accounts shelves before := by
  by_cases tracked : Tracks accounts log.action
  · cases action : log.action with
    | contentUnit unit =>
        rw [action] at tracked h
        obtain ⟨before, ok, shows⟩ := h.revertUnit tracked (publishes.new sorted action)
        refine ⟨before, ?_, shows⟩
        unfold processChannelTransactions
        rw [action]
        exact (if_pos tracked).trans ok
    | content content =>
        rw [action] at tracked h
        obtain ⟨before, ok, shows⟩ := h.revertContent tracked (sorted _ _).tidy
          (publishes.found sorted action) (waits content action tracked)
        refine ⟨before, ?_, shows⟩
        unfold processChannelTransactions
        rw [action]
        exact (if_pos tracked).trans ok
    | _ =>
        rw [action] at tracked
        exact tracked.elim
  · refine ⟨channels, process_untracked tracked, h.congr ?_⟩
    intro channel member contentId
    exact (onShelf_untracked tracked member contentId _).symm

/-- What an approval that is taken back restores was waiting before it, and named once. -/
theorem ready_of_restored (h : ShowsExactly accounts shelves channels)
    (sorted : ∀ channel contentId, Sorted docs channel contentId (shelves channel contentId))
    (publishes : Publishes docs log.action) {after : Channels}
    (applied : processChannelTransactions accounts log .apply channels = .ok after)
    (restored : processChannelTransactions accounts log .revert after = .ok channels) :
    ReadyFor accounts shelves log.action := by
  intro content action tracked
  let shelf := shelves content.channelAddress content.contentId
  have tidy : shelf.Tidy := (sorted _ _).tidy
  have found : ∀ uri ∈ content.contentUnitUris, shelf.find uri ≠ none :=
    publishes.found sorted action
  have some_uri := (publishes.content content action).1
  have some_content := some_content_of_found some_uri found
  have processed : ∀ {type : LoggingType} {before after : Channels},
      processChannelTransactions accounts log type before = .ok after →
        processContent content type before = .ok after := by
    intro type before after ok
    unfold processChannelTransactions at ok
    rw [action] at ok
    exact (if_pos tracked).symm.trans ok
  obtain ⟨tail, list, behind⟩ := shelf.contents_eq
  have once : ∀ uri, 1 < content.contentUnitUris.count uri → shelf.findApproved uri ≠ none := by
    obtain ⟨item, find, _⟩ := h.listed content.contentId tracked some_content
    have ok := processed applied
    unfold processContent at ok
    rw [find, ok_bind] at ok
    obtain ⟨_, approved, _⟩ := bind_ok_iff.mp ok
    change Histories.approve content.contentUnitUris shelf.contents = _ at approved
    rw [list] at approved
    obtain ⟨_, approved⟩ := require_bind_ok_iff.mp approved
    obtain ⟨_, collected, _⟩ := bind_ok_iff.mp approved
    exact Histories.once_of_collect tidy behind found collected
  refine ⟨?_, ?_⟩
  · intro none
    obtain ⟨after', ok, shows⟩ := h.approve tracked tidy some_uri found some_content once
    cases (processed applied).symm.trans ok
    obtain ⟨item, histories, back, rfl, stored, _⟩ := shows.disapprove tracked tidy found
    -- an empty content stays behind
    have same := Except.ok.inj ((processed restored).symm.trans back)
    have now := h.histories content.channelAddress content.contentId
    have old : (after[content.channelAddress]?.map (·.contents)).getD ∅ = item.contents := by
      rw [stored]
      rfl
    rw [same, historiesOf_store old, if_pos ⟨rfl, rfl⟩, if_pos tracked] at now
    change some (Shelf.approvedContents shelf.approved ++ [⟨false, shelf.pending⟩]) = _ at now
    change shelf.pending = ∅ at none
    rw [Shelf.shown_of_some some_content, Option.some.injEq] at now
    change _ = shelf.contents at now
    rw [Shelf.contents, if_pos (Std.ExtTreeMap.isEmpty_iff.mpr none)] at now
    have lengths := congrArg List.length now
    simp at lengths
  · intro uri waits
    by_contra twice
    exact once uri (by omega) (tidy.apart uri waits)

end

/-- The last content waits for an approval, and the list names no unit of it twice. -/
def Waiting (uris : List String) (histories : List CommanderMessage.Content) : Prop :=
  ∃ back, histories.getLast? = some back ∧ back.approved = false ∧
    ∀ uri, back.contentUnits[uri]? ≠ none → uris.count uri ≤ 1

theorem waiting_contents {shelf : Shelf} {uris : List String} :
    Waiting uris shelf.contents ↔ Ready uris shelf := by
  by_cases none : shelf.pending = ∅
  · refine iff_of_false ?_ fun ready => ready.waits none
    rintro ⟨back, last, waits, _⟩
    rw [Shelf.contents, if_pos (Std.ExtTreeMap.isEmpty_iff.mpr none), List.append_nil] at last
    rcases List.eq_nil_or_concat' shelf.approved with empty | ⟨older, units, approved⟩
    · rw [empty] at last
      cases last
    · rw [approved, Shelf.approvedContents_concat, List.getLast?_concat] at last
      cases last
      cases waits
  · have last : shelf.contents.getLast? = some ⟨false, shelf.pending⟩ := by
      rw [Shelf.contents, if_neg fun empty => none (Std.ExtTreeMap.isEmpty_iff.mp empty),
        List.getLast?_concat]
    constructor
    · rintro ⟨back, found, _, once⟩
      cases last.symm.trans found
      exact ⟨none, once⟩
    · intro ready
      exact ⟨_, last, rfl, ready.once⟩

/-- The node and the explorer behind it, with the transactions that stand. -/
structure ChannelRun where
  ledger : Ledger
  standing : List SignedTransaction
  channels : Channels

/-- What happens: a transaction comes in, the last one that stands is taken back, or the node
does something else to its ledger. -/
inductive ChannelEvent where
  | apply (ctx : Context) (layer : StateLayer) (st : SignedTransaction)
  | revert (ctx : Context) (layer : StateLayer)
  | between (ledger : Ledger)

def accept [Externals] (ctx : Context) (layer : StateLayer) (st : SignedTransaction)
    (l : Ledger) : Checked Ledger := do
  actionValidate ctx.config st true
  actionApply ctx st layer l

namespace ChannelRun

def start : ChannelRun := ⟨default, [], ∅⟩

def read (channels : Channels) : Checked Channels → Channels
  | .ok after => after
  | .error _ => channels

section
variable [Externals]

/-- One event. What the node does else leaves the units. -/
def step (accounts : List String) (s : ChannelRun) : ChannelEvent → ChannelRun
  | .apply ctx layer st =>
      match accept ctx layer st s.ledger with
      | .error _ => s
      | .ok ledger =>
          ⟨ledger, s.standing ++ [st], read s.channels
            (processChannelTransactions accounts (ActionLog.transactionLogOf st) .apply s.channels)⟩
  | .revert ctx layer =>
      match s.standing.getLast? with
      | none => s
      | some st =>
          match actionRevert ctx st layer s.ledger with
          | .error _ => s
          | .ok ledger =>
              ⟨ledger, s.standing.dropLast, read s.channels
                (processChannelTransactions accounts (ActionLog.transactionLogOf st) .revert s.channels)⟩
  | .between ledger =>
      if ledger.documents.units = s.ledger.documents.units then { s with ledger } else s

def Tidy (channels : Channels) : Prop :=
  ∀ channel contentId histories, historiesOf channels channel contentId = some histories →
    TidyHistories histories

/-- What the explorer promises of an event: to read a transaction that the node takes, and to
restore the channels exactly when it is taken back next; and not to throw when the node takes
one back. -/
def Keeps (accounts : List String) (s : ChannelRun) : ChannelEvent → Prop
  | .apply ctx layer st => ∀ ledger, accept ctx layer st s.ledger = .ok ledger →
      ∃ after, processChannelTransactions accounts (ActionLog.transactionLogOf st) .apply s.channels =
          .ok after ∧
        processChannelTransactions accounts (ActionLog.transactionLogOf st) .revert after =
          .ok s.channels ∧ Tidy after
  | .revert ctx layer => ∀ st ledger, s.standing.getLast? = some st →
      actionRevert ctx st layer s.ledger = .ok ledger →
        ∃ after, processChannelTransactions accounts (ActionLog.transactionLogOf st) .revert s.channels =
          .ok after ∧ Tidy after
  | .between _ => True

/-- A content of a tracked channel that the node takes comes while something of it waits, and
names no unit that waits twice. -/
def Fit (accounts : List String) (s : ChannelRun) : ChannelEvent → Prop
  | .apply ctx layer st => ∀ ledger, accept ctx layer st s.ledger = .ok ledger →
      ∀ content, st.transactionDetails.action = .content content →
        content.channelAddress ∈ accounts → ∀ histories,
          historiesOf s.channels content.channelAddress content.contentId = some histories →
            Waiting content.contentUnitUris histories
  | _ => True

def Always (accounts : List String) (P : ChannelRun → ChannelEvent → Prop) (s : ChannelRun) :
    List ChannelEvent → Prop
  | [] => True
  | event :: rest => P s event ∧ Always accounts P (s.step accounts event) rest

end

def documentsAfter (standing : List SignedTransaction) : Documents :=
  standing.foldl (fun docs st => st.transactionDetails.action.shelve docs) default

def shelvesAfter (standing : List SignedTransaction) (channel : String) (contentId : UInt64) :
    Shelf :=
  standing.foldl (fun shelf st => st.transactionDetails.action.onShelf channel contentId shelf)
    ⟨[], ∅⟩

@[simp] theorem documentsAfter_concat (standing : List SignedTransaction)
    (st : SignedTransaction) : documentsAfter (standing ++ [st]) =
      st.transactionDetails.action.shelve (documentsAfter standing) := by
  rw [documentsAfter, List.foldl_append]
  rfl

@[simp] theorem shelvesAfter_concat (standing : List SignedTransaction)
    (st : SignedTransaction) : shelvesAfter (standing ++ [st]) = fun channel contentId =>
      st.transactionDetails.action.onShelf channel contentId
        (shelvesAfter standing channel contentId) := by
  funext channel contentId
  rw [shelvesAfter, List.foldl_append]
  rfl

def Published (accounts : List String) : List SignedTransaction → Prop :=
  Along (fun before st =>
    Publishes (documentsAfter before) st.transactionDetails.action ∧
      ∀ content, st.transactionDetails.action = .content content →
        content.channelAddress ∈ accounts →
          (shelvesAfter before content.channelAddress content.contentId).pending ≠ ∅) []

theorem published_concat {accounts : List String} {standing : List SignedTransaction}
    {st : SignedTransaction} : Published accounts (standing ++ [st]) ↔
      Published accounts standing ∧
        Publishes (documentsAfter standing) st.transactionDetails.action ∧
        ∀ content, st.transactionDetails.action = .content content →
          content.channelAddress ∈ accounts →
            (shelvesAfter standing content.channelAddress content.contentId).pending ≠ ∅ := by
  rw [Published, along_append, along_cons, List.nil_append]
  simp only [along_nil, and_true]

theorem sorted_after {accounts : List String} {standing : List SignedTransaction}
    (published : Published accounts standing) (channel : String) (contentId : UInt64) :
    Sorted (documentsAfter standing) channel contentId
      (shelvesAfter standing channel contentId) := by
  induction standing using List.reverseRecOn with
  | nil => exact sorted_nil channel contentId
  | append_singleton standing st ih =>
      obtain ⟨before, publishes, _⟩ := published_concat.mp published
      rw [documentsAfter_concat, shelvesAfter_concat]
      exact (ih before).step publishes

/-- What holds of the node and the explorer in a run that is fit. -/
structure Sound (accounts : List String) (s : ChannelRun) : Prop where
  units : s.ledger.documents.units = (documentsAfter s.standing).units
  published : Published accounts s.standing
  shows : ShowsExactly accounts (shelvesAfter s.standing) s.channels

theorem sound_start (accounts : List String) : start.Sound accounts := by
  refine ⟨rfl, along_nil [], ?_, ?_⟩
  · intro channel contentId
    have none : historiesOf start.channels channel contentId = none := by
      unfold historiesOf start
      rw [Std.ExtTreeMap.getElem?_empty]
      rfl
    rw [none]
    split_ifs
    · rfl
    · rfl
  · intro channel item found
    unfold start at found
    rw [Std.ExtTreeMap.getElem?_empty] at found
    cases found

theorem tidy_of_shows {accounts : List String} {standing : List SignedTransaction}
    {channels : Channels} (published : Published accounts standing)
    (shows : ShowsExactly accounts (shelvesAfter standing) channels) : Tidy channels := by
  intro channel contentId histories found
  rw [shows.histories] at found
  split_ifs at found with tracked
  unfold Shelf.shown at found
  split_ifs at found
  cases found
  exact (sorted_after published channel contentId).tidy.histories

section
variable [Externals] {ctx : Context} {layer : StateLayer} {st : SignedTransaction}
  {l after : Ledger} {docs : Documents}

omit [Externals] in
theorem unitsCorrespond_ok {content : Content} {uris : List String}
    (corresponds : content.unitsCorrespond l uris = .ok true) :
    ∀ uri ∈ uris, ∃ unit, l.documents.units[uri]? = some unit ∧
      unit.channelAddress = content.channelAddress ∧ unit.contentId = content.contentId := by
  induction uris with
  | nil =>
      intro uri named
      cases named
  | cons first rest ih =>
      rw [Content.unitsCorrespond] at corresponds
      obtain ⟨unit, found, corresponds⟩ := bind_ok_iff.mp corresponds
      split_ifs at corresponds with differs
      · cases pure_ok_iff.mp corresponds
      · rw [not_or, not_not, not_not] at differs
        intro uri named
        rcases List.mem_cons.mp named with rfl | named
        · unfold Documents.getUnit at found
          split at found
          · cases found
            exact ⟨unit, by assumption, differs⟩
          · cases found
        · exact ih corresponds uri named

/-- What the node has checked of a transaction that it takes, and what it does to the units. -/
theorem publishes_of_accept (empty : Externals.EmptyNoUri)
    (same : l.documents.units = docs.units) (accepted : accept ctx layer st l = .ok after) :
    Publishes docs st.transactionDetails.action ∧
      after.documents.units = (st.transactionDetails.action.shelve docs).units := by
  obtain ⟨_, valid, applied⟩ := bind_ok_iff.mp accepted
  have named := named_of_actionValidate empty valid
  have other (none : st.transactionDetails.action.document = none)
      (unit : ∀ unit, st.transactionDetails.action ≠ .contentUnit unit) :
      after.documents.units = (st.transactionDetails.action.shelve docs).units := by
    rw [units_shelve docs unit, ← same]
    exact (Ledger.sameUris_actionApply none applied).2
  obtain ⟨_, _, applied⟩ := bind_ok_iff.mp applied
  cases action : st.transactionDetails.action with
  | file file =>
      rw [action] at applied
      obtain ⟨_, _, applied⟩ := bind_ok_iff.mp applied
      obtain ⟨_, applied⟩ := require_bind_ok_iff.mp applied
      cases pure_ok_iff.mp applied
      exact ⟨⟨fun _ no => Message.Action.noConfusion no, fun _ no => Message.Action.noConfusion no⟩, same⟩
  | contentUnit unit =>
      rw [action] at applied
      obtain ⟨_, _, applied⟩ := bind_ok_iff.mp applied
      split at applied
      · cases applied
      · obtain ⟨new, applied⟩ := require_bind_ok_iff.mp applied
        split at applied
        · cases applied
        · cases pure_ok_iff.mp applied
          refine ⟨⟨?_, fun _ no => Message.Action.noConfusion no⟩, ?_⟩
          · intro unit' eq
            cases eq
            have uri : unit.uri ≠ "" := named unit.uri unit.authorAddresses (by rw [action]; rfl)
            rw [Documents.unitExists, decide_eq_true uri, Bool.true_and,
              Std.ExtTreeMap.contains_eq_isSome_getElem?, Option.isSome_eq_false_iff,
              Option.isNone_iff_eq_none, same] at new
            exact new
          · change l.documents.units.insertIfNew _ _ = docs.units.insertIfNew _ _
            rw [same]
  | content content =>
      have kept := other (by rw [action]; rfl) (by rw [action]; exact fun _ no => by cases no)
      rw [action] at applied kept
      refine ⟨⟨fun _ no => Message.Action.noConfusion no, ?_⟩, kept⟩
      intro content' eq
      cases eq
      obtain ⟨_, _, valid⟩ := bind_ok_iff.mp valid
      rw [action] at valid
      obtain ⟨_, valid⟩ := require_bind_ok_iff.mp valid
      obtain ⟨_, _, valid⟩ := bind_ok_iff.mp valid
      obtain ⟨some_uri, _⟩ := require_bind_ok_iff.mp valid
      obtain ⟨_, _, applied⟩ := bind_ok_iff.mp applied
      obtain ⟨_, _, applied⟩ := bind_ok_iff.mp applied
      split at applied
      · cases applied
      · obtain ⟨correspond, corresponds, applied⟩ := bind_ok_iff.mp applied
        obtain ⟨rfl, _⟩ := require_bind_ok_iff.mp applied
        rw [← same]
        exact ⟨some_uri, unitsCorrespond_ok corresponds⟩
  | _ =>
      have kept := other (by rw [action]; rfl) (by rw [action]; exact fun _ no => by cases no)
      rw [action] at kept
      exact ⟨⟨fun _ no => Message.Action.noConfusion no, fun _ no => Message.Action.noConfusion no⟩, kept⟩

/-- What the node does to the units when it takes a transaction back. -/
theorem units_of_revert (same : l.documents.units =
      (st.transactionDetails.action.shelve docs).units)
    (publishes : Publishes docs st.transactionDetails.action)
    (reverted : actionRevert ctx st layer l = .ok after) :
    after.documents.units = docs.units := by
  have other (none : st.transactionDetails.action.document = none)
      (unit : ∀ unit, st.transactionDetails.action ≠ .contentUnit unit) :
      after.documents.units = docs.units := by
    rw [← units_shelve docs unit, ← same]
    exact (Ledger.sameUris_actionRevert none reverted).2
  obtain ⟨_, _, undone⟩ := bind_ok_iff.mp reverted
  cases action : st.transactionDetails.action with
  | file file =>
      rw [action] at undone same
      obtain ⟨_, _, undone⟩ := bind_ok_iff.mp undone
      cases pure_ok_iff.mp undone
      exact same
  | contentUnit unit =>
      rw [action] at undone same
      obtain ⟨_, _, undone⟩ := bind_ok_iff.mp undone
      cases pure_ok_iff.mp undone
      have new := publishes.unit unit action
      have absent : unit.uri ∉ docs.units := by
        rw [Std.ExtTreeMap.mem_iff_isSome_getElem?, new]
        exact Bool.false_ne_true
      change l.documents.units.erase unit.uri = docs.units
      change l.documents.units = docs.units.insertIfNew unit.uri unit at same
      apply Std.ExtTreeMap.ext_getElem?
      intro uri
      rw [same, Std.ExtTreeMap.getElem?_erase, Std.ExtTreeMap.getElem?_insertIfNew]
      by_cases key : unit.uri = uri
      · rw [if_pos (Std.compare_eq_iff_eq.mpr key), ← key, new]
      · rw [if_neg (fun eq => key (Std.compare_eq_iff_eq.mp eq)),
          if_neg (fun both => key (Std.compare_eq_iff_eq.mp both.1))]
  | _ => exact other (by rw [action]; rfl) (by rw [action]; exact fun _ no => by cases no)

theorem fit_apply_iff {accounts : List String} {s : ChannelRun} (h : s.Sound accounts)
    (accepted : accept ctx layer st s.ledger = .ok l)
    (publishes : Publishes (documentsAfter s.standing) st.transactionDetails.action) :
    Fit accounts s (.apply ctx layer st) ↔
      ReadyFor accounts (shelvesAfter s.standing) st.transactionDetails.action := by
  have listed : ∀ content, st.transactionDetails.action = .content content →
      content.channelAddress ∈ accounts →
        historiesOf s.channels content.channelAddress content.contentId =
          some (shelvesAfter s.standing content.channelAddress content.contentId).contents := by
    intro content action tracked
    have found := @Publishes.found _ _ (ActionLog.transactionLogOf st) publishes
      (sorted_after h.published) content action
    have some_uri := (publishes.content content action).1
    rw [h.shows.histories, if_pos tracked,
      Shelf.shown_of_some (some_content_of_found some_uri found)]
  constructor
  · intro fit content action tracked
    exact waiting_contents.mp
      (fit l accepted content action tracked _ (listed content action tracked))
  · intro ready _ _ content action tracked histories found
    cases (listed content action tracked).symm.trans found
    exact waiting_contents.mpr (ready content action tracked)

/-- What is ready is read, and restored when it is taken back. -/
theorem apply_of_ready {accounts : List String} {s : ChannelRun} (h : s.Sound accounts)
    (publishes : Publishes (documentsAfter s.standing) st.transactionDetails.action)
    (ready : ReadyFor accounts (shelvesAfter s.standing) st.transactionDetails.action) :
    ∃ after, processChannelTransactions accounts (ActionLog.transactionLogOf st) .apply
        s.channels = .ok after ∧
      processChannelTransactions accounts (ActionLog.transactionLogOf st) .revert after =
        .ok s.channels ∧
      Published accounts (s.standing ++ [st]) ∧
      ShowsExactly accounts (shelvesAfter (s.standing ++ [st])) after := by
  have sorted := sorted_after h.published
  have waits : ∀ content, st.transactionDetails.action = .content content →
      content.channelAddress ∈ accounts →
        (shelvesAfter s.standing content.channelAddress content.contentId).pending ≠ ∅ :=
    fun content action tracked => (ready content action tracked).waits
  have once : ∀ content, st.transactionDetails.action = .content content →
      content.channelAddress ∈ accounts → ∀ uri, 1 < content.contentUnitUris.count uri →
        (shelvesAfter s.standing content.channelAddress content.contentId).findApproved uri ≠
          none := by
    intro content action tracked uri twice none
    have found := @Publishes.found _ _ (ActionLog.transactionLogOf st) publishes sorted content
      action uri (List.count_pos_iff.mp (by omega))
    unfold Shelf.find at found
    rw [none, Option.or_none] at found
    have le := (ready content action tracked).once uri found
    omega
  obtain ⟨after, applied, shows⟩ := ShowsExactly.apply
    (ActionLog.transactionLogOf st) h.shows sorted publishes once
  obtain ⟨before, restored, shows'⟩ := ShowsExactly.revert
    (ActionLog.transactionLogOf st) shows sorted publishes waits
  cases shows'.unique h.shows
  refine ⟨after, applied, restored, published_concat.mpr ⟨h.published, publishes, waits⟩, ?_⟩
  rw [shelvesAfter_concat]
  exact shows

/-- A step keeps its promises exactly when it is fit, and is sound then. -/
theorem step_keeps_iff (empty : Externals.EmptyNoUri) {accounts : List String} {s : ChannelRun}
    (h : s.Sound accounts) (event : ChannelEvent) :
    (Keeps accounts s event ↔ Fit accounts s event) ∧
      (Fit accounts s event → (s.step accounts event).Sound accounts) := by
  have sorted := sorted_after h.published
  cases event with
  | apply ctx layer st =>
      cases accepted : accept ctx layer st s.ledger with
      | error e =>
          have idle : s.step accounts (.apply ctx layer st) = s := by
            rw [step, accepted]
          rw [idle]
          refine ⟨iff_of_true ?_ ?_, fun _ => h⟩
          · intro ledger ok
            rw [accepted] at ok
            cases ok
          · intro ledger ok
            rw [accepted] at ok
            cases ok
      | ok ledger =>
          obtain ⟨publishes, units⟩ := publishes_of_accept empty h.units accepted
          have ready := fit_apply_iff h accepted publishes
          have run : s.step accounts (.apply ctx layer st) = ⟨ledger, s.standing ++ [st],
              read s.channels (processChannelTransactions accounts
                (ActionLog.transactionLogOf st) .apply s.channels)⟩ := by
            rw [step, accepted]
          constructor
          · constructor
            · intro keeps
              obtain ⟨after, applied, restored, _⟩ := keeps ledger accepted
              exact ready.mpr (ready_of_restored h.shows sorted publishes applied restored)
            · intro fit ledger' _
              obtain ⟨after, applied, restored, published, shows⟩ :=
                apply_of_ready h publishes (ready.mp fit)
              exact ⟨after, applied, restored, tidy_of_shows published shows⟩
          · intro fit
            obtain ⟨after, applied, _, published, shows⟩ :=
              apply_of_ready h publishes (ready.mp fit)
            rw [run, applied]
            refine ⟨?_, published, shows⟩
            rw [documentsAfter_concat]
            exact units
  | revert ctx layer =>
      rcases List.eq_nil_or_concat' s.standing with none | ⟨standing, st, stands⟩
      · have last : s.standing.getLast? = Option.none := by
          rw [none]
          rfl
        have idle : s.step accounts (.revert ctx layer) = s := by
          rw [step, last]
        rw [idle]
        refine ⟨iff_of_true ?_ trivial, fun _ => h⟩
        intro st ledger found
        rw [last] at found
        cases found
      · have last : s.standing.getLast? = some st := by
          rw [stands, List.getLast?_concat]
        obtain ⟨published, publishes, waits⟩ := published_concat.mp (stands ▸ h.published)
        have shows := h.shows
        rw [stands, shelvesAfter_concat] at shows
        obtain ⟨before, restored, shows⟩ := ShowsExactly.revert
          (ActionLog.transactionLogOf st) shows (sorted_after published) publishes waits
        refine ⟨iff_of_true ?_ trivial, fun _ => ?_⟩
        · intro st' ledger found _
          cases last.symm.trans found
          exact ⟨before, restored, tidy_of_shows published shows⟩
        · cases reverted : actionRevert ctx st layer s.ledger with
          | error e =>
              have idle : s.step accounts (.revert ctx layer) = s := by
                simp only [step, last, reverted]
              rw [idle]
              exact h
          | ok ledger =>
              have run : s.step accounts (.revert ctx layer) =
                  ⟨ledger, standing, before⟩ := by
                simp only [step, last, reverted, restored, read]
                rw [stands, List.dropLast_concat]
              rw [run]
              refine ⟨?_, published, shows⟩
              apply units_of_revert _ publishes reverted
              rw [← documentsAfter_concat, ← stands]
              exact h.units
  | between ledger =>
      refine ⟨Iff.rfl, fun _ => ?_⟩
      rw [step]
      split_ifs with same
      · exact ⟨same.trans h.units, h.published, h.shows⟩
      · exact h

/-- The explorer keeps its promises in a run exactly when every event is fit. -/
theorem keeps_channels_iff_fit (empty : Externals.EmptyNoUri) (accounts : List String)
    (events : List ChannelEvent) :
    Always accounts (Keeps accounts) start events ↔ Always accounts (Fit accounts) start events := by
  have from_sound : ∀ s : ChannelRun, s.Sound accounts →
      (Always accounts (Keeps accounts) s events ↔ Always accounts (Fit accounts) s events) := by
    induction events with
    | nil => exact fun _ _ => Iff.rfl
    | cons event rest ih =>
        intro s h
        obtain ⟨keeps, sound⟩ := step_keeps_iff empty h event
        constructor
        · rintro ⟨first, later⟩
          have fit := keeps.mp first
          exact ⟨fit, (ih _ (sound fit)).mp later⟩
        · rintro ⟨fit, later⟩
          exact ⟨keeps.mpr fit, (ih _ (sound fit)).mpr later⟩
  exact from_sound start (sound_start accounts)

end

section Examples

local instance channelExternals : Externals := readingExternals

theorem always_concat {accounts : List String} {P : ChannelRun → ChannelEvent → Prop}
    {events : List ChannelEvent} {event : ChannelEvent} {s : ChannelRun} :
    Always accounts P s (events ++ [event]) ↔
      Always accounts P s events ∧ P (events.foldl (step accounts) s) event := by
  induction events generalizing s with
  | nil => simp [Always]
  | cons first rest ih =>
      rw [List.cons_append, Always, ih, Always, and_assoc]
      rfl

def staked : Checked Ledger :=
  increaseRewards (exampleNode "own" .blockchain) [⟨"channel", ⟨100000, 0⟩, .initial⟩] default

theorem staked_isOk : staked.isOk = true := by decide +kernel

def taken (action : Action) : ChannelEvent :=
  .apply (exampleNode "own" .blockchain) .chain (byChannel 0 action)

def unitsOf (uris : List String) : Action := .content ⟨0, "channel", uris⟩

def unitTaken : List ChannelEvent :=
  [.between (okValue _ staked_isOk), taken (.role ⟨"channel", .channel⟩),
    taken (.file ⟨"file", ["channel"]⟩),
    taken (.contentUnit ⟨"unit", 0, ["channel"], "channel", ["file"]⟩)]

def stateAfter (events : List ChannelEvent) : ChannelRun := events.foldl (step ["channel"]) start

theorem unitTaken_waits : historiesOf (stateAfter unitTaken).channels "channel" 0 =
    some [⟨false, (∅ : ShownUnits).insert "unit" ⟨["channel"], ["file"]⟩⟩] := by
  decide +kernel

/-- The first approval of a unit is read and can be taken back. -/
theorem first_approval_kept : Always ["channel"] (Keeps ["channel"]) start
    (unitTaken ++ [taken (unitsOf ["unit"])]) := by
  apply (keeps_channels_iff_fit readingExternals_emptyNoUri ["channel"] _).mpr
  refine always_concat.mpr ⟨⟨trivial, ?_, ?_, ?_, trivial⟩, ?_⟩
  · intro _ _ content action
    cases action
  · intro _ _ content action
    cases action
  · intro _ _ content action
    cases action
  · intro _ _ content action _ histories found
    cases action
    cases unitTaken_waits.symm.trans found
    exact ⟨_, rfl, rfl, fun uri _ => List.count_le_length⟩

theorem approved_again_accepted : (accept (exampleNode "own" .blockchain) .chain
    (byChannel 0 (unitsOf ["unit"]))
      (stateAfter (unitTaken ++ [taken (unitsOf ["unit"])])).ledger).isOk = true := by
  decide +kernel

theorem named_twice_accepted : (accept (exampleNode "own" .blockchain) .chain
    (byChannel 0 (unitsOf ["unit", "unit"])) (stateAfter unitTaken).ledger).isOk = true := by
  decide +kernel

/-- A unit that is approved again leaves an empty content when this is taken back, and a unit
that waits and is named twice is not found. -/
theorem approvals_not_kept :
    ¬ Always ["channel"] (Keeps ["channel"]) start
        (unitTaken ++ [taken (unitsOf ["unit"])] ++ [taken (unitsOf ["unit"])]) ∧
      ¬ Always ["channel"] (Keeps ["channel"]) start
        (unitTaken ++ [taken (unitsOf ["unit", "unit"])]) := by
  constructor
  · intro kept
    obtain ⟨after, applied, restored, _⟩ :=
      (always_concat.mp kept).2 _ (eq_okValue approved_again_accepted)
    have emptied : ((processChannelTransactions ["channel"]
        (ActionLog.transactionLogOf (byChannel 0 (unitsOf ["unit"]))) .apply
          (stateAfter (unitTaken ++ [taken (unitsOf ["unit"])])).channels >>=
        processChannelTransactions ["channel"]
          (ActionLog.transactionLogOf (byChannel 0 (unitsOf ["unit"]))) .revert).toOption.map
        fun channels => decide (channels =
          (stateAfter (unitTaken ++ [taken (unitsOf ["unit"])])).channels)) = some false := by
      decide +kernel
    change processChannelTransactions _ _ .apply
      (stateAfter (unitTaken ++ [taken (unitsOf ["unit"])])).channels = .ok after at applied
    rw [applied, ok_bind, restored] at emptied
    simp [Except.toOption, stateAfter] at emptied
  · intro kept
    obtain ⟨after, applied, _⟩ := (always_concat.mp kept).2 _ (eq_okValue named_twice_accepted)
    have thrown : (processChannelTransactions ["channel"]
        (ActionLog.transactionLogOf (byChannel 0 (unitsOf ["unit", "unit"]))) .apply
          (stateAfter unitTaken).channels).isOk = false := by
      decide +kernel
    change processChannelTransactions _ _ .apply (stateAfter unitTaken).channels = .ok after
      at applied
    rw [applied] at thrown
    cases thrown

end Examples

end ChannelRun

end Publiq
