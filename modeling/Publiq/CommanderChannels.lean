import Publiq.CommanderHistories
import Publiq.CommanderStorages

/-! The channels that the explorer shows. A content of a channel is the shelf that the logged
transactions leave, and the node has checked what the explorer relies on, but for one thing: it
does not ask whether a content names a unit twice. -/
namespace Publiq
open Message Checked

def Message.Action.onShelf (channel : String) (contentId : UInt64) (shelf : Shelf) :
    Action → Shelf
  | .contentUnit unit =>
      if unit.channelAddress = channel ∧ unit.contentId = contentId then
        shelf.add unit.uri ⟨unit.authorAddresses, unit.fileUris⟩
      else shelf
  | .content approval =>
      if approval.channelAddress = channel ∧ approval.contentId = contentId then
        shelf.approve approval.contentUnitUris
      else shelf
  | _ => shelf

def shelfOf (transactions : List Booked) (channel : String) (contentId : UInt64) : Shelf :=
  transactions.foldl (fun shelf b => b.log.action.onShelf channel contentId shelf) ⟨[], ∅⟩

/-- The shelf has the units that the node has for the content. -/
structure Sorted (docs : Documents) (channel : String) (contentId : UInt64) (shelf : Shelf) :
    Prop where
  tidy : shelf.Tidy
  has : ∀ uri, shelf.find uri ≠ none ↔ ∃ unit, docs.units[uri]? = some unit ∧
    unit.channelAddress = channel ∧ unit.contentId = contentId

theorem sorted_nil (channel : String) (contentId : UInt64) :
    Sorted (documentsOf []) channel contentId (shelfOf [] channel contentId) := by
  refine ⟨⟨fun uri _ => rfl, fun units hunits => ?_⟩, fun uri => ?_⟩
  · cases hunits
  · have hnone : (shelfOf [] channel contentId).find uri = none := by
      change Option.or ((∅ : ShownUnits)[uri]?) none = none
      rw [Std.ExtTreeMap.getElem?_empty]
      rfl
    rw [hnone]
    constructor
    · intro h
      exact absurd rfl h
    · rintro ⟨unit, hunit, _⟩
      change (∅ : Std.ExtTreeMap String ContentUnit)[uri]? = some unit at hunit
      rw [Std.ExtTreeMap.getElem?_empty] at hunit
      cases hunit

theorem units_shelve {action : Action} (docs : Documents)
    (other : ∀ unit, action ≠ .contentUnit unit) : (action.shelve docs).units = docs.units := by
  cases action with
  | contentUnit unit => exact absurd rfl (other unit)
  | _ => rfl

/-- What the node has checked of the units and contents that are published. -/
structure Publishes (docs : Documents) (action : Action) : Prop where
  unit : ∀ unit, action = .contentUnit unit → docs.units[unit.uri]? = none
  content : ∀ content, action = .content content → content.contentUnitUris ≠ [] ∧
    ∀ uri ∈ content.contentUnitUris, ∃ unit, docs.units[uri]? = some unit ∧
      unit.channelAddress = content.channelAddress ∧ unit.contentId = content.contentId

/-- One more transaction keeps the shelf sorted. -/
theorem Sorted.step {docs : Documents} {channel : String} {contentId : UInt64} {shelf : Shelf}
    (sorted : Sorted docs channel contentId shelf) {action : Action}
    (publishes : Publishes docs action) :
    Sorted (action.shelve docs) channel contentId (action.onShelf channel contentId shelf) := by
  cases action with
  | contentUnit unit =>
      have hnew := publishes.unit unit rfl
      have hunits : ∀ uri, (docs.insertUnit unit).units[uri]? =
          if unit.uri = uri then some unit else docs.units[uri]? := by
        intro uri
        change (docs.units.insertIfNew unit.uri unit)[uri]? = _
        rw [Std.ExtTreeMap.getElem?_insertIfNew]
        by_cases hkey : unit.uri = uri
        · subst hkey
          have habsent : unit.uri ∉ docs.units := by
            rw [Std.ExtTreeMap.mem_iff_isSome_getElem?, hnew]
            exact Bool.false_ne_true
          simp [habsent]
        · simp [hkey]
      have habsent : shelf.find unit.uri = none := by
        by_contra hfound
        obtain ⟨other, hother, _⟩ := (sorted.has unit.uri).mp hfound
        rw [hnew] at hother
        cases hother
      change Sorted (docs.insertUnit unit) channel contentId
        (if unit.channelAddress = channel ∧ unit.contentId = contentId then _ else shelf)
      by_cases hplace : unit.channelAddress = channel ∧ unit.contentId = contentId
      · rw [if_pos hplace]
        refine ⟨sorted.tidy.add habsent _, fun uri => ?_⟩
        rw [Shelf.find_add, hunits]
        split_ifs with hkey
        · simp [hplace]
        · exact sorted.has uri
      · rw [if_neg hplace]
        refine ⟨sorted.tidy, fun uri => ?_⟩
        rw [hunits]
        split_ifs with hkey
        · subst hkey
          rw [habsent]
          simpa using not_and.mp hplace
        · exact sorted.has uri
  | content content =>
      obtain ⟨some_uri, hunits⟩ := publishes.content content rfl
      change Sorted docs channel contentId
        (if content.channelAddress = channel ∧ content.contentId = contentId then _ else shelf)
      by_cases hplace : content.channelAddress = channel ∧ content.contentId = contentId
      · rw [if_pos hplace]
        obtain ⟨rfl, rfl⟩ := hplace
        refine ⟨sorted.tidy.approve some_uri fun uri huri => (sorted.has uri).mpr (hunits uri huri),
          fun uri => ?_⟩
        rw [Shelf.find_approve]
        exact sorted.has uri
      · rw [if_neg hplace]
        exact sorted
  | _ => exact ⟨sorted.tidy, fun uri => sorted.has uri⟩

section
variable {channels : Channels} {channel : String} {contentId : UInt64}
  {item : CommanderMessage.ChannelsResponseItem} {histories : List CommanderMessage.Content}

theorem findHistories_ok (h : historiesOf channels channel contentId = some histories) :
    ∃ item, findHistories channels channel contentId = .ok (item, histories) ∧
      channels[channel]? = some item := by
  unfold historiesOf at h
  cases hitem : channels[channel]? with
  | none =>
      rw [hitem] at h
      cases h
  | some item =>
      rw [hitem, Option.bind_some] at h
      refine ⟨item, ?_, rfl⟩
      unfold findHistories
      rw [hitem]
      simp only [h]

theorem historiesOf_store (hitem : (channels[channel]?.map (·.contents)).getD ∅ = item.contents)
    (other : String) (otherId : UInt64) :
    historiesOf (channels.insert channel
        { item with contents := item.contents.insert contentId histories }) other otherId =
      if channel = other ∧ contentId = otherId then some histories
      else historiesOf channels other otherId := by
  unfold historiesOf
  rw [Std.ExtTreeMap.getElem?_insert]
  by_cases hchannel : channel = other
  · subst hchannel
    have hold : (channels[channel]?.bind fun item => item.contents[otherId]?) =
        item.contents[otherId]? := by
      rw [← hitem]
      cases channels[channel]? with
      | none =>
          change none = (∅ : Std.ExtTreeMap UInt64 (List CommanderMessage.Content))[otherId]?
          rw [Std.ExtTreeMap.getElem?_empty]
      | some old => rfl
    rw [hold]
    by_cases hid : contentId = otherId
    · simp [hid]
    · simp [hid, Std.ExtTreeMap.getElem?_insert]
  · simp [hchannel]

/-- The histories of one content are stored, or nothing of it any more. -/
theorem historiesOf_remove (hitem : channels[channel]? = some item)
    {contents : Std.ExtTreeMap UInt64 (List CommanderMessage.Content)}
    (hleft : contents = if histories = [] then item.contents.erase contentId
      else item.contents.insert contentId histories) (other : String) (otherId : UInt64) :
    historiesOf (if contents.isEmpty then channels.erase channel
        else channels.insert channel { item with contents }) other otherId =
      if channel = other ∧ contentId = otherId then
        if histories = [] then none else some histories
      else historiesOf channels other otherId := by
  have hcontents : ∀ otherId : UInt64, contents[otherId]? = if contentId = otherId then
      (if histories = [] then none else some histories) else item.contents[otherId]? := by
    intro otherId
    rw [hleft]
    by_cases hempty : histories = []
    · rw [if_pos hempty, if_pos hempty, Std.ExtTreeMap.getElem?_erase]
      by_cases hid : contentId = otherId <;> simp [hid]
    · rw [if_neg hempty, if_neg hempty, Std.ExtTreeMap.getElem?_insert]
      by_cases hid : contentId = otherId <;> simp [hid]
  unfold historiesOf
  by_cases hchannel : channel = other
  · subst hchannel
    have hafter : ((if contents.isEmpty then channels.erase channel
        else channels.insert channel { item with contents })[channel]?.bind
          fun item => item.contents[otherId]?) = contents[otherId]? := by
      by_cases hempty : contents.isEmpty = true
      · rw [if_pos hempty, Std.ExtTreeMap.isEmpty_iff.mp hempty]
        simp
      · rw [if_neg hempty]
        simp
    rw [hafter, hcontents, hitem]
    by_cases hid : contentId = otherId <;> simp [hid]
  · have hafter : (if contents.isEmpty then channels.erase channel
        else channels.insert channel { item with contents })[other]? = channels[other]? := by
      split_ifs
      · rw [Std.ExtTreeMap.getElem?_erase]
        simp [hchannel]
      · rw [Std.ExtTreeMap.getElem?_insert]
        simp [hchannel]
    rw [hafter]
    simp [hchannel]

end

def ShowsChannels (accounts : List String) (shelves : String → UInt64 → Shelf)
    (channels : Channels) : Prop :=
  ∀ channel ∈ accounts, ∀ contentId,
    (shelves channel contentId).Shown (historiesOf channels channel contentId)

section
variable {accounts : List String} {shelves shelves' : String → UInt64 → Shelf}
  {channels after : Channels} {channel : String} {contentId : UInt64}

theorem ShowsChannels.change {shown : Option (List CommanderMessage.Content)}
    (shows : ShowsChannels accounts shelves channels)
    (here : (shelves' channel contentId).Shown shown)
    (others : ∀ other otherId, ¬(channel = other ∧ contentId = otherId) →
      shelves' other otherId = shelves other otherId)
    (histories : ∀ other otherId, historiesOf after other otherId =
      if channel = other ∧ contentId = otherId then shown
      else historiesOf channels other otherId) : ShowsChannels accounts shelves' after := by
  intro other hother otherId
  rw [histories]
  by_cases hplace : channel = other ∧ contentId = otherId
  · obtain ⟨rfl, rfl⟩ := hplace
    rw [if_pos ⟨rfl, rfl⟩]
    exact here
  · rw [if_neg hplace, others other otherId hplace]
    exact shows other hother otherId

theorem Shelf.Shown.some_content {shelf : Shelf} {histories : List CommanderMessage.Content}
    (shown : shelf.Shown (some histories)) : shelf.approved ≠ [] ∨ shelf.pending ≠ ∅ := shown.1

theorem Shelf.insert_ne_empty (shelf : Shelf) (uri : String)
    (unit : CommanderMessage.ContentUnit) : (shelf.add uri unit).pending ≠ ∅ := by
  intro hempty
  have hunit : (shelf.pending.insert uri unit)[uri]? = some unit := by simp
  change shelf.pending.insert uri unit = ∅ at hempty
  rw [hempty, Std.ExtTreeMap.getElem?_empty] at hunit
  cases hunit

/-- A unit of a channel among the accounts is shown. -/
theorem ShowsChannels.applyUnit (shows : ShowsChannels accounts shelves channels)
    {unit : ContentUnit} (hmem : unit.channelAddress ∈ accounts) :
    ∃ after, Publiq.applyUnit unit channels = .ok after ∧ ShowsChannels accounts
      (fun channel contentId => (Action.contentUnit unit).onShelf channel contentId
        (shelves channel contentId)) after := by
  have hshown := shows unit.channelAddress hmem unit.contentId
  let shelf := shelves unit.channelAddress unit.contentId
  let shown : CommanderMessage.ContentUnit := ⟨unit.authorAddresses, unit.fileUris⟩
  suffices hstored : ∃ (item : CommanderMessage.ChannelsResponseItem)
      (histories : List CommanderMessage.Content), Publiq.applyUnit unit channels =
      .ok (channels.insert unit.channelAddress
        { item with contents := item.contents.insert unit.contentId histories }) ∧
      (channels[unit.channelAddress]?.map (·.contents)).getD ∅ = item.contents ∧
      (shelf.add unit.uri shown).Shown (some histories) by
    obtain ⟨item, histories, hok, hitem, hadded⟩ := hstored
    refine ⟨_, hok, shows.change ?_ (fun other otherId hplace => if_neg hplace)
      (historiesOf_store hitem)⟩
    change Shelf.Shown (if _ then _ else _) _
    rw [if_pos ⟨rfl, rfl⟩]
    exact hadded
  have hbegins : shelf.Shown none →
      (shelf.add unit.uri shown).Shown (some [⟨false, (∅ : ShownUnits).insert unit.uri shown⟩]) := by
    rintro ⟨happroved, hpending⟩
    refine ⟨.inr (shelf.insert_ne_empty _ _), [⟨false, (shelf.add unit.uri shown).pending⟩],
      ?_, .inl rfl⟩
    change _ = Shelf.approvedContents shelf.approved ++ [⟨false, shelf.pending.insert _ _⟩]
    rw [happroved, hpending]
    rfl
  unfold historiesOf at hshown
  cases hitem : channels[unit.channelAddress]? with
  | none =>
      rw [hitem] at hshown
      refine ⟨⟨unit.channelAddress, ∅⟩, _, ?_, rfl, hbegins hshown⟩
      unfold Publiq.applyUnit
      rw [hitem]
      rfl
  | some item =>
      rw [hitem, Option.bind_some] at hshown
      cases hhistories : item.contents[unit.contentId]? with
      | none =>
          rw [hhistories] at hshown
          refine ⟨item, _, ?_, rfl, hbegins hshown⟩
          unfold Publiq.applyUnit
          rw [hitem]
          simp only [hhistories]
          rfl
      | some histories =>
          rw [hhistories] at hshown
          obtain ⟨some_content, tail, rfl, behind⟩ := hshown
          refine ⟨item, _, ?_, rfl, .inr (shelf.insert_ne_empty unit.uri shown), _, rfl, .inl rfl⟩
          unfold Publiq.applyUnit
          rw [hitem]
          simp only [hhistories]
          rw [Histories.addUnit_ok behind some_content]
          rfl

theorem Shelf.Shown.of_remains (shelf : Shelf) : shelf.Shown
    (if (Shelf.approvedContents shelf.approved ++
        if shelf.pending.isEmpty then [] else [⟨false, shelf.pending⟩]) = [] then none
      else some (Shelf.approvedContents shelf.approved ++
        if shelf.pending.isEmpty then [] else [⟨false, shelf.pending⟩])) := by
  by_cases happroved : shelf.approved = []
  · rw [happroved]
    by_cases hpending : shelf.pending.isEmpty = true
    · rw [if_pos hpending]
      exact ⟨happroved, Std.ExtTreeMap.isEmpty_iff.mp hpending⟩
    · rw [if_neg hpending]
      refine ⟨.inr fun h => hpending (Std.ExtTreeMap.isEmpty_iff.mpr h), _, ?_, .inl rfl⟩
      rw [happroved]
  · obtain ⟨older, last, _, hcontents⟩ := Shelf.getLast?_approvedContents happroved
    rw [if_neg (by rw [hcontents]; simp)]
    refine ⟨.inl happroved, _, rfl, ?_⟩
    by_cases hpending : shelf.pending.isEmpty = true
    · exact .inr ⟨if_pos hpending, Std.ExtTreeMap.isEmpty_iff.mp hpending⟩
    · exact .inl (if_neg hpending)

/-- And is shown no longer when it is taken back. -/
theorem ShowsChannels.revertUnit {unit : ContentUnit}
    (shows : ShowsChannels accounts (fun channel contentId =>
      (Action.contentUnit unit).onShelf channel contentId (shelves channel contentId)) channels)
    (hmem : unit.channelAddress ∈ accounts)
    (new : (shelves unit.channelAddress unit.contentId).pending[unit.uri]? = none) :
    ∃ after, Publiq.revertUnit unit channels = .ok after ∧
      ShowsChannels accounts shelves after := by
  have hshown := shows unit.channelAddress hmem unit.contentId
  let shelf := shelves unit.channelAddress unit.contentId
  let shown : CommanderMessage.ContentUnit := ⟨unit.authorAddresses, unit.fileUris⟩
  change Shelf.Shown (if _ then shelf.add unit.uri shown else _) _ at hshown
  rw [if_pos ⟨rfl, rfl⟩] at hshown
  cases hhistories : historiesOf channels unit.channelAddress unit.contentId with
  | none =>
      rw [hhistories] at hshown
      exact absurd hshown.2 (shelf.insert_ne_empty _ _)
  | some histories =>
      rw [hhistories] at hshown
      obtain ⟨_, tail, rfl, behind⟩ := hshown
      obtain ⟨item, hfind, hitem⟩ := findHistories_ok hhistories
      have hremove := Histories.removeUnit_ok behind new
      refine ⟨_, ?_, shows.change (Shelf.Shown.of_remains shelf)
        (fun other otherId hplace => (if_neg hplace).symm) (historiesOf_remove hitem rfl)⟩
      unfold Publiq.revertUnit
      rw [hfind, ok_bind]
      change (Histories.removeUnit unit.uri (Shelf.approvedContents shelf.approved ++ tail) >>= _)
        = _
      rw [hremove, ok_bind]
      rfl

end

end Publiq
