import Publiq.SponsorshipIntervals

/-! The four tables of the sponsorships tell of the same ones, and the index of a unit tells what
of it is still to be paid. -/
namespace Publiq
open Message Checked

namespace Documents

/-- Every entry of the tables is about a sponsorship, and there is one of each kind for it. -/
structure TablesAgree (docs : Documents) : Prop where
  recorded : ∀ (uri : String) cusi, docs.sponsored[uri]? = some cusi →
    ∀ item ∈ cusi.sponsoredInformations, ∃ number manuallyCancelled,
      docs.hashToBlock[item.transactionHash]? = some number ∧
      (docs.expiring.get number)[item.transactionHash]? =
        some ⟨uri, item.transactionHash, number, manuallyCancelled⟩
  /-- No other list has an entry for it. -/
  alone : ∀ number (hash : String) entry, (docs.expiring.get number)[hash]? = some entry →
    docs.hashToBlock[hash]? = some number
  known : ∀ (hash : String) number, docs.hashToBlock[hash]? = some number →
    ∃ (uri : String) (cusi : ContentUnitSponsoredInformation) (item : SponsoredInformation),
      docs.sponsored[uri]? = some cusi ∧ item ∈ cusi.sponsoredInformations ∧
      item.transactionHash = hash
  once : ∀ (uri other : String) (cusi unit : ContentUnitSponsoredInformation) (i j : ℕ)
    (a b : SponsoredInformation), docs.sponsored[uri]? = some cusi →
    docs.sponsored[other]? = some unit → cusi.sponsoredInformations[i]? = some a →
    unit.sponsoredInformations[j]? = some b → a.transactionHash = b.transactionHash →
    uri = other ∧ i = j

theorem SponsorshipsSound.once {docs : Documents} (sound : SponsorshipsSound docs)
    {uri other : String} {cusi unit : ContentUnitSponsoredInformation} {i j : ℕ}
    {a b : SponsoredInformation} (hcusi : docs.sponsored[uri]? = some cusi)
    (hunit : docs.sponsored[other]? = some unit) (ha : cusi.sponsoredInformations[i]? = some a)
    (hb : unit.sponsoredInformations[j]? = some b) (h : a.transactionHash = b.transactionHash) :
    uri = other ∧ i = j := by
  have huri : uri = other :=
    (sound.recorded uri cusi hcusi a (List.mem_of_getElem? ha)).uri_eq
      (sound.recorded other unit hunit b (List.mem_of_getElem? hb)) h
  subst huri
  cases hcusi.symm.trans hunit
  exact ⟨rfl, (sound.orderly uri cusi hcusi).differ.index_eq ha hb h⟩

end Documents

/-- A call keeps every sponsorship in its place, but for its mark. -/
theorem SponsorshipCall.item_kept {docs after : Documents} (call : SponsorshipCall)
    (sound : docs.SponsorshipsSound) (permitted : call.Permitted docs)
    (h : call.apply docs = .ok after) {uri : String} {cusi : ContentUnitSponsoredInformation}
    (stored : docs.sponsored[uri]? = some cusi) {i : ℕ} {item : SponsoredInformation}
    (hitem : cusi.sponsoredInformations[i]? = some item) :
    ∃ unit kept, after.sponsored[uri]? = some unit ∧ unit.sponsoredInformations[i]? = some kept ∧
      (kept = item ∨ kept = { item with cancelled := true }) := by
  have at_insert : ∀ (other : String) (unit : ContentUnitSponsoredInformation),
      (other = uri → ∃ kept, unit.sponsoredInformations[i]? = some kept ∧
        (kept = item ∨ kept = { item with cancelled := true })) →
      ∃ unit' kept, (docs.sponsored.insert other unit)[uri]? = some unit' ∧
        unit'.sponsoredInformations[i]? = some kept ∧
        (kept = item ∨ kept = { item with cancelled := true }) := by
    intro other unit hunit
    rw [Std.ExtTreeMap.getElem?_insert]
    by_cases huri : other = uri
    · obtain ⟨kept, hkept, hmark⟩ := hunit huri
      exact ⟨unit, kept, if_pos (Std.compare_eq_iff_eq.mpr huri), hkept, hmark⟩
    · refine ⟨cusi, item, ?_, hitem, .inl rfl⟩
      rw [if_neg fun h => huri (Std.compare_eq_iff_eq.mp h)]
      exact stored
  cases effect_of_apply call sound h with
  | @sponsored chain spi hash amount noted number _ hnoted _ =>
      apply at_insert
      rintro rfl
      obtain ⟨_, hitems⟩ := Documents.sponsoredWith_spec (sound.orderly spi.uri)
        (sound.fresh_itemsOf permitted spi.uri) rfl hnoted
      rw [stored] at hitems
      refine ⟨item, ?_, .inl rfl⟩
      rw [hitems]
      exact List.getElem?_append_left (List.getElem?_eq_some_iff.mp hitem).1 ▸ hitem
  | absent _ => exact ⟨cusi, item, stored, hitem, .inl rfl⟩
  | idle _ _ _ => exact ⟨cusi, item, stored, hitem, .inl rfl⟩
  | @viewed chain other manual blockNumber unit noted hunit hnoted =>
      apply at_insert
      rintro rfl
      cases stored.symm.trans hunit
      rw [(Documents.refreshIndex_rest hnoted).1]
      exact ⟨item, hitem, .inl rfl⟩
  | @settled chain other hash manual blockNumber number unit u _ hunit hu _ _ =>
      obtain ⟨hthere, _⟩ := Documents.Unpaid.item_of_unpaid hu
      apply at_insert
      rintro rfl
      cases stored.symm.trans hunit
      rw [Documents.withMark_getElem? hthere]
      split_ifs with hi
      · subst hi
        cases hitem.symm.trans hthere
        exact ⟨_, rfl, .inr rfl⟩
      · exact ⟨item, hitem, .inl rfl⟩

/-- The documents know the sponsorships that they have, and no others. -/
theorem Built.tablesAgree {past : StandingCalls} {docs : Documents} (built : Built past docs) :
    docs.TablesAgree := by
  have known : ∀ (hash : String) number, docs.hashToBlock[hash]? = some number →
      ∃ (uri : String) (cusi : ContentUnitSponsoredInformation) (item : SponsoredInformation),
        docs.sponsored[uri]? = some cusi ∧ item ∈ cusi.sponsoredInformations ∧
        item.transactionHash = hash := by
    induction built with
    | @start docs hstart =>
        intro hash number h
        rw [hstart.hashToBlock] at h
        exact absurd h (by simp [show (default : Documents).hashToBlock = ∅ from rfl])
    | @apply past call before mid after hbuilt permitted happly hsame ih =>
        intro hash number h
        rw [← hsame.hashToBlock] at h
        rw [← hsame.sponsored]
        have kept (old : ℕ) (hold : before.hashToBlock[hash]? = some old) :
            ∃ (uri : String) (cusi : ContentUnitSponsoredInformation)
              (item : SponsoredInformation), mid.sponsored[uri]? = some cusi ∧
              item ∈ cusi.sponsoredInformations ∧ item.transactionHash = hash := by
          obtain ⟨uri, cusi, item, stored, hitem, hhash⟩ := ih hash old hold
          obtain ⟨i, hi⟩ := List.getElem?_of_mem hitem
          obtain ⟨unit, same, hunit, hthere, hmark⟩ :=
            call.item_kept hbuilt.sound permitted happly stored hi
          refine ⟨uri, unit, same, hunit, List.mem_of_getElem? hthere, ?_⟩
          rcases hmark with rfl | rfl
          · exact hhash
          · exact hhash
        cases call.effect_of_apply hbuilt.sound happly with
        | @sponsored chain spi name amount cusi n _ hcusi _ =>
            rw [Documents.withSponsorship_hashToBlock] at h
            split_ifs at h with hname
            · subst hname
              obtain ⟨_, hitems⟩ := Documents.sponsoredWith_spec (hbuilt.sound.orderly spi.uri)
                (hbuilt.sound.fresh_itemsOf permitted spi.uri) rfl hcusi
              refine ⟨spi.uri, cusi, { Documents.newSponsorship spi amount name with
                timePointsUsedBefore := cusi.timePointsUsed.length },
                Std.ExtTreeMap.getElem?_insert_self, ?_, rfl⟩
              rw [hitems]
              exact List.mem_append_right _ List.mem_cons_self
            · exact kept number h
        | absent _ => exact kept number h
        | idle _ _ _ => exact kept number h
        | viewed _ _ => exact kept number h
        | settled _ _ _ _ _ => exact kept number h
  refine ⟨fun uri cusi stored item hitem => ?_, built.sound.listed, known,
    fun uri other cusi unit i j a b hcusi hunit ha hb h => built.sound.once hcusi hunit ha hb h⟩
  obtain ⟨number, manuallyCancelled, hnumber, hentry, _⟩ :=
    built.sound.recorded uri cusi stored item hitem
  exact ⟨number, manuallyCancelled, hnumber, hentry⟩

/-- What was sponsored last can be taken back. Its expiring block is the one that is stored. -/
theorem Built.revert_sponsor {past : StandingCalls} {chain : Blockchain} {spi : SponsorContentUnit}
    {hash : String} {before docs : Documents}
    (built : Built ((.sponsor chain spi hash, before) :: past) docs) :
    (∃ number cusi item, docs.sponsored[spi.uri]? = some cusi ∧
      cusi.sponsoredInformations.getLast? = some item ∧
      docs.hashToBlock[hash]? = some number ∧
      Documents.getExpiringBlockNumber chain item.endTimePoint = .ok number) ∧
    ∃ after, docs.sponsorContentUnitRevert chain spi hash = .ok after := by
  cases built with
  | @apply _ _ _ mid _ hbuilt permitted happly hsame =>
      obtain ⟨amount, hamount, h⟩ := bind_ok_iff.mp happly
      constructor
      · obtain ⟨cusi, number, hcusi, hnumber, rfl⟩ := Documents.sponsorContentUnitApply_cases h
        obtain ⟨_, hitems⟩ := Documents.sponsoredWith_spec (hbuilt.sound.orderly spi.uri)
          (hbuilt.sound.fresh_itemsOf permitted spi.uri) rfl hcusi
        rw [← hsame.sponsored, ← hsame.hashToBlock]
        refine ⟨number, cusi, { Documents.newSponsorship spi amount hash with
          timePointsUsedBefore := cusi.timePointsUsed.length },
          Std.ExtTreeMap.getElem?_insert_self, ?_, ?_, hnumber⟩
        · rw [hitems, List.getLast?_concat]
        · rw [Documents.withSponsorship_hashToBlock, if_pos rfl]
      · have hundo := Documents.sponsorContentUnitRevert_apply hbuilt.sound permitted
          (Coin.toMessage_ofMessage hamount) h
        rw [← hsame.among_eq, Documents.sponsorContentUnitRevert_among, hundo]
        exact ⟨_, rfl⟩

namespace Documents
variable {cusi : ContentUnitSponsoredInformation}

def StartsNear (cusi : ContentUnitSponsoredInformation) : Prop :=
  ∀ item ∈ cusi.sponsoredInformations, item.startTimePoint - lastUsed cusi ≤ 2 * clockRange

theorem startDelay_eq {tp : ℤ} {item : SponsoredInformation}
    (near : item.startTimePoint - tp ≤ 2 * clockRange) :
    startDelay tp item = max 0 (item.startTimePoint - tp) := by
  unfold startDelay
  split_ifs with h
  · rw [clockSeconds_eq (by unfold clockRange; omega) near]
    omega
  · omega

theorem Refreshed.pairwise (refreshed : Refreshed cusi) :
    cusi.indexSi.Pairwise fun i j => ∀ a b, cusi.sponsoredInformations[i]? = some a →
      cusi.sponsoredInformations[j]? = some b →
      startDelay (lastUsed cusi) a ≤ startDelay (lastUsed cusi) b := by
  refine refreshed.pairwise_entries.imp_of_mem fun {i j} hi hj hij first second hfirst hsecond => ?_
  obtain ⟨a, ha⟩ := refreshed.indexed hi
  obtain ⟨b, hb⟩ := refreshed.indexed hj
  have delay {k : ℕ} {entry : ℤ × ℕ} (hentry : indexEntry cusi k = some entry)
      {item : SponsoredInformation} (hitem : cusi.sponsoredInformations[k]? = some item) :
      entry.1 = startDelay (lastUsed cusi) item := by
    unfold indexEntry at hentry
    simp only [hitem] at hentry
    split_ifs at hentry
    cases hentry
    rfl
  rw [← delay ha hfirst, ← delay hb hsecond]
  exact hij a b ha hb

theorem mem_takeWhile_of_pairwise {α : Type} {p : α → Bool} {l : List α}
    (ordered : l.Pairwise fun a b => p b = true → p a = true) {a : α} (ha : a ∈ l)
    (hp : p a = true) : a ∈ l.takeWhile p := by
  induction l with
  | nil => cases ha
  | cons b rest ih =>
      rw [List.pairwise_cons] at ordered
      rcases List.mem_cons.mp ha with rfl | hrest
      · rw [List.takeWhile_cons_of_pos hp]
        exact List.mem_cons_self
      · rw [List.takeWhile_cons_of_pos (ordered.1 a hrest hp)]
        exact List.mem_cons_of_mem b (ih ordered.2 hrest)

/-- A walk up to a time after the last used one comes to everything in the index that starts
before it. -/
theorem mem_reached_of_start (refreshed : Refreshed cusi) (near : StartsNear cusi) {endTp : ℤ}
    (later : lastUsed cusi < endTp) {i : ℕ} (hindex : i ∈ cusi.indexSi)
    {item : SponsoredInformation} (hitem : cusi.sponsoredInformations[i]? = some item)
    (starts : item.startTimePoint < endTp) :
    (i, item) ∈ reached cusi.sponsoredInformations cusi.indexSi endTp := by
  apply mem_takeWhile_of_pairwise
  · rw [List.pairwise_filterMap]
    refine refreshed.pairwise.imp fun {j k} hjk first hfirst second hsecond => ?_
    obtain ⟨a, ha, rfl⟩ := Option.map_eq_some_iff.mp hfirst
    obtain ⟨b, hb, rfl⟩ := Option.map_eq_some_iff.mp hsecond
    have hdelay := hjk a b ha hb
    rw [startDelay_eq (near a (List.mem_of_getElem? ha)),
      startDelay_eq (near b (List.mem_of_getElem? hb))] at hdelay
    simp only [decide_eq_true_iff]
    omega
  · exact List.mem_filterMap.mpr ⟨i, hindex, by rw [hitem]; rfl⟩
  · exact decide_eq_true starts

theorem mem_indexSi_iff (orderly : Orderly cusi) (inOrder : InOrder cusi) {i : ℕ}
    {item : SponsoredInformation} (hitem : cusi.sponsoredInformations[i]? = some item) :
    i ∈ cusi.indexSi ↔ isFinished cusi (lastUsed cusi) item = false := by
  constructor
  · intro hindex
    obtain ⟨found, hfound, hunfinished⟩ := orderly.refreshed.item hindex
    cases hitem.symm.trans hfound
    exact hunfinished
  · intro hunfinished
    apply inOrder.complete i (startDelay (lastUsed cusi) item, i)
    rw [indexEntry, hitem]
    simp only [hunfinished]
    rfl

end Documents

namespace SponsorshipCall

/-- What a call settles of the sponsorship of a hash: a view of a unit what it comes to and is not
cancelled, any other call what is left of the sponsorship that it names. -/
def Settles (call : SponsorshipCall) (docs : Documents) (hash : String) (tp : ℤ) : Prop :=
  match call with
  | .sponsor _ _ _ => False
  | .use _ _ _ name _ => ∃ paid, call.intervals .apply docs = .ok paid ∧ ∃ p ∈ paid,
      p.1.transactionHash = hash ∧ p.2.1 ≤ tp ∧ tp < p.2.2 ∧
      (name = "" ∧ p.1.cancelled = false ∨
        name ≠ "" ∧ name = hash ∧ Documents.paidPart p.1 p.2.1 p.2.2 ≠ .ok 0)

/-- The interval of a new sponsorship fits and begins in 1970 at the earliest, as the chain does.
A unit is viewed after the time up to which it was paid, or before any of its sponsorships
starts. -/
def Clear (call : SponsorshipCall) (docs : Documents) : Prop :=
  match call with
  | .sponsor _ spi _ => Documents.IntervalFits spi ∧ 0 ≤ clockSeconds spi.startTimePoint
  | .use chain uri blockNumber hash _ => hash = "" → ∀ cusi, docs.sponsored[uri]? = some cusi →
      0 ≤ Documents.payTime chain blockNumber ∧
      (Documents.lastUsed cusi < Documents.payTime chain blockNumber ∨
        ∀ item ∈ cusi.sponsoredInformations, item.cancelled = false →
          Documents.payTime chain blockNumber ≤ item.startTimePoint)

end SponsorshipCall

def SettledBy (past : StandingCalls) (hash : String) (tp : ℤ) : Prop :=
  ∃ standing ∈ past, standing.1.Settles standing.2 hash tp

theorem settledBy_cons {call : SponsorshipCall} {docs : Documents} {past : StandingCalls}
    {hash : String} {tp : ℤ} : SettledBy ((call, docs) :: past) hash tp ↔
      call.Settles docs hash tp ∨ SettledBy past hash tp := by
  simp only [SettledBy, List.mem_cons, exists_eq_or_imp]

/-- Something of the sponsored time is not paid yet. -/
def HasUnpaid (past : StandingCalls) (item : SponsoredInformation) : Prop :=
  ∃ tp, item.startTimePoint ≤ tp ∧ tp < item.endTimePoint ∧
    ¬ SettledBy past item.transactionHash tp

section
open Documents
variable {docs : Documents} {chain : Blockchain} {uri name manual hash : String} {blockNumber : ℕ}
  {tp : ℤ}

theorem intervals_use {cusi : ContentUnitSponsoredInformation}
    (stored : docs.sponsored[uri]? = some cusi) :
    (SponsorshipCall.use chain uri blockNumber name manual).intervals .apply docs =
      if lastUsed cusi < payTime chain blockNumber then
        .ok ((reached cusi.sponsoredInformations cusi.indexSi (payTime chain blockNumber)).map
          fun p => (p.2, paidUntil cusi p.2,
            if name ≠ "" then p.2.endTimePoint
            else min (payTime chain blockNumber) p.2.endTimePoint))
      else .ok [] := by
  simp only [SponsorshipCall.intervals, stored]
  by_cases hpays : lastUsed cusi < payTime chain blockNumber
  · rw [if_pos hpays, if_pos (show paysNow ⟨.apply, name, manual, false,
      payTime chain blockNumber, lastUsed cusi⟩ = true from decide_eq_true hpays)]
    rfl
  · rw [if_neg hpays, if_neg (show ¬ paysNow ⟨.apply, name, manual, false,
      payTime chain blockNumber, lastUsed cusi⟩ = true from fun h => hpays (of_decide_eq_true h))]
    rfl

/-- What a call settles, on the unit. -/
theorem settles_use_iff :
    (SponsorshipCall.use chain uri blockNumber name manual).Settles docs hash tp ↔
    ∃ cusi i item, docs.sponsored[uri]? = some cusi ∧ lastUsed cusi < payTime chain blockNumber ∧
      (i, item) ∈ reached cusi.sponsoredInformations cusi.indexSi (payTime chain blockNumber) ∧
      item.transactionHash = hash ∧ paidUntil cusi item ≤ tp ∧
      (name = "" ∧ item.cancelled = false ∧ tp < min (payTime chain blockNumber) item.endTimePoint ∨
        name ≠ "" ∧ name = hash ∧ tp < item.endTimePoint ∧
          paidPart item (paidUntil cusi item) item.endTimePoint ≠ .ok 0) := by
  constructor
  · rintro ⟨paid, hpaid, p, hp, hhash, hfrom, hto, htakes⟩
    cases hunit : docs.sponsored[uri]? with
    | none =>
        simp only [SponsorshipCall.intervals, hunit] at hpaid
        cases pure_ok_iff.mp hpaid
        cases hp
    | some cusi =>
        rw [intervals_use hunit] at hpaid
        by_cases hpays : lastUsed cusi < payTime chain blockNumber
        · rw [if_pos hpays] at hpaid
          cases hpaid
          obtain ⟨⟨i, item⟩, hreached, rfl⟩ := List.mem_map.mp hp
          refine ⟨cusi, i, item, rfl, hpays, hreached, hhash, hfrom, ?_⟩
          rcases htakes with ⟨hname, hkeeps⟩ | ⟨hname, hthis, hpart⟩
          · rw [if_neg (not_not.mpr hname)] at hto
            exact .inl ⟨hname, hkeeps, hto⟩
          · rw [if_pos hname] at hto hpart
            exact .inr ⟨hname, hthis, hto, hpart⟩
        · rw [if_neg hpays] at hpaid
          cases hpaid
          cases hp
  · rintro ⟨cusi, i, item, hunit, hpays, hreached, hhash, hfrom, htakes⟩
    refine ⟨_, (intervals_use hunit).trans (if_pos hpays), _, List.mem_map_of_mem hreached, hhash,
      hfrom, ?_⟩
    rcases htakes with ⟨hname, hkeeps, hto⟩ | ⟨hname, hthis, hto, hpart⟩
    · rw [if_neg (not_not.mpr hname)]
      exact ⟨hto, .inl ⟨hname, hkeeps⟩⟩
    · rw [if_pos hname]
      exact ⟨hto, .inr ⟨hname, hthis, hpart⟩⟩

/-- A call for a hash that finds nothing left settles nothing. -/
theorem not_settles_of_unpaid_none {cusi : ContentUnitSponsoredInformation}
    (orderly : Orderly cusi) (stored : docs.sponsored[uri]? = some cusi) (named : name ≠ "")
    (idle : unpaid cusi (payTime chain blockNumber) name = .ok none) :
    ¬ (SponsorshipCall.use chain uri blockNumber name manual).Settles docs hash tp := by
  rw [settles_use_iff]
  rintro ⟨unit, i, item, hunit, hpays, hreached, hhash, _, ⟨hname, _⟩ | ⟨_, rfl, _, hpart⟩⟩
  · exact named hname
  cases stored.symm.trans hunit
  obtain ⟨_, hitem, _⟩ := mem_reached hreached
  -- the walk finds the sponsorship of the hash, and no other one has it
  have hsome : ∃ found, target cusi.sponsoredInformations cusi.indexSi
      (payTime chain blockNumber) name = some found := by
    apply Option.isSome_iff_exists.mp
    exact List.find?_isSome.mpr ⟨_, hreached, decide_eq_true hhash⟩
  obtain ⟨⟨j, found⟩, htarget⟩ := hsome
  obtain ⟨_, hfound, hsame, _⟩ := target_some htarget
  obtain rfl := orderly.differ.index_eq hitem hfound (hhash.trans hsame.symm)
  cases hitem.symm.trans hfound
  rw [unpaid, htarget] at idle
  simp only [if_pos hpays] at idle
  obtain ⟨part, hpaid, hnone⟩ := bind_ok_iff.mp idle
  split_ifs at hnone with hzero
  · rw [hzero] at hpaid
    exact hpart hpaid
  · cases hnone

/-- A unit whose sponsorships all begin in 1970 at the earliest, with what of them was paid. -/
structure UnitClear (past : StandingCalls) (cusi : ContentUnitSponsoredInformation) : Prop where
  since : 0 ≤ lastUsed cusi
  starts : ∀ item ∈ cusi.sponsoredInformations, 0 ≤ item.startTimePoint ∧
    item.startTimePoint ≤ 2 * clockRange ∧ item.startTimePoint < item.endTimePoint
  paid : ∀ (i : ℕ) item, cusi.sponsoredInformations[i]? = some item → item.cancelled = false →
    ∀ tp, item.startTimePoint ≤ tp → tp < item.endTimePoint →
      (SettledBy past item.transactionHash tp ↔
        item.timePointsUsedBefore < cusi.timePointsUsed.length ∧ tp < lastUsed cusi)

theorem UnitClear.near {past : StandingCalls} {cusi : ContentUnitSponsoredInformation}
    (clear : UnitClear past cusi) : StartsNear cusi := by
  intro item hitem
  have hsince := clear.since
  have hstart := (clear.starts item hitem).2.1
  omega

theorem Built.known_of_settled {past : StandingCalls} (built : Built past docs)
    (settled : SettledBy past hash tp) : ∃ number, docs.hashToBlock[hash]? = some number := by
  induction built with
  | start _ => exact absurd settled (by simp [SettledBy])
  | @apply past call before mid after hbuilt permitted happly hsame ih =>
      rw [← hsame.hashToBlock]
      have hbefore : ∃ number, before.hashToBlock[hash]? = some number := by
        rcases settledBy_cons.mp settled with hthis | hearlier
        · cases call with
          | sponsor _ _ _ => cases hthis
          | use chain uri blockNumber name manual =>
              obtain ⟨cusi, i, item, hunit, _, hreached, rfl, _⟩ := settles_use_iff.mp hthis
              have hitem := List.mem_of_getElem? (mem_reached hreached).2.1
              obtain ⟨number, _, hnumber, _⟩ := hbuilt.sound.recorded uri cusi hunit item hitem
              exact ⟨number, hnumber⟩
        · exact ih hearlier
      obtain ⟨number, hnumber⟩ := hbefore
      exact ⟨number, call.hashToBlock_apply hbuilt.sound permitted happly hnumber⟩

section
variable {past : StandingCalls} {call : SponsorshipCall} {after : Documents}

theorem stored_end_later {spi : SponsorContentUnit}
    (accepted : (sponsoredInterval spi).1 < (sponsoredInterval spi).2) (fits : IntervalFits spi) :
    (sponsoredInterval spi).1 < clockSeconds (sponsoredInterval spi).2 := by
  have hours : spi.hours ≠ 0 := by
    intro hzero
    apply (sponsoredInterval_lt_iff spi).mp accepted
    left
    rw [sponsoredSeconds, hzero]
    rfl
  have positive : 0 < sponsoredSeconds spi := by
    have hpos : spi.hours.toNat ≠ 0 := fun h => hours (UInt64.toNat_inj.mp h)
    unfold sponsoredSeconds
    omega
  change clockSeconds spi.startTimePoint < clockSeconds (sponsoredInterval spi).2
  rw [(stored_end_iff hours).mpr fits.ends]
  omega

theorem starts_of_apply (built : Built past docs) (permitted : call.Permitted docs)
    (clear : call.Clear docs) (h : call.apply docs = .ok after)
    (before : ∀ (uri : String) cusi, docs.sponsored[uri]? = some cusi → UnitClear past cusi)
    {cusi : ContentUnitSponsoredInformation} (stored : after.sponsored[uri]? = some cusi) :
    ∀ item ∈ cusi.sponsoredInformations, 0 ≤ item.startTimePoint ∧
      item.startTimePoint ≤ 2 * clockRange ∧ item.startTimePoint < item.endTimePoint := by
  intro item hitem
  obtain ⟨i, hi⟩ := List.getElem?_of_mem hitem
  rcases call.item_of_apply built.sound permitted h stored hi with
    ⟨unit, old, hunit, hold, hmark⟩ | ⟨chain, spi, amount, rfl, _, heq⟩
  · have hstarts := (before uri unit hunit).starts old (List.mem_of_getElem? hold)
    rcases hmark with rfl | rfl
    · exact hstarts
    · exact hstarts
  · obtain ⟨_, _, happly⟩ := bind_ok_iff.mp h
    obtain ⟨accepted, _⟩ := require_bind_ok_iff.mp happly
    rw [heq]
    exact ⟨clear.2, (clockSeconds_bounds _).2, stored_end_later accepted clear.1⟩

theorem since_of_apply (built : Built past docs) (clear : call.Clear docs)
    (h : call.apply docs = .ok after)
    (before : ∀ (uri : String) cusi, docs.sponsored[uri]? = some cusi → UnitClear past cusi)
    {cusi : ContentUnitSponsoredInformation} (stored : after.sponsored[uri]? = some cusi) :
    0 ≤ lastUsed cusi := by
  cases call.unit_of_apply built.sound h stored with
  | same hunit _ => exact (before uri cusi hunit).since
  | @sponsored chain spi hash amount hcall _ _ hcusi =>
      subst hcall
      cases hunit : docs.sponsored[uri]? with
      | none =>
          rw [hunit] at hcusi
          rw [lastUsed, (refreshIndex_rest hcusi).2.1]
          exact clear.2
      | some unit =>
          rw [hunit] at hcusi
          obtain ⟨_, hcusi⟩ := require_bind_ok_iff.mp hcusi
          obtain ⟨_, hcusi⟩ := require_bind_ok_iff.mp hcusi
          rw [lastUsed, (refreshIndex_rest hcusi).2.1]
          exact (before uri unit hunit).since
  | @viewed chain manual blockNumber unit hcall hunit hnoted =>
      subst hcall
      rw [lastUsed, (refreshIndex_rest hnoted).2.1]
      simpa using (clear rfl unit hunit).1
  | @settled chain hash manual blockNumber unit u _ _ hunit _ hafter =>
      rw [hafter]
      exact (before uri unit hunit).since

/-- A call for another unit settles nothing of a unit. -/
theorem settles_stored (sound : docs.SponsorshipsSound) {cusi : ContentUnitSponsoredInformation}
    (stored : docs.sponsored[uri]? = some cusi) {i : ℕ} {item : SponsoredInformation}
    (hitem : cusi.sponsoredInformations[i]? = some item)
    (h : call.Settles docs item.transactionHash tp) : ∃ chain blockNumber name manual,
      call = .use chain uri blockNumber name manual ∧
      lastUsed cusi < payTime chain blockNumber ∧ paidUntil cusi item ≤ tp ∧
      (name = "" ∧ tp < min (payTime chain blockNumber) item.endTimePoint ∨
        name ≠ "" ∧ name = item.transactionHash) := by
  cases call with
  | sponsor _ _ _ => cases h
  | use chain other blockNumber name manual =>
      obtain ⟨unit, j, found, hunit, hpays, hreached, hhash, hfrom, htakes⟩ := settles_use_iff.mp h
      obtain ⟨_, hfound, _⟩ := mem_reached hreached
      obtain ⟨rfl, rfl⟩ := sound.once stored hunit hitem hfound hhash.symm
      cases stored.symm.trans hunit
      cases hitem.symm.trans hfound
      refine ⟨chain, blockNumber, name, manual, rfl, hpays, hfrom, ?_⟩
      rcases htakes with ⟨hname, _, hto⟩ | ⟨hname, hthis, _⟩
      · exact .inl ⟨hname, hto⟩
      · exact .inr ⟨hname, hthis⟩

/-- The view of a unit pays every sponsorship of it up to its time. -/
theorem paid_of_viewed {manual : String} (built : Built past docs)
    (permitted : (SponsorshipCall.use chain uri blockNumber "" manual).Permitted docs)
    (clear : (SponsorshipCall.use chain uri blockNumber "" manual).Clear docs)
    {unit : ContentUnitSponsoredInformation} (stored : docs.sponsored[uri]? = some unit)
    (before : UnitClear past unit) {i : ℕ} {item : SponsoredInformation}
    (hitem : unit.sponsoredInformations[i]? = some item) (keeps : item.cancelled = false)
    (from_start : item.startTimePoint ≤ tp) (to_end : tp < item.endTimePoint) :
    SettledBy ((.use chain uri blockNumber "" manual, docs) :: past) item.transactionHash tp ↔
      tp < payTime chain blockNumber := by
  have orderly := built.sound.orderly uri unit stored
  have inOrder := built.inOrder uri unit stored
  have hmem := List.mem_of_getElem? hitem
  have hused := orderly.used item hmem
  have hcounted := inOrder.counted item hmem
  have hlater : item.timePointsUsedBefore < unit.timePointsUsed.length →
      lastUsed unit < payTime chain blockNumber := fun hbefore =>
    permitted rfl unit stored _ (lastUsed_mem_tail (by omega))
  rw [settledBy_cons, before.paid i item hitem keeps tp from_start to_end]
  constructor
  · rintro (hthis | ⟨hbefore, hpaid⟩)
    · obtain ⟨_, _, _, _, hcall, _, _, ⟨_, hto⟩ | ⟨hname, hcancel⟩⟩ :=
        settles_stored built.sound stored hitem hthis
      · cases hcall
        exact (lt_min_iff.mp hto).1
      · cases hcall
        exact absurd rfl hname
    · exact hpaid.trans (hlater hbefore)
  · intro hto
    by_cases hold : item.timePointsUsedBefore < unit.timePointsUsed.length ∧ tp < lastUsed unit
    · exact .inr hold
    left
    have hpays : lastUsed unit < payTime chain blockNumber := by
      rcases (clear rfl unit stored).2 with hpays | hnone
      · exact hpays
      · have hstart := hnone item hmem keeps
        omega
    have hfrom : paidUntil unit item ≤ tp := by
      unfold paidUntil
      split_ifs
      · exact from_start
      · omega
    have hindex : i ∈ unit.indexSi := by
      rw [mem_indexSi_iff orderly inOrder hitem]
      simp only [isFinished, Bool.and_eq_false_iff, decide_eq_false_iff_not]
      omega
    exact settles_use_iff.mpr ⟨unit, i, item, stored, hpays,
      mem_reached_of_start orderly.refreshed before.near hpays hindex hitem (by omega), rfl, hfrom,
      .inl ⟨rfl, keeps, lt_min hto to_end⟩⟩

theorem paid_of_apply (built : Built past docs) (permitted : call.Permitted docs)
    (clear : call.Clear docs) (h : call.apply docs = .ok after)
    (before : ∀ (uri : String) cusi, docs.sponsored[uri]? = some cusi → UnitClear past cusi)
    {cusi : ContentUnitSponsoredInformation} (stored : after.sponsored[uri]? = some cusi) {i : ℕ}
    {item : SponsoredInformation} (hitem : cusi.sponsoredInformations[i]? = some item)
    (keeps : item.cancelled = false) (from_start : item.startTimePoint ≤ tp)
    (to_end : tp < item.endTimePoint) :
    SettledBy ((call, docs) :: past) item.transactionHash tp ↔
      item.timePointsUsedBefore < cusi.timePointsUsed.length ∧ tp < lastUsed cusi := by
  have sound := built.sound
  cases call.unit_of_apply sound h stored with
  | same hunit hidle =>
      have hnot : ¬ call.Settles docs item.transactionHash tp := by
        intro hthis
        obtain ⟨chain, blockNumber, name, manual, rfl, _⟩ :=
          settles_stored sound hunit hitem hthis
        obtain ⟨named, hnone⟩ := hidle chain blockNumber name manual rfl
        exact not_settles_of_unpaid_none (sound.orderly uri cusi hunit) hunit named hnone hthis
      rw [settledBy_cons, or_iff_right hnot]
      exact (before uri cusi hunit).paid i item hitem keeps tp from_start to_end
  | @sponsored chain spi hash amount hcall huri _ hcusi =>
      subst hcall
      rw [settledBy_cons, or_iff_right (show ¬ SponsorshipCall.Settles _ docs _ tp from id)]
      obtain ⟨_, hitems⟩ := sponsoredWith_spec (sound.orderly uri)
        (sound.fresh_itemsOf permitted uri) rfl hcusi
      by_cases hlast : i < (itemsOf docs.sponsored[uri]?).length
      · rw [hitems, List.getElem?_append_left hlast] at hitem
        cases hunit : docs.sponsored[uri]? with
        | none =>
            rw [hunit] at hitem
            cases hitem
        | some unit =>
            rw [hunit] at hitem hcusi
            obtain ⟨_, hcusi⟩ := require_bind_ok_iff.mp hcusi
            obtain ⟨_, hcusi⟩ := require_bind_ok_iff.mp hcusi
            rw [lastUsed, (refreshIndex_rest hcusi).2.1]
            exact (before uri unit hunit).paid i item hitem keeps tp from_start to_end
      · -- nothing was paid of a sponsorship that is new
        rw [hitems, List.getElem?_append_right (not_lt.mp hlast)] at hitem
        have hnew := List.mem_singleton.mp (List.mem_of_getElem? hitem)
        rw [hnew]
        constructor
        · intro hsettled
          obtain ⟨number, hknown⟩ := built.known_of_settled hsettled
          cases permitted.symm.trans hknown
        · rintro ⟨hbefore, _⟩
          exact absurd hbefore (lt_irrefl _)
  | @viewed chain manual blockNumber unit hcall hunit hnoted =>
      subst hcall
      obtain ⟨hitems, htimes, _⟩ := refreshIndex_rest hnoted
      rw [hitems] at hitem
      rw [paid_of_viewed built permitted clear hunit (before uri unit hunit) hitem keeps from_start
        to_end, lastUsed, htimes]
      have hused := (sound.orderly uri unit hunit).used item (List.mem_of_getElem? hitem)
      simp only [List.length_append, List.length_singleton, List.getLastD_concat]
      exact ⟨fun h => ⟨by omega, h⟩, And.right⟩
  | @settled chain hash manual blockNumber unit u named hcall hunit hu hafter =>
      subst hcall
      obtain ⟨hthere, hhash⟩ := Unpaid.item_of_unpaid hu
      rw [hafter, withMark_getElem? hthere] at hitem
      split_ifs at hitem with hi
      · cases hitem
        cases keeps
      have hnot : ¬ (SponsorshipCall.use chain uri blockNumber hash manual).Settles docs
          item.transactionHash tp := by
        intro hthis
        obtain ⟨_, _, _, _, hcall, _, _, ⟨hname, _⟩ | ⟨_, hsame⟩⟩ :=
          settles_stored sound hunit hitem hthis
        · cases hcall
          exact named hname
        · cases hcall
          exact hi (sound.once hunit hunit hthere hitem (hhash.trans hsame)).2
      rw [settledBy_cons, or_iff_right hnot, hafter]
      exact (before uri unit hunit).paid i item hitem keeps tp from_start to_end

end

theorem Built.unitClear {past : StandingCalls} (built : Built past docs)
    (clear : ∀ standing ∈ past, standing.1.Clear standing.2) :
    ∀ (uri : String) cusi, docs.sponsored[uri]? = some cusi → UnitClear past cusi := by
  induction built with
  | start hstart =>
      intro uri cusi stored
      rw [hstart.sponsored] at stored
      exact absurd stored (by simp [show (default : Documents).sponsored = ∅ from rfl])
  | @apply past call before mid after hbuilt permitted happly hsame ih =>
      rw [List.forall_mem_cons] at clear
      have hbefore := ih clear.2
      intro uri cusi stored
      rw [← hsame.sponsored] at stored
      exact ⟨since_of_apply hbuilt clear.1 happly hbefore stored,
        starts_of_apply hbuilt permitted clear.1 happly hbefore stored,
        fun i item hitem keeps tp from_start to_end =>
          paid_of_apply hbuilt permitted clear.1 happly hbefore stored hitem keeps from_start to_end⟩

/-- What the index of a unit tells: of the sponsorships that are not cancelled, which ones have
something unpaid. -/
structure IndexTells (past : StandingCalls) (cusi : ContentUnitSponsoredInformation) : Prop where
  nodup : cusi.indexSi.Nodup
  inside : ∀ i ∈ cusi.indexSi, i < cusi.sponsoredInformations.length
  unpaid : ∀ (i : ℕ) item, cusi.sponsoredInformations[i]? = some item → item.cancelled = false →
    (i ∈ cusi.indexSi ↔ HasUnpaid past item)

theorem Built.indexTells {past : StandingCalls} (built : Built past docs)
    (clear : ∀ standing ∈ past, standing.1.Clear standing.2)
    {cusi : ContentUnitSponsoredInformation} (stored : docs.sponsored[uri]? = some cusi) :
    IndexTells past cusi := by
  have orderly := built.sound.orderly uri cusi stored
  have hclear := built.unitClear clear uri cusi stored
  refine ⟨orderly.nodup, fun i hi => orderly.refreshed.lt hi, fun i item hitem keeps => ?_⟩
  obtain ⟨_, _, hproper⟩ := hclear.starts item (List.mem_of_getElem? hitem)
  have hpaid := hclear.paid i item hitem keeps
  rw [mem_indexSi_iff orderly (built.inOrder uri cusi stored) hitem]
  simp only [isFinished, Bool.and_eq_false_iff, decide_eq_false_iff_not]
  constructor
  · intro hunfinished
    -- the last second of the interval is not paid
    refine ⟨item.endTimePoint - 1, by omega, by omega, ?_⟩
    rw [hpaid _ (by omega) (by omega)]
    omega
  · rintro ⟨tp, hfrom, hto, hunpaid⟩
    rw [hpaid tp hfrom hto] at hunpaid
    omega

def SponsorshipCall.Due (call : SponsorshipCall) (type : SetUsed) (past : StandingCalls)
    (docs : Documents) : Prop :=
  match type with
  | .apply => call.Permitted docs
  | .revert => ∃ before rest, past = (call, before) :: rest

def WalksToAll (c : SetUsedCall) (unit : ContentUnitSponsoredInformation) : Prop :=
  ∀ i ∈ unit.indexSi, ∀ item, unit.sponsoredInformations[i]? = some item →
    item.startTimePoint < c.endTp → (c.transactionHashToCancel = "" → item.cancelled = false) →
    (i, item) ∈ reached unit.sponsoredInformations unit.indexSi c.endTp

/-- `if (item_start_tp >= end_tp) break;` passes by nothing that a call could pay. -/
theorem Built.walksToAll {past : StandingCalls} (built : Built past docs)
    (clear : ∀ standing ∈ past, standing.1.Clear standing.2) {type : SetUsed}
    (due : (SponsorshipCall.use chain uri blockNumber name manual).Due type past docs)
    {cusi unit : ContentUnitSponsoredInformation} (stored : docs.sponsored[uri]? = some cusi)
    (pays : paysNow ⟨type, name, manual, false, payTime chain blockNumber, lastUsed cusi⟩ = true)
    (rewound : rewind ⟨type, name, manual, false, payTime chain blockNumber, lastUsed cusi⟩ cusi =
      .ok unit) :
    WalksToAll ⟨type, name, manual, false, payTime chain blockNumber, lastUsed cusi⟩ unit := by
  intro i hindex item hitem hstart hcancelled
  by_cases hview : type = .revert ∧ name = ""
  · -- the unit is the one that the view found
    obtain ⟨rfl, rfl⟩ := hview
    obtain ⟨before, rest, rfl⟩ := due
    cases built with
    | @apply _ _ _ mid _ hbuilt permitted happly hsame =>
        rw [← hsame.sponsored] at stored
        rw [List.forall_mem_cons] at clear
        rw [rewind, if_pos ⟨rfl, rfl⟩] at rewound
        cases SponsorshipCall.unit_of_apply _ hbuilt.sound happly stored with
        | same _ hidle => exact absurd rfl (hidle chain blockNumber "" manual rfl).1
        | sponsored hcall _ _ _ => cases hcall
        | settled named hcall _ _ _ =>
            cases hcall
            exact absurd rfl named
        | @viewed chain manual blockNumber found hcall hfound hnoted =>
            cases hcall
            have orderly := hbuilt.sound.orderly uri found hfound
            have hclear := hbuilt.unitClear clear.2 uri found hfound
            have hview := (clear.1 rfl found hfound).2
            rw [dropLastUsed_viewed orderly (hbuilt.inOrder uri found hfound) hnoted] at rewound
            cases rewound
            rcases hview with hpays | hnone
            · exact mem_reached_of_start orderly.refreshed hclear.near hpays hindex hitem hstart
            · exact absurd hstart (not_lt.mpr (hnone item (List.mem_of_getElem? hitem)
                (hcancelled rfl)))
  · rw [rewind, if_neg hview] at rewound
    cases pure_ok_iff.mp rewound
    have hpays : lastUsed cusi < payTime chain blockNumber := by
      cases type with
      | apply => exact of_decide_eq_true pays
      | revert =>
          have hnamed : ¬ name = "" := fun h => hview ⟨rfl, h⟩
          simpa [paysNow, hnamed] using pays
    exact mem_reached_of_start (built.sound.orderly uri cusi stored).refreshed
      (built.unitClear clear uri cusi stored).near hpays hindex hitem hstart

end

section Examples

local instance tablesExternals : Externals := readingExternals

def sponsorTwo : SponsorshipCall :=
  .sponsor lateChain ⟨"channel", "unit", 12000, 2, ⟨1, 0⟩⟩ "two"

def sponsorHour : SponsorshipCall :=
  .sponsor lateChain ⟨"channel", "unit", 10000, 1, ⟨1, 0⟩⟩ "hour"

def cancelTwo : SponsorshipCall := .use lateChain "unit" 1 "two" "channel"

def viewUnit : SponsorshipCall := .use lateChain "unit" 1 "" ""

theorem sponsorTwo_isOk : (sponsorTwo.apply default).isOk = true := by decide +kernel

def twoSponsored : Documents := okValue _ sponsorTwo_isOk

theorem sponsorHour_isOk : (sponsorHour.apply twoSponsored).isOk = true := by decide +kernel

def bothSponsored : Documents := okValue _ sponsorHour_isOk

theorem cancelTwo_isOk : (cancelTwo.apply bothSponsored).isOk = true := by decide +kernel

def twoCancelled : Documents := okValue _ cancelTwo_isOk

theorem viewUnit_isOk : (viewUnit.apply twoCancelled).isOk = true := by decide +kernel

def unitViewed : Documents := okValue _ viewUnit_isOk

-- The hour is paid in full and leaves the index, the one that is cancelled stays.
example : unitViewed.sponsored["unit"]?.map (fun cusi => (cusi.indexSi, cusi.timePointsUsed)) =
    some ([0], [12000, 13800]) := by
  decide +kernel

def unitCalls : StandingCalls := [(viewUnit, twoCancelled), (cancelTwo, bothSponsored),
  (sponsorHour, twoSponsored), (sponsorTwo, default)]

theorem sponsorHour_run :
    SponsorshipRun [(sponsorHour, twoSponsored), (sponsorTwo, default)] bothSponsored := by
  have fresh : twoSponsored.hashToBlock["hour"]? = none := by decide +kernel
  exact .apply (.apply .start rfl (eq_okValue sponsorTwo_isOk)) fresh (eq_okValue sponsorHour_isOk)

theorem unitCalls_run : SponsorshipRun unitCalls unitViewed := by
  refine .apply (.apply sponsorHour_run (fun h => absurd h (by decide))
    (eq_okValue cancelTwo_isOk)) (fun _ cusi stored tp htp => ?_) (eq_okValue viewUnit_isOk)
  have hused : ∀ unit ∈ twoCancelled.sponsored["unit"]?, unit.timePointsUsed.tail = [] := by
    decide +kernel
  rw [hused cusi stored] at htp
  cases htp

theorem unitCalls_clear : ∀ standing ∈ unitCalls, standing.1.Clear standing.2 := by
  have two : sponsorTwo.Clear default := by
    show Documents.IntervalFits ⟨"channel", "unit", 12000, 2, ⟨1, 0⟩⟩ ∧ 0 ≤ clockSeconds 12000
    decide +kernel
  have hour : sponsorHour.Clear twoSponsored := by
    show Documents.IntervalFits ⟨"channel", "unit", 10000, 1, ⟨1, 0⟩⟩ ∧ 0 ≤ clockSeconds 10000
    decide +kernel
  have view : viewUnit.Clear twoCancelled := by
    have hused : 0 ≤ Documents.payTime lateChain 1 ∧
        ∀ unit ∈ twoCancelled.sponsored["unit"]?,
          Documents.lastUsed unit < Documents.payTime lateChain 1 := by
      decide +kernel
    exact fun _ cusi stored => ⟨hused.1, .inl (hused.2 cusi stored)⟩
  simp only [unitCalls, List.mem_cons, List.not_mem_nil, or_false]
  rintro standing (rfl | rfl | rfl | rfl)
  · exact view
  · exact fun h => absurd h (by decide)
  · exact hour
  · exact two

def sponsorSoon : SponsorshipCall :=
  .sponsor lateChain ⟨"channel", "unit", 20000, 1, ⟨1, 0⟩⟩ "soon"

theorem sponsorSoon_isOk : (sponsorSoon.apply default).isOk = true := by decide +kernel

def soonSponsored : Documents := okValue _ sponsorSoon_isOk

theorem hourSecond_isOk : (sponsorHour.apply soonSponsored).isOk = true := by decide +kernel

def passingSponsored : Documents := okValue _ hourSecond_isOk

-- The unit counts as paid up to the start of its first sponsorship.
example : passingSponsored.sponsored["unit"]?.map (fun cusi => cusi.timePointsUsed) =
    some [20000] := by
  decide +kernel

theorem earlyView_isOk : (viewUnit.apply passingSponsored).isOk = true := by decide +kernel

def earlyViewed : Documents := okValue _ earlyView_isOk

theorem earlyView_run : SponsorshipRun
    [(viewUnit, passingSponsored), (sponsorHour, soonSponsored), (sponsorSoon, default)]
    earlyViewed := by
  have fresh : soonSponsored.hashToBlock["hour"]? = none := by decide +kernel
  refine .apply (.apply (.apply .start rfl (eq_okValue sponsorSoon_isOk)) fresh
    (eq_okValue hourSecond_isOk)) (fun _ cusi stored tp htp => ?_) (eq_okValue earlyView_isOk)
  have hused : ∀ unit ∈ passingSponsored.sponsored["unit"]?, unit.timePointsUsed.tail = [] := by
    decide +kernel
  rw [hused cusi stored] at htp
  cases htp

theorem cancelTwo_intervals_isOk : (cancelTwo.intervals .apply bothSponsored).isOk = true := by
  decide +kernel

theorem earlyView_intervals_isOk : (viewUnit.intervals .apply passingSponsored).isOk = true := by
  decide +kernel

end Examples

end Publiq
