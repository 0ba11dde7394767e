import Publiq.SponsorshipUndo

/-! The sponsorships over time: what is done to them, and taken back again in reverse order.
Whatever was taken back, they are as the calls that stand have left them. -/
namespace Checked

theorem map_ok_iff {ε α β : Type} {f : α → β} {x : Except ε α} {b : β} :
    f <$> x = .ok b ↔ ∃ a, x = .ok a ∧ f a = b := by
  rcases x with e | a
  · simp
  · simp

end Checked

namespace Publiq
open Message Checked

namespace Documents

/-- Two documents with the same sponsorships. The other tables have no part in them. -/
structure SameSponsorships (a b : Documents) : Prop where
  sponsored : a.sponsored = b.sponsored
  expiring : a.expiring = b.expiring
  hashToBlock : a.hashToBlock = b.hashToBlock

def among (docs other : Documents) : Documents :=
  { other with
    sponsored := docs.sponsored
    expiring := docs.expiring
    hashToBlock := docs.hashToBlock }

variable {a b c docs other : Documents}

theorem SameSponsorships.refl (docs : Documents) : SameSponsorships docs docs := ⟨rfl, rfl, rfl⟩

theorem SameSponsorships.symm (h : SameSponsorships a b) : SameSponsorships b a :=
  ⟨h.sponsored.symm, h.expiring.symm, h.hashToBlock.symm⟩

theorem SameSponsorships.trans (h : SameSponsorships a b) (h' : SameSponsorships b c) :
    SameSponsorships a c :=
  ⟨h.sponsored.trans h'.sponsored, h.expiring.trans h'.expiring,
    h.hashToBlock.trans h'.hashToBlock⟩

theorem sameSponsorships_among (docs other : Documents) :
    SameSponsorships docs (docs.among other) := ⟨rfl, rfl, rfl⟩

theorem SameSponsorships.among_eq (h : SameSponsorships a b) : a.among b = b := by
  obtain ⟨files, units, storages, sponsored, expiring, hashToBlock⟩ := b
  cases h.sponsored
  cases h.expiring
  cases h.hashToBlock
  rfl

theorem SameSponsorships.sound (h : SameSponsorships a b) (sound : SponsorshipsSound a) :
    SponsorshipsSound b := by
  rw [← h.among_eq]
  exact ⟨sound.orderly, sound.recorded, sound.listed⟩

theorem sponsorContentUnitRevert_among (docs other : Documents) (chain : Blockchain)
    (spi : SponsorContentUnit) (hash : String) :
    (docs.among other).sponsorContentUnitRevert chain spi hash =
      (·.among other) <$> docs.sponsorContentUnitRevert chain spi hash := by
  have there : (docs.among other).sponsored[spi.uri]? = docs.sponsored[spi.uri]? := rfl
  rw [sponsorContentUnitRevert, sponsorContentUnitRevert, there]
  cases docs.sponsored[spi.uri]? with
  | none => rfl
  | some cusi =>
      simp only [map_bind, map_pure]
      rfl

theorem setUsedLoop_among (docs other : Documents) (call : SetUsedCall) (timePointsUsed : ℕ)
    (index : List ℕ) (s : SetUsedState) :
    setUsedLoop (docs.among other) call timePointsUsed index s =
      setUsedLoop docs call timePointsUsed index s := by
  induction index generalizing s with
  | nil => rfl
  | cons i rest ih =>
      rw [setUsedLoop, setUsedLoop]
      simp only [ih]
      rfl

theorem payUsed_among (docs other : Documents) (call : SetUsedCall)
    (cusi : ContentUnitSponsoredInformation) :
    payUsed (docs.among other) call cusi = payUsed docs call cusi := by
  unfold payUsed
  simp only [setUsedLoop_among]
  rfl

theorem setUsed_among (docs other : Documents) (chain : Blockchain) (uri : String)
    (blockNumber : ℕ) (type : SetUsed) (hash manual : String) (pretend : Bool) :
    (docs.among other).sponsoredContentUnitSetUsed chain uri blockNumber type hash manual pretend =
      (fun r : Documents × List SponsorPayment => (r.1.among other, r.2)) <$>
        docs.sponsoredContentUnitSetUsed chain uri blockNumber type hash manual pretend := by
  have there : (docs.among other).sponsored[uri]? = docs.sponsored[uri]? := rfl
  rw [sponsoredContentUnitSetUsed, sponsoredContentUnitSetUsed, there]
  dsimp only
  rw [map_bind]
  congr 1
  funext _
  cases docs.sponsored[uri]? with
  | none => rfl
  | some cusi =>
      simp only [map_bind, map_pure, payUsed_among]
      rfl

/-- What a view leaves: a time more that was used of its unit. -/
theorem setUsed_viewed {docs after : Documents} {uri : String} {chain : Blockchain}
    {blockNumber : ℕ} {manual : String} {payments : List SponsorPayment}
    (h : docs.sponsoredContentUnitSetUsed chain uri blockNumber .apply "" manual false =
      .ok (after, payments)) :
    (docs.sponsored[uri]? = none ∧ after = docs) ∨
    ∃ cusi noted, docs.sponsored[uri]? = some cusi ∧
      refreshIndex { cusi with
        timePointsUsed := cusi.timePointsUsed ++ [payTime chain blockNumber] } = .ok noted ∧
      after = { docs with sponsored := docs.sponsored.insert uri noted } := by
  obtain ⟨_, h⟩ := require_bind_ok_iff.mp h
  cases hunit : docs.sponsored[uri]? with
  | none =>
      simp only [hunit] at h
      cases h
      exact .inl ⟨rfl, rfl⟩
  | some cusi =>
      simp only [hunit] at h
      obtain ⟨_, h⟩ := require_bind_ok_iff.mp h
      obtain ⟨_, h⟩ := require_bind_ok_iff.mp h
      obtain ⟨⟨unit, paid⟩, hpaid, h⟩ := bind_ok_iff.mp h
      obtain ⟨noted, hnoted, h⟩ := bind_ok_iff.mp h
      cases pure_ok_iff.mp h
      have hwalk : unit = cusi ∧ paid.sponsoredInformations = cusi.sponsoredInformations ∧
          paid.expiring = docs.expiring := by
        unfold payUsed at hpaid
        split_ifs at hpaid
        · obtain ⟨rewound, hrewound, hpaid⟩ := bind_ok_iff.mp hpaid
          obtain ⟨walked, hwalked, hpaid⟩ := bind_ok_iff.mp hpaid
          cases pure_ok_iff.mp hpaid
          rw [rewind, if_neg (by simp)] at hrewound
          cases pure_ok_iff.mp hrewound
          obtain ⟨hsame, hexpiring, _⟩ := setUsedLoop_view rfl (by simp) hwalked
          exact ⟨rfl, hsame, hexpiring⟩
        · cases pure_ok_iff.mp hpaid
          exact ⟨rfl, rfl, rfl⟩
      obtain ⟨rfl, hitems, hexpiring⟩ := hwalk
      rw [hitems, noteUsed, if_pos ⟨rfl, rfl⟩] at hnoted
      refine .inr ⟨unit, noted, rfl, hnoted, ?_⟩
      rw [hexpiring]

/-- What a unit keeps over time: the times of its views in order, and an index with everything
that is not finished. -/
structure InOrder (cusi : ContentUnitSponsoredInformation) : Prop where
  times : cusi.timePointsUsed.tail.Pairwise (· < ·)
  counted : ∀ item ∈ cusi.sponsoredInformations, 0 < item.timePointsUsedBefore
  complete : ∀ i entry, indexEntry cusi i = some entry → i ∈ cusi.indexSi

def EachInOrder (docs : Documents) : Prop :=
  ∀ (uri : String) cusi, docs.sponsored[uri]? = some cusi → InOrder cusi

section
variable {cusi noted : ContentUnitSponsoredInformation}

theorem refreshIndex_complete (h : refreshIndex cusi = .ok noted)
    (complete : ∀ i entry, indexEntry cusi i = some entry → i ∈ cusi.indexSi) :
    ∀ i entry, indexEntry noted i = some entry → i ∈ noted.indexSi := by
  have hperm := refreshIndex_perm h
  obtain ⟨_, rfl⟩ := refreshIndex_ok_iff.mp h
  intro i entry hentry
  have hbefore : indexEntry cusi i = some entry := hentry
  apply hperm.mem_iff.mpr
  exact List.mem_filter.mpr ⟨complete i entry hbefore, by rw [hbefore]; rfl⟩

theorem lastUsed_concat (times : List ℤ) (tp : ℤ) (cusi : ContentUnitSponsoredInformation) :
    lastUsed { cusi with timePointsUsed := times ++ [tp] } = tp := by
  simp [lastUsed]

theorem lastUsed_mem_tail (several : 1 < cusi.timePointsUsed.length) :
    lastUsed cusi ∈ cusi.timePointsUsed.tail := by
  have hne : cusi.timePointsUsed ≠ [] := List.ne_nil_of_length_pos (by omega)
  obtain ⟨first, rest, hsplit⟩ := List.exists_cons_of_ne_nil hne
  have hrest : rest ≠ [] := by
    rintro rfl
    rw [hsplit, List.length_singleton] at several
    omega
  rw [lastUsed, hsplit, List.tail_cons, List.getLastD_cons, List.getLastD_eq_getLast?,
    List.getLast?_eq_some_getLast hrest]
  exact List.getLast_mem hrest

/-- What is not finished at a later time was not finished before. -/
theorem indexEntry_of_later {tp : ℤ} (inOrder : InOrder cusi)
    (later : ∀ t ∈ cusi.timePointsUsed.tail, t < tp) {i : ℕ} {entry : ℤ × ℕ}
    (h : indexEntry { cusi with timePointsUsed := cusi.timePointsUsed ++ [tp] } i = some entry) :
    ∃ before, indexEntry cusi i = some before := by
  obtain ⟨_, item, hitem, hnot⟩ := indexEntry_some h
  rw [lastUsed_concat] at hnot
  have hcounted := inOrder.counted item (List.mem_of_getElem? hitem)
  have hunfinished : isFinished cusi (lastUsed cusi) item = false := by
    simp only [isFinished, List.length_append, List.length_singleton, Bool.and_eq_false_iff,
      decide_eq_false_iff_not] at hnot ⊢
    by_cases hone : cusi.timePointsUsed.length ≤ item.timePointsUsedBefore
    · exact .inr (not_lt.mpr hone)
    · -- the last used time is the one of a view, and comes before
      have hlast : lastUsed cusi ∈ cusi.timePointsUsed.tail := lastUsed_mem_tail (by omega)
      have hbefore := later _ hlast
      left
      rcases hnot with h | h
      · omega
      · omega
  have hentry : (indexEntry cusi i).isSome = true := by
    rw [indexEntry, show cusi.sponsoredInformations[i]? = some item from hitem]
    simp only [hunfinished]
    rfl
  exact Option.isSome_iff_exists.mp hentry

theorem InOrder.viewed {tp : ℤ} (inOrder : InOrder cusi) (times : cusi.timePointsUsed ≠ [])
    (later : ∀ t ∈ cusi.timePointsUsed.tail, t < tp)
    (h : refreshIndex { cusi with timePointsUsed := cusi.timePointsUsed ++ [tp] } = .ok noted) :
    InOrder noted := by
  have hcomplete := refreshIndex_complete h fun i entry hentry => by
    obtain ⟨before, hbefore⟩ := indexEntry_of_later inOrder later hentry
    exact inOrder.complete i before hbefore
  obtain ⟨hitems, htimes, _⟩ := refreshIndex_rest h
  refine ⟨?_, ?_, hcomplete⟩
  · rw [htimes, List.tail_append_of_ne_nil times, List.pairwise_append]
    exact ⟨inOrder.times, List.pairwise_singleton _ _, by simpa using later⟩
  · rw [hitems]
    exact inOrder.counted

/-- A unit is in order with one sponsorship more. -/
theorem inOrder_sponsoredWith {before : Option ContentUnitSponsoredInformation} {uri : String}
    {si : SponsoredInformation} (orderly : ∀ unit, before = some unit → Orderly unit)
    (inOrder : ∀ unit, before = some unit → InOrder unit) (first : si.timePointsUsedBefore = 1)
    (h : sponsoredWith before uri si = .ok cusi) : InOrder cusi := by
  cases before with
  | none =>
      obtain ⟨hitems, htimes, _⟩ := refreshIndex_rest h
      refine ⟨?_, ?_, refreshIndex_complete h ?_⟩
      · rw [htimes]
        exact List.Pairwise.nil
      · rw [hitems]
        intro item hitem
        rw [List.mem_singleton.mp hitem, first]
        exact Nat.one_pos
      · intro i entry hentry
        obtain ⟨_, item, hitem, _⟩ := indexEntry_some hentry
        have hi := (List.getElem?_eq_some_iff.mp hitem).1
        simpa using hi
  | some unit =>
      have hunit := inOrder unit rfl
      have horderly := orderly unit rfl
      obtain ⟨_, h⟩ := require_bind_ok_iff.mp h
      obtain ⟨_, h⟩ := require_bind_ok_iff.mp h
      obtain ⟨hitems, htimes, _⟩ := refreshIndex_rest h
      refine ⟨htimes ▸ hunit.times, ?_, refreshIndex_complete h ?_⟩
      · rw [hitems]
        intro item hitem
        rcases List.mem_append.mp hitem with hold | hnew
        · exact hunit.counted item hold
        · rw [List.mem_singleton.mp hnew]
          exact List.length_pos_of_ne_nil horderly.times
      · intro i entry hentry
        by_cases hi : i < unit.sponsoredInformations.length
        · have hold : indexEntry unit i = some entry := by
            rw [← hentry]
            exact indexEntry_congr rfl (List.getElem?_append_left hi).symm
          exact List.mem_append_left _ (hunit.complete i entry hold)
        · obtain ⟨_, item, hitem, _⟩ := indexEntry_some hentry
          have hlast := (List.getElem?_eq_some_iff.mp hitem).1
          rw [List.length_append, List.length_singleton] at hlast
          apply List.mem_append_right
          rw [List.mem_singleton]
          omega

theorem InOrder.withMark {index : ℕ} {item : SponsoredInformation}
    (inOrder : InOrder cusi) (there : cusi.sponsoredInformations[index]? = some item)
    (cancelled : Bool) : InOrder (withMark cusi index item cancelled) := by
  refine ⟨inOrder.times, ?_, fun i entry hentry => ?_⟩
  · intro other hother
    obtain ⟨j, hj⟩ := List.getElem?_of_mem hother
    rw [withMark_getElem? there] at hj
    split_ifs at hj
    · cases hj
      exact inOrder.counted item (List.mem_of_getElem? there)
    · exact inOrder.counted other (List.mem_of_getElem? hj)
  · rw [indexEntry_withMark there] at hentry
    exact inOrder.complete i entry hentry

/-- Without its last view a unit is as it was before. -/
theorem dropLastUsed_viewed {tp : ℤ} (orderly : Orderly cusi) (inOrder : InOrder cusi)
    (h : refreshIndex { cusi with timePointsUsed := cusi.timePointsUsed ++ [tp] } = .ok noted) :
    dropLastUsed noted = .ok cusi := by
  obtain ⟨_, rfl⟩ := refreshIndex_ok_iff.mp h
  unfold dropLastUsed
  simp only [List.dropLast_concat]
  rw [require_true orderly.times, ok_bind]
  apply orderly.refreshed.of_perm
  rw [List.perm_ext_iff_of_nodup (List.nodup_range.filter _) orderly.nodup]
  intro i
  rw [List.mem_filter, List.mem_range]
  constructor
  · rintro ⟨_, hentry⟩
    obtain ⟨entry, hentry⟩ := Option.isSome_iff_exists.mp hentry
    exact inOrder.complete i entry hentry
  · intro hi
    obtain ⟨entry, hentry⟩ := orderly.refreshed.indexed hi
    exact ⟨orderly.refreshed.lt hi, by rw [hentry]; rfl⟩

end

/-- A view that is taken back leaves the documents as they were before it. -/
theorem setUsed_unviewed {docs mid after : Documents} (sound : SponsorshipsSound docs)
    {uri : String} (inOrder : ∀ cusi, docs.sponsored[uri]? = some cusi → InOrder cusi)
    {chain : Blockchain} {blockNumber : ℕ} {manual : String}
    {payments returned : List SponsorPayment}
    (h : docs.sponsoredContentUnitSetUsed chain uri blockNumber .apply "" manual false =
      .ok (mid, payments))
    (hback : mid.sponsoredContentUnitSetUsed chain uri blockNumber .revert "" manual false =
      .ok (after, returned)) : after = docs := by
  obtain ⟨_, hback⟩ := require_bind_ok_iff.mp hback
  rcases setUsed_viewed h with ⟨hunit, rfl⟩ | ⟨cusi, noted, hunit, hnoted, rfl⟩
  · simp only [hunit] at hback
    cases hback
    rfl
  · have orderly := sound.orderly uri cusi hunit
    have hlast : lastUsed noted = payTime chain blockNumber := by
      rw [lastUsed, (refreshIndex_rest hnoted).2.1]
      simp
    simp only [Std.ExtTreeMap.getElem?_insert_self] at hback
    obtain ⟨_, hback⟩ := require_bind_ok_iff.mp hback
    obtain ⟨_, hback⟩ := require_bind_ok_iff.mp hback
    obtain ⟨⟨unit, paid⟩, hpaid, hback⟩ := bind_ok_iff.mp hback
    obtain ⟨last, hkept, hback⟩ := bind_ok_iff.mp hback
    cases pure_ok_iff.mp hback
    rw [payUsed, if_pos] at hpaid
    · obtain ⟨rewound, hrewound, hpaid⟩ := bind_ok_iff.mp hpaid
      obtain ⟨walked, hwalked, hpaid⟩ := bind_ok_iff.mp hpaid
      cases pure_ok_iff.mp hpaid
      rw [rewind, if_pos ⟨rfl, rfl⟩, dropLastUsed_viewed orderly (inOrder cusi hunit) hnoted]
        at hrewound
      cases hrewound
      obtain ⟨hsame, hexpiring, _⟩ := setUsedLoop_view rfl (by simp) hwalked
      rw [noteUsed, if_neg (by simp)] at hkept
      cases pure_ok_iff.mp hkept
      rw [hsame, hexpiring, (refreshIndex_rest hnoted).1]
      change { docs with
        sponsored := (docs.sponsored.insert uri noted).insert uri cusi } = docs
      rw [insert_insert_of_some hunit]
    · exact decide_eq_true hlast.symm

end Documents

/-- What is done to the sponsorships. -/
inductive SponsorshipCall where
  /-- A sponsor pays for a unit in advance. -/
  | sponsor (chain : Blockchain) (spi : SponsorContentUnit) (transactionHash : String)
  /-- A unit was viewed, or what is left of the sponsorship of a hash is returned. -/
  | use (chain : Blockchain) (uri : String) (blockNumber : ℕ) (transactionHash manual : String)

namespace SponsorshipCall

def apply (call : SponsorshipCall) (docs : Documents) : Checked Documents :=
  match call with
  | .sponsor chain spi hash => do
      let amount ← Coin.ofMessage spi.amount
      docs.sponsorContentUnitApply chain spi amount hash
  | .use chain uri blockNumber hash manual =>
      Prod.fst <$> docs.sponsoredContentUnitSetUsed chain uri blockNumber .apply hash manual false

def revert (call : SponsorshipCall) (docs : Documents) : Checked Documents :=
  match call with
  | .sponsor chain spi hash => docs.sponsorContentUnitRevert chain spi hash
  | .use chain uri blockNumber hash manual =>
      Prod.fst <$> docs.sponsoredContentUnitSetUsed chain uri blockNumber .revert hash manual false

/-- No transaction is applied twice, and a unit is viewed in one block after the other. -/
def Permitted (call : SponsorshipCall) (docs : Documents) : Prop :=
  match call with
  | .sponsor _ _ hash => docs.hashToBlock[hash]? = none
  | .use chain uri blockNumber hash _ => hash = "" →
      ∀ cusi, docs.sponsored[uri]? = some cusi →
        ∀ tp ∈ cusi.timePointsUsed.tail, tp < Documents.payTime chain blockNumber

variable {call : SponsorshipCall} {docs other after : Documents}

theorem revert_among (call : SponsorshipCall) (docs other : Documents) :
    call.revert (docs.among other) = (·.among other) <$> call.revert docs := by
  cases call with
  | sponsor chain spi hash =>
      exact Documents.sponsorContentUnitRevert_among docs other chain spi hash
  | use chain uri blockNumber hash manual =>
      simp only [revert, Documents.setUsed_among, Functor.map_map]

/-- What a call can do. -/
inductive Effect (docs : Documents) : SponsorshipCall → Documents → Prop
  | sponsored {chain : Blockchain} {spi : SponsorContentUnit} {hash : String} {amount : Coin}
      {cusi : ContentUnitSponsoredInformation} {number : ℕ} :
      (Documents.sponsoredInterval spi).1 < (Documents.sponsoredInterval spi).2 →
      Documents.sponsoredWith docs.sponsored[spi.uri]? spi.uri
        (Documents.newSponsorship spi amount hash) = .ok cusi →
      Documents.getExpiringBlockNumber chain
        (clockSeconds (Documents.sponsoredInterval spi).2) = .ok number →
      Effect docs (.sponsor chain spi hash) (docs.withSponsorship spi.uri cusi hash number)
  /-- The unit has no sponsorships. -/
  | absent {chain : Blockchain} {uri hash manual : String} {blockNumber : ℕ} :
      docs.sponsored[uri]? = none → Effect docs (.use chain uri blockNumber hash manual) docs
  /-- Nothing is left of the sponsorship. -/
  | idle {chain : Blockchain} {uri hash manual : String} {blockNumber : ℕ}
      {cusi : ContentUnitSponsoredInformation} : hash ≠ "" → docs.sponsored[uri]? = some cusi →
      Documents.unpaid cusi (Documents.payTime chain blockNumber) hash = .ok none →
      Effect docs (.use chain uri blockNumber hash manual) docs
  | viewed {chain : Blockchain} {uri manual : String} {blockNumber : ℕ}
      {cusi noted : ContentUnitSponsoredInformation} : docs.sponsored[uri]? = some cusi →
      Documents.refreshIndex { cusi with timePointsUsed :=
        cusi.timePointsUsed ++ [Documents.payTime chain blockNumber] } = .ok noted →
      Effect docs (.use chain uri blockNumber "" manual)
        { docs with sponsored := docs.sponsored.insert uri noted }
  /-- What was left of a sponsorship is returned. -/
  | settled {chain : Blockchain} {uri hash manual : String} {blockNumber number : ℕ}
      {cusi : ContentUnitSponsoredInformation} {u : Documents.Unpaid} : hash ≠ "" →
      docs.sponsored[uri]? = some cusi →
      Documents.unpaid cusi (Documents.payTime chain blockNumber) hash = .ok (some u) →
      docs.expirationEntryByHash hash = .ok ⟨uri, hash, number, 0⟩ → u.item.cancelled = false →
      Effect docs (.use chain uri blockNumber hash manual)
        (docs.settled uri cusi u ⟨uri, hash, number, 0⟩ manual true)

theorem effect_of_apply (call : SponsorshipCall) (sound : docs.SponsorshipsSound)
    (h : call.apply docs = .ok after) : Effect docs call after := by
  cases call with
  | sponsor chain spi hash =>
      obtain ⟨amount, _, h⟩ := bind_ok_iff.mp h
      have interval := (require_bind_ok_iff.mp h).1
      obtain ⟨cusi, number, hcusi, hnumber, rfl⟩ := Documents.sponsorContentUnitApply_cases h
      exact .sponsored interval hcusi hnumber
  | use chain uri blockNumber hash manual =>
      obtain ⟨⟨used, payments⟩, hused, rfl⟩ := map_ok_iff.mp h
      by_cases named : hash = ""
      · subst named
        rcases Documents.setUsed_viewed hused with ⟨hunit, rfl⟩ | ⟨cusi, noted, hunit, hnoted, rfl⟩
        · exact .absent hunit
        · exact .viewed hunit hnoted
      · have near := (require_bind_ok_iff.mp hused).1
        rw [Documents.setUsed_hash (sound.orderly uri) near .apply named] at hused
        cases hunit : docs.sponsored[uri]? with
        | none =>
            rw [hunit] at hused
            cases hused
            exact .absent hunit
        | some cusi =>
            rw [hunit] at hused
            obtain ⟨u, hu, hused⟩ := bind_ok_iff.mp hused
            cases u with
            | none =>
                cases hused
                exact .idle named hunit hu
            | some u =>
                obtain ⟨hitem, rfl⟩ := Documents.Unpaid.item_of_unpaid hu
                obtain ⟨number, manuallyCancelled, hnumber, hentry, _⟩ :=
                  (sound.recorded uri cusi hunit u.item (List.mem_of_getElem? hitem)).entry
                rcases Documents.payUnpaid_cases hunit hnumber hentry hused with
                  ⟨hpretend, _⟩ | ⟨_, happly, _, _, rfl⟩
                · cases hpretend
                · obtain ⟨hkeeps, rfl⟩ := happly rfl
                  exact .settled named hunit hu hentry hkeeps

/-- What a call can have left of a unit. -/
inductive UnitEffect (docs : Documents) (call : SponsorshipCall) (uri : String)
    (after : ContentUnitSponsoredInformation) : Prop
  | same : docs.sponsored[uri]? = some after →
      (∀ chain blockNumber hash manual, call = .use chain uri blockNumber hash manual → hash ≠ "" ∧
        Documents.unpaid after (Documents.payTime chain blockNumber) hash = .ok none) →
      UnitEffect docs call uri after
  | sponsored {chain : Blockchain} {spi : SponsorContentUnit} {hash : String} {amount : Coin} :
      call = .sponsor chain spi hash → uri = spi.uri →
      (Documents.sponsoredInterval spi).1 < (Documents.sponsoredInterval spi).2 →
      Documents.sponsoredWith docs.sponsored[uri]? uri
        (Documents.newSponsorship spi amount hash) = .ok after → UnitEffect docs call uri after
  | viewed {chain : Blockchain} {manual : String} {blockNumber : ℕ}
      {cusi : ContentUnitSponsoredInformation} : call = .use chain uri blockNumber "" manual →
      docs.sponsored[uri]? = some cusi →
      Documents.refreshIndex { cusi with timePointsUsed :=
        cusi.timePointsUsed ++ [Documents.payTime chain blockNumber] } = .ok after →
      UnitEffect docs call uri after
  | settled {chain : Blockchain} {hash manual : String} {blockNumber : ℕ}
      {cusi : ContentUnitSponsoredInformation} {u : Documents.Unpaid} : hash ≠ "" →
      call = .use chain uri blockNumber hash manual → docs.sponsored[uri]? = some cusi →
      Documents.unpaid cusi (Documents.payTime chain blockNumber) hash = .ok (some u) →
      after = Documents.withMark cusi u.index u.item true → UnitEffect docs call uri after

theorem unit_of_apply (call : SponsorshipCall) (sound : docs.SponsorshipsSound)
    (h : call.apply docs = .ok after) {uri : String} {cusi : ContentUnitSponsoredInformation}
    (stored : after.sponsored[uri]? = some cusi) : UnitEffect docs call uri cusi := by
  have other (there : docs.sponsored[uri]? = some cusi) {chain : Blockchain}
      {place hash manual : String} {blockNumber : ℕ} (hcall : call =
      .use chain place blockNumber hash manual) (hne : place ≠ uri) : UnitEffect docs call uri cusi := by
    refine .same there fun _ _ _ _ h => ?_
    cases hcall.symm.trans h
    exact absurd rfl hne
  cases effect_of_apply call sound h with
  | @sponsored chain spi hash amount noted number hinterval hnoted _ =>
      change (docs.sponsored.insert spi.uri noted)[uri]? = some cusi at stored
      rw [Std.ExtTreeMap.getElem?_insert] at stored
      split_ifs at stored with huri
      · cases stored
        have huri : spi.uri = uri := by simpa using huri
        subst huri
        exact .sponsored rfl rfl hinterval hnoted
      · exact .same stored fun _ _ _ _ h => nomatch h
  | @absent chain place hash manual blockNumber hunit =>
      refine other stored rfl ?_
      rintro rfl
      cases hunit.symm.trans stored
  | @idle chain place hash manual blockNumber unit named hunit hu =>
      by_cases huri : place = uri
      · subst huri
        cases stored.symm.trans hunit
        refine .same stored fun _ _ _ _ h => ?_
        cases h
        exact ⟨named, hu⟩
      · exact other stored rfl huri
  | @viewed chain place manual blockNumber unit noted hunit hnoted =>
      change (docs.sponsored.insert place noted)[uri]? = some cusi at stored
      rw [Std.ExtTreeMap.getElem?_insert] at stored
      split_ifs at stored with huri
      · cases stored
        have huri : place = uri := by simpa using huri
        subst huri
        exact .viewed rfl hunit hnoted
      · exact other stored rfl fun heq => huri (Std.compare_eq_iff_eq.mpr heq)
  | @settled chain place hash manual blockNumber number unit u named hunit hu _ _ =>
      change (docs.sponsored.insert place (Documents.withMark unit u.index u.item true))[uri]? =
        some cusi at stored
      rw [Std.ExtTreeMap.getElem?_insert] at stored
      split_ifs at stored with huri
      · cases stored
        have huri : place = uri := by simpa using huri
        subst huri
        exact .settled named rfl hunit hu rfl
      · exact other stored rfl fun heq => huri (Std.compare_eq_iff_eq.mpr heq)

theorem apply_keeps (call : SponsorshipCall) (sound : docs.SponsorshipsSound)
    (inOrder : docs.EachInOrder) (permitted : call.Permitted docs)
    (h : call.apply docs = .ok after) : after.SponsorshipsSound ∧ after.EachInOrder := by
  constructor
  · cases call with
    | sponsor chain spi hash =>
        obtain ⟨amount, _, h⟩ := bind_ok_iff.mp h
        exact sound.sponsorContentUnitApply permitted h
    | use chain uri blockNumber hash manual =>
        obtain ⟨⟨used, payments⟩, hused, rfl⟩ := map_ok_iff.mp h
        exact sound.setUsed hused
  · intro uri cusi stored
    cases unit_of_apply call sound h stored with
    | same hunit _ => exact inOrder uri cusi hunit
    | sponsored _ _ _ hcusi =>
        exact Documents.inOrder_sponsoredWith (sound.orderly uri) (inOrder uri) rfl hcusi
    | @viewed chain manual blockNumber unit hcall hunit hnoted =>
        subst hcall
        exact (inOrder uri unit hunit).viewed (sound.orderly uri unit hunit).times
          (permitted rfl unit hunit) hnoted
    | @settled chain hash manual blockNumber unit u _ _ hunit hu hafter =>
        obtain ⟨hitem, _⟩ := Documents.Unpaid.item_of_unpaid hu
        rw [hafter]
        exact (inOrder uri unit hunit).withMark hitem true

/-- A sponsorship was there before the call, at its place and but for its mark, or it is the one
of the call. -/
theorem item_of_apply (call : SponsorshipCall) (sound : docs.SponsorshipsSound)
    (permitted : call.Permitted docs) (h : call.apply docs = .ok after) {uri : String}
    {cusi : ContentUnitSponsoredInformation} (stored : after.sponsored[uri]? = some cusi) {i : ℕ}
    {item : SponsoredInformation} (hitem : cusi.sponsoredInformations[i]? = some item) :
    (∃ unit old, docs.sponsored[uri]? = some unit ∧ unit.sponsoredInformations[i]? = some old ∧
      (item = old ∨ item = { old with cancelled := true })) ∨
    ∃ chain spi amount, call = .sponsor chain spi item.transactionHash ∧ uri = spi.uri ∧
      item = { Documents.newSponsorship spi amount item.transactionHash with
        timePointsUsedBefore := cusi.timePointsUsed.length } := by
  cases unit_of_apply call sound h stored with
  | same hunit _ => exact .inl ⟨cusi, item, hunit, hitem, .inl rfl⟩
  | @sponsored chain spi hash amount hcall huri _ hnoted =>
      subst hcall
      obtain ⟨_, hitems⟩ := Documents.sponsoredWith_spec (sound.orderly uri)
        (sound.fresh_itemsOf permitted uri) rfl hnoted
      rw [hitems] at hitem
      by_cases hlast : i < (Documents.itemsOf docs.sponsored[uri]?).length
      · rw [List.getElem?_append_left hlast] at hitem
        left
        cases hunit : docs.sponsored[uri]? with
        | none =>
            rw [hunit] at hitem
            cases hitem
        | some unit =>
            rw [hunit] at hitem
            exact ⟨unit, item, rfl, hitem, .inl rfl⟩
      · rw [List.getElem?_append_right (not_lt.mp hlast)] at hitem
        rw [List.mem_singleton.mp (List.mem_of_getElem? hitem)]
        exact .inr ⟨chain, spi, amount, rfl, huri, rfl⟩
  | @viewed chain manual blockNumber unit _ hunit hnoted =>
      rw [(Documents.refreshIndex_rest hnoted).1] at hitem
      exact .inl ⟨unit, item, hunit, hitem, .inl rfl⟩
  | @settled chain hash manual blockNumber unit u _ _ hunit hu hafter =>
      obtain ⟨hthere, _⟩ := Documents.Unpaid.item_of_unpaid hu
      rw [hafter, Documents.withMark_getElem? hthere] at hitem
      split_ifs at hitem with hi
      · cases hitem
        exact .inl ⟨unit, u.item, hunit, hi ▸ hthere, .inr rfl⟩
      · exact .inl ⟨unit, item, hunit, hitem, .inl rfl⟩

theorem hashToBlock_apply (call : SponsorshipCall) (sound : docs.SponsorshipsSound)
    (permitted : call.Permitted docs) (h : call.apply docs = .ok after) {hash : String} {number : ℕ}
    (known : docs.hashToBlock[hash]? = some number) : after.hashToBlock[hash]? = some number := by
  cases effect_of_apply call sound h with
  | sponsored _ _ _ =>
      rw [Documents.withSponsorship_hashToBlock, if_neg]
      · exact known
      · rintro rfl
        cases permitted.symm.trans known
  | absent _ => exact known
  | idle _ _ _ => exact known
  | viewed _ _ => exact known
  | settled _ _ _ _ _ => exact known

/-- A call that is taken back leaves the documents as they were before it. -/
theorem eq_of_revert (call : SponsorshipCall) (sound : docs.SponsorshipsSound)
    (inOrder : docs.EachInOrder)
    (permitted : call.Permitted docs) {mid : Documents} (h : call.apply docs = .ok mid)
    (hback : call.revert mid = .ok after) : after = docs := by
  cases call with
  | sponsor chain spi hash =>
      obtain ⟨amount, hamount, h⟩ := bind_ok_iff.mp h
      have hundo := Documents.sponsorContentUnitRevert_apply sound permitted
        (Coin.toMessage_ofMessage hamount) h
      exact Except.ok.inj (hback.symm.trans hundo)
  | use chain uri blockNumber hash manual =>
      obtain ⟨⟨used, payments⟩, hused, rfl⟩ := map_ok_iff.mp h
      obtain ⟨⟨unused, returned⟩, hunused, rfl⟩ := map_ok_iff.mp hback
      by_cases hash_eq : hash = ""
      · subst hash_eq
        exact Documents.setUsed_unviewed sound (inOrder uri) hused hunused
      · have near := (require_bind_ok_iff.mp hused).1
        have hundo := Documents.setUsed_undo sound near hash_eq hused
        exact congrArg Prod.fst (Except.ok.inj (hunused.symm.trans hundo))

end SponsorshipCall

abbrev StandingCalls := List (SponsorshipCall × Documents)

/-- The documents that the standing calls make of none. -/
inductive Built : StandingCalls → Documents → Prop
  | start {docs : Documents} : docs.SameSponsorships default → Built [] docs
  | apply {past : StandingCalls} {call : SponsorshipCall} {before mid after : Documents} :
      Built past before → call.Permitted before → call.apply before = .ok mid →
      mid.SameSponsorships after → Built ((call, before) :: past) after

/-- The sponsorships of a node while blocks are applied and taken back again. -/
inductive SponsorshipRun : StandingCalls → Documents → Prop
  | start : SponsorshipRun [] default
  | apply {past : StandingCalls} {call : SponsorshipCall} {docs after : Documents} :
      SponsorshipRun past docs → call.Permitted docs → call.apply docs = .ok after →
      SponsorshipRun ((call, docs) :: past) after
  /-- The last call that stands is taken back. -/
  | revert {past : StandingCalls} {call : SponsorshipCall} {before docs after : Documents} :
      SponsorshipRun ((call, before) :: past) docs → call.revert docs = .ok after →
      SponsorshipRun past after
  /-- Whatever else changes leaves the sponsorships alone. -/
  | other {past : StandingCalls} {docs after : Documents} :
      SponsorshipRun past docs → docs.SameSponsorships after → SponsorshipRun past after

namespace Built
variable {past : StandingCalls} {docs after : Documents}

theorem same (built : Built past docs) (h : docs.SameSponsorships after) : Built past after := by
  cases built with
  | start hstart => exact .start (h.symm.trans hstart)
  | apply hbuilt permitted happly hsame => exact .apply hbuilt permitted happly (hsame.trans h)

theorem keeps (built : Built past docs) : docs.SponsorshipsSound ∧ docs.EachInOrder := by
  induction built with
  | start hstart =>
      refine ⟨hstart.symm.sound Documents.sponsorshipsSound_default, fun uri cusi h => ?_⟩
      rw [hstart.sponsored] at h
      exact absurd h (by simp [show (default : Documents).sponsored = ∅ from rfl])
  | apply _ permitted happly hsame ih =>
      obtain ⟨sound, inOrder⟩ := SponsorshipCall.apply_keeps _ ih.1 ih.2 permitted happly
      refine ⟨hsame.sound sound, fun uri cusi h => inOrder uri cusi ?_⟩
      rw [hsame.sponsored]
      exact h

theorem sound (built : Built past docs) : docs.SponsorshipsSound := built.keeps.1

theorem inOrder (built : Built past docs) : docs.EachInOrder := built.keeps.2

/-- The last call can only be taken back to what was before it. -/
theorem revert {call : SponsorshipCall} {before : Documents}
    (built : Built ((call, before) :: past) docs) (h : call.revert docs = .ok after) :
    before.SameSponsorships after := by
  cases built with
  | @apply _ _ _ mid _ hbuilt permitted happly hsame =>
      have hdocs := call.revert_among mid docs
      rw [hsame.among_eq, h] at hdocs
      obtain ⟨back, hback, hafter⟩ := map_ok_iff.mp hdocs.symm
      cases call.eq_of_revert hbuilt.sound hbuilt.inOrder permitted happly hback
      rw [← hafter]
      exact Documents.sameSponsorships_among before docs

end Built

theorem SponsorshipRun.built {past : StandingCalls} {docs : Documents}
    (run : SponsorshipRun past docs) : Built past docs := by
  induction run with
  | start => exact .start (.refl _)
  | apply _ permitted h ih => exact .apply ih permitted h (.refl _)
  | revert _ h ih =>
      have hsame := ih.revert h
      cases ih with
      | apply hbuilt _ _ _ => exact hbuilt.same hsame
  | other _ hsame ih => exact ih.same hsame

end Publiq
