import Publiq.RejectedTransactions
import Publiq.SponsorshipHistory
import Mathlib.Order.Bounds.Basic

/-! The interval of a sponsorship in hours, seconds and the nanoseconds of the clock: when all
three say the same, and what is computed from it. -/
namespace Publiq
open Message Checked

namespace Documents

/-- `uint64_t(chrono::duration_cast<chrono::seconds>(duration).count())`. -/
def secondsWord (duration : ℤ) : UInt64 := UInt64.ofInt (clockSeconds duration)

def TrueSeconds (word : UInt64) (seconds : ℤ) : Prop := 0 < seconds ∧ (word.toNat : ℤ) = seconds

def sponsoredSeconds (spi : SponsorContentUnit) : ℤ := 3600 * spi.hours.toNat

/-- `item_end_tp <= item_start_tp`: the seconds are too many for a signed word of 64 bits, or
nothing is left of them in it. -/
def IntervalRefused (spi : SponsorContentUnit) : Prop :=
  sponsoredSeconds spi % 2 ^ 64 = 0 ∨
    2 ^ 63 ≤ clockSeconds spi.startTimePoint + sponsoredSeconds spi % 2 ^ 64

/-- The clock has the end of the interval, and its length. -/
structure IntervalFits (spi : SponsorContentUnit) : Prop where
  ends : clockSeconds spi.startTimePoint + sponsoredSeconds spi ≤ 2 * clockRange
  lasts : sponsoredSeconds spi ≤ 2 * clockRange

instance (spi : SponsorContentUnit) : Decidable (IntervalRefused spi) :=
  inferInstanceAs (Decidable (_ ∨ _))

instance (spi : SponsorContentUnit) : Decidable (IntervalFits spi) :=
  decidable_of_iff (clockSeconds spi.startTimePoint + sponsoredSeconds spi ≤ 2 * clockRange ∧
    sponsoredSeconds spi ≤ 2 * clockRange) ⟨fun h => ⟨h.1, h.2⟩, fun h => ⟨h.ends, h.lasts⟩⟩

theorem tdiv_billion (t : ℤ) : t.tdiv 1000000000 =
    if 0 ≤ t ∨ (1000000000 : ℤ) ∣ t then t / 1000000000 else t / 1000000000 + 1 := by
  rw [Int.tdiv_eq_ediv]
  split_ifs
  · exact add_zero _
  · rfl

theorem clockSeconds_bounds (t : ℤ) :
    -(2 * clockRange) ≤ clockSeconds t ∧ clockSeconds t ≤ 2 * clockRange := by
  have low := Int.le_bmod (x := t * 1000000000) (m := 2 ^ 64) (by decide)
  have high := Int.bmod_lt (x := t * 1000000000) (m := 2 ^ 64) (by decide)
  unfold clockSeconds clockRange
  generalize Int.bmod (t * 1000000000) (2 ^ 64) = kept at low high ⊢
  rw [tdiv_billion]
  split_ifs
  · omega
  · omega

theorem trueSeconds_iff {duration : ℤ} (positive : 0 < duration)
    (below : duration ≤ 4 * clockRange) :
    TrueSeconds (secondsWord duration) duration ↔ duration ≤ 2 * clockRange := by
  constructor
  · rintro ⟨_, hword⟩
    by_contra hlong
    unfold clockRange at below hlong
    have hwrap : clockSeconds duration < 0 := by
      have hbmod : Int.bmod (duration * 1000000000) (2 ^ 64) = duration * 1000000000 - 2 ^ 64 := by
        rw [Int.bmod_def]
        omega
      rw [clockSeconds, hbmod, tdiv_billion]
      split_ifs
      · omega
      · omega
    obtain ⟨low, _⟩ := clockSeconds_bounds duration
    unfold clockRange at low
    have hlarge : (2 : ℤ) ^ 63 ≤ (secondsWord duration).toNat := by
      simp only [secondsWord, UInt64.ofInt, UInt64.toNat_ofNat']
      omega
    omega
  · intro high
    refine ⟨positive, ?_⟩
    rw [secondsWord, clockSeconds_eq (by unfold clockRange at *; omega) high]
    unfold clockRange at high
    simp only [UInt64.ofInt, UInt64.toNat_ofNat']
    omega

theorem sponsoredInterval_snd (spi : SponsorContentUnit) : (sponsoredInterval spi).2 =
    Int.bmod (clockSeconds spi.startTimePoint + sponsoredSeconds spi) (2 ^ 64) := by
  change Int.bmod (clockSeconds spi.startTimePoint +
    Int.bmod (Int.bmod spi.hours.toNat (2 ^ 64) * 3600) (2 ^ 64)) (2 ^ 64) = _
  rw [Int.add_bmod_bmod, ← Int.add_bmod_bmod, Int.bmod_mul_bmod, Int.add_bmod_bmod, mul_comm]
  rfl

theorem sponsoredInterval_lt_iff (spi : SponsorContentUnit) :
    (sponsoredInterval spi).1 < (sponsoredInterval spi).2 ↔ ¬ IntervalRefused spi := by
  obtain ⟨low, high⟩ := clockSeconds_bounds spi.startTimePoint
  rw [sponsoredInterval_snd]
  change clockSeconds spi.startTimePoint < _ ↔ _
  unfold IntervalRefused clockRange at *
  generalize clockSeconds spi.startTimePoint = start at *
  generalize sponsoredSeconds spi = seconds
  rw [Int.bmod_def]
  omega

/-- The clock keeps the end of a sponsorship that is accepted as it is meant exactly when it has
that end. -/
theorem stored_end_iff {spi : SponsorContentUnit} (hours : spi.hours ≠ 0) :
    clockSeconds (sponsoredInterval spi).2 =
        clockSeconds spi.startTimePoint + sponsoredSeconds spi ↔
      clockSeconds spi.startTimePoint + sponsoredSeconds spi ≤ 2 * clockRange := by
  obtain ⟨low, _⟩ := clockSeconds_bounds spi.startTimePoint
  have positive : 0 < sponsoredSeconds spi := by
    have hpos : spi.hours.toNat ≠ 0 := fun h => hours (UInt64.toNat_inj.mp h)
    unfold sponsoredSeconds
    omega
  rw [sponsoredInterval_snd]
  constructor
  · intro h
    rw [← h]
    exact (clockSeconds_bounds _).2
  · intro high
    have hword : Int.bmod (clockSeconds spi.startTimePoint + sponsoredSeconds spi) (2 ^ 64) =
        clockSeconds spi.startTimePoint + sponsoredSeconds spi := by
      unfold clockRange at low high
      apply Int.bmod_eq_of_le
      · omega
      · omega
    rw [hword]
    exact clockSeconds_eq (by omega) high

def signingTime (genesis : BlockHeader) (number : ℕ) : ℤ :=
  genesis.timeSigned + (blockMineDelay * number : ℕ)

/-- The blocks that can take care of an end: not on the chain yet, and signed no earlier. -/
def blocksFrom (chain : Blockchain) (genesis : BlockHeader) (itemEnd : ℤ) : Set ℕ :=
  { number | chain.length ≤ number ∧ itemEnd ≤ signingTime genesis number }

/-- The expiring block is the first one that can take care of the end. -/
theorem getExpiringBlockNumber_isLeast {chain : Blockchain} {genesis : BlockHeader}
    (first : chain.headerAt 0 = .ok genesis) {itemEnd : ℤ} {number : ℕ}
    (near : itemEnd - genesis.timeSigned ≤ 2 * clockRange)
    (h : getExpiringBlockNumber chain itemEnd = .ok number) :
    IsLeast (blocksFrom chain genesis itemEnd) number := by
  rw [getExpiringBlockNumber, first, ok_bind] at h
  by_cases hlate : genesis.timeSigned < itemEnd
  · have htrue : ((secondsWord (itemEnd - genesis.timeSigned)).toNat : ℤ) =
        itemEnd - genesis.timeSigned := by
      apply ((trueSeconds_iff (by omega) _).mpr near).2
      unfold clockRange at near ⊢
      omega
    unfold secondsWord at htrue
    simp only [if_pos hlate] at h
    generalize (UInt64.ofInt (clockSeconds (itemEnd - genesis.timeSigned))).toNat = seconds
      at h htrue
    have hnumber := pure_ok_iff.mp h
    unfold blocksFrom signingTime blockMineDelay at *
    constructor
    · refine ⟨?_, ?_⟩
      · omega
      · split_ifs at hnumber
        · omega
        · omega
    · rintro other ⟨hlong, hother⟩
      split_ifs at hnumber
      · omega
      · omega
  · rw [if_neg hlate] at h
    cases pure_ok_iff.mp h
    refine ⟨⟨le_rfl, ?_⟩, fun other hother => hother.1⟩
    unfold signingTime
    omega

end Documents

namespace SponsorshipCall
open Documents

/-- The sponsorships that a call comes to, each with the interval that it computes a part for. -/
def intervals (call : SponsorshipCall) (type : SetUsed) (docs : Documents) :
    Checked (List (SponsoredInformation × ℤ × ℤ)) :=
  match call with
  | .sponsor _ _ _ => pure []
  | .use chain uri blockNumber hash manual =>
      match docs.sponsored[uri]? with
      | none => pure []
      | some cusi =>
          let call : SetUsedCall :=
            ⟨type, hash, manual, false, payTime chain blockNumber, lastUsed cusi⟩
          if paysNow call then do
            let unit ← rewind call cusi
            let call := { call with startTp := lastUsed unit }
            pure ((reached unit.sponsoredInformations unit.indexSi call.endTp).map fun p =>
              (p.2, paidInterval call unit.timePointsUsed.length p.2))
          else pure []

variable {call : SponsorshipCall} {type : SetUsed} {docs : Documents}
  {paid : List (SponsoredInformation × ℤ × ℤ)} {p : SponsoredInformation × ℤ × ℤ}

theorem intervals_cases (h : call.intervals type docs = .ok paid) (hp : p ∈ paid) :
    ∃ (c : SetUsedCall) (uri : String) (cusi unit : ContentUnitSponsoredInformation) (i : ℕ),
      docs.sponsored[uri]? = some cusi ∧ c.type = type ∧ c.startTp = lastUsed cusi ∧
      paysNow c = true ∧ rewind c cusi = .ok unit ∧
      (i, p.1) ∈ reached unit.sponsoredInformations unit.indexSi c.endTp ∧
      p.2 = paidInterval { c with startTp := lastUsed unit } unit.timePointsUsed.length p.1 := by
  cases call with
  | sponsor chain spi hash =>
      cases pure_ok_iff.mp h
      cases hp
  | use chain uri blockNumber hash manual =>
      unfold intervals at h
      cases hunit : docs.sponsored[uri]? with
      | none =>
          simp only [hunit] at h
          cases pure_ok_iff.mp h
          cases hp
      | some cusi =>
          simp only [hunit] at h
          split_ifs at h with hpays
          · obtain ⟨unit, hrewound, h⟩ := bind_ok_iff.mp h
            cases pure_ok_iff.mp h
            obtain ⟨⟨i, item⟩, hreached, rfl⟩ := List.mem_map.mp hp
            exact ⟨_, uri, cusi, unit, i, hunit, rfl, rfl, hpays, hrewound, hreached, rfl⟩
          · cases pure_ok_iff.mp h
            cases hp

end SponsorshipCall

namespace Documents

theorem mem_reached {items : List SponsoredInformation} {index : List ℕ} {endTp : ℤ} {i : ℕ}
    {item : SponsoredInformation} (h : (i, item) ∈ reached items index endTp) :
    i ∈ index ∧ items[i]? = some item ∧ item.startTimePoint < endTp := by
  have hstart := List.mem_takeWhile_imp h
  obtain ⟨j, hj, hitem⟩ := List.mem_filterMap.mp (List.takeWhile_subset _ h)
  obtain ⟨found, hfound, heq⟩ := Option.map_eq_some_iff.mp hitem
  cases heq
  exact ⟨hj, hfound, by simpa using hstart⟩

/-- A call that pays comes after the time up to which the unit was paid, but for the first time
of the unit. -/
theorem rewind_before {c : SetUsedCall} {cusi unit : ContentUnitSponsoredInformation}
    (inOrder : InOrder cusi) (start : c.startTp = lastUsed cusi) (pays : paysNow c = true)
    (h : rewind c cusi = .ok unit) :
    unit.timePointsUsed.length ≤ 1 ∨ lastUsed unit < c.endTp := by
  unfold rewind at h
  unfold paysNow at pays
  split_ifs at h with hview
  · simp only [hview.1, if_pos hview.2, decide_eq_true_iff] at pays
    obtain ⟨_, h⟩ := require_bind_ok_iff.mp h
    have htimes : unit.timePointsUsed = cusi.timePointsUsed.dropLast := (refreshIndex_rest h).2.1
    by_cases hone : unit.timePointsUsed.length ≤ 1
    · exact .inl hone
    right
    have hmid : lastUsed unit ∈ unit.timePointsUsed.tail := lastUsed_mem_tail (by omega)
    have hne : cusi.timePointsUsed ≠ [] := by
      intro hnil
      rw [htimes, hnil] at hone
      exact hone (by simp)
    have hsplit := List.dropLast_append_getLast hne
    have hlast : lastUsed cusi = cusi.timePointsUsed.getLast hne := by
      rw [lastUsed, List.getLastD_eq_getLast?, List.getLast?_eq_some_getLast hne]
      rfl
    have hdrop : cusi.timePointsUsed.dropLast ≠ [] := by
      intro hnil
      rw [htimes, hnil] at hone
      exact hone (by simp)
    have hpairwise := inOrder.times
    rw [← hsplit, List.tail_append_of_ne_nil hdrop, List.pairwise_append] at hpairwise
    rw [pays, start, hlast]
    exact hpairwise.2.2 _ (htimes ▸ hmid) _ List.mem_cons_self
  · cases pure_ok_iff.mp h
    right
    rw [← start]
    cases htype : c.type with
    | apply => simpa [htype] using pays
    | revert =>
        have hnamed : ¬ c.transactionHashToCancel = "" := fun h => hview ⟨htype, h⟩
        simpa [htype, hnamed] using pays

theorem paidInterval_inside {c : SetUsedCall} {cusi unit : ContentUnitSponsoredInformation}
    (orderly : Orderly cusi) (inOrder : InOrder cusi) (start : c.startTp = lastUsed cusi)
    (pays : paysNow c = true) (h : rewind c cusi = .ok unit) {i : ℕ} {item : SponsoredInformation}
    (hreached : (i, item) ∈ reached unit.sponsoredInformations unit.indexSi c.endTp)
    (proper : item.startTimePoint < item.endTimePoint) {a b : ℤ}
    (interval : (a, b) =
      paidInterval { c with startTp := lastUsed unit } unit.timePointsUsed.length item) :
    item.startTimePoint ≤ a ∧ a < b ∧ b ≤ item.endTimePoint := by
  obtain ⟨hindex, hitem, hstarts⟩ := mem_reached hreached
  obtain ⟨horderly, hitems⟩ := orderly_of_rewind orderly h
  have hbefore := rewind_before inOrder start pays h
  have hcounted := inOrder.counted item (hitems ▸ List.mem_of_getElem? hitem)
  have hused := horderly.used item (List.mem_of_getElem? hitem)
  obtain ⟨found, hfound, hunfinished⟩ := horderly.refreshed.item hindex
  cases hitem.symm.trans hfound
  simp only [isFinished, Bool.and_eq_false_iff, decide_eq_false_iff_not] at hunfinished
  simp only [paidInterval, Prod.mk.injEq] at interval
  obtain ⟨rfl, rfl⟩ := interval
  split_ifs <;> omega

theorem reached_congr {items others : List SponsoredInformation} {index : List ℕ} {endTp : ℤ}
    (same : ∀ i ∈ index, items[i]? = others[i]?) :
    reached items index endTp = reached others index endTp := by
  unfold reached
  congr 1
  apply List.filterMap_congr
  intro i hi
  rw [same i hi]

/-- What a call pays for the interval of a sponsorship that it comes to. A view pays nothing of a
cancelled one, and any other call pays of the one that it names. -/
def dueOf (hash : String) (item : SponsoredInformation) (interval : ℤ × ℤ) :
    Option SponsorPayment :=
  if hash = "" ∧ item.cancelled = true ∨ hash ≠ "" ∧ item.transactionHash ≠ hash then none
  else
    match paidPart item interval.1 interval.2 with
    | .ok part => if part = 0 then none else some ⟨item.sponsorAddress, item.transactionHash, part⟩
    | .error _ => none

theorem markCancelled_result {docs : Documents} {call : SetUsedCall} {index : ℕ}
    {item : SponsoredInformation} {entry : SponsoredInformationHeader} {part : Coin}
    {s marked : SetUsedState} (h : markCancelled docs call index item entry part s = .ok marked) :
    marked.result = s.result := by
  unfold markCancelled at h
  cases htype : call.type with
  | apply =>
      simp only [htype] at h
      obtain ⟨_, h⟩ := require_bind_ok_iff.mp h
      rw [← pure_ok_iff.mp h]
      cases call.pretend <;> rfl
  | revert =>
      simp only [htype] at h
      obtain ⟨_, h⟩ := require_bind_ok_iff.mp h
      obtain ⟨_, h⟩ := require_bind_ok_iff.mp h
      rw [← pure_ok_iff.mp h]
      cases call.pretend <;> rfl

/-- A walk pays what is due for the intervals of the sponsorships that it comes to. -/
theorem setUsedLoop_result {docs : Documents} {call : SetUsedCall} {timePointsUsed : ℕ}
    (real : call.pretend = false) {index : List ℕ} (nodup : index.Nodup) {s after : SetUsedState}
    (h : setUsedLoop docs call timePointsUsed index s = .ok after) :
    after.result = s.result ++ (reached s.sponsoredInformations index call.endTp).filterMap fun p =>
      dueOf call.transactionHashToCancel p.2 (paidInterval call timePointsUsed p.2) := by
  induction index generalizing s with
  | nil =>
      cases h
      exact (List.append_nil _).symm
  | cons i rest ih =>
      rw [List.nodup_cons] at nodup
      rw [setUsedLoop] at h
      cases hitem : s.sponsoredInformations[i]? with
      | none => simp [hitem] at h
      | some item =>
          simp only [hitem] at h
          rw [reached_cons hitem]
          by_cases hstart : call.endTp ≤ item.startTimePoint
          · rw [if_pos hstart] at h
            cases h
            rw [if_neg (not_lt.mpr hstart)]
            exact (List.append_nil _).symm
          rw [if_pos (not_le.mp hstart), List.filterMap_cons]
          rw [if_neg hstart] at h
          by_cases hview : call.transactionHashToCancel = "" ∧ item.cancelled = true
          · rw [if_pos hview] at h
            rw [dueOf, if_pos (.inl hview)]
            exact ih nodup.2 h
          rw [if_neg hview] at h
          by_cases hother : call.transactionHashToCancel ≠ "" ∧
              item.transactionHash ≠ call.transactionHashToCancel
          · rw [if_pos hother] at h
            rw [dueOf, if_pos (.inr hother)]
            exact ih nodup.2 h
          rw [if_neg hother] at h
          obtain ⟨part, hpart, h⟩ := bind_ok_iff.mp h
          have hdue : dueOf call.transactionHashToCancel item
              (paidInterval call timePointsUsed item) = if part = 0 then none else
                some ⟨item.sponsorAddress, item.transactionHash, part⟩ := by
            rw [dueOf, if_neg (not_or.mpr ⟨hview, hother⟩), hpart]
          rw [hdue]
          by_cases hzero : part = 0
          · rw [if_pos hzero] at h ⊢
            exact ih nodup.2 h
          rw [if_neg hzero] at h ⊢
          obtain ⟨_, h⟩ := require_bind_ok_iff.mp h
          -- whatever the call does here, the rest of the walk finds the other sponsorships
          have onwards : ∀ mid : SetUsedState, mid.result = s.result ++
              [⟨item.sponsorAddress, item.transactionHash, part⟩] →
              (∀ j ∈ rest, mid.sponsoredInformations[j]? = s.sponsoredInformations[j]?) →
              setUsedLoop docs call timePointsUsed rest mid = .ok after →
              after.result = s.result ++ ⟨item.sponsorAddress, item.transactionHash, part⟩ ::
                (reached s.sponsoredInformations rest call.endTp).filterMap fun p =>
                  dueOf call.transactionHashToCancel p.2 (paidInterval call timePointsUsed p.2) := by
            intro mid hresult hmid hwalk
            rw [ih nodup.2 hwalk, reached_congr hmid, hresult, List.append_assoc]
            rfl
          by_cases hmanual : call.manualByAccount ≠ "" ∧
              item.sponsorAddress ≠ call.manualByAccount
          · rw [if_pos hmanual, real] at h
            cases h
          rw [if_neg hmanual] at h
          by_cases hviewed : call.transactionHashToCancel = ""
          · rw [if_pos hviewed] at h
            exact onwards { s with result := s.result ++
              [⟨item.sponsorAddress, item.transactionHash, part⟩] } rfl (fun _ _ => rfl) h
          rw [if_neg hviewed] at h
          obtain ⟨entry, _, h⟩ := bind_ok_iff.mp h
          by_cases hcancelled : call.type = .apply ∧ item.cancelled = true
          · rw [if_pos hcancelled, real] at h
            split_ifs at h
            · contradiction
            · contradiction
          rw [if_neg hcancelled] at h
          obtain ⟨marked, hmarked, h⟩ := bind_ok_iff.mp h
          refine onwards marked (markCancelled_result hmarked) (fun j hj => ?_) h
          exact markCancelled_getElem? hmarked fun heq => nodup.1 (heq ▸ hj)

end Documents

def SponsorshipCall.dues (call : SponsorshipCall) (type : SetUsed) (docs : Documents) :
    List SponsorPayment :=
  match call with
  | .sponsor _ _ _ => []
  | .use _ _ _ hash _ => ((call.intervals type docs).toOption.getD []).filterMap fun p =>
      Documents.dueOf hash p.1 p.2

/-- A call pays what it has to. -/
theorem SponsorshipCall.payments_eq {docs after : Documents} (sound : docs.SponsorshipsSound)
    {chain : Blockchain} {uri : String} {blockNumber : ℕ} {type : SetUsed} {hash manual : String}
    {payments : List SponsorPayment}
    (h : docs.sponsoredContentUnitSetUsed chain uri blockNumber type hash manual false =
      .ok (after, payments)) :
    payments = (SponsorshipCall.use chain uri blockNumber hash manual).dues type docs := by
  obtain ⟨_, h⟩ := require_bind_ok_iff.mp h
  unfold dues intervals
  dsimp only
  cases hunit : docs.sponsored[uri]? with
  | none =>
      simp only [hunit] at h
      cases h
      rfl
  | some cusi =>
      simp only [hunit] at h
      obtain ⟨_, h⟩ := require_bind_ok_iff.mp h
      obtain ⟨_, h⟩ := require_bind_ok_iff.mp h
      obtain ⟨⟨unit, used⟩, hused, h⟩ := bind_ok_iff.mp h
      obtain ⟨noted, _, h⟩ := bind_ok_iff.mp h
      cases pure_ok_iff.mp h
      change Documents.payUsed docs ⟨type, hash, manual, false,
        Documents.payTime chain blockNumber, Documents.lastUsed cusi⟩ cusi = .ok (unit, used) at hused
      dsimp only
      by_cases hpays : Documents.paysNow ⟨type, hash, manual, false,
          Documents.payTime chain blockNumber, Documents.lastUsed cusi⟩ = true
      · rw [Documents.payUsed, if_pos hpays] at hused
        obtain ⟨rewound, hrewound, hused⟩ := bind_ok_iff.mp hused
        obtain ⟨walked, hwalked, hused⟩ := bind_ok_iff.mp hused
        cases pure_ok_iff.mp hused
        obtain ⟨horderly, hitems⟩ :=
          Documents.orderly_of_rewind (sound.orderly uri cusi hunit) hrewound
        rw [if_pos hpays, hrewound, ok_bind, Documents.setUsedLoop_result rfl horderly.nodup hwalked,
          hitems]
        dsimp only [pure, Except.pure, Except.toOption, Option.getD]
        rw [List.nil_append, List.filterMap_map]
        rfl
      · rw [Documents.payUsed, if_neg hpays] at hused
        cases pure_ok_iff.mp hused
        rw [if_neg hpays]
        rfl

/-- As long as a sponsorship stands, it is the one that was stored. -/
theorem Built.lasting {past later : StandingCalls} {chain : Blockchain} {spi : SponsorContentUnit}
    {hash : String} {before now : Documents}
    (built : Built (later ++ (.sponsor chain spi hash, before) :: past) now) :
    (∃ number, now.hashToBlock[hash]? = some number) ∧
      ∀ (uri : String) cusi, now.sponsored[uri]? = some cusi →
        ∀ item ∈ cusi.sponsoredInformations, item.transactionHash = hash →
          item.startTimePoint = (Documents.sponsoredInterval spi).1 ∧
          item.endTimePoint = clockSeconds (Documents.sponsoredInterval spi).2 := by
  induction later generalizing now with
  | nil =>
      cases built with
      | apply hbuilt permitted happly hsame =>
          have known : ∃ number, now.hashToBlock[hash]? = some number := by
            rw [← hsame.hashToBlock]
            obtain ⟨amount, _, happly⟩ := bind_ok_iff.mp happly
            obtain ⟨_, number, _, _, rfl⟩ := Documents.sponsorContentUnitApply_cases happly
            exact ⟨number, by rw [Documents.withSponsorship_hashToBlock, if_pos rfl]⟩
          refine ⟨known, fun uri cusi stored item hitem hhash => ?_⟩
          rw [← hsame.sponsored] at stored
          obtain ⟨i, hi⟩ := List.getElem?_of_mem hitem
          rcases SponsorshipCall.item_of_apply _ hbuilt.sound permitted happly stored hi with
            ⟨unit, old, hunit, hold, heq⟩ | ⟨_, _, amount, hcall, _, heq⟩
          · have hother := hbuilt.sound.fresh permitted hunit old (List.mem_of_getElem? hold)
            rcases heq with rfl | rfl
            · exact absurd hhash hother
            · exact absurd hhash hother
          · cases hcall
            rw [heq]
            exact ⟨rfl, rfl⟩
  | cons last rest ih =>
      cases built with
      | apply hbuilt permitted happly hsame =>
          obtain ⟨⟨number, hnumber⟩, hitems⟩ := ih hbuilt
          refine ⟨⟨number, ?_⟩, fun uri cusi stored item hitem hhash => ?_⟩
          · rw [← hsame.hashToBlock]
            exact SponsorshipCall.hashToBlock_apply _ hbuilt.sound permitted happly hnumber
          · rw [← hsame.sponsored] at stored
            obtain ⟨i, hi⟩ := List.getElem?_of_mem hitem
            rcases SponsorshipCall.item_of_apply _ hbuilt.sound permitted happly stored hi with
              ⟨unit, old, hunit, hold, heq⟩ | ⟨_, _, _, hcall, _, _⟩
            · have hold := hitems uri unit hunit old (List.mem_of_getElem? hold)
              rcases heq with rfl | rfl
              · exact hold hhash
              · exact hold hhash
            · subst hcall
              rw [hhash] at permitted
              cases permitted.symm.trans hnumber

open Documents in
/-- The sponsorship has the interval that its sponsor asked for, nothing else is ever computed
from it, and its end is taken care of in time. -/
structure ExactInterval (chain : Blockchain) (genesis : BlockHeader) (spi : SponsorContentUnit)
    (standing : StandingCalls) (item : SponsoredInformation) (number : ℕ) : Prop where
  lasts : item.endTimePoint - item.startTimePoint = 3600 * spi.hours.toNat
  divisor : TrueSeconds (secondsWord (item.endTimePoint - item.startTimePoint))
    (item.endTimePoint - item.startTimePoint)
  used : ∀ later now, Built (later ++ standing) now → ∀ call type paid,
    SponsorshipCall.intervals call type now = .ok paid →
    ∀ p ∈ paid, p.1.transactionHash = item.transactionHash →
      TrueSeconds (secondsWord (p.1.endTimePoint - p.1.startTimePoint))
        (p.1.endTimePoint - p.1.startTimePoint) ∧
      TrueSeconds (secondsWord (p.2.2 - p.2.1)) (p.2.2 - p.2.1)
  expires : IsLeast (blocksFrom chain genesis item.endTimePoint) number

def StoresExactly (chain : Blockchain) (genesis : BlockHeader) (spi : SponsorContentUnit)
    (standing : StandingCalls) (hash : String) (after : Documents) : Prop :=
  ∃ cusi item number, after.sponsored[spi.uri]? = some cusi ∧ item ∈ cusi.sponsoredInformations ∧
    item.transactionHash = hash ∧ after.hashToBlock[hash]? = some number ∧
    ExactInterval chain genesis spi standing item number

section
open Documents
variable {chain : Blockchain} {genesis : BlockHeader} {spi : SponsorContentUnit}
  {past : StandingCalls} {docs : Documents} {amount : Coin} {hash : String}

/-- What `sponsor_content_unit_apply` stores. -/
theorem stored_of_apply (sound : docs.SponsorshipsSound)
    (fresh : docs.hashToBlock[hash]? = none) {after : Documents}
    (h : docs.sponsorContentUnitApply chain spi amount hash = .ok after) :
    ∃ cusi number, after.sponsored[spi.uri]? = some cusi ∧
      { newSponsorship spi amount hash with timePointsUsedBefore := cusi.timePointsUsed.length } ∈
        cusi.sponsoredInformations ∧ after.hashToBlock[hash]? = some number ∧
      getExpiringBlockNumber chain (clockSeconds (sponsoredInterval spi).2) = .ok number := by
  obtain ⟨cusi, number, hcusi, hnumber, rfl⟩ := sponsorContentUnitApply_cases h
  obtain ⟨_, hitems⟩ := sponsoredWith_spec (sound.orderly spi.uri)
    (sound.fresh_itemsOf fresh spi.uri) rfl hcusi
  refine ⟨cusi, number, Std.ExtTreeMap.getElem?_insert_self, ?_, ?_, hnumber⟩
  · rw [hitems]
    exact List.mem_append_right _ List.mem_cons_self
  · rw [withSponsorship_hashToBlock, if_pos rfl]

/-- An interval that fits is kept in all its uses. -/
theorem storesExactly_of_fits (fits : IntervalFits spi) (hours : spi.hours ≠ 0)
    (built : Built past docs) (fresh : docs.hashToBlock[hash]? = none)
    (first : chain.headerAt 0 = .ok genesis) (since : 0 ≤ genesis.timeSigned) {after : Documents}
    (h : docs.sponsorContentUnitApply chain spi amount hash = .ok after) :
    StoresExactly chain genesis spi ((.sponsor chain spi hash, docs) :: past) hash after := by
  have positive : 0 < sponsoredSeconds spi := by
    have hpos : spi.hours.toNat ≠ 0 := fun h => hours (UInt64.toNat_inj.mp h)
    unfold sponsoredSeconds
    omega
  have hend := (stored_end_iff hours).mpr fits.ends
  have hstart : (sponsoredInterval spi).1 = clockSeconds spi.startTimePoint := rfl
  have hdivisor : TrueSeconds (secondsWord (sponsoredSeconds spi)) (sponsoredSeconds spi) := by
    refine (trueSeconds_iff positive ?_).mpr fits.lasts
    exact fits.lasts.trans (by decide)
  have hlength : clockSeconds (sponsoredInterval spi).2 - (sponsoredInterval spi).1 =
      sponsoredSeconds spi := by
    rw [hend, hstart]
    omega
  obtain ⟨cusi, number, hcusi, hitem, hknown, hnumber⟩ := stored_of_apply built.sound fresh h
  refine ⟨cusi, _, number, hcusi, hitem, rfl, hknown, hlength, ?_, ?_, ?_⟩
  · change TrueSeconds (secondsWord (clockSeconds (sponsoredInterval spi).2 -
      (sponsoredInterval spi).1)) (clockSeconds (sponsoredInterval spi).2 -
      (sponsoredInterval spi).1)
    rw [hlength]
    exact hdivisor
  · rintro later now hbuilt call type paid hpaid ⟨item, a, b⟩ hp hhash
    obtain ⟨c, uri, unit, rewound, i, hunit, _, hstarts, hpays, hrewound, hreached, hinterval⟩ :=
      SponsorshipCall.intervals_cases hpaid hp
    have orderly := hbuilt.sound.orderly uri unit hunit
    have hstored : item ∈ unit.sponsoredInformations := by
      rw [← (orderly_of_rewind orderly hrewound).2]
      exact List.mem_of_getElem? (mem_reached hreached).2.1
    obtain ⟨hpstart, hpend⟩ := hbuilt.lasting.2 uri unit hunit item hstored hhash
    have hplength : item.endTimePoint - item.startTimePoint = sponsoredSeconds spi := by
      rw [hpstart, hpend, hlength]
    have hproper : item.startTimePoint < item.endTimePoint := by omega
    obtain ⟨hfrom, hless, hto⟩ : item.startTimePoint ≤ a ∧ a < b ∧ b ≤ item.endTimePoint :=
      paidInterval_inside orderly (hbuilt.inOrder uri unit hunit) hstarts hpays hrewound hreached
        hproper hinterval
    have hshort : b - a ≤ 2 * clockRange := by
      have hlong := fits.lasts
      omega
    have hlonger : 0 < b - a := by omega
    refine ⟨?_, (trueSeconds_iff hlonger (hshort.trans (by decide))).mpr hshort⟩
    dsimp only
    rw [hplength]
    exact hdivisor
  · refine getExpiringBlockNumber_isLeast first ?_ hnumber
    change clockSeconds (sponsoredInterval spi).2 - genesis.timeSigned ≤ 2 * clockRange
    rw [hend]
    have hlast := fits.ends
    omega

theorem fits_of_storesExactly (hours : spi.hours ≠ 0) (built : Built past docs)
    (fresh : docs.hashToBlock[hash]? = none) (coin : Coin.ofMessage spi.amount = .ok amount)
    {after : Documents} (h : docs.sponsorContentUnitApply chain spi amount hash = .ok after)
    (exact : StoresExactly chain genesis spi ((.sponsor chain spi hash, docs) :: past) hash after) :
    IntervalFits spi := by
  obtain ⟨cusi, item, number, hcusi, hitem, hhash, _, hexact⟩ := exact
  have happly : (SponsorshipCall.sponsor chain spi hash).apply docs = .ok after :=
    bind_ok_iff.mpr ⟨amount, coin, h⟩
  have hbuilt : Built ([] ++ (SponsorshipCall.sponsor chain spi hash, docs) :: past) after :=
    .apply built fresh happly (.refl after)
  obtain ⟨hstart, hend⟩ := hbuilt.lasting.2 spi.uri cusi hcusi item hitem hhash
  have hlasts := hexact.lasts
  have hdivisor := hexact.divisor
  have hstarted : (sponsoredInterval spi).1 = clockSeconds spi.startTimePoint := rfl
  have hends : clockSeconds spi.startTimePoint + sponsoredSeconds spi ≤ 2 * clockRange := by
    rw [← stored_end_iff hours, ← hend]
    unfold sponsoredSeconds
    omega
  refine ⟨hends, ?_⟩
  obtain ⟨low, _⟩ := clockSeconds_bounds spi.startTimePoint
  rw [hlasts] at hdivisor
  exact (trueSeconds_iff hdivisor.1 (by unfold sponsoredSeconds at hends; omega)).mp hdivisor

theorem hours_of_actionValidate [Externals] {st : SignedTransaction} {u : Unit}
    (valid : spi.actionValidate st = .ok u) : spi.hours ≠ 0 := by
  obtain ⟨_, valid⟩ := require_bind_ok_iff.mp valid
  exact (require_bind_ok_iff.mp valid).1

/-- A sponsorship that `action_validate` accepts is refused or stored with an exact interval, if
and only if its seconds are refused, or fit into the clock. -/
theorem sponsoredInterval_exact_iff [Externals] (run : SponsorshipRun past docs)
    (first : chain.headerAt 0 = .ok genesis) (since : 0 ≤ genesis.timeSigned)
    {st : SignedTransaction} (valid : spi.actionValidate st = .ok ())
    (coin : Coin.ofMessage spi.amount = .ok amount) (fresh : docs.hashToBlock[hash]? = none) :
    (∀ after, docs.sponsorContentUnitApply chain spi amount hash = .ok after →
      StoresExactly chain genesis spi ((.sponsor chain spi hash, docs) :: past) hash after) ↔
    IntervalRefused spi ∨ IntervalFits spi := by
  have hours := hours_of_actionValidate valid
  constructor
  · intro exact
    by_cases refused : IntervalRefused spi
    · exact .inl refused
    · obtain ⟨after, h⟩ : ∃ after, docs.sponsorContentUnitApply chain spi amount hash = .ok after :=
        run.built.sound.sponsorContentUnitApply_total chain amount
          ((sponsoredInterval_lt_iff spi).mpr refused)
      exact .inr (fits_of_storesExactly hours run.built fresh coin h (exact after h))
  · rintro (refused | fits) after h
    · obtain ⟨interval, _⟩ := require_bind_ok_iff.mp h
      exact absurd refused ((sponsoredInterval_lt_iff spi).mp interval)
    · exact storesExactly_of_fits fits hours run.built fresh first since h

end

section Examples

local instance intervalExternals : Externals := readingExternals

def lateChain : Blockchain :=
  ⟨[⟨⟨⟨0, 0, 0, 1, "", 13200⟩, [], []⟩, ⟨"", ""⟩⟩], by decide, by
    intro i b h
    rw [List.getElem?_singleton] at h
    split at h
    · rename_i hi
      cases h
      exact hi.symm
    · cases h⟩

def sponsorHours (hours : UInt64) : SponsorContentUnit := ⟨"channel", "unit", 0, hours, ⟨1, 0⟩⟩

theorem sponsorHours_day_isOk : ((default : Documents).sponsorContentUnitApply
    (exampleNode "own" .blockchain).blockchain (sponsorHours 24) ⟨1, 0, by decide⟩ "hash").isOk =
      true := by
  decide +kernel

theorem sponsorHours_day_exact :
    StoresExactly (exampleNode "own" .blockchain).blockchain ⟨0, 0, 0, 1, "", 0⟩ (sponsorHours 24)
      [(.sponsor (exampleNode "own" .blockchain).blockchain (sponsorHours 24) "hash", default)]
      "hash" (okValue _ sponsorHours_day_isOk) := by
  have valid : (sponsorHours 24).actionValidate
      (byChannel 0 (.sponsorContentUnit (sponsorHours 24))) = .ok () := by decide +kernel
  have fits : Documents.IntervalFits (sponsorHours 24) := by decide +kernel
  exact (sponsoredInterval_exact_iff .start rfl (by decide) valid rfl rfl).mpr (.inr fits) _
    (eq_okValue sponsorHours_day_isOk)

/-- `2^60 + 1` hours, of which a signed word of seconds keeps one. -/
def manyHours : SponsorContentUnit := sponsorHours 1152921504606846977

theorem manyHours_accepted :
    (Documents.sponsoredInterval manyHours).1 < (Documents.sponsoredInterval manyHours).2 :=
  (Documents.sponsoredInterval_lt_iff manyHours).mpr (by decide +kernel)

theorem manyHours_wrapped : ¬ ∀ (past : StandingCalls) (docs : Documents) (chain : Blockchain)
    (genesis : BlockHeader) (spi : SponsorContentUnit) (st : SignedTransaction) (amount : Coin)
    (hash : String), SponsorshipRun past docs → chain.headerAt 0 = .ok genesis →
    0 ≤ genesis.timeSigned → spi.actionValidate st = .ok () →
    Coin.ofMessage spi.amount = .ok amount → docs.hashToBlock[hash]? = none →
    ∀ after, docs.sponsorContentUnitApply chain spi amount hash = .ok after →
      StoresExactly chain genesis spi ((.sponsor chain spi hash, docs) :: past) hash after := by
  intro claim
  have valid : manyHours.actionValidate
      (byChannel 0 (.sponsorContentUnit manyHours)) = .ok () := by decide +kernel
  obtain ⟨after, h⟩ : ∃ after, (default : Documents).sponsorContentUnitApply
      (exampleNode "own" .blockchain).blockchain manyHours ⟨1, 0, by decide⟩ "hash" = .ok after :=
    Documents.sponsorshipsSound_default.sponsorContentUnitApply_total
      (exampleNode "own" .blockchain).blockchain ⟨1, 0, by decide⟩ manyHours_accepted
  have stored := claim [] default (exampleNode "own" .blockchain).blockchain
    ⟨0, 0, 0, 1, "", 0⟩ manyHours _ ⟨1, 0, by decide⟩ "hash" .start rfl (by decide) valid rfl rfl
    after h
  have fits : Documents.IntervalFits manyHours :=
    fits_of_storesExactly (hours_of_actionValidate valid) SponsorshipRun.start.built rfl rfl h stored
  exact absurd fits (by decide +kernel)

end Examples

end Publiq
