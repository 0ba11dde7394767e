import Publiq.Foundation.Commuting
import Publiq.SponsorshipHistory

/-! The payments of a block are taken back in the order in which the block has made them, a view
before the views after it. What they do to different sponsorships stands apart. -/
namespace Publiq
open Message Checked

/-- What a block has the sponsors of a unit pay: for a view, which names no hash, or for what is
left of the sponsorship of a hash. -/
structure UnitUse where
  uri : String
  hash : String

def UnitUse.pay (chain : Blockchain) (blockNumber : ℕ) (type : SetUsed) (use : UnitUse)
    (docs : Documents) : Checked (Documents × List SponsorPayment) :=
  docs.sponsoredContentUnitSetUsed chain use.uri blockNumber type use.hash "" false

def UnitUse.Apart (use other : UnitUse) : Prop :=
  use.uri ≠ other.uri ∨ use.hash ≠ "" ∧ other.hash ≠ "" ∧ use.hash ≠ other.hash

namespace Documents

def withUnit (docs : Documents) (uri : String) (unit : ContentUnitSponsoredInformation) :
    Documents := { docs with sponsored := docs.sponsored.insert uri unit }

section
variable {docs : Documents} {uri other : String} {unit another : ContentUnitSponsoredInformation}

theorem withUnit_self (stored : docs.sponsored[uri]? = some unit) : docs.withUnit uri unit = docs :=
  sponsored_self stored

@[simp] theorem withUnit_there :
    (docs.withUnit uri unit).sponsored[uri]? = some unit := Std.ExtTreeMap.getElem?_insert_self

theorem withUnit_elsewhere (differ : uri ≠ other) :
    (docs.withUnit uri unit).sponsored[other]? = docs.sponsored[other]? := by
  change (docs.sponsored.insert uri unit)[other]? = _
  rw [Std.ExtTreeMap.getElem?_insert, if_neg]
  exact fun h => differ (Std.compare_eq_iff_eq.mp h)

theorem withUnit_again : (docs.withUnit uri unit).withUnit uri another = docs.withUnit uri another := by
  have h : (docs.sponsored.insert uri unit).insert uri another =
      docs.sponsored.insert uri another := by
    apply Std.ExtTreeMap.ext_getElem?
    intro key
    rw [Std.ExtTreeMap.getElem?_insert, Std.ExtTreeMap.getElem?_insert,
      Std.ExtTreeMap.getElem?_insert]
    split_ifs <;> rfl
  exact congrArg (fun sponsored => { docs with sponsored }) h

theorem withUnit_comm (differ : uri ≠ other) :
    (docs.withUnit uri unit).withUnit other another =
      (docs.withUnit other another).withUnit uri unit := by
  have h : (docs.sponsored.insert uri unit).insert other another =
      (docs.sponsored.insert other another).insert uri unit := by
    apply Std.ExtTreeMap.ext_getElem?
    intro key
    rw [Std.ExtTreeMap.getElem?_insert, Std.ExtTreeMap.getElem?_insert,
      Std.ExtTreeMap.getElem?_insert, Std.ExtTreeMap.getElem?_insert]
    split_ifs with hother huri
    · exact absurd ((Std.compare_eq_iff_eq.mp huri).trans (Std.compare_eq_iff_eq.mp hother).symm)
        differ
    · rfl
    · rfl
    · rfl
  exact congrArg (fun sponsored => { docs with sponsored }) h

end

/-- The walk of a view reads nothing but the sponsorships of its unit, and pays the same whether
the view is applied or reverted. -/
theorem setUsedLoop_view_eq (docs other : Documents) (type type' : SetUsed) (endTp startTp : ℤ)
    (timePointsUsed : ℕ) (index : List ℕ) (items : List SponsoredInformation)
    (expiring expiring' : SparseMap ℕ SponsoredInformationHeaders) (result : List SponsorPayment) :
    setUsedLoop docs ⟨type, "", "", false, endTp, startTp⟩ timePointsUsed index
        ⟨items, expiring, result⟩ =
      (fun s => (⟨items, expiring, s.result⟩ : SetUsedState)) <$>
        setUsedLoop other ⟨type', "", "", false, endTp, startTp⟩ timePointsUsed index
          ⟨items, expiring', result⟩ := by
  induction index generalizing result with
  | nil => rfl
  | cons i rest ih =>
      rw [setUsedLoop, setUsedLoop]
      cases items[i]? with
      | none => rfl
      | some item =>
          dsimp only
          have hother : ¬ (("" : String) ≠ "" ∧ item.transactionHash ≠ "") := fun h => h.1 rfl
          have hmanual : ¬ (("" : String) ≠ "" ∧ item.sponsorAddress ≠ "") := fun h => h.1 rfl
          by_cases hstart : endTp ≤ item.startTimePoint
          · rw [if_pos hstart, if_pos hstart]
            rfl
          rw [if_neg hstart, if_neg hstart]
          by_cases hskip : ("" : String) = "" ∧ item.cancelled = true
          · rw [if_pos hskip, if_pos hskip]
            exact ih result
          rw [if_neg hskip, if_neg hskip, if_neg hother, if_neg hother, map_bind]
          congr 1
          funext part
          by_cases hpart : part = 0
          · rw [if_pos hpart, if_pos hpart]
            exact ih result
          rw [if_neg hpart, if_neg hpart, map_bind]
          congr 1
          funext _
          rw [if_neg hmanual, if_neg hmanual]
          exact ih _

def viewPayments (cusi : ContentUnitSponsoredInformation) (endTp : ℤ) :
    Checked (List SponsorPayment) :=
  if lastUsed cusi < endTp then
    SetUsedState.result <$> setUsedLoop default ⟨.apply, "", "", false, endTp, lastUsed cusi⟩
      cusi.timePointsUsed.length cusi.indexSi ⟨cusi.sponsoredInformations, ∅, []⟩
  else pure []

def viewUnit (cusi : ContentUnitSponsoredInformation) (endTp : ℤ) :
    Checked (ContentUnitSponsoredInformation × List SponsorPayment) := do
  let payments ← viewPayments cusi endTp
  let noted ← refreshIndex { cusi with timePointsUsed := cusi.timePointsUsed ++ [endTp] }
  pure (noted, payments)

def cancelUnit (cusi : ContentUnitSponsoredInformation) (endTp : ℤ) (hash : String) :
    Checked (ContentUnitSponsoredInformation × List SponsorPayment) := do
  match ← unpaid cusi endTp hash with
  | none => pure (cusi, [])
  | some u =>
      if u.item.cancelled = true then .error (.logicError "already cancelled")
      else pure (withMark cusi u.index u.item true, [u.payment])

def useUnit (cusi : ContentUnitSponsoredInformation) (endTp : ℤ) (hash : String) :
    Checked (ContentUnitSponsoredInformation × List SponsorPayment) :=
  if hash = "" then viewUnit cusi endTp else cancelUnit cusi endTp hash

section
variable {docs : Documents} {chain : Blockchain} {blockNumber : ℕ}

theorem setUsed_viewUnit (near : NextTo chain blockNumber) {uri : String}
    {cusi : ContentUnitSponsoredInformation} (stored : docs.sponsored[uri]? = some cusi)
    (orderly : Orderly cusi) :
    docs.sponsoredContentUnitSetUsed chain uri blockNumber .apply "" "" false =
      (fun r => (docs.withUnit uri r.1, r.2)) <$> viewUnit cusi (payTime chain blockNumber) := by
  unfold NextTo at near
  rw [sponsoredContentUnitSetUsed, require_true near, ok_bind, stored]
  dsimp only
  rw [require_true orderly.items, ok_bind, require_true orderly.times, ok_bind, viewUnit, viewPayments]
  change payUsed docs ⟨.apply, "", "", false, payTime chain blockNumber, lastUsed cusi⟩ cusi >>= _ = _
  rw [payUsed, show paysNow ⟨.apply, "", "", false, payTime chain blockNumber, lastUsed cusi⟩ =
    decide (lastUsed cusi < payTime chain blockNumber) from rfl]
  by_cases hlate : lastUsed cusi < payTime chain blockNumber
  · rw [if_pos (decide_eq_true hlate), if_pos hlate]
    rw [show rewind ⟨.apply, "", "", false, payTime chain blockNumber, lastUsed cusi⟩ cusi =
      .ok cusi from rfl, ok_bind]
    dsimp only
    rw [setUsedLoop_view_eq docs default .apply .apply _ _ _ _ _ _ ∅]
    simp only [map_eq_pure_bind, bind_assoc, pure_bind]
    rfl
  · rw [if_neg (by simpa using hlate), if_neg hlate]
    simp only [map_eq_pure_bind, bind_assoc, pure_bind]
    rfl

theorem setUsed_cancelUnit (sound : SponsorshipsSound docs) (near : NextTo chain blockNumber)
    {uri : String} {cusi : ContentUnitSponsoredInformation}
    (stored : docs.sponsored[uri]? = some cusi) {hash : String} (named : hash ≠ "") :
    docs.sponsoredContentUnitSetUsed chain uri blockNumber .apply hash "" false =
      (fun r => (docs.withUnit uri r.1, r.2)) <$>
        cancelUnit cusi (payTime chain blockNumber) hash := by
  rw [setUsed_hash (sound.orderly uri) near .apply named, stored]
  dsimp only
  rw [cancelUnit, map_bind]
  cases hu : unpaid cusi (payTime chain blockNumber) hash with
  | error e => rfl
  | ok found =>
      rw [ok_bind, ok_bind]
      cases found with
      | none => exact congrArg (fun d => Except.ok (d, [])) (withUnit_self stored).symm
      | some u =>
          obtain ⟨hthere, _⟩ := Unpaid.item_of_unpaid hu
          obtain ⟨number, manuallyCancelled, hnumber, hentry, hmark⟩ :=
            (sound.recorded uri cusi stored u.item (List.mem_of_getElem? hthere)).entry
          dsimp only
          rw [payUnpaid_eq stored hnumber hentry, if_neg fun h => h.1 rfl]
          by_cases hcancelled : u.item.cancelled = true
          · rw [if_pos ⟨rfl, hcancelled⟩, if_pos hcancelled]
            rfl
          · have hzero : manuallyCancelled = 0 := not_not.mp fun h => hcancelled (hmark h)
            have happly (c : Prop) : ¬ ((hashCall cusi .apply hash "" false
                (payTime chain blockNumber)).type = .revert ∧ c) := fun h => nomatch h.1
            rw [if_neg fun h => hcancelled h.2, if_neg hcancelled, if_neg fun h => h.2 hzero,
              if_neg (happly _), if_neg (happly _)]
            rfl

theorem pay_apply (sound : SponsorshipsSound docs) (near : NextTo chain blockNumber)
    (use : UnitUse) : use.pay chain blockNumber .apply docs =
      match docs.sponsored[use.uri]? with
      | none => .ok (docs, [])
      | some cusi => (fun r => (docs.withUnit use.uri r.1, r.2)) <$>
          useUnit cusi (payTime chain blockNumber) use.hash := by
  unfold UnitUse.pay
  cases hunit : docs.sponsored[use.uri]? with
  | none =>
      unfold NextTo at near
      rw [sponsoredContentUnitSetUsed, require_true near, ok_bind, hunit]
      rfl
  | some cusi =>
      unfold useUnit
      dsimp only
      split_ifs with hview
      · rw [hview]
        exact setUsed_viewUnit near hunit (sound.orderly _ cusi hunit)
      · exact setUsed_cancelUnit sound near hunit hview

end

section
variable {cusi mid unit : ContentUnitSponsoredInformation} {endTp : ℤ} {hash : String}

theorem cancelUnit_ok_iff {payments : List SponsorPayment} :
    cancelUnit cusi endTp hash = .ok (unit, payments) ↔
      (unpaid cusi endTp hash = .ok none ∧ unit = cusi ∧ payments = []) ∨
      ∃ u, unpaid cusi endTp hash = .ok (some u) ∧ u.item.cancelled = false ∧
        unit = withMark cusi u.index u.item true ∧ payments = [u.payment] := by
  rw [cancelUnit, bind_ok_iff]
  constructor
  · rintro ⟨found, hfound, h⟩
    cases found with
    | none =>
        cases pure_ok_iff.mp h
        exact .inl ⟨hfound, rfl, rfl⟩
    | some u =>
        dsimp only at h
        split_ifs at h with hcancelled
        cases pure_ok_iff.mp h
        exact .inr ⟨u, hfound, Bool.eq_false_iff.mpr hcancelled, rfl, rfl⟩
  · rintro (⟨hfound, rfl, rfl⟩ | ⟨u, hfound, hkeeps, rfl, rfl⟩)
    · exact ⟨none, hfound, rfl⟩
    · refine ⟨some u, hfound, ?_⟩
      dsimp only
      rw [hkeeps, if_neg Bool.false_ne_true]
      rfl

/-- A mark changes nothing of what another sponsorship has left to pay. -/
theorem unpaid_markedElsewhere {index : ℕ} {item : SponsoredInformation}
    (there : cusi.sponsoredInformations[index]? = some item)
    (differ : item.transactionHash ≠ hash) (cancelled : Bool) :
    unpaid (withMark cusi index item cancelled) endTp hash = unpaid cusi endTp hash := by
  have hmarked := target_withMark there cancelled endTp hash
  have hsame : target (withMark cusi index item cancelled).sponsoredInformations cusi.indexSi endTp
      hash = target cusi.sponsoredInformations cusi.indexSi endTp hash := by
    rw [hmarked]
    cases htarget : target cusi.sponsoredInformations cusi.indexSi endTp hash with
    | none => rfl
    | some found =>
        obtain ⟨i, other⟩ := found
        obtain ⟨_, hother, hhash, _⟩ := target_some htarget
        have hne : i ≠ index := by
          rintro rfl
          cases there.symm.trans hother
          exact differ hhash
        exact congrArg some (if_neg hne)
  have hindex : (withMark cusi index item cancelled).indexSi = cusi.indexSi := rfl
  rw [unpaid, unpaid, hindex, hsame]
  rfl

theorem withMark_comm {i j : ℕ} {a b : SponsoredInformation} (differ : i ≠ j) :
    withMark (withMark cusi i a true) j b true = withMark (withMark cusi j b true) i a true := by
  unfold withMark
  dsimp only
  rw [List.set_comm _ _ differ]

theorem cancelUnit_swap {other : String} (differ : hash ≠ other)
    {first second : List SponsorPayment} (h : cancelUnit cusi endTp hash = .ok (mid, first))
    (h' : cancelUnit mid endTp other = .ok (unit, second)) :
    ∃ between, cancelUnit cusi endTp other = .ok (between, second) ∧
      cancelUnit between endTp hash = .ok (unit, first) := by
  rcases cancelUnit_ok_iff.mp h with ⟨hidle, rfl, rfl⟩ | ⟨u, hu, hkeeps, rfl, rfl⟩
  · refine ⟨unit, h', cancelUnit_ok_iff.mpr (.inl ⟨?_, rfl, rfl⟩)⟩
    rcases cancelUnit_ok_iff.mp h' with ⟨_, rfl, _⟩ | ⟨w, hw, _, rfl, _⟩
    · exact hidle
    · obtain ⟨hthere, hhash⟩ := Unpaid.item_of_unpaid hw
      rw [unpaid_markedElsewhere hthere (hhash ▸ differ.symm)]
      exact hidle
  · obtain ⟨hthere, hhash⟩ := Unpaid.item_of_unpaid hu
    have hsame : unpaid (withMark cusi u.index u.item true) endTp other =
        unpaid cusi endTp other := unpaid_markedElsewhere hthere (hhash ▸ differ) true
    rcases cancelUnit_ok_iff.mp h' with ⟨hidle, rfl, rfl⟩ | ⟨w, hw, hkept, rfl, rfl⟩
    · exact ⟨cusi, cancelUnit_ok_iff.mpr (.inl ⟨hsame.symm.trans hidle, rfl, rfl⟩), h⟩
    · rw [hsame] at hw
      obtain ⟨hother, hname⟩ := Unpaid.item_of_unpaid hw
      have hindex : u.index ≠ w.index := by
        intro hplace
        rw [hplace, hother] at hthere
        have hitem := congrArg SponsoredInformation.transactionHash (Option.some.inj hthere)
        exact differ (hhash.symm.trans (hitem.symm.trans hname))
      refine ⟨_, cancelUnit_ok_iff.mpr (.inr ⟨w, hw, hkept, rfl, rfl⟩),
        cancelUnit_ok_iff.mpr (.inr ⟨u, ?_, hkeeps, withMark_comm hindex, rfl⟩)⟩
      rw [unpaid_markedElsewhere hother (hname ▸ differ.symm)]
      exact hu

end

section
variable {docs mid after : Documents} {chain : Blockchain} {blockNumber : ℕ} {use other : UnitUse}
  {first second : List SponsorPayment}

/-- What a use does: nothing to a unit without sponsorships, and else it changes its unit. -/
theorem pay_apply_cases (sound : SponsorshipsSound docs) (near : NextTo chain blockNumber)
    {payments : List SponsorPayment}
    (h : use.pay chain blockNumber .apply docs = .ok (after, payments)) :
    (docs.sponsored[use.uri]? = none ∧ after = docs ∧ payments = []) ∨
    ∃ cusi unit, docs.sponsored[use.uri]? = some cusi ∧
      useUnit cusi (payTime chain blockNumber) use.hash = .ok (unit, payments) ∧
      after = docs.withUnit use.uri unit := by
  rw [pay_apply sound near] at h
  cases hunit : docs.sponsored[use.uri]? with
  | none =>
      rw [hunit] at h
      cases h
      exact .inl ⟨rfl, rfl, rfl⟩
  | some cusi =>
      rw [hunit] at h
      obtain ⟨⟨unit, paid⟩, hused, heq⟩ := map_ok_iff.mp h
      cases heq
      exact .inr ⟨cusi, unit, rfl, hused, rfl⟩

theorem pay_apply_absent (sound : SponsorshipsSound docs) (near : NextTo chain blockNumber)
    (absent : docs.sponsored[use.uri]? = none) :
    use.pay chain blockNumber .apply docs = .ok (docs, []) := by
  rw [pay_apply sound near, absent]

theorem pay_apply_stored (sound : SponsorshipsSound docs) (near : NextTo chain blockNumber)
    {cusi unit : ContentUnitSponsoredInformation} (stored : docs.sponsored[use.uri]? = some cusi)
    {payments : List SponsorPayment}
    (used : useUnit cusi (payTime chain blockNumber) use.hash = .ok (unit, payments)) :
    use.pay chain blockNumber .apply docs = .ok (docs.withUnit use.uri unit, payments) := by
  rw [pay_apply sound near, stored]
  dsimp only
  rw [used]
  rfl

theorem pay_sound {type : SetUsed} {payments : List SponsorPayment}
    (sound : SponsorshipsSound docs)
    (h : use.pay chain blockNumber type docs = .ok (after, payments)) : SponsorshipsSound after :=
  sound.setUsed h

theorem pay_elsewhere (sound : SponsorshipsSound docs) (near : NextTo chain blockNumber)
    {payments : List SponsorPayment} {uri : String} (differ : use.uri ≠ uri)
    (h : use.pay chain blockNumber .apply docs = .ok (after, payments)) :
    after.sponsored[uri]? = docs.sponsored[uri]? := by
  rcases pay_apply_cases sound near h with ⟨_, rfl, _⟩ | ⟨cusi, unit, _, _, rfl⟩
  · rfl
  · exact withUnit_elsewhere differ

theorem pay_swap_units (sound : SponsorshipsSound docs) (near : NextTo chain blockNumber)
    (differ : use.uri ≠ other.uri)
    (h : use.pay chain blockNumber .apply docs = .ok (mid, first))
    (h' : other.pay chain blockNumber .apply mid = .ok (after, second)) :
    ∃ between, other.pay chain blockNumber .apply docs = .ok (between, second) ∧
      use.pay chain blockNumber .apply between = .ok (after, first) := by
  have soundMid := pay_sound sound h
  have hthere := pay_elsewhere sound near differ h
  rcases pay_apply_cases sound near h with ⟨hnone, rfl, rfl⟩ | ⟨cusi, unit, hunit, hused, rfl⟩
  · refine ⟨after, h', pay_apply_absent (pay_sound sound h') near ?_⟩
    rw [pay_elsewhere sound near differ.symm h']
    exact hnone
  · rcases pay_apply_cases soundMid near h' with
      ⟨hnone, rfl, rfl⟩ | ⟨another, noted, hstored, hnoted, rfl⟩
    · exact ⟨docs, pay_apply_absent sound near (hthere.symm.trans hnone), h⟩
    · have hbetween := pay_apply_stored sound near (hthere.symm.trans hstored) hnoted
      refine ⟨_, hbetween, ?_⟩
      rw [withUnit_comm differ]
      refine pay_apply_stored (pay_sound sound hbetween) near ?_ hused
      rw [withUnit_elsewhere differ.symm]
      exact hunit

theorem pay_swap (sound : SponsorshipsSound docs) (near : NextTo chain blockNumber)
    (apart : use.Apart other) (h : use.pay chain blockNumber .apply docs = .ok (mid, first))
    (h' : other.pay chain blockNumber .apply mid = .ok (after, second)) :
    ∃ between, other.pay chain blockNumber .apply docs = .ok (between, second) ∧
      use.pay chain blockNumber .apply between = .ok (after, first) := by
  by_cases hunits : use.uri ≠ other.uri
  · exact pay_swap_units sound near hunits h h'
  obtain ⟨named, hother, differ⟩ := apart.resolve_left hunits
  have hsame : use.uri = other.uri := not_not.mp hunits
  have soundMid := pay_sound sound h
  rcases pay_apply_cases sound near h with ⟨hnone, rfl, rfl⟩ | ⟨cusi, unit, hunit, hused, rfl⟩
  · have hidle := pay_apply_absent soundMid near (hsame ▸ hnone)
    cases hidle.symm.trans h'
    exact ⟨_, hidle, h⟩
  · rcases pay_apply_cases soundMid near h' with
      ⟨hnone, _, _⟩ | ⟨marked, noted, hstored, hnoted, rfl⟩
    · rw [← hsame, withUnit_there] at hnone
      cases hnone
    · rw [← hsame, withUnit_there] at hstored
      cases hstored
      rw [useUnit, if_neg named] at hused
      rw [useUnit, if_neg hother] at hnoted
      obtain ⟨between, hbetween, hback⟩ := cancelUnit_swap differ hused hnoted
      have hfirst := pay_apply_stored sound near (hsame ▸ hunit)
        ((if_neg hother).trans hbetween)
      refine ⟨_, hfirst, ?_⟩
      have hlast := pay_apply_stored (pay_sound sound hfirst) near
        (hsame ▸ withUnit_there) ((if_neg named).trans hback)
      rw [hlast, hsame, withUnit_again, withUnit_again]

end

/-- A unit is paid for a time after the last one, or before any of its sponsorships starts. -/
def PaidInTime (cusi : ContentUnitSponsoredInformation) (endTp : ℤ) : Prop :=
  lastUsed cusi < endTp ∨
    ∀ item ∈ cusi.sponsoredInformations, item.cancelled = false → endTp ≤ item.startTimePoint

/-- A view pays nothing of sponsorships that start later. -/
theorem setUsedLoop_idle {docs : Documents} {type : SetUsed} {endTp startTp : ℤ}
    {timePointsUsed : ℕ} {index : List ℕ} {s : SetUsedState}
    (inside : ∀ i ∈ index, i < s.sponsoredInformations.length)
    (late : ∀ item ∈ s.sponsoredInformations, item.cancelled = false →
      endTp ≤ item.startTimePoint) :
    setUsedLoop docs ⟨type, "", "", false, endTp, startTp⟩ timePointsUsed index s = .ok s := by
  induction index with
  | nil => rfl
  | cons i rest ih =>
      rw [List.forall_mem_cons] at inside
      have hitem := List.getElem?_eq_getElem inside.1
      rw [setUsedLoop, hitem]
      dsimp only
      by_cases hstart : endTp ≤ s.sponsoredInformations[i].startTimePoint
      · rw [if_pos hstart]
      · have hcancelled : s.sponsoredInformations[i].cancelled = true :=
          Bool.of_not_eq_false fun hkeeps => hstart (late _ (List.getElem_mem inside.1) hkeeps)
        rw [if_neg hstart, if_pos ⟨rfl, hcancelled⟩]
        exact ih inside.2

section
variable {docs after : Documents} {chain : Blockchain} {blockNumber : ℕ}

/-- A view in time is taken back, and returns what it has paid. -/
theorem setUsed_unview (sound : SponsorshipsSound docs) (near : NextTo chain blockNumber)
    {uri : String} {cusi noted : ContentUnitSponsoredInformation}
    (stored : docs.sponsored[uri]? = some cusi) (inOrder : InOrder cusi)
    (inTime : PaidInTime cusi (payTime chain blockNumber)) {payments : List SponsorPayment}
    (h : viewUnit cusi (payTime chain blockNumber) = .ok (noted, payments)) :
    (docs.withUnit uri noted).sponsoredContentUnitSetUsed chain uri blockNumber .revert "" "" false =
      .ok (docs, payments) := by
  have orderly := sound.orderly uri cusi stored
  obtain ⟨paid, hpaid, h⟩ := bind_ok_iff.mp h
  obtain ⟨again, hnoted, h⟩ := bind_ok_iff.mp h
  cases pure_ok_iff.mp h
  unfold viewPayments at hpaid
  obtain ⟨hitems, htimes, _⟩ := refreshIndex_rest hnoted
  have hlast : lastUsed noted = payTime chain blockNumber := by
    rw [lastUsed, htimes]
    simp
  have hnonempty : noted.timePointsUsed ≠ [] := by
    rw [htimes]
    exact List.concat_ne_nil _ _
  -- the walk that was made for the view, also when the view had nothing to pay
  have hwalk : setUsedLoop (docs.withUnit uri noted)
      ⟨.revert, "", "", false, payTime chain blockNumber, lastUsed cusi⟩
      cusi.timePointsUsed.length cusi.indexSi ⟨noted.sponsoredInformations, docs.expiring, []⟩ =
      .ok ⟨cusi.sponsoredInformations, docs.expiring, payments⟩ := by
    rw [hitems]
    by_cases hlate : lastUsed cusi < payTime chain blockNumber
    · rw [if_pos hlate] at hpaid
      obtain ⟨walked, hwalked, rfl⟩ := map_ok_iff.mp hpaid
      rw [setUsedLoop_view_eq _ default .revert .apply _ _ _ _ _ _ ∅, hwalked]
      rfl
    · rw [if_neg hlate] at hpaid
      cases pure_ok_iff.mp hpaid
      exact setUsedLoop_idle (fun i hi => orderly.refreshed.lt hi) (inTime.resolve_left hlate)
  unfold NextTo at near
  rw [sponsoredContentUnitSetUsed, require_true near, ok_bind, withUnit_there]
  dsimp only
  rw [require_true (hitems ▸ orderly.items), ok_bind, require_true hnonempty, ok_bind]
  change payUsed (docs.withUnit uri noted)
    ⟨.revert, "", "", false, payTime chain blockNumber, lastUsed noted⟩ noted >>= _ = _
  have hpays : paysNow ⟨.revert, "", "", false, payTime chain blockNumber, lastUsed noted⟩ =
      true := decide_eq_true hlast.symm
  have hrewind : rewind ⟨.revert, "", "", false, payTime chain blockNumber, lastUsed noted⟩ noted =
      .ok cusi := dropLastUsed_viewed orderly inOrder hnoted
  rw [payUsed, if_pos hpays, hrewind, ok_bind]
  change (setUsedLoop (docs.withUnit uri noted)
    ⟨.revert, "", "", false, payTime chain blockNumber, lastUsed cusi⟩
    cusi.timePointsUsed.length cusi.indexSi ⟨noted.sponsoredInformations, docs.expiring, []⟩ >>=
      _) >>= _ = _
  rw [hwalk]
  change Except.ok ((docs.withUnit uri noted).withUnit uri cusi, payments) = _
  rw [withUnit_again, withUnit_self stored]

end

end Documents

/-- A view fits a unit that is in order and is paid in time. The return of a sponsorship always
fits. -/
def UnitUse.Fits (endTp : ℤ) (use : UnitUse) (docs : Documents) : Prop :=
  use.hash = "" → ∀ cusi, docs.sponsored[use.uri]? = some cusi →
    Documents.InOrder cusi ∧ Documents.PaidInTime cusi endTp

section
variable {chain : Blockchain} {blockNumber : ℕ}

open Documents in
theorem usesSwap (near : NextTo chain blockNumber) (P : ContentUnitSponsoredInformation → Prop) :
    Swaps SponsorshipsSound
      (fun use docs => use.hash = "" → ∀ cusi, docs.sponsored[use.uri]? = some cusi → P cusi)
      UnitUse.Apart (UnitUse.pay chain blockNumber .apply) where
  keeps _ _ _ _ sound h := pay_sound sound h
  swaps _ _ _ _ _ _ _ sound apart h h' := pay_swap sound near apart h h'
  fits use other docs after _ sound apart fit h := by
    intro hview cusi stored
    -- the view is the only one of its unit
    have hunits : other.uri ≠ use.uri :=
      (apart.resolve_right fun hnamed => hnamed.1 hview).symm
    rw [pay_elsewhere sound near hunits h] at stored
    exact fit hview cusi stored

open Documents in
theorem usesTakenBack (near : NextTo chain blockNumber) :
    TakenBack SponsorshipsSound (UnitUse.Fits (payTime chain blockNumber)) UnitUse.Apart
      (UnitUse.pay chain blockNumber .apply) (UnitUse.pay chain blockNumber .revert) where
  toSwaps := usesSwap near fun cusi => InOrder cusi ∧ PaidInTime cusi (payTime chain blockNumber)
  undoes use docs after payments sound fit h := by
    by_cases hview : use.hash = ""
    · rcases pay_apply_cases sound near h with ⟨hnone, rfl, rfl⟩ | ⟨cusi, noted, hunit, hused, rfl⟩
      · unfold NextTo at near
        rw [UnitUse.pay, sponsoredContentUnitSetUsed, require_true near, ok_bind, hnone]
        rfl
      · obtain ⟨inOrder, inTime⟩ := fit hview cusi hunit
        rw [useUnit, if_pos hview] at hused
        rw [UnitUse.pay, hview]
        exact setUsed_unview sound near hunit inOrder inTime hused
    · exact setUsed_undo sound near hview h

open Documents in
/-- Uses that are taken back in their order leave the sponsorships as they were, whatever they
return, and so as when the last of them is taken back first. -/
theorem SponsorshipRun.takenBack {past : StandingCalls} {docs after back : Documents}
    (run : SponsorshipRun past docs) (near : NextTo chain blockNumber) {uses : List UnitUse}
    (apart : uses.Pairwise UnitUse.Apart) {outs returned : List (List SponsorPayment)}
    (applied : RunsTo (UnitUse.pay chain blockNumber .apply) uses docs outs after)
    (reverted : RunsTo (UnitUse.pay chain blockNumber .revert) uses after returned back) :
    back = docs := by
  refine (usesSwap near Documents.InOrder).back ?_ run.built.sound
    (fun use _ _ cusi stored => run.built.inOrder use.uri cusi stored) apart applied reverted
  intro use docs after back payments returned sound inOrder h hback
  by_cases hview : use.hash = ""
  · rw [UnitUse.pay, hview] at h hback
    exact Documents.setUsed_unviewed sound (inOrder hview) h hback
  · cases hback.symm.trans (Documents.setUsed_undo sound near hview h)
    rfl

end

end Publiq
