import Publiq.Cancellations
import Publiq.SponsorshipTables

/-! What is paid of a sponsorship over time. A view pays for the time since the view before it, and
what is returned is the rest, so the payments add up to the amount. -/
namespace Publiq
open Message Checked

def paidFor (hash : String) (payments : List SponsorPayment) : ℕ :=
  ((payments.filter fun payment => payment.transactionHash = hash).map fun payment =>
    payment.amount.value).sum

section
variable {hash : String}

@[simp] theorem paidFor_nil (hash : String) : paidFor hash [] = 0 := rfl

theorem paidFor_append (first second : List SponsorPayment) :
    paidFor hash (first ++ second) = paidFor hash first + paidFor hash second := by
  unfold paidFor
  rw [List.filter_append, List.map_append, List.sum_append]

theorem paidFor_singleton (payment : SponsorPayment) :
    paidFor hash [payment] =
      if payment.transactionHash = hash then payment.amount.value else 0 := by
  unfold paidFor
  split_ifs with h
  · rw [List.filter_cons_of_pos (by simpa using h)]
    simp
  · rw [List.filter_cons_of_neg (by simpa using h)]
    rfl

theorem paidFor_eq_zero {payments : List SponsorPayment}
    (other : ∀ payment ∈ payments, payment.transactionHash ≠ hash) : paidFor hash payments = 0 := by
  unfold paidFor
  rw [List.filter_eq_nil_iff.mpr fun payment hmem => by simpa using other payment hmem]
  rfl

end

namespace Documents

def rateOf (item : SponsoredInformation) : ℕ :=
  match item.amount.div (secondsWord (item.endTimePoint - item.startTimePoint)) with
  | .ok rate => rate.value
  | .error _ => 0

/-- What a sponsorship that is paid up to a time has paid. The last second pays the remainder of
the division too. -/
def paidBy (item : SponsoredInformation) (tp : ℤ) : ℕ :=
  if item.endTimePoint ≤ tp then item.amount.value
  else rateOf item * (tp - item.startTimePoint).toNat

section
variable {item : SponsoredInformation} {tp : ℤ}

theorem toNat_secondsWord {seconds : ℤ} (forward : 0 ≤ seconds) (kept : seconds ≤ 2 * clockRange) :
    (secondsWord seconds).toNat = seconds.toNat := toNat_clockSeconds forward kept

theorem rateOf_mul_le (proper : item.startTimePoint < item.endTimePoint)
    (kept : item.endTimePoint - item.startTimePoint ≤ 2 * clockRange) :
    rateOf item * (item.endTimePoint - item.startTimePoint).toNat ≤ item.amount.value := by
  unfold rateOf
  cases hrate : item.amount.div (secondsWord (item.endTimePoint - item.startTimePoint)) with
  | error e => simp
  | ok rate =>
      have hwhole := (Coin.value_mul_div hrate).2
      rw [toNat_secondsWord (by omega) kept] at hwhole
      exact hwhole

theorem paidBy_le (proper : item.startTimePoint < item.endTimePoint)
    (kept : item.endTimePoint - item.startTimePoint ≤ 2 * clockRange) (tp : ℤ) :
    paidBy item tp ≤ item.amount.value := by
  unfold paidBy
  split_ifs with h
  · exact le_rfl
  · have hinside : (tp - item.startTimePoint).toNat ≤
        (item.endTimePoint - item.startTimePoint).toNat := by omega
    exact (Nat.mul_le_mul_left _ hinside).trans (rateOf_mul_le proper kept)

theorem paidBy_start (proper : item.startTimePoint < item.endTimePoint) :
    paidBy item item.startTimePoint = 0 := by
  rw [paidBy, if_neg (not_le.mpr proper), Int.sub_self]
  rfl

theorem paidBy_of_finished (h : item.endTimePoint ≤ tp) : paidBy item tp = item.amount.value :=
  if_pos h

theorem paidBy_min (tp : ℤ) : paidBy item (min tp item.endTimePoint) = paidBy item tp := by
  by_cases h : item.endTimePoint ≤ tp
  · rw [min_eq_right h, paidBy_of_finished le_rfl, paidBy_of_finished h]
  · rw [min_eq_left (not_le.mp h).le]

/-- The part of an interval is what is paid at its end and not yet at its start. -/
theorem paidBy_add_part {part : Coin} {a b : ℤ} (from_start : item.startTimePoint ≤ a)
    (forward : a < b) (to_end : b ≤ item.endTimePoint)
    (kept : item.endTimePoint - item.startTimePoint ≤ 2 * clockRange)
    (h : paidPart item a b = .ok part) : paidBy item a + part.value = paidBy item b := by
  obtain ⟨rate, hrate, h⟩ := bind_ok_iff.mp h
  have hrateOf : rateOf item = rate.value := by
    change item.amount.div (secondsWord _) = .ok rate at hrate
    rw [rateOf, hrate]
  have hlasts : (UInt64.ofInt (clockSeconds (item.endTimePoint - item.startTimePoint))).toNat =
      (item.endTimePoint - item.startTimePoint).toNat := toNat_clockSeconds (by omega) kept
  have hpart : (UInt64.ofInt (clockSeconds (b - a))).toNat = (b - a).toNat :=
    toNat_clockSeconds (by omega) (by omega)
  have hvalue : (rate.mul (UInt64.ofInt (clockSeconds (b - a)))).value =
      rate.value * (UInt64.ofInt (clockSeconds (b - a))).toNat :=
    value_rate hrate (by omega) (by omega)
  rw [hpart] at hvalue
  have hbefore : paidBy item a = rate.value * (a - item.startTimePoint).toNat := by
    rw [paidBy, if_neg (by omega), hrateOf]
  have hsum : rate.value * (a - item.startTimePoint).toNat + rate.value * (b - a).toNat =
      rate.value * (b - item.startTimePoint).toNat := by
    rw [← Nat.mul_add]
    congr 1
    omega
  rw [hbefore]
  split_ifs at h with hend
  · -- the interval reaches the end, and the remainder of the division is paid with it
    obtain ⟨rest, hrest, h⟩ := bind_ok_iff.mp h
    cases pure_ok_iff.mp h
    obtain ⟨mod, hmod, hwhole⟩ := Coin.mod_ok hrate
    cases hrest.symm.trans hmod
    rw [hlasts] at hwhole
    rw [hend] at hvalue hsum
    have hbound := item.amount.value_bound
    rw [hend, paidBy_of_finished le_rfl, Coin.value_add, hvalue]
    · omega
    · rw [hvalue]
      omega
  · cases pure_ok_iff.mp h
    rw [paidBy, if_neg (by omega), hrateOf, hvalue, hsum]

end

section
variable {docs : Documents} {call : SetUsedCall} {timePointsUsed : ℕ} {hash : String}

def partValue (call : SetUsedCall) (timePointsUsed : ℕ) (item : SponsoredInformation) : ℕ :=
  match paidPart item (paidInterval call timePointsUsed item).1
      (paidInterval call timePointsUsed item).2 with
  | .ok part => part.value
  | .error _ => 0

/-- What the walk of a view pays for a hash: the parts of the sponsorships of the hash that it
comes to and that are not cancelled. -/
theorem setUsedLoop_paidFor (view : call.transactionHashToCancel = "")
    (real : call.pretend = false) {index : List ℕ} {s after : SetUsedState}
    (h : setUsedLoop docs call timePointsUsed index s = .ok after) :
    paidFor hash after.result = paidFor hash s.result +
      (((reached s.sponsoredInformations index call.endTp).filter fun p =>
        p.2.cancelled = false ∧ p.2.transactionHash = hash).map fun p =>
          partValue call timePointsUsed p.2).sum := by
  induction index generalizing s with
  | nil =>
      cases h
      rfl
  | cons i rest ih =>
      rw [setUsedLoop] at h
      cases hitem : s.sponsoredInformations[i]? with
      | none => simp [hitem] at h
      | some item =>
          simp only [hitem] at h
          by_cases hstart : call.endTp ≤ item.startTimePoint
          · rw [if_pos hstart] at h
            rw [reached_cons hitem, if_neg (not_lt.mpr hstart), ← Except.ok.inj h]
            rfl
          rw [reached_cons hitem, if_pos (not_le.mp hstart)]
          rw [if_neg hstart] at h
          by_cases hcancelled : item.cancelled = true
          · rw [if_pos ⟨view, hcancelled⟩] at h
            rw [List.filter_cons_of_neg (by simp [hcancelled])]
            exact ih h
          rw [if_neg fun h => hcancelled h.2, if_neg fun h => h.1 view] at h
          obtain ⟨part, hpart, h⟩ := bind_ok_iff.mp h
          have hvalue : partValue call timePointsUsed item = part.value := by
            rw [partValue, hpart]
          by_cases hzero : part = 0
          · rw [if_pos hzero] at h
            rw [hzero, Coin.value_zero] at hvalue
            rw [ih h, List.filter_cons]
            split_ifs
            · rw [List.map_cons, List.sum_cons, hvalue, Nat.zero_add]
            · rfl
          rw [if_neg hzero] at h
          obtain ⟨_, h⟩ := require_bind_ok_iff.mp h
          rw [real] at h
          by_cases hmanual : call.manualByAccount ≠ "" ∧
              item.sponsorAddress ≠ call.manualByAccount
          · simp [hmanual] at h
          rw [if_neg hmanual, if_pos view] at h
          rw [ih h, paidFor_append, paidFor_singleton, List.filter_cons]
          by_cases hhash : item.transactionHash = hash
          · rw [if_pos hhash, if_pos (by simp [hcancelled, hhash]), List.map_cons, List.sum_cons,
              hvalue, Nat.add_assoc]
          · rw [if_neg hhash, if_neg (by simp [hhash]), Nat.add_zero]

end

theorem paidPart_total {item : SponsoredInformation}
    (proper : item.startTimePoint < item.endTimePoint)
    (kept : item.endTimePoint - item.startTimePoint ≤ 2 * clockRange) (a b : ℤ) :
    ∃ part, paidPart item a b = .ok part := by
  have hnonzero : UInt64.ofInt (clockSeconds (item.endTimePoint - item.startTimePoint)) ≠ 0 := by
    intro hzero
    have hlasts : (secondsWord (item.endTimePoint - item.startTimePoint)).toNat =
      (item.endTimePoint - item.startTimePoint).toNat := toNat_secondsWord (by omega) kept
    rw [secondsWord, hzero] at hlasts
    change 0 = _ at hlasts
    omega
  obtain ⟨rate, hrate, _⟩ := Coin.div_ok (a := item.amount) hnonzero
  obtain ⟨rest, hrest, _⟩ := Coin.mod_ok hrate
  unfold paidPart
  simp only [hrate, ok_bind, hrest]
  split_ifs
  · exact ⟨_, rfl⟩
  · exact ⟨_, rfl⟩

end Documents

namespace SponsorshipCall
open Documents
variable {docs after : Documents} {call : SponsorshipCall}

def payments (call : SponsorshipCall) (docs : Documents) : List SponsorPayment :=
  match call with
  | .sponsor _ _ _ => []
  | .use chain uri blockNumber hash manual =>
      match docs.sponsoredContentUnitSetUsed chain uri blockNumber .apply hash manual false with
      | .ok used => used.2
      | .error _ => []

theorem payments_use {chain : Blockchain} {uri hash manual : String} {blockNumber : ℕ}
    {paid : List SponsorPayment}
    (h : docs.sponsoredContentUnitSetUsed chain uri blockNumber .apply hash manual false =
      .ok (after, paid)) :
    (SponsorshipCall.use chain uri blockNumber hash manual).payments docs = paid := by
  rw [payments, h]

theorem payments_held (sound : docs.SponsorshipsSound) {payment : SponsorPayment}
    (h : payment ∈ call.payments docs) : ∃ chain uri blockNumber hash manual cusi item,
      call = .use chain uri blockNumber hash manual ∧ docs.sponsored[uri]? = some cusi ∧
      item ∈ cusi.sponsoredInformations ∧ item.transactionHash = payment.transactionHash := by
  cases call with
  | sponsor _ _ _ => cases h
  | use chain uri blockNumber hash manual =>
      rw [payments] at h
      cases hused : docs.sponsoredContentUnitSetUsed chain uri blockNumber .apply hash manual
          false with
      | error e =>
          rw [hused] at h
          cases h
      | ok used =>
          obtain ⟨after, paid⟩ := used
          rw [hused] at h
          have near : NextTo chain blockNumber := (require_bind_ok_iff.mp hused).1
          refine ⟨chain, uri, blockNumber, hash, manual, ?_⟩
          by_cases named : hash = ""
          · subst named
            rcases setUsed_view_cases sound hused with ⟨_, rfl⟩ |
              ⟨cusi, _, _, hunit, _, _, _, _, pays⟩
            · cases h
            · obtain ⟨i, _, item, hitem, _, hhash, _⟩ := pays.items payment h
              exact ⟨cusi, item, rfl, hunit, List.mem_of_getElem? hitem, hhash.symm⟩
          · rcases setUsed_hash_cases sound near named hused with ⟨_, rfl⟩ |
              ⟨cusi, u, _, _, hunit, hu, _, _, _, _, _, rfl, _⟩
            · cases h
            · cases List.mem_singleton.mp h
              obtain ⟨hitem, _⟩ := Unpaid.item_of_unpaid hu
              exact ⟨cusi, u.item, rfl, hunit, List.mem_of_getElem? hitem, rfl⟩

theorem paidFor_other (sound : docs.SponsorshipsSound) {uri : String}
    {cusi : ContentUnitSponsoredInformation} (stored : docs.sponsored[uri]? = some cusi)
    {item : SponsoredInformation} (hitem : item ∈ cusi.sponsoredInformations)
    (other : ∀ chain blockNumber hash manual, call ≠ .use chain uri blockNumber hash manual) :
    paidFor item.transactionHash (call.payments docs) = 0 := by
  apply paidFor_eq_zero
  intro payment hmem hhash
  obtain ⟨chain, place, blockNumber, hash, manual, unit, found, hcall, hunit, hfound, hsame⟩ :=
    payments_held sound hmem
  obtain ⟨i, hi⟩ := List.getElem?_of_mem hitem
  obtain ⟨j, hj⟩ := List.getElem?_of_mem hfound
  obtain ⟨rfl, _⟩ := sound.once stored hunit hi hj (hhash.symm.trans hsame.symm)
  exact other chain blockNumber hash manual hcall

theorem paidFor_unknown (sound : docs.SponsorshipsSound) {hash : String}
    (unknown : docs.hashToBlock[hash]? = none) : paidFor hash (call.payments docs) = 0 := by
  apply paidFor_eq_zero
  intro payment hmem hhash
  obtain ⟨_, uri, _, _, _, cusi, item, _, hunit, hitem, hsame⟩ := payments_held sound hmem
  exact sound.fresh unknown hunit item hitem (hsame.trans hhash)

section
variable {chain : Blockchain} {uri hash manual : String} {blockNumber : ℕ}
  {cusi : ContentUnitSponsoredInformation}

/-- What a call for a hash pays: what is left of the sponsorship, if it is not cancelled. -/
theorem payments_named (sound : docs.SponsorshipsSound) (named : hash ≠ "")
    (stored : docs.sponsored[uri]? = some cusi)
    (h : (SponsorshipCall.use chain uri blockNumber hash manual).apply docs = .ok after) :
    ∃ u, unpaid cusi (payTime chain blockNumber) hash = .ok u ∧
      (SponsorshipCall.use chain uri blockNumber hash manual).payments docs =
        (u.map Unpaid.payment).toList ∧ ∀ v ∈ u, v.item.cancelled = false := by
  obtain ⟨⟨used, paid⟩, hused, rfl⟩ := map_ok_iff.mp h
  rw [payments_use hused]
  have near : NextTo chain blockNumber := (require_bind_ok_iff.mp hused).1
  rw [setUsed_hash (sound.orderly uri) near .apply named, stored] at hused
  obtain ⟨u, hu, hused⟩ := bind_ok_iff.mp hused
  refine ⟨u, hu, ?_⟩
  cases u with
  | none =>
      cases hused
      exact ⟨rfl, fun _ h => nomatch h⟩
  | some u =>
      obtain ⟨hitem, _⟩ := Unpaid.item_of_unpaid hu
      obtain ⟨number, manuallyCancelled, hnumber, hentry, _⟩ :=
        (sound.recorded uri cusi stored u.item (List.mem_of_getElem? hitem)).entry
      rcases payUnpaid_cases stored hnumber hentry hused with
        ⟨hpretend, _⟩ | ⟨_, happly, _, rfl, _⟩
      · cases hpretend
      · refine ⟨rfl, fun v hv => ?_⟩
        cases hv
        exact (happly rfl).1

/-- What a view pays for a hash. -/
theorem paidFor_view (stored : docs.sponsored[uri]? = some cusi)
    (h : (SponsorshipCall.use chain uri blockNumber "" manual).apply docs = .ok after) :
    paidFor hash ((SponsorshipCall.use chain uri blockNumber "" manual).payments docs) =
      if lastUsed cusi < payTime chain blockNumber then
        (((reached cusi.sponsoredInformations cusi.indexSi (payTime chain blockNumber)).filter
          fun p => p.2.cancelled = false ∧ p.2.transactionHash = hash).map fun p =>
            partValue ⟨.apply, "", manual, false, payTime chain blockNumber, lastUsed cusi⟩
              cusi.timePointsUsed.length p.2).sum
      else 0 := by
  obtain ⟨⟨used, paid⟩, hused, rfl⟩ := map_ok_iff.mp h
  rw [payments_use hused]
  obtain ⟨_, hused⟩ := require_bind_ok_iff.mp hused
  simp only [stored] at hused
  obtain ⟨_, hused⟩ := require_bind_ok_iff.mp hused
  obtain ⟨_, hused⟩ := require_bind_ok_iff.mp hused
  obtain ⟨⟨unit, walked⟩, hpaid, hused⟩ := bind_ok_iff.mp hused
  obtain ⟨noted, _, hused⟩ := bind_ok_iff.mp hused
  cases pure_ok_iff.mp hused
  change payUsed docs ⟨.apply, "", manual, false, payTime chain blockNumber, lastUsed cusi⟩ cusi =
    .ok (unit, walked) at hpaid
  by_cases hpays : lastUsed cusi < payTime chain blockNumber
  · rw [if_pos hpays]
    rw [payUsed, if_pos (show paysNow ⟨.apply, "", manual, false, payTime chain blockNumber,
      lastUsed cusi⟩ = true from decide_eq_true hpays)] at hpaid
    obtain ⟨rewound, hrewound, hpaid⟩ := bind_ok_iff.mp hpaid
    obtain ⟨after, hafter, hpaid⟩ := bind_ok_iff.mp hpaid
    cases pure_ok_iff.mp hpaid
    rw [rewind, if_neg (by simp)] at hrewound
    cases pure_ok_iff.mp hrewound
    rw [setUsedLoop_paidFor rfl rfl hafter, paidFor_nil, Nat.zero_add]
  · rw [if_neg hpays]
    rw [payUsed, if_neg (show ¬ paysNow ⟨.apply, "", manual, false, payTime chain blockNumber,
      lastUsed cusi⟩ = true from fun h => hpays (of_decide_eq_true h))] at hpaid
    cases pure_ok_iff.mp hpaid
    rfl

/-- A walk comes to a sponsorship once. -/
theorem sum_reached {items : List SponsoredInformation} (differ : HashesDiffer items) {i : ℕ}
    {item : SponsoredInformation} (hitem : items[i]? = some item)
    (keeps : item.cancelled = false) (endTp : ℤ) (f : SponsoredInformation → ℕ) {index : List ℕ}
    (nodup : index.Nodup) :
    (((reached items index endTp).filter fun p =>
      p.2.cancelled = false ∧ p.2.transactionHash = item.transactionHash).map fun p => f p.2).sum =
      if (i, item) ∈ reached items index endTp then f item else 0 := by
  induction index with
  | nil => rfl
  | cons j rest ih =>
      rw [List.nodup_cons] at nodup
      cases hfound : items[j]? with
      | none =>
          have hskip : reached items (j :: rest) endTp = reached items rest endTp := by
            simp only [reached, List.filterMap_cons, hfound, Option.map_none]
          rw [hskip]
          exact ih nodup.2
      | some found =>
          rw [reached_cons hfound]
          by_cases hstart : found.startTimePoint < endTp
          · rw [if_pos hstart, List.filter_cons]
            by_cases hthis : i = j
            · subst hthis
              cases hitem.symm.trans hfound
              have hrest : (i, item) ∉ reached items rest endTp :=
                fun hmem => nodup.1 (mem_reached hmem).1
              rw [if_pos (by simp [keeps]), List.map_cons, List.sum_cons, ih nodup.2,
                if_neg hrest, if_pos List.mem_cons_self, Nat.add_zero]
            · have hother : found.transactionHash ≠ item.transactionHash :=
                fun h => hthis (differ.index_eq hitem hfound h.symm)
              have hne : (i, item) ≠ (j, found) := fun h => hthis (congrArg Prod.fst h)
              rw [if_neg (by simp [hother]), ih nodup.2]
              simp only [List.mem_cons, hne, false_or]
          · rw [if_neg hstart]
            rfl

end

end SponsorshipCall

def paidOut (past : StandingCalls) (hash : String) : ℕ :=
  (past.map fun standing => paidFor hash (standing.1.payments standing.2)).sum

theorem paidOut_cons (call : SponsorshipCall) (docs : Documents) (past : StandingCalls)
    (hash : String) : paidOut ((call, docs) :: past) hash =
      paidFor hash (call.payments docs) + paidOut past hash := List.sum_cons

/-- What was paid of each sponsorship of a unit: its amount once it is cancelled, and before that
its worth up to the last time the unit was paid. -/
structure UnitPaid (past : StandingCalls) (cusi : ContentUnitSponsoredInformation) : Prop where
  ends : ∀ item ∈ cusi.sponsoredInformations, item.endTimePoint ≤ 2 * clockRange
  paid : ∀ (i : ℕ) item, cusi.sponsoredInformations[i]? = some item →
    paidOut past item.transactionHash =
      if item.cancelled = true then item.amount.value
      else Documents.paidBy item (Documents.paidUntil cusi item)

section
open Documents
variable {past : StandingCalls} {docs after : Documents} {uri hash : String}
  {call : SponsorshipCall} {chain : Blockchain} {blockNumber : ℕ}

/-- What has no entry was never paid. -/
theorem Built.paidOut_unknown (built : Built past docs) (unknown : docs.hashToBlock[hash]? = none) :
    paidOut past hash = 0 := by
  induction built with
  | start _ => rfl
  | @apply past call before mid after hbuilt permitted happly hsame ih =>
      rw [← hsame.hashToBlock] at unknown
      have hbefore : before.hashToBlock[hash]? = none := by
        cases hknown : before.hashToBlock[hash]? with
        | none => rfl
        | some number =>
            have hkept := call.hashToBlock_apply hbuilt.sound permitted happly hknown
            cases hkept.symm.trans unknown
      rw [paidOut_cons, SponsorshipCall.paidFor_unknown hbuilt.sound hbefore, ih hbefore]

theorem paidUntil_start (cusi : ContentUnitSponsoredInformation) (item : SponsoredInformation) :
    item.startTimePoint ≤ paidUntil cusi item := by
  unfold paidUntil
  split_ifs
  · exact le_rfl
  · exact le_max_right _ _

/-- A view pays each sponsorship of the unit up to its time. -/
theorem paidBy_of_view {manual : String} (built : Built past docs)
    (permitted : (SponsorshipCall.use chain uri blockNumber "" manual).Permitted docs)
    (clear : (SponsorshipCall.use chain uri blockNumber "" manual).Clear docs)
    (h : (SponsorshipCall.use chain uri blockNumber "" manual).apply docs = .ok after)
    {unit noted : ContentUnitSponsoredInformation} (stored : docs.sponsored[uri]? = some unit)
    (times : noted.timePointsUsed = unit.timePointsUsed ++ [payTime chain blockNumber])
    (before : UnitClear past unit) (paid : UnitPaid past unit) {i : ℕ}
    {item : SponsoredInformation} (hitem : unit.sponsoredInformations[i]? = some item)
    (keeps : item.cancelled = false) :
    paidFor item.transactionHash
        ((SponsorshipCall.use chain uri blockNumber "" manual).payments docs) +
      paidBy item (paidUntil unit item) = paidBy item (paidUntil noted item) := by
  have orderly := built.sound.orderly uri unit stored
  have inOrder := built.inOrder uri unit stored
  have hmem := List.mem_of_getElem? hitem
  have hused := orderly.used item hmem
  have hcounted := inOrder.counted item hmem
  obtain ⟨hstarts, _, proper⟩ := before.starts item hmem
  have kept : item.endTimePoint - item.startTimePoint ≤ 2 * clockRange := by
    have hend := paid.ends item hmem
    omega
  have hlater : item.timePointsUsedBefore < unit.timePointsUsed.length →
      lastUsed unit < payTime chain blockNumber := fun hbefore =>
    permitted rfl unit stored _ (lastUsed_mem_tail (by omega))
  have hnext : paidUntil noted item = max (payTime chain blockNumber) item.startTimePoint := by
    rw [paidUntil, lastUsed, times, if_neg]
    · simp
    · rw [List.length_append, List.length_singleton]
      omega
  rw [SponsorshipCall.paidFor_view stored h, hnext]
  by_cases hpays : lastUsed unit < payTime chain blockNumber
  · rw [if_pos hpays, SponsorshipCall.sum_reached orderly.differ hitem keeps _ _ orderly.nodup]
    by_cases hstart : payTime chain blockNumber ≤ item.startTimePoint
    · -- the sponsorship has not started
      have hunreached : (i, item) ∉ reached unit.sponsoredInformations unit.indexSi
          (payTime chain blockNumber) := fun h => not_lt.mpr hstart (mem_reached h).2.2
      have hbefore : paidUntil unit item = item.startTimePoint := by
        unfold paidUntil
        split_ifs
        · rfl
        · omega
      rw [if_neg hunreached, hbefore, max_eq_right hstart, Nat.zero_add]
    · have hreach : (i, item) ∈ reached unit.sponsoredInformations unit.indexSi
          (payTime chain blockNumber) ↔ isFinished unit (lastUsed unit) item = false := by
        rw [← mem_indexSi_iff orderly inOrder hitem]
        exact ⟨fun h => (mem_reached h).1, fun hindex =>
          mem_reached_of_start orderly.refreshed before.near hpays hindex hitem (not_le.mp hstart)⟩
      rw [max_eq_left (not_le.mp hstart).le]
      by_cases hfinished : isFinished unit (lastUsed unit) item = false
      · rw [if_pos (hreach.mpr hfinished)]
        simp only [isFinished, Bool.and_eq_false_iff, decide_eq_false_iff_not] at hfinished
        obtain ⟨part, hpart⟩ := paidPart_total proper kept (paidUntil unit item)
          (min (payTime chain blockNumber) item.endTimePoint)
        have hvalue : partValue ⟨.apply, "", manual, false, payTime chain blockNumber,
            lastUsed unit⟩ unit.timePointsUsed.length item = part.value := by
          rw [partValue]
          change (match paidPart item (paidUntil unit item)
            (min (payTime chain blockNumber) item.endTimePoint) with
            | .ok part => part.value
            | .error _ => 0) = part.value
          rw [hpart]
        have hforward : paidUntil unit item <
            min (payTime chain blockNumber) item.endTimePoint := by
          unfold paidUntil
          split_ifs <;> omega
        rw [hvalue, Nat.add_comm, paidBy_add_part (paidUntil_start unit item) hforward
          (min_le_right _ _) kept hpart, paidBy_min]
      · rw [if_neg fun h => hfinished (hreach.mp h), Nat.zero_add]
        simp only [isFinished, Bool.not_eq_false, Bool.and_eq_true, decide_eq_true_iff] at hfinished
        have hbefore : item.endTimePoint ≤ paidUntil unit item := by
          rw [paidUntil, if_neg (by omega)]
          omega
        rw [paidBy_of_finished hbefore, paidBy_of_finished (by omega)]
  · -- nothing has started, and nothing is paid
    rcases (clear rfl unit stored).2 with h | hnone
    · exact absurd h hpays
    have hstart := hnone item hmem keeps
    have hbefore : paidUntil unit item = item.startTimePoint := by
      rw [paidUntil, if_pos]
      by_contra hne
      exact hpays (hlater (by omega))
    rw [if_neg hpays, hbefore, max_eq_right hstart, Nat.zero_add]

theorem ends_of_apply (built : Built past docs) (permitted : call.Permitted docs)
    (h : call.apply docs = .ok after)
    (before : ∀ (uri : String) cusi, docs.sponsored[uri]? = some cusi → UnitPaid past cusi)
    {cusi : ContentUnitSponsoredInformation} (stored : after.sponsored[uri]? = some cusi) :
    ∀ item ∈ cusi.sponsoredInformations, item.endTimePoint ≤ 2 * clockRange := by
  intro item hitem
  obtain ⟨i, hi⟩ := List.getElem?_of_mem hitem
  rcases call.item_of_apply built.sound permitted h stored hi with
    ⟨unit, old, hunit, hold, hmark⟩ | ⟨_, _, _, _, _, heq⟩
  · have hend := (before uri unit hunit).ends old (List.mem_of_getElem? hold)
    rcases hmark with rfl | rfl
    · exact hend
    · exact hend
  · rw [heq]
    exact (clockSeconds_bounds _).2

theorem paidOut_of_apply (built : Built past docs) (permitted : call.Permitted docs)
    (clear : call.Clear docs) (h : call.apply docs = .ok after)
    (starts : ∀ (uri : String) cusi, docs.sponsored[uri]? = some cusi → UnitClear past cusi)
    (before : ∀ (uri : String) cusi, docs.sponsored[uri]? = some cusi → UnitPaid past cusi)
    {cusi : ContentUnitSponsoredInformation} (stored : after.sponsored[uri]? = some cusi) {i : ℕ}
    {item : SponsoredInformation} (hitem : cusi.sponsoredInformations[i]? = some item) :
    paidOut ((call, docs) :: past) item.transactionHash =
      if item.cancelled = true then item.amount.value
      else paidBy item (paidUntil cusi item) := by
  have sound := built.sound
  rw [paidOut_cons]
  cases call.unit_of_apply sound h stored with
  | same hunit hidle =>
      have hnothing : paidFor item.transactionHash (call.payments docs) = 0 := by
        by_cases hthis : ∃ chain blockNumber hash manual,
            call = .use chain uri blockNumber hash manual
        · obtain ⟨chain, blockNumber, hash, manual, rfl⟩ := hthis
          obtain ⟨named, hnone⟩ := hidle chain blockNumber hash manual rfl
          obtain ⟨u, hu, hpaid, _⟩ := SponsorshipCall.payments_named sound named hunit h
          cases hnone.symm.trans hu
          rw [hpaid]
          rfl
        · exact SponsorshipCall.paidFor_other sound hunit (List.mem_of_getElem? hitem)
            fun chain blockNumber hash manual hcall =>
              hthis ⟨chain, blockNumber, hash, manual, hcall⟩
      rw [hnothing, Nat.zero_add]
      exact (before uri cusi hunit).paid i item hitem
  | @sponsored chain spi hash amount hcall huri _ hcusi =>
      subst hcall
      rw [show SponsorshipCall.payments _ docs = [] from rfl, paidFor_nil, Nat.zero_add]
      obtain ⟨_, hitems⟩ := sponsoredWith_spec (sound.orderly uri)
        (sound.fresh_itemsOf permitted uri) rfl hcusi
      by_cases hlast : i < (itemsOf docs.sponsored[uri]?).length
      · rw [hitems, List.getElem?_append_left hlast] at hitem
        cases hunit : docs.sponsored[uri]? with
        | none =>
            rw [hunit] at hitem
            cases hitem
        | some unit =>
            rw [hunit] at hitem hcusi
            obtain ⟨_, hcusi⟩ := require_bind_ok_iff.mp hcusi
            obtain ⟨_, hcusi⟩ := require_bind_ok_iff.mp hcusi
            rw [paidUntil, lastUsed, (refreshIndex_rest hcusi).2.1]
            exact (before uri unit hunit).paid i item hitem
      · -- nothing was paid of a sponsorship that is new
        have hproper : item.startTimePoint < item.endTimePoint :=
          (starts_of_apply built permitted clear h starts stored item
            (List.mem_of_getElem? hitem)).2.2
        rw [hitems, List.getElem?_append_right (not_lt.mp hlast)] at hitem
        have hnew := List.mem_singleton.mp (List.mem_of_getElem? hitem)
        have huntil : paidUntil cusi item = item.startTimePoint := by
          rw [paidUntil, if_pos]
          rw [hnew]
        have hnone : item.cancelled = false := by
          rw [hnew]
          rfl
        rw [huntil, paidBy_start hproper, if_neg (by simp [hnone])]
        have hhash : item.transactionHash = hash := by
          rw [hnew]
          rfl
        rw [hhash]
        exact built.paidOut_unknown permitted
  | @viewed chain manual blockNumber unit hcall hunit hnoted =>
      subst hcall
      obtain ⟨hitems, htimes, _⟩ := refreshIndex_rest hnoted
      rw [hitems] at hitem
      have hpaid := (before uri unit hunit).paid i item hitem
      by_cases keeps : item.cancelled = true
      · rw [if_pos keeps] at hpaid ⊢
        rw [hpaid, SponsorshipCall.paidFor_view hunit h, Nat.add_eq_right]
        have hnone : ((reached unit.sponsoredInformations unit.indexSi
            (payTime chain blockNumber)).filter fun p => p.2.cancelled = false ∧
              p.2.transactionHash = item.transactionHash) = [] := by
          rw [List.filter_eq_nil_iff]
          rintro ⟨j, found⟩ hmem
          simp only [decide_eq_true_iff, not_and]
          intro hkeeps hhash
          obtain ⟨_, hfound, _⟩ := mem_reached hmem
          obtain rfl := (sound.orderly uri unit hunit).differ.index_eq hfound hitem hhash
          cases hitem.symm.trans hfound
          cases hkeeps.symm.trans keeps
        rw [hnone]
        split_ifs
        · rfl
        · rfl
      · rw [if_neg keeps] at hpaid ⊢
        rw [hpaid]
        exact paidBy_of_view built permitted clear h hunit htimes (starts uri unit hunit)
          (before uri unit hunit) hitem (Bool.eq_false_iff.mpr keeps)
  | @settled chain hash manual blockNumber unit u named hcall hunit hu hafter =>
      subst hcall
      obtain ⟨hthere, hhash⟩ := Unpaid.item_of_unpaid hu
      obtain ⟨found, hfound, hpaid, hkeeps⟩ := SponsorshipCall.payments_named sound named hunit h
      cases hu.symm.trans hfound
      rw [hpaid]
      change paidFor item.transactionHash [u.payment] + _ = _
      rw [paidFor_singleton]
      rw [hafter, withMark_getElem? hthere] at hitem
      split_ifs at hitem with hi
      · -- what was left of it is paid
        cases hitem
        obtain ⟨htarget, _, _, hpart⟩ := unpaid_some hu
        obtain ⟨hindex, _⟩ := target_some htarget
        have hmem := List.mem_of_getElem? hthere
        have hbefore := (before uri unit hunit).paid u.index u.item hthere
        rw [if_neg (by simp [hkeeps u rfl])] at hbefore
        obtain ⟨hstart, _, hproper⟩ := (starts uri unit hunit).starts u.item hmem
        have hend := (before uri unit hunit).ends u.item hmem
        have hunfinished := (mem_indexSi_iff (sound.orderly uri unit hunit)
          (built.inOrder uri unit hunit) hthere).mp hindex
        have hforward : paidUntil unit u.item < u.item.endTimePoint := by
          simp only [isFinished, Bool.and_eq_false_iff, decide_eq_false_iff_not] at hunfinished
          have hused := (sound.orderly uri unit hunit).used u.item hmem
          unfold paidUntil
          split_ifs <;> omega
        change (if u.item.transactionHash = u.item.transactionHash then u.part.value else 0) +
          paidOut past u.item.transactionHash = u.item.amount.value
        rw [if_pos rfl, hbefore, Nat.add_comm, paidBy_add_part (paidUntil_start unit u.item)
          hforward le_rfl (by omega) hpart, paidBy_of_finished le_rfl]
      · have hother : u.payment.transactionHash ≠ item.transactionHash := fun hsame =>
          hi (sound.once hunit hunit hthere hitem hsame).2
        rw [if_neg hother, Nat.zero_add, hafter]
        exact (before uri unit hunit).paid i item hitem

theorem Built.unitPaid {past : StandingCalls} (built : Built past docs)
    (clear : ∀ standing ∈ past, standing.1.Clear standing.2) :
    ∀ (uri : String) cusi, docs.sponsored[uri]? = some cusi → UnitPaid past cusi := by
  induction built with
  | start hstart =>
      intro uri cusi stored
      rw [hstart.sponsored] at stored
      exact absurd stored (by simp [show (default : Documents).sponsored = ∅ from rfl])
  | @apply past call before mid after hbuilt permitted happly hsame ih =>
      rw [List.forall_mem_cons] at clear
      have hbefore := ih clear.2
      intro uri cusi stored
      rw [← hsame.sponsored] at stored
      exact ⟨ends_of_apply hbuilt permitted happly hbefore stored,
        fun i item hitem => paidOut_of_apply hbuilt permitted clear.1 happly
          (hbuilt.unitClear clear.2) hbefore stored hitem⟩

def Sponsored (docs : Documents) (uri hash : String) (amount : Coin) (itemEnd : ℤ) (number : ℕ) :
    Prop :=
  docs.hashToBlock[hash]? = some number ∧ ∃ cusi item, docs.sponsored[uri]? = some cusi ∧
    item ∈ cusi.sponsoredInformations ∧ item.transactionHash = hash ∧ item.amount = amount ∧
    item.endTimePoint = itemEnd

theorem Sponsored.apply {amount : Coin} {itemEnd : ℤ} {number : ℕ}
    (sponsored : Sponsored docs uri hash amount itemEnd number) (sound : docs.SponsorshipsSound)
    (permitted : call.Permitted docs) (h : call.apply docs = .ok after) :
    Sponsored after uri hash amount itemEnd number := by
  obtain ⟨hnumber, cusi, item, stored, hmem, rfl, rfl, rfl⟩ := sponsored
  refine ⟨call.hashToBlock_apply sound permitted h hnumber, ?_⟩
  obtain ⟨i, hi⟩ := List.getElem?_of_mem hmem
  obtain ⟨unit, kept, hunit, hthere, hmark⟩ := call.item_kept sound permitted h stored hi
  refine ⟨unit, kept, hunit, List.mem_of_getElem? hthere, ?_⟩
  rcases hmark with rfl | rfl
  · exact ⟨rfl, rfl, rfl⟩
  · exact ⟨rfl, rfl, rfl⟩

/-- `sponsor_content_unit_apply` stores the sponsorship. -/
theorem sponsored_of_apply {spi : SponsorContentUnit} {amount : Coin}
    (sound : docs.SponsorshipsSound) (permitted : docs.hashToBlock[hash]? = none)
    (hamount : Coin.ofMessage spi.amount = .ok amount)
    (h : (SponsorshipCall.sponsor chain spi hash).apply docs = .ok after) :
    ∃ number, getExpiringBlockNumber chain (clockSeconds (sponsoredInterval spi).2) = .ok number ∧
      Sponsored after spi.uri hash amount (clockSeconds (sponsoredInterval spi).2) number := by
  obtain ⟨found, hfound, h⟩ := bind_ok_iff.mp h
  cases hfound.symm.trans hamount
  obtain ⟨cusi, number, hcusi, hnumber, rfl⟩ := sponsorContentUnitApply_cases h
  obtain ⟨_, hitems⟩ := sponsoredWith_spec (sound.orderly spi.uri)
    (sound.fresh_itemsOf permitted spi.uri) rfl hcusi
  refine ⟨number, hnumber, by rw [withSponsorship_hashToBlock, if_pos rfl], cusi,
    { newSponsorship spi amount hash with timePointsUsedBefore := cusi.timePointsUsed.length },
    Std.ExtTreeMap.getElem?_insert_self, ?_, rfl, rfl, rfl⟩
  rw [hitems]
  exact List.mem_append_right _ List.mem_cons_self

section
variable {amount : Coin} {itemEnd : ℤ} {number : ℕ} {manual : String}

theorem Sponsored.paid (sponsored : Sponsored docs uri hash amount itemEnd number)
    (built : Built past docs) (clear : ∀ standing ∈ past, standing.1.Clear standing.2) :
    ∃ (cusi : ContentUnitSponsoredInformation) (i : ℕ) (item : SponsoredInformation),
      docs.sponsored[uri]? = some cusi ∧ cusi.sponsoredInformations[i]? = some item ∧
      item.transactionHash = hash ∧ item.amount = amount ∧ item.endTimePoint = itemEnd ∧
      0 ≤ item.startTimePoint ∧ item.startTimePoint < item.endTimePoint ∧
      item.endTimePoint ≤ 2 * clockRange ∧
      paidOut past hash = if item.cancelled = true then amount.value
        else paidBy item (paidUntil cusi item) := by
  obtain ⟨_, cusi, item, stored, hmem, hhash, hamount, hend⟩ := sponsored
  obtain ⟨i, hi⟩ := List.getElem?_of_mem hmem
  obtain ⟨hstart, _, hproper⟩ := (built.unitClear clear uri cusi stored).starts item hmem
  have hpaid := built.unitPaid clear uri cusi stored
  have hthis := hpaid.paid i item hi
  rw [hhash, hamount] at hthis
  exact ⟨cusi, i, item, stored, hi, hhash, hamount, hend, hstart, hproper, hpaid.ends item hmem,
    hthis⟩

theorem Sponsored.paidOut_le (sponsored : Sponsored docs uri hash amount itemEnd number)
    (built : Built past docs) (clear : ∀ standing ∈ past, standing.1.Clear standing.2) :
    paidOut past hash ≤ amount.value := by
  obtain ⟨cusi, i, item, _, _, _, rfl, _, hstart, hproper, hend, hpaid⟩ :=
    sponsored.paid built clear
  rw [hpaid]
  split_ifs
  · exact le_rfl
  · exact paidBy_le hproper (by omega) _

theorem Sponsored.paidOut_of_marked (sponsored : Sponsored docs uri hash amount itemEnd number)
    (built : Built past docs) (clear : ∀ standing ∈ past, standing.1.Clear standing.2)
    {place : String} (marked : docs.Holds place hash true) : paidOut past hash = amount.value := by
  obtain ⟨cusi, i, item, stored, hitem, hhash, _, _, _, _, _, hpaid⟩ := sponsored.paid built clear
  obtain ⟨unit, found, hunit, hmem, hsame, hmark⟩ := marked
  obtain ⟨j, hj⟩ := List.getElem?_of_mem hmem
  obtain ⟨rfl, rfl⟩ := built.sound.once stored hunit hitem hj (hhash.trans hsame.symm)
  cases stored.symm.trans hunit
  cases hitem.symm.trans hj
  rw [hpaid, if_pos hmark]

theorem Sponsored.paidOut_of_viewed (sponsored : Sponsored docs uri hash amount itemEnd number)
    (built : Built past docs) (clear : ∀ standing ∈ past, standing.1.Clear standing.2)
    (viewed : ∀ cusi, docs.sponsored[uri]? = some cusi → itemEnd ≤ lastUsed cusi ∧
      ∀ item ∈ cusi.sponsoredInformations,
        item.timePointsUsedBefore < cusi.timePointsUsed.length) :
    paidOut past hash = amount.value := by
  obtain ⟨cusi, i, item, stored, hitem, _, hamount, hend, _, _, _, hpaid⟩ :=
    sponsored.paid built clear
  obtain ⟨hlate, hbefore⟩ := viewed cusi stored
  have huntil : item.endTimePoint ≤ paidUntil cusi item := by
    rw [paidUntil, if_neg (hbefore item (List.mem_of_getElem? hitem)).ne, hend]
    exact hlate.trans (le_max_left _ _)
  rw [hpaid, paidBy_of_finished huntil, hamount]
  split_ifs
  · rfl
  · rfl

/-- A call for a sponsorship at its end or later pays what is left of it. -/
theorem Sponsored.paidOut_of_returned (sponsored : Sponsored docs uri hash amount itemEnd number)
    (built : Built past docs) (clear : ∀ standing ∈ past, standing.1.Clear standing.2)
    (named : hash ≠ "")
    (h : (SponsorshipCall.use chain uri blockNumber hash manual).apply docs = .ok after)
    (ended : itemEnd ≤ payTime chain blockNumber)
    (inTime : ∀ cusi, docs.sponsored[uri]? = some cusi → lastUsed cusi < payTime chain blockNumber ∨
      ∀ item ∈ cusi.sponsoredInformations, item.cancelled = false →
        payTime chain blockNumber ≤ item.startTimePoint) :
    paidOut ((.use chain uri blockNumber hash manual, docs) :: past) hash = amount.value := by
  obtain ⟨cusi, i, item, stored, hitem, hhash, hamount, hend, hstart, hproper, hkept, hpaid⟩ :=
    sponsored.paid built clear
  have sound := built.sound
  have orderly := sound.orderly uri cusi stored
  have hmem := List.mem_of_getElem? hitem
  obtain ⟨u, hu, hpays, hkeeps⟩ := SponsorshipCall.payments_named sound named stored h
  rw [paidOut_cons, hpays, hpaid]
  by_cases hcancelled : item.cancelled = true
  · -- nothing is left
    rw [if_pos hcancelled]
    cases u with
    | none => exact Nat.zero_add _
    | some u =>
        obtain ⟨hthere, hsame⟩ := Unpaid.item_of_unpaid hu
        obtain rfl := orderly.differ.index_eq hitem hthere (hhash.trans hsame.symm)
        cases hitem.symm.trans hthere
        cases hcancelled.symm.trans (hkeeps u rfl)
  rw [if_neg hcancelled]
  have hlate : lastUsed cusi < payTime chain blockNumber := by
    rcases inTime cusi stored with hlate | hnone
    · exact hlate
    · have hafter := hnone item hmem (Bool.eq_false_iff.mpr hcancelled)
      omega
  by_cases hindex : i ∈ cusi.indexSi
  · have hreached := mem_reached_of_start orderly.refreshed
      (built.unitClear clear uri cusi stored).near hlate hindex hitem (by omega)
    have hsome : ∃ found, target cusi.sponsoredInformations cusi.indexSi
        (payTime chain blockNumber) hash = some found :=
      Option.isSome_iff_exists.mp (List.find?_isSome.mpr ⟨_, hreached, decide_eq_true hhash⟩)
    obtain ⟨⟨j, found⟩, htarget⟩ := hsome
    obtain ⟨_, hfound, hsame, _⟩ := target_some htarget
    obtain rfl := orderly.differ.index_eq hitem hfound (hhash.trans hsame.symm)
    cases hitem.symm.trans hfound
    rw [unpaid, htarget] at hu
    simp only [if_pos hlate] at hu
    obtain ⟨part, hpart, hu⟩ := bind_ok_iff.mp hu
    have hunfinished := (mem_indexSi_iff orderly (built.inOrder uri cusi stored) hitem).mp hindex
    have hforward : paidUntil cusi item < item.endTimePoint := by
      simp only [isFinished, Bool.and_eq_false_iff, decide_eq_false_iff_not] at hunfinished
      have hused := orderly.used item hmem
      unfold paidUntil
      split_ifs <;> omega
    have hsum := paidBy_add_part (paidUntil_start cusi item) hforward le_rfl (by omega) hpart
    rw [paidBy_of_finished le_rfl, hamount] at hsum
    have hfor : paidFor hash (u.map Unpaid.payment).toList = part.value := by
      rw [← pure_ok_iff.mp hu]
      split_ifs with hzero
      · rw [hzero, Coin.value_zero]
        rfl
      · change paidFor hash [(⟨i, item, part⟩ : Unpaid).payment] = part.value
        rw [paidFor_singleton]
        exact if_pos hhash
    rw [hfor, Nat.add_comm]
    exact hsum
  · -- it has ended before
    have hfinished : isFinished cusi (lastUsed cusi) item = true := by
      rw [mem_indexSi_iff orderly (built.inOrder uri cusi stored) hitem] at hindex
      simpa using hindex
    simp only [isFinished, Bool.and_eq_true, decide_eq_true_iff] at hfinished
    have hnone : u = none := by
      cases u with
      | none => rfl
      | some u =>
          obtain ⟨hthere, hsame⟩ := Unpaid.item_of_unpaid hu
          obtain rfl := orderly.differ.index_eq hitem hthere (hhash.trans hsame.symm)
          exact absurd (target_some (unpaid_some hu).1).1 hindex
    have huntil : item.endTimePoint ≤ paidUntil cusi item := by
      rw [paidUntil, if_neg (by omega)]
      omega
    rw [hnone, paidBy_of_finished huntil, hamount]
    exact Nat.zero_add _

end

end
end Publiq
