import Publiq.BlockTotals
import Publiq.CancelledSponsorships

/-! Cancelling a sponsorship: when it does what it is for, and that the sponsor gets what is left
back once. -/
namespace Publiq
open Message Checked

/-- The documents with a sponsorship marked as cancelled, and the part that its sponsor gets back
in its entry. -/
def Documents.withCancelled (docs : Documents) (uri hash : String)
    (cusi : ContentUnitSponsoredInformation) (index : ℕ) (item : SponsoredInformation)
    (number : ℕ) (part : Coin) : Documents :=
  { docs with
    sponsored := docs.sponsored.insert uri (Documents.withMark cusi index item true)
    expiring := docs.expiring.set number ((docs.expiring.get number).insert hash
      ⟨uri, hash, number, part⟩) }

namespace Documents
variable {item : SponsoredInformation} {tp : ℤ}

theorem toNat_clockSeconds {seconds : ℤ} (forward : 0 ≤ seconds) (kept : seconds ≤ 2 * clockRange) :
    (UInt64.ofInt (clockSeconds seconds)).toNat = seconds.toNat := by
  unfold clockRange at kept
  rw [clockSeconds_eq (by unfold clockRange; omega) kept]
  simp only [UInt64.ofInt, UInt64.toNat_ofNat']
  omega

theorem value_rate {rate : Coin} {whole seconds : UInt64}
    (h : item.amount.div whole = .ok rate) (inside : seconds.toNat ≤ whole.toNat)
    (kept : whole.toNat ≤ (2 * clockRange).toNat) :
    (rate.mul seconds).value = rate.value * seconds.toNat := by
  have hwhole := (Coin.value_mul_div h).2
  have hpart : rate.value * seconds.toNat ≤ rate.value * whole.toNat :=
    Nat.mul_le_mul_left _ inside
  apply Coin.value_mul
  · have hfraction : rate.fraction.toNat < 100000000 := rate.fraction_lt
    have hseconds : seconds.toNat ≤ 9223372036 := inside.trans kept
    calc rate.fraction.toNat * seconds.toNat ≤ 100000000 * 9223372036 :=
          Nat.mul_le_mul hfraction.le hseconds
      _ < 2 ^ 64 := by norm_num
  · exact (hpart.trans hwhole).trans_lt item.amount.value_bound

/-- What was paid of a sponsorship up to a time, and what is left of it, make up its amount. -/
theorem paidPart_complement {paid left : Coin} (from_start : item.startTimePoint ≤ tp)
    (before_end : tp < item.endTimePoint)
    (kept : item.endTimePoint - item.startTimePoint ≤ 2 * clockRange)
    (hpaid : paidPart item item.startTimePoint tp = .ok paid)
    (hleft : paidPart item tp item.endTimePoint = .ok left) :
    paid.value + left.value = item.amount.value := by
  obtain ⟨rate, hrate, hpaid⟩ := bind_ok_iff.mp hpaid
  obtain ⟨same, hsame, hleft⟩ := bind_ok_iff.mp hleft
  cases hrate.symm.trans hsame
  rw [if_neg before_end.ne] at hpaid
  rw [if_pos rfl] at hleft
  obtain ⟨rest, hrest, hleft⟩ := bind_ok_iff.mp hleft
  cases pure_ok_iff.mp hpaid
  cases pure_ok_iff.mp hleft
  obtain ⟨mod, hmod, hwhole⟩ := Coin.mod_ok hrate
  cases hrest.symm.trans hmod
  have hlasts := toNat_clockSeconds (by omega) kept
  have hfirst : (UInt64.ofInt (clockSeconds (tp - item.startTimePoint))).toNat =
      (tp - item.startTimePoint).toNat := toNat_clockSeconds (by omega) (by omega)
  have hsecond : (UInt64.ofInt (clockSeconds (item.endTimePoint - tp))).toNat =
      (item.endTimePoint - tp).toNat := toNat_clockSeconds (by omega) (by omega)
  have hsplit : (UInt64.ofInt (clockSeconds (item.endTimePoint - item.startTimePoint))).toNat =
      (UInt64.ofInt (clockSeconds (tp - item.startTimePoint))).toNat +
        (UInt64.ofInt (clockSeconds (item.endTimePoint - tp))).toNat := by omega
  have hpaidValue := value_rate hrate (hsplit ▸ Nat.le_add_right _ _) (by omega)
  have hleftValue := value_rate hrate (hsplit ▸ Nat.le_add_left _ _) (by omega)
  rw [hsplit, Nat.mul_add] at hwhole
  rw [Coin.value_add, hpaidValue, hleftValue]
  · omega
  · rw [hleftValue]
    have hbound := item.amount.value_bound
    omega

end Documents

namespace Message.CancelSponsorContentUnit

/-- What a cancellation may take back: a sponsorship of its unit and of its hash, which the one
who cancels has made and not cancelled yet, and the part of it that is left. -/
structure TakesBack (cancel : CancelSponsorContentUnit) (docs : Documents)
    (cusi : ContentUnitSponsoredInformation) (item : SponsoredInformation)
    (part : Publiq.Coin) : Prop where
  stored : docs.sponsored[cancel.uri]? = some cusi
  there : item ∈ cusi.sponsoredInformations
  named : item.transactionHash = cancel.transactionHash
  own : item.sponsorAddress = cancel.sponsorAddress
  standing : item.cancelled = false
  unfinished : Documents.isFinished cusi (Documents.lastUsed cusi) item = false
  left : Documents.paidPart item (Documents.paidUntil cusi item) item.endTimePoint = .ok part
  positive : part ≠ 0

def Entitled (st : SignedTransaction) (cancel : CancelSponsorContentUnit) (l : Ledger) : Prop :=
  l.permits cancel.sponsorAddress st.signer rtt = true ∧
    l.documents.unitExists cancel.uri = true ∧
    ∃ cusi item part, cancel.TakesBack l.documents cusi item part

/-- The sponsorship is marked, its entry keeps the part that is left, and nothing else changes. -/
def Settles (cancel : CancelSponsorContentUnit) (l after : Ledger) : Prop :=
  ∃ cusi index item part number, cancel.TakesBack l.documents cusi item part ∧
    cusi.sponsoredInformations[index]? = some item ∧
    l.documents.expirationEntryByHash cancel.transactionHash =
      .ok ⟨cancel.uri, cancel.transactionHash, number, 0⟩ ∧
    after = { l with
      documents := (l.documents.withCancelled cancel.uri cancel.transactionHash cusi index item
        number part) }

/-- A cancellation is taken if it is entitled, and does what it is for; else it is refused. -/
structure Proper [Externals] (ctx : Context) (st : SignedTransaction)
    (cancel : CancelSponsorContentUnit) (l : Ledger) : Prop where
  accepted : (Publiq.actionApply ctx st .chain l).isOk = true ↔ cancel.Entitled st l
  effect : ∀ after, Publiq.actionApply ctx st .chain l = .ok after → cancel.Settles l after

/-- The walk through the sponsorships of the unit, up to the first that starts after the next
block, comes to the one that is named, in time and with something left of it. -/
def ComesToIt (ctx : Context) (cancel : CancelSponsorContentUnit) (docs : Documents) : Prop :=
  ∃ cusi index item, docs.sponsored[cancel.uri]? = some cusi ∧
    Documents.target cusi.sponsoredInformations cusi.indexSi
      (Documents.payTime ctx.blockchain ctx.blockchain.length) cancel.transactionHash =
        some (index, item) ∧
    Documents.lastUsed cusi < Documents.payTime ctx.blockchain ctx.blockchain.length ∧
    Documents.paidPart item (Documents.paidUntil cusi item) item.endTimePoint ≠ .ok 0

/-- A cancellation that is not refused at once is not passed over either. -/
def Heeded (ctx : Context) (st : SignedTransaction) (cancel : CancelSponsorContentUnit)
    (l : Ledger) : Prop :=
  l.permits cancel.sponsorAddress st.signer rtt = true →
    l.documents.unitExists cancel.uri = true → cancel.ComesToIt ctx l.documents

section
variable {ctx : Context} {st : SignedTransaction} {l after : Ledger} {docs : Documents}
  {cancel : CancelSponsorContentUnit}

theorem TakesBack.item_eq (sound : docs.SponsorshipsSound) {part : Publiq.Coin}
    {cusi unit : ContentUnitSponsoredInformation} {item other : SponsoredInformation}
    (due : cancel.TakesBack docs cusi item part) (stored : docs.sponsored[cancel.uri]? = some unit)
    {index : ℕ} (there : unit.sponsoredInformations[index]? = some other)
    (named : other.transactionHash = cancel.transactionHash) : unit = cusi ∧ other = item := by
  cases stored.symm.trans due.stored
  obtain ⟨i, hi⟩ := List.mem_iff_getElem?.mp due.there
  obtain rfl := (sound.orderly cancel.uri _ due.stored).differ.index_eq hi there
    (due.named.trans named.symm)
  cases hi.symm.trans there
  exact ⟨rfl, rfl⟩

theorem TakesBack.holds {part : Publiq.Coin} {cusi : ContentUnitSponsoredInformation}
    {item : SponsoredInformation} (due : cancel.TakesBack docs cusi item part) :
    docs.Holds cancel.uri cancel.transactionHash false :=
  ⟨cusi, item, due.stored, due.there, due.named, due.standing⟩

theorem Settles.cancelledFor (sound : l.documents.SponsorshipsSound)
    (settles : cancel.Settles l after) : ∃ cusi item part,
      cancel.TakesBack l.documents cusi item part ∧
        after.documents.CancelledFor cancel.transactionHash part := by
  obtain ⟨cusi, index, item, part, number, due, hitem, hentry, rfl⟩ := settles
  refine ⟨cusi, item, part, due, ⟨cancel.uri, ?_⟩, ?_, due.positive⟩
  · refine ⟨_, { item with cancelled := true }, Std.ExtTreeMap.getElem?_insert_self, ?_, due.named,
      rfl⟩
    apply List.mem_of_getElem? (i := index)
    rw [Documents.withMark_getElem? hitem, if_pos rfl]
  · obtain ⟨n, _, hn, hfound, _⟩ := (sound.recorded cancel.uri cusi due.stored item due.there).entry
    rw [due.named] at hn hfound
    cases hentry.symm.trans hfound
    refine ⟨⟨cancel.uri, cancel.transactionHash, number, part⟩,
      Documents.expirationEntryByHash_ok_iff.mpr ⟨number, hn, ?_⟩, rfl⟩
    change ((l.documents.expiring.set number _).get number)[cancel.transactionHash]? = _
    rw [Documents.getElem?_set_insert, if_pos ⟨rfl, rfl⟩]

/-- What is marked was not marked before. -/
theorem Settles.ne (sound : l.documents.SponsorshipsSound) (settles : cancel.Settles l after) :
    after ≠ l := by
  rintro rfl
  obtain ⟨cusi, item, part, due, cancelled⟩ := settles.cancelledFor sound
  obtain ⟨uri, hmarked⟩ := cancelled.marked
  cases (due.holds.unique sound hmarked).2

/-- The walk finds nothing that is left of what is named. -/
theorem unpaid_of_not_comesToIt (passed : ¬ cancel.ComesToIt ctx docs)
    {cusi : ContentUnitSponsoredInformation} (stored : docs.sponsored[cancel.uri]? = some cusi) :
    Documents.unpaid cusi (Documents.payTime ctx.blockchain ctx.blockchain.length)
      cancel.transactionHash = .ok none := by
  unfold Documents.unpaid
  cases htarget : Documents.target cusi.sponsoredInformations cusi.indexSi
      (Documents.payTime ctx.blockchain ctx.blockchain.length) cancel.transactionHash with
  | none => rfl
  | some found =>
      obtain ⟨index, item⟩ := found
      dsimp only
      split_ifs with hlate
      · have hnothing : Documents.paidPart item (Documents.paidUntil cusi item)
            item.endTimePoint = .ok 0 := by
          by_contra hleft
          exact passed ⟨cusi, index, item, stored, htarget, hlate, hleft⟩
        rw [hnothing]
        rfl
      · rfl

theorem actionApply_refused (ctx : Context) (normal : l.authorityManager.Normal)
    (refused : ¬ (l.permits cancel.sponsorAddress st.signer rtt = true ∧
      l.documents.unitExists cancel.uri = true)) : ∃ e, cancel.actionApply ctx st l = .error e := by
  rw [actionApply, Ledger.requireAuthority, Ledger.checkAuthority_eq normal, ok_bind]
  by_cases permitted : l.permits cancel.sponsorAddress st.signer rtt = true
  · rw [require_true permitted, ok_bind, require_false fun there => refused ⟨permitted, there⟩]
    exact ⟨_, rfl⟩
  · rw [require_false permitted]
    exact ⟨_, rfl⟩

theorem actionApply_through (ctx : Context) (normal : l.authorityManager.Normal)
    (permitted : l.permits cancel.sponsorAddress st.signer rtt = true)
    (there : l.documents.unitExists cancel.uri = true) :
    cancel.actionApply ctx st l = cancel.setUsed ctx .apply false l.documents >>= fun used =>
      require (∀ payment ∈ used.2, payment.amount ≠ 0)
        (.wrongData ("invalid transaction hash: " ++ cancel.transactionHash)) >>= fun _ =>
      pure { l with documents := used.1 } := by
  rw [actionApply, Ledger.requireAuthority, Ledger.checkAuthority_eq normal, ok_bind,
    require_true permitted, ok_bind, require_true there, ok_bind]

theorem settled_eq_withCancelled {uri hash manual : String} (sponsor : manual ≠ "")
    {cusi : ContentUnitSponsoredInformation} {u : Documents.Unpaid}
    (named : u.item.transactionHash = hash) (number : ℕ) :
    docs.settled uri cusi u ⟨uri, hash, number, 0⟩ manual true =
      docs.withCancelled uri hash cusi u.index u.item number u.part := by
  rw [Documents.settled, if_pos sponsor, named]
  rfl

/-- Where the walk comes to what is named, it is taken back if it may be, or refused. -/
theorem setUsed_of_comesToIt (sound : docs.SponsorshipsSound) (named : cancel.transactionHash ≠ "")
    (sponsor : cancel.sponsorAddress ≠ "") (comes : cancel.ComesToIt ctx docs) :
    ((∀ cusi item part, ¬ cancel.TakesBack docs cusi item part) ∧
      ∃ e, cancel.setUsed ctx .apply false docs = .error e) ∨
    ∃ cusi index item part number, cancel.TakesBack docs cusi item part ∧
      cusi.sponsoredInformations[index]? = some item ∧
      docs.expirationEntryByHash cancel.transactionHash =
        .ok ⟨cancel.uri, cancel.transactionHash, number, 0⟩ ∧
      cancel.setUsed ctx .apply false docs = .ok (docs.withCancelled cancel.uri
        cancel.transactionHash cusi index item number part,
        [⟨item.sponsorAddress, item.transactionHash, part⟩]) := by
  obtain ⟨cusi, index, item, hunit, htarget, hlate, hleft⟩ := comes
  have orderly := sound.orderly cancel.uri cusi hunit
  obtain ⟨hindex, hitem, hhash, _⟩ := Documents.target_some htarget
  have hcall := Documents.setUsed_hash (sound.orderly cancel.uri)
    (Documents.nextTo_length ctx.blockchain) .apply named cancel.sponsorAddress false
  have hthis : ∀ unit other part, cancel.TakesBack docs unit other part → cusi = unit ∧
      item = other := fun unit other part due => due.item_eq sound hunit hitem hhash
  rw [hunit] at hcall
  unfold setUsed
  cases hpart : Documents.paidPart item (Documents.paidUntil cusi item) item.endTimePoint with
  | error e =>
      refine .inl ⟨fun unit other part due => ?_, e, ?_⟩
      · obtain ⟨rfl, rfl⟩ := hthis unit other part due
        cases hpart.symm.trans due.left
      · rw [hcall]
        simp only [Documents.unpaid, htarget, if_pos hlate, hpart]
        rfl
  | ok part =>
      have hpositive : part ≠ 0 := by
        rintro rfl
        exact hleft hpart
      have hunpaid : Documents.unpaid cusi (Documents.payTime ctx.blockchain ctx.blockchain.length)
          cancel.transactionHash = .ok (some ⟨index, item, part⟩) := by
        simp only [Documents.unpaid, htarget, if_pos hlate, hpart, ok_bind, if_neg hpositive]
        rfl
      obtain ⟨number, manuallyCancelled, hnumber, hentry, hcancelled⟩ :=
        (sound.recorded cancel.uri cusi hunit item (List.mem_of_getElem? hitem)).entry
      simp only [hunpaid, ok_bind] at hcall
      by_cases hreturn : (⟨index, item, part⟩ : Documents.Unpaid).ReturnableTo cancel.sponsorAddress
      · obtain ⟨hsponsor, hstanding⟩ := hreturn
        have hzero : manuallyCancelled = 0 := by
          by_contra hkept
          cases hstanding.symm.trans (hcancelled hkept)
        have hunfinished : Documents.isFinished cusi (Documents.lastUsed cusi) item = false := by
          obtain ⟨other, hother, hfinished⟩ := orderly.refreshed.item hindex
          cases hitem.symm.trans hother
          exact hfinished
        rw [Documents.payUnpaid_of_returnable (u := ⟨index, item, part⟩) hunit hnumber hentry
          ⟨hsponsor, hstanding⟩ hcancelled, if_neg Bool.false_ne_true] at hcall
        subst hzero
        refine .inr ⟨cusi, index, item, part, number, ⟨hunit, List.mem_of_getElem? hitem, hhash,
          hsponsor sponsor, hstanding, hunfinished, hpart, hpositive⟩, hitem, hhash ▸ hentry, ?_⟩
        rw [hcall, ← hhash, settled_eq_withCancelled sponsor rfl]
        rfl
      · obtain ⟨_, e, hthrows⟩ := Documents.payUnpaid_of_not_returnable
          (u := ⟨index, item, part⟩) hunit hnumber hentry hreturn
        refine .inl ⟨fun unit other left due => ?_, e, hcall.trans hthrows⟩
        obtain ⟨rfl, rfl⟩ := hthis unit other left due
        exact hreturn ⟨fun _ => due.own, due.standing⟩

/-- A cancellation does what it is for exactly when it is heeded. -/
theorem proper_iff [Externals] (sound : LedgerSound ctx.own .chain l)
    (haction : st.transactionDetails.action = .cancelSponsorContentUnit cancel)
    (transferOnly : requireTransferOnly ctx.config st.transactionDetails.action = .ok ())
    (named : cancel.transactionHash ≠ "") (sponsor : cancel.sponsorAddress ≠ "") :
    cancel.Proper ctx st l ↔ cancel.Heeded ctx st l := by
  have hcall : Publiq.actionApply ctx st .chain l = cancel.actionApply ctx st l := by
    unfold Publiq.actionApply
    dsimp only
    rw [transferOnly, haction]
    rfl
  by_cases hthrough : l.permits cancel.sponsorAddress st.signer rtt = true ∧
      l.documents.unitExists cancel.uri = true
  · obtain ⟨permitted, there⟩ := hthrough
    have happly := actionApply_through ctx sound.normal permitted there
    by_cases hcomes : cancel.ComesToIt ctx l.documents
    · refine iff_of_true ?_ fun _ _ => hcomes
      rcases setUsed_of_comesToIt sound.sponsorships named sponsor hcomes with
        ⟨hnothing, e, hthrows⟩ | ⟨cusi, index, item, part, number, due, hitem, hentry, hused⟩
      · rw [hthrows, error_bind] at happly
        refine ⟨?_, fun after hafter => ?_⟩
        · rw [hcall, happly]
          refine iff_of_false Bool.false_ne_true ?_
          rintro ⟨_, _, cusi, item, part, due⟩
          exact hnothing cusi item part due
        · rw [hcall, happly] at hafter
          cases hafter
      · rw [hused, ok_bind, require_true (by simpa using due.positive), ok_bind] at happly
        refine ⟨?_, fun after hafter => ?_⟩
        · rw [hcall, happly]
          exact iff_of_true rfl ⟨permitted, there, cusi, item, part, due⟩
        · rw [hcall, happly] at hafter
          exact ⟨cusi, index, item, part, number, due, hitem, hentry, (Except.ok.inj hafter).symm⟩
    · refine iff_of_false (fun proper => ?_) fun heeded => hcomes (heeded permitted there)
      have hidle : cancel.setUsed ctx .apply false l.documents = .ok (l.documents, []) := by
        rw [setUsed, Documents.setUsed_hash (sound.sponsorships.orderly cancel.uri)
          (Documents.nextTo_length ctx.blockchain) .apply named]
        cases hunit : l.documents.sponsored[cancel.uri]? with
        | none => rfl
        | some cusi =>
            dsimp only
            rw [unpaid_of_not_comesToIt hcomes hunit]
            rfl
      rw [hidle, ok_bind, require_true (by simp), ok_bind] at happly
      exact (proper.effect l (hcall.trans happly)).ne sound.sponsorships rfl
  · obtain ⟨e, hrefused⟩ := actionApply_refused ctx sound.normal hthrough
    refine iff_of_true ⟨?_, fun after hafter => ?_⟩ fun permitted there =>
      absurd ⟨permitted, there⟩ hthrough
    · rw [hcall, hrefused]
      exact iff_of_false Bool.false_ne_true fun entitled => hthrough ⟨entitled.1, entitled.2.1⟩
    · rw [hcall, hrefused] at hafter
      cases hafter

end

end Message.CancelSponsorContentUnit
end Publiq
