import Publiq.Published
import Mathlib.Data.List.Sort

/-! Where the transactions of a new block and those that wait come from: the pool that
was taken back, none of it twice, and the copies of it that were merged. -/
namespace Publiq
open Message Checked

/-- Signed by all of its authors: `action_is_complete` where it does not throw. -/
def Message.SignedTransaction.isComplete (st : SignedTransaction) : Bool :=
  match st.transactionDetails.action.document with
  | some (_, authors) => st.authorizations.length = authors.length
  | none => true

theorem isComplete_of_actionIsComplete {config : Config} {st : SignedTransaction}
    {complete : Bool} (h : actionIsComplete config st = .ok complete) :
    complete = st.isComplete := by
  obtain ⟨_, h⟩ := require_bind_ok_iff.mp h
  unfold SignedTransaction.isComplete
  cases haction : st.transactionDetails.action with
  | unknown rtt =>
      rw [haction] at h
      cases h
  | _ =>
      rw [haction] at h
      exact (pure_ok_iff.mp h).symm

theorem isComplete_of_document {st : SignedTransaction}
    (h : st.transactionDetails.action.document = none) : st.isComplete = true := by
  unfold SignedTransaction.isComplete
  rw [h]

theorem sortByCreation_perm (transactions : List SignedTransaction) :
    (sortByCreation transactions).Perm transactions := List.perm_insertionSort _ _

theorem sortByAmount_perm {α : Type} {amount : α → Checked Coin} {elements sorted : List α}
    (h : sortByAmount amount elements = .ok sorted) : sorted.Perm elements := by
  unfold sortByAmount at h
  split_ifs at h
  · cases pure_ok_iff.mp h
    exact .refl _
  · obtain ⟨keyed, hkeyed, h⟩ := bind_ok_iff.mp h
    cases pure_ok_iff.mp h
    have hsource : keyed.map Prod.snd = elements.map id := by
      refine map_of_mapM (fun element pair hpair => ?_) hkeyed
      obtain ⟨key, _, hpair⟩ := bind_ok_iff.mp hpair
      cases pure_ok_iff.mp hpair
      rfl
    rw [List.map_id] at hsource
    rw [← hsource]
    exact (List.perm_insertionSort _ keyed).map Prod.snd

namespace Selection

def all (s : Selection) : List SignedTransaction := s.blockTransactions ++ s.waiting

/-- Each of some transactions is put into the block or waits. -/
structure Sorts (s : Selection) (transactions : List SignedTransaction) (after : Selection) :
    Prop where
  all : after.all.Perm (s.all ++ transactions)
  block : ∀ st ∈ after.blockTransactions, st ∈ s.blockTransactions ∨ st ∈ transactions

theorem Sorts.nil (s : Selection) : Sorts s [] s :=
  ⟨by rw [List.append_nil], fun _ hst => .inl hst⟩

theorem Sorts.toBlock {s after : Selection} {st : SignedTransaction}
    {rest : List SignedTransaction}
    (h : Sorts { s with blockTransactions := s.blockTransactions ++ [st] } rest after) :
    Sorts s (st :: rest) after := by
  refine ⟨?_, fun other hother => ?_⟩
  · have hmoved : ({ s with blockTransactions := s.blockTransactions ++ [st] } : Selection).all.Perm
        (s.all ++ [st]) := by
      unfold Selection.all
      rw [List.append_assoc, List.append_assoc]
      exact List.perm_append_comm.append_left _
    rw [List.append_cons s.all st rest]
    exact h.all.trans (hmoved.append_right rest)
  · rcases h.block other hother with hblock | hrest
    · rcases List.mem_append.mp hblock with hblock | hst
      · exact .inl hblock
      · exact .inr (List.mem_singleton.mp hst ▸ List.mem_cons_self)
    · exact .inr (List.mem_cons_of_mem _ hrest)

theorem Sorts.toWaiting {s after : Selection} {st : SignedTransaction}
    {rest : List SignedTransaction}
    (h : Sorts { s with waiting := s.waiting ++ [st] } rest after) :
    Sorts s (st :: rest) after := by
  refine ⟨?_, fun other hother => (h.block other hother).imp_right (List.mem_cons_of_mem _)⟩
  have hmoved : ({ s with waiting := s.waiting ++ [st] } : Selection).all = s.all ++ [st] :=
    (List.append_assoc _ _ _).symm
  rw [List.append_cons s.all st rest, ← hmoved]
  exact h.all

theorem Sorts.trans {s mid after : Selection} {first second : List SignedTransaction}
    (h : Sorts s first mid) (h' : Sorts mid second after) : Sorts s (first ++ second) after := by
  refine ⟨?_, fun st hst => ?_⟩
  · rw [← List.append_assoc]
    exact h'.all.trans (h.all.append_right second)
  · rcases h'.block st hst with hmid | hsecond
    · exact (h.block st hmid).imp_right (List.mem_append_left _)
    · exact .inr (List.mem_append_right _ hsecond)

theorem Sorts.perm {s after : Selection} {first second : List SignedTransaction}
    (h : Sorts s first after) (same : first.Perm second) : Sorts s second after :=
  ⟨h.all.trans (same.append_left _), fun st hst => (h.block st hst).imp_right same.mem_iff.mp⟩

end Selection
open Selection

theorem sorts_reserveLoop (statCount : ℕ) (stats : List SignedTransaction) (index : ℕ)
    (s : Selection) : Sorts s stats (reserveLoop statCount stats index s) := by
  induction stats generalizing index s with
  | nil => exact .nil s
  | cons stat rest ih =>
      unfold reserveLoop
      split_ifs
      · exact (ih _ _).toBlock
      · exact (ih _ _).toWaiting

theorem sorts_reserveStatistics {statistics : List SignedTransaction} {s after : Selection}
    (h : reserveStatistics statistics s = .ok after) : Sorts s statistics after := by
  obtain ⟨sorted, hsorted, h⟩ := bind_ok_iff.mp h
  cases pure_ok_iff.mp h
  exact (sorts_reserveLoop _ _ _ _).perm (sortByAmount_perm hsorted)

theorem sorts_fillBlock (tpStart tpEnd : ℤ) (transactions : List SignedTransaction)
    (s : Selection) : Sorts s transactions (fillBlock tpStart tpEnd transactions s) := by
  unfold fillBlock
  induction transactions generalizing s with
  | nil => exact .nil s
  | cons first rest ih =>
      rw [List.foldl_cons]
      split_ifs
      · exact (ih _).toBlock
      · exact (ih _).toWaiting

theorem averageFees_source {transactions : List SignedTransaction}
    {averages : List (Coin × SignedTransaction)} (h : averageFees transactions = .ok averages) :
    averages.map Prod.snd = transactions := by
  obtain ⟨participants, _, h⟩ := bind_ok_iff.mp h
  obtain ⟨fees, _, h⟩ := bind_ok_iff.mp h
  rw [← List.zipIdx_map_fst 0 transactions]
  refine map_of_mapM (fun a b hb => ?_) h
  obtain ⟨average, _, hb⟩ := bind_ok_iff.mp hb
  cases pure_ok_iff.mp hb
  rfl

theorem mem_groupBy {α : Type} {key : α → String} {elements group : List α}
    (h : group ∈ groupBy key elements) : ∀ a ∈ group, a ∈ elements := by
  obtain ⟨k, _, rfl⟩ := List.mem_map.mp h
  exact fun a ha => List.mem_of_mem_filter ha

theorem length_authorizeOwners {m : AuthorityManager} {rtt : ℕ} {authorizations : List Authority}
    {owners : List String} {found authorized : List Authority}
    (h : authorizeOwners m rtt authorizations owners found = .ok (some authorized)) :
    authorized.length = found.length + owners.length := by
  induction owners generalizing found with
  | nil =>
      cases pure_ok_iff.mp h
      rfl
  | cons owner rest ih =>
      obtain ⟨authority, _, h⟩ := bind_ok_iff.mp h
      split_ifs at h with hempty
      · cases pure_ok_iff.mp h
      · split at h
        · cases pure_ok_iff.mp h
        · split_ifs at h
          · cases pure_ok_iff.mp h
          · rw [ih h, List.length_append, List.length_singleton, List.length_cons]
            omega

theorem actionOwners_document {action : Action} {uri : String} {authors owners : List String}
    (hdocument : action.document = some (uri, authors)) (h : actionOwners action = .ok owners) :
    owners = authors := by
  cases action with
  | file a =>
      cases hdocument
      exact (pure_ok_iff.mp h).symm
  | contentUnit a =>
      cases hdocument
      exact (pure_ok_iff.mp h).symm
  | _ => cases hdocument

theorem mergeCopies_spec {l : Ledger} {copies : List SignedTransaction} {merged : SignedTransaction}
    (documents : ∀ st ∈ copies, st.transactionDetails.action.document ≠ none)
    (h : mergeCopies l copies = .ok (some merged)) : merged.isComplete = true ∧
      ∃ copy ∈ copies, merged.transactionDetails = copy.transactionDetails := by
  cases copies with
  | nil => cases pure_ok_iff.mp h
  | cons first rest =>
      obtain ⟨owners, howners, h⟩ := bind_ok_iff.mp h
      obtain ⟨found, hfound, h⟩ := bind_ok_iff.mp h
      obtain ⟨authorizations, rfl, rfl⟩ := Option.map_eq_some_iff.mp (pure_ok_iff.mp h)
      refine ⟨?_, first, List.mem_cons_self, rfl⟩
      have hlength := length_authorizeOwners hfound
      obtain ⟨⟨uri, authors⟩, hdocument⟩ :=
        Option.ne_none_iff_exists'.mp (documents first List.mem_cons_self)
      rw [actionOwners_document hdocument howners, List.length_nil, Nat.zero_add] at hlength
      unfold SignedTransaction.isComplete
      simp only [hdocument, hlength, decide_true]

/-- Every merged transaction is complete and a copy of one of the groups; what is left
unmerged is of the groups. -/
theorem mergeGroups_spec {l : Ledger} {groups : List (List SignedTransaction)}
    {complete incomplete : List SignedTransaction}
    (documents : ∀ group ∈ groups, ∀ st ∈ group, st.transactionDetails.action.document ≠ none)
    (h : mergeGroups l groups = .ok (complete, incomplete)) :
    (∀ st ∈ complete, st.isComplete = true ∧ ∃ group ∈ groups, ∃ copy ∈ group,
        st.transactionDetails = copy.transactionDetails) ∧
      ∀ st ∈ incomplete, ∃ group ∈ groups, st ∈ group := by
  induction groups generalizing complete incomplete with
  | nil =>
      cases pure_ok_iff.mp h
      exact ⟨fun _ h => (nomatch h), fun _ h => nomatch h⟩
  | cons copies rest ih =>
      obtain ⟨merged, hmerged, h⟩ := bind_ok_iff.mp h
      obtain ⟨⟨complete', incomplete'⟩, hrest, h⟩ := bind_ok_iff.mp h
      obtain ⟨hcomplete, hincomplete⟩ :=
        ih (fun group hgroup => documents group (List.mem_cons_of_mem _ hgroup)) hrest
      have later : ∀ st ∈ complete', st.isComplete = true ∧ ∃ group ∈ copies :: rest,
          ∃ copy ∈ group, st.transactionDetails = copy.transactionDetails := by
        intro st hst
        obtain ⟨hst, group, hgroup, hcopy⟩ := hcomplete st hst
        exact ⟨hst, group, List.mem_cons_of_mem _ hgroup, hcopy⟩
      have left : ∀ st ∈ incomplete', ∃ group ∈ copies :: rest, st ∈ group := by
        intro st hst
        obtain ⟨group, hgroup, hst⟩ := hincomplete st hst
        exact ⟨group, List.mem_cons_of_mem _ hgroup, hst⟩
      cases merged with
      | some signedTransaction =>
          cases pure_ok_iff.mp h
          refine ⟨fun st hst => ?_, left⟩
          rcases List.mem_cons.mp hst with rfl | hst
          · obtain ⟨hst, hcopy⟩ := mergeCopies_spec (documents copies List.mem_cons_self) hmerged
            exact ⟨hst, copies, List.mem_cons_self, hcopy⟩
          · exact later st hst
      | none =>
          cases pure_ok_iff.mp h
          refine ⟨later, fun st hst => ?_⟩
          rcases List.mem_append.mp hst with hst | hst
          · exact ⟨copies, List.mem_cons_self, hst⟩
          · exact left st hst

/-- Where the transactions of a selection come from. -/
structure Selected (reverted : List SignedTransaction) (s : Selection) : Prop where
  member : ∀ st ∈ s.all, st ∈ reverted ∨ st.isComplete = true ∧
    ∃ copy ∈ reverted, st.transactionDetails = copy.transactionDetails
  count : ∀ st : SignedTransaction, st.transactionDetails.action.document = none →
    s.all.count st ≤ reverted.count st
  block : ∀ st ∈ s.blockTransactions, st.isComplete = true

theorem document_of_reportedRole {l : Ledger} {tpStart tpEnd : ℤ} {st : SignedTransaction}
    (h : reportedRole l tpStart tpEnd st ≠ none) :
    st.transactionDetails.action.document = none := by
  unfold reportedRole at h
  split at h
  · rename_i haction
    rw [haction]
    rfl
  · exact absurd rfl h

theorem perm_byRole (role : SignedTransaction → Option NodeType)
    (transactions : List SignedTransaction) :
    ((transactions.filter fun st => (role st).isNone) ++
      ((transactions.filter fun st => role st = some .channel) ++
        transactions.filter fun st => (role st).any (· ≠ .channel))).Perm transactions := by
  have hnone := List.filter_append_perm (fun st => (role st).isNone) transactions
  have hchannel := List.filter_append_perm (fun st => decide (role st = some .channel))
    (transactions.filter fun st => !(role st).isNone)
  rw [List.filter_filter, List.filter_filter] at hchannel
  have hfirst : (transactions.filter fun st => decide (role st = some .channel)) =
      transactions.filter fun st => decide (role st = some .channel) && !(role st).isNone := by
    refine List.filter_congr fun st _ => ?_
    cases role st <;> simp
  have hsecond : (transactions.filter fun st => (role st).any (· ≠ .channel)) =
      transactions.filter fun st => !decide (role st = some .channel) && !(role st).isNone := by
    refine List.filter_congr fun st _ => ?_
    cases role st <;> simp
  rw [hfirst, hsecond]
  exact (hchannel.append_left _).trans hnone

/-- A block of complete transactions, and merged copies in the place of incomplete ones. -/
theorem selected_of_sorts {reverted block late complete incomplete merged unmerged :
    List SignedTransaction} {after : Selection}
    (source : (block ++ (late ++ (complete ++ incomplete))).Perm reverted)
    (filled : Sorts ⟨block, late ++ unmerged⟩ (complete ++ merged) after)
    (hblock : ∀ st ∈ block, st.isComplete = true)
    (hcomplete : ∀ st ∈ complete, st.isComplete = true)
    (hincomplete : ∀ st ∈ incomplete, st.transactionDetails.action.document ≠ none)
    (hmerged : ∀ st ∈ merged, st.isComplete = true ∧
      ∃ copy ∈ incomplete, st.transactionDetails = copy.transactionDetails)
    (hunmerged : ∀ st ∈ unmerged, st ∈ incomplete) : Selected reverted after := by
  have hkept : ∀ st, st ∈ block ∨ st ∈ late ∨ st ∈ complete ∨ st ∈ incomplete → st ∈ reverted := by
    intro st hst
    rw [← source.mem_iff]
    simpa only [List.mem_append] using hst
  refine ⟨fun st hst => ?_, fun st hnone => ?_, fun st hst => ?_⟩
  · rw [filled.all.mem_iff] at hst
    simp only [Selection.all, List.mem_append] at hst
    rcases hst with (hst | hst | hst) | hst | hst
    · exact .inl (hkept st (.inl hst))
    · exact .inl (hkept st (.inr (.inl hst)))
    · exact .inl (hkept st (.inr (.inr (.inr (hunmerged st hst)))))
    · exact .inl (hkept st (.inr (.inr (.inl hst))))
    · obtain ⟨hst, copy, hcopy, hdetails⟩ := hmerged st hst
      exact .inr ⟨hst, copy, hkept copy (.inr (.inr (.inr hcopy))), hdetails⟩
  · have hnotUnmerged : unmerged.count st = 0 :=
      List.count_eq_zero_of_not_mem fun hst => hincomplete st (hunmerged st hst) hnone
    have hnotMerged : merged.count st = 0 := by
      refine List.count_eq_zero_of_not_mem fun hst => ?_
      obtain ⟨_, copy, hcopy, hdetails⟩ := hmerged st hst
      rw [hdetails] at hnone
      exact hincomplete copy hcopy hnone
    have hall := filled.all.count_eq st
    have hsource := source.count_eq st
    simp only [Selection.all, List.count_append] at hall hsource
    rw [Selection.all, List.count_append]
    omega
  · rcases filled.block st hst with hst | hst
    · exact hblock st hst
    · rcases List.mem_append.mp hst with hst | hst
      · exact hcomplete st hst
      · exact (hmerged st hst).1

theorem complete_of_reserved {l : Ledger} {tpStart tpEnd : ℤ}
    {early others : List SignedTransaction} {after : Selection}
    (h : Sorts ⟨[], others⟩
      ((early.filter fun st => reportedRole l tpStart tpEnd st = some .channel) ++
        early.filter fun st => (reportedRole l tpStart tpEnd st).any (· ≠ .channel)) after) :
    ∀ st ∈ after.blockTransactions, st.isComplete = true := by
  intro st hst
  have hrole : reportedRole l tpStart tpEnd st ≠ none := by
    intro hnone
    rcases h.block st hst with hnil | hst
    · cases hnil
    · simp [hnone] at hst
  exact isComplete_of_document (document_of_reportedRole hrole)

def early (header : BlockHeader) (transactions : List SignedTransaction) :
    List SignedTransaction :=
  transactions.filter fun st => decide (st.transactionDetails.creation < header.timeSigned)

def late (header : BlockHeader) (transactions : List SignedTransaction) : List SignedTransaction :=
  transactions.filter
    (not ∘ fun st => decide (st.transactionDetails.creation < header.timeSigned))

theorem early_append_late (header : BlockHeader) (transactions : List SignedTransaction) :
    (early header transactions ++ late header transactions).Perm transactions :=
  List.filter_append_perm _ _

/-- The role behind a report of the last interval before the time of a header. -/
def lastRole (l : Ledger) (header : BlockHeader) : SignedTransaction → Option NodeType :=
  reportedRole l (header.timeSigned - blockMineDelay - blockMineDelay)
    (header.timeSigned - blockMineDelay)

section
variable [Externals]

/-- A selection reserves the reports, merges the copies and fills the block, in this order. -/
theorem selectTransactions_stages {config : Config} {l : Ledger} {header : BlockHeader}
    {reverted : List SignedTransaction} {s : Selection}
    (h : selectTransactions config l header reverted = .ok s) :
    ∃ channels reserved merged unmerged sorted,
      reserveStatistics ((early header reverted).filter fun st =>
          lastRole l header st = some .channel)
        ⟨[], (early header reverted).filter fun st => (lastRole l header st).isNone⟩ =
        .ok channels ∧
      reserveStatistics ((early header reverted).filter fun st =>
        (lastRole l header st).any (· ≠ .channel)) channels = .ok reserved ∧
      mergeGroups l (groupBy (fun st => Externals.transactionToString st.transactionDetails)
        (reserved.waiting.filter fun st => !st.isComplete)) = .ok (merged, unmerged) ∧
      sorted.Perm (reserved.waiting.filter SignedTransaction.isComplete ++ merged) ∧
      s = fillBlock (header.timeSigned - blockMineDelay - blockMineDelay)
        (header.timeSigned - blockMineDelay) sorted
        ⟨reserved.blockTransactions, late header reverted ++ unmerged⟩ := by
  unfold selectTransactions at h
  simp only [List.partition_eq_filter_filter] at h
  obtain ⟨channels, hchannels, h⟩ := bind_ok_iff.mp h
  obtain ⟨reserved, hstorages, h⟩ := bind_ok_iff.mp h
  obtain ⟨known, hknown, h⟩ := bind_ok_iff.mp h
  obtain ⟨⟨merged, unmerged⟩, hmerged, h⟩ := bind_ok_iff.mp h
  obtain ⟨averages, haverages, h⟩ := bind_ok_iff.mp h
  obtain ⟨sorted, hsorted, h⟩ := bind_ok_iff.mp h
  cases pure_ok_iff.mp h
  obtain rfl : known = reserved.waiting.map fun st => (st.isComplete, st) := by
    rw [← List.map_id known]
    refine map_of_mapM (fun st pair hpair => ?_) hknown
    obtain ⟨complete, hcomplete, hpair⟩ := bind_ok_iff.mp hpair
    cases pure_ok_iff.mp hpair
    exact congrArg (·, st) (isComplete_of_actionIsComplete hcomplete)
  have hwhole : ((reserved.waiting.map fun st => (st.isComplete, st)).filter Prod.fst).map
      Prod.snd = reserved.waiting.filter SignedTransaction.isComplete := by
    rw [List.filter_map, List.map_map]
    exact List.map_id _
  have hpart : ((reserved.waiting.map fun st => (st.isComplete, st)).filter (not ∘ Prod.fst)).map
      Prod.snd = reserved.waiting.filter fun st => !st.isComplete := by
    rw [List.filter_map, List.map_map]
    exact List.map_id _
  rw [hpart] at hmerged
  rw [hwhole] at haverages
  refine ⟨channels, reserved, merged, unmerged, sorted.map Prod.snd, hchannels, hstorages, hmerged,
    ?_, rfl⟩
  exact averageFees_source haverages ▸ (sortByAmount_perm hsorted).map Prod.snd

/-- Mining selects from the pool that was taken back. -/
theorem selected_selectTransactions {config : Config} {l : Ledger} {header : BlockHeader}
    {reverted : List SignedTransaction} {s : Selection}
    (h : selectTransactions config l header reverted = .ok s) : Selected reverted s := by
  obtain ⟨channels, reserved, merged, unmerged, sorted, hchannels, hstorages, hmerged, hsorted,
    rfl⟩ := selectTransactions_stages h
  have hreserved := (sorts_reserveStatistics hchannels).trans (sorts_reserveStatistics hstorages)
  have hearly := hreserved.all.trans (perm_byRole _ _)
  have hwaiting := List.filter_append_perm SignedTransaction.isComplete reserved.waiting
  generalize hcomplete : reserved.waiting.filter SignedTransaction.isComplete = complete
    at hsorted hwaiting
  generalize hincomplete : (reserved.waiting.filter fun st => !st.isComplete) = incomplete
    at hmerged hwaiting
  have hdocuments : ∀ st ∈ incomplete, st.transactionDetails.action.document ≠ none := by
    intro st hst hnone
    rw [← hincomplete, List.mem_filter, isComplete_of_document hnone] at hst
    exact Bool.false_ne_true hst.2
  obtain ⟨hmergedCopies, hunmerged⟩ := mergeGroups_spec
    (fun group hgroup st hst => hdocuments st (mem_groupBy hgroup st hst)) hmerged
  refine selected_of_sorts ?_ ((sorts_fillBlock _ _ _ _).perm hsorted) ?_ ?_ hdocuments ?_ ?_
  · have hswap : (reserved.blockTransactions ++ (late header reverted ++
        (complete ++ incomplete))).Perm (reserved.all ++ late header reverted) := by
      rw [Selection.all, List.append_assoc]
      exact (List.perm_append_comm.trans (hwaiting.append_right _)).append_left _
    exact hswap.trans ((hearly.append_right _).trans (early_append_late header reverted))
  · exact complete_of_reserved hreserved
  · intro st hst
    rw [← hcomplete, List.mem_filter] at hst
    exact hst.2
  · intro st hst
    obtain ⟨hst, group, hgroup, copy, hcopy, hdetails⟩ := hmergedCopies st hst
    exact ⟨hst, copy, mem_groupBy hgroup copy hcopy, hdetails⟩
  · intro st hst
    obtain ⟨group, hgroup, hst⟩ := hunmerged st hst
    exact mem_groupBy hgroup st hst

end
end Publiq
