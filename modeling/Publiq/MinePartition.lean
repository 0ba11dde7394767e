import Publiq.LoggedMining
import Publiq.RejectedTransactions

/-! What becomes of the pool when a block is mined. Every transaction that has not expired is in
the block, in the new pool, merged with other copies, or dropped as it cannot be applied any
more. -/
namespace Publiq
open Message Checked Selection

theorem perm_groups {α : Type} {key : α → String} {keys : List String} (nodup : keys.Nodup)
    {elements : List α} (known : ∀ a ∈ elements, key a ∈ keys) :
    (keys.flatMap fun k => elements.filter fun a => key a = k).Perm elements := by
  induction keys generalizing elements with
  | nil =>
      rw [List.eq_nil_iff_forall_not_mem.mpr fun a ha => nomatch known a ha]
      exact .refl _
  | cons first rest ih =>
      rw [List.nodup_cons] at nodup
      rw [List.flatMap_cons]
      have hrest : (rest.flatMap fun k => elements.filter fun a => key a = k) =
          rest.flatMap fun k => (elements.filter fun a => !decide (key a = first)).filter
            fun a => key a = k := by
        refine List.flatMap_congr fun k hk => ?_
        rw [List.filter_filter]
        refine List.filter_congr fun a _ => ?_
        by_cases hkey : key a = k
        · have hother : key a ≠ first := fun h => nodup.1 (h ▸ hkey ▸ hk)
          simp [hkey, hkey ▸ hother]
        · simp [hkey]
      rw [hrest]
      refine ((ih nodup.2 fun a ha => ?_).append_left _).trans (List.filter_append_perm _ elements)
      obtain ⟨ha, hne⟩ := List.mem_filter.mp ha
      refine (List.mem_cons.mp (known a ha)).resolve_left fun h => ?_
      simp [h] at hne

theorem groupBy_perm {α : Type} (key : α → String) (elements : List α) :
    (groupBy key elements).flatten.Perm elements := by
  rw [groupBy, ← List.flatMap_def]
  exact perm_groups (List.nodup_dedup _) fun a ha =>
    List.mem_dedup.mpr (List.mem_map_of_mem ha)

theorem mergeGroups_parts {l : Ledger} {groups : List (List SignedTransaction)}
    {complete incomplete : List SignedTransaction}
    (h : mergeGroups l groups = .ok (complete, incomplete)) :
    ∃ merges : List (List SignedTransaction × SignedTransaction), merges.map Prod.snd = complete ∧
      (∀ p ∈ merges, p.1 ∈ groups ∧ mergeCopies l p.1 = .ok (some p.2)) ∧
      groups.flatten.Perm (merges.flatMap Prod.fst ++ incomplete) := by
  induction groups generalizing complete incomplete with
  | nil =>
      cases pure_ok_iff.mp h
      exact ⟨[], rfl, fun _ hp => (nomatch hp), .refl _⟩
  | cons copies rest ih =>
      obtain ⟨merged, hmerged, h⟩ := bind_ok_iff.mp h
      obtain ⟨⟨complete', incomplete'⟩, hrest, h⟩ := bind_ok_iff.mp h
      obtain ⟨merges, rfl, hmerges, hperm⟩ := ih hrest
      have later : ∀ p ∈ merges, p.1 ∈ copies :: rest ∧ mergeCopies l p.1 = .ok (some p.2) :=
        fun p hp => ⟨List.mem_cons_of_mem _ (hmerges p hp).1, (hmerges p hp).2⟩
      rw [List.flatten_cons]
      cases merged with
      | some signedTransaction =>
          cases pure_ok_iff.mp h
          refine ⟨(copies, signedTransaction) :: merges, rfl,
            List.forall_mem_cons.mpr ⟨⟨List.mem_cons_self, hmerged⟩, later⟩, ?_⟩
          rw [List.flatMap_cons, List.append_assoc]
          exact hperm.append_left _
      | none =>
          cases pure_ok_iff.mp h
          refine ⟨merges, rfl, later, (hperm.append_left _).trans ?_⟩
          rw [← List.append_assoc, ← List.append_assoc]
          exact List.perm_append_comm.append_right _

namespace Selection

/-- The block of a selection grows by some of the transactions, in their order. -/
structure Grows (s : Selection) (transactions : List SignedTransaction) (after : Selection) :
    Prop where
  block : ∃ moved, after.blockTransactions = s.blockTransactions ++ moved ∧
    moved.Sublist transactions
  room : s.blockTransactions.length ≤ blockMaxTransactions →
    after.blockTransactions.length ≤ blockMaxTransactions

theorem Grows.nil (s : Selection) : Grows s [] s :=
  ⟨⟨[], (List.append_nil _).symm, .slnil⟩, fun h => h⟩

theorem Grows.toBlock {s after : Selection} {st : SignedTransaction}
    {rest : List SignedTransaction} (room : s.blockTransactions.length < blockMaxTransactions)
    (h : Grows { s with blockTransactions := s.blockTransactions ++ [st] } rest after) :
    Grows s (st :: rest) after := by
  obtain ⟨moved, hblock, hmoved⟩ := h.block
  refine ⟨⟨st :: moved, hblock.trans (List.append_assoc _ _ _), hmoved.cons_cons st⟩, fun _ => ?_⟩
  refine h.room ?_
  rw [List.length_append, List.length_singleton]
  exact room

theorem Grows.toWaiting {s after : Selection} {st : SignedTransaction}
    {rest : List SignedTransaction}
    (h : Grows { s with waiting := s.waiting ++ [st] } rest after) :
    Grows s (st :: rest) after := by
  obtain ⟨moved, hblock, hmoved⟩ := h.block
  exact ⟨⟨moved, hblock, hmoved.cons st⟩, h.room⟩

end Selection

theorem grows_reserveLoop (statCount : ℕ) (stats : List SignedTransaction) (index : ℕ)
    (s : Selection) : Grows s stats (reserveLoop statCount stats index s) := by
  induction stats generalizing index s with
  | nil => exact .nil s
  | cons stat rest ih =>
      unfold reserveLoop
      split_ifs with hmore
      · exact (ih _ _).toBlock hmore.2
      · exact (ih _ _).toWaiting

theorem grows_fillBlock (tpStart tpEnd : ℤ) (transactions : List SignedTransaction)
    (s : Selection) : Grows s transactions (fillBlock tpStart tpEnd transactions s) := by
  unfold fillBlock
  induction transactions generalizing s with
  | nil => exact .nil s
  | cons first rest ih =>
      rw [List.foldl_cons]
      split_ifs with hmore
      · exact (ih _).toBlock hmore.1
      · exact (ih _).toWaiting

/-- The better paid half is reserved, unless the block is full. -/
theorem reserveLoop_half (statCount : ℕ) (stats : List SignedTransaction) (index : ℕ)
    (s : Selection) :
    blockMaxTransactions ≤ (reserveLoop statCount stats index s).blockTransactions.length ∨
    ∃ moved, (reserveLoop statCount stats index s).blockTransactions =
        s.blockTransactions ++ moved ∧ moved.Sublist stats ∧
      (moved.length = stats.length ∨ statCount < 2 * (index + moved.length)) := by
  induction stats generalizing index s with
  | nil => exact .inr ⟨[], (List.append_nil _).symm, .slnil, .inl rfl⟩
  | cons stat rest ih =>
      unfold reserveLoop
      split_ifs with hmore
      · refine (ih (index + 1) _).imp_right ?_
        rintro ⟨moved, hblock, hmoved, hhalf⟩
        refine ⟨stat :: moved, hblock.trans (List.append_assoc _ _ _), hmoved.cons_cons stat, ?_⟩
        rw [List.length_cons, List.length_cons]
        omega
      · rw [not_and_or, not_lt, not_lt] at hmore
        rcases hmore with hhalf | hfull
        · refine (ih index _).imp_right ?_
          rintro ⟨moved, hblock, hmoved, _⟩
          exact ⟨moved, hblock, hmoved.cons stat, .inr (by omega)⟩
        · obtain ⟨moved, hblock, _⟩ := (grows_reserveLoop statCount rest index
            { s with waiting := s.waiting ++ [stat] }).block
          left
          rw [hblock, List.length_append]
          exact hfull.trans (Nat.le_add_right _ _)

theorem grows_reserveStatistics {statistics : List SignedTransaction} {s after : Selection}
    (h : reserveStatistics statistics s = .ok after) :
    (∃ moved, after.blockTransactions = s.blockTransactions ++ moved) ∧
      (s.blockTransactions.length ≤ blockMaxTransactions →
        after.blockTransactions.length ≤ blockMaxTransactions) := by
  obtain ⟨sorted, _, h⟩ := bind_ok_iff.mp h
  cases pure_ok_iff.mp h
  obtain ⟨⟨moved, hblock, _⟩, hroom⟩ := grows_reserveLoop sorted.length sorted 0 s
  exact ⟨⟨moved, hblock⟩, hroom⟩

theorem reserveStatistics_half {statistics : List SignedTransaction} {s after : Selection}
    {p : SignedTransaction → Bool} (all : ∀ st ∈ statistics, p st = true)
    (h : reserveStatistics statistics s = .ok after) :
    blockMaxTransactions ≤ after.blockTransactions.length ∨
      statistics.length + 2 * s.blockTransactions.countP p ≤
        2 * after.blockTransactions.countP p := by
  obtain ⟨sorted, hsorted, h⟩ := bind_ok_iff.mp h
  cases pure_ok_iff.mp h
  have hperm := sortByAmount_perm hsorted
  refine (reserveLoop_half sorted.length sorted 0 s).imp_right ?_
  rintro ⟨moved, hblock, hmoved, hhalf⟩
  have hcount : moved.countP p = moved.length :=
    List.countP_eq_length.mpr fun st hst => all st (hperm.mem_iff.mp (hmoved.subset hst))
  rw [hblock, List.countP_append, hcount, ← hperm.length_eq]
  omega

def ofChannel (l : Ledger) (header : BlockHeader) (st : SignedTransaction) : Bool :=
  lastRole l header st = some .channel

def ofOther (l : Ledger) (header : BlockHeader) (st : SignedTransaction) : Bool :=
  (lastRole l header st).any (· ≠ .channel)

/-- What a selection makes of the pool that was taken back. -/
structure SelectsFrom (l : Ledger) (header : BlockHeader) (reverted : List SignedTransaction)
    (merges : List (List SignedTransaction × SignedTransaction)) (s : Selection) : Prop where
  parts : (reverted ++ merges.map Prod.snd).Perm (s.all ++ merges.flatMap Prod.fst)
  merged : ∀ p ∈ merges, mergeCopies l p.1 = .ok (some p.2) ∧
    ∀ copy ∈ p.1, copy.isComplete = false
  length : s.blockTransactions.length ≤ blockMaxTransactions
  before : ∀ st ∈ s.blockTransactions, st.transactionDetails.creation < header.timeSigned
  channels : s.blockTransactions.length < blockMaxTransactions →
    (early header reverted).countP (ofChannel l header) ≤
      2 * s.blockTransactions.countP (ofChannel l header)
  others : s.blockTransactions.length < blockMaxTransactions →
    (early header reverted).countP (ofOther l header) ≤
      2 * s.blockTransactions.countP (ofOther l header)

section
variable [Externals]

theorem selectsFrom_selectTransactions {config : Config} {l : Ledger} {header : BlockHeader}
    {reverted : List SignedTransaction} {s : Selection}
    (h : selectTransactions config l header reverted = .ok s) :
    ∃ merges, SelectsFrom l header reverted merges s := by
  obtain ⟨channels, reserved, merged, unmerged, sorted, hchannels, hstorages, hmerged, hsorted,
    rfl⟩ := selectTransactions_stages h
  obtain ⟨merges, rfl, hmerges, hgroups⟩ := mergeGroups_parts hmerged
  have hincomplete := (groupBy_perm _ _).symm.trans hgroups
  have hwaiting := List.filter_append_perm SignedTransaction.isComplete reserved.waiting
  have hreserved := ((sorts_reserveStatistics hchannels).trans
    (sorts_reserveStatistics hstorages)).all.trans (perm_byRole _ _)
  have hfilled := sorts_fillBlock (header.timeSigned - blockMineDelay - blockMineDelay)
    (header.timeSigned - blockMineDelay) sorted
    ⟨reserved.blockTransactions, late header reverted ++ unmerged⟩
  have hgrown := grows_fillBlock (header.timeSigned - blockMineDelay - blockMineDelay)
    (header.timeSigned - blockMineDelay) sorted
    ⟨reserved.blockTransactions, late header reverted ++ unmerged⟩
  generalize hs : fillBlock (header.timeSigned - blockMineDelay - blockMineDelay)
    (header.timeSigned - blockMineDelay) sorted
    ⟨reserved.blockTransactions, late header reverted ++ unmerged⟩ = s at hfilled hgrown
  have hcopies : ∀ p ∈ merges, ∀ copy ∈ p.1, copy ∈ early header reverted ∧
      copy.isComplete = false := by
    intro p hp copy hcopy
    obtain ⟨hmem, hpart⟩ := List.mem_filter.mp (mem_groupBy (hmerges p hp).1 copy hcopy)
    refine ⟨hreserved.mem_iff.mp (List.mem_append_right _ hmem), ?_⟩
    simpa using hpart
  have hearly : ∀ st ∈ early header reverted,
      st.transactionDetails.creation < header.timeSigned := by
    intro st hst
    exact of_decide_eq_true (List.mem_filter.mp hst).2
  obtain ⟨first, hfirst⟩ := (grows_reserveStatistics hchannels).1
  obtain ⟨second, hsecond⟩ := (grows_reserveStatistics hstorages).1
  obtain ⟨third, hthird, _⟩ := hgrown.block
  have hfirst : channels.blockTransactions = first := hfirst
  have hthird : s.blockTransactions = reserved.blockTransactions ++ third := hthird
  refine ⟨merges, ?_, ?_, ?_, ?_, ?_, ?_⟩
  · rw [List.perm_iff_count]
    intro st
    have hall := hfilled.all.count_eq st
    have htaken := hreserved.count_eq st
    have hsplit := (early_append_late header reverted).count_eq st
    have hfilter := hwaiting.count_eq st
    have hpart := hincomplete.count_eq st
    have hcandidates := hsorted.count_eq st
    simp only [Selection.all, List.count_append] at hall htaken hsplit hfilter hpart
    simp only [Selection.all, List.count_append] at hcandidates ⊢
    omega
  · exact fun p hp => ⟨(hmerges p hp).2, fun copy hcopy => (hcopies p hp copy hcopy).2⟩
  · exact hgrown.room ((grows_reserveStatistics hstorages).2
      ((grows_reserveStatistics hchannels).2 (Nat.zero_le _)))
  · intro st hst
    rcases hfilled.block st hst with hst | hst
    · exact hearly st (hreserved.mem_iff.mp (List.mem_append_left _ hst))
    · rcases List.mem_append.mp (hsorted.mem_iff.mp hst) with hst | hst
      · exact hearly st
          (hreserved.mem_iff.mp (List.mem_append_right _ (List.mem_of_mem_filter hst)))
      · obtain ⟨p, hp, rfl⟩ := List.mem_map.mp hst
        have hdocuments : ∀ copy ∈ p.1, copy.transactionDetails.action.document ≠ none := by
          intro copy hcopy hnone
          cases (isComplete_of_document hnone).symm.trans (hcopies p hp copy hcopy).2
        obtain ⟨_, copy, hcopy, hdetails⟩ := mergeCopies_spec hdocuments (hmerges p hp).2
        rw [hdetails]
        exact hearly copy (hcopies p hp copy hcopy).1
  · intro hroom
    rw [hthird, hsecond, List.length_append, List.length_append] at hroom
    have hhalf := reserveStatistics_half (p := ofChannel l header)
      (fun st hst => (List.mem_filter.mp hst).2) hchannels
    have hcount : (early header reverted).countP (ofChannel l header) = _ :=
      List.countP_eq_length_filter
    rw [hthird, hsecond, List.countP_append, List.countP_append, hcount]
    rcases hhalf with hfull | hhalf
    · omega
    · exact le_trans (le_trans (Nat.le_add_right _ _) hhalf) (by omega)
  · intro hroom
    rw [hthird, List.length_append] at hroom
    have hhalf := reserveStatistics_half (p := ofOther l header)
      (fun st hst => (List.mem_filter.mp hst).2) hstorages
    have hcount : (early header reverted).countP (ofOther l header) = _ :=
      List.countP_eq_length_filter
    rw [hthird, List.countP_append, hcount]
    rcases hhalf with hfull | hhalf
    · omega
    · exact le_trans (le_trans (Nat.le_add_right _ _) hhalf) (by omega)

namespace NodeInternals
open Ledger

/-- A transaction that the block cannot have: it is on the chain already, or it cannot be applied
in its turn. -/
def RefusesInBlock (st : SignedTransaction) (node : NodeInternals) : Prop :=
  TransactionCache.addChain st node.transactionCache = none ∨
    ∃ cache after, TransactionCache.addChain st node.transactionCache = some cache ∧
      ({ node with transactionCache := cache } : NodeInternals).applyTransaction node.ctx.own st =
        .ok (false, after)

def RefusesInPool (st : SignedTransaction) (node : NodeInternals) : Prop :=
  ∃ after, node.applyTransaction "" st = .ok (false, after)

theorem mineTransaction_published {st : SignedTransaction} {a b : NodeInternals × Selection}
    (h : mineTransaction st a = .ok b) (action : Action)
    (published : a.1.ledger.documents.published action = true) :
    b.1.ledger.documents.published action = true := by
  rcases a with ⟨node, s⟩
  rcases b with ⟨after, t⟩
  rcases mineTransaction_cases h with ⟨_, rfl, _⟩ | ⟨cache, _, h⟩
  · exact published
  · rcases h with ⟨mid, happly, rfl, _⟩ | ⟨mid, happly, rfl, _⟩
    · exact (published_applyTransaction (applyTransaction_spec happly).1).1 action published
    · exact (published_applyTransaction (applyTransaction_spec happly).1).1 action published

/-- What is put into the block one after the other, and published with it, and what waits. -/
structure Mines (transactions : List SignedTransaction) (a b : NodeInternals × Selection)
    (mined refused : List SignedTransaction) : Prop where
  block : b.2.blockTransactions = a.2.blockTransactions ++ mined
  waiting : b.2.waiting = a.2.waiting ++ refused
  sublist : mined.Sublist transactions
  perm : (mined ++ refused).Perm transactions
  refused : ∀ st ∈ refused, ∃ turn, RunComesTo mineTransaction transactions a st turn ∧
    RefusesInBlock st turn.1
  published : ∀ st ∈ mined, st.Named → st.transactionDetails.action.document ≠ none →
    b.1.ledger.documents.published st.transactionDetails.action = true

theorem mines_mineAll {transactions : List SignedTransaction} {a b : NodeInternals × Selection}
    (h : runAll mineTransaction transactions a = .ok b) :
    ∃ mined refused, Mines transactions a b mined refused := by
  induction transactions generalizing a with
  | nil =>
      cases h
      exact ⟨[], [], (List.append_nil _).symm, (List.append_nil _).symm, .slnil, .refl _,
        fun _ hst => (nomatch hst), fun _ hst => nomatch hst⟩
  | cons st rest ih =>
      obtain ⟨mid, first, h⟩ := runAll_cons_ok_iff.mp h
      obtain ⟨mined, refused, mines⟩ := ih h
      have hlater : ∀ other ∈ refused, ∃ turn,
          RunComesTo mineTransaction (st :: rest) a other turn ∧ RefusesInBlock other turn.1 := by
        intro other hother
        obtain ⟨turn, hturn, hrefuses⟩ := mines.refused other hother
        exact ⟨turn, hturn.cons first, hrefuses⟩
      have hwait (hs : mid.2 = { a.2 with waiting := a.2.waiting ++ [st] })
          (hrefuses : RefusesInBlock st a.1) : Mines (st :: rest) a b mined (st :: refused) := by
        have hblock := mines.block
        have hwaiting := mines.waiting
        rw [hs] at hblock hwaiting
        exact ⟨hblock, hwaiting.trans (List.append_assoc _ _ _), mines.sublist.cons st,
          List.perm_middle.trans (mines.perm.cons st),
          List.forall_mem_cons.mpr ⟨⟨a, runComesTo_head _ _ _ _, hrefuses⟩, hlater⟩,
          mines.published⟩
      rcases a with ⟨node, s⟩
      rcases mid with ⟨next, t⟩
      rcases mineTransaction_cases first with ⟨hadd, _, hs⟩ | ⟨cache, hadd, hcases⟩
      · exact ⟨mined, st :: refused, hwait hs (.inl hadd)⟩
      rcases hcases with ⟨_, happly, hnext, hs⟩ | ⟨_, happly, _, hs⟩
      · have hblock := mines.block
        have hwaiting := mines.waiting
        rw [hs] at hblock hwaiting
        refine ⟨st :: mined, refused, hblock.trans (List.append_assoc _ _ _), hwaiting,
          mines.sublist.cons_cons st, mines.perm.cons st, hlater,
          List.forall_mem_cons.mpr ⟨fun named hdocument => ?_, mines.published⟩⟩
        -- what is published with the transaction stays so
        obtain ⟨⟨uri, authors⟩, hdocument⟩ := Option.ne_none_iff_exists'.mp hdocument
        have hledger := (applyTransaction_spec happly).1
        have hnew := (published_applyTransaction hledger).2.1 rfl uri authors hdocument
          (named uri authors hdocument)
        rw [← hnext] at hnew
        exact runAll_invariant
          (I := fun t : NodeInternals × Selection => t.1.ledger.documents.published
            st.transactionDetails.action = true)
          (fun _ _ _ _ hs step => mineTransaction_published step _ hs) hnew h
      · exact ⟨mined, st :: refused, hwait hs (.inr ⟨cache, _, hadd, happly⟩)⟩

theorem repoolWaiting_published {st : SignedTransaction} {node after : NodeInternals}
    (h : repoolWaiting st node = .ok after) (action : Action)
    (published : node.ledger.documents.published action = true) :
    after.ledger.documents.published action = true := by
  obtain ⟨complete, _, h⟩ := bind_ok_iff.mp h
  rcases repool_cases h with ⟨mid, happly, rfl⟩ | ⟨_, mid, happly, rfl⟩ | ⟨_, _, rfl⟩
  · exact (published_applyTransaction (applyTransaction_spec happly).1).1 action published
  · exact (published_applyTransaction (applyTransaction_spec happly).1).1 action published
  · exact published

/-- What is kept in the pool, none of it published before, and what is dropped. -/
structure Repools (transactions : List SignedTransaction) (a b : NodeInternals)
    (kept dropped : List SignedTransaction) : Prop where
  pool : b.transactionPool = a.transactionPool ++ kept
  perm : (kept ++ dropped).Perm transactions
  dropped : ∀ st ∈ dropped, ∃ turn, RunComesTo repoolWaiting transactions a st turn ∧
    RefusesInPool st turn
  unpublished : ∀ st ∈ kept,
    a.ledger.documents.published st.transactionDetails.action ≠ true

theorem repools_repoolAll {transactions : List SignedTransaction} {a b : NodeInternals}
    (h : runAll repoolWaiting transactions a = .ok b) :
    ∃ kept dropped, Repools transactions a b kept dropped := by
  induction transactions generalizing a with
  | nil =>
      cases h
      exact ⟨[], [], (List.append_nil _).symm, .refl _, fun _ hst => (nomatch hst),
        fun _ hst => nomatch hst⟩
  | cons st rest ih =>
      obtain ⟨mid, first, h⟩ := runAll_cons_ok_iff.mp h
      obtain ⟨kept, dropped, repools⟩ := ih h
      have hpool := repools.pool
      have hlater : ∀ other ∈ dropped, ∃ turn,
          RunComesTo repoolWaiting (st :: rest) a other turn ∧ RefusesInPool other turn := by
        intro other hother
        obtain ⟨turn, hturn, hrefuses⟩ := repools.dropped other hother
        exact ⟨turn, hturn.cons first, hrefuses⟩
      have hbefore : ∀ other ∈ kept,
          a.ledger.documents.published other.transactionDetails.action ≠ true :=
        fun other hother hpublished =>
          repools.unpublished other hother (repoolWaiting_published first _ hpublished)
      have hkeep (hmid : mid.transactionPool = a.transactionPool ++ [st])
          (hnew : a.ledger.documents.published st.transactionDetails.action ≠ true) :
          Repools (st :: rest) a b (st :: kept) dropped := by
        rw [hmid] at hpool
        exact ⟨hpool.trans (List.append_assoc _ _ _), repools.perm.cons st, hlater,
          List.forall_mem_cons.mpr ⟨hnew, hbefore⟩⟩
      obtain ⟨complete, _, first⟩ := bind_ok_iff.mp first
      rcases repool_cases first with ⟨_, happly, rfl⟩ | ⟨_, _, happly, rfl⟩ | ⟨_, hcan, rfl⟩
      · obtain ⟨_, ⟨_, hsame, _⟩, _⟩ := applyTransaction_spec happly
        rw [hsame] at hpool
        exact ⟨kept, st :: dropped, hpool, List.perm_middle.trans (repools.perm.cons st),
          List.forall_mem_cons.mpr ⟨⟨a, runComesTo_head _ _ _ _, _, happly⟩, hlater⟩, hbefore⟩
      · obtain ⟨hledger, ⟨_, hsame, _⟩, _⟩ := applyTransaction_spec happly
        refine ⟨st :: kept, dropped, hkeep (congrArg (· ++ [st]) hsame) fun hpublished => ?_⟩
        cases (published_applyTransaction hledger).2.2 hpublished
      · refine ⟨st :: kept, dropped, hkeep rfl fun hpublished => ?_⟩
        cases canApply_of_published hpublished hcan

def unexpired (header : BlockHeader) (pool : List SignedTransaction) : List SignedTransaction :=
  pool.filter fun st => header.timeSigned ≤ st.transactionDetails.expiry

/-- What becomes of the pool apart from the block and the new pool. -/
structure MineOutcome where
  /-- Copies, with what they were merged into. -/
  merges : List (List SignedTransaction × SignedTransaction)
  /-- What was selected for the block and had to wait. -/
  refused : List SignedTransaction
  dropped : List SignedTransaction

/-- What the validation and the cache see to: documents have a uri, and the other transactions are
in the pool once. -/
structure PoolKept (pool : List SignedTransaction) : Prop where
  named : ∀ st ∈ pool, st.Named
  once : ∀ st : SignedTransaction, st.transactionDetails.action.document = none →
    pool.count st ≤ 1

/-- Every transaction of the pool that has not expired, and every merged one, is in the block, in
the new pool, dropped or merged, in one of them only. What is dropped could not be applied when
the loop that fills the pool again came to it. -/
structure PartitionsPool {node after : NodeInternals} (m : Mining node after) (o : MineOutcome) :
    Prop where
  parts : (unexpired m.header node.transactionPool ++ o.merges.map Prod.snd).Perm
    (m.filled.blockTransactions ++ after.transactionPool ++ o.dropped ++
      o.merges.flatMap Prod.fst)
  merged : ∀ p ∈ o.merges, mergeCopies m.reverted.ledger p.1 = .ok (some p.2) ∧
    ∀ copy ∈ p.1, copy.isComplete = false
  dropped : ∀ st ∈ o.dropped, ∃ turn, m.ComesBackTo st turn ∧ RefusesInPool st turn
  apart : PoolKept node.transactionPool →
    ∀ st ∈ m.filled.blockTransactions, st ∉ after.transactionPool

/-- What the block holds, and when it holds enough reports. What was selected and is not in it
could not be applied when the loop that fills the block came to it. -/
structure FillsBlock {node after : NodeInternals} (m : Mining node after) (o : MineOutcome) :
    Prop where
  length : m.filled.blockTransactions.length ≤ blockMaxTransactions
  sorted : m.filled.blockTransactions.Pairwise fun a b =>
    a.transactionDetails.creation ≤ b.transactionDetails.creation
  before : ∀ st ∈ m.filled.blockTransactions,
    st.transactionDetails.creation < m.header.timeSigned
  refused : ∀ st ∈ o.refused, st.transactionDetails.creation < m.header.timeSigned ∧
    ∃ turn, m.ComesTo st turn ∧ RefusesInBlock st turn.1
  channels : (m.filled.blockTransactions ++ o.refused).length < blockMaxTransactions →
    (early m.header (unexpired m.header node.transactionPool)).countP
        (ofChannel m.reverted.ledger m.header) ≤
      2 * (m.filled.blockTransactions ++ o.refused).countP (ofChannel m.reverted.ledger m.header)
  others : (m.filled.blockTransactions ++ o.refused).length < blockMaxTransactions →
    (early m.header (unexpired m.header node.transactionPool)).countP
        (ofOther m.reverted.ledger m.header) ≤
      2 * (m.filled.blockTransactions ++ o.refused).countP (ofOther m.reverted.ledger m.header)
  accepted : (m.filled.blockTransactions ++ o.refused).length < blockMaxTransactions →
    (∀ st ∈ o.refused ++ late m.header (unexpired m.header node.transactionPool),
      lastRole m.reverted.ledger m.header st = none) →
    checkServiceStatistics m.signedBlock.blockDetails (unexpired m.header node.transactionPool) []
      m.reverted.ledger = false

omit [Externals] in
theorem checkServiceStatistics_eq_false_iff {block : Block} {pool : List SignedTransaction}
    {l : Ledger} : checkServiceStatistics block pool [] l = false ↔
      pool.countP (ofChannel l block.header) ≤
          2 * block.signedTransactions.countP (ofChannel l block.header) ∧
        pool.countP (ofOther l block.header) ≤
          2 * block.signedTransactions.countP (ofOther l block.header) := by
  have hroles (transactions : List SignedTransaction) : reportedRoles l
      (block.header.timeSigned - 2 * blockMineDelay) (block.header.timeSigned - blockMineDelay)
      transactions = transactions.filterMap (lastRole l block.header) := by
    rw [reportedRoles, lastRole]
    congr 2
    omega
  have hchannels (transactions : List SignedTransaction) :
      (transactions.filterMap (lastRole l block.header)).count .channel =
        transactions.countP (ofChannel l block.header) := by
    rw [List.count, List.countP_filterMap]
    refine List.countP_congr fun st _ => ?_
    unfold ofChannel
    cases lastRole l block.header st <;> simp
  have hothers (transactions : List SignedTransaction) :
      (transactions.filterMap (lastRole l block.header)).countP (· ≠ .channel) =
        transactions.countP (ofOther l block.header) := by
    rw [List.countP_filterMap]
    refine List.countP_congr fun st _ => ?_
    unfold ofOther
    cases lastRole l block.header st <;> simp
  unfold checkServiceStatistics
  simp only [hroles, hchannels, hothers, List.append_nil, Bool.or_eq_false_iff,
    decide_eq_false_iff_not, not_lt]

theorem mineAll_pool {transactions : List SignedTransaction} {a b : NodeInternals × Selection}
    (h : runAll mineTransaction transactions a = .ok b) :
    b.1.transactionPool = a.1.transactionPool := by
  refine runAll_invariant
    (I := fun t : NodeInternals × Selection => t.1.transactionPool = a.1.transactionPool) ?_ rfl h
  rintro st _ ⟨node, s⟩ ⟨after, t⟩ hsame step
  rcases mineTransaction_cases step with ⟨_, rfl, _⟩ | ⟨cache, _, step⟩
  · exact hsame
  · rcases step with ⟨mid, happly, rfl, _⟩ | ⟨mid, happly, rfl, _⟩
    · exact (applyTransaction_spec happly).2.1.2.1.trans hsame
    · exact (applyTransaction_spec happly).2.1.2.1.trans hsame

omit [Externals] in
theorem sortByCreation_ordered (transactions : List SignedTransaction) :
    (sortByCreation transactions).Pairwise fun a b =>
      a.transactionDetails.creation ≤ b.transactionDetails.creation := by
  have : Std.Total fun a b : SignedTransaction =>
      a.transactionDetails.creation ≤ b.transactionDetails.creation := ⟨fun _ _ => le_total _ _⟩
  have : IsTrans SignedTransaction fun a b =>
      a.transactionDetails.creation ≤ b.transactionDetails.creation := ⟨fun _ _ _ => le_trans⟩
  exact List.pairwise_insertionSort _ transactions

omit [Externals] in
theorem document_of_merged {l : Ledger} {copies : List SignedTransaction}
    {merged : SignedTransaction} (part : ∀ copy ∈ copies, copy.isComplete = false)
    (h : mergeCopies l copies = .ok (some merged)) :
    merged.transactionDetails.action.document ≠ none := by
  have hdocuments : ∀ copy ∈ copies, copy.transactionDetails.action.document ≠ none := by
    intro copy hcopy hnone
    cases (isComplete_of_document hnone).symm.trans (part copy hcopy)
  obtain ⟨_, copy, hcopy, hdetails⟩ := mergeCopies_spec hdocuments h
  rw [hdetails]
  exact hdocuments copy hcopy

omit [Externals] in
theorem ofChannel_eq_false {l : Ledger} {header : BlockHeader} (st : SignedTransaction)
    (h : lastRole l header st = none) : ofChannel l header st = false := by
  simp [ofChannel, h]

omit [Externals] in
theorem ofOther_eq_false {l : Ledger} {header : BlockHeader} (st : SignedTransaction)
    (h : lastRole l header st = none) : ofOther l header st = false := by
  simp [ofOther, h]

omit [Externals] in
theorem countP_enough {l : Ledger} {header : BlockHeader} {p : SignedTransaction → Bool}
    (counts : ∀ st, lastRole l header st = none → p st = false)
    {pool block refused : List SignedTransaction}
    (others : (∀ st ∈ refused, lastRole l header st = none) ∧
      ∀ st ∈ late header pool, lastRole l header st = none)
    (half : (early header pool).countP p ≤ 2 * (block ++ refused).countP p) :
    pool.countP p ≤ 2 * block.countP p := by
  have hzero {transactions : List SignedTransaction}
      (hall : ∀ st ∈ transactions, lastRole l header st = none) : transactions.countP p = 0 :=
    List.countP_eq_zero.mpr fun st hst => by rw [counts st (hall st hst)]; exact Bool.false_ne_true
  rw [← (early_append_late header pool).countP_eq, List.countP_append, hzero others.2]
  rw [List.countP_append, hzero others.1] at half
  exact half

omit [Externals] in
/-- Of what ends up in the block, nothing that was there once and was not made by merging is also
kept. -/
theorem notMem_kept {unexpired merged block kept dropped copies : List SignedTransaction}
    (parts : (unexpired ++ merged).Perm (block ++ kept ++ dropped ++ copies))
    {st : SignedTransaction} (once : unexpired.count st ≤ 1) (own : st ∉ merged)
    (hblock : st ∈ block) : st ∉ kept := by
  intro hkept
  have hcount := parts.count_eq st
  have hmerged : merged.count st = 0 := List.count_eq_zero_of_not_mem own
  have hfirst : 0 < block.count st := List.count_pos_iff.mpr hblock
  have hsecond : 0 < kept.count st := List.count_pos_iff.mpr hkept
  simp only [List.count_append] at hcount
  omega

end NodeInternals

end

section Examples
open NodeInternals

def payChannel : SignedTransaction :=
  ⟨⟨200, 1000, 0, .transfer ⟨"alice", "channel", ⟨10, 0⟩, ""⟩⟩, [⟨"alice", ""⟩]⟩

def stakeReport : SignedTransaction :=
  ⟨⟨100, 1000, 0, .serviceStatistics ⟨"channel", -600, 0, [⟨"file", "unit", [⟨1, "storage"⟩]⟩]⟩⟩,
    [⟨"channel", ""⟩]⟩

noncomputable local instance reportingExternals : Externals :=
  { readingExternals with signedTransactionToString := nameOf [payChannel, stakeReport] }

def reportingNode : Context :=
  { exampleNode "own" .blockchain with
    addresses := [⟨"channel", "first", 0⟩, ⟨"storage", "second", 0⟩] }

/-- The channel and the storage have their roles, and a unit of one file; then the channel has
given a part of its stake away. -/
noncomputable def stakeGivenAway : Checked Ledger := do
  let l ← increaseRewards reportingNode [⟨"channel", ⟨100000, 0⟩, .initial⟩,
    ⟨"storage", ⟨100000, 0⟩, .initial⟩, ⟨"alice", ⟨5, 0⟩, .initial⟩] default
  runAll (fun st l => do
      let (_, l) ← applyTransaction reportingNode "own" st l
      pure l)
    [byChannel 0 (.role ⟨"channel", .channel⟩),
      ⟨⟨0, 0, 0, .role ⟨"storage", .storage⟩⟩, [⟨"storage", ""⟩]⟩,
      byChannel 0 (.file ⟨"file", ["channel"]⟩),
      byChannel 0 (.contentUnit ⟨"unit", 0, ["channel"], "channel", ["file"]⟩),
      byChannel 0 (.transfer ⟨"channel", "alice", ⟨5, 0⟩, ""⟩)] l

theorem stakeGivenAway_isOk : stakeGivenAway.isOk = true := by decide +kernel

noncomputable def reportStart : NodeInternals :=
  { ctx := reportingNode
    ledger := okValue _ stakeGivenAway_isOk
    actionLog := ActionLog.loaded [] false
    transactionPool := []
    transactionCache := ∅
    storageController := ∅
    freezeBeforeBlock := 1000 }

noncomputable def reportPooled : Checked NodeInternals := do
  let (_, node) ← reportStart.actionProcessOnChain 500 payChannel
  let (_, node) ← node.actionProcessOnChain 500 stakeReport
  pure node

theorem reportPooled_isOk : reportPooled.isOk = true := by decide +kernel

noncomputable def reportNode : NodeInternals := okValue _ reportPooled_isOk

theorem reportNode_pool : reportNode.transactionPool = [payChannel, stakeReport] := by
  decide +kernel

theorem reportMined_isOk : reportNode.mineBlock.isOk = true := by decide +kernel

noncomputable def reportMined : NodeInternals := okValue _ reportMined_isOk

theorem reportNode_kept : PoolKept reportNode.transactionPool := by
  rw [reportNode_pool]
  refine ⟨fun st hst uri authors hdocument => ?_, fun st _ => ?_⟩
  · rcases List.mem_pair.mp hst with rfl | rfl
    · cases hdocument
    · cases hdocument
  · exact List.nodup_iff_count_le_one.mp (by decide) st

theorem reportReverted_isOk : (reportNode.revertPool 600).isOk = true := by decide +kernel

noncomputable def reportReverted : List SignedTransaction × NodeInternals :=
  okValue _ reportReverted_isOk

end Examples

end Publiq
