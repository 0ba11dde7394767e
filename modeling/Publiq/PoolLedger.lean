import Publiq.ForkReplay

/-! The pool of a node on top of its blocks. Its complete transactions are applied to the ledger in
their order, and `revert_pool` takes them back, the last one first, which leaves what the blocks
have built up. -/
namespace Publiq
open Message Checked TransactionCache

/-- The transactions of a pool put on a ledger one after the other, each with the addresses that
the node knew when it arrived. -/
inductive PoolRun [Externals] (ctx : Context) : List SignedTransaction → Ledger → Ledger → Prop
  | nil (l : Ledger) : PoolRun ctx [] l l
  | concat {pool : List SignedTransaction} {st : SignedTransaction} {l mid after : Ledger}
      (addresses : List PublicAddressInfo) : PoolRun ctx pool l mid →
      actionApply { ctx with addresses } st .pool mid = .ok after →
      PoolRun ctx (pool ++ [st]) l after

def NewSponsorships [Externals] (transactions : List SignedTransaction) (l : Ledger) : Prop :=
  (hashesIn transactions).Nodup ∧ ∀ hash ∈ hashesIn transactions, ¬ l.documents.Knows hash

/-- At the end of `revert_pool` the own balance is set to what it is. -/
theorem State.setBalance_own {own : String} {s : State} (balances : s.OwnBalance own .chain) :
    s.setBalance own own (s.getBalance own .pool) .chain = s := by
  have hown : s.nodeAccounts.get own = s.accounts.get own := balances.current rfl
  unfold setBalance getBalance
  rw [if_pos ⟨rfl, rfl⟩, ← hown, SparseMap.set_get, hown, SparseMap.set_get]

section
variable [Externals] {ctx : Context} {pool : List SignedTransaction} {st : SignedTransaction}
  {l mid after : Ledger}

theorem hashesIn_complete (transactions : List SignedTransaction) :
    hashesIn (transactions.filter SignedTransaction.isComplete) = hashesIn transactions := by
  unfold hashesIn
  rw [List.filterMap_filter]
  refine congrArg (List.map Prod.fst) (List.filterMap_congr fun st _ => ?_)
  unfold sponsorshipOf
  cases haction : st.transactionDetails.action with
  | sponsorContentUnit sponsor =>
      rw [if_pos (isComplete_of_document (by rw [haction]; rfl))]
  | _ => split_ifs <;> rfl

theorem freshSponsorship_of_unknown (unknown : ∀ hash ∈ hashesIn [st], ¬ l.documents.Knows hash) :
    FreshSponsorship st l := by
  intro sponsor haction
  have hmem : transactionHash st ∈ hashesIn [st] := by
    simp [hashesIn, sponsorshipOf, haction]
  have hnot := unknown _ hmem
  cases hknown : l.documents.hashToBlock[transactionHash st]? with
  | none => rfl
  | some number => exact absurd ⟨number, hknown⟩ hnot

theorem PoolRun.withAddresses (run : PoolRun ctx pool l after)
    (addresses : List PublicAddressInfo) : PoolRun { ctx with addresses } pool l after := by
  induction run with
  | nil l => exact .nil l
  | concat known _ h ih => exact .concat known ih h

theorem PoolRun.knows (run : PoolRun ctx pool l after) (hash : String) :
    after.documents.Knows hash ↔ l.documents.Knows hash ∨ hash ∈ hashesIn pool := by
  induction run with
  | nil l => exact (or_iff_left List.not_mem_nil).symm
  | concat addresses _ h ih =>
      rw [knows_actionApply h, ih, or_assoc, ← List.mem_append, ← hashesIn_append]

theorem NewSponsorships.init (new : NewSponsorships (pool ++ [st]) l) :
    NewSponsorships pool l := by
  obtain ⟨hnodup, hunknown⟩ := new
  rw [hashesIn_append] at hnodup hunknown
  exact ⟨hnodup.of_append_left, fun hash hmem => hunknown hash (List.mem_append_left _ hmem)⟩

/-- The last transaction of a pool is no sponsorship that is known before it. -/
theorem NewSponsorships.last (new : NewSponsorships (pool ++ [st]) l)
    (run : PoolRun ctx pool l mid) : FreshSponsorship st mid := by
  obtain ⟨hnodup, hunknown⟩ := new
  rw [hashesIn_append] at hnodup hunknown
  refine freshSponsorship_of_unknown fun hash hmem hknown => ?_
  rcases (run.knows hash).mp hknown with hknown | hpool
  · exact hunknown hash (List.mem_append_right _ hmem) hknown
  · exact List.disjoint_of_nodup_append hnodup hpool hmem

theorem PoolRun.sound (sound : LedgerSound ctx.own .pool l) (new : NewSponsorships pool l)
    (fits : l.state.supply < Coin.limit) (run : PoolRun ctx pool l after) :
    LedgerSound ctx.own .pool after ∧ after.state.supply < Coin.limit := by
  induction run with
  | nil l => exact ⟨sound, fits⟩
  | concat addresses run h ih =>
      obtain ⟨hsound, hfits⟩ := ih sound new.init fits
      have hmoved := supply_actionApply hfits h
      have hsame : LedgerSound ({ ctx with addresses } : Context).own .pool _ := hsound
      exact ⟨hsame.actionApply (new.last run) h, by omega⟩

theorem PoolRun.takenBack (empty : Externals.EmptyNoUri) {config : Config}
    (sound : LedgerSound ctx.own .pool l) (new : NewSponsorships pool l)
    (fits : l.state.supply < Coin.limit)
    (valid : ∀ st ∈ pool, actionValidate config st true = .ok ())
    (run : PoolRun ctx pool l after) :
    runAll (revertTransaction ctx "") pool.reverse after = .ok l := by
  induction run with
  | nil l => rfl
  | @concat pool st l mid after addresses run h ih =>
      rw [List.forall_mem_append, List.forall_mem_singleton] at valid
      obtain ⟨hsound, hfits⟩ := run.sound sound new.init fits
      have hfresh := new.last run
      have hsame : LedgerSound ({ ctx with addresses } : Context).own .pool mid := hsound
      obtain ⟨reverted, hreverted⟩ := actionRevert_total empty hsame valid.2 hfresh hfits h
      obtain rfl := revert_apply empty hsame valid.2 hfresh h hreverted
      -- what takes a transaction back asks for no addresses
      have hback : revertTransaction ctx "" st after = .ok reverted := hreverted
      rw [List.reverse_append, List.reverse_singleton, List.singleton_append, runAll_cons_ok_iff]
      exact ⟨reverted, hback, ih sound new.init fits valid.1⟩

end

namespace NodeInternals
variable [Externals]

/-- What `revert_pool` takes back are the complete transactions of the pool. -/
theorem revertAll_ledger {pool : List SignedTransaction} {node after : NodeInternals}
    (keeps : Keeps pool node.transactionCache)
    (h : runAll revertPooled pool.reverse node = .ok after) :
    runAll (Publiq.revertTransaction node.ctx "")
        (pool.filter SignedTransaction.isComplete).reverse node.ledger = .ok after.ledger ∧
      Keeps [] after.transactionCache := by
  induction pool using List.reverseRecOn generalizing node with
  | nil =>
      cases h
      exact ⟨rfl, keeps⟩
  | append_singleton rest st ih =>
      rw [List.reverse_append] at h
      obtain ⟨mid, first, h⟩ := runAll_cons_ok_iff.mp h
      obtain ⟨hsame, _, hcache, hledger⟩ := revertPooled_spec first
      rw [keeps.entry st (List.mem_append_right _ (List.mem_singleton.mpr rfl))] at hledger
      obtain ⟨hrest, hkeeps⟩ := ih (hcache ▸ keeps.pop) h
      rw [hsame.1] at hrest
      refine ⟨?_, hkeeps⟩
      rw [List.filter_append, List.reverse_append]
      cases hcomplete : st.isComplete with
      | true =>
          rw [hcomplete, if_pos rfl] at hledger
          rw [List.filter_cons_of_pos hcomplete]
          exact runAll_cons_ok_iff.mpr ⟨mid.ledger, hledger, hrest⟩
      | false =>
          rw [hcomplete, if_neg Bool.false_ne_true] at hledger
          rw [List.filter_cons_of_neg (by simp [hcomplete])]
          rw [hledger] at hrest
          exact hrest

/-- The pool of a node is what was put on a ledger: its sponsorships are new there, its transactions
are valid, and the cache tells which of them are complete. -/
structure PoolOn (base : Ledger) (node : NodeInternals) : Prop where
  run : PoolRun node.ctx (node.transactionPool.filter SignedTransaction.isComplete) base node.ledger
  new : NewSponsorships node.transactionPool base
  valid : ∀ st ∈ node.transactionPool, actionValidate node.ctx.config st st.isComplete = .ok ()
  keeps : Keeps node.transactionPool node.transactionCache

section
variable {node mid after : NodeInternals} {base : Ledger} {st : SignedTransaction}

theorem PoolOn.start (pool : node.transactionPool = []) (keeps : Keeps [] node.transactionCache) :
    PoolOn node.ledger node := by
  refine ⟨?_, ?_, ?_, ?_⟩
  · rw [pool]
    exact .nil _
  · rw [pool]
    exact ⟨List.nodup_nil, List.forall_mem_nil _⟩
  · rw [pool]
    exact List.forall_mem_nil _
  · rw [pool]
    exact keeps

theorem PoolOn.validComplete (on : PoolOn base node) :
    ∀ st ∈ node.transactionPool.filter SignedTransaction.isComplete,
      actionValidate node.ctx.config st true = .ok () := by
  intro st hst
  obtain ⟨hst, hcomplete⟩ := List.mem_filter.mp hst
  exact hcomplete ▸ on.valid st hst

theorem PoolOn.newComplete (on : PoolOn base node) :
    NewSponsorships (node.transactionPool.filter SignedTransaction.isComplete) base := by
  have hnew := on.new
  unfold NewSponsorships at hnew ⊢
  rw [hashesIn_complete]
  exact hnew

theorem PoolOn.knows (on : PoolOn base node) (hash : String) :
    node.ledger.documents.Knows hash ↔
      base.documents.Knows hash ∨ hash ∈ hashesIn node.transactionPool := by
  rw [on.run.knows, hashesIn_complete]

theorem PoolOn.takenBack (empty : Externals.EmptyNoUri) (on : PoolOn base node)
    (sound : LedgerSound node.ctx.own .chain base) (fits : base.state.supply < Coin.limit) :
    runAll (Publiq.revertTransaction node.ctx "")
      (node.transactionPool.filter SignedTransaction.isComplete).reverse node.ledger = .ok base :=
  on.run.takenBack empty sound.pool on.newComplete fits on.validComplete

/-- `revert_pool` leaves what the pool was put on. -/
theorem PoolOn.revertPool (empty : Externals.EmptyNoUri) (on : PoolOn base node)
    (sound : LedgerSound node.ctx.own .chain base) (fits : base.state.supply < Coin.limit)
    {expiryTime : ℤ} {unexpired : List SignedTransaction}
    (h : node.revertPool expiryTime = .ok (unexpired, after)) :
    after.ledger = base ∧ Keeps [] after.transactionCache := by
  obtain ⟨mid, hall, h⟩ := bind_ok_iff.mp h
  cases pure_ok_iff.mp h
  have hentries : Keeps node.transactionPool
      ({ node with transactionPool := [] } : NodeInternals).transactionCache := on.keeps
  obtain ⟨hledger, hkeeps⟩ := revertAll_ledger hentries hall
  have hmid : mid.ledger = base :=
    Except.ok.inj (hledger.symm.trans (on.takenBack empty sound fits))
  refine ⟨?_, hkeeps⟩
  have hown : mid.ctx.own = node.ctx.own := congrArg Context.own (revertAll_spec hall).1.1
  dsimp only
  rw [hmid, hown, State.setBalance_own sound.balances]

/-- A transaction joins the pool, applied to the ledger if it is complete. -/
theorem PoolOn.concat (on : PoolOn base node) (ctx : after.ctx = node.ctx)
    (pool : after.transactionPool = node.transactionPool ++ [st])
    (ledger : if st.isComplete then
        ∃ addresses, actionApply { node.ctx with addresses } st .pool node.ledger = .ok after.ledger
      else after.ledger = node.ledger)
    (valid : actionValidate node.ctx.config st st.isComplete = .ok ())
    (unknown : ∀ hash ∈ hashesIn [st], ¬ node.ledger.documents.Knows hash)
    (keeps : Keeps (node.transactionPool ++ [st]) after.transactionCache) : PoolOn base after := by
  refine ⟨?_, ?_, ?_, pool ▸ keeps⟩
  · rw [pool, ctx, List.filter_append]
    cases hcomplete : st.isComplete with
    | true =>
        rw [hcomplete, if_pos rfl] at ledger
        obtain ⟨addresses, happly⟩ := ledger
        rw [List.filter_cons_of_pos hcomplete]
        exact .concat addresses on.run happly
    | false =>
        rw [hcomplete, if_neg Bool.false_ne_true] at ledger
        rw [List.filter_cons_of_neg (by simp [hcomplete]), List.filter_nil, List.append_nil, ledger]
        exact on.run
  · obtain ⟨hnodup, hunknown⟩ := on.new
    have hone : (hashesIn [st]).Nodup := by
      unfold hashesIn
      rw [List.filterMap_cons]
      split
      · exact List.nodup_nil
      · exact List.nodup_singleton _
    rw [pool, NewSponsorships, hashesIn_append]
    refine ⟨hnodup.append hone fun hash hpool hmem => ?_, List.forall_mem_append.mpr
      ⟨hunknown, fun hash hmem hknown => ?_⟩⟩
    · exact unknown hash hmem ((on.knows hash).mpr (.inr hpool))
    · exact unknown hash hmem ((on.knows hash).mpr (.inl hknown))
  · rw [pool, ctx]
    exact List.forall_mem_append.mpr ⟨on.valid, List.forall_mem_singleton.mpr valid⟩

theorem PoolOn.refuse (empty : Externals.EmptyNoUri) (on : PoolOn base node)
    (sound : LedgerSound node.ctx.own .chain base) (fits : base.state.supply < Coin.limit)
    (valid : actionValidate node.ctx.config st st.isComplete = .ok ())
    (unknown : ∀ hash ∈ hashesIn [st], ¬ node.ledger.documents.Knows hash)
    (h : node.applyTransaction "" st = .ok (false, after)) : PoolOn base after := by
  obtain ⟨hledger, ⟨hsame, hpool, hcache⟩, _⟩ := applyTransaction_spec h
  have hsound := (on.run.sound sound.pool on.newComplete fits).1
  have hsame' := applyTransaction_false empty hsound valid (freshSponsorship_of_unknown unknown)
    hledger
  refine ⟨?_, ?_, ?_, ?_⟩
  · rw [hsame.1, hpool, hsame']
    exact on.run
  · rw [hpool]
    exact on.new
  · rw [hsame.1, hpool]
    exact on.valid
  · rw [hpool, hcache]
    exact on.keeps

theorem actionApply_of_pooled (h : node.applyTransaction "" st = .ok (true, mid)) :
    actionApply node.ctx st .pool node.ledger = .ok mid.ledger := by
  obtain ⟨found, hfound, _, hfee⟩ := paid_of_applied (applyTransaction_spec h).1
  unfold feeApply at hfee
  rw [if_pos rfl] at hfee
  cases pure_ok_iff.mp hfee
  exact hfound

end

end NodeInternals
end Publiq
