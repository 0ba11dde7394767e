import Publiq.NodeLedger

/-! The authorities that a node comes to hold. While the cache of transactions keeps the entries
of the pool, the blocks and the pool are reverted from the last transaction back and the store is
that of a run of updates. Once an entry is forgotten `revert_pool` skips its transaction, and the
account of an update may be left to nobody. -/
namespace Publiq
open Message Checked

section
variable {ctx : Context} {st : SignedTransaction} {layer : StateLayer} {l after : Ledger}

theorem onState_authorities {f : State → Checked State} (h : l.onState f = .ok after) :
    after.authorityManager = l.authorityManager := by
  obtain ⟨_, _, h⟩ := bind_ok_iff.mp h
  cases pure_ok_iff.mp h
  rfl

theorem increase_authorities {key : String} {amount : Message.Coin}
    (h : l.increase ctx key amount layer = .ok after) :
    after.authorityManager = l.authorityManager := by
  obtain ⟨_, _, h⟩ := bind_ok_iff.mp h
  cases pure_ok_iff.mp h
  rfl

theorem decrease_authorities {key : String} {amount : Message.Coin}
    (h : l.decrease ctx key amount layer = .ok after) :
    after.authorityManager = l.authorityManager := by
  obtain ⟨_, _, h⟩ := bind_ok_iff.mp h
  exact onState_authorities h

theorem feeApply_authorities {receiver : String} (h : feeApply ctx st receiver l = .ok after) :
    after.authorityManager = l.authorityManager := by
  unfold feeApply at h
  split_ifs at h
  · cases pure_ok_iff.mp h
    rfl
  · obtain ⟨payer, _, h⟩ := bind_ok_iff.mp h
    obtain ⟨mid, hmid, h⟩ := bind_ok_iff.mp h
    rw [decrease_authorities h, increase_authorities hmid]

theorem increaseRewards_authorities {rewards : List Reward}
    (h : increaseRewards ctx rewards l = .ok after) :
    after.authorityManager = l.authorityManager :=
  runAll_invariant (fun _ _ _ _ hs step => (increase_authorities step).trans hs) rfl h

/-- Only an update writes the authorities. -/
theorem actionApply_authorities [Externals] (h : actionApply ctx st layer l = .ok after) :
    (∃ update, st.transactionDetails.action = .authorizationUpdate update ∧
      update.actionApply st l = .ok after) ∨ after.authorityManager = l.authorityManager := by
  obtain ⟨_, _, h⟩ := bind_ok_iff.mp h
  cases haction : st.transactionDetails.action with
  | authorizationUpdate a =>
      rw [haction] at h
      exact .inl ⟨a, rfl, h⟩
  | transfer a =>
      rw [haction] at h
      obtain ⟨_, _, h⟩ := bind_ok_iff.mp h
      obtain ⟨mid, hmid, h⟩ := bind_ok_iff.mp h
      exact .inr ((decrease_authorities h).trans (increase_authorities hmid))
  | file a =>
      rw [haction] at h
      obtain ⟨_, _, h⟩ := bind_ok_iff.mp h
      obtain ⟨_, h⟩ := require_bind_ok_iff.mp h
      cases pure_ok_iff.mp h
      exact .inr rfl
  | contentUnit a =>
      rw [haction] at h
      obtain ⟨_, _, h⟩ := bind_ok_iff.mp h
      split at h
      · cases h
      · obtain ⟨_, h⟩ := require_bind_ok_iff.mp h
        split at h
        · cases h
        · cases pure_ok_iff.mp h
          exact .inr rfl
  | content a =>
      rw [haction] at h
      exact .inr (congrArg Ledger.authorityManager (Content.apply_eq h))
  | role a =>
      rw [haction] at h
      obtain ⟨_, _, h⟩ := bind_ok_iff.mp h
      obtain ⟨_, h⟩ := require_bind_ok_iff.mp h
      obtain ⟨_, h⟩ := require_bind_ok_iff.mp h
      obtain ⟨_, _, h⟩ := bind_ok_iff.mp h
      exact .inr (onState_authorities h)
  | storageUpdate a =>
      rw [haction] at h
      obtain ⟨_, _, h⟩ := bind_ok_iff.mp h
      obtain ⟨_, h⟩ := require_bind_ok_iff.mp h
      obtain ⟨_, h⟩ := require_bind_ok_iff.mp h
      obtain ⟨_, h⟩ := require_bind_ok_iff.mp h
      cases pure_ok_iff.mp h
      exact .inr rfl
  | serviceStatistics a =>
      rw [haction] at h
      exact .inr (congrArg Ledger.authorityManager (ServiceStatistics.apply_eq h))
  | sponsorContentUnit a =>
      rw [haction] at h
      obtain ⟨_, _, h⟩ := bind_ok_iff.mp h
      obtain ⟨_, h⟩ := require_bind_ok_iff.mp h
      obtain ⟨_, _, h⟩ := bind_ok_iff.mp h
      obtain ⟨mid, hmid, h⟩ := bind_ok_iff.mp h
      obtain ⟨_, _, h⟩ := bind_ok_iff.mp h
      cases pure_ok_iff.mp h
      have hsame := onState_authorities hmid
      exact .inr hsame
  | cancelSponsorContentUnit a =>
      rw [haction] at h
      obtain ⟨_, _, h⟩ := bind_ok_iff.mp h
      obtain ⟨_, _, h⟩ := bind_ok_iff.mp h
      obtain ⟨⟨_, _⟩, _, h⟩ := bind_ok_iff.mp h
      obtain ⟨_, h⟩ := require_bind_ok_iff.mp h
      cases pure_ok_iff.mp h
      exact .inr rfl
  | unknown rtt =>
      rw [haction] at h
      cases h

end

def Upright [Externals] (l : Ledger) : Prop :=
  ∃ events applied, AuthorityRun events applied l ∧ ∀ event ∈ events, event.LastFirst

section
variable [Externals] {ctx : Context} {genesis : SignedBlock} {st : SignedTransaction}
  {layer : StateLayer} {l after base : Ledger}

theorem upright_start (h : l.authorityManager = default) : Upright l :=
  ⟨[], [], .start h, fun _ hnone => nomatch hnone⟩

theorem Upright.same (upright : Upright l) (h : after.authorityManager = l.authorityManager) :
    Upright after := by
  obtain ⟨events, applied, run, lastFirst⟩ := upright
  exact ⟨_, _, run.other h, List.forall_mem_cons.mpr ⟨trivial, lastFirst⟩⟩

omit [Externals] in
/-- What `action_apply` takes could be applied. -/
theorem canApply_of_actionApply {update : AuthorizationUpdate}
    (normal : l.authorityManager.Normal) (exceptionless : l.authorityManager.Exceptionless)
    (h : update.actionApply st l = .ok after) : update.actionCanApply st l = .ok true := by
  obtain ⟨_, hpermitted, h⟩ := bind_ok_iff.mp h
  obtain ⟨permitted, hcheck, hpermitted⟩ := bind_ok_iff.mp hpermitted
  rw [AuthorityManager.checkAuthority_eq normal] at hcheck
  cases hcheck
  obtain ⟨m, hrewrite, rfl⟩ := onAuthorities_ok_iff.mp h
  obtain ⟨r, hr, _⟩ := AuthorizationUpdate.rewrite_cases normal hrewrite
  rw [AuthorizationUpdate.actionCanApply_eq normal exceptionless, hr, require_ok_iff.mp hpermitted]
  rfl

theorem Upright.actionApply {config : Config} {complete : Bool} (upright : Upright l)
    (valid : actionValidate config st complete = .ok ())
    (h : actionApply ctx st layer l = .ok after) : Upright after := by
  rcases actionApply_authorities h with ⟨update, haction, happly⟩ | hsame
  · obtain ⟨events, applied, run, lastFirst⟩ := upright
    obtain ⟨_, _, valid⟩ := bind_ok_iff.mp valid
    rw [haction] at valid
    have can := canApply_of_actionApply run.normal.1 run.normal.2 happly
    exact ⟨_, _, run.apply valid can happly, List.forall_mem_cons.mpr ⟨trivial, lastFirst⟩⟩
  · exact upright.same hsame

theorem Upright.applyMined {config : Config} {miner : String} (upright : Upright l)
    (valid : actionValidate config st true = .ok ())
    (h : applyMined ctx miner st l = .ok after) : Upright after := by
  have h := applyTransaction_of_applyMined h
  obtain ⟨canApply, _, h⟩ := bind_ok_iff.mp h
  cases canApply with
  | false => cases pure_ok_iff.mp h
  | true =>
      obtain ⟨applied, happlied, h⟩ := bind_ok_iff.mp h
      obtain ⟨feeOk, _, h⟩ := bind_ok_iff.mp h
      cases feeOk with
      | false =>
          obtain ⟨reverted, _, h⟩ := bind_ok_iff.mp h
          cases pure_ok_iff.mp h
      | true =>
          obtain ⟨paid, hpaid, h⟩ := bind_ok_iff.mp h
          cases pure_ok_iff.mp h
          exact (upright.actionApply valid happlied).same (feeApply_authorities hpaid)

theorem Upright.replayBlock {chain after : Blockchain} {signedBlock : SignedBlock} {l' : Ledger}
    (upright : Upright l)
    (valid : ∀ st ∈ signedBlock.blockDetails.signedTransactions,
      actionValidate ctx.config st true = .ok ())
    (h : replayBlock ctx signedBlock (chain, l) = .ok (after, l')) : Upright l' := by
  obtain ⟨miner, _, h⟩ := bind_ok_iff.mp h
  obtain ⟨blockLedger, hblock, h⟩ := bind_ok_iff.mp h
  obtain ⟨_, _, h⟩ := bind_ok_iff.mp h
  cases pure_ok_iff.mp h
  obtain ⟨mid, hmid, hrewards⟩ := bind_ok_iff.mp hblock
  have hup : Upright mid :=
    runAll_invariant (fun st hst _ _ hs step => hs.applyMined (valid st hst) step) upright hmid
  obtain ⟨⟨mismatch, granted⟩, _, hrewards⟩ := bind_ok_iff.mp hrewards
  obtain ⟨_, hrewards⟩ := require_bind_ok_iff.mp hrewards
  have hsame := increaseRewards_authorities hrewards
  exact hup.same hsame

theorem BlockRun.upright {blocks : List AppliedBlock} {chain : Blockchain}
    (run : BlockRun ctx genesis blocks chain base) : Upright base := by
  induction run with
  | genesis _ hl => exact upright_start (increaseRewards_authorities hl)
  | connect _ _ _ valid hreplay ih => exact ih.replayBlock valid hreplay

theorem PoolRun.upright {pool : List SignedTransaction} (run : PoolRun ctx pool l after)
    (valid : ∀ st ∈ pool, ∃ complete, actionValidate ctx.config st complete = .ok ())
    (upright : Upright l) : Upright after := by
  induction run with
  | nil => exact upright
  | @concat pool st l mid after addresses _ happly ih =>
      rw [List.forall_mem_append, List.forall_mem_singleton] at valid
      obtain ⟨complete, hvalid⟩ := valid.2
      exact (ih valid.1 upright).actionApply hvalid happly

open NodeInternals Synchronization in
/-- In a run whose cleanups forget nothing of the pool, the authorities of a node are those of a
run of updates that reverts from the last one back: nobody is locked out of an account. -/
theorem upright_run {freezeBeforeBlock : ℕ} {node : NodeInternals}
    (premises : Premises ctx genesis)
    (start : insertGenesis ctx freezeBeforeBlock genesis = .ok node) {events : List Event}
    (orderly : StaysOrderly ctx genesis (idle node) events) :
    ∃ applied, AuthoritiesSafe applied ((idle node).run events).node.ledger := by
  obtain ⟨holds, _⟩ :=
    Synchronization.holdsReplay_run premises start (fun _ visits => visits) orderly
  obtain ⟨base, replays⟩ := holds.replays
  obtain ⟨blocks, run⟩ := replays.blocks
  have upright : Upright ((idle node).run events).node.ledger := by
    refine replays.pool.run.upright (fun st hst => ?_) run.upright
    exact ⟨_, replays.pool.valid st (List.mem_of_mem_filter hst)⟩
  obtain ⟨_, applied, run, lastFirst⟩ := upright
  obtain ⟨kept, history⟩ := run.history lastFirst
  exact ⟨applied, authoritiesSafe_of_history kept history⟩

end

section Examples
open NodeInternals Synchronization

def pooledAward : SignedTransaction :=
  ⟨⟨99900, 103500, ⟨0, 0⟩, .authorizationUpdate ⟨.store, "c", "agent", ∅⟩⟩, [⟨"c", ""⟩]⟩

def lateRejection : SignedTransaction :=
  ⟨⟨13480, 99880, ⟨0, 0⟩, .authorizationUpdate ⟨.remove, "c", "c", ∅⟩⟩, [⟨"agent", ""⟩]⟩

noncomputable local instance lockedExternals : Externals :=
  { namedExternals ([lateGenesis, aheadBlock].map SignedBlock.blockDetails)
      [pooledAward, lateRejection] with
    fromBase58 := fun text => .ok (if text = "" then [] else List.replicate 32 0) }

theorem lockedExternals_collisionless : Externals.Collisionless :=
  ⟨nameOf_injective _, nameOf_injective _⟩

theorem lockedExternals_emptyNoUri : Externals.EmptyNoUri := by
  intro bytes h
  cases h
  decide

theorem lockedStart_isOk : (insertGenesis loggingNode 1000 lateGenesis).isOk = true := by
  decide +kernel

noncomputable def lockedStart : NodeInternals := okValue _ lockedStart_isOk

/-- The node takes a block of a miner whose clock is a minute ahead, then both updates; the
cleanup forgets the later one, and the node mines. -/
noncomputable def lockedEvents : List Event :=
  let head := aheadBlock.headerEx
  [.syncResponse "b" ⟨head, head⟩, .work 99940 ["b"] [], .headers 99940 "b" [head],
    .work 99940 ["b"] [], .blocks 99940 [aheadBlock], .transaction 99940 pooledAward,
    .transaction 99940 lateRejection, .clean, .work 100600 [] []]

noncomputable def lockedNode : Synchronization := (idle lockedStart).run lockedEvents

theorem lockedNode_store : lockedNode.node.ledger.authorityManager.store["c"]? =
    some ((∅ : AccountAuthorizations).insert "c" AccountAuthorization.dummy) := by
  decide +kernel

/-- Nobody may act for the account any more. -/
theorem account_locked_out : ¬ ∀ [Externals], Externals.Collisionless → Externals.EmptyNoUri →
    ∀ (ctx : Context) (freezeBeforeBlock : ℕ) (genesis : SignedBlock) (node : NodeInternals)
      (events : List Event), insertGenesis ctx freezeBeforeBlock genesis = .ok node →
      ∀ owner, ∃ actor, ((idle node).run events).node.ledger.authorityManager.checkAuthority
        owner actor AuthorizationUpdate.rtt = .ok true := by
  intro claim
  obtain ⟨actor, hactor⟩ := claim lockedExternals_collisionless lockedExternals_emptyNoUri _ _ _ _
    lockedEvents (eq_okValue lockedStart_isOk) "c"
  have hread : lockedNode.node.ledger.authorityManager.checkAuthority "c" actor
      AuthorizationUpdate.rtt = .ok false := by
    rw [AuthorityManager.checkAuthority, AuthorityManager.getRecord, lockedNode_store]
    by_cases hactor : "c" = actor
    · simp [hactor, AccountAuthorization.dummy,
        AccountAuthorization.permits, pure, Except.pure]
    · simp [hactor, Ne.symm hactor, AccountAuthorization.dummy,
        AccountAuthorization.permits, pure, Except.pure]
  cases hread.symm.trans hactor

end Examples
end Publiq
