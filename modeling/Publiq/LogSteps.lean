import Publiq.LogStanding
import Publiq.NodeSteps

/-! What each step of a node does to its action log. -/
namespace Publiq
open Message Checked

namespace NodeInternals
variable [Externals]

theorem revertTransaction_log {key : String} {st : SignedTransaction}
    {node after : NodeInternals} (h : node.revertTransaction key st = .ok after) :
    after.actionLog = node.actionLog := by
  obtain ⟨l, _, h⟩ := bind_ok_iff.mp h
  cases pure_ok_iff.mp h
  rfl

theorem revertPooled_log {st : SignedTransaction} {node after : NodeInternals}
    (h : node.revertPooled st = .ok after) :
    if (TransactionCache.erasePool st node.transactionCache).1 then
      node.actionLog.revert = .ok after.actionLog
    else after.actionLog = node.actionLog := by
  unfold revertPooled at h
  cases hcomplete : (TransactionCache.erasePool st node.transactionCache).1 with
  | true =>
      simp only [hcomplete, if_true] at h ⊢
      obtain ⟨log, hlog, h⟩ := bind_ok_iff.mp h
      rw [hlog, revertTransaction_log h]
  | false =>
      simp only [hcomplete, Bool.false_eq_true, if_false] at h ⊢
      cases pure_ok_iff.mp h
      rfl

theorem revertPool_log {expiryTime : ℤ} {unexpired : List SignedTransaction}
    {node after : NodeInternals} (h : node.revertPool expiryTime = .ok (unexpired, after)) :
    ∃ mid, runAll revertPooled node.transactionPool.reverse { node with transactionPool := [] } =
        .ok mid ∧ after.actionLog = mid.actionLog := by
  obtain ⟨mid, run, h⟩ := bind_ok_iff.mp h
  cases pure_ok_iff.mp h
  exact ⟨mid, run, rfl⟩

theorem mineTransaction_log {st : SignedTransaction} {a b : NodeInternals × Selection}
    (h : mineTransaction st a = .ok b) : b.1.actionLog = a.1.actionLog := by
  rcases a with ⟨node, s⟩
  rcases b with ⟨after, t⟩
  rcases mineTransaction_cases h with ⟨_, rfl, _⟩ | ⟨cache, _, h⟩
  · rfl
  · rcases h with ⟨mid, happly, rfl, _⟩ | ⟨mid, happly, rfl, _⟩
    · exact (applyTransaction_spec happly).2.2
    · exact (applyTransaction_spec happly).2.2

theorem mineAll_log {transactions : List SignedTransaction} {a b : NodeInternals × Selection}
    (h : runAll mineTransaction transactions a = .ok b) : b.1.actionLog = a.1.actionLog :=
  runAll_invariant (I := fun t : NodeInternals × Selection => t.1.actionLog = a.1.actionLog)
    (fun _ _ _ _ hs step => (mineTransaction_log step).trans hs) rfl h

theorem appendBlock_log {signedBlock : SignedBlock} {granted : Granted}
    {node after : NodeInternals} (h : node.appendBlock signedBlock granted = .ok after) :
    node.actionLog.logBlock signedBlock granted.unitUriViewCounts granted.appliedSponsorItems =
      .ok after.actionLog := by
  obtain ⟨l, _, h⟩ := bind_ok_iff.mp h
  obtain ⟨chain, _, h⟩ := bind_ok_iff.mp h
  obtain ⟨log, hlog, h⟩ := bind_ok_iff.mp h
  cases pure_ok_iff.mp h
  exact hlog

theorem connectTransaction_log {miner : String} {st : SignedTransaction}
    {a b : NodeInternals × ℤ} (h : connectTransaction miner st a = .ok b) :
    b.1.actionLog = a.1.actionLog := by
  rcases a with ⟨node, last⟩
  simp only [connectTransaction] at h
  cases hadd : TransactionCache.addChain st node.transactionCache with
  | none => simp [hadd] at h
  | some cache =>
      simp only [hadd] at h
      obtain ⟨⟨applied, mid⟩, happly, h⟩ := bind_ok_iff.mp h
      obtain ⟨_, h⟩ := require_bind_ok_iff.mp h
      obtain ⟨_, h⟩ := require_bind_ok_iff.mp h
      cases pure_ok_iff.mp h
      exact (applyTransaction_spec happly).2.2

theorem connectBlock_log {signedBlock : SignedBlock} {node after : NodeInternals}
    (h : node.connectBlock signedBlock = .ok after) :
    ∃ miner mid granted, getMiner signedBlock = .ok miner ∧
      runAll (connectTransaction miner) signedBlock.blockDetails.signedTransactions (node, 0) =
        .ok mid ∧
      grantRewards mid.1.ctx signedBlock.blockDetails miner .apply mid.1.ledger = .ok granted ∧
      granted.rewards = signedBlock.blockDetails.rewards ∧
      node.actionLog.logBlock signedBlock granted.unitUriViewCounts granted.appliedSponsorItems =
        .ok after.actionLog := by
  obtain ⟨miner, hminer, h⟩ := bind_ok_iff.mp h
  obtain ⟨_, _, h⟩ := bind_ok_iff.mp h
  obtain ⟨⟨mid, t⟩, run, h⟩ := bind_ok_iff.mp h
  obtain ⟨⟨mismatch, granted⟩, hrewards, h⟩ := bind_ok_iff.mp h
  obtain ⟨hmatch, h⟩ := require_bind_ok_iff.mp h
  have hlog : mid.actionLog = node.actionLog :=
    runAll_invariant (I := fun t : NodeInternals × ℤ => t.1.actionLog = node.actionLog)
      (fun _ _ _ _ hs step => (connectTransaction_log step).trans hs) rfl run
  obtain ⟨granted', hgrant, hpair⟩ := bind_ok_iff.mp hrewards
  have hpair := pure_ok_iff.mp hpair
  obtain ⟨hdiffer, rfl⟩ := Prod.mk.inj hpair
  rw [hmatch, decide_eq_false_iff_not, not_not] at hdiffer
  exact ⟨miner, _, _, hminer, run, hgrant, hdiffer, hlog ▸ appendBlock_log h⟩

theorem revertMined_log {miner : String} {st : SignedTransaction} {node after : NodeInternals}
    (h : revertMined miner st node = .ok after) : after.actionLog = node.actionLog := by
  obtain ⟨reverted, hrevert, h⟩ := bind_ok_iff.mp h
  cases pure_ok_iff.mp h
  have hlog := revertTransaction_log hrevert
  exact hlog

theorem disconnectBlock_log {node after : NodeInternals} (h : node.disconnectBlock = .ok after) :
    node.actionLog.revert = .ok after.actionLog := by
  obtain ⟨chain, _, h⟩ := bind_ok_iff.mp h
  obtain ⟨log, hlog, h⟩ := bind_ok_iff.mp h
  obtain ⟨miner, _, h⟩ := bind_ok_iff.mp h
  obtain ⟨mid, hledger, h⟩ := bind_ok_iff.mp h
  obtain ⟨permitted, _, h⟩ := bind_ok_iff.mp h
  obtain ⟨_, h⟩ := require_bind_ok_iff.mp h
  obtain ⟨⟨mismatch, granted⟩, _, hledger⟩ := bind_ok_iff.mp hledger
  obtain ⟨_, hledger⟩ := require_bind_ok_iff.mp hledger
  obtain ⟨l, _, run⟩ := bind_ok_iff.mp hledger
  have hmid : mid.actionLog = log :=
    runAll_invariant (I := fun n : NodeInternals => n.actionLog = log)
      (fun _ _ _ _ hs step => (revertMined_log step).trans hs) rfl run
  have hafter : after.actionLog = log := by
    split_ifs at h with hold
    · obtain ⟨old, _, h⟩ := bind_ok_iff.mp h
      cases pure_ok_iff.mp h
      exact hmid
    · cases pure_ok_iff.mp h
      exact hmid
  rw [hlog, hafter]

theorem repool_log {complete : Bool} {st : SignedTransaction} {node after : NodeInternals}
    (h : node.repool complete st = .ok after) :
    after.actionLog = node.actionLog ∨ after.actionLog = node.actionLog.logTransaction st := by
  rcases repool_cases h with ⟨mid, happly, rfl⟩ | ⟨_, mid, happly, rfl⟩ | ⟨_, _, rfl⟩
  · exact .inl (applyTransaction_spec happly).2.2
  · refine .inr ?_
    rw [← (applyTransaction_spec happly).2.2]
    rfl
  · exact .inl rfl

end NodeInternals

namespace ActionLog

/-- A disabled log stays as it is. -/
structure StaysDisabled (log after : ActionLog) : Prop where
  enabled : after.enabled = log.enabled
  disabled : log.enabled = false → after = log

theorem StaysDisabled.refl (log : ActionLog) : StaysDisabled log log := ⟨rfl, fun _ => rfl⟩

theorem StaysDisabled.trans {a b c : ActionLog} (h : StaysDisabled a b) (h' : StaysDisabled b c) :
    StaysDisabled a c :=
  ⟨h'.enabled.trans h.enabled, fun hoff =>
    (h'.disabled (h.enabled.trans hoff)).trans (h.disabled hoff)⟩

theorem staysDisabled_revert {log after : ActionLog} (h : log.revert = .ok after) :
    StaysDisabled log after := by
  unfold revert at h
  split_ifs at h with hoff
  · cases pure_ok_iff.mp h
    exact .refl log
  · obtain ⟨_, _, h⟩ := bind_ok_iff.mp h
    obtain ⟨_, _, h⟩ := bind_ok_iff.mp h
    obtain ⟨_, _, h⟩ := bind_ok_iff.mp h
    cases pure_ok_iff.mp h
    exact ⟨rfl, fun h => absurd h hoff⟩

variable [Externals]

theorem atEnd_logTransaction {log : ActionLog} (h : log.AtEnd) (st : SignedTransaction) :
    (log.logTransaction st).AtEnd := by
  unfold logTransaction
  split_ifs
  · exact h
  · exact atEnd_insert log _

theorem logBlock_cases {signedBlock : SignedBlock} {views : UnitViews}
    {payments : List SponsorPayment} {log after : ActionLog}
    (h : log.logBlock signedBlock views payments = .ok after) :
    (log.enabled = false ∧ after = log) ∨
    log.enabled = true ∧ ∃ packet, after = log.insert packet := by
  unfold logBlock at h
  split_ifs at h with hoff
  · exact .inl ⟨hoff, (pure_ok_iff.mp h).symm⟩
  · obtain ⟨_, _, h⟩ := bind_ok_iff.mp h
    exact .inr ⟨Bool.eq_true_of_not_eq_false hoff, _, (pure_ok_iff.mp h).symm⟩

theorem atEnd_logBlock {signedBlock : SignedBlock} {views : UnitViews}
    {payments : List SponsorPayment} {start log after : ActionLog} (hstart : start.AtEnd)
    (continues : StaysDisabled start log) (h : log.logBlock signedBlock views payments = .ok after) :
    after.AtEnd ∧ StaysDisabled start after := by
  rcases logBlock_cases h with ⟨hoff, rfl⟩ | ⟨hon, packet, rfl⟩
  · have hsame := continues.disabled (continues.enabled.symm.trans hoff)
    exact ⟨hsame ▸ hstart, continues⟩
  · refine ⟨atEnd_insert log packet, continues.enabled, fun hoff => ?_⟩
    rw [continues.enabled.symm.trans hon] at hoff
    cases hoff

end ActionLog

namespace NodeInternals
variable [Externals]
open ActionLog

theorem staysDisabled_revertPool {expiryTime : ℤ} {unexpired : List SignedTransaction}
    {node after : NodeInternals} (h : node.revertPool expiryTime = .ok (unexpired, after)) :
    StaysDisabled node.actionLog after.actionLog := by
  obtain ⟨mid, run, hafter⟩ := revertPool_log h
  rw [hafter]
  have hstart : StaysDisabled node.actionLog { node with transactionPool := [] }.actionLog := .refl _
  refine runAll_invariant (I := fun n : NodeInternals => StaysDisabled node.actionLog n.actionLog)
    ?_ hstart run
  intro st _ s t hs step
  have hlog := revertPooled_log step
  split_ifs at hlog
  · exact hs.trans (staysDisabled_revert hlog)
  · exact hlog ▸ hs

theorem atEnd_repool {complete : Bool} {st : SignedTransaction} {node after : NodeInternals}
    (h : node.repool complete st = .ok after) (hend : node.actionLog.AtEnd) :
    after.actionLog.AtEnd := by
  rcases repool_log h with hlog | hlog
  · rwa [hlog]
  · rw [hlog]
    exact atEnd_logTransaction hend st

theorem atEnd_mineBlock {node after : NodeInternals} (h : node.mineBlock = .ok after)
    (hend : node.actionLog.AtEnd) : after.actionLog.AtEnd := by
  obtain ⟨_, _, reverted, _, mined, s, granted, appended, _, hpool, _, hmine, _, happend, hrest⟩ :=
    mineBlock_stages h
  have hmined : StaysDisabled node.actionLog mined.actionLog := by
    have hlog : mined.actionLog = reverted.actionLog := mineAll_log hmine
    rw [hlog]
    exact staysDisabled_revertPool hpool
  have happended := (atEnd_logBlock hend hmined (appendBlock_log happend)).1
  refine runAll_invariant (I := fun n : NodeInternals => n.actionLog.AtEnd) ?_ happended hrest
  intro st _ s t hs step
  obtain ⟨complete, _, step⟩ := bind_ok_iff.mp step
  exact atEnd_repool step hs

theorem staysDisabled_disconnectTo {common count : ℕ} {node after : NodeInternals}
    (h : disconnectTo common count node = .ok after) :
    StaysDisabled node.actionLog after.actionLog := by
  induction count generalizing node with
  | zero =>
      cases h
      exact .refl _
  | succ count ih =>
      simp only [disconnectTo] at h
      split_ifs at h
      · obtain ⟨mid, first, h⟩ := bind_ok_iff.mp h
        exact (staysDisabled_revert (disconnectBlock_log first)).trans (ih h)
      · cases pure_ok_iff.mp h
        exact .refl _

theorem atEnd_replaceBlocks {now : ℤ} {common : ℕ} {syncBlocks : List SignedBlock}
    {clearPool : Bool} {node after : NodeInternals}
    (h : node.replaceBlocks now common syncBlocks clearPool = .ok after)
    (hblocks : syncBlocks ≠ []) (hend : node.actionLog.AtEnd) : after.actionLog.AtEnd := by
  obtain ⟨_, reverted, lowered, raised, hpool, hlower, hraise, hrest⟩ := replaceBlocks_stages h
  have hlowered := (staysDisabled_revertPool hpool).trans (staysDisabled_disconnectTo hlower)
  have hraised : raised.actionLog.AtEnd := by
    obtain ⟨first, rest, rfl⟩ := List.exists_cons_of_ne_nil hblocks
    obtain ⟨mid, hfirst, hraise⟩ := runAll_cons_ok_iff.mp hraise
    obtain ⟨_, _, _, _, _, _, _, hlog⟩ := connectBlock_log hfirst
    refine (runAll_invariant (I := fun n : NodeInternals =>
      n.actionLog.AtEnd ∧ StaysDisabled node.actionLog n.actionLog) ?_
      (atEnd_logBlock hend hlowered hlog) hraise).1
    intro block _ s t hs step
    obtain ⟨_, _, _, _, _, _, _, hlog⟩ := connectBlock_log step
    exact atEnd_logBlock hend hs.2 hlog
  split_ifs at hrest
  · refine runAll_invariant (I := fun n : NodeInternals => n.actionLog.AtEnd) ?_ hraised hrest
    intro st _ s t hs step
    rcases repoolReceived_cases step with rfl | ⟨_, _, _, _, step⟩
    · exact hs
    · exact atEnd_repool step hs
  · exact hrest ▸ hraised

end NodeInternals
end Publiq
