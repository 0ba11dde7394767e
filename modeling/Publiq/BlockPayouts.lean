import Publiq.BlockDues
import Publiq.HeaderSync
import Publiq.ReturnedOnce
import Publiq.SponsorshipPayouts

/-! What the blocks of a chain pay of each sponsorship, from the block that accepts it to the one
that cancels it or in which it ends. -/
namespace Publiq
open Message Checked Documents

def callOf [Externals] (ctx : Context) (st : SignedTransaction) : Option SponsorshipCall :=
  match st.transactionDetails.action with
  | .sponsorContentUnit sponsor => some (.sponsor ctx.blockchain sponsor (transactionHash st))
  | .cancelSponsorContentUnit cancel => some (.use ctx.blockchain cancel.uri ctx.blockchain.length
      cancel.transactionHash cancel.sponsorAddress)
  | _ => none

section
variable [Externals] {ctx : Context} {st : SignedTransaction} {layer : StateLayer}
  {l after : Ledger}

omit [Externals] in
theorem sameSponsorships_of_documents (h : after.documents = l.documents) :
    l.documents.SameSponsorships after.documents := h ▸ .refl _

/-- An action that is applied makes its call, and no other. -/
theorem actionApply_call (h : actionApply ctx st layer l = .ok after) :
    match callOf ctx st with
    | some call => call.apply l.documents = .ok after.documents
    | none => l.documents.SameSponsorships after.documents := by
  obtain ⟨_, _, h⟩ := bind_ok_iff.mp h
  unfold callOf
  cases haction : st.transactionDetails.action with
  | transfer a =>
      rw [haction] at h
      have h := requireAuthority_bind h
      obtain ⟨mid, hmid, h⟩ := bind_ok_iff.mp h
      exact sameSponsorships_of_documents ((decrease_documents h).trans (increase_documents hmid))
  | authorizationUpdate a =>
      rw [haction] at h
      have h := requireAuthority_bind h
      obtain ⟨m, _, rfl⟩ := onAuthorities_ok_iff.mp h
      exact .refl _
  | file a =>
      rw [haction] at h
      obtain ⟨_, _, h⟩ := bind_ok_iff.mp h
      obtain ⟨_, h⟩ := require_bind_ok_iff.mp h
      cases pure_ok_iff.mp h
      exact ⟨rfl, rfl, rfl⟩
  | contentUnit a =>
      rw [haction] at h
      obtain ⟨_, _, h⟩ := bind_ok_iff.mp h
      split at h
      · cases h
      · obtain ⟨_, h⟩ := require_bind_ok_iff.mp h
        split at h
        · cases h
        · cases pure_ok_iff.mp h
          exact ⟨rfl, rfl, rfl⟩
  | content a =>
      rw [haction] at h
      rw [a.apply_eq h]
      exact .refl _
  | role a =>
      rw [haction] at h
      have h := requireAuthority_bind h
      obtain ⟨_, h⟩ := require_bind_ok_iff.mp h
      obtain ⟨_, h⟩ := require_bind_ok_iff.mp h
      obtain ⟨_, _, h⟩ := bind_ok_iff.mp h
      exact sameSponsorships_of_documents (onState_documents h)
  | storageUpdate a =>
      rw [haction] at h
      have h := requireAuthority_bind h
      obtain ⟨_, h⟩ := require_bind_ok_iff.mp h
      obtain ⟨_, h⟩ := require_bind_ok_iff.mp h
      obtain ⟨_, h⟩ := require_bind_ok_iff.mp h
      cases pure_ok_iff.mp h
      exact ⟨rfl, rfl, rfl⟩
  | serviceStatistics a =>
      rw [haction] at h
      rw [a.apply_eq h]
      exact .refl _
  | sponsorContentUnit a =>
      rw [haction] at h
      have h := requireAuthority_bind h
      obtain ⟨_, h⟩ := require_bind_ok_iff.mp h
      obtain ⟨amount, hamount, h⟩ := bind_ok_iff.mp h
      obtain ⟨mid, hmid, h⟩ := bind_ok_iff.mp h
      obtain ⟨docs, hdocs, h⟩ := bind_ok_iff.mp h
      cases pure_ok_iff.mp h
      rw [onState_documents hmid] at hdocs
      exact bind_ok_iff.mpr ⟨amount, hamount, hdocs⟩
  | cancelSponsorContentUnit a =>
      rw [haction] at h
      have h := requireAuthority_bind h
      obtain ⟨_, h⟩ := require_bind_ok_iff.mp h
      obtain ⟨⟨docs, payments⟩, hused, h⟩ := bind_ok_iff.mp h
      obtain ⟨_, h⟩ := require_bind_ok_iff.mp h
      cases pure_ok_iff.mp h
      exact map_ok_iff.mpr ⟨_, hused, rfl⟩
  | unknown rtt =>
      rw [haction] at h
      cases h

end

/-- A block of a chain, with the chain and the ledger that it was applied to. -/
structure AppliedBlock where
  chain : Blockchain
  start : Ledger
  signedBlock : SignedBlock

namespace AppliedBlock
variable [Externals]

omit [Externals] in
def block (b : AppliedBlock) : Block := b.signedBlock.blockDetails

omit [Externals] in
def number (b : AppliedBlock) : ℕ := b.block.header.blockNumber.toNat

def ledgerAfter (ctx : Context) (b : AppliedBlock) (transactions : List SignedTransaction) :
    Checked Ledger := do
  let miner ← getMiner b.signedBlock
  runAll (applyMined (ctx.withChain b.chain) miner) transactions b.start

def granted (ctx : Context) (b : AppliedBlock) : Checked Granted := do
  let miner ← getMiner b.signedBlock
  let l ← b.ledgerAfter ctx b.block.signedTransactions
  grantRewards (ctx.withChain b.chain) b.block miner .apply l

/-- What the block pays of the sponsorships: what the viewed units pay, and what is returned of
those that are cancelled or end. -/
def payments (ctx : Context) (b : AppliedBlock) : List SponsorPayment :=
  match b.granted ctx with
  | .ok granted => granted.appliedSponsorItems ++ granted.returned
  | .error _ => []

def Sponsors (b : AppliedBlock) (hash : String) (amount : Coin) : Prop :=
  ∃ st ∈ b.block.signedTransactions, transactionHash st = hash ∧ ∃ spi,
    st.transactionDetails.action = .sponsorContentUnit spi ∧ Coin.ofMessage spi.amount = .ok amount

/-- A sponsorship is cancelled in the block, or it is the block that its end falls into. -/
def Ends (ctx : Context) (b : AppliedBlock) (hash : String) : Prop :=
  (∃ st ∈ b.block.signedTransactions, ∃ cancel, st.transactionDetails.action =
    .cancelSponsorContentUnit cancel ∧ cancel.transactionHash = hash) ∨
  ∃ l, b.ledgerAfter ctx b.block.signedTransactions = .ok l ∧
    l.documents.hashToBlock[hash]? = some b.number

end AppliedBlock

/-- A chain that grows from its genesis block. The headers follow each other, and every block is
one that the node accepts. -/
inductive BlockRun [Externals] (ctx : Context) (genesis : SignedBlock) :
    List AppliedBlock → Blockchain → Ledger → Prop
  | genesis {chain : Blockchain} {l : Ledger} : Blockchain.start genesis = .ok chain →
      increaseRewards (ctx.withChain chain) genesis.blockDetails.rewards default = .ok l →
      BlockRun ctx genesis [] chain l
  | connect {past : List AppliedBlock} {b : AppliedBlock} {chain : Blockchain} {l : Ledger} :
      BlockRun ctx genesis past b.chain b.start →
      Externals.publicKey b.signedBlock.authorization.address = .ok () →
      Next b.chain.lastHeaderEx b.signedBlock.headerEx →
      (∀ st ∈ b.block.signedTransactions, actionValidate ctx.config st true = .ok ()) →
      replayBlock ctx b.signedBlock (b.chain, b.start) = .ok (chain, l) →
      BlockRun ctx genesis (b :: past) chain l

def paidIn [Externals] (ctx : Context) (blocks : List AppliedBlock) (hash : String) : ℕ :=
  (blocks.map fun b => paidFor hash (b.payments ctx)).sum

/-- No sponsorship pays more than its amount, and one that was cancelled or has ended has paid all
of it. -/
def PaysExactly [Externals] (ctx : Context) (blocks : List AppliedBlock) : Prop :=
  ∀ hash amount, (∃ b ∈ blocks, b.Sponsors hash amount) → paidIn ctx blocks hash ≤ amount.value ∧
    ((∃ b ∈ blocks, b.Ends ctx hash) → paidIn ctx blocks hash = amount.value)

/-- A sponsorship that is accepted is a new one, and the clock has its interval; a cancellation
comes to its sponsorship. -/
def ClearTransaction [Externals] (ctx : Context) (st : SignedTransaction) (l : Ledger) : Prop :=
  match st.transactionDetails.action with
  | .sponsorContentUnit spi => IntervalFits spi ∧ 0 ≤ clockSeconds spi.startTimePoint ∧
      l.documents.hashToBlock[transactionHash st]? = none
  | .cancelSponsorContentUnit cancel => cancel.Heeded ctx st l
  | _ => True

/-- The next block pays a unit for a time after the last one, or before any of its sponsorships
starts. -/
def PaysInTime (chain : Blockchain) (docs : Documents) (uri : String) : Prop :=
  ∀ cusi, docs.sponsored[uri]? = some cusi →
    lastUsed cusi < payTime chain chain.length ∨
      ∀ item ∈ cusi.sponsoredInformations, item.cancelled = false →
        payTime chain chain.length ≤ item.startTimePoint

def HeldTime (header : BlockHeader) : Prop :=
  0 ≤ header.timeSigned ∧ header.timeSigned ≤ 2 * clockRange

/-- A block that calls on no sponsor at the wrong time. -/
structure AppliedBlock.Clear [Externals] (ctx : Context) (b : AppliedBlock) : Prop where
  held : HeldTime b.block.header
  transactions : ∀ before st rest l, b.block.signedTransactions = before ++ st :: rest →
    b.ledgerAfter ctx before = .ok l → ClearTransaction (ctx.withChain b.chain) st l
  inTime : ∀ l viewed, b.ledgerAfter ctx b.block.signedTransactions = .ok l →
    viewedUnits (ctx.withChain b.chain) b.block l = .ok viewed →
    ∀ uri, (uri ∈ viewed ∨
      ∃ hash, (uri, hash) ∈ l.documents.contentUnitUriSponsorExpiring b.number) →
        PaysInTime b.chain l.documents uri

section
variable {past : StandingCalls} {docs after : Documents} {uri hash : String}
  {call : SponsorshipCall} {chain : Blockchain} {blockNumber : ℕ}

/-- The times of a unit are those that it had, and that of a view. -/
theorem times_of_apply (sound : docs.SponsorshipsSound) (h : call.apply docs = .ok after)
    {cusi : ContentUnitSponsoredInformation} (stored : after.sponsored[uri]? = some cusi) :
    ∀ tp ∈ cusi.timePointsUsed.tail,
      (∃ unit, docs.sponsored[uri]? = some unit ∧ tp ∈ unit.timePointsUsed.tail) ∨
      ∃ chain blockNumber manual, call = .use chain uri blockNumber "" manual ∧
        tp = payTime chain blockNumber := by
  intro tp htp
  cases call.unit_of_apply sound h stored with
  | same hunit _ => exact .inl ⟨cusi, hunit, htp⟩
  | sponsored _ _ _ hcusi =>
      cases hunit : docs.sponsored[uri]? with
      | none =>
          rw [hunit] at hcusi
          rw [(refreshIndex_rest hcusi).2.1] at htp
          cases htp
      | some unit =>
          rw [hunit] at hcusi
          obtain ⟨_, hcusi⟩ := require_bind_ok_iff.mp hcusi
          obtain ⟨_, hcusi⟩ := require_bind_ok_iff.mp hcusi
          rw [(refreshIndex_rest hcusi).2.1] at htp
          exact .inl ⟨unit, rfl, htp⟩
  | @viewed chain manual blockNumber unit hcall hunit hnoted =>
      have hne := (sound.orderly uri unit hunit).times
      rw [(refreshIndex_rest hnoted).2.1, List.tail_append_of_ne_nil hne] at htp
      rcases List.mem_append.mp htp with hold | hnew
      · exact .inl ⟨unit, hunit, hold⟩
      · exact .inr ⟨chain, blockNumber, manual, hcall, List.mem_singleton.mp hnew⟩
  | @settled chain hash manual blockNumber unit u _ _ hunit _ hafter =>
      rw [hafter] at htp
      exact .inl ⟨unit, hunit, htp⟩

/-- The views that the units remember were not after a time. -/
def ViewedBy (docs : Documents) (time : ℤ) : Prop :=
  ∀ (uri : String) cusi, docs.sponsored[uri]? = some cusi → ∀ tp ∈ cusi.timePointsUsed.tail,
    tp ≤ time

theorem ViewedBy.apply {time : ℤ} (viewed : ViewedBy docs time) (sound : docs.SponsorshipsSound)
    (h : call.apply docs = .ok after)
    (views : ∀ chain uri blockNumber manual, call = .use chain uri blockNumber "" manual →
      payTime chain blockNumber ≤ time) : ViewedBy after time := by
  intro uri cusi stored tp htp
  rcases times_of_apply sound h stored tp htp with
    ⟨unit, hunit, hold⟩ | ⟨chain, blockNumber, manual, hcall, rfl⟩
  · exact viewed uri unit hunit tp hold
  · exact views chain uri blockNumber manual hcall

theorem paidOut_append (later past : StandingCalls) (hash : String) :
    paidOut (later ++ past) hash = paidOut later hash + paidOut past hash := by
  unfold paidOut
  rw [List.map_append, List.sum_append]

/-- What a part of a block keeps of the sponsorships. -/
structure Advances (time : ℤ) (docs after : Documents) : Prop where
  viewed : ViewedBy docs time → ViewedBy after time
  known : ∀ (hash : String) number, docs.hashToBlock[hash]? = some number →
    after.hashToBlock[hash]? = some number
  sponsored : ∀ uri hash amount itemEnd number, Sponsored docs uri hash amount itemEnd number →
    Sponsored after uri hash amount itemEnd number

theorem Advances.trans {time : ℤ} {mid : Documents} (first : Advances time docs mid)
    (second : Advances time mid after) : Advances time docs after :=
  ⟨fun h => second.viewed (first.viewed h),
    fun hash number h => second.known hash number (first.known hash number h),
    fun uri hash amount itemEnd number h => second.sponsored uri hash amount itemEnd number
      (first.sponsored uri hash amount itemEnd number h)⟩

theorem advances_same (time : ℤ) (h : docs.SameSponsorships after) : Advances time docs after := by
  refine ⟨fun viewed uri cusi stored => viewed uri cusi (h.sponsored ▸ stored),
    fun hash number known => h.hashToBlock ▸ known, ?_⟩
  rintro uri hash amount itemEnd number ⟨hnumber, cusi, item, stored, hitem⟩
  exact ⟨h.hashToBlock ▸ hnumber, cusi, item, h.sponsored ▸ stored, hitem⟩

theorem advances_refl (time : ℤ) (docs : Documents) : Advances time docs docs :=
  advances_same time (.refl docs)

theorem advances_apply {time : ℤ} (sound : docs.SponsorshipsSound)
    (permitted : call.Permitted docs) (h : call.apply docs = .ok after)
    (views : ∀ chain uri blockNumber manual, call = .use chain uri blockNumber "" manual →
      payTime chain blockNumber ≤ time) : Advances time docs after :=
  ⟨fun viewed => viewed.apply sound h views,
    fun _ _ known => call.hashToBlock_apply sound permitted h known,
    fun _ _ _ _ _ sponsored => sponsored.apply sound permitted h⟩

/-- A sponsorship is stored whose end a block takes care of that is signed no earlier. -/
def Awaited (genesis : BlockHeader) (docs : Documents) (hash : String) (amount : Coin) : Prop :=
  ∃ uri itemEnd number, Sponsored docs uri hash amount itemEnd number ∧
    itemEnd ≤ signingTime genesis number

theorem Awaited.advance {genesis : BlockHeader} {amount : Coin} {time : ℤ}
    (awaited : Awaited genesis docs hash amount) (advances : Advances time docs after) :
    Awaited genesis after hash amount := by
  obtain ⟨uri, itemEnd, number, sponsored, hend⟩ := awaited
  exact ⟨uri, itemEnd, number, advances.sponsored uri hash amount itemEnd number sponsored, hend⟩

end

section
variable [Externals] {ctx : Context} {miner : String} {st : SignedTransaction}
  {transactions : List SignedTransaction} {past : StandingCalls} {l after : Ledger}
  {genesis : BlockHeader}

def callsOn (ctx : Context) (st : SignedTransaction) (docs : Documents) : StandingCalls :=
  ((callOf ctx st).map fun call => (call, docs)).toList

def paidBack (ctx : Context) (applied : CancelSponsorContentUnit × Documents) :
    List SponsorPayment :=
  (SponsorshipCall.use ctx.blockchain applied.1.uri ctx.blockchain.length
    applied.1.transactionHash applied.1.sponsorAddress).payments applied.2

def PaysLeft (ctx : Context) (applied : CancelSponsorContentUnit × Documents) : Prop :=
  applied.2.SponsorshipsSound ∧ ∃ cusi item part, applied.1.TakesBack applied.2 cusi item part ∧
    paidBack ctx applied = [⟨item.sponsorAddress, item.transactionHash, part⟩]

theorem paysLeft_of_applied {cancel : CancelSponsorContentUnit} (empty : Externals.EmptyNoUri)
    (keyed : Externals.publicKey "" ≠ .ok ()) (reached : Reached ctx.own .chain l)
    (valid : actionValidate ctx.config st true = .ok ())
    (haction : st.transactionDetails.action = .cancelSponsorContentUnit cancel)
    (heeded : cancel.Heeded ctx st l) (h : actionApply ctx st .chain l = .ok after) :
    PaysLeft ctx (cancel, l.documents) := by
  obtain ⟨_, _, hvalid⟩ := bind_ok_iff.mp valid
  rw [haction] at hvalid
  obtain ⟨_, _, h⟩ := bind_ok_iff.mp h
  rw [haction] at h
  have hthrough : l.permits cancel.sponsorAddress st.signer CancelSponsorContentUnit.rtt = true ∧
      l.documents.unitExists cancel.uri = true := by
    by_contra refused
    obtain ⟨e, he⟩ := cancel.actionApply_refused ctx reached.sound.normal refused
    cases he.symm.trans h
  have sound := reached.sound.sponsorships
  have hcomes := heeded hthrough.1 hthrough.2
  rcases cancel.setUsed_of_comesToIt sound (cancel.hash_named empty hvalid)
    (cancel.sponsor_named keyed hvalid) hcomes with ⟨_, e, hthrows⟩ |
      ⟨cusi, index, item, part, number, due, _, _, hused⟩
  · have hnone : cancel.actionApply ctx st l = _ :=
      cancel.actionApply_through ctx reached.sound.normal hthrough.1 hthrough.2
    rw [hthrows] at hnone
    cases hnone.symm.trans h
  · exact ⟨sound, cusi, item, part, due, SponsorshipCall.payments_use hused⟩

/-- What the transactions of a block do to the sponsorships. -/
structure TransactionCalls (ctx : Context) (miner : String) (genesis : BlockHeader)
    (transactions : List SignedTransaction)
    (cancelled : List (CancelSponsorContentUnit × Documents)) (calls past : StandingCalls)
    (l after : Ledger) : Prop where
  filled : BlockFilled ctx miner transactions cancelled l after
  built : Built (calls ++ past) after.documents
  clear : ∀ standing ∈ calls, standing.1.Clear standing.2
  paid : ∀ hash, paidOut calls hash = (cancelled.map fun c => paidFor hash (paidBack ctx c)).sum
  left : ∀ c ∈ cancelled, PaysLeft ctx c
  advances : ∀ time, Advances time l.documents after.documents
  fresh : ∀ st ∈ transactions, ∀ spi, st.transactionDetails.action = .sponsorContentUnit spi →
    l.documents.hashToBlock[transactionHash st]? = none
  sponsors : ∀ st ∈ transactions, ∀ spi, st.transactionDetails.action = .sponsorContentUnit spi →
    ∀ amount, Coin.ofMessage spi.amount = .ok amount →
      Awaited genesis after.documents (transactionHash st) amount

theorem BlockFilled.append {first second : List SignedTransaction}
    {cancelled more : List (CancelSponsorContentUnit × Documents)} {mid : Ledger}
    (h : BlockFilled ctx miner first cancelled l mid)
    (rest : BlockFilled ctx miner second more mid after) :
    BlockFilled ctx miner (first ++ second) (cancelled ++ more) l after := by
  induction h with
  | done => exact rest
  | applied valid fresh heeded happly _ ih =>
      rw [List.append_assoc]
      exact .applied valid fresh heeded happly (ih rest)
  | refused valid fresh happly _ ih => exact .refused valid fresh happly (ih rest)

theorem TransactionCalls.append {first second : List SignedTransaction}
    {cancelled more : List (CancelSponsorContentUnit × Documents)} {calls later : StandingCalls}
    {mid : Ledger} (h : TransactionCalls ctx miner genesis first cancelled calls past l mid)
    (rest : TransactionCalls ctx miner genesis second more later (calls ++ past) mid after) :
    TransactionCalls ctx miner genesis (first ++ second) (cancelled ++ more) (later ++ calls) past l
      after where
  filled := h.filled.append rest.filled
  built := by
    rw [List.append_assoc]
    exact rest.built
  clear := List.forall_mem_append.mpr ⟨rest.clear, h.clear⟩
  paid hash := by
    rw [paidOut_append, rest.paid, h.paid, List.map_append, List.sum_append, Nat.add_comm]
  left := List.forall_mem_append.mpr ⟨h.left, rest.left⟩
  advances time := (h.advances time).trans (rest.advances time)
  fresh := by
    intro st hmem spi haction
    rcases List.mem_append.mp hmem with hfirst | hsecond
    · exact h.fresh st hfirst spi haction
    · cases hknown : l.documents.hashToBlock[transactionHash st]? with
      | none => rfl
      | some number =>
          have hmid := (h.advances 0).known _ number hknown
          cases (rest.fresh st hsecond spi haction).symm.trans hmid
  sponsors := by
    intro st hmem spi haction amount hamount
    rcases List.mem_append.mp hmem with hfirst | hsecond
    · exact (h.sponsors st hfirst spi haction amount hamount).advance (rest.advances 0)
    · exact rest.sponsors st hsecond spi haction amount hamount

omit [Externals] in
theorem cancelledOn_of_ne {docs : Documents}
    (other : ∀ cancel, st.transactionDetails.action ≠ .cancelSponsorContentUnit cancel) :
    cancelledOn st docs = [] := by
  rcases BlockFilled.cancelledOn_cases st docs with hnone | ⟨cancel, haction, _⟩
  · exact hnone
  · exact absurd haction (other cancel)

/-- What one transaction of a block does to the sponsorships. -/
theorem transactionCalls_single (empty : Externals.EmptyNoUri)
    (keyed : Externals.publicKey "" ≠ .ok ()) (layer : layerOf miner = .chain)
    (first : ctx.blockchain.headerAt 0 = .ok genesis) (since : 0 ≤ genesis.timeSigned)
    (reached : Reached ctx.own .chain l) (built : Built past l.documents)
    (valid : actionValidate ctx.config st true = .ok ()) (clear : ClearTransaction ctx st l)
    (h : applyTransaction ctx miner st l = .ok (true, after)) :
    TransactionCalls ctx miner genesis [st] (cancelledOn st l.documents)
      (callsOn ctx st l.documents) past l after := by
  obtain ⟨applied, happlied, hdocs⟩ := applyTransaction_true h
  rw [layer] at happlied
  have sound := reached.sound.sponsorships
  have fresh : FreshSponsorship st l := by
    intro spi haction
    rw [ClearTransaction, haction] at clear
    exact clear.2.2
  have heeded : ∀ cancel, st.transactionDetails.action = .cancelSponsorContentUnit cancel →
      cancel.Heeded ctx st l := by
    intro cancel haction
    rw [ClearTransaction, haction] at clear
    exact clear
  have filled : BlockFilled ctx miner [st] (cancelledOn st l.documents) l after := by
    have hone := BlockFilled.applied valid fresh heeded h .done
    rwa [List.append_nil] at hone
  have hcall := actionApply_call happlied
  rw [← hdocs] at hcall
  by_cases hcancels : ∃ cancel, st.transactionDetails.action = .cancelSponsorContentUnit cancel
  · obtain ⟨cancel, haction⟩ := hcancels
    have hthis : callOf ctx st = some (.use ctx.blockchain cancel.uri ctx.blockchain.length
        cancel.transactionHash cancel.sponsorAddress) := by
      rw [callOf, haction]
    have hcancelled : cancelledOn st l.documents = [(cancel, l.documents)] := by
      rw [cancelledOn, haction]
    obtain ⟨_, _, hvalid⟩ := bind_ok_iff.mp valid
    rw [haction] at hvalid
    have named := cancel.hash_named empty hvalid
    rw [hthis] at hcall
    have permitted : (SponsorshipCall.use ctx.blockchain cancel.uri ctx.blockchain.length
        cancel.transactionHash cancel.sponsorAddress).Permitted l.documents :=
      fun hnone => absurd hnone named
    have hleft := paysLeft_of_applied empty keyed reached valid haction (heeded cancel haction)
      happlied
    rw [hcancelled] at filled ⊢
    rw [callsOn, hthis]
    refine ⟨filled, .apply built permitted hcall (.refl _), ?_, fun hash => ?_, ?_, fun time => ?_,
      List.forall_mem_singleton.mpr fun spi haction => (fresh spi haction), ?_⟩
    · exact List.forall_mem_singleton.mpr fun hnone => absurd hnone named
    · rfl
    · exact List.forall_mem_singleton.mpr hleft
    · exact advances_apply sound permitted hcall fun _ _ _ _ h =>
        absurd (SponsorshipCall.use.inj h).2.2.2.1 named
    · refine List.forall_mem_singleton.mpr fun spi hother => ?_
      cases haction.symm.trans hother
  · rw [not_exists] at hcancels
    rw [cancelledOn_of_ne hcancels] at filled ⊢
    by_cases hsponsors : ∃ spi, st.transactionDetails.action = .sponsorContentUnit spi
    · obtain ⟨spi, haction⟩ := hsponsors
      have hthis : callOf ctx st = some (.sponsor ctx.blockchain spi (transactionHash st)) := by
        rw [callOf, haction]
      rw [ClearTransaction, haction] at clear
      obtain ⟨fits, hstart, hfresh⟩ := clear
      rw [hthis] at hcall
      have permitted : (SponsorshipCall.sponsor ctx.blockchain spi (transactionHash st)).Permitted
        l.documents := hfresh
      rw [callsOn, hthis]
      refine ⟨filled, .apply built permitted hcall (.refl _), ?_, fun hash => rfl,
        fun _ hmem => (nomatch hmem), fun time => ?_,
        List.forall_mem_singleton.mpr fun spi haction => (fresh spi haction), ?_⟩
      · exact List.forall_mem_singleton.mpr ⟨fits, hstart⟩
      · exact advances_apply sound permitted hcall fun _ _ _ _ h => nomatch h
      · refine List.forall_mem_singleton.mpr fun other hother amount hamount => ?_
        cases haction.symm.trans hother
        obtain ⟨number, hnumber, hsponsored⟩ := sponsored_of_apply sound hfresh hamount hcall
        have hend := (clockSeconds_bounds (sponsoredInterval spi).2).2
        refine ⟨spi.uri, _, number, hsponsored, ?_⟩
        exact (getExpiringBlockNumber_isLeast first (by omega) hnumber).1.2
    · rw [not_exists] at hsponsors
      have hnone : callOf ctx st = none := by
        unfold callOf
        cases haction : st.transactionDetails.action with
        | sponsorContentUnit spi => exact absurd haction (hsponsors spi)
        | cancelSponsorContentUnit cancel => exact absurd haction (hcancels cancel)
        | _ => rfl
      rw [hnone] at hcall
      rw [callsOn, hnone]
      exact ⟨filled, built.same hcall, fun _ hmem => (nomatch hmem), fun _ => rfl,
        fun _ hmem => (nomatch hmem), fun time => advances_same time hcall,
        List.forall_mem_singleton.mpr fun spi haction => absurd haction (hsponsors spi),
        List.forall_mem_singleton.mpr fun spi haction => absurd haction (hsponsors spi)⟩

theorem transactionCalls_of_run (empty : Externals.EmptyNoUri)
    (keyed : Externals.publicKey "" ≠ .ok ()) (layer : layerOf miner = .chain)
    (first : ctx.blockchain.headerAt 0 = .ok genesis) (since : 0 ≤ genesis.timeSigned)
    (reached : Reached ctx.own .chain l) (built : Built past l.documents)
    (valid : ∀ st ∈ transactions, actionValidate ctx.config st true = .ok ())
    (clear : ∀ before st rest mid, transactions = before ++ st :: rest →
      runAll (applyMined ctx miner) before l = .ok mid → ClearTransaction ctx st mid)
    (h : runAll (applyMined ctx miner) transactions l = .ok after) :
    ∃ cancelled calls,
      TransactionCalls ctx miner genesis transactions cancelled calls past l after := by
  induction transactions generalizing past l with
  | nil =>
      cases h
      exact ⟨[], [], .done, built, fun _ hmem => (nomatch hmem), fun _ => rfl,
        fun _ hmem => (nomatch hmem), fun time => advances_refl time _,
        fun _ hmem => (nomatch hmem), fun _ hmem => (nomatch hmem)⟩
  | cons st rest ih =>
      obtain ⟨mid, hmid, hrest⟩ := runAll_cons_ok_iff.mp h
      have happly := applyTransaction_of_applyMined hmid
      rw [List.forall_mem_cons] at valid
      have hclear := clear [] st rest l rfl rfl
      have hone := transactionCalls_single empty keyed layer first since reached built valid.1
        hclear happly
      have hreached : Reached ctx.own .chain mid := by
        have hlayer := reached
        rw [← layer] at hlayer ⊢
        exact hone.filled.reached hlayer
      obtain ⟨cancelled, calls, hcalls⟩ := ih hreached hone.built valid.2
        (fun before other tail found hsplit hrun => clear (st :: before) other tail found
          (by rw [hsplit]; rfl) (runAll_cons_ok_iff.mpr ⟨mid, hmid, hrun⟩)) hrest
      exact ⟨_, _, hone.append hcalls⟩

end

section
variable {past : StandingCalls} {docs after : Documents} {chain : Blockchain}

/-- What the rewards of a block do to the sponsorships. -/
structure RewardCalls (chain : Blockchain) (calls past : StandingCalls) (docs after : Documents) :
    Prop where
  built : Built (calls ++ past) after
  clear : ∀ standing ∈ calls, standing.1.Clear standing.2
  advances : Advances (payTime chain chain.length) docs after

def SeenAt (docs : Documents) (time : ℤ) (uri : String) : Prop :=
  ∀ cusi, docs.sponsored[uri]? = some cusi → lastUsed cusi = time ∧
    ∀ item ∈ cusi.sponsoredInformations, item.timePointsUsedBefore < cusi.timePointsUsed.length

theorem view_permitted {uri : String} (before : ∀ cusi, docs.sponsored[uri]? = some cusi →
    ∀ tp ∈ cusi.timePointsUsed.tail, tp < payTime chain chain.length) :
    (SponsorshipCall.use chain uri chain.length "" "").Permitted docs :=
  fun _ cusi stored tp htp => before cusi stored tp htp

theorem view_clear {uri : String} (since : 0 ≤ payTime chain chain.length)
    (inTime : PaysInTime chain docs uri) :
    (SponsorshipCall.use chain uri chain.length "" "").Clear docs :=
  fun _ cusi stored => ⟨since, inTime cusi stored⟩

/-- The views of a block, unit by unit. -/
theorem viewCalls {uris : List String} {paid payments : List SponsorPayment}
    (built : Built past docs) (since : 0 ≤ payTime chain chain.length) (nodup : uris.Nodup)
    (before : ∀ uri ∈ uris, ∀ cusi, docs.sponsored[uri]? = some cusi →
      ∀ tp ∈ cusi.timePointsUsed.tail, tp < payTime chain chain.length)
    (inTime : ∀ uri ∈ uris, PaysInTime chain docs uri)
    (h : payViewed chain chain.length .apply uris (docs, paid) = .ok (after, payments)) :
    ∃ calls, RewardCalls chain calls past docs after ∧
      (∀ hash, paidOut calls hash + paidFor hash paid = paidFor hash payments) ∧
      (∀ uri ∈ uris, SeenAt after (payTime chain chain.length) uri) ∧
      ∀ (uri : String), uri ∉ uris → after.sponsored[uri]? = docs.sponsored[uri]? := by
  induction uris generalizing docs paid past with
  | nil =>
      cases pure_ok_iff.mp h
      exact ⟨[], ⟨built, fun _ hmem => (nomatch hmem), advances_refl _ _⟩,
        fun _ => Nat.zero_add _, fun _ hmem => (nomatch hmem), fun _ _ => rfl⟩
  | cons uri rest ih =>
      rw [List.forall_mem_cons] at before inTime
      rw [List.nodup_cons] at nodup
      obtain ⟨⟨mid, first⟩, hmid, h⟩ := bind_ok_iff.mp h
      obtain ⟨_, h⟩ := require_bind_ok_iff.mp h
      have hcall : (SponsorshipCall.use chain uri chain.length "" "").apply docs = .ok mid :=
        map_ok_iff.mpr ⟨_, hmid, rfl⟩
      have permitted := view_permitted before.1
      have hothers : ∀ (other : String), other ≠ uri →
          mid.sponsored[other]? = docs.sponsored[other]? := by
        intro other hother
        rcases setUsed_viewed hmid with ⟨_, rfl⟩ | ⟨cusi, noted, _, _, rfl⟩
        · rfl
        · change (docs.sponsored.insert uri noted)[other]? = _
          rw [Std.ExtTreeMap.getElem?_insert,
            if_neg fun h => hother (Std.compare_eq_iff_eq.mp h).symm]
      have hrest : ∀ other ∈ rest, mid.sponsored[other]? = docs.sponsored[other]? :=
        fun other hmem => hothers other fun h => nodup.1 (h ▸ hmem)
      obtain ⟨calls, hcalls, hpaid, hseen, hkept⟩ := ih
        (.apply built permitted hcall (.refl _)) nodup.2
        (fun other hmem cusi stored => before.2 other hmem cusi (hrest other hmem ▸ stored))
        (fun other hmem cusi stored => inTime.2 other hmem cusi (hrest other hmem ▸ stored)) h
      refine ⟨calls ++ [(.use chain uri chain.length "" "", docs)], ⟨?_, ?_, ?_⟩, fun hash => ?_,
        ?_, fun other hother => ?_⟩
      · rw [List.append_assoc]
        exact hcalls.built
      · exact List.forall_mem_append.mpr ⟨hcalls.clear,
          List.forall_mem_singleton.mpr (view_clear since inTime.1)⟩
      · refine (advances_apply built.sound permitted hcall ?_).trans hcalls.advances
        intro _ _ _ _ h
        cases h
        exact le_rfl
      · rw [paidOut_append, ← hpaid, paidFor_append]
        have hone : paidOut [(.use chain uri chain.length "" "", docs)] hash =
            paidFor hash first := by
          rw [paidOut_cons, SponsorshipCall.payments_use hmid]
          rfl
        rw [hone]
        omega
      · rw [List.forall_mem_cons]
        refine ⟨?_, hseen⟩
        intro cusi stored
        rw [hkept uri nodup.1] at stored
        rcases setUsed_viewed hmid with ⟨hnone, rfl⟩ | ⟨unit, noted, hunit, hnoted, rfl⟩
        · cases hnone.symm.trans stored
        · change (docs.sponsored.insert uri noted)[uri]? = some cusi at stored
          rw [Std.ExtTreeMap.getElem?_insert_self] at stored
          cases stored
          obtain ⟨hitems, htimes, _⟩ := refreshIndex_rest hnoted
          refine ⟨by rw [lastUsed, htimes]; simp, fun item hitem => ?_⟩
          rw [hitems] at hitem
          have hused := (built.sound.orderly uri unit hunit).used item hitem
          rw [htimes, List.length_append, List.length_singleton]
          omega
      · rw [List.mem_cons, not_or] at hother
        rw [hkept other hother.2, hothers other hother.1]

theorem PaysInTime.named {uri place hash manual : String} {blockNumber : ℕ} {other : Blockchain}
    (inTime : PaysInTime chain docs uri) (sound : docs.SponsorshipsSound) (named : hash ≠ "")
    (h : (SponsorshipCall.use other place blockNumber hash manual).apply docs = .ok after) :
    PaysInTime chain after uri := by
  intro cusi stored
  cases SponsorshipCall.unit_of_apply _ sound h stored with
  | same hunit _ => exact inTime cusi hunit
  | sponsored hcall _ _ _ => cases hcall
  | viewed hcall _ _ =>
      cases hcall
      exact absurd rfl named
  | @settled chain hash manual blockNumber unit u _ _ hunit hu hafter =>
      obtain ⟨hthere, _⟩ := Unpaid.item_of_unpaid hu
      rw [hafter]
      rcases inTime unit hunit with hlate | hnone
      · exact .inl hlate
      · refine .inr fun item hitem hkeeps => ?_
        obtain ⟨i, hi⟩ := List.getElem?_of_mem hitem
        rw [withMark_getElem? hthere] at hi
        split_ifs at hi
        · cases hi
          cases hkeeps
        · exact hnone item (List.mem_of_getElem? hi) hkeeps

/-- The returns of a block. Each sponsorship that ends with the block, of a unit that is not viewed,
has then paid its amount. -/
theorem returnCalls {viewed : UnitViews} {expiring : List (String × String)}
    {returned payments : List SponsorPayment} (built : Built past docs)
    (clear : ∀ standing ∈ past, standing.1.Clear standing.2)
    (named : ∀ ending ∈ expiring, ending.2 ≠ "")
    (inTime : ∀ ending ∈ expiring, viewed.contains ending.1 = false →
      PaysInTime chain docs ending.1)
    (h : returnExpired chain chain.length .apply viewed expiring (docs, returned) =
      .ok (after, payments)) :
    ∃ calls, RewardCalls chain calls past docs after ∧
      (∀ hash, paidOut calls hash + paidFor hash returned = paidFor hash payments) ∧
      ∀ ending ∈ expiring, viewed.contains ending.1 = false → ∀ amount itemEnd number,
        Sponsored docs ending.1 ending.2 amount itemEnd number →
        itemEnd ≤ payTime chain chain.length → amount.value ≤ paidOut (calls ++ past) ending.2 := by
  induction expiring generalizing docs returned past with
  | nil =>
      cases pure_ok_iff.mp h
      exact ⟨[], ⟨built, fun _ hmem => (nomatch hmem), advances_refl _ _⟩,
        fun _ => Nat.zero_add _, fun _ hmem => (nomatch hmem)⟩
  | cons ending rest ih =>
      obtain ⟨uri, hash⟩ := ending
      rw [List.forall_mem_cons] at named inTime
      simp only [returnExpired] at h
      split_ifs at h with hviewed
      · obtain ⟨calls, hcalls, hpaid, hended⟩ := ih built clear named.2 inTime.2 h
        refine ⟨calls, hcalls, hpaid, List.forall_mem_cons.mpr ⟨fun hnot => ?_, hended⟩⟩
        cases hviewed.symm.trans hnot
      · obtain ⟨⟨mid, first⟩, hmid, h⟩ := bind_ok_iff.mp h
        obtain ⟨_, h⟩ := require_bind_ok_iff.mp h
        have hcall : (SponsorshipCall.use chain uri chain.length hash "").apply docs = .ok mid :=
          map_ok_iff.mpr ⟨_, hmid, rfl⟩
        have permitted : (SponsorshipCall.use chain uri chain.length hash "").Permitted docs :=
          fun hnone => absurd hnone named.1
        have hclear : (SponsorshipCall.use chain uri chain.length hash "").Clear docs :=
          fun hnone => absurd hnone named.1
        obtain ⟨calls, hcalls, hpaid, hended⟩ := ih (.apply built permitted hcall (.refl _))
          (List.forall_mem_cons.mpr ⟨hclear, clear⟩) named.2
          (fun other hmem hnot => (inTime.2 other hmem hnot).named built.sound named.1 hcall) h
        refine ⟨calls ++ [(.use chain uri chain.length hash "", docs)], ⟨?_, ?_, ?_⟩,
          fun name => ?_, ?_⟩
        · rw [List.append_assoc]
          exact hcalls.built
        · exact List.forall_mem_append.mpr ⟨hcalls.clear, List.forall_mem_singleton.mpr hclear⟩
        · refine (advances_apply built.sound permitted hcall ?_).trans hcalls.advances
          intro _ _ _ _ h
          cases h
          exact absurd rfl named.1
        · have hmore := hpaid name
          rw [paidFor_append] at hmore
          change paidOut calls name + (paidFor name returned + paidFor name first) = _ at hmore
          have hone : paidOut [(.use chain uri chain.length hash "", docs)] name =
              paidFor name first := by
            rw [paidOut_cons, SponsorshipCall.payments_use hmid]
            rfl
          rw [paidOut_append, hone]
          omega
        · rw [List.append_assoc, List.forall_mem_cons]
          refine ⟨fun hnot amount itemEnd number sponsored ended => ?_, ?_⟩
          · have hreturned := sponsored.paidOut_of_returned built clear named.1 hcall ended
              (inTime.1 hnot)
            rw [paidOut_append, List.singleton_append, hreturned]
            exact Nat.le_add_left _ _
          · intro other hmem hnot amount itemEnd number sponsored ended
            exact hended other hmem hnot amount itemEnd number
              (sponsored.apply built.sound permitted hcall) ended

end
section
variable {docs : Documents} {uri hash : String} {amount : Coin} {itemEnd : ℤ} {number : ℕ}

theorem Sponsored.marked_or_expiring (sponsored : Sponsored docs uri hash amount itemEnd number)
    (sound : docs.SponsorshipsSound) :
    docs.Holds uri hash true ∨ (uri, hash) ∈ docs.contentUnitUriSponsorExpiring number := by
  obtain ⟨hnumber, cusi, item, stored, hmem, rfl, _⟩ := sponsored
  obtain ⟨listed, cancelled, hlisted, hentry, hmark⟩ := sound.recorded uri cusi stored item hmem
  cases hnumber.symm.trans hlisted
  by_cases hkept : cancelled = 0
  · subst hkept
    exact .inr (List.mem_filterMap.mpr
      ⟨_, Std.ExtTreeMap.mem_toList_iff_getElem?_eq_some.mpr hentry, if_pos rfl⟩)
  · exact .inl ⟨cusi, item, stored, hmem, rfl, hmark hkept⟩

end

/-- What a block grants on its transactions. -/
structure GrantedCalls (chain : Blockchain) (calls past : StandingCalls) (docs : Documents)
    (granted : Granted) (expired : List SponsorPayment) : Prop where
  rewards : RewardCalls chain calls past docs granted.documents
  paid : ∀ hash, paidOut calls hash =
    paidFor hash granted.appliedSponsorItems + paidFor hash expired
  ended : ∀ uri hash amount itemEnd, Sponsored docs uri hash amount itemEnd chain.length →
    itemEnd ≤ payTime chain chain.length → amount.value ≤ paidOut (calls ++ past) hash

/-- The views of a block, and then its returns. -/
theorem grantedCalls {ctx : Context} {block : Block} {miner : String} {l : Ledger}
    {granted : Granted} {past : StandingCalls}
    (h : grantRewards ctx block miner .apply l = .ok granted) (built : Built past l.documents)
    (clear : ∀ standing ∈ past, standing.1.Clear standing.2) (named : l.documents.EntriesNamed)
    (number : block.header.blockNumber.toNat = ctx.blockchain.length)
    (since : 0 ≤ payTime ctx.blockchain ctx.blockchain.length)
    (before : ∀ (uri : String) cusi, l.documents.sponsored[uri]? = some cusi →
      ∀ tp ∈ cusi.timePointsUsed.tail, tp < payTime ctx.blockchain ctx.blockchain.length)
    (inTime : ∀ viewed, viewedUnits ctx block l = .ok viewed → ∀ uri, (uri ∈ viewed ∨
      ∃ hash, (uri, hash) ∈ l.documents.contentUnitUriSponsorExpiring ctx.blockchain.length) →
        PaysInTime ctx.blockchain l.documents uri) :
    ∃ calls cancelled expired, GrantedCalls ctx.blockchain calls past l.documents granted expired ∧
      granted.returned = cancelled ++ expired ∧
      List.Forall₂ (ReturnsCancelled l.documents) (cancels block.signedTransactions) cancelled := by
  obtain ⟨collected, shares, viewedDocs, paid, docs, expired, rewards, hcollected, hshares, _,
    hpaid, hexpired, _, rfl⟩ := grantRewards_stages h
  rw [number] at hpaid hexpired
  have hviewed : viewedUnits ctx block l = .ok shares.unitUriViewCounts := by
    rw [viewedUnits, hcollected, ok_bind, hshares]
    rfl
  have hinTime := inTime _ hviewed
  obtain ⟨cancelled, hreturns, hcancelled⟩ := collected_returns hcollected
  obtain ⟨_, _, _, same⟩ := payViewed_spec built.sound hpaid
  obtain ⟨views, hviews, hviewsPaid, hseen, hkept⟩ := viewCalls built since
    Std.ExtTreeMap.nodup_keys (fun uri _ => before uri)
    (fun uri hmem => hinTime uri (.inl (Std.ExtTreeMap.mem_keys.mp hmem))) hpaid
  have hsame (name : String) := expirationEntryByHash_congr same.expiring same.hashToBlock name
  have hending : viewedDocs.contentUnitUriSponsorExpiring ctx.blockchain.length =
      l.documents.contentUnitUriSponsorExpiring ctx.blockchain.length := by
    rw [contentUnitUriSponsorExpiring, contentUnitUriSponsorExpiring, same.expiring]
  have hnames := expiring_named built.sound named ctx.blockchain.length
  rw [hending] at hexpired
  have hclear : ∀ standing ∈ views ++ past, standing.1.Clear standing.2 :=
    List.forall_mem_append.mpr ⟨hviews.clear, clear⟩
  obtain ⟨returns, hback, hbackPaid, hended⟩ := returnCalls hviews.built hclear hnames
    (fun ending hmem hnot cusi stored => by
      rw [hkept ending.1 fun hkey => by
        cases hnot.symm.trans (Std.ExtTreeMap.mem_keys.mp hkey)] at stored
      exact hinTime ending.1 (.inr ⟨ending.2, hmem⟩) cusi stored) hexpired
  refine ⟨returns ++ views, cancelled, expired, ⟨⟨?_, ?_, ?_⟩, fun hash => ?_, ?_⟩, ?_, hcancelled⟩
  · rw [List.append_assoc]
    exact hback.built
  · exact List.forall_mem_append.mpr ⟨hback.clear, hviews.clear⟩
  · exact hviews.advances.trans hback.advances
  · have hfirst := hviewsPaid hash
    have hsecond := hbackPaid hash
    rw [paidFor_nil, Nat.add_zero] at hfirst hsecond
    rw [paidOut_append, hfirst, hsecond, Nat.add_comm]
  · intro uri hash amount itemEnd sponsored ended
    have hstays := hviews.advances.sponsored _ _ _ _ _ sponsored
    rw [List.append_assoc, paidOut_append]
    rcases hstays.marked_or_expiring hviews.built.sound with hmarked | hexpiring
    · rw [hstays.paidOut_of_marked hviews.built hclear hmarked]
      exact Nat.le_add_left _ _
    · rw [hending] at hexpiring
      by_cases hkey : shares.unitUriViewCounts.contains uri = true
      · have hpaidOut := hstays.paidOut_of_viewed hviews.built hclear fun cusi stored => by
          obtain ⟨hlast, hitems⟩ := hseen uri (Std.ExtTreeMap.mem_keys.mpr hkey) cusi stored
          exact ⟨hlast ▸ ended, hitems⟩
        rw [hpaidOut]
        exact Nat.le_add_left _ _
      · rw [← paidOut_append]
        exact hended (uri, hash) hexpiring (Bool.eq_false_iff.mpr hkey) amount itemEnd _ hstays
          ended
  · rw [hreturns]
    rfl

section
variable {ctx : Context} {hash : String}

theorem paidBack_eq {cancelled : List (CancelSponsorContentUnit × Documents)}
    {returned : List SponsorPayment} (h : List.Forall₂ PaysBack cancelled returned)
    (left : ∀ c ∈ cancelled, PaysLeft ctx c) :
    (cancelled.map fun c => paidFor hash (paidBack ctx c)).sum = paidFor hash returned := by
  induction h with
  | nil => rfl
  | @cons c payment _ rest hpays _ ih =>
      rw [List.forall_mem_cons] at left
      obtain ⟨hsponsor, hhash, unit, other, again⟩ := hpays
      obtain ⟨⟨sound, cusi, item, part, due, hpaid⟩, hrest⟩ := left
      obtain ⟨i, hi⟩ := List.getElem?_of_mem again.there
      obtain ⟨rfl, rfl⟩ := due.item_eq sound again.stored hi again.named
      obtain rfl : part = payment.amount := Except.ok.inj (due.left.symm.trans again.left)
      have hthis : paidBack ctx c = [payment] := by
        rw [hpaid, due.own, due.named, ← hsponsor, ← hhash]
      rw [List.map_cons, List.sum_cons, ih hrest, hthis, ← paidFor_append]
      rfl

end

/-- What every run of a chain keeps of the payments. -/
structure PayoutsKept [Externals] (ctx : Context) (genesis : BlockHeader)
    (blocks : List AppliedBlock) (chain : Blockchain) (l : Ledger) : Prop where
  reached : Reached ctx.own .chain l
  first : chain.headerAt 0 = .ok genesis
  time : payTime chain chain.length = signingTime genesis chain.length
  held : HeldTime chain.lastHeader
  viewed : ViewedBy l.documents chain.lastHeader.timeSigned
  built : ∃ past, Built past l.documents ∧ (∀ standing ∈ past, standing.1.Clear standing.2) ∧
    ∀ hash, paidOut past hash = paidIn ctx blocks hash
  awaited : ∀ b ∈ blocks, ∀ hash amount, b.Sponsors hash amount →
    Awaited genesis l.documents hash amount
  known : ∀ b ∈ blocks, ∀ hash, b.Ends ctx hash → ∃ number,
    l.documents.hashToBlock[hash]? = some number
  exact : PaysExactly ctx blocks

theorem payTime_next (chain : Blockchain) :
    payTime chain chain.length = chain.lastHeader.timeSigned + blockMineDelay := by
  have hnumber := chain.lastHeader_number
  rw [payTime, ← hnumber, Nat.add_sub_cancel_left, Nat.mul_one]

section
variable [Externals] {ctx : Context} {genesis : SignedBlock} {blocks : List AppliedBlock}
  {chain : Blockchain} {l : Ledger}

/-- A chain of the genesis block alone pays nothing. -/
theorem PayoutsKept.start (hchain : Blockchain.start genesis = .ok chain)
    (h : increaseRewards (ctx.withChain chain) genesis.blockDetails.rewards default = .ok l)
    (held : HeldTime genesis.blockDetails.header) :
    PayoutsKept ctx genesis.blockDetails.header [] chain l := by
  have hblocks := Blockchain.start_blocks hchain
  have hdocs : l.documents = default := increaseRewards_documents h
  have hlast : chain.lastHeader = genesis.blockDetails.header := by
    rw [Blockchain.lastHeader, Blockchain.lastBlock]
    simp only [hblocks, List.getLast_singleton]
  have hlength : chain.length = 1 := by rw [Blockchain.length, hblocks, List.length_singleton]
  refine ⟨Reached.start.increase rfl h, ?_, ?_, hlast ▸ held, ?_, ⟨[], ?_, ?_, fun _ => rfl⟩, ?_,
    ?_, ?_⟩
  · rw [Blockchain.headerAt, Blockchain.blockAt, hblocks]
    rfl
  · rw [payTime_next, hlast, hlength, signingTime, Nat.mul_one]
  · rw [hdocs]
    intro uri cusi stored
    exact absurd stored (by simp [show (default : Documents).sponsored = ∅ from rfl])
  · rw [hdocs]
    exact .start (.refl _)
  · exact List.forall_mem_nil _
  · exact List.forall_mem_nil _
  · exact List.forall_mem_nil _
  · rintro hash amount ⟨b, hmem, _⟩
    cases hmem

end

/-- What a block does to the sponsorships, from the documents it is applied to. The ledger in
between is the one that its rewards are granted on. -/
structure BlockCalls [Externals] (ctx : Context) (b : AppliedBlock) (genesis : BlockHeader)
    (calls past : StandingCalls) (mid docs : Documents) : Prop where
  built : Built (calls ++ past) docs
  clear : ∀ standing ∈ calls, standing.1.Clear standing.2
  paid : ∀ hash, paidOut calls hash = paidFor hash (b.payments ctx)
  first : ∀ time, Advances time b.start.documents mid
  second : Advances (payTime b.chain b.chain.length) mid docs
  fresh : ∀ hash amount, b.Sponsors hash amount → b.start.documents.hashToBlock[hash]? = none
  awaited : ∀ hash amount, b.Sponsors hash amount → Awaited genesis mid hash amount
  known : ∀ hash, b.Ends ctx hash → ∃ number, mid.hashToBlock[hash]? = some number
  ended : ∀ hash amount, b.Ends ctx hash → Awaited genesis mid hash amount →
    amount.value ≤ paidOut (calls ++ past) hash

section
variable [Externals] {ctx : Context} {b : AppliedBlock} {genesis : BlockHeader}
  {past : StandingCalls} {chain : Blockchain} {l : Ledger}

/-- The calls of a block that is applied. -/
theorem blockCalls_of_replay (empty : Externals.EmptyNoUri)
    (keyed : Externals.publicKey "" ≠ .ok ()) (hashed : ∀ s, Externals.hash s ≠ "")
    (reached : Reached ctx.own .chain b.start)
    (built : Built past b.start.documents) (clear : ∀ standing ∈ past, standing.1.Clear standing.2)
    (first : b.chain.headerAt 0 = .ok genesis) (since : 0 ≤ genesis.timeSigned)
    (time : payTime b.chain b.chain.length = signingTime genesis b.chain.length)
    (held : HeldTime b.chain.lastHeader)
    (viewed : ViewedBy b.start.documents b.chain.lastHeader.timeSigned)
    (signed : Externals.publicKey b.signedBlock.authorization.address = .ok ())
    (valid : ∀ st ∈ b.block.signedTransactions, actionValidate ctx.config st true = .ok ())
    (hclear : b.Clear ctx) (h : replayBlock ctx b.signedBlock (b.chain, b.start) = .ok (chain, l)) :
    ∃ calls mid, BlockCalls ctx b genesis calls past mid l.documents ∧
      Reached ctx.own .chain l := by
  obtain ⟨miner, hminer, h⟩ := bind_ok_iff.mp h
  obtain ⟨_, happly, h⟩ := bind_ok_iff.mp h
  obtain ⟨_, hinsert, h⟩ := bind_ok_iff.mp h
  cases pure_ok_iff.mp h
  obtain ⟨mid, hrun, happly⟩ := bind_ok_iff.mp happly
  obtain ⟨⟨mismatch, granted⟩, hcheck, happly⟩ := bind_ok_iff.mp happly
  obtain ⟨found, hgranted, hcheck⟩ := bind_ok_iff.mp hcheck
  cases pure_ok_iff.mp hcheck
  obtain ⟨_, hincrease⟩ := require_bind_ok_iff.mp happly
  change runAll (applyMined (ctx.withChain b.chain) miner) b.block.signedTransactions b.start =
    .ok mid at hrun
  change grantRewards (ctx.withChain b.chain) b.block miner .apply mid = .ok granted at hgranted
  have hsigned : b.signedBlock.authorization.address ≠ "" := by
    intro hnone
    rw [hnone] at signed
    exact keyed signed
  have layer : layerOf miner = .chain := if_neg (getMiner_ne_empty hsigned hminer)
  have hledger (transactions : List SignedTransaction) : b.ledgerAfter ctx transactions =
      runAll (applyMined (ctx.withChain b.chain) miner) transactions b.start := by
    rw [AppliedBlock.ledgerAfter, hminer]
    rfl
  have htransactions : ∃ cancelled calls, TransactionCalls (ctx.withChain b.chain) miner genesis
      b.block.signedTransactions cancelled calls past b.start mid :=
    transactionCalls_of_run empty keyed layer first since reached built valid
      (fun before st rest mid hsplit hmid => hclear.transactions before st rest mid hsplit
        ((hledger before).trans hmid)) hrun
  obtain ⟨cancelled, calls, hcalls⟩ := htransactions
  have hlayer := reached
  rw [← layer] at hlayer
  have hmid : Reached ctx.own .chain mid := by
    have hfilled := hcalls.filled.reached hlayer
    rwa [layer] at hfilled
  have hnext := payTime_next b.chain
  have hdelay : (blockMineDelay : ℤ) = 600 := rfl
  have hnumber : b.number = b.chain.length := (Blockchain.insert_ok_iff.mp hinsert).1
  have hbefore : ∀ (uri : String) cusi, mid.documents.sponsored[uri]? = some cusi →
      ∀ tp ∈ cusi.timePointsUsed.tail, tp < payTime b.chain b.chain.length := by
    intro uri cusi stored tp htp
    have hold := (hcalls.advances _).viewed viewed uri cusi stored tp htp
    omega
  have hpaidBefore : ∀ standing ∈ calls ++ past, standing.1.Clear standing.2 :=
    List.forall_mem_append.mpr ⟨hcalls.clear, clear⟩
  have hsince : 0 ≤ payTime b.chain b.chain.length := by
    have hheld := held.1
    omega
  obtain ⟨later, returned, expired, hgrant, hreturned, hcancelled⟩ := grantedCalls hgranted
    hcalls.built hpaidBefore (hmid.entriesNamed hashed) hnumber hsince hbefore
    (fun viewed hviewed uri huri => hclear.inTime mid viewed ((hledger _).trans hrun) hviewed uri
      (hnumber ▸ huri))
  have htakes := hcalls.filled.takesBack empty keyed layer hlayer
  have hpayments : b.payments ctx = granted.appliedSponsorItems ++ granted.returned := by
    rw [AppliedBlock.payments, AppliedBlock.granted, hminer, ok_bind, hledger, hrun, ok_bind,
      hgranted]
  have hback (hash : String) : (cancelled.map fun c =>
      paidFor hash (paidBack (ctx.withChain b.chain) c)).sum = paidFor hash returned := by
    rw [← hcalls.filled.cancelled_eq, List.forall₂_map_left_iff] at hcancelled
    exact paidBack_eq
      (paysBack_of_returnsCancelled hcancelled fun pair hpair => (htakes pair hpair).2) hcalls.left
  have hdocs := increaseRewards_documents hincrease
  have hsponsored {hash : String} {amount : Coin} (h : b.Sponsors hash amount) :
      b.start.documents.hashToBlock[hash]? = none ∧ Awaited genesis mid.documents hash amount := by
    obtain ⟨st, hmem, rfl, spi, haction, hamount⟩ := h
    exact ⟨hcalls.fresh st hmem spi haction, hcalls.sponsors st hmem spi haction amount hamount⟩
  have hcancels {st : SignedTransaction} {cancel : CancelSponsorContentUnit}
      (hmem : st ∈ b.block.signedTransactions)
      (haction : st.transactionDetails.action = .cancelSponsorContentUnit cancel) :
      cancel.transactionHash ≠ "" ∧ ∃ amount, mid.documents.CancelledFor cancel.transactionHash
        amount := by
    have hnamed : cancel ∈ cancels b.block.signedTransactions :=
      List.mem_filterMap.mpr ⟨st, hmem, by rw [haction]⟩
    rw [← hcalls.filled.cancelled_eq] at hnamed
    obtain ⟨pair, hpair, rfl⟩ := List.mem_map.mp hnamed
    obtain ⟨named, _, _, part, _, kept⟩ := htakes pair hpair
    exact ⟨named, part, kept⟩
  refine ⟨later ++ calls, mid.documents, ⟨?_, ?_, fun hash => ?_, hcalls.advances, ?_,
    fun hash amount h => (hsponsored h).1, fun hash amount h => (hsponsored h).2, ?_, ?_⟩, ?_⟩
  · rw [hdocs, List.append_assoc]
    exact hgrant.rewards.built
  · exact List.forall_mem_append.mpr ⟨hgrant.rewards.clear, hcalls.clear⟩
  · rw [paidOut_append, hgrant.paid, hcalls.paid, hback, hpayments, hreturned, paidFor_append,
      paidFor_append]
    omega
  · rw [hdocs]
    exact hgrant.rewards.advances
  · rintro hash (⟨st, hmem, cancel, haction, rfl⟩ | ⟨found, hfound, hends⟩)
    · obtain ⟨_, amount, kept⟩ := hcancels hmem haction
      obtain ⟨entry, hentry, _⟩ := kept.entry
      obtain ⟨number, hknown, _⟩ := expirationEntryByHash_ok_iff.mp hentry
      exact ⟨number, hknown⟩
    · rw [hledger, hrun] at hfound
      cases hfound
      exact ⟨b.number, hends⟩
  · rintro hash amount ends ⟨uri, itemEnd, number, hsponsored, hend⟩
    rw [List.append_assoc]
    rcases ends with ⟨st, hmem, cancel, haction, rfl⟩ | ⟨found, hfound, hends⟩
    · obtain ⟨named, part, kept⟩ := hcancels hmem haction
      have hkept := kept.steps named hmid.sound.sponsorships (grantRewards_steps hgranted)
      obtain ⟨place, marked⟩ := hkept.marked
      have hstays := hgrant.rewards.advances.sponsored _ _ _ _ _ hsponsored
      have hclears : ∀ standing ∈ later ++ (calls ++ past), standing.1.Clear standing.2 :=
        List.forall_mem_append.mpr ⟨hgrant.rewards.clear, hpaidBefore⟩
      rw [hstays.paidOut_of_marked hgrant.rewards.built hclears marked]
    · rw [hledger, hrun] at hfound
      cases hfound
      cases hsponsored.1.symm.trans (hends.trans (congrArg some hnumber))
      exact hgrant.ended uri hash amount itemEnd hsponsored (time ▸ hend)
  · exact (hmid.grant hgranted).increase rfl hincrease

end

section
variable [Externals] {ctx : Context} {b : AppliedBlock} {genesis : BlockHeader}
  {blocks : List AppliedBlock} {chain : Blockchain} {l : Ledger}

theorem paidIn_cons (hash : String) :
    paidIn ctx (b :: blocks) hash = paidFor hash (b.payments ctx) + paidIn ctx blocks hash :=
  List.sum_cons

omit [Externals] in
theorem ViewedBy.mono {docs : Documents} {time later : ℤ} (viewed : ViewedBy docs time)
    (h : time ≤ later) : ViewedBy docs later :=
  fun uri cusi stored tp htp => (viewed uri cusi stored tp htp).trans h

/-- A block more keeps the payments exact. -/
theorem PayoutsKept.connect (empty : Externals.EmptyNoUri) (keyed : Externals.publicKey "" ≠ .ok ())
    (hashed : ∀ s, Externals.hash s ≠ "") (since : 0 ≤ genesis.timeSigned)
    (kept : PayoutsKept ctx genesis blocks b.chain b.start)
    (signed : Externals.publicKey b.signedBlock.authorization.address = .ok ())
    (next : Next b.chain.lastHeaderEx b.signedBlock.headerEx)
    (valid : ∀ st ∈ b.block.signedTransactions, actionValidate ctx.config st true = .ok ())
    (clear : b.Clear ctx) (h : replayBlock ctx b.signedBlock (b.chain, b.start) = .ok (chain, l)) :
    PayoutsKept ctx genesis (b :: blocks) chain l := by
  obtain ⟨past, built, standing, hpast⟩ := kept.built
  obtain ⟨calls, mid, hcalls, hreached⟩ := blockCalls_of_replay empty keyed hashed kept.reached
    built standing kept.first since kept.time kept.held kept.viewed signed valid clear h
  obtain ⟨_, _, h⟩ := bind_ok_iff.mp h
  obtain ⟨_, _, h⟩ := bind_ok_iff.mp h
  obtain ⟨_, hinsert, h⟩ := bind_ok_iff.mp h
  cases pure_ok_iff.mp h
  have hlast : chain.lastHeader = b.block.header := by
    rw [Blockchain.lastHeader, Blockchain.lastBlock_insert hinsert]
    rfl
  have hlength : chain.length = b.chain.length + 1 := Blockchain.length_insert hinsert
  have htime : b.block.header.timeSigned = payTime b.chain b.chain.length := by
    have hnext := (next_iff.mp next).2.2.2.2.2.2
    obtain ⟨hlow, hhigh⟩ := kept.held
    obtain ⟨low, high⟩ := clear.held
    change clockSeconds (b.block.header.timeSigned - b.chain.lastHeader.timeSigned) = _ at hnext
    rw [clockSeconds_eq (by omega) (by omega)] at hnext
    rw [payTime_next]
    omega
  have hdelay : (blockMineDelay : ℤ) = 600 := rfl
  have hwhole (hash : String) : paidOut (calls ++ past) hash = paidIn ctx (b :: blocks) hash := by
    rw [paidOut_append, hcalls.paid, hpast, paidIn_cons]
  have hawaited : ∀ other ∈ b :: blocks, ∀ hash amount, other.Sponsors hash amount →
      Awaited genesis mid hash amount := by
    rw [List.forall_mem_cons]
    exact ⟨hcalls.awaited, fun other hmem hash amount sponsors =>
      (kept.awaited other hmem hash amount sponsors).advance (hcalls.first 0)⟩
  have hknown : ∀ other ∈ b :: blocks, ∀ hash, other.Ends ctx hash → ∃ number,
      mid.hashToBlock[hash]? = some number := by
    rw [List.forall_mem_cons]
    refine ⟨hcalls.known, fun other hmem hash ends => ?_⟩
    obtain ⟨number, hnumber⟩ := kept.known other hmem hash ends
    exact ⟨number, (hcalls.first 0).known hash number hnumber⟩
  have hle : ∀ other ∈ b :: blocks, ∀ hash amount, other.Sponsors hash amount →
      paidIn ctx (b :: blocks) hash ≤ amount.value := by
    intro other hmem hash amount sponsors
    obtain ⟨uri, itemEnd, number, sponsored, _⟩ :=
      (hawaited other hmem hash amount sponsors).advance hcalls.second
    rw [← hwhole]
    exact sponsored.paidOut_le hcalls.built (List.forall_mem_append.mpr ⟨hcalls.clear, standing⟩)
  refine ⟨hreached, ?_, ?_, hlast ▸ clear.held, ?_, ⟨_, hcalls.built,
    List.forall_mem_append.mpr ⟨hcalls.clear, standing⟩, hwhole⟩, ?_, ?_, ?_⟩
  · have hfirst := kept.first
    rw [Blockchain.headerAt, Blockchain.blockAt] at hfirst ⊢
    rw [(Blockchain.insert_ok_iff.mp hinsert).2, List.getElem?_append_left b.chain.length_pos]
    exact hfirst
  · rw [payTime_next, hlast, htime, kept.time, hlength]
    unfold signingTime
    rw [Nat.mul_add, Nat.mul_one]
    omega
  · rw [hlast, htime]
    apply hcalls.second.viewed
    have hnext := payTime_next b.chain
    exact ((hcalls.first _).viewed kept.viewed).mono (by omega)
  · exact fun other hmem hash amount sponsors =>
      (hawaited other hmem hash amount sponsors).advance hcalls.second
  · intro other hmem hash ends
    obtain ⟨number, hnumber⟩ := hknown other hmem hash ends
    exact ⟨number, hcalls.second.known hash number hnumber⟩
  · rintro hash amount ⟨sponsor, hsponsor, sponsors⟩
    refine ⟨hle sponsor hsponsor hash amount sponsors, ?_⟩
    rintro ⟨ending, hending, ends⟩
    refine (hle sponsor hsponsor hash amount sponsors).antisymm ?_
    rcases List.mem_cons.mp hending with rfl | hearlier
    · rw [← hwhole]
      exact hcalls.ended hash amount ends (hawaited sponsor hsponsor hash amount sponsors)
    · -- it has ended before, and was sponsored before
      rcases List.mem_cons.mp hsponsor with rfl | hbefore
      · obtain ⟨number, hnumber⟩ := kept.known ending hearlier hash ends
        cases (hcalls.fresh hash amount sponsors).symm.trans hnumber
      · have hexact := (kept.exact hash amount ⟨sponsor, hbefore, sponsors⟩).2
          ⟨ending, hearlier, ends⟩
        rw [paidIn_cons, hexact]
        exact Nat.le_add_left _ _

end

/-- The blocks of a chain that call on no sponsor at the wrong time pay each sponsorship exactly. -/
theorem BlockRun.payoutsKept [Externals] {ctx : Context} {genesis : SignedBlock}
    {blocks : List AppliedBlock} {chain : Blockchain} {l : Ledger} (empty : Externals.EmptyNoUri)
    (keyed : Externals.publicKey "" ≠ .ok ()) (hashed : ∀ s, Externals.hash s ≠ "")
    (held : HeldTime genesis.blockDetails.header) (run : BlockRun ctx genesis blocks chain l)
    (clear : ∀ b ∈ blocks, b.Clear ctx) :
    PayoutsKept ctx genesis.blockDetails.header blocks chain l := by
  induction run with
  | genesis hchain h => exact .start hchain h held
  | connect _ signed next valid h ih =>
      rw [List.forall_mem_cons] at clear
      exact (ih clear.2).connect empty keyed hashed held.1 signed next valid clear.1 h

/-- In every chain whose blocks call on no sponsor at the wrong time, no sponsorship pays more than
its amount, and one that was cancelled or has ended has paid all of it. -/
theorem payouts_exact [Externals] {ctx : Context} {genesis : SignedBlock}
    {blocks : List AppliedBlock} {chain : Blockchain} {l : Ledger} (empty : Externals.EmptyNoUri)
    (keyed : Externals.publicKey "" ≠ .ok ()) (hashed : ∀ s, Externals.hash s ≠ "")
    (held : HeldTime genesis.blockDetails.header) (run : BlockRun ctx genesis blocks chain l)
    (clear : ∀ b ∈ blocks, b.Clear ctx) : PaysExactly ctx blocks :=
  (run.payoutsKept empty keyed hashed held clear).exact

section Examples

/-- A node that takes every key and signature but the empty key, reads a hash from every text but
the empty one, and writes the transactions of different times as different texts. -/
@[reducible] def payoutExternals : Externals :=
  { readingExternals with
    signedTransactionToString := fun st =>
      if st.transactionDetails.creation = 10001 then "late" else ""
    hash := fun s => if s = "" then "hash" else s
    publicKey := fun s => if s = "" then .error (.runtimeError "invalid public key") else .ok () }

local instance payingExternals : Externals := payoutExternals

theorem payout_keyed : Externals.publicKey "" ≠ .ok () := by decide

theorem payout_hashed (s : String) : Externals.hash s ≠ "" := by
  change (if s = "" then "hash" else s) ≠ ""
  split_ifs with h
  · decide
  · exact h

def fundingGenesis : SignedBlock :=
  ⟨⟨⟨0, 0, 0, 1, "", 10000⟩, [⟨"channel", ⟨100000, 0⟩, .initial⟩], []⟩, ⟨"own", ""⟩⟩

def byChannelAt (creation : ℤ) (action : Action) : SignedTransaction :=
  ⟨⟨creation, 11000, 0, action⟩, [⟨"channel", ""⟩]⟩

def registerUnit : List SignedTransaction :=
  [byChannelAt 10000 (.role ⟨"channel", .channel⟩),
    byChannelAt 10000 (.file ⟨"file", ["channel"]⟩),
    byChannelAt 10000 (.contentUnit ⟨"unit", 0, ["channel"], "channel", ["file"]⟩)]

def sponsorTomorrow : SignedTransaction :=
  byChannelAt 10000 (.sponsorContentUnit ⟨"channel", "unit", 100000, 1, ⟨500, 0⟩⟩)

def sponsorLastHour : SignedTransaction :=
  byChannelAt 10001 (.sponsorContentUnit ⟨"channel", "unit", 7000, 1, ⟨1000, 0⟩⟩)

def fundedStart : Checked (Blockchain × Ledger) := do
  let chain ← Blockchain.start fundingGenesis
  let l ← increaseRewards ((exampleNode "own" .blockchain).withChain chain)
    fundingGenesis.blockDetails.rewards default
  pure (chain, l)

def funded : Blockchain × Ledger := okValue fundedStart (by decide +kernel)

theorem funded_run : BlockRun (exampleNode "own" .blockchain) fundingGenesis [] funded.1
    funded.2 := by
  have hfunded : fundedStart = .ok funded := eq_okValue _
  obtain ⟨chain, hchain, h⟩ := bind_ok_iff.mp hfunded
  obtain ⟨l, hl, h⟩ := bind_ok_iff.mp h
  rw [← pure_ok_iff.mp h]
  exact .genesis hchain hl

def sponsoringBlock (transactions : List SignedTransaction) (returned : List Reward) :
    AppliedBlock :=
  ⟨funded.1, funded.2, ⟨⟨⟨1, 1, 1, 1, "hash", 10600⟩,
    returned ++ [⟨"own", ⟨1000, 0⟩, .miner⟩], transactions⟩, ⟨"own", ""⟩⟩⟩

def AppliedBlock.replay (b : AppliedBlock) : Checked (Blockchain × Ledger) :=
  replayBlock (exampleNode "own" .blockchain) b.signedBlock (b.chain, b.start)

def endedBlock : AppliedBlock :=
  sponsoringBlock (registerUnit ++ [sponsorLastHour]) [⟨"channel", ⟨1000, 0⟩, .sponsoredReturn⟩]

def endedAfter : Blockchain × Ledger := okValue endedBlock.replay (by decide +kernel)

theorem endedBlock_valid : ∀ st ∈ endedBlock.block.signedTransactions,
    actionValidate (exampleNode "own" .blockchain).config st true = .ok () := by
  decide +kernel

theorem endedBlock_run : BlockRun (exampleNode "own" .blockchain) fundingGenesis [endedBlock]
    endedAfter.1 endedAfter.2 := by
  have hnext : checkHeaders endedBlock.signedBlock.headerEx endedBlock.chain.lastHeaderEx =
    false := by decide +kernel
  have hafter : endedBlock.replay = .ok endedAfter := eq_okValue _
  exact .connect funded_run (by decide) hnext endedBlock_valid hafter

def endedLedger : Ledger := okValue (endedBlock.ledgerAfter (exampleNode "own" .blockchain)
  endedBlock.block.signedTransactions) (by decide +kernel)

def unitLedger : Ledger := okValue (endedBlock.ledgerAfter (exampleNode "own" .blockchain)
  registerUnit) (by decide +kernel)

theorem endedBlock_clear : endedBlock.Clear (exampleNode "own" .blockchain) := by
  refine ⟨⟨by decide, by decide⟩, fun before st rest l hsplit hl => ?_,
    fun l viewed hl _ uri _ cusi stored => .inl ?_⟩
  · change registerUnit ++ [sponsorLastHour] = before ++ st :: rest at hsplit
    have hcases : st ∈ registerUnit ∨ before = registerUnit ∧ st = sponsorLastHour := by
      rcases List.append_eq_append_iff.mp hsplit with
        ⟨more, hbefore, hlast⟩ | ⟨more, hfirst, hrest⟩
      · cases more with
        | nil =>
            cases hlast
            exact .inr ⟨hbefore.trans (List.append_nil _), rfl⟩
        | cons _ more => simp at hlast
      · cases more with
        | nil =>
            cases hrest
            exact .inr ⟨(hfirst.trans (List.append_nil _)).symm, rfl⟩
        | cons found more =>
            obtain ⟨rfl, _⟩ := List.cons.inj hrest
            exact .inl (hfirst ▸ List.mem_append_right _ List.mem_cons_self)
    rcases hcases with hmem | ⟨rfl, rfl⟩
    · simp only [registerUnit, List.mem_cons, List.not_mem_nil, or_false] at hmem
      rcases hmem with rfl | rfl | rfl
      · trivial
      · trivial
      · trivial
    · have hunit : l = unitLedger := Except.ok.inj (hl.symm.trans (eq_okValue _))
      subst hunit
      exact ⟨by decide +kernel, by decide +kernel, by decide +kernel⟩
  · have hended : l = endedLedger := Except.ok.inj (hl.symm.trans (eq_okValue _))
    subst hended
    have hall : endedLedger.documents.sponsored.toList.all (fun p =>
        lastUsed p.2 < payTime endedBlock.chain endedBlock.chain.length) = true := by decide +kernel
    have hthis := List.all_eq_true.mp hall _
      (Std.ExtTreeMap.mem_toList_iff_getElem?_eq_some.mpr stored)
    exact of_decide_eq_true hthis

/-- The sponsorship of the last hour is paid back with the block. -/
theorem endedBlock_paysExactly : PaysExactly (exampleNode "own" .blockchain) [endedBlock] :=
  payouts_exact readingExternals_emptyNoUri payout_keyed payout_hashed ⟨by decide, by decide⟩
    endedBlock_run (List.forall_mem_singleton.mpr endedBlock_clear)

def skippedBlock : AppliedBlock :=
  sponsoringBlock (registerUnit ++ [sponsorTomorrow, sponsorLastHour]) []

def skippedAfter : Blockchain × Ledger := okValue skippedBlock.replay (by decide +kernel)

theorem skippedBlock_run : BlockRun (exampleNode "own" .blockchain) fundingGenesis [skippedBlock]
    skippedAfter.1 skippedAfter.2 := by
  have hnext : checkHeaders skippedBlock.signedBlock.headerEx skippedBlock.chain.lastHeaderEx =
    false := by decide +kernel
  have hvalid : ∀ st ∈ skippedBlock.block.signedTransactions,
    actionValidate (exampleNode "own" .blockchain).config st true = .ok () := by decide +kernel
  have hafter : skippedBlock.replay = .ok skippedAfter := eq_okValue _
  exact .connect funded_run (by decide) hnext hvalid hafter

def skippedLedger : Ledger := okValue (skippedBlock.ledgerAfter (exampleNode "own" .blockchain)
  skippedBlock.block.signedTransactions) (by decide +kernel)

/-- A sponsorship that ends with its block is not paid, because the unit is sponsored for the next
day too. -/
theorem skippedBlock_unpaid : ¬ ∀ (ctx : Context) (genesis : SignedBlock)
    (blocks : List AppliedBlock) (chain : Blockchain) (l : Ledger),
    HeldTime genesis.blockDetails.header → BlockRun ctx genesis blocks chain l →
    PaysExactly ctx blocks := by
  intro claim
  have hexact := claim _ _ _ _ _ ⟨by decide, by decide⟩ skippedBlock_run
  have hsponsors : skippedBlock.Sponsors "late" ⟨1000, 0, by decide⟩ :=
    ⟨sponsorLastHour, by decide +kernel, by decide +kernel, _, rfl, by decide +kernel⟩
  have hends : skippedBlock.Ends (exampleNode "own" .blockchain) "late" :=
    .inr ⟨skippedLedger, eq_okValue _, by decide +kernel⟩
  have hpaid := (hexact "late" _ ⟨skippedBlock, List.mem_singleton_self _, hsponsors⟩).2
    ⟨skippedBlock, List.mem_singleton_self _, hends⟩
  have hnothing : paidIn (exampleNode "own" .blockchain) [skippedBlock] "late" = 0 := by
    decide +kernel
  rw [hnothing] at hpaid
  have hamount : (⟨1000, 0, by decide⟩ : Coin).value ≠ 0 := by decide +kernel
  exact hamount hpaid.symm

end Examples

end Publiq
