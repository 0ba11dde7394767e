import Publiq.LedgerRun
import Publiq.Published

/-! A transaction whose fee cannot be paid is applied and taken back. What `action_revert`
takes back is what `action_apply` has done. -/
namespace Publiq
open Message Checked

namespace State

theorem eq_of_decreaseBalance_increaseBalance {own key : String} {amount : Coin}
    {layer : StateLayer} {s t : State} (balances : s.OwnBalance own layer)
    (h : decreaseBalance own key amount layer (increaseBalance own key amount layer s) = .ok t) :
    t = s := by
  have fits : s.worth key + amount.value < Coin.limit := by
    have hle := decreaseBalance_le h
    rw [worth, increaseBalance_accounts, SparseMap.get_set_self, Coin.value_add_mod] at hle
    have hworth := (s.accounts.get key).value_bound
    have hamount := amount.value_bound
    unfold worth
    by_contra hnot
    rw [Nat.mod_eq_sub_mod (not_lt.mp hnot), Nat.mod_eq_of_lt (by omega)] at hle
    omega
  rw [decreaseBalance_increaseBalance balances.synced fits] at h
  exact (Except.ok.inj h).symm

end State

namespace Documents

theorem getElem?_of_contains {ν : Type} {table : Std.ExtTreeMap String ν} {key : String}
    (absent : table.contains key = false) : table[key]? = none := by
  apply Std.ExtTreeMap.getElem?_eq_none
  rw [Std.ExtTreeMap.mem_iff_contains, absent]
  simp

theorem erase_insertIfNew {ν : Type} {table : Std.ExtTreeMap String ν} {key : String}
    (absent : table.contains key = false) (v : ν) : (table.insertIfNew key v).erase key = table := by
  have hnone := getElem?_of_contains absent
  apply Std.ExtTreeMap.ext_getElem?
  intro other
  rw [Std.ExtTreeMap.getElem?_erase, Std.ExtTreeMap.getElem?_insertIfNew]
  by_cases hkey : key = other
  · simp [← hkey, hnone]
  · simp [hkey]

theorem removeFile_insertFile {docs : Documents} {file : File} (named : file.uri ≠ "")
    (absent : docs.fileExists file.uri = false) :
    (docs.insertFile file).removeFile file.uri = docs := by
  have hnone : docs.files.contains file.uri = false := by simpa [fileExists, named] using absent
  rw [removeFile, insertFile]
  dsimp only
  rw [erase_insertIfNew hnone]

theorem removeUnit_insertUnit {docs : Documents} {unit : ContentUnit} (named : unit.uri ≠ "")
    (absent : docs.unitExists unit.uri = false) :
    (docs.insertUnit unit).removeUnit unit.uri = docs := by
  have hnone : docs.units.contains unit.uri = false := by simpa [unitExists, named] using absent
  rw [removeUnit, insertUnit]
  dsimp only
  rw [erase_insertIfNew hnone]

theorem storageUpdate_undo {docs : Documents} {uri address : String} {status : UpdateType}
    (new : docs.storageHasUri uri address = decide (status = .remove)) :
    (docs.storageUpdate uri address status).storageUpdate uri address
      (if status = .remove then .store else .remove) = docs := by
  unfold storageHasUri at new
  cases status with
  | store =>
      have habsent : address ∉ docs.storages.get uri := by simpa using new
      have hback : (docs.storages.set uri (insert address (docs.storages.get uri))).set uri
          (((docs.storages.set uri (insert address (docs.storages.get uri))).get uri).erase
            address) = docs.storages := by
        rw [SparseMap.get_set_self, Finset.erase_insert habsent, SparseMap.set_undo]
      exact congrArg (fun storages => { docs with storages }) hback
  | remove =>
      have hpresent : address ∈ docs.storages.get uri := by simpa using new
      have hback : (docs.storages.set uri ((docs.storages.get uri).erase address)).set uri
          (insert address
            ((docs.storages.set uri ((docs.storages.get uri).erase address)).get uri)) =
          docs.storages := by
        rw [SparseMap.get_set_self, Finset.insert_erase hpresent, SparseMap.set_undo]
      exact congrArg (fun storages => { docs with storages }) hback

end Documents

section
variable [Documents.EntrySort] {ctx : Context} {st : SignedTransaction} {layer : StateLayer}
  {l applied reverted : Ledger}

theorem Message.Transfer.revert_apply {a : Transfer} (sound : LedgerSound ctx.own layer l)
    (happly : a.actionApply ctx st layer l = .ok applied)
    (hrevert : a.actionRevert ctx st layer applied = .ok reverted) : reverted = l := by
  have happly := requireAuthority_bind happly
  obtain ⟨received, hreceived, hpaid⟩ := bind_ok_iff.mp happly
  obtain ⟨coin, hcoin, hreceived⟩ := bind_ok_iff.mp hreceived
  cases pure_ok_iff.mp hreceived
  obtain ⟨coin', hcoin', hpaid⟩ := bind_ok_iff.mp hpaid
  cases hcoin.symm.trans hcoin'
  obtain ⟨state, hstate, hpaid⟩ := bind_ok_iff.mp hpaid
  cases pure_ok_iff.mp hpaid
  obtain ⟨returned, hreturned, hrevert⟩ := bind_ok_iff.mp hrevert
  obtain ⟨coin', hcoin', hreturned⟩ := bind_ok_iff.mp hreturned
  cases hcoin.symm.trans hcoin'
  cases pure_ok_iff.mp hreturned
  obtain ⟨taken, htaken, hrevert⟩ := bind_ok_iff.mp hrevert
  obtain ⟨coin', hcoin', htaken⟩ := bind_ok_iff.mp htaken
  cases hcoin.symm.trans hcoin'
  obtain ⟨before, hbefore, htaken⟩ := bind_ok_iff.mp htaken
  cases pure_ok_iff.mp htaken
  have hrevert := requireAuthority_bind hrevert
  cases pure_ok_iff.mp hrevert
  have hmid := sound.balances.increaseBalance a.target coin
  dsimp only at hbefore hstate
  rw [State.increaseBalance_decreaseBalance hmid.synced hstate] at hbefore
  rw [State.eq_of_decreaseBalance_increaseBalance sound.balances hbefore]

omit [Documents.EntrySort] in
theorem Message.File.revert_apply {a : File} (named : a.uri ≠ "")
    (happly : a.actionApply st l = .ok applied)
    (hrevert : a.actionRevert st applied = .ok reverted) : reverted = l := by
  obtain ⟨_, _, happly⟩ := bind_ok_iff.mp happly
  obtain ⟨habsent, happly⟩ := require_bind_ok_iff.mp happly
  cases pure_ok_iff.mp happly
  obtain ⟨_, _, hrevert⟩ := bind_ok_iff.mp hrevert
  cases pure_ok_iff.mp hrevert
  dsimp only
  rw [Documents.removeFile_insertFile named habsent]

omit [Documents.EntrySort] in
theorem Message.ContentUnit.revert_apply {a : ContentUnit} (named : a.uri ≠ "")
    (happly : a.actionApply ctx st l = .ok applied)
    (hrevert : a.actionRevert st applied = .ok reverted) : reverted = l := by
  obtain ⟨_, _, happly⟩ := bind_ok_iff.mp happly
  split at happly
  · cases happly
  · obtain ⟨habsent, happly⟩ := require_bind_ok_iff.mp happly
    split at happly
    · cases happly
    · cases pure_ok_iff.mp happly
      obtain ⟨_, _, hrevert⟩ := bind_ok_iff.mp hrevert
      cases pure_ok_iff.mp hrevert
      dsimp only
      rw [Documents.removeUnit_insertUnit named habsent]

omit [Documents.EntrySort] in
theorem Message.Role.revert_apply {a : Role} (happly : a.actionApply ctx st l = .ok applied)
    (hrevert : a.actionRevert st applied = .ok reverted) : reverted = l := by
  have happly := requireAuthority_bind happly
  obtain ⟨_, happly⟩ := require_bind_ok_iff.mp happly
  obtain ⟨_, happly⟩ := require_bind_ok_iff.mp happly
  obtain ⟨_, _, happly⟩ := bind_ok_iff.mp happly
  obtain ⟨state, hstate, happly⟩ := bind_ok_iff.mp happly
  cases pure_ok_iff.mp happly
  obtain ⟨habsent, hstate⟩ := require_bind_ok_iff.mp hstate
  cases pure_ok_iff.mp hstate
  have hrevert := requireAuthority_bind hrevert
  cases pure_ok_iff.mp hrevert
  have hroles := Documents.erase_insert_of_none (Documents.getElem?_of_contains habsent) a
  unfold State.removeRole
  dsimp only
  rw [hroles]

omit [Documents.EntrySort] in
theorem Message.StorageUpdate.revert_apply {a : StorageUpdate}
    (happly : a.actionApply st l = .ok applied)
    (hrevert : a.actionRevert st applied = .ok reverted) : reverted = l := by
  have happly := requireAuthority_bind happly
  obtain ⟨_, happly⟩ := require_bind_ok_iff.mp happly
  obtain ⟨_, happly⟩ := require_bind_ok_iff.mp happly
  obtain ⟨hnew, happly⟩ := require_bind_ok_iff.mp happly
  cases pure_ok_iff.mp happly
  have hrevert := requireAuthority_bind hrevert
  cases pure_ok_iff.mp hrevert
  have hbefore : l.documents.storageHasUri a.fileUri a.storageAddress =
      decide (a.status = .remove) := by
    unfold isRepeated at hnew
    cases hstatus : a.status with
    | store => simpa [hstatus] using hnew
    | remove => simpa [hstatus] using hnew
  dsimp only
  rw [Documents.storageUpdate_undo hbefore]

theorem Message.AuthorizationUpdate.revert_apply {a : AuthorizationUpdate}
    (sound : LedgerSound ctx.own layer l) (happly : a.actionApply st l = .ok applied)
    (hrevert : a.actionRevert applied = .ok reverted) : reverted = l := by
  have happly := requireAuthority_bind happly
  obtain ⟨m, hm, rfl⟩ := onAuthorities_ok_iff.mp happly
  obtain ⟨n, hn, rfl⟩ := onAuthorities_ok_iff.mp hrevert
  rw [AuthorizationUpdate.revert_rewrite sound.normal hm] at hn
  cases hn
  rfl

omit [Documents.EntrySort] in
theorem requireAuthority_same {l after : Ledger} {rtt : ℕ} {owner signer : String} {e e' : Failure}
    (h : l.requireAuthority owner signer rtt e = .ok ())
    (same : after.authorityManager = l.authorityManager) :
    after.requireAuthority owner signer rtt e' = .ok () := by
  obtain ⟨permitted, hpermitted, h⟩ := bind_ok_iff.mp h
  rw [Ledger.requireAuthority, same, hpermitted, ok_bind, require_true (require_ok_iff.mp h)]

/-- A sponsorship of the transaction, taken back again, leaves the others of its unit in the order
that they had. -/
def KeepsIndex [Externals] (st : SignedTransaction) (l : Ledger) : Prop :=
  ∀ spi, st.transactionDetails.action = .sponsorContentUnit spi →
    ∀ unit, l.documents.sponsored[spi.uri]? = some unit →
    ∀ amount, Coin.ofMessage spi.amount = .ok amount →
      Documents.KeepsOrder unit (Documents.newSponsorship spi amount (transactionHash st))

theorem Message.SponsorContentUnit.revert_apply_iff [Externals] {a : SponsorContentUnit}
    (sound : LedgerSound ctx.own layer l)
    (fresh : l.documents.hashToBlock[transactionHash st]? = none)
    (happly : a.actionApply ctx st layer l = .ok applied) :
    ∃ reverted, a.actionRevert ctx st layer applied = .ok reverted ∧
      (reverted = l ↔ ∀ unit, l.documents.sponsored[a.uri]? = some unit →
        ∀ amount, Coin.ofMessage a.amount = .ok amount →
          Documents.KeepsOrder unit (Documents.newSponsorship a amount (transactionHash st))) := by
  obtain ⟨_, hpermitted, happly⟩ := bind_ok_iff.mp happly
  obtain ⟨_, happly⟩ := require_bind_ok_iff.mp happly
  obtain ⟨coin, hcoin, happly⟩ := bind_ok_iff.mp happly
  obtain ⟨mid, hmid, happly⟩ := bind_ok_iff.mp happly
  obtain ⟨state, hstate, hmid⟩ := bind_ok_iff.mp hmid
  cases pure_ok_iff.mp hmid
  obtain ⟨docs, hdocs, happly⟩ := bind_ok_iff.mp happly
  cases pure_ok_iff.mp happly
  obtain ⟨back, hback, hkeeps⟩ := Documents.sponsorContentUnitRevert_apply_iff sound.sponsorships
    fresh (Coin.toMessage_ofMessage hcoin) hdocs
  have hreturned : state.increaseBalance ctx.own a.sponsorAddress coin layer = l.state :=
    State.increaseBalance_decreaseBalance sound.balances.synced hstate
  refine ⟨{ l with documents := back }, ?_, ?_⟩
  · refine bind_ok_iff.mpr ⟨_, bind_ok_iff.mpr ⟨coin, hcoin, rfl⟩, bind_ok_iff.mpr ⟨_,
      bind_ok_iff.mpr ⟨_, hback, rfl⟩,
      bind_ok_iff.mpr ⟨_, requireAuthority_same hpermitted rfl, ?_⟩⟩⟩
    dsimp only
    rw [hreturned]
    rfl
  · have hledger : { l with documents := back } = l ↔ back = l.documents :=
      ⟨congrArg Ledger.documents, fun (hsame : back = l.documents) => by rw [hsame]⟩
    rw [hledger, hkeeps]
    constructor
    · intro keeps unit stored amount hamount
      cases hcoin.symm.trans hamount
      exact keeps unit stored
    · exact fun keeps unit stored => keeps unit stored coin hcoin

theorem Message.CancelSponsorContentUnit.revert_apply {a : CancelSponsorContentUnit}
    (sound : LedgerSound ctx.own layer l) (named : a.transactionHash ≠ "")
    (happly : a.actionApply ctx st l = .ok applied)
    (hrevert : a.actionRevert ctx st applied = .ok reverted) : reverted = l := by
  have happly := requireAuthority_bind happly
  obtain ⟨_, happly⟩ := require_bind_ok_iff.mp happly
  obtain ⟨⟨docs, payments⟩, hused, happly⟩ := bind_ok_iff.mp happly
  obtain ⟨_, happly⟩ := require_bind_ok_iff.mp happly
  cases pure_ok_iff.mp happly
  obtain ⟨⟨before, payments'⟩, hunused, hrevert⟩ := bind_ok_iff.mp hrevert
  obtain ⟨_, hrevert⟩ := require_bind_ok_iff.mp hrevert
  have hrevert := requireAuthority_bind hrevert
  cases pure_ok_iff.mp hrevert
  have hback := Documents.setUsed_undo sound.sponsorships
    (Documents.nextTo_length ctx.blockchain) named hused
  cases hback.symm.trans hunused
  rfl

omit [Documents.EntrySort] in
theorem Message.CancelSponsorContentUnit.hash_named [Externals] (empty : Externals.EmptyNoUri)
    {a : CancelSponsorContentUnit} {u : Unit} (valid : a.actionValidate st = .ok u) :
    a.transactionHash ≠ "" := by
  obtain ⟨_, valid⟩ := require_bind_ok_iff.mp valid
  obtain ⟨_, _, valid⟩ := bind_ok_iff.mp valid
  obtain ⟨_, _, valid⟩ := bind_ok_iff.mp valid
  obtain ⟨bytes, hbytes, valid⟩ := bind_ok_iff.mp valid
  have hread : requireUri a.transactionHash = .ok PUnit.unit := by
    rw [requireUri, hbytes, ok_bind, require_true (require_ok_iff.mp valid)]
  exact ne_empty_of_requireUri empty hread

/-- Reverting an action that was just applied gives back the ledger before it, but for the order
of the sponsorships of a unit. -/
theorem revert_apply_iff [Externals] (empty : Externals.EmptyNoUri) {config : Config}
    {checkComplete : Bool} (sound : LedgerSound ctx.own layer l)
    (valid : actionValidate config st checkComplete = .ok ()) (fresh : FreshSponsorship st l)
    (happly : actionApply ctx st layer l = .ok applied)
    (hrevert : actionRevert ctx st layer applied = .ok reverted) :
    reverted = l ↔ KeepsIndex st l := by
  have others (haction : ∀ spi, st.transactionDetails.action ≠ .sponsorContentUnit spi)
      (hsame : reverted = l) : reverted = l ↔ KeepsIndex st l :=
    iff_of_true hsame fun spi hspi => absurd hspi (haction spi)
  have named := named_of_actionValidate empty valid
  unfold SignedTransaction.Named at named
  obtain ⟨_, _, valid⟩ := bind_ok_iff.mp valid
  obtain ⟨_, _, happly⟩ := bind_ok_iff.mp happly
  obtain ⟨_, _, hrevert⟩ := bind_ok_iff.mp hrevert
  cases haction : st.transactionDetails.action with
  | transfer a =>
      rw [haction] at happly hrevert
      exact others (by simp [haction]) (a.revert_apply sound happly hrevert)
  | authorizationUpdate a =>
      rw [haction] at happly hrevert
      exact others (by simp [haction]) (a.revert_apply sound happly hrevert)
  | file a =>
      rw [haction] at happly hrevert named
      exact others (by simp [haction]) (a.revert_apply (named _ _ rfl) happly hrevert)
  | contentUnit a =>
      rw [haction] at happly hrevert named
      exact others (by simp [haction]) (a.revert_apply (named _ _ rfl) happly hrevert)
  | content a =>
      rw [haction] at happly hrevert
      have hrevert := requireAuthority_bind hrevert
      exact others (by simp [haction]) ((pure_ok_iff.mp hrevert).symm.trans (a.apply_eq happly))
  | role a =>
      rw [haction] at happly hrevert
      exact others (by simp [haction]) (a.revert_apply happly hrevert)
  | storageUpdate a =>
      rw [haction] at happly hrevert
      exact others (by simp [haction]) (a.revert_apply happly hrevert)
  | serviceStatistics a =>
      rw [haction] at happly hrevert
      have hrevert := requireAuthority_bind hrevert
      exact others (by simp [haction]) ((pure_ok_iff.mp hrevert).symm.trans (a.apply_eq happly))
  | sponsorContentUnit a =>
      rw [haction] at happly hrevert
      obtain ⟨back, hback, hkeeps⟩ := a.revert_apply_iff sound (fresh a haction) happly
      cases hback.symm.trans hrevert
      rw [hkeeps]
      constructor
      · intro keeps spi hspi
        cases haction.symm.trans hspi
        exact keeps
      · exact fun keeps => keeps a haction
  | cancelSponsorContentUnit a =>
      rw [haction] at happly hrevert valid
      exact others (by simp [haction]) (a.revert_apply sound (a.hash_named empty valid) happly hrevert)
  | unknown rtt =>
      rw [haction] at happly
      cases happly

/-- On the ledger a transaction that is rejected changes nothing, if it leaves the order of the
sponsorships. -/
theorem applyTransaction_refused [Externals] (empty : Externals.EmptyNoUri) {config : Config}
    {checkComplete : Bool} {key : String} (sound : LedgerSound ctx.own (layerOf key) l)
    (valid : actionValidate config st checkComplete = .ok ()) (fresh : FreshSponsorship st l)
    (keeps : ∀ applied, actionApply ctx st (layerOf key) l = .ok applied →
      feeCanApply st applied = .ok false → KeepsIndex st l)
    {after : Ledger} (h : applyTransaction ctx key st l = .ok (false, after)) : after = l := by
  obtain ⟨canApply, _, h⟩ := bind_ok_iff.mp h
  cases canApply with
  | false =>
      cases pure_ok_iff.mp h
      rfl
  | true =>
      obtain ⟨mid, hmid, h⟩ := bind_ok_iff.mp h
      obtain ⟨feeOk, hfee, h⟩ := bind_ok_iff.mp h
      cases feeOk with
      | false =>
          obtain ⟨reverted, hreverted, h⟩ := bind_ok_iff.mp h
          cases pure_ok_iff.mp h
          exact (revert_apply_iff empty sound valid fresh hmid hreverted).mpr (keeps mid hmid hfee)
      | true =>
          obtain ⟨paid, _, h⟩ := bind_ok_iff.mp h
          cases pure_ok_iff.mp h

omit [Documents.EntrySort] in
/-- Files are queued for one channel already when queueing them changes nothing. -/
theorem foldl_insert_eq_iff {queue : Std.ExtTreeMap String String}
    {requests : List (String × String)} {channel : String}
    (one : ∀ request ∈ requests, request.2 = channel) :
    requests.foldl (fun queue request => queue.insert request.1 request.2) queue = queue ↔
      ∀ request ∈ requests, queue[request.1]? = some request.2 := by
  have hread : ∀ (requests : List (String × String)) (queue : Std.ExtTreeMap String String),
      (∀ request ∈ requests, request.2 = channel) → ∀ key,
      (requests.foldl (fun queue request => queue.insert request.1 request.2) queue)[key]? =
        if key ∈ requests.map Prod.fst then some channel else queue[key]? := by
    intro requests
    induction requests with
    | nil => simp
    | cons request rest ih =>
        intro queue one key
        rw [List.forall_mem_cons] at one
        rw [List.foldl_cons, ih _ one.2, Std.ExtTreeMap.getElem?_insert, one.1, List.map_cons]
        by_cases hrest : key ∈ rest.map Prod.fst
        · rw [if_pos hrest, if_pos (List.mem_cons_of_mem _ hrest)]
        · by_cases hkey : request.1 = key
          · simp [hrest, hkey]
          · simp [hrest, hkey, Ne.symm hkey]
  constructor
  · intro h request hmem
    rw [← h, hread requests queue one, if_pos (List.mem_map_of_mem hmem), one request hmem]
  · intro h
    apply Std.ExtTreeMap.ext_getElem?
    intro key
    rw [hread requests queue one]
    split_ifs with hkey
    · obtain ⟨request, hmem, rfl⟩ := List.mem_map.mp hkey
      rw [h request hmem, one request hmem]
    · rfl

end

section
variable [Externals] {ctx : Context} {st : SignedTransaction} {layer : StateLayer} {l : Ledger}

theorem LedgerSound.keepsIndex (sound : LedgerSound ctx.own layer l) (st : SignedTransaction) :
    KeepsIndex st l :=
  fun spi _ unit stored _ _ =>
    Documents.keepsOrder (sound.sponsorships.orderly spi.uri unit stored) _

theorem revert_apply (empty : Externals.EmptyNoUri) {config : Config} {checkComplete : Bool}
    (sound : LedgerSound ctx.own layer l)
    (valid : actionValidate config st checkComplete = .ok ()) (fresh : FreshSponsorship st l)
    {applied reverted : Ledger} (happly : actionApply ctx st layer l = .ok applied)
    (hrevert : actionRevert ctx st layer applied = .ok reverted) : reverted = l :=
  (revert_apply_iff empty sound valid fresh happly hrevert).mpr (sound.keepsIndex st)

theorem applyTransaction_false (empty : Externals.EmptyNoUri) {config : Config}
    {checkComplete : Bool} {key : String} (sound : LedgerSound ctx.own (layerOf key) l)
    (valid : actionValidate config st checkComplete = .ok ()) (fresh : FreshSponsorship st l)
    {after : Ledger} (h : applyTransaction ctx key st l = .ok (false, after)) : after = l :=
  applyTransaction_refused empty sound valid fresh (fun _ _ _ => sound.keepsIndex st) h

end

namespace NodeInternals
variable [Documents.EntrySort] [Externals] {key : String} {st : SignedTransaction} {node : NodeInternals}

/-- A transaction that `apply_transaction` rejects leaves no trace: neither in the ledger nor
in the queue of the storage controller. -/
def LeavesNoTrace (key : String) (st : SignedTransaction) (node : NodeInternals) : Prop :=
  ∀ after, node.applyTransaction key st = .ok (false, after) → after = node

/-- The transaction can be applied, but for its fee. -/
def OnlyFeeMissing (key : String) (st : SignedTransaction) (node : NodeInternals) : Prop :=
  actionCanApply node.ctx st (layerOf key) node.ledger = .ok true ∧
    ∃ applied, actionApply node.ctx st (layerOf key) node.ledger = .ok applied ∧
      feeCanApply st applied = .ok false

def QueuedAlready (key : String) (st : SignedTransaction) (node : NodeInternals) : Prop :=
  ∀ content, st.transactionDetails.action = .content content →
    ∀ request ∈ content.fileRequests node.ctx (layerOf key) node.ledger,
      node.storageController[request.1]? = some request.2

omit [Externals] [Documents.EntrySort] in
theorem fileRequests_channel (content : Content) (ctx : Context) (layer : StateLayer) (l : Ledger) :
    ∀ request ∈ content.fileRequests ctx layer l, request.2 = content.channelAddress := by
  intro request hmem
  unfold Content.fileRequests at hmem
  split_ifs at hmem
  · obtain ⟨uri, _, hmem⟩ := List.mem_flatMap.mp hmem
    obtain ⟨file, _, rfl⟩ := List.mem_map.mp hmem
    rfl
  · cases hmem

omit [Externals] in
theorem enqueue_fileRequests_iff
    (can : actionCanApply node.ctx st (layerOf key) node.ledger = .ok true) :
    node.enqueue (node.fileRequests key st) = node ↔ QueuedAlready key st node := by
  unfold QueuedAlready fileRequests
  cases haction : st.transactionDetails.action with
  | content content =>
      rw [can]
      have hqueue := @foldl_insert_eq_iff node.storageController _ _
        (fileRequests_channel content node.ctx (layerOf key) node.ledger)
      constructor
      · intro h other hother
        cases hother
        exact hqueue.mp (congrArg NodeInternals.storageController h)
      · intro h
        unfold enqueue
        rw [hqueue.mpr (h content rfl)]
  | _ =>
      refine iff_of_true rfl ?_
      intro content hcontent
      cases hcontent

omit [Externals] in
theorem enqueue_fileRequests_of_refused
    (refused : actionCanApply node.ctx st (layerOf key) node.ledger = .ok false) :
    node.enqueue (node.fileRequests key st) = node := by
  unfold fileRequests
  rw [refused]
  cases st.transactionDetails.action <;> rfl

theorem content_revert {content : Content} (haction : st.transactionDetails.action = .content content)
    {ctx : Context} {layer : StateLayer} {l applied : Ledger}
    (happly : actionApply ctx st layer l = .ok applied) :
    applied = l ∧ actionRevert ctx st layer l = .ok l := by
  obtain ⟨_, htransfers, happly⟩ := bind_ok_iff.mp happly
  rw [haction] at happly htransfers
  obtain ⟨_, hauthority, _⟩ := bind_ok_iff.mp happly
  obtain ⟨permitted, hpermitted, hauthority⟩ := bind_ok_iff.mp hauthority
  refine ⟨content.apply_eq happly, ?_⟩
  rw [actionRevert, haction]
  dsimp only
  rw [htransfers, ok_bind, Content.actionRevert, Ledger.requireAuthority, hpermitted, ok_bind,
    require_true (require_ok_iff.mp hauthority)]
  rfl

end NodeInternals

section Examples

/-- A node that takes every key and signature, and reads a hash from every text but the empty
one. -/
@[reducible] def readingExternals : Externals :=
  { plainExternals with
    fromBase58 := fun s => .ok (if s = "" then [] else List.replicate 32 0) }

local instance queueExternals : Externals := readingExternals

theorem readingExternals_emptyNoUri : Externals.EmptyNoUri := by
  intro bytes h
  cases h
  decide

def byChannel (fee : Message.Coin) (action : Action) : SignedTransaction :=
  ⟨⟨0, 0, fee, action⟩, [⟨"channel", ""⟩]⟩

def unitOfChannel : Checked Ledger := do
  let l ← increaseRewards (exampleNode "own" .storage) [⟨"channel", ⟨100000, 0⟩, .initial⟩] default
  runAll (fun st l => do
      let (_, l) ← applyTransaction (exampleNode "own" .storage) "own" st l
      pure l)
    [byChannel 0 (.role ⟨"channel", .channel⟩), byChannel 0 (.file ⟨"file", ["channel"]⟩),
      byChannel 0 (.contentUnit ⟨"unit", 0, ["channel"], "channel", ["file"]⟩)] l

theorem unitOfChannel_isOk : unitOfChannel.isOk = true := by decide +kernel

/-- A storage that is its own manager, and fetches nothing yet. -/
def idleStorage : NodeInternals :=
  { ctx := exampleNode "own" .storage
    ledger := okValue _ unitOfChannel_isOk
    actionLog := ActionLog.loaded [] false
    transactionPool := []
    transactionCache := ∅
    storageController := ∅
    freezeBeforeBlock := 0 }

def unpaidContent : SignedTransaction := byChannel ⟨100001, 0⟩ (.content ⟨0, "channel", ["unit"]⟩)

theorem idleStorage_reached : Reached idleStorage.ctx.own (layerOf "own") idleStorage.ledger := by
  obtain ⟨l, hfunded, hrun⟩ := bind_ok_iff.mp (eq_okValue unitOfChannel_isOk)
  have funded : Reached idleStorage.ctx.own (layerOf "own") l :=
    Reached.increase Reached.start rfl hfunded
  refine runAll_invariant (fun st hmem s t hs step => ?_) funded hrun
  obtain ⟨⟨applied, after⟩, happly, step⟩ := bind_ok_iff.mp step
  cases pure_ok_iff.mp step
  refine Reached.apply hs rfl (fun sponsor hsponsor => ?_) happly
  simp only [List.mem_cons, List.not_mem_nil, or_false] at hmem
  rcases hmem with rfl | rfl | rfl <;> cases hsponsor

theorem unpaidContent_rejected : ∃ after,
    idleStorage.applyTransaction "own" unpaidContent = .ok (false, after) ∧
      after.storageController["file"]? = some "channel" := by
  have hqueued : (idleStorage.applyTransaction "own" unpaidContent).toOption.map
      (fun result => (result.1, result.2.storageController["file"]?)) =
      some (false, some "channel") := by decide +kernel
  cases h : idleStorage.applyTransaction "own" unpaidContent with
  | error e =>
      rw [h] at hqueued
      cases hqueued
  | ok result =>
      obtain ⟨applied, after⟩ := result
      rw [h] at hqueued
      simp only [Except.toOption, Option.map_some, Option.some.injEq, Prod.mk.injEq] at hqueued
      obtain ⟨rfl, hqueue⟩ := hqueued
      exact ⟨after, rfl, hqueue⟩

end Examples
end Publiq
