import Publiq.Ledger
import Mathlib.Data.Finset.Sort

/-! `transaction_authorization.cpp`. Applying and reverting an update rewrite one
record of the owner; a reverted award is a rejection and the other way round. -/
namespace Publiq.Message.AuthorizationUpdate
open Checked

/-- `action_owners(AuthorizationUpdate)`. -/
def actionOwners (update : AuthorizationUpdate) : List String := [update.owner]

/-- `action_participants(AuthorizationUpdate)`. -/
def actionParticipants (update : AuthorizationUpdate) : List String := [update.owner, update.actor]

def ids (update : AuthorizationUpdate) : List ℕ := update.actionIds.sort (· ≤ ·)

/-- `action_validate(AuthorizationUpdate)`. -/
def actionValidate [Externals] (signedTransaction : SignedTransaction)
    (update : AuthorizationUpdate) : Checked Unit := do
  require (signedTransaction.authorizations.length = 1) signedTransaction.backAuthority
  require (signedTransaction.signer ≠ update.actor)
    (.wrongData "cannot sign authorization update for self as an actor")
  match update.ids.find? (· ∉ allowedIds) with
  | some id => .error (.wrongData s!"unsupported customization for id: {id}")
  | none => pure ()
  Externals.publicKey update.owner
  Externals.publicKey update.actor

/-- Why a record cannot be rewritten as an update asks. -/
inductive Refusal where
  | fullNotRejected
  | fullNotAwarded
  | notRejected (id : ℕ)
  | rejected (id : ℕ)
  | awarded (id : ℕ)
  | notAwarded (id : ℕ)
  | partialRejection
  | fullWithExceptions
  deriving DecidableEq

/-- The text of a refusal, as `action_apply` and `action_revert` compose it. -/
def Refusal.text (actor : String) : Refusal → String
  | .fullNotRejected => actor ++ " is not rejected full authorizations before awarding full"
  | .fullNotAwarded => actor ++ " is not awarded full authorizations before rejecting full"
  | .notRejected id => actor ++ " is not rejected authorization for action id: " ++ toString id
  | .rejected id => actor ++ " is rejected authorization for action id: " ++ toString id
  | .awarded id => actor ++ " is awarded authorization for action id: " ++ toString id
  | .notAwarded id => actor ++ " is not awarded authorization for action id: " ++ toString id
  | .partialRejection => "parital authorization rejection is not supported"
  | .fullWithExceptions => "impossible to reach state that specifies 'default full' with exceptions"

/-- The exception that `action_apply` throws for a refusal. -/
def Refusal.onApply (actor : String) : Refusal → Failure
  | .fullWithExceptions => .logicError ("action_apply: " ++ Refusal.text actor .fullWithExceptions)
  | refusal => .wrongData (refusal.text actor)

/-- The exception that `action_revert` throws for a refusal. -/
def Refusal.onRevert (actor : String) (refusal : Refusal) : Failure :=
  .logicError ("action_revert: " ++ refusal.text actor)

/-- Award the ids, or everything when there are none. `onFull` is the refusal to
change single ids of an actor who may do everything. -/
def awardRecord (update : AuthorizationUpdate) (onFull : AccountAuthorization → Refusal)
    (record : AccountAuthorization) : Except Refusal AccountAuthorization := do
  if update.actionIds = ∅ then do
    require (¬ (record.defaultFull = true ∨ record.actionIds ≠ ∅)) .fullNotRejected
    pure { record with defaultFull := true }
  else if record.defaultFull then .error (onFull record)
  else
    match update.ids.find? (· ∈ record.actionIds) with
    | some id => .error (.awarded id)
    | none => pure { record with actionIds := record.actionIds ∪ update.actionIds }

def rejectRecord (update : AuthorizationUpdate) (onFull : AccountAuthorization → Refusal)
    (record : AccountAuthorization) : Except Refusal AccountAuthorization := do
  if update.actionIds = ∅ then do
    require (¬ (record.defaultFull = false ∨ record.actionIds ≠ ∅)) .fullNotAwarded
    pure { record with defaultFull := false }
  else if record.defaultFull then .error (onFull record)
  else
    match update.ids.find? (· ∉ record.actionIds) with
    | some id => .error (.notAwarded id)
    | none => pure { record with actionIds := record.actionIds \ update.actionIds }

def awardOnFull (update : AuthorizationUpdate) (record : AccountAuthorization) : Refusal :=
  match update.ids with
  | id :: _ => if id ∈ record.actionIds then .fullWithExceptions else .notRejected id
  | [] => .fullWithExceptions

def revertAwardOnFull (update : AuthorizationUpdate) (record : AccountAuthorization) : Refusal :=
  match update.ids with
  | id :: _ => if id ∈ record.actionIds then .rejected id else .fullWithExceptions
  | [] => .fullWithExceptions

def applyRecord (update : AuthorizationUpdate) : AccountAuthorization →
    Except Refusal AccountAuthorization :=
  match update.updateType with
  | .store => update.awardRecord update.awardOnFull
  | .remove => update.rejectRecord fun _ => .partialRejection

def revertRecord (update : AuthorizationUpdate) : AccountAuthorization →
    Except Refusal AccountAuthorization :=
  match update.updateType with
  | .store => update.rejectRecord update.revertAwardOnFull
  | .remove => update.awardRecord fun _ => .partialRejection

/-- `action_can_apply(AuthorizationUpdate)`. -/
def actionCanApply (signedTransaction : SignedTransaction) (update : AuthorizationUpdate)
    (l : Ledger) : Checked Bool := do
  let permitted ← l.authorityManager.checkAuthority update.owner signedTransaction.signer rtt
  if permitted = false then pure false
  else do
    let record ← l.authorityManager.getRecord update.owner update.actor
    match update.applyRecord record with
    | .ok _ => pure true
    | .error .fullWithExceptions => .error (.logicError
        ("action_can_apply: " ++ Refusal.text update.actor .fullWithExceptions))
    | .error _ => pure false

/-- The steps that apply and revert share: make sure of a record, rewrite it, and
clean up after it. -/
def rewrite (update : AuthorizationUpdate)
    (f : AccountAuthorization → Except Refusal AccountAuthorization)
    (e : Refusal → Failure) (m : AuthorityManager) : Checked AuthorityManager := do
  let m := m.smartCreateDummyRecord update.owner update.actor
  let record ← m.getRecord update.owner update.actor
  let record ← (f record).mapError e
  let m ← m.setRecord update.owner update.actor record
  m.smartCleanupDummyRecord update.owner update.actor

/-- `action_apply(AuthorizationUpdate)`. -/
def actionApply (signedTransaction : SignedTransaction) (update : AuthorizationUpdate)
    (l : Ledger) : Checked Ledger := do
  l.requireAuthority update.owner signedTransaction.signer rtt
    (.authority signedTransaction.signer update.owner)
  l.onAuthorities (update.rewrite update.applyRecord (Refusal.onApply update.actor))

/-- `action_revert(AuthorizationUpdate)`. -/
def actionRevert (update : AuthorizationUpdate) (l : Ledger) : Checked Ledger :=
  l.onAuthorities (update.rewrite update.revertRecord (Refusal.onRevert update.actor))

end Publiq.Message.AuthorizationUpdate
