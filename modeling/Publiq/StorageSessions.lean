import Publiq.Coin

/-! The sessions of `sessions.cpp` between a node and its storage: saving a file,
deleting one and listing the files. Each answers through the callback it was given,
from `process` or from its destructor. -/
namespace Publiq

/-- What the storage and the node send each other here; any other package by its type. -/
inductive StoragePackage where
  | storageFileAddress (uri : String)
  | done
  | fileUris (fileUris : List String)
  | uriError (uri : String) (uriProblemType : UriProblem)
  | remoteError (message : String)
  | empty
  | other (rtt : ℕ) (content : String)
  deriving DecidableEq

/-- The types that the sessions tell apart. -/
inductive PackageType where
  | storageFileAddress
  | done
  | fileUris
  | uriError
  | remoteError
  | other (rtt : ℕ)
  deriving DecidableEq

/-- `rtt`, the place of the class in the message definitions. -/
def PackageType.rtt : PackageType → ℕ
  | .fileUris => 85
  | .done => 88
  | .uriError => 95
  | .remoteError => 106
  | .storageFileAddress => 109
  | .other rtt => rtt

/-- `packet::type`, which is `size_t(-1)` for an empty packet. -/
def StoragePackage.type : StoragePackage → Option PackageType
  | .storageFileAddress _ => some .storageFileAddress
  | .done => some .done
  | .fileUris _ => some .fileUris
  | .uriError _ _ => some .uriError
  | .remoteError _ => some .remoteError
  | .empty => none
  | .other rtt _ => some (.other rtt)

/-- A `size_t` type in a text. -/
def typeText (type : Option PackageType) : String :=
  toString (type.elim (2 ^ 64 - 1) PackageType.rtt)

/-- What reaches `process`: the container of the storage's messages, or anything else. -/
inductive StorageMessage where
  | container (package : StoragePackage)
  | other

/-- In what the three sessions differ. -/
structure StorageAction where
  /-- `expected_next_package_type` once the request is out. -/
  awaits : PackageType
  /-- Whether a `UriError` is an answer to it. -/
  takesUriError : Bool
  /-- The text of the `RemoteError` when no answer came. -/
  failure : Option PackageType → Bool → String

/-- `session_action_save_file`. -/
def sessionActionSaveFile : StorageAction where
  awaits := .storageFileAddress
  takesUriError := true
  failure expected errored :=
    "unknown error uploading the file " ++ typeText expected ++ ", " ++ toString errored.toNat

/-- `session_action_delete_file`. -/
def sessionActionDeleteFile : StorageAction where
  awaits := .done
  takesUriError := true
  failure _ _ := "unknown error deleting the file"

/-- `session_action_get_file_uris`. -/
def sessionActionGetFileUris : StorageAction where
  awaits := .fileUris
  takesUriError := false
  failure expected errored :=
    "unknown error getting the file uris " ++ typeText expected ++ ", " ++
      toString errored.toNat

/-- The members that decide who calls back, as `session_action` sets them first. -/
structure StorageSession where
  expectedNextPackageType : Option PackageType := none
  errored : Bool := false
  completed : Bool := false
  /-- Whether the session still holds its callback. -/
  callback : Bool := true
  deriving DecidableEq

/-- What a call on the session has done: the packages it called back with, the session
after it, and what it returned or threw. -/
structure StorageStep where
  calls : List StoragePackage
  session : StorageSession
  result : Checked Bool

namespace StorageSession

/-- `initiate`. The stream may throw before the type is set. -/
def initiate (action : StorageAction) (sent : Bool) (session : StorageSession) :
    StorageSession :=
  if sent then { session with expectedNextPackageType := some action.awaits } else session

/-- Call back, `guard2` giving up the callback even when it throws. -/
def answer (thrown : Option Failure) (package : StoragePackage) (session : StorageSession) :
    StorageStep :=
  match session.callback, thrown with
  | true, some failure =>
      ⟨[package], { session with callback := false, errored := true }, .error failure⟩
  | true, none =>
      ⟨[package],
        { session with callback := false, completed := true, expectedNextPackageType := none },
        .ok true⟩
  | false, _ =>
      ⟨[], { session with completed := true, expectedNextPackageType := none }, .ok true⟩

/-- `process`, with what the callback throws if it is called. -/
def process (action : StorageAction) (thrown : Option Failure) (message : StorageMessage)
    (session : StorageSession) : StorageStep :=
  match message with
  | .other => ⟨[], session, .ok false⟩
  | .container package =>
      if session.expectedNextPackageType = package.type ∧
          session.expectedNextPackageType ≠ none then
        if package.type = some action.awaits then session.answer thrown package
        else ⟨[], session, .ok true⟩
      else if action.takesUriError ∧ package.type = some .uriError then
        session.answer thrown package
      else ⟨[], session, .ok false⟩

def destroy (action : StorageAction) (session : StorageSession) : List StoragePackage :=
  if (session.expectedNextPackageType ≠ none ∨ session.errored) ∧ session.callback then
    [.remoteError (action.failure session.expectedNextPackageType session.errored)]
  else if session.callback then [.empty]
  else []

end StorageSession

/-- What happens to a session before it is destroyed. -/
inductive StorageEvent where
  | initiate (sent : Bool)
  | process (message : StorageMessage) (thrown : Option Failure)

def StorageEvent.asks : StorageEvent → Bool
  | .initiate sent => sent
  | .process _ _ => false

namespace StorageSession

def callsFrom (action : StorageAction) : List StorageEvent → StorageSession →
    List StoragePackage
  | [], session => session.destroy action
  | .initiate sent :: events, session => callsFrom action events (session.initiate action sent)
  | .process message thrown :: events, session =>
      (session.process action thrown message).calls ++
        callsFrom action events (session.process action thrown message).session

def calls (action : StorageAction) (events : List StorageEvent) : List StoragePackage :=
  callsFrom action events {}

/-- The package that was asked for, once it was asked for, or a `UriError` where the
session takes one. -/
def IsReply (action : StorageAction) (asked : Bool) (package : StoragePackage) : Prop :=
  (asked ∧ package.type = some action.awaits) ∨
    (action.takesUriError ∧ package.type = some .uriError)

instance (action : StorageAction) (asked : Bool) (package : StoragePackage) :
    Decidable (IsReply action asked package) := inferInstanceAs (Decidable (_ ∨ _))

def firstReply (action : StorageAction) : Bool → List StorageEvent → Option StoragePackage
  | _, [] => none
  | asked, .initiate sent :: events => firstReply action (sent || asked) events
  | asked, .process .other _ :: events => firstReply action asked events
  | asked, .process (.container package) _ :: events =>
      if IsReply action asked package then some package else firstReply action asked events

/-- What the callback is told when there was no reply. -/
def unanswered (action : StorageAction) (asked : Bool) (events : List StorageEvent) :
    StoragePackage :=
  if asked || events.any StorageEvent.asks then
    .remoteError (action.failure (some action.awaits) false)
  else .empty

/-- A session that has called back does not do it again. -/
theorem callsFrom_of_called (action : StorageAction) (events : List StorageEvent)
    (session : StorageSession) (called : session.callback = false) :
    callsFrom action events session = [] := by
  induction events generalizing session with
  | nil => simp [callsFrom, destroy, called]
  | cons event events ih =>
      cases event with
      | initiate sent =>
          refine ih _ ?_
          cases sent
          · exact called
          · exact called
      | process message thrown =>
          have answer : ∀ package, (session.answer thrown package).calls = [] ∧
              (session.answer thrown package).session.callback = false := by
            intro package
            simp [StorageSession.answer, called]
          have quiet : (session.process action thrown message).calls = [] ∧
              (session.process action thrown message).session.callback = false := by
            cases message with
            | other => exact ⟨rfl, called⟩
            | container package =>
                simp only [process]
                split_ifs
                · exact answer package
                · exact ⟨rfl, called⟩
                · exact answer package
                · exact ⟨rfl, called⟩
          rw [callsFrom, quiet.1, List.nil_append]
          exact ih _ quiet.2

def holding (action : StorageAction) (asked : Bool) : StorageSession :=
  { expectedNextPackageType := if asked then some action.awaits else none }

theorem initiate_holding (action : StorageAction) (sent asked : Bool) :
    (holding action asked).initiate action sent = holding action (sent || asked) := by
  cases sent
  · rfl
  · rfl

theorem process_holding (action : StorageAction) (asked : Bool) (thrown : Option Failure)
    (package : StoragePackage) :
    (holding action asked).process action thrown (.container package) =
      if IsReply action asked package then (holding action asked).answer thrown package
      else ⟨[], holding action asked, .ok false⟩ := by
  unfold IsReply
  cases asked with
  | false => simp [process, holding]
  | true =>
      by_cases awaited : package.type = some action.awaits
      · simp [process, holding, awaited]
      · simp [process, holding, awaited, Ne.symm awaited]

theorem answer_holding (action : StorageAction) (asked : Bool) (thrown : Option Failure)
    (package : StoragePackage) :
    ((holding action asked).answer thrown package).calls = [package] ∧
      ((holding action asked).answer thrown package).session.callback = false := by
  cases thrown with
  | none => exact ⟨rfl, rfl⟩
  | some failure => exact ⟨rfl, rfl⟩

theorem destroy_holding (action : StorageAction) (asked : Bool) :
    (holding action asked).destroy action = [unanswered action asked []] := by
  cases asked
  · rfl
  · rfl

/-- The calls of a session that holds its callback: its first reply, or the destructor's. -/
theorem callsFrom_holding (action : StorageAction) (asked : Bool)
    (events : List StorageEvent) :
    callsFrom action events (holding action asked) =
      [(firstReply action asked events).getD (unanswered action asked events)] := by
  induction events generalizing asked with
  | nil => exact destroy_holding action asked
  | cons event events ih =>
      cases event with
      | initiate sent =>
          rw [callsFrom, initiate_holding, ih, firstReply]
          cases sent
          · rfl
          · simp [unanswered, StorageEvent.asks]
      | process message thrown =>
          have later : unanswered action asked (.process message thrown :: events) =
              unanswered action asked events := rfl
          rw [callsFrom, later]
          cases message with
          | other => exact ih asked
          | container package =>
              rw [process_holding, firstReply]
              by_cases reply : IsReply action asked package
              · obtain ⟨call, called⟩ := answer_holding action asked thrown package
                rw [if_pos reply, if_pos reply, callsFrom_of_called action events _ called, call]
                rfl
              · rw [if_neg reply, if_neg reply]
                exact ih asked

/-- One call, whatever happens before the session is gone: with the first reply, or
with an error when a request went out and with an empty package when none did. -/
def CallsOnce (action : StorageAction) : Prop :=
  ∀ events, calls action events =
    [(firstReply action false events).getD
      (if events.any StorageEvent.asks then
        .remoteError (action.failure (some action.awaits) false)
      else .empty)]

theorem callsOnce (action : StorageAction) : CallsOnce action := by
  intro events
  have held := callsFrom_holding action false events
  rwa [unanswered, Bool.false_or] at held

/-- Saving a file, deleting one and listing them each call back once. -/
theorem storage_sessions_call_once :
    CallsOnce sessionActionSaveFile ∧ CallsOnce sessionActionDeleteFile ∧
      CallsOnce sessionActionGetFileUris :=
  ⟨callsOnce _, callsOnce _, callsOnce _⟩

/-- A callback that throws on the first reply is not called for the second. -/
example : calls sessionActionSaveFile
    [.initiate true, .process (.container (.storageFileAddress "file")) (some (.logicError "")),
      .process (.container (.uriError "file" .duplicate)) none] =
    [.storageFileAddress "file"] := by decide

end StorageSession

end Publiq
