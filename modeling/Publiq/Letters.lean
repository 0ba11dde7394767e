import Mathlib.Data.String.Basic
import Mathlib.Data.Multiset.AddSub
import Mathlib.Logic.Relation
import Publiq.AuthorityManager
import Publiq.Broadcast
import Publiq.Foundation.Along
import Publiq.TransactionCache
import Publiq.TransactionHandler

/-! Letters, which nodes pass on to each other until they come to the node they are for. No block
holds them; a node remembers those that it has seen in its cache. -/
namespace Publiq
open Message Checked

namespace Message

/-- A message for the owner of a key. -/
structure Letter where
  source : String
  target : String
  message : String
  deriving DecidableEq

def Letter.rtt : ℕ := 114

/-- A transaction whose action is a letter. -/
structure LetterTransaction where
  creation : ℤ
  expiry : ℤ
  fee : Coin
  letter : Letter
  deriving DecidableEq

structure SignedLetter where
  transactionDetails : LetterTransaction
  authorizations : List Authority
  deriving DecidableEq

namespace SignedLetter

def letter (signedLetter : SignedLetter) : Letter := signedLetter.transactionDetails.letter

end SignedLetter
end Message

/-- The texts of a letter that are signed and hashed, `to_string` of its transaction. -/
class LetterTexts where
  transactionToString : LetterTransaction → String
  signedTransactionToString : SignedLetter → String

/-- What a node keeps of letters. There is no inbox unless it is enabled. -/
structure LetterNode where
  own : String
  authorityManager : AuthorityManager
  transactionCache : TransactionCache
  inbox : Option (List Letter)
  /-- The inbox as its files have it. -/
  saved : List Letter

section
variable [Externals] [LetterTexts]

/-- `meshpp::hash(signed_transaction.to_string())`. -/
def letterHash (signedLetter : SignedLetter) : String :=
  Externals.hash (LetterTexts.signedTransactionToString signedLetter)

/-- `signed_transaction_validate`. -/
def signedLetterValidate (signedLetter : SignedLetter) (now : ℤ) : Checked Unit := do
  let details := signedLetter.transactionDetails
  require (signedLetter.authorizations ≠ []) (.wrongData "transaction with no authorizations")
  signedTransactionValidate.validateSignatures (LetterTexts.transactionToString details) []
    signedLetter.authorizations
  require (details.creation ≤ now + nodesTimeShift) (.wrongData "Transaction from the future!")
  require (now - nodesTimeShift ≤ details.expiry) (.wrongData "Expired transaction!")
  require (details.expiry - details.creation ≤ transactionMaxLifetimeHours * 3600)
    (.wrongData "Too long lifetime for transaction")

def letterSigner (signedLetter : SignedLetter) : Checked String :=
  match signedLetter.authorizations with
  | [authority] => .ok authority.address
  | _ => .error (.wrongData "transaction authorizations error")

/-- The checks of `process_letter`. -/
def checkLetter (signedLetter : SignedLetter) (m : AuthorityManager) : Checked Unit := do
  let letter := signedLetter.letter
  require (letter.message.utf8ByteSize ≤ 16 * 1024) (.tooLongString letter.message (16 * 1024))
  require (letter.message ≠ "") (.wrongData "empty letter.message!")
  Externals.publicKey letter.source
  Externals.publicKey letter.target
  let signedAuthority ← letterSigner signedLetter
  let permitted ← m.checkAuthority letter.source signedAuthority Letter.rtt
  require (permitted = true) (.authority signedAuthority (m.getAuthority letter.source))
  require (letter.target ≠ letter.source)
    (.wrongData "sender can read his messages without blockchain!")

namespace LetterNode

/-- Put a letter that is new into the inbox, if it is for the node, and into the cache. -/
def accept (signedLetter : SignedLetter) (node : LetterNode) : LetterNode :=
  let more := node.inbox.map (· ++ [signedLetter.letter])
  { node with
    inbox := if signedLetter.letter.target = node.own then more else node.inbox
    saved := if signedLetter.letter.target = node.own then more.getD [] else node.saved
    transactionCache := TransactionCache.keep
      ⟨true, signedLetter.transactionDetails.creation⟩ node.transactionCache
      (letterHash signedLetter) }

/-- `process_letter`: whether the letter is news. -/
def processLetter (signedLetter : SignedLetter) (node : LetterNode) :
    Checked (Bool × LetterNode) := do
  checkLetter signedLetter node.authorityManager
  if node.transactionCache.contains (letterHash signedLetter) then pure (false, node)
  else pure (true, node.accept signedLetter)

def letterPeers (signedLetter : SignedLetter) (peers : Finset String) : Finset String :=
  if signedLetter.letter.target ∈ peers then {signedLetter.letter.target} else peers

/-- What becomes of a letter that comes to a node. -/
structure Handled where
  news : Bool
  node : LetterNode
  sent : Sent String SignedLetter

/-- `node::run` on a letter: the node takes it once, and sends it on if it is for another. -/
def handleLetter (now : ℤ) (sender : String) (peers : Finset String) (chance : Bool)
    (broadcast : Broadcast SignedLetter) (node : LetterNode) : Checked Handled := do
  let signedLetter := broadcast.package
  signedLetterValidate signedLetter now
  let (news, after) ← node.processLetter signedLetter
  if news = true ∧ signedLetter.letter.target ≠ node.own then
    pure ⟨news, after, broadcastMessage broadcast node.own sender true
      (letterPeers signedLetter peers) chance⟩
  else pure ⟨news, after, ⟨broadcast, ∅⟩⟩

end LetterNode
end

/-- A network of nodes with the peers that they are linked to, and the letters that are under way.
What the nodes have taken as news, sent on, and given to their clients is recorded. -/
structure LetterNetwork where
  node : String → LetterNode
  links : String → Finset String
  clock : String → ℤ
  flights : Multiset (Flight String SignedLetter)
  submitted : List SignedLetter
  accepted : String → List SignedLetter
  sent : Multiset (Flight String SignedLetter)
  read : String → List Letter

/-- What can happen in a network. -/
inductive LetterEvent where
  /-- A client hands a letter in. -/
  | submit (now : ℤ) (self client : String) (broadcast : Broadcast SignedLetter) (chance : Bool)
  /-- A letter arrives from a peer. -/
  | deliver (now : ℤ) (flight : Flight String SignedLetter) (chance : Bool)
  /-- A letter is lost on its way. -/
  | lose (flight : Flight String SignedLetter)
  /-- Peers join a node, or leave it. -/
  | link (self : String) (peers : Finset String)
  /-- A client reads the inbox, which is cleared but not saved. -/
  | checkInbox (self : String)
  /-- A node starts again, from its files and the blocks that it has. -/
  | restart (self : String) (cache : TransactionCache)
  /-- The timer runs `clean_transaction_cache`, which goes by the time of the last block. -/
  | clean (now : ℤ) (self : String) (tp : ℤ)
  /-- The cache takes in other transactions, or forgets some. -/
  | transactions (self : String) (cache : TransactionCache)
  /-- The chain grants authorities, or takes them. -/
  | authorities (self : String) (m : AuthorityManager)

namespace LetterNetwork
open LetterNode

section
variable [Externals] [LetterTexts]

def flightsOf (self : String) (sent : Sent String SignedLetter) :
    Multiset (Flight String SignedLetter) :=
  sent.peers.val.map fun peer => ⟨self, peer, sent.broadcast⟩

/-- A letter comes to a node, which drops it if it throws. -/
def receive (now : ℤ) (self sender : String) (chance : Bool) (broadcast : Broadcast SignedLetter)
    (net : LetterNetwork) : LetterNetwork :=
  match (net.node self).handleLetter now sender (net.links self) chance broadcast with
  | .error _ => { net with clock := Function.update net.clock self now }
  | .ok handled =>
      { net with
        node := Function.update net.node self handled.node
        clock := Function.update net.clock self now
        flights := net.flights + flightsOf self handled.sent
        accepted := if handled.news then
            Function.update net.accepted self (net.accepted self ++ [broadcast.package])
          else net.accepted
        sent := net.sent + flightsOf self handled.sent }

def step (net : LetterNetwork) : LetterEvent → LetterNetwork
  | .submit now self client broadcast chance =>
      receive now self client chance broadcast
        { net with submitted := net.submitted ++ [broadcast.package] }
  | .deliver now flight chance =>
      if flight ∈ net.flights then
        receive now flight.receiver flight.sender chance flight.broadcast
          { net with flights := net.flights.erase flight }
      else net
  | .lose flight => { net with flights := net.flights.erase flight }
  | .link self peers => { net with links := Function.update net.links self peers }
  | .checkInbox self =>
      let node := net.node self
      { net with
        node := Function.update net.node self { node with inbox := node.inbox.map fun _ => [] }
        read := Function.update net.read self (net.read self ++ node.inbox.getD []) }
  | .restart self cache =>
      let node := net.node self
      { net with
        node := Function.update net.node self
          { node with inbox := node.inbox.map fun _ => node.saved, transactionCache := cache } }
  | .clean now self tp =>
      let node := net.node self
      { net with
        clock := Function.update net.clock self now
        node := Function.update net.node self
          { node with transactionCache := TransactionCache.clean tp node.transactionCache } }
  | .transactions self cache =>
      { net with
        node := Function.update net.node self { net.node self with transactionCache := cache } }
  | .authorities self m =>
      { net with
        node := Function.update net.node self { net.node self with authorityManager := m } }

def run (net : LetterNetwork) (events : List LetterEvent) : LetterNetwork :=
  events.foldl step net

omit [LetterTexts] [Externals] in
def targets (links : Finset String) (self : String) (signedLetter : SignedLetter) :
    Finset String :=
  if signedLetter.letter.target = self then ∅ else letterPeers signedLetter links

omit [Externals] [LetterTexts] in
theorem broadcastMessage_full {α β : Type*} [LinearOrder α] (broadcast : Broadcast β)
    (self sender : α) {fullBroadcast : Bool} (full : fullBroadcast = true) (peers : Finset α)
    (chance : Bool) :
    (broadcastMessage broadcast self sender fullBroadcast peers chance).peers = peers ∧
      (broadcastMessage broadcast self sender fullBroadcast peers chance).broadcast.package =
        broadcast.package := by
  have hall : (peers.filter fun peer =>
      ¬ (fullBroadcast = false ∧ cmp self sender = cmp self peer)) = peers :=
    Finset.filter_true_of_mem fun _ _ h => Bool.false_ne_true (h.1.symm.trans full)
  unfold broadcastMessage
  rw [if_neg fun h => Bool.false_ne_true (h.1.symm.trans full)]
  dsimp only
  rw [hall, apply_ite Sent.peers, apply_ite Sent.broadcast, apply_ite Broadcast.package]
  exact ⟨ite_self _, ite_self _⟩

variable {net : LetterNetwork} {self sender : String} {now : ℤ} {chance : Bool}
  {broadcast : Broadcast SignedLetter} {signedLetter : SignedLetter}
  {new : Multiset (Flight String SignedLetter)}

/-- What a node does with a letter that it takes. -/
structure Takes (now : ℤ) (a : String) (signedLetter : SignedLetter) (net : LetterNetwork)
    (new : Multiset (Flight String SignedLetter)) : Prop where
  valid : signedLetterValidate signedLetter now = .ok ()
  checked : checkLetter signedLetter (net.node a).authorityManager = .ok ()
  free : (net.node a).transactionCache[letterHash signedLetter]? = none
  receivers : new.map Flight.receiver = (targets (net.links a) a signedLetter).val
  origin : ∀ flight ∈ new, flight.sender = a ∧ flight.broadcast.package = signedLetter

def taken (now : ℤ) (self : String) (signedLetter : SignedLetter)
    (new : Multiset (Flight String SignedLetter)) (net : LetterNetwork) : LetterNetwork :=
  { net with
    node := Function.update net.node self ((net.node self).accept signedLetter)
    clock := Function.update net.clock self now
    flights := net.flights + new
    accepted := Function.update net.accepted self (net.accepted self ++ [signedLetter])
    sent := net.sent + new }

/-- A node throws, or it knows the letter, or it takes it. -/
theorem receive_cases (now : ℤ) (sender : String) (chance : Bool)
    (broadcast : Broadcast SignedLetter) (own : (net.node self).own = self) :
    (receive now self sender chance broadcast net =
        { net with clock := Function.update net.clock self now } ∧
      ((∃ e, (net.node self).handleLetter now sender (net.links self) chance broadcast =
          .error e) ∨
        (net.node self).transactionCache[letterHash broadcast.package]? ≠ none)) ∨
    ∃ new, Takes now self broadcast.package net new ∧
      receive now self sender chance broadcast net = taken now self broadcast.package new net := by
  unfold receive
  cases hhandle : (net.node self).handleLetter now sender (net.links self) chance broadcast with
  | error e => exact .inl ⟨rfl, .inl ⟨e, rfl⟩⟩
  | ok handled =>
      obtain ⟨_, hvalid, h⟩ := bind_ok_iff.mp hhandle
      obtain ⟨⟨news, node⟩, hprocess, h⟩ := bind_ok_iff.mp h
      obtain ⟨_, hcheck, hprocess⟩ := bind_ok_iff.mp hprocess
      have hcontains : (net.node self).transactionCache.contains (letterHash broadcast.package) =
          true ↔ (net.node self).transactionCache[letterHash broadcast.package]? ≠ none := by
        rw [Std.ExtTreeMap.contains_eq_isSome_getElem?, Option.isSome_iff_ne_none]
      split_ifs at hprocess with hknown
      · cases pure_ok_iff.mp hprocess
        cases pure_ok_iff.mp h
        refine .inl ⟨?_, .inr (hcontains.mp hknown)⟩
        simp only [flightsOf, Finset.empty_val, Multiset.map_zero, add_zero,
          Bool.false_eq_true, if_false, Function.update_eq_self]
      · cases pure_ok_iff.mp hprocess
        right
        dsimp only at h
        rw [own] at h
        have hsent : handled.news = true ∧ handled.node = (net.node self).accept broadcast.package ∧
            handled.sent.peers = targets (net.links self) self broadcast.package ∧
            handled.sent.broadcast.package = broadcast.package := by
          unfold targets
          split_ifs at h with hother
          · cases pure_ok_iff.mp h
            rw [if_neg hother.2]
            obtain ⟨hpeers, hpackage⟩ := broadcastMessage_full broadcast self sender rfl
              (letterPeers broadcast.package (net.links self)) chance
            exact ⟨rfl, rfl, hpeers, hpackage⟩
          · cases pure_ok_iff.mp h
            rw [if_pos (by simpa using hother)]
            exact ⟨rfl, rfl, rfl, rfl⟩
        obtain ⟨hnews, hnode, hpeers, hpackage⟩ := hsent
        refine ⟨flightsOf self handled.sent,
          ⟨hvalid, hcheck, not_not.mp (hknown ∘ hcontains.mpr), ?_, ?_⟩, ?_⟩
        · rw [flightsOf, Multiset.map_map, hpeers]
          exact Multiset.map_id _
        · intro flight hflight
          obtain ⟨peer, _, rfl⟩ := Multiset.mem_map.mp hflight
          exact ⟨rfl, hpackage⟩
        · dsimp only
          rw [hnews, hnode, if_pos rfl]
          rfl

def lettersFor (self : String) (letters : List SignedLetter) : List Letter :=
  (letters.map SignedLetter.letter).filter (·.target = self)

def Genuine (had : AuthorityManager → Prop) (signedLetter : SignedLetter) : Prop :=
  ∃ now m, had m ∧ signedLetterValidate signedLetter now = .ok () ∧
    checkLetter signedLetter m = .ok ()

/-- What holds in any run, the managers that each node has had being given. -/
structure Sound (had : String → AuthorityManager → Prop) (net : LetterNetwork) : Prop where
  own : ∀ a, (net.node a).own = a
  managers : ∀ a, had a (net.node a).authorityManager
  flying : ∀ flight ∈ net.flights, flight.broadcast.package ∈ net.submitted
  genuine : ∀ a, ∀ st ∈ net.accepted a, st ∈ net.submitted ∧ Genuine (had a) st

section
variable {had : String → AuthorityManager → Prop}

/-- A node that gets no manager that it may not have. -/
theorem Sound.updateNode (sound : Sound had net) (self : String) (node : LetterNode)
    (own : node.own = (net.node self).own) (manager : had self node.authorityManager) :
    Sound had { net with node := Function.update net.node self node } := by
  refine ⟨fun a => ?_, fun a => ?_, sound.flying, sound.genuine⟩ <;> by_cases ha : a = self
  · subst ha
    exact (congrArg LetterNode.own (Function.update_self _ _ _)).trans (own.trans (sound.own a))
  · exact (congrArg LetterNode.own (Function.update_of_ne ha _ _)).trans (sound.own a)
  · subst ha
    dsimp only
    rw [Function.update_self]
    exact manager
  · dsimp only
    rw [Function.update_of_ne ha]
    exact sound.managers a

theorem Sound.lose (sound : Sound had net) (flight : Flight String SignedLetter) :
    Sound had { net with flights := net.flights.erase flight } :=
  ⟨sound.own, sound.managers, fun f hf => sound.flying f (Multiset.mem_of_mem_erase hf),
    sound.genuine⟩

theorem Sound.submit (sound : Sound had net) (signedLetter : SignedLetter) :
    Sound had { net with submitted := net.submitted ++ [signedLetter] } :=
  ⟨sound.own, sound.managers, fun f hf => List.mem_append_left _ (sound.flying f hf),
    fun a st hst => (sound.genuine a st hst).imp_left (List.mem_append_left _)⟩

theorem Sound.taken (sound : Sound had net) (takes : Takes now self signedLetter net new)
    (known : signedLetter ∈ net.submitted) : Sound had (taken now self signedLetter new net) := by
  have hnode : ∀ a, ((LetterNetwork.taken now self signedLetter new net).node a).own =
      (net.node a).own ∧ ((LetterNetwork.taken now self signedLetter new net).node
        a).authorityManager = (net.node a).authorityManager := by
    intro a
    dsimp only [LetterNetwork.taken]
    by_cases ha : a = self
    · subst ha
      rw [Function.update_self]
      exact ⟨rfl, rfl⟩
    · rw [Function.update_of_ne ha]
      exact ⟨rfl, rfl⟩
  refine ⟨fun a => (hnode a).1.trans (sound.own a), fun a => ?_, fun flight hflight => ?_,
    fun a => ?_⟩
  · rw [(hnode a).2]
    exact sound.managers a
  · rcases Multiset.mem_add.mp hflight with hold | hnew
    · exact sound.flying flight hold
    · rw [(takes.origin flight hnew).2]
      exact known
  · dsimp only [LetterNetwork.taken]
    by_cases ha : a = self
    · subst ha
      rw [Function.update_self]
      exact List.forall_mem_append.mpr ⟨sound.genuine a, List.forall_mem_singleton.mpr
        ⟨known, now, _, sound.managers a, takes.valid, takes.checked⟩⟩
    · rw [Function.update_of_ne ha]
      exact sound.genuine a

theorem Sound.tick (sound : Sound had net) (clock : String → ℤ) :
    Sound had { net with clock := clock } :=
  ⟨sound.own, sound.managers, sound.flying, sound.genuine⟩

theorem Sound.receive (sound : Sound had net) (known : broadcast.package ∈ net.submitted) :
    Sound had (receive now self sender chance broadcast net) := by
  rcases receive_cases now sender chance broadcast (sound.own self) with
    ⟨hsame, _⟩ | ⟨new, htakes, hafter⟩
  · rw [hsame]
    exact sound.tick _
  · rw [hafter]
    exact sound.taken htakes known

theorem Sound.step (sound : Sound had net) {event : LetterEvent}
    (managers : ∀ self m, event = .authorities self m → had self m) :
    Sound had (step net event) := by
  cases event with
  | submit now self client broadcast chance =>
      exact (sound.submit broadcast.package).receive
        (List.mem_append_right _ (List.mem_singleton_self _))
  | deliver now flight chance =>
      rw [LetterNetwork.step]
      split_ifs with hflight
      · exact (sound.lose flight).receive (sound.flying flight hflight)
      · exact sound
  | lose flight => exact sound.lose flight
  | link self peers => exact ⟨sound.own, sound.managers, sound.flying, sound.genuine⟩
  | checkInbox self =>
      have hnode := sound.updateNode self
        { net.node self with inbox := (net.node self).inbox.map fun _ => [] } rfl
        (sound.managers self)
      exact ⟨hnode.own, hnode.managers, hnode.flying, hnode.genuine⟩
  | restart self cache => exact sound.updateNode self _ rfl (sound.managers self)
  | clean now self tp =>
      exact (sound.updateNode self { net.node self with
        transactionCache := TransactionCache.clean tp (net.node self).transactionCache }
        rfl (sound.managers self)).tick _
  | transactions self cache => exact sound.updateNode self _ rfl (sound.managers self)
  | authorities self m => exact sound.updateNode self _ rfl (managers self m rfl)

end

end
end LetterNetwork

/-- The letters for a node: those that wait for its client, those that its files have, all that it
has taken, and what the client has read. -/
structure Mailbox where
  inbox : Option (List Letter)
  saved : List Letter
  letters : List Letter
  read : List Letter

namespace Mailbox
variable {box : Mailbox}

def put (letter : Letter) (box : Mailbox) : Mailbox :=
  { box with
    inbox := box.inbox.map (· ++ [letter])
    saved := (box.inbox.map (· ++ [letter])).getD []
    letters := box.letters ++ [letter] }

def check (box : Mailbox) : Mailbox :=
  { box with inbox := box.inbox.map fun _ => [], read := box.read ++ box.inbox.getD [] }

def restart (box : Mailbox) : Mailbox :=
  { box with inbox := box.inbox.map fun _ => box.saved }

/-- What waits is the end of what was saved, and that is the end of all letters. The client has
read all before, and letters alone. -/
structure Kept (box : Mailbox) : Prop where
  waiting : ∀ unread, box.inbox = some unread → ∃ gone shown, box.saved = shown ++ unread ∧
    box.letters = gone ++ box.saved ∧ ∀ letter ∈ gone ++ shown, letter ∈ box.read
  read : ∀ letter ∈ box.read, letter ∈ box.letters

/-- The client has read the letters in their order, but for those that wait. -/
def InOrder (box : Mailbox) : Prop :=
  ∀ unread, box.inbox = some unread → box.read ++ unread = box.letters

theorem Kept.put (kept : Kept box) (letter : Letter) : Kept (box.put letter) := by
  refine ⟨fun unread hinbox => ?_, fun other hother =>
    List.mem_append_left _ (kept.read other hother)⟩
  obtain ⟨before, hbefore, rfl⟩ := Option.map_eq_some_iff.mp hinbox
  obtain ⟨gone, shown, hsaved, hletters, hread⟩ := kept.waiting before hbefore
  refine ⟨gone ++ shown, [], ?_, ?_, by rwa [List.append_nil]⟩
  · dsimp only [Mailbox.put]
    rw [hbefore]
    rfl
  · dsimp only [Mailbox.put]
    rw [hbefore, hletters, hsaved]
    simp only [Option.map_some, Option.getD_some, List.append_assoc]

theorem Kept.check (kept : Kept box) : Kept box.check := by
  refine ⟨fun unread hinbox => ?_, ?_⟩
  · obtain ⟨before, hbefore, rfl⟩ := Option.map_eq_some_iff.mp hinbox
    obtain ⟨gone, shown, hsaved, hletters, hread⟩ := kept.waiting before hbefore
    refine ⟨gone, shown ++ before, by rw [List.append_nil]; exact hsaved, hletters, ?_⟩
    dsimp only [Mailbox.check]
    rw [hbefore, ← List.append_assoc]
    exact List.forall_mem_append.mpr ⟨fun letter h => List.mem_append_left _ (hread letter h),
      fun letter h => List.mem_append_right _ h⟩
  · dsimp only [Mailbox.check]
    refine List.forall_mem_append.mpr ⟨kept.read, fun letter hletter => ?_⟩
    cases hinbox : box.inbox with
    | none =>
        rw [hinbox] at hletter
        cases hletter
    | some unread =>
        rw [hinbox] at hletter
        obtain ⟨gone, shown, hsaved, hletters, _⟩ := kept.waiting unread hinbox
        rw [hletters, hsaved]
        exact List.mem_append_right _ (List.mem_append_right _ hletter)

theorem Kept.restart (kept : Kept box) : Kept box.restart := by
  refine ⟨fun unread hinbox => ?_, kept.read⟩
  obtain ⟨before, hbefore, rfl⟩ := Option.map_eq_some_iff.mp hinbox
  obtain ⟨gone, shown, _, hletters, hread⟩ := kept.waiting before hbefore
  refine ⟨gone, [], rfl, hletters, ?_⟩
  rw [List.append_nil]
  exact fun letter h => hread letter (List.mem_append_left _ h)

theorem InOrder.put (inOrder : InOrder box) (letter : Letter) : InOrder (box.put letter) := by
  intro unread hinbox
  obtain ⟨before, hbefore, rfl⟩ := Option.map_eq_some_iff.mp hinbox
  exact (List.append_assoc _ _ _).symm.trans (congrArg (· ++ [letter]) (inOrder before hbefore))

theorem InOrder.check (inOrder : InOrder box) : InOrder box.check := by
  intro unread hinbox
  obtain ⟨before, hbefore, rfl⟩ := Option.map_eq_some_iff.mp hinbox
  dsimp only [Mailbox.check]
  rw [hbefore, List.append_nil]
  exact inOrder before hbefore

end Mailbox

namespace LetterNetwork
open LetterNode

def mailbox (net : LetterNetwork) (a : String) : Mailbox :=
  ⟨(net.node a).inbox, (net.node a).saved, lettersFor a (net.accepted a), net.read a⟩

theorem lettersFor_append (self : String) (letters : List SignedLetter)
    (signedLetter : SignedLetter) : lettersFor self (letters ++ [signedLetter]) =
      lettersFor self letters ++
        if signedLetter.letter.target = self then [signedLetter.letter] else [] := by
  rw [lettersFor, List.map_append, List.filter_append]
  congr 1
  simp only [List.map_cons, List.map_nil, List.filter_cons, List.filter_nil, decide_eq_true_eq]

section
variable [Externals] [LetterTexts] {net : LetterNetwork} {self sender : String} {now : ℤ}
  {chance : Bool} {broadcast : Broadcast SignedLetter} {signedLetter : SignedLetter}
  {new : Multiset (Flight String SignedLetter)}

theorem mailbox_taken (own : (net.node self).own = self) (a : String) :
    (taken now self signedLetter new net).mailbox a = net.mailbox a ∨
      (taken now self signedLetter new net).mailbox a =
        (net.mailbox a).put signedLetter.letter := by
  unfold mailbox taken
  dsimp only
  by_cases ha : a = self
  · subst ha
    rw [Function.update_self, Function.update_self, lettersFor_append]
    dsimp only [accept]
    rw [own]
    split_ifs
    · exact .inr rfl
    · rw [List.append_nil]
      exact .inl rfl
  · rw [Function.update_of_ne ha, Function.update_of_ne ha]
    exact .inl rfl

theorem mailbox_receive (net : LetterNetwork) (own : (net.node self).own = self) (a : String) :
    (receive now self sender chance broadcast net).mailbox a = net.mailbox a ∨
      ∃ letter, (receive now self sender chance broadcast net).mailbox a =
        (net.mailbox a).put letter := by
  rcases receive_cases now sender chance broadcast own with ⟨hsame, _⟩ | ⟨new, _, hafter⟩
  · rw [hsame]
    exact .inl rfl
  · rw [hafter]
    exact (mailbox_taken own a).imp_right fun h => ⟨_, h⟩

/-- What an event does to a mailbox. -/
theorem mailbox_step (own : ∀ a, (net.node a).own = a) (event : LetterEvent) (a : String) :
    (step net event).mailbox a = net.mailbox a ∨
      (∃ letter, (step net event).mailbox a = (net.mailbox a).put letter) ∨
      (step net event).mailbox a = (net.mailbox a).check ∨
      ∃ cache, event = .restart a cache ∧ (step net event).mailbox a = (net.mailbox a).restart := by
  -- a node that gets something else than letters
  have other (self : String) (node : LetterNode) (inbox : node.inbox = (net.node self).inbox)
      (saved : node.saved = (net.node self).saved) :
      ({ net with node := Function.update net.node self node } : LetterNetwork).mailbox a =
        net.mailbox a := by
    unfold mailbox
    dsimp only
    by_cases ha : a = self
    · subst ha
      rw [Function.update_self, inbox, saved]
    · rw [Function.update_of_ne ha]
  cases event with
  | submit now self client broadcast chance =>
      exact Or.imp_right .inl (mailbox_receive
        { net with submitted := net.submitted ++ [broadcast.package] } (own self) a)
  | deliver now flight chance =>
      rw [step]
      split_ifs
      · exact Or.imp_right .inl (mailbox_receive
          { net with flights := net.flights.erase flight } (own flight.receiver) a)
      · exact .inl rfl
  | lose flight => exact .inl rfl
  | link self peers => exact .inl rfl
  | checkInbox self =>
      by_cases ha : a = self
      · subst ha
        refine .inr (.inr (.inl ?_))
        unfold mailbox
        dsimp only [step]
        rw [Function.update_self, Function.update_self]
        rfl
      · left
        unfold mailbox
        dsimp only [step]
        rw [Function.update_of_ne ha, Function.update_of_ne ha]
  | restart self cache =>
      by_cases ha : a = self
      · subst ha
        refine .inr (.inr (.inr ⟨cache, rfl, ?_⟩))
        unfold mailbox
        dsimp only [step]
        rw [Function.update_self]
        rfl
      · left
        unfold mailbox
        dsimp only [step]
        rw [Function.update_of_ne ha]
  | clean now self tp => exact .inl (other self _ rfl rfl)
  | transactions self cache => exact .inl (other self _ rfl rfl)
  | authorities self m => exact .inl (other self _ rfl rfl)

theorem kept_step (own : ∀ a, (net.node a).own = a) {a : String} (kept : (net.mailbox a).Kept)
    (event : LetterEvent) : ((step net event).mailbox a).Kept := by
  rcases mailbox_step own event a with h | ⟨letter, h⟩ | h | ⟨cache, _, h⟩ <;> rw [h]
  · exact kept
  · exact kept.put letter
  · exact kept.check
  · exact kept.restart

theorem inOrder_step (own : ∀ a, (net.node a).own = a) {a : String}
    (inOrder : (net.mailbox a).InOrder) {event : LetterEvent}
    (stays : ∀ cache, event ≠ .restart a cache) : ((step net event).mailbox a).InOrder := by
  rcases mailbox_step own event a with h | ⟨letter, h⟩ | h | ⟨cache, hevent, _⟩
  · rwa [h]
  · rw [h]
    exact inOrder.put letter
  · rw [h]
    exact inOrder.check
  · exact absurd hevent (stays cache)

/-- What the clocks and the cache promise of an event: time goes on, the last block is none from the
future, and the cache still has the letters that it had. -/
def InTime (net : LetterNetwork) : LetterEvent → Prop
  | .submit now self _ _ _ => net.clock self ≤ now
  | .deliver now flight _ => net.clock flight.receiver ≤ now
  | .clean now self tp => net.clock self ≤ now ∧ tp ≤ now
  | .restart self cache => ∀ st : SignedLetter,
      cache[letterHash st]? = (net.node self).transactionCache[letterHash st]?
  | .transactions self cache => ∀ st : SignedLetter,
      cache[letterHash st]? = (net.node self).transactionCache[letterHash st]?
  | _ => True

def Remembers (net : LetterNetwork) (a : String) (st : SignedLetter) : Prop :=
  (∃ entry, (net.node a).transactionCache[letterHash st]? = some entry ∧
      entry.tp = st.transactionDetails.creation) ∨
    st.transactionDetails.expiry < net.clock a - nodesTimeShift

/-- Every node takes a letter once, and sends it once to a peer. -/
structure Once (net : LetterNetwork) : Prop where
  taken : ∀ a, (net.accepted a).Nodup
  remembered : ∀ a, ∀ st ∈ net.accepted a, Remembers net a st
  sent : ∀ a b st, net.sent.countP (fun flight => flight.sender = a ∧ flight.receiver = b ∧
    flight.broadcast.package = st) ≤ (net.accepted a).count st

theorem lifetime_of_valid (h : signedLetterValidate signedLetter now = .ok ()) :
    now - nodesTimeShift ≤ signedLetter.transactionDetails.expiry ∧
      signedLetter.transactionDetails.expiry - signedLetter.transactionDetails.creation ≤
        transactionMaxLifetimeHours * 3600 := by
  obtain ⟨_, h⟩ := require_bind_ok_iff.mp h
  obtain ⟨_, _, h⟩ := bind_ok_iff.mp h
  obtain ⟨_, h⟩ := require_bind_ok_iff.mp h
  obtain ⟨hexpiry, h⟩ := require_bind_ok_iff.mp h
  exact ⟨hexpiry, require_ok_iff.mp h⟩

omit [Externals] [LetterTexts] in
theorem expired_of_dropped {tp creation expiry : ℤ}
    (lifetime : expiry - creation ≤ transactionMaxLifetimeHours * 3600)
    (dropped : ¬ tp - creation ≤ TransactionCache.keepSeconds) (past : tp ≤ now) :
    expiry < now - nodesTimeShift := by
  unfold TransactionCache.keepSeconds transactionMaxLifetimeHours nodesTimeShift at *
  omega

theorem getElem?_accept (signedLetter : SignedLetter) (node : LetterNode) (key : String) :
    (node.accept signedLetter).transactionCache[key]? =
      if letterHash signedLetter = key ∧ node.transactionCache[key]? = none then
        some ⟨true, signedLetter.transactionDetails.creation⟩
      else node.transactionCache[key]? :=
  TransactionCache.getElem?_keep _ _ _ _

/-- Letters that are known stay known while a cache forgets none but letters that have expired for
good. -/
theorem Remembers.updateNode {a : String} {st : SignedLetter} (remembers : Remembers net a st)
    (node : LetterNode) {clock : ℤ} (later : net.clock self ≤ clock)
    (kept : ∀ entry, (net.node self).transactionCache[letterHash st]? = some entry →
      entry.tp = st.transactionDetails.creation →
        node.transactionCache[letterHash st]? = some entry ∨
          st.transactionDetails.expiry < clock - nodesTimeShift) :
    Remembers { net with
      node := Function.update net.node self node
      clock := Function.update net.clock self clock } a st := by
  unfold Remembers
  dsimp only
  by_cases ha : a = self
  · subst ha
    rw [Function.update_self, Function.update_self]
    rcases remembers with ⟨entry, hentry, htp⟩ | hexpired
    · exact (kept entry hentry htp).imp_left fun h => ⟨entry, h, htp⟩
    · exact .inr (by omega)
  · rw [Function.update_of_ne ha, Function.update_of_ne ha]
    exact remembers

theorem Takes.countP_sent (takes : Takes now self signedLetter net new) (a b : String)
    (st : SignedLetter) : new.countP (fun flight => flight.sender = a ∧ flight.receiver = b ∧
      flight.broadcast.package = st) ≤ if a = self ∧ st = signedLetter then 1 else 0 := by
  split_ifs with hsame
  · obtain ⟨rfl, rfl⟩ := hsame
    have hnodup : (new.map Flight.receiver).Nodup := takes.receivers ▸ Finset.nodup _
    refine le_trans ?_ (Multiset.nodup_iff_count_le_one.mp hnodup b)
    rw [Multiset.count_map, Multiset.countP_eq_card_filter]
    exact Multiset.card_le_card (Multiset.monotone_filter_right _ fun _ h => h.2.1.symm)
  · rw [Nat.le_zero, Multiset.countP_eq_zero]
    rintro flight hflight ⟨hsender, _, hpackage⟩
    obtain ⟨hself, hletter⟩ := takes.origin flight hflight
    exact hsame ⟨hsender.symm.trans hself, hpackage.symm.trans hletter⟩

theorem Takes.unknown (takes : Takes now self signedLetter net new) (later : net.clock self ≤ now)
    (remembers : Remembers net self signedLetter) : False := by
  rcases remembers with ⟨entry, hentry, _⟩ | hexpired
  · rw [takes.free] at hentry
    cases hentry
  · have hexpiry := (lifetime_of_valid takes.valid).1
    omega

theorem Once.taken_step (once : Once net) (takes : Takes now self signedLetter net new)
    (later : net.clock self ≤ now) : Once (LetterNetwork.taken now self signedLetter new net) := by
  have hnew : signedLetter ∉ net.accepted self := fun hmem =>
    takes.unknown later (once.remembered self signedLetter hmem)
  have hremembers : ∀ a, ∀ st ∈ net.accepted a,
      Remembers (LetterNetwork.taken now self signedLetter new net) a st := by
    intro a st hst
    refine (once.remembered a st hst).updateNode _ later fun entry hentry _ => .inl ?_
    rw [getElem?_accept, if_neg (fun h => by rw [hentry] at h; cases h.2)]
    exact hentry
  refine ⟨fun a => ?_, fun a => ?_, fun a b st => ?_⟩ <;>
    dsimp only [LetterNetwork.taken] <;> by_cases ha : a = self
  · subst ha
    rw [Function.update_self]
    exact List.nodup_append.mpr ⟨once.taken a, List.nodup_singleton _, fun st hst other hother => by
      rw [List.mem_singleton.mp hother]
      rintro rfl
      exact hnew hst⟩
  · rw [Function.update_of_ne ha]
    exact once.taken a
  · subst ha
    rw [Function.update_self]
    refine List.forall_mem_append.mpr ⟨hremembers a, List.forall_mem_singleton.mpr (.inl ?_)⟩
    refine ⟨⟨true, signedLetter.transactionDetails.creation⟩, ?_, rfl⟩
    dsimp only [LetterNetwork.taken]
    rw [Function.update_self, getElem?_accept, if_pos ⟨rfl, takes.free⟩]
  · rw [Function.update_of_ne ha]
    exact hremembers a
  · subst ha
    rw [Function.update_self, Multiset.countP_add, List.count_append, List.count_singleton]
    refine Nat.add_le_add (once.sent a b st) ((takes.countP_sent a b st).trans ?_)
    by_cases hst : st = signedLetter
    · simp [hst]
    · simp [hst]
  · rw [Function.update_of_ne ha, Multiset.countP_add]
    refine (Nat.add_le_add (once.sent a b st) (takes.countP_sent a b st)).trans ?_
    rw [if_neg (fun h => ha h.1), Nat.add_zero]

theorem Once.tick (once : Once net) (later : net.clock self ≤ now) :
    Once { net with clock := Function.update net.clock self now } := by
  refine ⟨once.taken, fun a st hst => ?_, once.sent⟩
  have hsame := (once.remembered a st hst).updateNode (net.node self) later
    fun entry hentry _ => .inl hentry
  rwa [Function.update_eq_self] at hsame

theorem Once.receive (once : Once net) (own : (net.node self).own = self)
    (later : net.clock self ≤ now) : Once (receive now self sender chance broadcast net) := by
  rcases receive_cases now sender chance broadcast own with ⟨hsame, _⟩ | ⟨new, htakes, hafter⟩
  · rw [hsame]
    exact once.tick later
  · rw [hafter]
    exact once.taken_step htakes later

theorem Once.updateNode (once : Once net) (self : String) (node : LetterNode)
    (kept : ∀ st : SignedLetter, node.transactionCache[letterHash st]? =
      (net.node self).transactionCache[letterHash st]?) :
    Once { net with node := Function.update net.node self node } := by
  refine ⟨once.taken, fun a st hst => ?_, once.sent⟩
  have hsame := (once.remembered a st hst).updateNode node le_rfl
    fun entry hentry _ => .inl ((kept st).trans hentry)
  rwa [Function.update_eq_self] at hsame

theorem Once.clean {had : String → AuthorityManager → Prop} (once : Once net)
    (sound : Sound had net) {tp : ℤ} (later : net.clock self ≤ now) (past : tp ≤ now) :
    Once (step net (.clean now self tp)) := by
  refine ⟨once.taken, fun a st hst => ?_, once.sent⟩
  by_cases ha : a = self
  · subst ha
    obtain ⟨_, _, _, _, hvalid, _⟩ := sound.genuine a st hst
    have hlifetime := (lifetime_of_valid hvalid).2
    refine (once.remembered a st hst).updateNode _ later fun entry hentry htp => ?_
    dsimp only
    rw [TransactionCache.getElem?_clean]
    by_cases hkeep : tp - entry.tp ≤ TransactionCache.keepSeconds
    · exact .inl ⟨hentry, hkeep⟩
    · exact .inr (expired_of_dropped hlifetime (htp ▸ hkeep) past)
  · have hother := once.remembered a st hst
    unfold Remembers at hother ⊢
    dsimp only [LetterNetwork.step]
    rw [Function.update_of_ne ha, Function.update_of_ne ha]
    exact hother

theorem Once.step {had : String → AuthorityManager → Prop} (once : Once net)
    (sound : Sound had net) {event : LetterEvent} (inTime : InTime net event) :
    Once (step net event) := by
  cases event with
  | submit now self client broadcast chance =>
      have hsubmit : Once { net with submitted := net.submitted ++ [broadcast.package] } :=
        ⟨once.taken, once.remembered, once.sent⟩
      exact hsubmit.receive (sound.own self) inTime
  | deliver now flight chance =>
      rw [LetterNetwork.step]
      split_ifs
      · have hlose : Once { net with flights := net.flights.erase flight } :=
          ⟨once.taken, once.remembered, once.sent⟩
        exact hlose.receive (sound.own flight.receiver) inTime
      · exact once
  | lose flight => exact ⟨once.taken, once.remembered, once.sent⟩
  | link self peers => exact ⟨once.taken, once.remembered, once.sent⟩
  | checkInbox self =>
      have hnode := once.updateNode self
        { net.node self with inbox := (net.node self).inbox.map fun _ => [] } fun _ => rfl
      exact ⟨hnode.taken, hnode.remembered, hnode.sent⟩
  | restart self cache => exact once.updateNode self _ inTime
  | clean now self tp => exact once.clean sound inTime.1 inTime.2
  | transactions self cache => exact once.updateNode self _ inTime
  | authorities self m => exact once.updateNode self _ fun _ => rfl

/-- What a letter needs of an event: its connections stay, and no node throws when it comes. -/
def Passes (st : SignedLetter) (net : LetterNetwork) : LetterEvent → Prop
  | .deliver now flight chance => flight.broadcast.package = st →
      ((net.node flight.receiver).handleLetter now flight.sender (net.links flight.receiver) chance
        flight.broadcast).isOk = true
  | .lose flight => flight.broadcast.package ≠ st
  | .link _ _ => False
  | .restart self cache => cache[letterHash st]? ≠ none →
      (net.node self).transactionCache[letterHash st]? ≠ none
  | .transactions self cache =>
      cache[letterHash st]? = (net.node self).transactionCache[letterHash st]?
  | _ => True

/-- The peers of every node that has taken a letter have taken it too, or it is on its way. -/
structure Spreads (links : String → Finset String) (st : SignedLetter) (net : LetterNetwork) :
    Prop where
  own : ∀ a, (net.node a).own = a
  linked : net.links = links
  known : ∀ a, (net.node a).transactionCache[letterHash st]? ≠ none → st ∈ net.accepted a
  spread : ∀ a, st ∈ net.accepted a → ∀ b ∈ targets (links a) a st,
    st ∈ net.accepted b ∨ ∃ flight ∈ net.flights,
      flight.receiver = b ∧ flight.broadcast.package = st

section
variable {links : String → Finset String} {st : SignedLetter}

theorem Spreads.updateNode (spreads : Spreads links st net) (self : String) (node : LetterNode)
    (own : node.own = (net.node self).own)
    (known : node.transactionCache[letterHash st]? ≠ none →
      (net.node self).transactionCache[letterHash st]? ≠ none) :
    Spreads links st { net with node := Function.update net.node self node } := by
  refine ⟨fun a => ?_, spreads.linked, fun a => ?_, spreads.spread⟩ <;> dsimp only <;>
    by_cases ha : a = self
  · subst ha
    rw [Function.update_self]
    exact own.trans (spreads.own a)
  · rw [Function.update_of_ne ha]
    exact spreads.own a
  · subst ha
    rw [Function.update_self]
    exact fun h => spreads.known a (known h)
  · rw [Function.update_of_ne ha]
    exact spreads.known a

theorem mem_accepted_taken {a : String} :
    st ∈ (taken now self signedLetter new net).accepted a ↔
      st ∈ net.accepted a ∨ (a = self ∧ st = signedLetter) := by
  dsimp only [taken]
  by_cases ha : a = self
  · subst ha
    rw [Function.update_self, List.mem_append, List.mem_singleton]
    exact or_congr_right ⟨fun h => ⟨rfl, h⟩, And.right⟩
  · rw [Function.update_of_ne ha]
    exact ⟨.inl, fun h => h.resolve_right fun h => ha h.1⟩

theorem Spreads.taken (spreads : Spreads links st net)
    (hashes : ∀ other, letterHash other = letterHash st → other = st)
    (takes : Takes now self signedLetter net new) :
    Spreads links st (taken now self signedLetter new net) := by
  refine ⟨fun a => ?_, spreads.linked, fun a hknown => ?_, fun a ha b hb => ?_⟩
  · dsimp only [LetterNetwork.taken]
    by_cases ha : a = self
    · subst ha
      rw [Function.update_self]
      exact spreads.own a
    · rw [Function.update_of_ne ha]
      exact spreads.own a
  · rw [mem_accepted_taken]
    dsimp only [LetterNetwork.taken] at hknown
    by_cases ha : a = self
    · subst ha
      rw [Function.update_self, getElem?_accept] at hknown
      split_ifs at hknown with hkey
      · exact .inr ⟨rfl, (hashes _ hkey.1).symm⟩
      · exact .inl (spreads.known a hknown)
    · rw [Function.update_of_ne ha] at hknown
      exact .inl (spreads.known a hknown)
  · rw [mem_accepted_taken]
    rcases mem_accepted_taken.mp ha with hold | ⟨rfl, rfl⟩
    · rcases spreads.spread a hold b hb with htaken | ⟨flight, hflight, hsame⟩
      · exact .inl (.inl htaken)
      · exact .inr ⟨flight, Multiset.mem_add.mpr (.inl hflight), hsame⟩
    · rw [← spreads.linked, ← Finset.mem_val, ← takes.receivers] at hb
      obtain ⟨flight, hflight, hreceiver⟩ := Multiset.mem_map.mp hb
      exact .inr ⟨flight, Multiset.mem_add.mpr (.inr hflight), hreceiver,
        (takes.origin flight hflight).2⟩

theorem Spreads.tick (spreads : Spreads links st net) (clock : String → ℤ) :
    Spreads links st { net with clock := clock } :=
  ⟨spreads.own, spreads.linked, spreads.known, spreads.spread⟩

theorem Spreads.receive (spreads : Spreads links st net)
    (hashes : ∀ other, letterHash other = letterHash st → other = st) :
    Spreads links st (receive now self sender chance broadcast net) := by
  rcases receive_cases now sender chance broadcast (spreads.own self) with
    ⟨hsame, _⟩ | ⟨new, htakes, hafter⟩
  · rw [hsame]
    exact spreads.tick _
  · rw [hafter]
    exact spreads.taken hashes htakes

theorem Spreads.received (spreads : Spreads links st net) (letter : broadcast.package = st)
    (passes : ((net.node self).handleLetter now sender (net.links self) chance broadcast).isOk =
      true) : st ∈ (LetterNetwork.receive now self sender chance broadcast net).accepted self := by
  subst letter
  rcases receive_cases now sender chance broadcast (spreads.own self) with
    ⟨hsame, hthrown | hknown⟩ | ⟨new, _, hafter⟩
  · obtain ⟨_, hthrown⟩ := hthrown
    rw [hthrown] at passes
    cases passes
  · rw [hsame]
    exact spreads.known self hknown
  · rw [hafter, mem_accepted_taken]
    exact .inr ⟨rfl, rfl⟩

theorem receive_erase {flight : Flight String SignedLetter} (h : flight ∈ net.flights) :
    LetterNetwork.receive now self sender chance broadcast
        { net with flights := net.flights.erase flight } =
      { LetterNetwork.receive now self sender chance broadcast net with
        flights := (LetterNetwork.receive now self sender chance broadcast net).flights.erase
          flight } := by
  unfold LetterNetwork.receive
  dsimp only
  cases (net.node self).handleLetter now sender (net.links self) chance broadcast with
  | error e => rfl
  | ok handled =>
      dsimp only
      rw [Multiset.erase_add_left_pos _ h]

theorem Spreads.lose (spreads : Spreads links st net) {flight : Flight String SignedLetter}
    (done : flight.broadcast.package = st → st ∈ net.accepted flight.receiver) :
    Spreads links st { net with flights := net.flights.erase flight } := by
  refine ⟨spreads.own, spreads.linked, spreads.known, fun a ha b hb => ?_⟩
  rcases spreads.spread a ha b hb with htaken | ⟨other, hother, hreceiver, hpackage⟩
  · exact .inl htaken
  by_cases hsame : other = flight
  · subst hsame
    exact .inl (hreceiver ▸ done hpackage)
  · exact .inr ⟨other, (Multiset.mem_erase_of_ne hsame).mpr hother, hreceiver, hpackage⟩

theorem Spreads.step (spreads : Spreads links st net)
    (hashes : ∀ other, letterHash other = letterHash st → other = st) {event : LetterEvent}
    (passes : Passes st net event) : Spreads links st (step net event) := by
  cases event with
  | submit now self client broadcast chance =>
      have hsubmit : Spreads links st
          { net with submitted := net.submitted ++ [broadcast.package] } :=
        ⟨spreads.own, spreads.linked, spreads.known, spreads.spread⟩
      exact hsubmit.receive hashes
  | deliver now flight chance =>
      rw [LetterNetwork.step]
      split_ifs with hflight
      · rw [receive_erase hflight]
        exact (spreads.receive hashes).lose fun hpackage =>
          spreads.received hpackage (passes hpackage)
      · exact spreads
  | lose flight => exact spreads.lose fun hpackage => absurd hpackage passes
  | link self peers => exact passes.elim
  | checkInbox self =>
      have hnode := spreads.updateNode self
        { net.node self with inbox := (net.node self).inbox.map fun _ => [] } rfl id
      exact ⟨hnode.own, hnode.linked, hnode.known, hnode.spread⟩
  | restart self cache => exact spreads.updateNode self _ rfl passes
  | clean now self tp =>
      refine (spreads.updateNode self { net.node self with
        transactionCache := TransactionCache.clean tp (net.node self).transactionCache }
        rfl fun hknown => ?_).tick _
      obtain ⟨entry, hentry⟩ := Option.ne_none_iff_exists'.mp hknown
      rw [(TransactionCache.getElem?_clean.mp hentry).1]
      exact Option.some_ne_none entry
  | transactions self cache => exact spreads.updateNode self _ rfl fun h => passes ▸ h
  | authorities self m => exact spreads.updateNode self _ rfl id

end

/-- A network in which no letter has been written. -/
structure Fresh (net : LetterNetwork) : Prop where
  own : ∀ a, (net.node a).own = a
  unknown : ∀ a (st : SignedLetter), (net.node a).transactionCache[letterHash st]? = none
  inbox : ∀ a letters, (net.node a).inbox = some letters → letters = []
  saved : ∀ a, (net.node a).saved = []
  flights : net.flights = 0
  sent : net.sent = 0
  accepted : ∀ a, net.accepted a = []
  read : ∀ a, net.read a = []

def managersOf (net : LetterNetwork) (events : List LetterEvent) (self : String)
    (m : AuthorityManager) : Prop :=
  m = (net.node self).authorityManager ∨ .authorities self m ∈ events

theorem Fresh.sound (fresh : Fresh net) (events : List LetterEvent) :
    Sound (managersOf net events) net := by
  refine ⟨fresh.own, fun a => .inl rfl, fun flight hflight => ?_, fun a st hst => ?_⟩
  · rw [fresh.flights] at hflight
    exact absurd hflight (Multiset.notMem_zero _)
  · rw [fresh.accepted] at hst
    exact absurd hst List.not_mem_nil

omit [Externals] [LetterTexts] in
theorem lettersFor_nil (a : String) : lettersFor a [] = [] := rfl

theorem Fresh.kept (fresh : Fresh net) (a : String) : (net.mailbox a).Kept := by
  unfold mailbox
  rw [fresh.read, fresh.accepted, fresh.saved, lettersFor_nil]
  refine ⟨fun unread hinbox => ⟨[], [], ?_, rfl, List.forall_mem_nil _⟩, List.forall_mem_nil _⟩
  exact (fresh.inbox a unread hinbox).symm

theorem Fresh.inOrder (fresh : Fresh net) (a : String) : (net.mailbox a).InOrder := by
  intro unread hinbox
  unfold mailbox
  dsimp only
  rw [fresh.read, fresh.accepted, lettersFor_nil]
  exact fresh.inbox a unread hinbox

theorem Fresh.once (fresh : Fresh net) : Once net := by
  refine ⟨fun a => ?_, fun a st hst => ?_, fun a b st => ?_⟩
  · rw [fresh.accepted]
    exact List.nodup_nil
  · rw [fresh.accepted] at hst
    exact absurd hst List.not_mem_nil
  · rw [fresh.sent, Multiset.countP_zero]
    exact Nat.zero_le _

theorem Fresh.spreads (fresh : Fresh net) (st : SignedLetter) : Spreads net.links st net := by
  refine ⟨fresh.own, rfl, fun a hknown => absurd (fresh.unknown a st) hknown, fun a ha => ?_⟩
  rw [fresh.accepted] at ha
  exact absurd ha List.not_mem_nil

/-- What nodes have done with letters: what waits for a client is the end of the letters for its
node, and the client has read all others, and nothing else; and each of them was written by somebody
who may write for its source. -/
structure LettersKept (had : String → AuthorityManager → Prop) (net : LetterNetwork) : Prop where
  waiting : ∀ a unread, (net.node a).inbox = some unread → ∃ before,
    lettersFor a (net.accepted a) = before ++ unread ∧ ∀ letter ∈ before, letter ∈ net.read a
  read : ∀ a, ∀ letter ∈ net.read a, letter ∈ lettersFor a (net.accepted a)
  genuine : ∀ a, ∀ st ∈ net.accepted a, st ∈ net.submitted ∧ Genuine (had a) st

/-- Every node has taken each letter once, and sent it once to each peer. -/
structure LettersOnce (net : LetterNetwork) : Prop where
  taken : ∀ a, (net.accepted a).Nodup
  sent : ∀ a b st, net.sent.countP (fun flight => flight.sender = a ∧ flight.receiver = b ∧
    flight.broadcast.package = st) ≤ 1

section
variable {events : List LetterEvent}

theorem Fresh.sound_run (fresh : Fresh net) :
    Sound (managersOf net events) (run net events) ∧
      ∀ a, ((run net events).mailbox a).Kept := by
  apply List.foldlRecOn
    (motive := fun after => Sound (managersOf net events) after ∧ ∀ a, (after.mailbox a).Kept)
  · exact ⟨fresh.sound events, fresh.kept⟩
  · intro after hinv event hevent
    exact ⟨hinv.1.step fun _ _ hm => .inr (hm ▸ hevent),
      fun a => kept_step hinv.1.own (hinv.2 a) event⟩

theorem Fresh.inOrder_run (fresh : Fresh net) {a : String}
    (stays : ∀ cache, .restart a cache ∉ events) : ((run net events).mailbox a).InOrder := by
  refine (List.foldlRecOn (motive := fun after =>
    Sound (managersOf net events) after ∧ (after.mailbox a).InOrder) events step
    ⟨fresh.sound events, fresh.inOrder a⟩ fun after hinv event hevent => ?_).2
  exact ⟨hinv.1.step fun _ _ hm => .inr (hm ▸ hevent),
    inOrder_step hinv.1.own hinv.2 fun cache h => stays cache (h ▸ hevent)⟩

theorem Fresh.once_run (fresh : Fresh net)
    (inTime : Along (fun before event => InTime (run net before) event) [] events) :
    LettersOnce (run net events) := by
  have hstep : ∀ after, ∀ event ∈ events, Sound (managersOf net events) after ∧ Once after →
      InTime after event →
        Sound (managersOf net events) (step after event) ∧ Once (step after event) :=
    fun after event hevent hinv hinTime =>
      ⟨hinv.1.step fun self m hm => .inr (hm ▸ hevent), hinv.2.step hinv.1 hinTime⟩
  have hrun := foldl_invariant hstep ⟨fresh.sound events, fresh.once⟩ inTime
  exact ⟨hrun.2.taken, fun a b st =>
    (hrun.2.sent a b st).trans (List.nodup_iff_count_le_one.mp (hrun.2.taken a) st)⟩

end

section
variable {links : String → Finset String} {st : SignedLetter}

theorem Spreads.target (spreads : Spreads links st net)
    (quiet : ∀ flight ∈ net.flights, flight.broadcast.package ≠ st) {a : String}
    (path : Relation.ReflTransGen (fun a b => b ∈ links a) a st.letter.target)
    (taken : st ∈ net.accepted a) : st ∈ net.accepted st.letter.target := by
  have hnext : ∀ b, st ∈ net.accepted b → ∀ c ∈ targets (links b) b st, st ∈ net.accepted c := by
    intro b hb c hc
    refine (spreads.spread b hb c hc).resolve_right ?_
    rintro ⟨flight, hflight, _, hpackage⟩
    exact quiet flight hflight hpackage
  induction path using Relation.ReflTransGen.head_induction_on with
  | refl => exact taken
  | @head b c hlink _ ih =>
      have hsent := hnext b taken
      unfold targets letterPeers at hsent
      split_ifs at hsent with hown hdirect
      · rw [hown]
        exact taken
      · exact hsent _ (Finset.mem_singleton_self _)
      · exact ih (hsent c hlink)

/-- When a letter has been taken somewhere and is no longer under way, then it has come to the node
that it is for, if there is a way, and its client can read it. -/
theorem letter_delivered (fresh : Fresh net) {events : List LetterEvent} {st : SignedLetter}
    (hashes : ∀ other, letterHash other = letterHash st → other = st)
    (passes : Along (fun before event => Passes st (run net before) event) [] events)
    {origin : String} (taken : st ∈ (run net events).accepted origin)
    (quiet : ∀ flight ∈ (run net events).flights, flight.broadcast.package ≠ st)
    (path : Relation.ReflTransGen (fun a b => b ∈ net.links a) origin st.letter.target) :
    st ∈ (run net events).accepted st.letter.target ∧
      ∀ letters, ((run net events).node st.letter.target).inbox = some letters →
        st.letter ∈ (run net events).read st.letter.target ++ letters := by
  have spreads : Spreads net.links st (run net events) :=
    foldl_invariant (fun _ _ _ hinv hpasses => hinv.step hashes hpasses) (fresh.spreads st) passes
  have htaken := spreads.target quiet path taken
  refine ⟨htaken, fun letters hletters => ?_⟩
  obtain ⟨gone, shown, hsaved, hall, hread⟩ :=
    (fresh.sound_run.2 st.letter.target).waiting letters hletters
  have hmem : st.letter ∈ ((run net events).mailbox st.letter.target).letters :=
    List.mem_filter.mpr ⟨List.mem_map_of_mem htaken, decide_eq_true rfl⟩
  rw [hall, hsaved, ← List.append_assoc] at hmem
  exact (List.mem_append.mp hmem).elim
    (fun h => List.mem_append_left _ (hread _ h)) (List.mem_append_right _)

end
end

section Examples

local instance letterExternals : Externals := plainExternals

def shortLetter : SignedLetter :=
  ⟨⟨100, 200, ⟨0, 0⟩, ⟨"a", "c", "Come over."⟩⟩, [⟨"a", ""⟩]⟩

local instance shortTexts : LetterTexts where
  transactionToString _ := ""
  signedTransactionToString signedLetter := if signedLetter = shortLetter then "letter" else ""

def threeNodes : LetterNetwork where
  node a := ⟨a, default, ∅, some [], []⟩
  links a := if a = "b" then {"a", "c"} else if a = "a" ∨ a = "c" then {"b"} else ∅
  clock _ := 0
  flights := 0
  submitted := []
  accepted _ := []
  sent := 0
  read _ := []

/-- The letter goes from one end to the other, where it is read. -/
def letterEvents : List LetterEvent :=
  [.submit 110 "a" "client" ⟨0, shortLetter⟩ false,
    .deliver 111 ⟨"a", "b", ⟨2, shortLetter⟩⟩ false,
    .deliver 112 ⟨"b", "c", ⟨2, shortLetter⟩⟩ false, .checkInbox "c"]

theorem threeNodes_fresh : Fresh threeNodes where
  own _ := rfl
  unknown _ _ := Std.ExtTreeMap.getElem?_empty
  inbox _ _ h := (Option.some.inj h).symm
  saved _ := rfl
  flights := rfl
  sent := rfl
  accepted _ := rfl
  read _ := rfl

/-- When the reader's node starts again, the letter is in its inbox once more. -/
example : ((run threeNodes (letterEvents ++ [.restart "c" ∅])).node "c").inbox =
    some [shortLetter.letter] := by decide +kernel

theorem short_delivered : shortLetter ∈ (run threeNodes letterEvents).accepted "c" ∧
    ∀ letters, ((run threeNodes letterEvents).node "c").inbox = some letters →
      shortLetter.letter ∈ (run threeNodes letterEvents).read "c" ++ letters := by
  have hhash : ∀ other, letterHash other = letterHash shortLetter → other = shortLetter := by
    intro other h
    by_contra hother
    have htext : letterHash other = "" := if_neg hother
    rw [htext] at h
    exact absurd h (by decide +kernel)
  have hway : Relation.ReflTransGen (fun a b => b ∈ threeNodes.links a) "a" "c" :=
    .tail (.single (show "b" ∈ threeNodes.links "a" by decide)) (by decide)
  exact letter_delivered threeNodes_fresh hhash
    ⟨trivial, fun _ => by decide +kernel, fun _ => by decide +kernel, trivial, trivial⟩
    (show shortLetter ∈ (run threeNodes letterEvents).accepted "a" by decide +kernel)
    (by decide +kernel) hway

end Examples

end LetterNetwork
end Publiq
