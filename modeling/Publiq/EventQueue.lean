import Mathlib.Data.List.Basic
import Mathlib.Data.List.Pairwise
import Mathlib.Data.List.TakeWhile
import Mathlib.Tactic.Common

/-! `event_queue_manager` of `common.cpp`, between the sockets and the handlers of a node.
What a handler reschedules waits in a queue of its own until the received packets are
handled. -/
namespace Publiq

/-- What the queue tells apart among the packets. -/
inductive PacketType where
  | streamJoin
  | streamDrop
  | socketOpenRefused
  | socketOpenError
  | other
  deriving DecidableEq

/-- The packets of the sockets themselves, which a drop does not take away. -/
def PacketType.isControl : PacketType → Bool
  | .other => false
  | _ => true

/-- A `stream_event` of the type `message`. The time of receipt is that of a clock that
ticks with every packet. -/
structure StreamMessage (σ π α : Type*) where
  source : σ
  peerid : π
  type : PacketType
  content : α
  tm : ℕ
  rescheduled : ℕ
  deriving DecidableEq

/-- `stream_event`. -/
inductive StreamEvent (σ π α : Type*) where
  | timer
  | message (message : StreamMessage σ π α)
  deriving DecidableEq

/-- What `wait` and `receive` give: the packets of the sockets that are ready, whether the
timer is out, and what there is on demand. -/
structure Reception (σ π α : Type*) where
  streams : List (σ × π × List (PacketType × α))
  timerOut : Bool
  onDemand : Option (σ × π × List (PacketType × α))

/-- `event_queue_manager`, with the clock. -/
structure EventQueueManager (σ π α : Type*) where
  eventRead : Bool
  queue : List (StreamEvent σ π α)
  queueAsync : List (StreamMessage σ π α)
  clock : ℕ
  deriving DecidableEq

def messages {σ π α : Type*} (events : List (StreamEvent σ π α)) : List (StreamMessage σ π α) :=
  events.filterMap fun
    | .timer => none
    | .message message => some message

variable {σ π α : Type*}

def StreamMessage.SamePeer (a b : StreamMessage σ π α) : Prop :=
  a.source = b.source ∧ a.peerid = b.peerid

instance [DecidableEq σ] [DecidableEq π] (a b : StreamMessage σ π α) :
    Decidable (a.SamePeer b) :=
  inferInstanceAs (Decidable (_ ∧ _))

namespace EventQueueManager

def empty : EventQueueManager σ π α := ⟨false, [], [], 0⟩

/-- The first step of `next`: what was handled leaves the queue. -/
def pop (s : EventQueueManager σ π α) : EventQueueManager σ π α :=
  { s with queue := s.queue.tail }

def pushPackets (s : EventQueueManager σ π α) (packets : σ × π × List (PacketType × α)) :
    EventQueueManager σ π α :=
  let (source, peerid, packets) := packets
  { s with
    eventRead := s.eventRead || !packets.isEmpty
    queue := s.queue ++ (packets.zipIdx s.clock).map fun ((type, content), tm) =>
      .message ⟨source, peerid, type, content, tm, 0⟩
    clock := s.clock + packets.length }

/-- The packets of the sockets in the order of the sockets, then the timer, then what there
is on demand. -/
def pushReception (s : EventQueueManager σ π α) (r : Reception σ π α) :
    EventQueueManager σ π α :=
  let s := r.streams.foldl pushPackets s
  let s := if r.timerOut then { s with queue := s.queue ++ [.timer] } else s
  r.onDemand.elim s s.pushPackets

/-- The last step of `next`: an empty queue waits for events. -/
def receive (s : EventQueueManager σ π α) (r : Reception σ π α) : EventQueueManager σ π α :=
  if s.queue.isEmpty then s.pushReception r else s

/-- The third step of `next`: what was rescheduled goes on once received packets are
handled. -/
def mergeAsync (s : EventQueueManager σ π α) : EventQueueManager σ π α :=
  if s.queue.isEmpty && s.eventRead then
    { s with eventRead := false, queue := s.queueAsync.map .message, queueAsync := [] }
  else s

/-- `reschedule`, of the message at the front. -/
def reschedule (s : EventQueueManager σ π α) : Except String (EventQueueManager σ π α) :=
  match s.queue with
  | .message message :: _ => .ok { s with
      queueAsync := s.queueAsync ++ [{ message with rescheduled := message.rescheduled + 1 }] }
  | _ => .error "event_queue_manager::reschedule: queue.empty() || queue.front().et != detail::stream_event::message"

section
variable [DecidableEq σ] [DecidableEq π]

def isDropped (s : EventQueueManager σ π α) (message : StreamMessage σ π α) : Bool :=
  (messages s.queue).any fun other =>
    other.type = .streamDrop && other.source = message.source && other.peerid = message.peerid

def isStale (s : EventQueueManager σ π α) : StreamEvent σ π α → Bool
  | .timer => false
  | .message message => !message.type.isControl && s.isDropped message

/-- The second step of `next`: remove the pending requests at the front that are already
dropped. The queue shrinks meanwhile, but only by requests, so the drops stay the same. -/
def removeDropped (s : EventQueueManager σ π α) : EventQueueManager σ π α :=
  { s with queue := s.queue.dropWhile s.isStale }

/-- `event_queue_manager::next`. -/
def next (s : EventQueueManager σ π α) (r : Reception σ π α) : EventQueueManager σ π α :=
  s.pop.removeDropped.mergeAsync.receive r

/-- What `removeDropped` removes. -/
def removed (s : EventQueueManager σ π α) : List (StreamMessage σ π α) :=
  messages (s.queue.takeWhile s.isStale)

/-- What `receive` takes in. -/
def taken (s : EventQueueManager σ π α) (r : Reception σ π α) : List (StreamMessage σ π α) :=
  if s.queue.isEmpty then messages (s.pushReception r).queue else []

end
end EventQueueManager

/-- What a node has seen of its queue: the messages received, in their order; those that
left the queue, with whether they were delivered; those rescheduled. -/
structure Trace (σ π α : Type*) where
  received : List (StreamMessage σ π α)
  left : List (StreamMessage σ π α × Bool)
  again : List (StreamMessage σ π α)
  deriving DecidableEq

/-- The loop of a node around its queue. -/
structure EventLoop (σ π α : Type*) where
  manager : EventQueueManager σ π α
  trace : Trace σ π α
  deriving DecidableEq

namespace EventLoop
open EventQueueManager

def start : EventLoop σ π α := ⟨.empty, ⟨[], [], []⟩⟩

/-- The handler of the message at the front is run, and may reschedule it if it is a
request: no handler of a control packet does. -/
def handle (l : EventLoop σ π α) (again : Bool) : EventLoop σ π α :=
  match l.manager.queue with
  | .message message :: _ =>
      let l := { l with trace := { l.trace with left := l.trace.left ++ [(message, true)] } }
      if again && !message.type.isControl then
        match l.manager.reschedule with
        | .ok manager => ⟨manager, { l.trace with again := l.trace.again ++
            [{ message with rescheduled := message.rescheduled + 1 }] }⟩
        | .error _ => l
      else l
  | _ => l

def DropsClear (s : EventQueueManager σ π α) : Prop :=
  ∀ drop rest, s.queue = .message drop :: rest → drop.type = .streamDrop →
    ∀ message ∈ s.queueAsync, ¬ message.SamePeer drop

theorem dropsClear_of_nil {s : EventQueueManager σ π α} (h : s.queueAsync = []) :
    DropsClear s := by
  intro drop rest _ _ message hmem
  rw [h] at hmem
  cases hmem

variable [DecidableEq σ] [DecidableEq π]

/-- `next`, with what it removes and takes in. -/
def advance (l : EventLoop σ π α) (r : Reception σ π α) : EventLoop σ π α where
  manager := l.manager.next r
  trace :=
    { l.trace with
      left := l.trace.left ++ l.manager.pop.removed.map (·, false)
      received := l.trace.received ++ l.manager.pop.removeDropped.mergeAsync.taken r }

/-- One turn of `node::run`. -/
def turn (l : EventLoop σ π α) (x : Reception σ π α × Bool) : EventLoop σ π α :=
  (l.advance x.1).handle x.2

def run (l : EventLoop σ π α) (inputs : List (Reception σ π α × Bool)) : EventLoop σ π α :=
  inputs.foldl turn l

def pending (l : EventLoop σ π α) : List (StreamMessage σ π α) := messages l.manager.pop.queue

/-- Every turn of the run delivers a drop only to a node that rescheduled nothing of the peer. -/
def Clear (l : EventLoop σ π α) : List (Reception σ π α × Bool) → Prop
  | [] => True
  | x :: rest => DropsClear (l.manager.next x.1) ∧ Clear (l.turn x) rest

/-- The semantics of a stream. -/
structure KeepsStreams (l : EventLoop σ π α) : Prop where
  /-- Packets come in their order. -/
  order : l.trace.received.Pairwise fun a b => a.tm < b.tm
  /-- Each packet received leaves the queue once, in the order of arrival. -/
  fresh : l.trace.received =
    ((l.trace.left.map Prod.fst) ++ l.pending).filter fun message => message.rescheduled = 0
  /-- Each packet leaves the queue once for each time it is rescheduled, in that order. -/
  again : l.trace.again =
    ((l.trace.left.map Prod.fst) ++ l.pending).filter (fun message => message.rescheduled ≠ 0) ++
      l.manager.queueAsync
  /-- Only requests of peers that drop afterwards leave the queue without being delivered. -/
  removed : ∀ message, (message, false) ∈ l.trace.left → message.type.isControl = false ∧
    ∃ drop ∈ l.trace.received, drop.type = .streamDrop ∧ message.SamePeer drop ∧
      message.tm < drop.tm
  /-- After a drop no request of the peer is delivered that was received before it. -/
  dropped : l.trace.left.Pairwise fun a b => a.2 = true → b.2 = true →
    a.1.type = .streamDrop → b.1.type.isControl = false → b.1.SamePeer a.1 → a.1.tm < b.1.tm

end EventLoop

@[simp] theorem messages_nil : messages ([] : List (StreamEvent σ π α)) = [] := rfl

@[simp] theorem messages_timer (events : List (StreamEvent σ π α)) :
    messages (.timer :: events) = messages events := rfl

@[simp] theorem messages_message (message : StreamMessage σ π α)
    (events : List (StreamEvent σ π α)) :
    messages (.message message :: events) = message :: messages events := rfl

@[simp] theorem messages_append (a b : List (StreamEvent σ π α)) :
    messages (a ++ b) = messages a ++ messages b := List.filterMap_append

@[simp] theorem messages_map_message (l : List (StreamMessage σ π α)) :
    messages (l.map .message) = l := by
  induction l with
  | nil => rfl
  | cons message rest ih => rw [List.map_cons, messages_message, ih]

theorem mem_messages {events : List (StreamEvent σ π α)} {message : StreamMessage σ π α} :
    message ∈ messages events ↔ .message message ∈ events := by
  induction events with
  | nil => simp
  | cons event rest ih =>
      cases event with
      | timer => simp [ih]
      | message other => simp [ih]

namespace EventLoop
open EventQueueManager

def Fresh (s : EventQueueManager σ π α) : Prop :=
  ∀ message ∈ messages s.queue, message.rescheduled = 0

def Again (s : EventQueueManager σ π α) : Prop :=
  ∀ message ∈ messages s.queue, message.type.isControl = false ∧ message.rescheduled ≠ 0

/-- What holds between the steps of a turn, of a queue whose every event is still to be
handled. -/
structure Inv (s : EventQueueManager σ π α) (t : Trace σ π α) : Prop where
  order : t.received.Pairwise fun a b => a.tm < b.tm
  fresh : t.received =
    ((t.left.map Prod.fst) ++ messages s.queue).filter fun message => message.rescheduled = 0
  again : t.again =
    ((t.left.map Prod.fst) ++ messages s.queue).filter (fun message => message.rescheduled ≠ 0) ++
      s.queueAsync
  removed : ∀ message, (message, false) ∈ t.left → message.type.isControl = false ∧
    ∃ drop ∈ t.received, drop.type = .streamDrop ∧ message.SamePeer drop ∧ message.tm < drop.tm
  dropped : t.left.Pairwise fun a b => a.2 = true → b.2 = true →
    a.1.type = .streamDrop → b.1.type.isControl = false → b.1.SamePeer a.1 → a.1.tm < b.1.tm
  receipt : ∀ message ∈ t.received, message.tm < s.clock
  past : ∀ message, message ∈ t.left.map Prod.fst ∨ message ∈ messages s.queue ∨
    message ∈ s.queueAsync → message.tm < s.clock
  kind : Fresh s ∨ Again s
  waiting : ∀ message ∈ s.queueAsync, message.type.isControl = false ∧ message.rescheduled ≠ 0
  /-- What waits of a peer was received after the drops of the peer. -/
  after : ∀ drop, (drop, true) ∈ t.left → drop.type = .streamDrop →
    ∀ message, message ∈ messages s.queue ∨ message ∈ s.queueAsync →
      message.type.isControl = false → message.SamePeer drop → drop.tm < message.tm

theorem Inv.suffix {s : EventQueueManager σ π α} {t : Trace σ π α} (inv : Inv s t)
    (fresh : Fresh s) : messages s.queue <:+ t.received := by
  have hall : (messages s.queue).filter (fun message => message.rescheduled = 0) =
      messages s.queue := by
    apply List.filter_eq_self.mpr
    intro message hmem
    exact decide_eq_true (fresh message hmem)
  rw [inv.fresh, List.filter_append, hall]
  exact List.suffix_append _ _

theorem Inv.fresh_of_control {s : EventQueueManager σ π α} {t : Trace σ π α} (inv : Inv s t)
    {message : StreamMessage σ π α} (hmem : message ∈ messages s.queue)
    (hcontrol : message.type.isControl = true) : Fresh s := by
  rcases inv.kind with fresh | again
  · exact fresh
  · rw [(again message hmem).1] at hcontrol
    cases hcontrol

theorem inv_start : Inv (EventQueueManager.empty : EventQueueManager σ π α) ⟨[], [], []⟩ where
  order := .nil
  fresh := rfl
  again := rfl
  removed := fun _ h => nomatch h
  dropped := .nil
  receipt := fun _ h => nomatch h
  past := fun _ h => by rcases h with h | h | h <;> cases h
  kind := .inl fun _ h => nomatch h
  waiting := fun _ h => nomatch h
  after := fun _ h => nomatch h

/-- Packets that come in go to the end of a fresh queue. -/
theorem Inv.push {s : EventQueueManager σ π α} {t : Trace σ π α} (inv : Inv s t)
    (fresh : Fresh s) {events : List (StreamEvent σ π α)} {clock : ℕ} (eventRead : Bool)
    (later : s.clock ≤ clock)
    (new : ∀ message ∈ messages events, message.rescheduled = 0 ∧ s.clock ≤ message.tm ∧
      message.tm < clock)
    (ordered : (messages events).Pairwise fun a b => a.tm < b.tm) :
    Inv { s with eventRead, queue := s.queue ++ events, clock }
        { t with received := t.received ++ messages events } ∧
      Fresh { s with eventRead, queue := s.queue ++ events, clock } := by
  have hnew : (messages events).filter (fun message => message.rescheduled = 0) =
      messages events := by
    apply List.filter_eq_self.mpr
    intro message hmem
    exact decide_eq_true (new message hmem).1
  have hold : (messages events).filter (fun message => message.rescheduled ≠ 0) = [] := by
    apply List.filter_eq_nil_iff.mpr
    intro message hmem
    simp [(new message hmem).1]
  have hfresh : Fresh { s with eventRead, queue := s.queue ++ events, clock } := by
    intro message hmem
    simp only [messages_append, List.mem_append] at hmem
    rcases hmem with hmem | hmem
    · exact fresh message hmem
    · exact (new message hmem).1
  refine ⟨⟨?_, ?_, ?_, ?_, inv.dropped, ?_, ?_, .inl hfresh, inv.waiting, ?_⟩, hfresh⟩
  · rw [List.pairwise_append]
    refine ⟨inv.order, ordered, ?_⟩
    intro a ha b hb
    exact Nat.lt_of_lt_of_le (inv.receipt a ha) (new b hb).2.1
  · simp only [messages_append, ← List.append_assoc, List.filter_append _ (messages events), hnew]
    rw [← inv.fresh]
  · simp only [messages_append, ← List.append_assoc, List.filter_append _ (messages events), hold,
      List.append_nil]
    exact inv.again
  · intro message hmem
    obtain ⟨hrequest, drop, hdrop, hrest⟩ := inv.removed message hmem
    exact ⟨hrequest, drop, List.mem_append_left _ hdrop, hrest⟩
  · intro message hmem
    rcases List.mem_append.mp hmem with hmem | hmem
    · exact Nat.lt_of_lt_of_le (inv.receipt message hmem) later
    · exact (new message hmem).2.2
  · intro message hmem
    simp only [messages_append, List.mem_append] at hmem
    rcases hmem with hmem | (hmem | hmem) | hmem
    · exact Nat.lt_of_lt_of_le (inv.past message (.inl hmem)) later
    · exact Nat.lt_of_lt_of_le (inv.past message (.inr (.inl hmem))) later
    · exact (new message hmem).2.2
    · exact Nat.lt_of_lt_of_le (inv.past message (.inr (.inr hmem))) later
  · intro drop hdrop htype message hmem hrequest hsame
    rcases hmem with hmem | hmem
    · simp only [messages_append, List.mem_append] at hmem
      rcases hmem with hmem | hmem
      · exact inv.after drop hdrop htype message (.inl hmem) hrequest hsame
      · have hpast := inv.past drop (.inl (List.mem_map_of_mem hdrop))
        exact Nat.lt_of_lt_of_le hpast (new message hmem).2.1
    · exact inv.after drop hdrop htype message (.inr hmem) hrequest hsame

theorem messages_packets (source : σ) (peerid : π) (packets : List (PacketType × α)) (clock : ℕ) :
    (∀ message ∈ messages ((packets.zipIdx clock).map fun ((type, content), tm) =>
        StreamEvent.message ⟨source, peerid, type, content, tm, 0⟩),
      message.rescheduled = 0 ∧ clock ≤ message.tm ∧ message.tm < clock + packets.length) ∧
    (messages ((packets.zipIdx clock).map fun ((type, content), tm) =>
        StreamEvent.message ⟨source, peerid, type, content, tm, 0⟩)).Pairwise
      fun a b => a.tm < b.tm := by
  induction packets generalizing clock with
  | nil => exact ⟨fun _ h => (nomatch h), .nil⟩
  | cons packet rest ih =>
      obtain ⟨hall, hordered⟩ := ih (clock + 1)
      simp only [List.zipIdx_cons, List.map_cons, messages_message, List.length_cons]
      constructor
      · intro message hmem
        rcases List.mem_cons.mp hmem with rfl | hmem
        · exact ⟨rfl, Nat.le_refl _, by simp⟩
        · obtain ⟨hzero, hlow, hhigh⟩ := hall message hmem
          exact ⟨hzero, by omega, by omega⟩
      · rw [List.pairwise_cons]
        refine ⟨?_, hordered⟩
        intro message hmem
        exact (hall message hmem).2.1

def Received (s : EventQueueManager σ π α) (t : Trace σ π α) : Prop :=
  Inv s { t with received := t.received ++ messages s.queue } ∧ Fresh s

theorem received_pushPackets {s : EventQueueManager σ π α} {t : Trace σ π α} (h : Received s t)
    (packets : σ × π × List (PacketType × α)) : Received (s.pushPackets packets) t := by
  obtain ⟨source, peerid, packets⟩ := packets
  obtain ⟨hnew, hordered⟩ := messages_packets source peerid packets s.clock
  have hpush := h.1.push h.2 (s.eventRead || !packets.isEmpty) (Nat.le_add_right _ _) hnew hordered
  simp only [List.append_assoc, ← messages_append] at hpush
  exact hpush

theorem received_pushReception {s : EventQueueManager σ π α} {t : Trace σ π α} (h : Received s t)
    (r : Reception σ π α) : Received (s.pushReception r) t := by
  have hstreams : Received (r.streams.foldl pushPackets s) t := by
    generalize r.streams = streams
    induction streams generalizing s with
    | nil => exact h
    | cons packets rest ih => exact ih (received_pushPackets h packets)
  have htimer : Received (if r.timerOut then
      { r.streams.foldl pushPackets s with
        queue := (r.streams.foldl pushPackets s).queue ++ [.timer] }
      else r.streams.foldl pushPackets s) t := by
    split_ifs
    · have hpush := @Inv.push _ _ _ _ _ hstreams.1 hstreams.2 [.timer] _
        (r.streams.foldl pushPackets s).eventRead (Nat.le_refl _) (fun _ h => nomatch h) .nil
      simp only [List.append_assoc, ← messages_append] at hpush
      exact hpush
    · exact hstreams
  unfold pushReception
  cases r.onDemand with
  | none => exact htimer
  | some packets => exact received_pushPackets htimer packets

theorem inv_receive {s : EventQueueManager σ π α} {t : Trace σ π α} (inv : Inv s t)
    (r : Reception σ π α) :
    Inv (s.receive r) { t with received := t.received ++ s.taken r } := by
  unfold receive taken
  split_ifs with hempty
  · have hnil := List.isEmpty_iff.mp hempty
    refine (received_pushReception ⟨?_, ?_⟩ r).1
    · rw [hnil, messages_nil, List.append_nil]
      exact inv
    · intro message hmem
      rw [hnil] at hmem
      cases hmem
  · rw [List.append_nil]
    exact inv

theorem inv_mergeAsync {s : EventQueueManager σ π α} {t : Trace σ π α} (inv : Inv s t) :
    Inv s.mergeAsync t := by
  unfold mergeAsync
  split_ifs with hmerge
  · have hnil := List.isEmpty_iff.mp (Bool.and_eq_true_iff.mp hmerge).1
    have hzero : s.queueAsync.filter (fun message => message.rescheduled = 0) = [] := by
      apply List.filter_eq_nil_iff.mpr
      intro message hmem
      simp [(inv.waiting message hmem).2]
    have hagain : s.queueAsync.filter (fun message => message.rescheduled ≠ 0) =
        s.queueAsync := by
      apply List.filter_eq_self.mpr
      intro message hmem
      exact decide_eq_true (inv.waiting message hmem).2
    have hfresh := inv.fresh
    have hrescheduled := inv.again
    rw [hnil, messages_nil, List.append_nil] at hfresh hrescheduled
    refine ⟨inv.order, ?_, ?_, inv.removed, inv.dropped, inv.receipt, ?_, .inr ?_,
      fun _ h => (nomatch h), ?_⟩
    · rw [messages_map_message, List.filter_append, hzero, List.append_nil]
      exact hfresh
    · rw [messages_map_message, List.filter_append, hagain, List.append_nil]
      exact hrescheduled
    · intro message hmem
      rw [messages_map_message] at hmem
      rcases hmem with hmem | hmem | hmem
      · exact inv.past message (.inl hmem)
      · exact inv.past message (.inr (.inr hmem))
      · cases hmem
    · intro message hmem
      rw [messages_map_message] at hmem
      exact inv.waiting message hmem
    · intro drop hdrop htype message hmem
      rw [messages_map_message] at hmem
      rcases hmem with hmem | hmem
      · exact inv.after drop hdrop htype message (.inr hmem)
      · cases hmem
  · exact inv

/-- What is handled next leaves the queue delivered, unless a drop of its peer leaves a
rescheduled message behind. -/
theorem inv_delivered {s : EventQueueManager σ π α} {t : Trace σ π α} (inv : Inv s t)
    (clear : DropsClear s) {message : StreamMessage σ π α} {rest : List (StreamEvent σ π α)}
    (hqueue : s.queue = .message message :: rest) :
    Inv { s with queue := rest } { t with left := t.left ++ [(message, true)] } := by
  have hmessages : messages s.queue = message :: messages rest := by
    rw [hqueue, messages_message]
  have hall : (t.left ++ [(message, true)]).map Prod.fst ++ messages rest =
      t.left.map Prod.fst ++ messages s.queue := by
    simp [hmessages]
  have hfront : message ∈ messages s.queue := by
    rw [hmessages]
    exact List.mem_cons_self
  have hsub : ∀ other ∈ messages rest, other ∈ messages s.queue := by
    intro other hmem
    rw [hmessages]
    exact .tail message hmem
  refine ⟨inv.order, ?_, ?_, ?_, ?_, inv.receipt, ?_, ?_, inv.waiting, ?_⟩
  · rw [hall]
    exact inv.fresh
  · rw [hall]
    exact inv.again
  · intro other hmem
    rcases List.mem_append.mp hmem with hmem | hmem
    · exact inv.removed other hmem
    · cases List.mem_singleton.mp hmem
  · rw [List.pairwise_append]
    refine ⟨inv.dropped, List.pairwise_singleton _ _, ?_⟩
    rintro ⟨drop, delivered⟩ hdrop other hother rfl _ htype hrequest hsame
    cases List.mem_singleton.mp hother
    exact inv.after drop hdrop htype message (.inl hfront) hrequest hsame
  · intro other hmem
    apply inv.past
    rw [List.map_append, List.mem_append] at hmem
    rcases hmem with (hmem | hmem) | hmem | hmem
    · exact .inl hmem
    · cases List.mem_singleton.mp hmem
      exact .inr (.inl hfront)
    · exact .inr (.inl (hsub other hmem))
    · exact .inr (.inr hmem)
  · rcases inv.kind with fresh | again
    · exact .inl fun other hmem => fresh other (hsub other hmem)
    · exact .inr fun other hmem => again other (hsub other hmem)
  · intro drop hdrop htype other hmem hrequest hsame
    rcases List.mem_append.mp hdrop with hdrop | hdrop
    · apply inv.after drop hdrop htype other _ hrequest hsame
      exact hmem.imp_left (hsub other)
    · cases List.mem_singleton.mp hdrop
      rcases hmem with hmem | hmem
      · have hfresh := inv.fresh_of_control hfront (by rw [htype]; rfl)
        have hordered := inv.order.sublist (inv.suffix hfresh).sublist
        rw [hmessages, List.pairwise_cons] at hordered
        exact hordered.1 other hmem
      · exact absurd hsame (clear _ rest hqueue htype other hmem)

/-- A request at the front that was handled waits once more. -/
theorem inv_rescheduled {s : EventQueueManager σ π α} {t : Trace σ π α} (inv : Inv s t)
    {message : StreamMessage σ π α} (hrequest : message.type.isControl = false)
    (known : message.tm < s.clock)
    (later : ∀ drop, (drop, true) ∈ t.left → drop.type = .streamDrop →
      message.SamePeer drop → drop.tm < message.tm) :
    Inv { s with queueAsync := s.queueAsync ++
          [{ message with rescheduled := message.rescheduled + 1 }] }
        { t with again := t.again ++
          [{ message with rescheduled := message.rescheduled + 1 }] } := by
  refine ⟨inv.order, inv.fresh, ?_, inv.removed, inv.dropped, inv.receipt, ?_, inv.kind, ?_, ?_⟩
  · rw [inv.again, List.append_assoc]
  · intro other hmem
    rcases hmem with hmem | hmem | hmem
    · exact inv.past other (.inl hmem)
    · exact inv.past other (.inr (.inl hmem))
    · rcases List.mem_append.mp hmem with hmem | hmem
      · exact inv.past other (.inr (.inr hmem))
      · cases List.mem_singleton.mp hmem
        exact known
  · intro other hmem
    rcases List.mem_append.mp hmem with hmem | hmem
    · exact inv.waiting other hmem
    · cases List.mem_singleton.mp hmem
      exact ⟨hrequest, Nat.succ_ne_zero _⟩
  · intro drop hdrop htype other hmem hother hsame
    rcases hmem with hmem | hmem
    · exact inv.after drop hdrop htype other (.inl hmem) hother hsame
    · rcases List.mem_append.mp hmem with hmem | hmem
      · exact inv.after drop hdrop htype other (.inr hmem) hother hsame
      · cases List.mem_singleton.mp hmem
        exact later drop hdrop htype hsame

/-- Timers in the queue do not matter. -/
theorem inv_of_messages {s : EventQueueManager σ π α} {t : Trace σ π α} (inv : Inv s t)
    {queue : List (StreamEvent σ π α)} (h : messages queue = messages s.queue) :
    Inv { s with queue } t where
  order := inv.order
  fresh := by
    rw [h]
    exact inv.fresh
  again := by
    rw [h]
    exact inv.again
  removed := inv.removed
  dropped := inv.dropped
  receipt := inv.receipt
  past := by
    rw [h]
    exact inv.past
  kind := by
    unfold Fresh Again
    rw [h]
    exact inv.kind
  waiting := inv.waiting
  after := by
    rw [h]
    exact inv.after

theorem inv_handle {l : EventLoop σ π α} (inv : Inv l.manager l.trace)
    (clear : DropsClear l.manager) (again : Bool) :
    Inv (l.handle again).manager.pop (l.handle again).trace := by
  unfold handle
  cases hqueue : l.manager.queue with
  | nil => exact inv_of_messages inv (by simp [hqueue])
  | cons event rest =>
      cases event with
      | timer => exact inv_of_messages inv (by simp [hqueue])
      | message message =>
          have hdelivered := inv_delivered inv clear hqueue
          have hfront : message ∈ messages l.manager.queue := by
            rw [hqueue, messages_message]
            exact List.mem_cons_self
          by_cases hagain : (again && !message.type.isControl) = true
          · obtain ⟨_, hrequest⟩ := Bool.and_eq_true_iff.mp hagain
            have hrequest : message.type.isControl = false := by simpa using hrequest
            have hresult := inv_rescheduled hdelivered hrequest
              (inv.past message (.inr (.inl hfront))) ?_
            · simp only [reschedule, hqueue, pop, hagain, ↓reduceIte, List.tail_cons]
              exact hresult
            · intro drop hdrop htype hsame
              rcases List.mem_append.mp hdrop with hdrop | hdrop
              · exact inv.after drop hdrop htype message (.inl hfront) hrequest hsame
              · cases List.mem_singleton.mp hdrop
                rw [htype] at hrequest
                cases hrequest
          · simp only [pop, hqueue, hagain, Bool.false_eq_true, ↓reduceIte, List.tail_cons]
            exact hdelivered

variable [DecidableEq σ] [DecidableEq π]

/-- Only requests of peers with a drop behind them are removed. -/
theorem inv_removeDropped {s : EventQueueManager σ π α} {t : Trace σ π α} (inv : Inv s t) :
    Inv s.removeDropped { t with left := t.left ++ s.removed.map (·, false) } := by
  have hsplit : s.removed ++ messages s.removeDropped.queue = messages s.queue := by
    rw [removed, removeDropped, ← messages_append, List.takeWhile_append_dropWhile]
  have hall : (t.left ++ s.removed.map (·, false)).map Prod.fst ++
      messages s.removeDropped.queue = t.left.map Prod.fst ++ messages s.queue := by
    rw [List.map_append, List.map_map, List.append_assoc, ← hsplit]
    congr 2
    exact List.map_id _
  have hsub : ∀ other ∈ messages s.removeDropped.queue, other ∈ messages s.queue := by
    intro other hmem
    rw [← hsplit]
    exact List.mem_append_right _ hmem
  have hleft : ∀ other, (other, true) ∈ t.left ++ s.removed.map (·, false) →
      (other, true) ∈ t.left := by
    intro other hmem
    rcases List.mem_append.mp hmem with hmem | hmem
    · exact hmem
    · simp at hmem
  refine ⟨inv.order, ?_, ?_, ?_, ?_, inv.receipt, ?_, ?_, inv.waiting, ?_⟩
  · rw [hall]
    exact inv.fresh
  · rw [hall]
    exact inv.again
  · intro message hmem
    rcases List.mem_append.mp hmem with hmem | hmem
    · exact inv.removed message hmem
    · obtain ⟨_, hremoved, heq⟩ := List.mem_map.mp hmem
      cases heq
      have hstale := List.mem_takeWhile_imp (mem_messages.mp hremoved)
      obtain ⟨hrequest, hdropped⟩ := Bool.and_eq_true_iff.mp hstale
      obtain ⟨drop, hdrop, hcheck⟩ := List.any_eq_true.mp hdropped
      simp only [Bool.and_eq_true, decide_eq_true_eq] at hcheck
      obtain ⟨⟨htype, hsource⟩, hpeerid⟩ := hcheck
      have hfresh := inv.fresh_of_control hdrop (by rw [htype]; rfl)
      have hsuffix := inv.suffix hfresh
      have hordered := inv.order.sublist hsuffix.sublist
      rw [← hsplit, List.pairwise_append] at hordered
      refine ⟨by simpa using hrequest, drop, hsuffix.mem hdrop, htype,
        ⟨hsource.symm, hpeerid.symm⟩, ?_⟩
      -- the drop itself is not removed, so it is still behind the message
      rw [← hsplit, List.mem_append] at hdrop
      rcases hdrop with hdrop | hdrop
      · have hcontrol := List.mem_takeWhile_imp (mem_messages.mp hdrop)
        rw [isStale, htype] at hcontrol
        cases hcontrol
      · exact hordered.2.2 message hremoved drop hdrop
  · rw [List.pairwise_append]
    refine ⟨inv.dropped, ?_, ?_⟩
    · rw [List.pairwise_map]
      exact List.pairwise_of_forall fun _ _ h => nomatch h
    · intro a _ b hb _ hdelivered
      obtain ⟨message, _, rfl⟩ := List.mem_map.mp hb
      cases hdelivered
  · intro message hmem
    apply inv.past
    have hmem : message ∈ (t.left ++ s.removed.map (·, false)).map Prod.fst ++
        messages s.removeDropped.queue ∨ message ∈ s.queueAsync := by
      rw [List.mem_append, or_assoc]
      exact hmem
    rw [hall, List.mem_append, or_assoc] at hmem
    exact hmem
  · rcases inv.kind with fresh | again
    · exact .inl fun other hmem => fresh other (hsub other hmem)
    · exact .inr fun other hmem => again other (hsub other hmem)
  · intro drop hdrop htype message hmem
    exact inv.after drop (hleft drop hdrop) htype message (hmem.imp_left (hsub message))

theorem inv_advance {l : EventLoop σ π α} (inv : Inv l.manager.pop l.trace)
    (r : Reception σ π α) : Inv (l.advance r).manager (l.advance r).trace :=
  inv_receive (inv_mergeAsync (inv_removeDropped inv)) r

theorem inv_run {l : EventLoop σ π α} (inv : Inv l.manager.pop l.trace)
    {inputs : List (Reception σ π α × Bool)} (clear : l.Clear inputs) :
    Inv (l.run inputs).manager.pop (l.run inputs).trace := by
  induction inputs generalizing l with
  | nil => exact inv
  | cons x rest ih => exact ih (inv_handle (inv_advance inv x.1) clear.1 x.2) clear.2

/-- A node that delivers no drop while a rescheduled message of the peer waits keeps the
semantics of its streams. -/
theorem keepsStreams_of_clear (inputs : List (Reception σ π α × Bool))
    (clear : start.Clear inputs) : KeepsStreams (start.run inputs) := by
  have inv := inv_run (l := start) inv_start clear
  exact ⟨inv.order, inv.fresh, inv.again, inv.removed, inv.dropped⟩

def fromClient (type : PacketType) (content : String) : Reception String String String :=
  ⟨[("rpc", "client", [(type, content)])], false, none⟩

def quiet : Reception String String String := ⟨[], true, none⟩

/-- A client asks for its inbox, waits for a turn and leaves when it has its answer. -/
theorem inbox_keepsStreams : KeepsStreams (start.run
    [(fromClient .other "CheckInbox", true), (quiet, false),
      (fromClient .streamDrop "", false), (quiet, false)]) := by
  apply keepsStreams_of_clear
  refine ⟨dropsClear_of_nil ?_, dropsClear_of_nil ?_, dropsClear_of_nil ?_,
    dropsClear_of_nil ?_, trivial⟩ <;> rfl

/-- A client that leaves while its request is rescheduled is answered all the same: the
drop is looked for among the received packets only. -/
theorem dropped_client_answered :
    ¬ ∀ inputs : List (Reception String String String × Bool),
      KeepsStreams (start.run inputs) := by
  intro claim
  have hdropped := (claim [(fromClient .other "CheckInbox", true), (quiet, true),
    (fromClient .streamDrop "", false), (quiet, false)]).dropped
  revert hdropped
  decide +kernel

end EventLoop
end Publiq
