import Mathlib.Order.Compare
import Mathlib.Data.Finset.Card
import Mathlib.Data.Multiset.Basic
import Mathlib.Data.List.Chain
import Mathlib.Algebra.BigOperators.Group.Multiset.Basic
import Mathlib.Algebra.Order.BigOperators.Group.Multiset
import Mathlib.Algebra.Order.Group.Nat
import Mathlib.Algebra.Group.Action.Defs
import Mathlib.Tactic.Common

/-! `broadcast_message` of `communication_rpc.cpp`. A broadcast goes on to the peers beyond a
node, seen from the sender; where there are none it may be reflected, for an echo. -/
namespace Publiq

variable {α β : Type*} [LinearOrder α]

/-- `BlockchainMessage::Broadcast`. -/
structure Broadcast (β : Type*) where
  echoes : UInt64
  package : β
  deriving DecidableEq

/-- What a node sends: one message to each of the peers. -/
structure Sent (α β : Type*) where
  broadcast : Broadcast β
  peers : Finset α

/-- `broadcast_message`. `chance` is the outcome of `chance_one_of(10)`. -/
def broadcastMessage (broadcast : Broadcast β) (self sender : α) (fullBroadcast : Bool)
    (allPeers : Finset α) (chance : Bool) : Sent α β :=
  if fullBroadcast = false ∧ self = sender then ⟨broadcast, ∅⟩
  else
    let direction := cmp self sender
    let echoes := if fullBroadcast then 2 else broadcast.echoes
    let chanceToReflect := chance && echoes ≠ 0
    let echoes := if echoes > 2 then 2 else echoes
    let filteredPeers := allPeers.filter fun peer =>
      ¬ (fullBroadcast = false ∧ direction = cmp self peer)
    if filteredPeers = ∅ ∧ chanceToReflect then
      ⟨{ broadcast with echoes := echoes - 1 }, allPeers⟩
    else ⟨{ broadcast with echoes }, filteredPeers⟩

/-- A broadcast on its way between two peers. -/
structure Flight (α β : Type*) where
  sender : α
  receiver : α
  broadcast : Broadcast β
  deriving DecidableEq

def Flight.forward (m : Flight α β) (allPeers : Finset α) (chance : Bool) : Sent α β :=
  broadcastMessage m.broadcast m.receiver m.sender false allPeers chance

/-- The second broadcast is one that the receiver of the first sends on. A node is not a
peer of itself. -/
def Forward (m next : Flight α β) : Prop :=
  ∃ (allPeers : Finset α) (chance : Bool), m.receiver ∉ allPeers ∧
    next.sender = m.receiver ∧ next.receiver ∈ (m.forward allPeers chance).peers ∧
    next.broadcast = (m.forward allPeers chance).broadcast

/-- The broadcast goes on in its direction and keeps its echoes, two at most. -/
structure Continues (m next : Flight α β) : Prop where
  sender : next.sender = m.receiver
  beyond : (m.sender < m.receiver ∧ m.receiver < next.receiver) ∨
    (next.receiver < m.receiver ∧ m.receiver < m.sender)
  echoes : next.broadcast.echoes.toNat = min m.broadcast.echoes.toNat 2

/-- The broadcast goes back and has one echo less. -/
structure Reflects (m next : Flight α β) : Prop where
  sender : next.sender = m.receiver
  back : (m.sender < m.receiver ∧ next.receiver < m.receiver) ∨
    (m.receiver < m.sender ∧ m.receiver < next.receiver)
  echoes : next.broadcast.echoes.toNat + 1 = min m.broadcast.echoes.toNat 2

theorem toNat_clamp (echoes : UInt64) :
    (if echoes > 2 then 2 else echoes).toNat = min echoes.toNat 2 := by
  have htwo : (2 : UInt64).toNat = 2 := rfl
  split_ifs with hmany
  · have hmany := UInt64.lt_iff_toNat_lt.mp hmany
    omega
  · have hfew := UInt64.le_iff_toNat_le.mp (UInt64.not_lt.mp hmany)
    omega

theorem back_of_cmp_eq {sender self peer : α} (hne : self ≠ sender)
    (h : cmp self sender = cmp self peer) :
    (sender < self ∧ peer < self) ∨ (self < sender ∧ self < peer) := by
  rcases lt_or_gt_of_ne hne with hlt | hgt
  · rw [(cmp_eq_lt_iff self sender).mpr hlt, eq_comm, cmp_eq_lt_iff] at h
    exact .inr ⟨hlt, h⟩
  · rw [(cmp_eq_gt_iff self sender).mpr hgt, eq_comm, cmp_eq_gt_iff] at h
    exact .inl ⟨hgt, h⟩

theorem beyond_of_cmp_ne {sender self peer : α} (hne : self ≠ sender) (hpeer : peer ≠ self)
    (h : cmp self sender ≠ cmp self peer) :
    (sender < self ∧ self < peer) ∨ (peer < self ∧ self < sender) := by
  rcases lt_or_gt_of_ne hne with hlt | hgt
  · rcases lt_or_gt_of_ne hpeer with hbelow | habove
    · exact .inr ⟨hbelow, hlt⟩
    · rw [(cmp_eq_lt_iff self sender).mpr hlt, (cmp_eq_lt_iff self peer).mpr habove] at h
      exact absurd rfl h
  · rcases lt_or_gt_of_ne hpeer with hbelow | habove
    · rw [(cmp_eq_gt_iff self sender).mpr hgt, (cmp_eq_gt_iff self peer).mpr hbelow] at h
      exact absurd rfl h
    · exact .inl ⟨hgt, habove⟩

/-- Every step of a broadcast goes on, or spends an echo to go back. -/
theorem continues_or_reflects {m next : Flight α β} (h : Forward m next) :
    Continues m next ∨ Reflects m next := by
  obtain ⟨allPeers, chance, hself, hsender, hpeer, hbroadcast⟩ := h
  have hclamp := toNat_clamp m.broadcast.echoes
  unfold Flight.forward broadcastMessage at hpeer hbroadcast
  by_cases hstop : m.receiver = m.sender
  · rw [if_pos ⟨rfl, hstop⟩] at hpeer
    cases hpeer
  rw [if_neg fun h => hstop h.2] at hpeer hbroadcast
  dsimp only at hpeer hbroadcast
  rw [if_neg Bool.false_ne_true] at hpeer hbroadcast
  generalize (if m.broadcast.echoes > 2 then 2 else m.broadcast.echoes) = echoes
    at hclamp hpeer hbroadcast
  by_cases hreflect : (allPeers.filter fun peer =>
      ¬ (false = false ∧ cmp m.receiver m.sender = cmp m.receiver peer)) = ∅ ∧
        (chance && m.broadcast.echoes ≠ 0) = true
  · rw [if_pos hreflect] at hpeer hbroadcast
    right
    obtain ⟨hnone, hchance⟩ := hreflect
    have hside : cmp m.receiver m.sender = cmp m.receiver next.receiver :=
      (not_not.mp (Finset.filter_eq_empty_iff.mp hnone hpeer)).2
    refine ⟨hsender, back_of_cmp_eq hstop hside, ?_⟩
    have hpos : m.broadcast.echoes.toNat ≠ 0 := by
      intro hzero
      have hechoes : m.broadcast.echoes ≠ 0 :=
        of_decide_eq_true (Bool.and_eq_true_iff.mp hchance).2
      exact hechoes (UInt64.toNat_inj.mp hzero)
    have hone : (1 : UInt64).toNat = 1 := rfl
    have hle : (1 : UInt64) ≤ echoes := by
      rw [UInt64.le_iff_toNat_le]
      omega
    rw [hbroadcast]
    change (echoes - 1).toNat + 1 = _
    rw [UInt64.toNat_sub_of_le _ _ hle]
    omega
  · rw [if_neg hreflect] at hpeer hbroadcast
    left
    obtain ⟨hmem, hside⟩ := Finset.mem_filter.mp hpeer
    have hne : next.receiver ≠ m.receiver := fun hsame => hself (hsame ▸ hmem)
    refine ⟨hsender, beyond_of_cmp_ne hstop hne (fun h => hside ⟨rfl, h⟩), ?_⟩
    rw [hbroadcast]
    exact hclamp

def Flight.upwards (m : Flight α β) : Bool := m.sender < m.receiver

theorem Continues.upwards {m next : Flight α β} (h : Continues m next) :
    next.upwards = m.upwards := by
  unfold Flight.upwards
  rw [h.sender]
  rcases h.beyond with ⟨hm, hnext⟩ | ⟨hnext, hm⟩
  · simp [hm, hnext]
  · simp [hm.not_gt, hnext.not_gt]

theorem Reflects.upwards {m next : Flight α β} (h : Reflects m next) :
    next.upwards ≠ m.upwards := by
  unfold Flight.upwards
  rw [h.sender]
  rcases h.back with ⟨hm, hnext⟩ | ⟨hm, hnext⟩
  · simp [hm, hnext.not_gt]
  · simp [hm.not_gt, hnext]

def reflections (m : Flight α β) : List (Flight α β) → ℕ
  | [] => 0
  | next :: rest => (if next.upwards = m.upwards then 0 else 1) + reflections next rest

def ahead (V : Finset α) (m : Flight α β) : Finset α :=
  if m.upwards then V.filter (m.receiver < ·) else V.filter (· < m.receiver)

/-- What a broadcast can still do in a network: pass the nodes ahead, and for each echo come
back through all of them. -/
def rank (V : Finset α) (m : Flight α β) : ℕ :=
  min m.broadcast.echoes.toNat 2 * (V.card + 1) + (ahead V m).card

theorem card_ahead_le (V : Finset α) (m : Flight α β) : (ahead V m).card ≤ V.card := by
  unfold ahead
  split_ifs <;> exact Finset.card_filter_le V _

theorem Continues.ahead_lt {V : Finset α} {m next : Flight α β} (h : Continues m next)
    (inside : next.receiver ∈ V) : (ahead V next).card < (ahead V m).card := by
  have hupwards := h.upwards
  have hsub : ahead V next ⊆ (ahead V m).erase next.receiver := by
    intro node hnode
    unfold ahead at hnode ⊢
    unfold Flight.upwards at hupwards hnode ⊢
    rw [hupwards] at hnode
    rcases h.beyond with ⟨hm, hnext⟩ | ⟨hnext, hm⟩
    · simp only [hm, decide_true, ↓reduceIte, Finset.mem_filter, Finset.mem_erase] at hnode ⊢
      exact ⟨hnode.2.ne', hnode.1, hnext.trans hnode.2⟩
    · simp only [hm.not_gt, decide_false, Bool.false_eq_true, ↓reduceIte, Finset.mem_filter,
        Finset.mem_erase] at hnode ⊢
      exact ⟨hnode.2.ne, hnode.1, hnode.2.trans hnext⟩
  have hmem : next.receiver ∈ ahead V m := by
    unfold ahead Flight.upwards
    rcases h.beyond with ⟨hm, hnext⟩ | ⟨hnext, hm⟩
    · simp [hm, hnext, inside]
    · simp [hm.not_gt, hnext, inside]
  calc (ahead V next).card ≤ ((ahead V m).erase next.receiver).card := Finset.card_le_card hsub
    _ < (ahead V m).card := Finset.card_erase_lt_of_mem hmem

theorem rank_lt {V : Finset α} {m next : Flight α β} (h : Forward m next)
    (inside : next.receiver ∈ V) : rank V next < rank V m := by
  rcases continues_or_reflects h with h | h
  · have hahead := h.ahead_lt inside
    have hechoes := h.echoes
    unfold rank
    rw [hechoes, Nat.min_assoc, Nat.min_self]
    omega
  · have hahead := card_ahead_le V next
    have hechoes := h.echoes
    have hfew : min next.broadcast.echoes.toNat 2 = next.broadcast.echoes.toNat := by omega
    unfold rank
    rw [hfew, ← hechoes, Nat.add_mul, Nat.one_mul]
    omega

/-- What holds along a forwarding path in a network. -/
structure Floods (V : Finset α) (m : Flight α β) (path : List (Flight α β)) : Prop where
  /-- The ids move on in one direction, and turn only where an echo is spent. -/
  steps : (m :: path).IsChain fun a b => Continues a b ∨ Reflects a b
  /-- Whatever the first sender says, at most two echoes go on. -/
  echoes : ∀ next ∈ path, next.broadcast.echoes ≤ 2
  /-- Each time the path turns one echo is gone, and none otherwise. -/
  spent : reflections m path + min (path.getLastD m).broadcast.echoes.toNat 2 =
    min m.broadcast.echoes.toNat 2
  finite : path.length ≤ 3 * V.card + 2

theorem echoes_le_two {m next : Flight α β} (h : Continues m next ∨ Reflects m next) :
    next.broadcast.echoes ≤ 2 := by
  rw [UInt64.le_iff_toNat_le]
  have htwo : (2 : UInt64).toNat = 2 := rfl
  rcases h with h | h
  · have hechoes := h.echoes
    omega
  · have hechoes := h.echoes
    omega

theorem reflections_add_echoes {m : Flight α β} {path : List (Flight α β)}
    (steps : (m :: path).IsChain fun a b => Continues a b ∨ Reflects a b) :
    reflections m path + min (path.getLastD m).broadcast.echoes.toNat 2 =
      min m.broadcast.echoes.toNat 2 := by
  induction path generalizing m with
  | nil => simp [reflections]
  | cons next rest ih =>
      rw [List.isChain_cons_cons] at steps
      have hrest := ih steps.2
      rw [List.getLastD_cons, reflections, Nat.add_assoc, hrest]
      rcases steps.1 with h | h
      · rw [if_pos h.upwards, h.echoes]
        omega
      · have hechoes := h.echoes
        rw [if_neg h.upwards]
        omega

theorem length_le_rank {V : Finset α} {m : Flight α β} {path : List (Flight α β)}
    (chain : (m :: path).IsChain Forward) (inside : ∀ next ∈ path, next.receiver ∈ V) :
    path.length ≤ rank V m := by
  induction path generalizing m with
  | nil => exact Nat.zero_le _
  | cons next rest ih =>
      rw [List.isChain_cons_cons] at chain
      have hrest := ih chain.2 fun x hx => inside x (.tail next hx)
      have hrank := rank_lt chain.1 (inside next List.mem_cons_self)
      rw [List.length_cons]
      omega

theorem rank_le (V : Finset α) (m : Flight α β) : rank V m ≤ 3 * V.card + 2 := by
  have hahead := card_ahead_le V m
  have hechoes : min m.broadcast.echoes.toNat 2 * (V.card + 1) ≤ 2 * (V.card + 1) :=
    Nat.mul_le_mul_right _ (Nat.min_le_right _ _)
  unfold rank
  omega

theorem floods_of_isChain {V : Finset α} {m : Flight α β} {path : List (Flight α β)}
    (chain : (m :: path).IsChain Forward) (inside : ∀ next ∈ path, next.receiver ∈ V) :
    Floods V m path := by
  have steps : (m :: path).IsChain fun a b => Continues a b ∨ Reflects a b :=
    chain.imp fun _ _ => continues_or_reflects
  refine ⟨steps, ?_, reflections_add_echoes steps,
    (length_le_rank chain inside).trans (rank_le V m)⟩
  intro next hnext
  obtain ⟨i, hi, rfl⟩ := List.getElem_of_mem hnext
  exact echoes_le_two ((List.isChain_iff_getElem.mp steps) i (Nat.succ_lt_succ hi))

/-- A node of the network receives one of the broadcasts that are under way, and sends it on
to peers of the network. -/
def Delivers (V : Finset α) (s s' : Multiset (Flight α β)) : Prop :=
  ∃ (m : Flight α β) (rest : Multiset (Flight α β)) (allPeers : Finset α) (chance : Bool),
    s = m ::ₘ rest ∧ m.receiver ∉ allPeers ∧ allPeers ⊆ V ∧
    s' = rest + (m.forward allPeers chance).peers.val.map fun peer =>
      ⟨m.receiver, peer, (m.forward allPeers chance).broadcast⟩

def weight (V : Finset α) (s : Multiset (Flight α β)) : ℕ :=
  (s.map fun m => (V.card + 1) ^ (rank V m + 1)).sum

theorem forward_subset (m : Flight α β) (allPeers : Finset α) (chance : Bool) :
    (m.forward allPeers chance).peers ⊆ allPeers := by
  unfold Flight.forward broadcastMessage
  by_cases hstop : m.receiver = m.sender
  · rw [if_pos ⟨rfl, hstop⟩]
    exact Finset.empty_subset allPeers
  · rw [if_neg fun h => hstop h.2]
    dsimp only
    rw [if_neg Bool.false_ne_true]
    by_cases hreflect : (allPeers.filter fun peer =>
        ¬ (false = false ∧ cmp m.receiver m.sender = cmp m.receiver peer)) = ∅ ∧
          (chance && m.broadcast.echoes ≠ 0) = true
    · rw [if_pos hreflect]
    · rw [if_neg hreflect]
      exact Finset.filter_subset _ allPeers

theorem weight_lt {V : Finset α} {s s' : Multiset (Flight α β)} (h : Delivers V s s') :
    weight V s' < weight V s := by
  obtain ⟨m, rest, allPeers, chance, rfl, hself, hnetwork, rfl⟩ := h
  have hpeers := forward_subset m allPeers chance
  have hcard : (m.forward allPeers chance).peers.card ≤ V.card :=
    Finset.card_le_card (hpeers.trans hnetwork)
  -- each of the broadcasts sent on is of a lower rank
  have hsent := Multiset.sum_le_card_nsmul
    (((m.forward allPeers chance).peers.val.map fun peer =>
      (⟨m.receiver, peer, (m.forward allPeers chance).broadcast⟩ : Flight α β)).map
      fun m => (V.card + 1) ^ (rank V m + 1)) ((V.card + 1) ^ rank V m) (by
    intro x hx
    obtain ⟨next, hnext, rfl⟩ := Multiset.mem_map.mp hx
    obtain ⟨peer, hpeer, rfl⟩ := Multiset.mem_map.mp hnext
    have hforward : Forward m ⟨m.receiver, peer, (m.forward allPeers chance).broadcast⟩ :=
      ⟨allPeers, chance, hself, rfl, hpeer, rfl⟩
    exact Nat.pow_le_pow_right (Nat.succ_pos _)
      (rank_lt hforward (hnetwork (hpeers hpeer))))
  rw [Multiset.card_map, Multiset.card_map, smul_eq_mul] at hsent
  have hpow : 0 < (V.card + 1) ^ rank V m := Nat.pow_pos (Nat.succ_pos _)
  have hless : (m.forward allPeers chance).peers.card * (V.card + 1) ^ rank V m <
      (V.card + 1) ^ (rank V m + 1) :=
    calc (m.forward allPeers chance).peers.card * (V.card + 1) ^ rank V m
        ≤ V.card * (V.card + 1) ^ rank V m := Nat.mul_le_mul_right _ hcard
      _ < (V.card + 1) * (V.card + 1) ^ rank V m :=
          Nat.mul_lt_mul_of_pos_right (Nat.lt_succ_self _) hpow
      _ = (V.card + 1) ^ (rank V m + 1) := by rw [Nat.pow_succ, Nat.mul_comm]
  rw [weight, Multiset.map_add, Multiset.sum_add, weight, Multiset.map_cons, Multiset.sum_cons,
    Nat.add_comm]
  exact Nat.add_lt_add_right (Nat.lt_of_le_of_lt hsent hless) _

/-- A broadcast floods a finite network only for a while: however the deliveries are
ordered and whatever peers and chances the nodes have, they come to an end. And every path
that it takes meanwhile is as it should be. -/
theorem flooding_terminates (V : Finset α) :
    (∀ (m : Flight α β) (path : List (Flight α β)), (m :: path).IsChain Forward →
      (∀ next ∈ path, next.receiver ∈ V) → Floods V m path) ∧
    WellFounded fun s' s : Multiset (Flight α β) => Delivers V s s' := by
  constructor
  · intro m path chain inside
    exact floods_of_isChain chain inside
  · exact Subrelation.wf (fun h => weight_lt h) (measure (weight V)).wf

/-- A broadcast with too many echoes goes up to the last node and is reflected there. -/
theorem reflected_floods : Floods {1, 2, 3} (⟨1, 2, ⟨5, "block"⟩⟩ : Flight ℕ String)
    [⟨2, 3, ⟨2, "block"⟩⟩, ⟨3, 2, ⟨1, "block"⟩⟩] := by
  apply (flooding_terminates {1, 2, 3}).1
  · have hup : Forward (⟨1, 2, ⟨5, "block"⟩⟩ : Flight ℕ String) ⟨2, 3, ⟨2, "block"⟩⟩ :=
      ⟨{1, 3}, true, by decide, rfl, by decide, rfl⟩
    have hback : Forward (⟨2, 3, ⟨2, "block"⟩⟩ : Flight ℕ String) ⟨3, 2, ⟨1, "block"⟩⟩ :=
      ⟨{2}, true, by decide, rfl, by decide, rfl⟩
    exact .cons_cons hup (.cons_cons hback (.singleton _))
  · decide

end Publiq
