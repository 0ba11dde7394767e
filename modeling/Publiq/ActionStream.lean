import Publiq.ActionLog
import Publiq.Foundation.Undo

/-! `get_actions` of `communication_rpc.cpp`: the log handed out in parts, with the
actions left out that are taken back within a part. -/
namespace Publiq
open Message Checked

/-- `BlockchainMessage::LoggedTransactionsRequest`. -/
structure LoggedTransactionsRequest where
  startIndex : ℕ
  maxCount : ℕ
  deriving DecidableEq

/-- `ACTION_LOG_MAX_RESPONSE`. -/
def actionLogMaxResponse : ℕ := 10000

/-- How much `get_actions` answers at most. -/
def LoggedTransactionsRequest.limit (request : LoggedTransactionsRequest) : ℕ :=
  if request.maxCount < actionLogMaxResponse then request.maxCount else actionLogMaxResponse

/-- `get_action_size`. -/
def getActionSize : LogPacket → ℕ
  | .block log => 1 + log.rewards.length + log.transactions.length +
      log.unitUriImpacts.length + log.appliedSponsorItems.length
  | .transaction _ => 1

/-- Where `get_actions` stands: the entries from `i` on, what it has collected (the last
one first) and its size. -/
structure Gathering where
  ahead : List LoggedTransaction
  i : ℕ
  count : ℕ
  stack : List LoggedTransaction
  deriving DecidableEq

def LoggedTransaction.move (info : LoggedTransaction) : Move LogPacket :=
  if info.reverted then .revert info.action else .apply info.action

namespace Gathering

def push (g : Gathering) (info : LoggedTransaction) (rest : List LoggedTransaction) : Gathering :=
  ⟨rest, g.i + 1, g.count + getActionSize info.action, { info with index := g.i } :: g.stack⟩

def pop (g : Gathering) (top : LoggedTransaction) (stack rest : List LoggedTransaction) :
    Gathering :=
  ⟨rest, g.i + 1, g.count - getActionSize top.action, stack⟩

end Gathering

namespace ActionLog

/-- The loop of `get_actions` "when next action is revert". It reads the log before it
looks whether `i` is still inside. -/
def takeReverts (maxCount : ℕ) : List LoggedTransaction → Gathering → Checked Gathering
  | [], g =>
      if g.count < maxCount then .error (.outOfRange "action_log::at") else pure g
  | info :: rest, g =>
      if g.count < maxCount then
        if info.reverted then takeReverts maxCount rest (g.push info rest) else pure g
      else pure g

/-- The loop of `get_actions` that removes "all not received entries and their reverts". -/
def takeActions (maxCount startIndex : ℕ) : List LoggedTransaction → Gathering → Checked Gathering
  | [], g => pure g
  | info :: rest, g =>
      if g.count < maxCount then
        if info.reverted = true ∧ startIndex ≤ info.index then
          match g.stack with
          | [] => .error (.logicError "action_stack.top")
          | top :: stack => takeActions maxCount startIndex rest (g.pop top stack rest)
        else takeActions maxCount startIndex rest (g.push info rest)
      else pure g

/-- `get_actions`. -/
def getActions (request : LoggedTransactionsRequest) (log : ActionLog) :
    Checked (List LoggedTransaction) := do
  let start : Gathering :=
    ⟨log.actions.drop request.startIndex, request.startIndex, 0, []⟩
  let g ← if request.startIndex < log.actions.length then
    takeReverts request.limit start.ahead start else pure start
  let g ← takeActions request.limit request.startIndex g.ahead g
  pure g.stack.reverse

/-- The entries that stand, the latest one first, after some more entries from the place
`i` on. Each revert must take back the latest of them. -/
def standing : ℕ → List LoggedTransaction → List LoggedTransaction →
    Option (List LoggedTransaction)
  | _, stood, [] => some stood
  | i, stood, info :: rest =>
      if info.reverted then
        match stood with
        | [] => none
        | top :: stood =>
            if info = { top with reverted := true } then standing (i + 1) stood rest else none
      else if info.index = i then standing (i + 1) (info :: stood) rest else none

/-- Every entry applies an action under its own place, or takes back the latest action
that stands. -/
def WellNested (log : ActionLog) : Prop := (standing 0 [] log.actions).isSome

instance (log : ActionLog) : Decidable log.WellNested :=
  inferInstanceAs (Decidable ((standing 0 [] log.actions).isSome = true))

/-- What stands below a place, the latest entry first. -/
structure Below (i : ℕ) (stood : List LoggedTransaction) : Prop where
  applied : ∀ info ∈ stood, info.reverted = false
  lt : ∀ info ∈ stood, info.index < i
  descending : stood.Pairwise fun later earlier => earlier.index < later.index

theorem Below.nil (i : ℕ) : Below i [] := ⟨by simp, by simp, .nil⟩

theorem Below.push {i : ℕ} {stood : List LoggedTransaction} (below : Below i stood)
    {info : LoggedTransaction} (happly : info.reverted = false) (hindex : info.index = i) :
    Below (i + 1) (info :: stood) := by
  refine ⟨?_, ?_, List.pairwise_cons.mpr ⟨?_, below.descending⟩⟩
  · intro entry hmem
    rcases List.mem_cons.mp hmem with rfl | hmem
    · exact happly
    · exact below.applied entry hmem
  · intro entry hmem
    rcases List.mem_cons.mp hmem with rfl | hmem
    · omega
    · exact Nat.lt_succ_of_lt (below.lt entry hmem)
  · intro entry hmem
    rw [hindex]
    exact below.lt entry hmem

theorem Below.pop {i : ℕ} {top : LoggedTransaction} {stood : List LoggedTransaction}
    (below : Below i (top :: stood)) : Below (i + 1) stood :=
  ⟨fun info hmem => below.applied info (List.mem_cons_of_mem top hmem),
    fun info hmem => Nat.lt_succ_of_lt (below.lt info (List.mem_cons_of_mem top hmem)),
    (List.pairwise_cons.mp below.descending).2⟩

theorem standing_cons {i : ℕ} {stood rest final : List LoggedTransaction}
    {info : LoggedTransaction} (h : standing i stood (info :: rest) = some final) :
    (info.reverted = false ∧ info.index = i ∧ standing (i + 1) (info :: stood) rest = some final) ∨
    ∃ top below, stood = top :: below ∧ info = { top with reverted := true } ∧
      standing (i + 1) below rest = some final := by
  unfold standing at h
  split_ifs at h with hrevert hindex
  · cases stood with
    | nil => cases h
    | cons top below =>
        dsimp only at h
        split_ifs at h with htop
        exact .inr ⟨top, below, rfl, htop, h⟩
  · exact .inl ⟨Bool.eq_false_iff.mpr hrevert, hindex, h⟩

theorem standing_append {i : ℕ} {stood first second final : List LoggedTransaction}
    (h : standing i stood (first ++ second) = some final) (below : Below i stood) :
    ∃ between, standing i stood first = some between ∧ Below (i + first.length) between ∧
      standing (i + first.length) between second = some final := by
  induction first generalizing i stood with
  | nil => exact ⟨stood, rfl, below, h⟩
  | cons info rest ih =>
      have hlength : i + (info :: rest).length = i + 1 + rest.length := by
        rw [List.length_cons]
        omega
      rw [hlength]
      rcases standing_cons h with ⟨happly, hindex, hrest⟩ | ⟨top, earlier, rfl, rfl, hrest⟩
      · obtain ⟨between, hfirst, hbelow, hsecond⟩ := ih hrest (below.push happly hindex)
        refine ⟨between, ?_, hbelow, hsecond⟩
        simpa [standing, happly, hindex] using hfirst
      · obtain ⟨between, hfirst, hbelow, hsecond⟩ := ih hrest below.pop
        refine ⟨between, ?_, hbelow, hsecond⟩
        simpa [standing] using hfirst

section
variable {σ : Type*} (client : Replayer LogPacket σ) (initial : σ)

def process (entries : List LoggedTransaction) (state : σ) : σ :=
  client.follow (entries.map LoggedTransaction.move) state

/-- The state after the first `number` entries of the log. -/
def replay (log : ActionLog) (number : ℕ) : σ := process client (log.actions.take number) initial

def place (startIndex : ℕ) : List LoggedTransaction → ℕ
  | [] => startIndex
  | top :: _ => top.index + 1

/-- What holds at every turn of the loops of `get_actions`: the collected entries lead a
client from `startIndex` to `i`, and up to each of them to the place after it. -/
structure Gathers (log : ActionLog) (startIndex : ℕ) (g : Gathering)
    (stood : List LoggedTransaction) : Prop where
  inside : startIndex ≤ g.i ∧ g.i + g.ahead.length = log.actions.length
  ahead_eq : g.ahead = log.actions.drop g.i
  nested : (standing g.i stood g.ahead).isSome
  below : Below g.i stood
  count_eq : g.count = (g.stack.map fun info => getActionSize info.action).sum
  places : ∀ info ∈ g.stack, startIndex ≤ info.index ∧ info.index < g.i
  /-- The actions that stand since `startIndex` were collected last. -/
  collected : ∃ reverts, g.stack = stood.filter (startIndex ≤ ·.index) ++ reverts
  leads : process client g.stack.reverse (replay client initial log startIndex) =
    replay client initial log g.i
  leadsTo : ∀ stack, stack <:+ g.stack →
    process client stack.reverse (replay client initial log startIndex) =
      replay client initial log (place startIndex stack)

variable {client initial} {log : ActionLog} {startIndex : ℕ} {g : Gathering}
  {info : LoggedTransaction} {stood rest : List LoggedTransaction}

theorem replay_succ {i : ℕ} (h : log.actions.drop i = info :: rest) :
    replay client initial log (i + 1) = client.step (replay client initial log i) info.move := by
  have hat : log.actions[i]? = some info := by
    rw [← List.head?_drop, h]
    rfl
  unfold replay process
  rw [List.take_add_one, hat, Option.toList_some, List.map_append]
  exact client.follow_snoc _ _ _

theorem Gathers.leads_push (gathers : Gathers client initial log startIndex g stood)
    (hahead : g.ahead = info :: rest) :
    process client (g.push info rest).stack.reverse (replay client initial log startIndex) =
      replay client initial log (g.i + 1) := by
  have hdrop : log.actions.drop g.i = info :: rest := gathers.ahead_eq ▸ hahead
  rw [replay_succ hdrop, ← gathers.leads]
  unfold Gathering.push process
  rw [List.reverse_cons, List.map_append]
  exact client.follow_snoc _ _ _

theorem Gathers.push (gathers : Gathers client initial log startIndex g stood)
    (hahead : g.ahead = info :: rest) {stood' : List LoggedTransaction}
    (nested : (standing (g.i + 1) stood' rest).isSome) (below : Below (g.i + 1) stood')
    (collected : ∃ reverts, (g.push info rest).stack =
      stood'.filter (startIndex ≤ ·.index) ++ reverts) :
    Gathers client initial log startIndex (g.push info rest) stood' := by
  have hinside := gathers.inside
  have hdrop : log.actions.drop g.i = info :: rest := gathers.ahead_eq ▸ hahead
  rw [hahead, List.length_cons] at hinside
  refine ⟨⟨Nat.le_succ_of_le hinside.1, ?_⟩, ?_, nested, below, ?_, ?_, collected,
    gathers.leads_push hahead, ?_⟩
  · change g.i + 1 + rest.length = _
    omega
  · change rest = log.actions.drop (g.i + 1)
    rw [← List.drop_drop, hdrop]
    rfl
  · change g.count + getActionSize info.action = _
    rw [gathers.count_eq]
    exact Nat.add_comm _ _
  · intro entry hmem
    rcases List.mem_cons.mp hmem with rfl | hmem
    · exact ⟨hinside.1, Nat.lt_succ_self g.i⟩
    · exact ⟨(gathers.places entry hmem).1, Nat.lt_succ_of_lt (gathers.places entry hmem).2⟩
  · intro stack hsuffix
    rcases List.suffix_cons_iff.mp hsuffix with rfl | hsuffix
    · exact gathers.leads_push hahead
    · exact gathers.leadsTo stack hsuffix

/-- The next entry takes back what was collected last. -/
theorem Gathers.pop {top : LoggedTransaction} {below stack : List LoggedTransaction}
    (gathers : Gathers client initial log startIndex g (top :: below))
    (hahead : g.ahead = { top with reverted := true } :: rest) (hstack : g.stack = top :: stack)
    (nested : (standing (g.i + 1) below rest).isSome)
    (collected : ∃ reverts, stack = below.filter (startIndex ≤ ·.index) ++ reverts) :
    Gathers client initial log startIndex (g.pop top stack rest) below := by
  have hinside := gathers.inside
  have hdrop : log.actions.drop g.i = { top with reverted := true } :: rest :=
    gathers.ahead_eq ▸ hahead
  have happlied : top.reverted = false := gathers.below.applied top List.mem_cons_self
  rw [hahead, List.length_cons] at hinside
  refine ⟨⟨Nat.le_succ_of_le hinside.1, ?_⟩, ?_, nested, gathers.below.pop, ?_, ?_, collected,
    ?_, ?_⟩
  · change g.i + 1 + rest.length = _
    omega
  · change rest = log.actions.drop (g.i + 1)
    rw [← List.drop_drop, hdrop]
    rfl
  · change g.count - getActionSize top.action = _
    rw [gathers.count_eq, hstack, List.map_cons, List.sum_cons]
    exact Nat.add_sub_cancel_left _ _
  · intro entry hmem
    have hplace := gathers.places entry (hstack ▸ List.mem_cons_of_mem top hmem)
    exact ⟨hplace.1, Nat.lt_succ_of_lt hplace.2⟩
  · change process client stack.reverse _ = replay client initial log (g.i + 1)
    rw [replay_succ hdrop, ← gathers.leads, hstack, List.reverse_cons]
    unfold process
    rw [List.map_append]
    have hmove : [top].map LoggedTransaction.move = [.apply top.action] := by
      simp [LoggedTransaction.move, happlied]
    rw [hmove]
    exact (client.follow_revert _ _ _).symm
  · intro suffix hsuffix
    exact gathers.leadsTo suffix (hstack ▸ hsuffix.trans (List.suffix_cons top stack))

theorem filter_eq_nil_of_lt {top : LoggedTransaction} {below : List LoggedTransaction} {i : ℕ}
    (h : Below i (top :: below)) (hlt : top.index < startIndex) :
    below.filter (startIndex ≤ ·.index) = [] := by
  rw [List.filter_eq_nil_iff]
  intro entry hmem
  have hearlier := (List.pairwise_cons.mp h.descending).1 entry hmem
  simp only [decide_eq_true_eq, not_le]
  omega

theorem Gathers.next_apply (gathers : Gathers client initial log startIndex g stood)
    (hahead : g.ahead = info :: rest) (happly : info.reverted = false) :
    Gathers client initial log startIndex (g.push info rest) (info :: stood) := by
  obtain ⟨final, hnested⟩ := Option.isSome_iff_exists.mp gathers.nested
  obtain ⟨reverts, hstack⟩ := gathers.collected
  rw [hahead] at hnested
  rcases standing_cons hnested with ⟨_, hindex, hrest⟩ | ⟨top, below, _, rfl, _⟩
  · refine gathers.push hahead (by rw [hrest]; rfl) (gathers.below.push happly hindex)
      ⟨reverts, ?_⟩
    have hown : { info with index := g.i } = info := by
      rw [← hindex]
    have hstart : startIndex ≤ info.index := hindex ▸ gathers.inside.1
    rw [List.filter_cons_of_pos (by simpa using hstart)]
    unfold Gathering.push
    rw [hown, hstack]
    rfl
  · cases happly

theorem Gathers.next_revert (gathers : Gathers client initial log startIndex g stood)
    (hahead : g.ahead = info :: rest) (hrevert : info.reverted = true) :
    ∃ top below, stood = top :: below ∧ info.index = top.index ∧ (top.index < startIndex →
      Gathers client initial log startIndex (g.push info rest) below) := by
  obtain ⟨final, hnested⟩ := Option.isSome_iff_exists.mp gathers.nested
  rw [hahead] at hnested
  rcases standing_cons hnested with ⟨happly, _, _⟩ | ⟨top, below, rfl, rfl, hrest⟩
  · rw [hrevert] at happly
    cases happly
  · refine ⟨top, below, rfl, rfl, fun hlt => ?_⟩
    have hnone := filter_eq_nil_of_lt gathers.below hlt
    exact gathers.push hahead (by rw [hrest]; rfl) gathers.below.pop
      ⟨(g.push { top with reverted := true } rest).stack, by rw [hnone]; rfl⟩

theorem Gathers.next_pop (gathers : Gathers client initial log startIndex g stood)
    (hahead : g.ahead = info :: rest) (hrevert : info.reverted = true)
    (hindex : startIndex ≤ info.index) :
    ∃ top stack below, g.stack = top :: stack ∧
      Gathers client initial log startIndex (g.pop top stack rest) below := by
  obtain ⟨final, hnested⟩ := Option.isSome_iff_exists.mp gathers.nested
  obtain ⟨reverts, hstack⟩ := gathers.collected
  rw [hahead] at hnested
  rcases standing_cons hnested with ⟨happly, _, _⟩ | ⟨top, below, rfl, rfl, hrest⟩
  · rw [hrevert] at happly
    cases happly
  · rw [List.filter_cons_of_pos (by simpa using hindex)] at hstack
    exact ⟨top, _, below, hstack, gathers.pop hahead hstack (by rw [hrest]; rfl) ⟨reverts, rfl⟩⟩

/-- The first loop throws when only reverts are ahead and they do not fill the answer. -/
theorem takeReverts_throws {maxCount : ℕ} {ahead : List LoggedTransaction}
    (hreverts : ∀ info ∈ ahead, info.reverted = true)
    (hcount : g.count + (ahead.map fun info => getActionSize info.action).sum < maxCount) :
    takeReverts maxCount ahead g = .error (.outOfRange "action_log::at") := by
  induction ahead generalizing g with
  | nil => exact if_pos hcount
  | cons info rest ih =>
      rw [List.map_cons, List.sum_cons] at hcount
      have hroom : g.count < maxCount := by omega
      rw [takeReverts, if_pos hroom, if_pos (hreverts info List.mem_cons_self)]
      apply ih
      · intro entry hmem
        exact hreverts entry (List.mem_cons_of_mem info hmem)
      · change g.count + getActionSize info.action + _ < maxCount
        omega

theorem Gathers.takeReverts {maxCount : ℕ} {ahead : List LoggedTransaction}
    (gathers : Gathers client initial log startIndex g stood) (hahead : g.ahead = ahead)
    (early : ∀ info ∈ stood, info.index < startIndex)
    (holds : (∀ info ∈ ahead, info.reverted = true) →
      maxCount ≤ g.count + (ahead.map fun info => getActionSize info.action).sum) :
    ∃ after stood', takeReverts maxCount ahead g = .ok after ∧
      Gathers client initial log startIndex after stood' := by
  induction ahead generalizing g stood with
  | nil =>
      have hfull : ¬ g.count < maxCount := by
        have hle := holds (by simp)
        simpa using hle
      exact ⟨g, stood, if_neg hfull, gathers⟩
  | cons info rest ih =>
      by_cases hroom : g.count < maxCount
      · by_cases hrevert : info.reverted = true
        · rw [ActionLog.takeReverts, if_pos hroom, if_pos hrevert]
          obtain ⟨top, below, rfl, _, hpush⟩ := gathers.next_revert hahead hrevert
          have hpush := hpush (early top List.mem_cons_self)
          apply ih hpush rfl
          · intro entry hmem
            exact early entry (List.mem_cons_of_mem top hmem)
          · intro hrest
            have hle := holds (List.forall_mem_cons.mpr ⟨hrevert, hrest⟩)
            rw [List.map_cons, List.sum_cons, ← Nat.add_assoc] at hle
            exact hle
        · rw [ActionLog.takeReverts, if_pos hroom, if_neg hrevert]
          exact ⟨g, stood, rfl, gathers⟩
      · exact ⟨g, stood, if_neg hroom, gathers⟩

/-- The second loop never looks for an entry that is not there. It ends with the log or
with a full answer. -/
theorem Gathers.takeActions (maxCount : ℕ) {ahead : List LoggedTransaction}
    (gathers : Gathers client initial log startIndex g stood) (hahead : g.ahead = ahead) :
    ∃ after stood', takeActions maxCount startIndex ahead g = .ok after ∧
      Gathers client initial log startIndex after stood' ∧
      (after.ahead = [] ∨ maxCount ≤ after.count) := by
  induction ahead generalizing g stood with
  | nil => exact ⟨g, stood, rfl, gathers, .inl hahead⟩
  | cons info rest ih =>
      by_cases hroom : g.count < maxCount
      · by_cases hpop : info.reverted = true ∧ startIndex ≤ info.index
        · rw [ActionLog.takeActions, if_pos hroom, if_pos hpop]
          obtain ⟨top, stack, below, hstack, hnext⟩ := gathers.next_pop hahead hpop.1 hpop.2
          rw [hstack]
          exact ih hnext rfl
        · rw [ActionLog.takeActions, if_pos hroom, if_neg hpop]
          by_cases hrevert : info.reverted = true
          · obtain ⟨top, below, _, hindex, hnext⟩ := gathers.next_revert hahead hrevert
            have hlt : top.index < startIndex := by
              by_contra hge
              exact hpop ⟨hrevert, hindex ▸ not_lt.mp hge⟩
            exact ih (hnext hlt) rfl
          · exact ih (gathers.next_apply hahead (Bool.eq_false_iff.mpr hrevert)) rfl
      · exact ⟨g, stood, if_neg hroom, gathers, .inr (not_lt.mp hroom)⟩

end

/-- From the requested place on there are only reverts, and they do not fill the answer. -/
def EndsInReverts (log : ActionLog) (request : LoggedTransactionsRequest) : Prop :=
  request.startIndex < log.actions.length ∧
  (∀ info ∈ log.actions.drop request.startIndex, info.reverted = true) ∧
  ((log.actions.drop request.startIndex).map fun info => getActionSize info.action).sum <
    request.limit

def nextIndex (startIndex : ℕ) (answer : List LoggedTransaction) : ℕ :=
  place startIndex answer.reverse

theorem getActions_throws {log : ActionLog} {request : LoggedTransactionsRequest}
    (h : log.EndsInReverts request) :
    log.getActions request = .error (.outOfRange "action_log::at") := by
  obtain ⟨hinside, hreverts, hcount⟩ := h
  unfold getActions
  rw [if_pos hinside, takeReverts_throws hreverts (by simpa using hcount)]
  rfl

section
variable {σ : Type} (client : Replayer LogPacket σ) (initial : σ)

/-- What an answer promises: it leads the client to the place after its last entry, which
lies further in the log, unless there was nothing to be done. -/
structure Answers (log : ActionLog) (request : LoggedTransactionsRequest)
    (answer : List LoggedTransaction) : Prop where
  leads : process client answer (replay client initial log request.startIndex) =
    replay client initial log (nextIndex request.startIndex answer)
  advances : answer ≠ [] → request.startIndex < nextIndex request.startIndex answer ∧
    nextIndex request.startIndex answer ≤ log.actions.length
  complete : answer = [] → 1 ≤ request.maxCount →
    replay client initial log request.startIndex =
      replay client initial log log.actions.length

variable {client initial}

theorem Gathers.start {log : ActionLog} (nested : log.WellNested) {startIndex : ℕ}
    (hstart : startIndex ≤ log.actions.length) :
    ∃ stood, Gathers client initial log startIndex
      ⟨log.actions.drop startIndex, startIndex, 0, []⟩ stood ∧
      ∀ info ∈ stood, info.index < startIndex := by
  obtain ⟨final, hfinal⟩ := Option.isSome_iff_exists.mp nested
  rw [← List.take_append_drop startIndex log.actions] at hfinal
  obtain ⟨stood, _, below, hrest⟩ := standing_append hfinal (.nil 0)
  rw [List.length_take_of_le hstart, Nat.zero_add] at below hrest
  refine ⟨stood, ⟨⟨le_rfl, ?_⟩, rfl, by rw [hrest]; rfl, below, rfl, by simp, ?_, rfl, ?_⟩,
    below.lt⟩
  · rw [List.length_drop]
    exact Nat.add_sub_of_le hstart
  · refine ⟨[], ?_⟩
    rw [List.append_nil, eq_comm, List.filter_eq_nil_iff]
    intro info hmem
    simpa using below.lt info hmem
  · intro stack hsuffix
    rw [List.suffix_nil.mp hsuffix]
    rfl

theorem LoggedTransactionsRequest.limit_pos {request : LoggedTransactionsRequest}
    (h : 1 ≤ request.maxCount) : 0 < request.limit := by
  unfold LoggedTransactionsRequest.limit actionLogMaxResponse
  split_ifs <;> omega

theorem Gathers.answers {log : ActionLog} {request : LoggedTransactionsRequest} {g : Gathering}
    {stood : List LoggedTransaction}
    (gathers : Gathers client initial log request.startIndex g stood)
    (hend : g.ahead = [] ∨ request.limit ≤ g.count) :
    Answers client initial log request g.stack.reverse := by
  have hinside := gathers.inside
  refine ⟨?_, ?_, ?_⟩
  · rw [gathers.leadsTo g.stack List.suffix_rfl, nextIndex, List.reverse_reverse]
  · intro hne
    rw [nextIndex, List.reverse_reverse]
    cases hstack : g.stack with
    | nil => simp [hstack] at hne
    | cons top stack =>
        have hplace := gathers.places top (hstack ▸ List.mem_cons_self)
        change request.startIndex < top.index + 1 ∧ top.index + 1 ≤ log.actions.length
        omega
  · intro hnil hcount
    have hstack : g.stack = [] := List.reverse_eq_nil_iff.mp hnil
    have hzero : g.count = 0 := by
      rw [gathers.count_eq, hstack]
      rfl
    have hpos := LoggedTransactionsRequest.limit_pos hcount
    have hlast : g.i = log.actions.length := by
      rcases hend with hahead | hfull
      · rw [hahead] at hinside
        exact hinside.2
      · omega
    have hleads := gathers.leads
    rw [hstack, hlast] at hleads
    exact hleads

variable (client initial) in
theorem getActions_answers {log : ActionLog} (nested : log.WellNested)
    {request : LoggedTransactionsRequest} (h : ¬ log.EndsInReverts request) :
    ∃ answer, log.getActions request = .ok answer ∧
      Answers client initial log request answer := by
  by_cases hinside : request.startIndex < log.actions.length
  · obtain ⟨stood, start, early⟩ : ∃ stood, Gathers client initial log request.startIndex
        ⟨log.actions.drop request.startIndex, request.startIndex, 0, []⟩ stood ∧
        ∀ info ∈ stood, info.index < request.startIndex := Gathers.start nested hinside.le
    have holds : (∀ info ∈ log.actions.drop request.startIndex, info.reverted = true) →
        request.limit ≤ 0 +
          ((log.actions.drop request.startIndex).map fun info => getActionSize info.action).sum := by
      intro hreverts
      rw [Nat.zero_add]
      by_contra hless
      exact h ⟨hinside, hreverts, not_le.mp hless⟩
    obtain ⟨middle, stood', htake, hmiddle⟩ := start.takeReverts rfl early holds
    obtain ⟨after, final, hafter, hgathers, hend⟩ := hmiddle.takeActions request.limit rfl
    refine ⟨after.stack.reverse, ?_, hgathers.answers hend⟩
    unfold getActions
    rw [if_pos hinside]
    simp only [htake, ok_bind, hafter]
    rfl
  · have hdrop : log.actions.drop request.startIndex = [] :=
      List.drop_eq_nil_of_le (not_lt.mp hinside)
    refine ⟨[], ?_, rfl, fun hne => absurd rfl hne, fun _ _ => ?_⟩
    · unfold getActions
      rw [if_neg hinside, hdrop]
      rfl
    · unfold replay
      rw [List.take_of_length_le (not_lt.mp hinside), List.take_length]

theorem endsInReverts_iff_throws {log : ActionLog} (nested : log.WellNested)
    {request : LoggedTransactionsRequest} :
    log.EndsInReverts request ↔ ∀ answer, log.getActions request ≠ .ok answer := by
  constructor
  · intro h answer hanswer
    rw [getActions_throws h] at hanswer
    cases hanswer
  · intro h
    by_contra hnot
    obtain ⟨answer, hanswer, _⟩ :=
      getActions_answers (Replayer.stack LogPacket) [] nested hnot
    exact h answer hanswer

variable (client initial)

/-- A client at the requested place gets an answer that leads it to the place after the
last entry of the answer. -/
def Serves (log : ActionLog) (request : LoggedTransactionsRequest) : Prop :=
  ∃ answer, log.getActions request = .ok answer ∧
    process client answer (replay client initial log request.startIndex) =
      replay client initial log (nextIndex request.startIndex answer)

/-- A client that asks a number of times, each time from the place after the last entry
that it received. -/
def askAgain (log : ActionLog) (maxCount : ℕ) : (turns : ℕ) → ℕ × σ → Checked (ℕ × σ)
  | 0, asked => pure asked
  | turns + 1, (startIndex, state) => do
      let answer ← log.getActions ⟨startIndex, maxCount⟩
      askAgain log maxCount turns (nextIndex startIndex answer, process client answer state)

/-- After finitely many requests the client has replayed the whole log, and there is
nothing more to receive. -/
def CatchesUp (log : ActionLog) (request : LoggedTransactionsRequest) : Prop :=
  ∃ turns last,
    askAgain client log request.maxCount turns
      (request.startIndex, replay client initial log request.startIndex) =
      .ok (last, replay client initial log log.actions.length) ∧
    log.getActions ⟨last, request.maxCount⟩ = .ok []

def AsksNext (log : ActionLog) (maxCount before after : ℕ) : Prop :=
  ∃ answer, log.getActions ⟨before, maxCount⟩ = .ok answer ∧ after = nextIndex before answer

def AskedFrom (log : ActionLog) (request : LoggedTransactionsRequest) (index : ℕ) : Prop :=
  Relation.ReflTransGen (log.AsksNext request.maxCount) request.startIndex index

variable {client initial}

theorem serves_iff {log : ActionLog} (nested : log.WellNested)
    (request : LoggedTransactionsRequest) :
    Serves client initial log request ↔ ¬ log.EndsInReverts request := by
  constructor
  · rintro ⟨answer, hanswer, _⟩ hreverts
    exact (endsInReverts_iff_throws nested).mp hreverts answer hanswer
  · intro h
    obtain ⟨answer, hanswer, answers⟩ := getActions_answers client initial nested h
    exact ⟨answer, hanswer, answers.leads⟩

theorem answered_of_askAgain {log : ActionLog} {maxCount turns first last index : ℕ}
    {state final : σ}
    (h : askAgain client log maxCount turns (first, state) = .ok (last, final))
    (hend : log.getActions ⟨last, maxCount⟩ = .ok [])
    (hasked : Relation.ReflTransGen (log.AsksNext maxCount) first index) :
    ∃ answer, log.getActions ⟨index, maxCount⟩ = .ok answer := by
  induction turns generalizing first state with
  | zero =>
      cases pure_ok_iff.mp h
      have hstay : index = last := by
        induction hasked with
        | refl => rfl
        | tail _ hnext ih =>
            obtain ⟨answer, hanswer, hindex⟩ := hnext
            rw [ih, hend] at hanswer
            cases hanswer
            rw [hindex, ih]
            rfl
      exact ⟨[], hstay ▸ hend⟩
  | succ turns ih =>
      obtain ⟨answer, hanswer, h⟩ := bind_ok_iff.mp h
      rcases hasked.cases_head with rfl | ⟨second, hnext, hrest⟩
      · exact ⟨answer, hanswer⟩
      · obtain ⟨answer', hanswer', rfl⟩ := hnext
        rw [hanswer] at hanswer'
        cases hanswer'
        exact ih h hrest

/-- While every request is answered, the place asked for moves on to the end of the log. -/
theorem catchesUp_of_answered {log : ActionLog} (nested : log.WellNested)
    {request : LoggedTransactionsRequest} (hcount : 1 ≤ request.maxCount)
    (h : ∀ index, log.AskedFrom request index →
      ¬ log.EndsInReverts ⟨index, request.maxCount⟩) :
    CatchesUp client initial log request := by
  obtain ⟨startIndex, maxCount⟩ := request
  induction hleft : log.actions.length - startIndex using Nat.strong_induction_on
    generalizing startIndex with
  | _ left ih =>
      obtain ⟨answer, hanswer, answers⟩ := getActions_answers client initial nested
        (h startIndex .refl)
      by_cases hnil : answer = []
      · subst hnil
        refine ⟨0, startIndex, ?_, hanswer⟩
        rw [askAgain, answers.complete rfl hcount]
        rfl
      · obtain ⟨hless, hle⟩ := answers.advances hnil
        have hnext : log.AsksNext maxCount startIndex (nextIndex startIndex answer) :=
          ⟨answer, hanswer, rfl⟩
        obtain ⟨turns, last, hturns, hlast⟩ := ih _ (by simp only at hless hle; omega)
          (nextIndex startIndex answer) hcount (fun index hasked => h index (.head hnext hasked)) rfl
        refine ⟨turns + 1, last, ?_, hlast⟩
        rw [askAgain, hanswer, ok_bind, answers.leads]
        exact hturns

theorem catchesUp_iff {log : ActionLog} (nested : log.WellNested)
    {request : LoggedTransactionsRequest} (hcount : 1 ≤ request.maxCount) :
    CatchesUp client initial log request ↔ ∀ index, log.AskedFrom request index →
      ¬ log.EndsInReverts ⟨index, request.maxCount⟩ := by
  constructor
  · rintro ⟨turns, last, hturns, hend⟩ index hasked hreverts
    obtain ⟨answer, hanswer⟩ := answered_of_askAgain hturns hend hasked
    exact (endsInReverts_iff_throws nested).mp hreverts answer hanswer
  · exact catchesUp_of_answered nested hcount

end

/-- An incremental synchronisation serves every client, as long as it does not ask for a
tail of reverts only. -/
theorem getActions_serves_iff {σ : Type} (client : Replayer LogPacket σ) (initial : σ)
    (log : ActionLog) (nested : log.WellNested) (request : LoggedTransactionsRequest) :
    (Serves client initial log request ↔ ¬ log.EndsInReverts request) ∧
    (1 ≤ request.maxCount → (CatchesUp client initial log request ↔
      ∀ index, log.AskedFrom request index →
        ¬ log.EndsInReverts ⟨index, request.maxCount⟩)) :=
  ⟨serves_iff nested request, catchesUp_iff nested⟩

def transferPacket : LogPacket :=
  .transaction ⟨⟨0, 0⟩, .transfer ⟨"a", "b", ⟨1, 0⟩, ""⟩, "hash", 100, 0⟩

def transferReverted : ActionLog :=
  ⟨[⟨false, 0, transferPacket⟩, ⟨true, 0, transferPacket⟩], true, 2 ^ 64 - 1⟩

theorem transferReverted_served :
    Serves (Replayer.stack LogPacket) [] transferReverted ⟨0, 10⟩ := by
  refine (getActions_serves_iff _ [] transferReverted (by decide +kernel) ⟨0, 10⟩).1.mpr ?_
  rintro ⟨_, hreverts, _⟩
  have happlied := hreverts ⟨false, 0, transferPacket⟩ List.mem_cons_self
  cases happlied

/-- A client that has received the transfer and asks what came after it gets no answer. -/
theorem reverted_tail_throws :
    ((loaded [] true).insert transferPacket).revert = .ok transferReverted ∧
    transferReverted.WellNested ∧
    transferReverted.getActions ⟨1, 10⟩ = .error (.outOfRange "action_log::at") ∧
    ¬ Serves (Replayer.stack LogPacket) [] transferReverted ⟨1, 10⟩ := by
  have hthrows : transferReverted.getActions ⟨1, 10⟩ =
      .error (.outOfRange "action_log::at") := by rfl
  refine ⟨by rfl, by decide +kernel, hthrows, ?_⟩
  rintro ⟨answer, hanswer, _⟩
  rw [hthrows] at hanswer
  cases hanswer

end ActionLog
end Publiq
