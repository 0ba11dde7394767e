import Publiq.LogStanding

/-! The index from which `revert` starts, over every use of a log that is written: it finds what
a search from the end of the log finds. -/
namespace Publiq
open Message Checked

namespace ActionLog

/-- The search finds nothing where fewer entries stand than there are reverts that still lack
their action. -/
theorem lastStanding_fails {log : ActionLog} {index mark : ℕ} {stood : List LoggedTransaction}
    (h : standing 0 [] (log.actions.take (index + 1)) = some stood)
    (inside : index < log.actions.length) (few : stood.length ≤ mark) :
    ∃ e, log.lastStanding mark index = .error e := by
  induction index generalizing mark stood with
  | zero =>
      obtain ⟨first, rest, actions⟩ := List.exists_cons_of_length_pos inside
      rw [actions] at h
      have alone : standing 0 [] ([] ++ [first]) = some stood := h
      rcases standing_snoc alone with ⟨_, _, below, rfl, _⟩ | ⟨top, _, none⟩
      · have at0 : log.entryAt 0 = .ok first := by
          rw [entryAt, actions]
          rfl
        have marked : mark ≠ 0 := by
          rintro rfl
          exact absurd few (by simp)
        refine ⟨.runtimeError "Nothing to revert!", ?_⟩
        rw [lastStanding, at0, ok_bind, require_false (fun both => marked both.2)]
        rfl
      · cases none
  | succ index ih =>
      have here : log.actions[index + 1]? = some log.actions[index + 1] :=
        List.getElem?_eq_getElem inside
      have entry : log.entryAt (index + 1) = .ok log.actions[index + 1] := by
        rw [entryAt, here]
      have before : index < log.actions.length := Nat.lt_of_succ_lt inside
      rw [List.take_add_one, here, Option.toList_some] at h
      unfold lastStanding
      rw [entry, ok_bind]
      rcases standing_snoc h with ⟨applied, _, below, rfl, hbelow⟩ | ⟨top, reverted, hbelow⟩
      · rw [if_neg (by simp [applied])]
        cases mark with
        | zero => exact absurd few (by simp)
        | succ mark => exact ih hbelow before (Nat.le_of_succ_le_succ few)
      · rw [if_pos (by rw [reverted])]
        exact ih hbelow before (Nat.succ_le_succ few)

/-- A `size_t` counts the entries of a log. -/
def capacity : ℕ := 2 ^ 64

/-- A log with what stands in it, the latest entry first. The cursor lies where nothing has
changed since, or outside of a log in which nothing stands. -/
structure Cursor (log : ActionLog) (stood : List LoggedTransaction) : Prop where
  enabled : log.enabled = true
  length_lt : log.actions.length < capacity
  standing_eq : standing 0 [] log.actions = some stood
  found : (log.revertIndex < log.actions.length ∧
      standing 0 [] (log.actions.take (log.revertIndex + 1)) = some stood) ∨
    (stood = [] ∧ log.actions.length ≤ log.revertIndex)

variable {log : ActionLog} {stood : List LoggedTransaction}

theorem Cursor.stands (cursor : Cursor log stood) : Stands log stood := by
  refine ⟨cursor.standing_eq, fun some => ?_⟩
  rcases cursor.found with found | ⟨none, _⟩
  · exact found
  · exact absurd none some

theorem cursor_loaded {actions : List LoggedTransaction} (short : actions.length < capacity)
    (h : standing 0 [] actions = some stood) : Cursor (loaded actions true) stood := by
  refine ⟨rfl, short, h, ?_⟩
  rcases actions.eq_nil_or_concat' with rfl | ⟨rest, last, rfl⟩
  · cases h
    exact .inr ⟨rfl, Nat.zero_le _⟩
  · have some : rest ++ [last] ≠ [] := List.append_ne_nil_of_right_ne_nil _ (List.cons_ne_nil _ _)
    have positive := List.length_pos_iff.mpr some
    refine .inl ⟨before_lt positive, ?_⟩
    change standing 0 [] ((rest ++ [last]).take (before (rest ++ [last]).length + 1)) = _
    rwa [before_add_one positive, List.take_length]

theorem Cursor.insert (cursor : Cursor log stood) (room : log.actions.length + 1 < capacity)
    (packet : LogPacket) :
    Cursor (log.insert packet) (⟨false, log.actions.length, packet⟩ :: stood) := by
  have stands := cursor.stands.insert packet
  refine ⟨cursor.enabled, ?_, stands.standing_eq, .inl (stands.cursor (List.cons_ne_nil _ _))⟩
  change (log.actions ++ [_]).length < capacity
  rwa [List.length_append]

theorem cursor_clear (cursor : Cursor log stood) :
    Cursor { log with actions := [] } [] :=
  ⟨cursor.enabled, Nat.two_pow_pos 64, rfl, .inr ⟨rfl, Nat.zero_le _⟩⟩

/-- The search from the cursor and the one from the end both find the latest entry that
stands. -/
theorem Cursor.finds_top {top : LoggedTransaction} {below : List LoggedTransaction}
    (cursor : Cursor log (top :: below)) :
    log.lastStanding 0 log.revertIndex = .ok top.index ∧
      log.lastStanding 0 (before log.actions.length) = .ok top.index := by
  obtain ⟨inside, same⟩ := cursor.stands.cursor (List.cons_ne_nil _ _)
  have positive : 0 < log.actions.length := Nat.zero_lt_of_lt inside
  have whole : standing 0 [] (log.actions.take (before log.actions.length + 1)) =
      some (top :: below) := by
    rw [before_add_one positive, List.take_length]
    exact cursor.standing_eq
  exact ⟨lastStanding_eq same inside rfl, lastStanding_eq whole (before_lt positive) rfl⟩

theorem lastStanding_outside {index mark : ℕ} (outside : log.actions.length ≤ index) :
    log.lastStanding mark index = .error (.outOfRange "action_log::at") := by
  have none : log.entryAt index = .error (.outOfRange "action_log::at") := by
    rw [entryAt, List.getElem?_eq_none outside]
  cases index with
  | zero =>
      unfold lastStanding
      rw [none, error_bind]
  | succ index =>
      unfold lastStanding
      rw [none, error_bind]

theorem Cursor.finds_nothing (cursor : Cursor log []) :
    (∃ e, log.lastStanding 0 log.revertIndex = .error e) ∧
      ∃ e, log.lastStanding 0 (before log.actions.length) = .error e := by
  constructor
  · rcases cursor.found with ⟨inside, same⟩ | ⟨_, outside⟩
    · exact lastStanding_fails same inside le_rfl
    · exact ⟨_, lastStanding_outside outside⟩
  · rcases Nat.eq_zero_or_pos log.actions.length with empty | positive
    · exact ⟨_, lastStanding_outside (empty ▸ Nat.zero_le _)⟩
    · have whole : standing 0 [] (log.actions.take (before log.actions.length + 1)) =
          some [] := by
        rw [before_add_one positive, List.take_length]
        exact cursor.standing_eq
      exact lastStanding_fails whole (before_lt positive) le_rfl

/-- What `revert` does when an entry stands. -/
theorem Cursor.revert_top {top : LoggedTransaction} {below : List LoggedTransaction}
    (cursor : Cursor log (top :: below)) :
    log.revert = .ok { log with
      actions := log.actions ++ [{ top with reverted := true }]
      revertIndex := before top.index } := by
  obtain ⟨inside, _⟩ := cursor.stands.cursor (List.cons_ne_nil _ _)
  have first : log.entryAt log.revertIndex = .ok log.actions[log.revertIndex] := by
    rw [entryAt, List.getElem?_eq_getElem inside]
  have entry : log.entryAt top.index = .ok top := by
    rw [entryAt, (standing_top cursor.standing_eq).1]
  rw [ActionLog.revert, if_neg (by simp [cursor.enabled]), first, ok_bind, cursor.finds_top.1,
    ok_bind, entry, ok_bind]
  rfl

/-- `revert` throws when nothing stands. -/
theorem Cursor.revert_nothing (cursor : Cursor log []) : ∃ e, log.revert = .error e := by
  obtain ⟨e, fails⟩ := cursor.finds_nothing.1
  rw [ActionLog.revert, if_neg (by simp [cursor.enabled])]
  cases log.entryAt log.revertIndex with
  | error e => exact ⟨e, rfl⟩
  | ok first =>
      refine ⟨e, ?_⟩
      rw [ok_bind, fails]
      rfl

theorem Cursor.revert {top : LoggedTransaction} {below : List LoggedTransaction}
    (cursor : Cursor log (top :: below)) (room : log.actions.length + 1 < capacity) :
    Cursor { log with
      actions := log.actions ++ [{ top with reverted := true }]
      revertIndex := before top.index } below := by
  obtain ⟨_, taken⟩ := standing_top cursor.standing_eq
  have under := below_of_standing cursor.standing_eq
  have inside : top.index < log.actions.length := under.lt top List.mem_cons_self
  refine ⟨cursor.enabled, ?_, ?_, ?_⟩
  · change (log.actions ++ [_]).length < capacity
    rwa [List.length_append]
  · change standing 0 [] (log.actions ++ [_]) = _
    rw [standing_append_eq, cursor.standing_eq]
    simp [standing]
  · rcases Nat.eq_zero_or_pos top.index with bottom | positive
    · rw [bottom] at taken
      cases taken
      refine .inr ⟨rfl, ?_⟩
      change (log.actions ++ [_]).length ≤ before top.index
      rw [bottom, List.length_append]
      exact Nat.le_sub_one_of_lt room
    · refine .inl ⟨?_, ?_⟩
      · change before top.index < (log.actions ++ [_]).length
        rw [List.length_append]
        exact Nat.lt_succ_of_lt ((before_lt positive).trans inside)
      · change standing 0 [] ((log.actions ++ [_]).take (before top.index + 1)) = some below
        rwa [before_add_one positive, List.take_append_of_le_length inside.le]

end ActionLog

/-- A use of a log that is written. `discard` and `reopen` give back a content that was saved:
which of those is up to the loader. -/
inductive LogEvent where
  | insert (packet : LogPacket)
  | revert
  | clear
  | save
  | commit
  | discard (back : ℕ)
  | reopen (back : ℕ)

/-- A log, and the contents of it that were saved, the latest one first. -/
structure SavedLog where
  log : ActionLog
  saved : List (List LoggedTransaction)

namespace SavedLog
open ActionLog

def start : SavedLog := ⟨loaded [] true, []⟩

def content (s : SavedLog) (back : ℕ) : List LoggedTransaction := s.saved.getD back []

/-- A call that throws leaves the log, and `push_back` throws when there is no more room. -/
def step (s : SavedLog) : LogEvent → SavedLog
  | .insert packet =>
      if s.log.actions.length + 1 < capacity then { s with log := s.log.insert packet } else s
  | .revert =>
      if s.log.actions.length + 1 < capacity then
        match s.log.revert with
        | .ok log => { s with log }
        | .error _ => s
      else s
  | .clear => { s with log := { s.log with actions := [] } }
  | .save => { s with saved := s.log.actions :: s.saved }
  | .commit => s
  | .discard back => { s with log := loaded (s.content back) true }
  | .reopen back => { s with log := loaded (s.content back) true }

def run (s : SavedLog) (events : List LogEvent) : SavedLog := events.foldl step s

/-- The log and all that was saved of it are well nested. -/
structure Sound (s : SavedLog) : Prop where
  cursor : ∃ stood, Cursor s.log stood
  saved : ∀ actions ∈ s.saved,
    actions.length < capacity ∧ ∃ stood, standing 0 [] actions = some stood

theorem sound_start : start.Sound :=
  ⟨⟨[], cursor_loaded (by decide) rfl⟩, fun _ none => absurd none List.not_mem_nil⟩

theorem Sound.loaded {s : SavedLog} (h : s.Sound) (back : ℕ) :
    Sound { s with log := ActionLog.loaded (s.content back) true } := by
  refine ⟨?_, h.saved⟩
  unfold content
  rw [List.getD_eq_getElem?_getD]
  cases found : s.saved[back]? with
  | none => exact ⟨[], cursor_loaded (by decide) rfl⟩
  | some actions =>
      obtain ⟨short, stood, standing⟩ := h.saved actions (List.mem_of_getElem? found)
      exact ⟨stood, cursor_loaded short standing⟩

theorem Sound.step {s : SavedLog} (h : s.Sound) (event : LogEvent) : (s.step event).Sound := by
  obtain ⟨stood, cursor⟩ := h.cursor
  cases event with
  | insert packet =>
      rw [SavedLog.step]
      split_ifs with room
      · exact ⟨⟨_, cursor.insert room packet⟩, h.saved⟩
      · exact h
  | revert =>
      rw [SavedLog.step]
      split_ifs with room
      · cases stood with
        | nil =>
            obtain ⟨e, fails⟩ := cursor.revert_nothing
            rw [fails]
            exact h
        | cons top below =>
            rw [cursor.revert_top]
            exact ⟨⟨below, cursor.revert room⟩, h.saved⟩
      · exact h
  | clear => exact ⟨⟨[], cursor_clear cursor⟩, h.saved⟩
  | save =>
      exact ⟨⟨stood, cursor⟩,
        List.forall_mem_cons.mpr ⟨⟨cursor.length_lt, stood, cursor.standing_eq⟩, h.saved⟩⟩
  | commit => exact h
  | discard back => exact h.loaded back
  | reopen back => exact h.loaded back

theorem Sound.run {s : SavedLog} (h : s.Sound) (events : List LogEvent) :
    (s.run events).Sound := by
  induction events generalizing s with
  | nil => exact h
  | cons event rest ih => exact ih (h.step event)

/-- After any use of a log, what it holds is nested; `revert` from its cursor chooses what a
search from the end of the log would, the latest entry that stands, and appends its revert; and
it throws only if none stands. -/
theorem revert_finds_latest (events : List LogEvent) :
    ∃ stood, standing 0 [] (start.run events).log.actions = some stood ∧
      (∀ index, (start.run events).log.lastStanding 0 (start.run events).log.revertIndex =
          .ok index ↔
        (start.run events).log.lastStanding 0 (before (start.run events).log.actions.length) =
          .ok index) ∧
      (∀ top below, stood = top :: below →
        (start.run events).log.lastStanding 0 (start.run events).log.revertIndex =
          .ok top.index ∧
        (start.run events).log.revert = .ok { (start.run events).log with
          actions := (start.run events).log.actions ++ [{ top with reverted := true }]
          revertIndex := before top.index }) ∧
      ∀ e, (start.run events).log.revert = .error e → stood = [] := by
  obtain ⟨stood, cursor⟩ := (sound_start.run events).cursor
  generalize (start.run events).log = log at cursor ⊢
  refine ⟨stood, cursor.standing_eq, ?_, ?_, ?_⟩
  · intro index
    cases stood with
    | nil =>
        obtain ⟨⟨e, fromCursor⟩, e', fromEnd⟩ := cursor.finds_nothing
        rw [fromCursor, fromEnd]
        exact iff_of_false (fun h => nomatch h) fun h => nomatch h
    | cons top below =>
        obtain ⟨fromCursor, fromEnd⟩ := cursor.finds_top
        rw [fromCursor, fromEnd]
  · rintro top below rfl
    exact ⟨cursor.finds_top.1, cursor.revert_top⟩
  · intro e fails
    cases stood with
    | nil => rfl
    | cons top below =>
        rw [cursor.revert_top] at fails
        cases fails

end SavedLog
end Publiq
