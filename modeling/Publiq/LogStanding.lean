import Publiq.ActionStream

/-! What stands in the action log: `insert` puts an action on top of it, and `revert` finds
that action and takes it back, whatever was done and taken back before. -/
namespace Publiq
open Message Checked

namespace ActionLog

theorem standing_append_eq {i : ℕ} {stood first second : List LoggedTransaction} :
    standing i stood (first ++ second) =
      (standing i stood first).bind fun between => standing (i + first.length) between second := by
  induction first generalizing i stood with
  | nil => rfl
  | cons info rest ih =>
      have hlength : i + (info :: rest).length = i + 1 + rest.length := by
        rw [List.length_cons]
        omega
      rw [List.cons_append, hlength]
      simp only [standing]
      split_ifs with hrevert hindex
      · cases stood with
        | nil => rfl
        | cons top below =>
            dsimp only
            split_ifs
            · exact ih
            · rfl
      · exact ih
      · rfl

theorem below_of_standing {actions stood : List LoggedTransaction}
    (h : standing 0 [] actions = some stood) : Below actions.length stood := by
  rw [← List.append_nil actions] at h
  obtain ⟨between, hbetween, below, hlast⟩ := standing_append h (.nil 0)
  cases hlast
  rwa [Nat.zero_add] at below

theorem standing_snoc {actions stood : List LoggedTransaction} {info : LoggedTransaction}
    (h : standing 0 [] (actions ++ [info]) = some stood) :
    (info.reverted = false ∧ info.index = actions.length ∧
      ∃ below, stood = info :: below ∧ standing 0 [] actions = some below) ∨
    ∃ top, info = { top with reverted := true } ∧ standing 0 [] actions = some (top :: stood) := by
  rw [standing_append_eq, Option.bind_eq_some_iff] at h
  obtain ⟨between, hbetween, hlast⟩ := h
  rw [Nat.zero_add] at hlast
  rcases standing_cons hlast with ⟨happly, hindex, hnil⟩ | ⟨top, below, rfl, hinfo, hnil⟩
  · cases hnil
    exact .inl ⟨happly, hindex, between, rfl, hbetween⟩
  · cases hnil
    exact .inr ⟨top, hinfo, hbetween⟩

/-- The latest entry that stands lies at its own place, and the entries that stood before it
are those that stand below it. -/
theorem standing_top {actions below : List LoggedTransaction} {top : LoggedTransaction}
    (h : standing 0 [] actions = some (top :: below)) :
    actions[top.index]? = some top ∧ standing 0 [] (actions.take top.index) = some below := by
  induction hlength : actions.length using Nat.strong_induction_on
    generalizing actions top below with
  | _ length ih =>
      rcases List.eq_nil_or_concat' actions with rfl | ⟨initial, info, rfl⟩
      · cases h
      · rcases standing_snoc h with ⟨_, hindex, below', hcons, hbelow⟩ | ⟨other, _, hother⟩
        · cases hcons
          rw [hindex]
          refine ⟨?_, ?_⟩
          · rw [List.getElem?_append_right le_rfl, Nat.sub_self]
            rfl
          · rwa [List.take_left]
        · have hshorter : initial.length < length := by
            rw [← hlength, List.length_append]
            exact Nat.lt_succ_self _
          obtain ⟨_, hbefore⟩ := ih _ hshorter hother rfl
          have hless : other.index < initial.length :=
            (below_of_standing hother).lt other List.mem_cons_self
          have hshortest : (initial.take other.index).length < length :=
            lt_of_le_of_lt (List.length_take_le' _ _) hshorter
          obtain ⟨hat, htake⟩ := ih _ hshortest hbefore rfl
          have htop : top.index < other.index := by
            have hlt := (below_of_standing hbefore).lt top List.mem_cons_self
            exact lt_of_lt_of_le hlt (List.length_take_le _ _)
          rw [List.getElem?_take_of_lt htop] at hat
          rw [List.take_take, min_eq_left htop.le] at htake
          refine ⟨?_, ?_⟩
          · rwa [List.getElem?_append_left (by omega)]
          · rwa [List.take_append_of_le_length (by omega)]

/-- The search of `revert` finds the entry below as many of the latest ones as there are
reverts that still lack their action. -/
theorem lastStanding_eq {log : ActionLog} {index mark : ℕ} {stood : List LoggedTransaction}
    (h : standing 0 [] (log.actions.take (index + 1)) = some stood)
    (hindex : index < log.actions.length) {info : LoggedTransaction}
    (hmark : stood[mark]? = some info) : log.lastStanding mark index = .ok info.index := by
  induction index generalizing mark stood with
  | zero =>
      obtain ⟨first, rest, hactions⟩ := List.exists_cons_of_length_pos hindex
      rw [hactions] at h
      have hfirst : standing 0 [] ([] ++ [first]) = some stood := h
      rcases standing_snoc hfirst with ⟨happly, hplace, below, rfl, hbelow⟩ | ⟨top, _, hnone⟩
      · cases hbelow
        cases mark with
        | succ mark => cases hmark
        | zero =>
            obtain rfl : first = info := Option.some.inj hmark
            have hat : log.entryAt 0 = .ok first := by
              rw [entryAt, hactions]
              rfl
            unfold lastStanding
            rw [hat, ok_bind, hplace]
            simp only [happly, and_self, require_true, ok_bind]
            rfl
      · cases hnone
  | succ index ih =>
      have hat : log.actions[index + 1]? = some log.actions[index + 1] :=
        List.getElem?_eq_getElem hindex
      rw [List.take_add_one, hat, Option.toList_some] at h
      have hentry : log.entryAt (index + 1) = .ok log.actions[index + 1] := by
        rw [entryAt, hat]
      unfold lastStanding
      rw [hentry, ok_bind]
      rcases standing_snoc h with ⟨happly, hplace, below, rfl, hbelow⟩ | ⟨top, hreverted, hbelow⟩
      · rw [if_neg (by simp [happly])]
        cases mark with
        | zero =>
            cases hmark
            rw [hplace, List.length_take_of_le hindex.le]
            rfl
        | succ mark => exact ih hbelow (by omega) hmark
      · rw [if_pos (by rw [hreverted])]
        exact ih hbelow (by omega) hmark

/-- The log with what stands in it, the latest entry first, and a cursor from which `revert`
finds the latest. -/
structure Stands (log : ActionLog) (stood : List LoggedTransaction) : Prop where
  standing_eq : standing 0 [] log.actions = some stood
  cursor : stood ≠ [] → log.revertIndex < log.actions.length ∧
    standing 0 [] (log.actions.take (log.revertIndex + 1)) = some stood

theorem before_lt {number : ℕ} (h : 0 < number) : before number < number := by
  unfold before
  rw [if_neg h.ne']
  omega

theorem before_add_one {number : ℕ} (h : 0 < number) : before number + 1 = number := by
  unfold before
  rw [if_neg h.ne']
  omega

theorem stands_loaded {actions stood : List LoggedTransaction} {enabled : Bool}
    (h : standing 0 [] actions = some stood) : Stands (loaded actions enabled) stood := by
  refine ⟨h, fun hne => ?_⟩
  have hpos : 0 < actions.length := by
    rw [List.length_pos_iff]
    rintro rfl
    cases h
    exact hne rfl
  refine ⟨before_lt hpos, ?_⟩
  change standing 0 [] (actions.take (before actions.length + 1)) = some stood
  rwa [before_add_one hpos, List.take_length]

theorem Stands.insert {log : ActionLog} {stood : List LoggedTransaction}
    (stands : Stands log stood) (packet : LogPacket) :
    Stands (log.insert packet) (⟨false, log.actions.length, packet⟩ :: stood) := by
  have hstanding : standing 0 [] (log.insert packet).actions =
      some (⟨false, log.actions.length, packet⟩ :: stood) := by
    change standing 0 [] (log.actions ++ [_]) = _
    rw [standing_append_eq, stands.standing_eq]
    simp [standing]
  refine ⟨hstanding, fun _ => ⟨?_, ?_⟩⟩
  · simp [ActionLog.insert]
  · rwa [List.take_of_length_le (by simp [ActionLog.insert])]

/-- `revert` takes back the latest entry that stands. -/
theorem Stands.revert {log : ActionLog} {top : LoggedTransaction}
    {below : List LoggedTransaction} (stands : Stands log (top :: below))
    (henabled : log.enabled = true) :
    ∃ after, log.revert = .ok after ∧ Stands after below ∧ after.enabled = true := by
  obtain ⟨hinside, hcursor⟩ := stands.cursor (List.cons_ne_nil _ _)
  obtain ⟨hat, htake⟩ := standing_top stands.standing_eq
  have hindex := @lastStanding_eq log log.revertIndex 0 _ hcursor hinside top rfl
  have hentry : log.entryAt top.index = .ok top := by
    rw [entryAt, hat]
  obtain ⟨first, hfirst⟩ : ∃ first, log.entryAt log.revertIndex = .ok first := by
    rw [entryAt, List.getElem?_eq_getElem hinside]
    exact ⟨_, rfl⟩
  have hlast : standing 0 [] (log.actions ++ [{ top with reverted := true }]) = some below := by
    rw [standing_append_eq, stands.standing_eq]
    simp [standing]
  refine ⟨{ log with
    actions := log.actions ++ [{ top with reverted := true }]
    revertIndex := before top.index }, ?_, ⟨hlast, fun hne => ?_⟩, henabled⟩
  · rw [ActionLog.revert, if_neg (by simp [henabled]), hfirst, ok_bind, hindex, ok_bind, hentry,
      ok_bind]
    rfl
  · have hless : top.index < log.actions.length :=
      (below_of_standing stands.standing_eq).lt top List.mem_cons_self
    have hpos : 0 < top.index := by
      obtain ⟨next, rest, rfl⟩ := List.exists_cons_of_ne_nil hne
      have hlt := (List.pairwise_cons.mp (below_of_standing stands.standing_eq).descending).1 next
        List.mem_cons_self
      omega
    refine ⟨?_, ?_⟩
    · change before top.index < (log.actions ++ [_]).length
      rw [List.length_append]
      have hbefore := before_lt hpos
      omega
    · change standing 0 [] ((log.actions ++ [_]).take (before top.index + 1)) = some below
      rwa [before_add_one hpos, List.take_append_of_le_length hless.le]

def AtEnd (log : ActionLog) : Prop := log.revertIndex = before log.actions.length

theorem atEnd_insert (log : ActionLog) (packet : LogPacket) : (log.insert packet).AtEnd := by
  change log.actions.length = before (log.actions ++ [_]).length
  rw [List.length_append]
  rfl

theorem loaded_of_atEnd {log : ActionLog} (h : log.AtEnd) :
    loaded log.actions log.enabled = log := by
  unfold loaded
  rw [← h]

end ActionLog
end Publiq
