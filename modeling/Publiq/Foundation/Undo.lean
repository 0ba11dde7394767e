import Publiq.Foundation.Checked
import Mathlib.Data.List.Infix

/-! Streams of actions done and taken back, and the clients that follow them. -/
namespace Publiq

inductive Move (α : Type*) where
  | apply (action : α)
  | revert (action : α)

/-- A client that can take back the action it did last. -/
structure Replayer (α σ : Type*) where
  apply : α → σ → σ
  revert : α → σ → σ
  revert_apply : ∀ action state, revert action (apply action state) = state

namespace Replayer
variable {α σ : Type*} (client : Replayer α σ)

def stack (α : Type*) : Replayer α (List α) := ⟨List.cons, fun _ => List.tail, fun _ _ => rfl⟩

def step (state : σ) : Move α → σ
  | .apply action => client.apply action state
  | .revert action => client.revert action state

def follow (moves : List (Move α)) (state : σ) : σ := moves.foldl client.step state

theorem follow_append (first second : List (Move α)) (state : σ) :
    client.follow (first ++ second) state = client.follow second (client.follow first state) :=
  List.foldl_append

theorem follow_snoc (moves : List (Move α)) (move : Move α) (state : σ) :
    client.follow (moves ++ [move]) state = client.step (client.follow moves state) move :=
  follow_append client moves [move] state

theorem follow_revert (moves : List (Move α)) (action : α) (state : σ) :
    client.step (client.follow (moves ++ [.apply action]) state) (.revert action) =
      client.follow moves state := by
  rw [follow_snoc]
  exact client.revert_apply action _

end Replayer
end Publiq
