import Mathlib.Data.List.Basic
import Mathlib.Data.List.Induction

/-! A property of every element of a list that depends on all that stands before it. -/
namespace Publiq

variable {α : Type*} {P Q : List α → α → Prop}

/-- `P` holds of every element, given what stands before it. -/
def Along (P : List α → α → Prop) : List α → List α → Prop
  | _, [] => True
  | before, a :: rest => P before a ∧ Along P (before ++ [a]) rest

@[simp] theorem along_nil (before : List α) : Along P before [] := trivial

@[simp] theorem along_cons {before rest : List α} {a : α} :
    Along P before (a :: rest) ↔ P before a ∧ Along P (before ++ [a]) rest := Iff.rfl

theorem along_append {before middle rest : List α} :
    Along P before (middle ++ rest) ↔
      Along P before middle ∧ Along P (before ++ middle) rest := by
  induction middle generalizing before with
  | nil => simp
  | cons a middle ih =>
      rw [List.cons_append, along_cons, along_cons, ih, and_assoc, List.append_assoc]
      rfl

theorem along_iff {before elements : List α} :
    Along P before elements ↔
      ∀ middle a rest, elements = middle ++ a :: rest → P (before ++ middle) a := by
  constructor
  · intro h middle a rest hsplit
    rw [hsplit, along_append] at h
    exact h.2.1
  · intro h
    induction elements generalizing before with
    | nil => exact along_nil before
    | cons a rest ih =>
        constructor
        · simpa using h [] a rest rfl
        · apply ih
          intro middle b tail hsplit
          simpa using h (a :: middle) b tail (by rw [hsplit, List.cons_append])

theorem Along.imp {before elements : List α} (h : Along P before elements)
    (step : ∀ middle, ∀ a ∈ elements, P (before ++ middle) a → Q (before ++ middle) a) :
    Along Q before elements := by
  rw [along_iff] at h ⊢
  intro middle a rest hsplit
  apply step middle a
  · rw [hsplit]
    exact List.mem_append_right middle List.mem_cons_self
  · exact h middle a rest hsplit

/-- What every step keeps, given what has to hold of it where it is taken, holds of the outcome. -/
theorem foldl_invariant {σ : Type*} {f : σ → α → σ} {I : σ → Prop} {C : σ → α → Prop} {start : σ}
    {elements : List α} (step : ∀ s, ∀ a ∈ elements, I s → C s a → I (f s a)) (first : I start)
    (along : Along (fun before a => C (before.foldl f start) a) [] elements) :
    I (elements.foldl f start) := by
  induction elements using List.reverseRecOn with
  | nil => exact first
  | append_singleton rest a ih =>
      obtain ⟨hrest, hlast, _⟩ := along_append.mp along
      rw [List.foldl_append]
      exact step _ a (List.mem_append_right _ (List.mem_singleton_self a))
        (ih (fun s b hb => step s b (List.mem_append_left _ hb)) hrest) hlast

end Publiq
