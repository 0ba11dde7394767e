import Publiq.Foundation.Checked

/-! Questions that are asked before a computation, and tell whether it will succeed. -/
namespace Checked

universe u
variable {ε : Type u} {α β : Type}

def Foretells (question : Except ε Bool) (x : Except ε α) : Prop :=
  ∃ answer, question = .ok answer ∧ (answer = true ↔ x.isOk = true)

theorem foretells_pure {answer : Bool} {x : Except ε α} :
    Foretells (pure answer) x ↔ (answer = true ↔ x.isOk = true) := by
  constructor
  · rintro ⟨other, hother, h⟩
    rwa [pure_ok_iff.mp hother]
  · intro h
    exact ⟨answer, rfl, h⟩

theorem not_foretells_error {e : ε} {x : Except ε α} :
    ¬ Foretells (.error e : Except ε Bool) x := by
  rintro ⟨_, h, _⟩
  cases h

theorem foretells_false_error {e : ε} : Foretells (pure false) (.error e : Except ε α) :=
  foretells_pure.mpr Iff.rfl

theorem not_foretells_true_error {e : ε} : ¬ Foretells (pure true) (.error e : Except ε α) :=
  fun h => Bool.false_ne_true ((foretells_pure.mp h).mp rfl)

theorem foretells_true_ok {a : α} : Foretells (pure true : Except ε Bool) (.ok a : Except ε α) :=
  foretells_pure.mpr Iff.rfl

theorem foretells_gate {c refused : Prop} [Decidable c] [Decidable refused] (h : refused ↔ ¬ c)
    {e : ε} {question : Except ε Bool} {x : Except ε α} :
    Foretells (if refused then pure false else question) (require c e >>= fun _ => x) ↔
      (c → Foretells question x) := by
  by_cases hc : c
  · have hgoes : ¬ refused := fun hrefused => h.mp hrefused hc
    rw [if_neg hgoes, require_true hc, ok_bind]
    exact ⟨fun hforetells _ => hforetells, fun hforetells => hforetells hc⟩
  · rw [if_pos (h.mpr hc), require_false hc, error_bind]
    exact ⟨fun _ hc' => absurd hc' hc, fun _ => foretells_false_error⟩

theorem foretells_require {c : Prop} [Decidable c] {answer : Bool} (h : answer = true ↔ c) {e : ε}
    {f : PUnit.{1} → Except ε α} (goes : c → (f ⟨⟩).isOk = true) :
    Foretells (pure answer) (require c e >>= f) := by
  rw [foretells_pure, h]
  by_cases hc : c
  · rw [require_true hc]
    exact iff_of_true hc (goes hc)
  · rw [require_false hc]
    exact iff_of_false hc Bool.false_ne_true

theorem Foretells.and {question : Except ε Bool} {x : Except ε PUnit} {rest : Bool}
    {y : Except ε α} (first : Foretells question x) (second : Foretells (pure rest) y) :
    Foretells (question >>= fun answer => pure (answer && rest)) (x >>= fun _ => y) := by
  obtain ⟨answer, hanswer, hfirst⟩ := first
  rw [foretells_pure] at second
  rw [hanswer, ok_bind, foretells_pure, Bool.and_eq_true, hfirst, second]
  cases x with
  | error e => exact ⟨fun h => h.1, fun h => ⟨h, absurd h Bool.false_ne_true⟩⟩
  | ok u => exact ⟨fun h => h.2, fun h => ⟨rfl, h⟩⟩

theorem foretells_require_and {c : Prop} [Decidable c] {answer rest : Bool} {e : ε}
    {y : Except ε α} (h : answer = true ↔ c) (second : Foretells (pure rest) y) :
    Foretells (pure (answer && rest)) (require c e >>= fun _ => y) := by
  have first : Foretells (pure answer) (require c e : Except ε PUnit.{1}) := by
    have hgoes := @foretells_require ε PUnit c _ answer h e pure fun _ => rfl
    rwa [bind_pure] at hgoes
  exact first.and second

theorem foretells_bind {y : Except ε β} {question : β → Except ε Bool} {x : β → Except ε α} :
    Foretells (y >>= question) (y >>= x) ↔
      ∃ b, y = .ok b ∧ Foretells (question b) (x b) := by
  cases y with
  | error e =>
      constructor
      · intro h
        exact absurd h not_foretells_error
      · rintro ⟨b, hb, _⟩
        cases hb
  | ok b =>
      constructor
      · intro h
        exact ⟨b, rfl, h⟩
      · rintro ⟨b', hb, h⟩
        cases hb
        exact h

end Checked
