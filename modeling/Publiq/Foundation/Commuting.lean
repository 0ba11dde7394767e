import Publiq.Foundation.Checked

/-! Steps that are taken back in the order in which they were done. A step that commutes with all
that came after it could have been the last one, so it can be taken back first. -/
namespace Checked

universe u v w x

variable {ε : Type u} {α : Type v} {σ : Type w} {ρ : Type x}

/-- A run of steps, with what each of them returns. -/
inductive RunsTo (step : α → σ → Except ε (σ × ρ)) : List α → σ → List ρ → σ → Prop
  | nil (s : σ) : RunsTo step [] s [] s
  | cons {a : α} {as : List α} {s m t : σ} {out : ρ} {outs : List ρ} :
      step a s = .ok (m, out) → RunsTo step as m outs t →
        RunsTo step (a :: as) s (out :: outs) t

section
variable {step : α → σ → Except ε (σ × ρ)}

theorem RunsTo.append {first second : List α} {s m t : σ} {outs more : List ρ}
    (run : RunsTo step first s outs m) (rest : RunsTo step second m more t) :
    RunsTo step (first ++ second) s (outs ++ more) t := by
  induction run with
  | nil => exact rest
  | cons h _ ih => exact .cons h (ih rest)

theorem RunsTo.split {first second : List α} {s t : σ} {outs : List ρ}
    (run : RunsTo step (first ++ second) s outs t) :
    ∃ m before after, outs = before ++ after ∧ before.length = first.length ∧
      RunsTo step first s before m ∧ RunsTo step second m after t := by
  induction first generalizing s outs with
  | nil => exact ⟨s, [], outs, rfl, rfl, .nil s, run⟩
  | cons a first ih =>
      cases run with
      | @cons _ _ _ mid _ out outs h rest =>
          obtain ⟨m, before, after, rfl, hlength, hfirst, hsecond⟩ := ih rest
          exact ⟨m, out :: before, after, rfl, congrArg (· + 1) hlength, .cons h hfirst, hsecond⟩

theorem RunsTo.length {as : List α} {s t : σ} {outs : List ρ} (run : RunsTo step as s outs t) :
    outs.length = as.length := by
  induction run with
  | nil => rfl
  | cons _ _ ih => exact congrArg (· + 1) ih

end

/-- Steps that stand apart can be swapped, and fit where they fitted before. -/
structure Swaps (Kept : σ → Prop) (Fits : α → σ → Prop) (Apart : α → α → Prop)
    (step : α → σ → Except ε (σ × ρ)) : Prop where
  keeps : ∀ a s t out, Kept s → step a s = .ok (t, out) → Kept t
  swaps : ∀ a b s m t first second, Kept s → Apart a b → step a s = .ok (m, first) →
    step b m = .ok (t, second) → ∃ n, step b s = .ok (n, second) ∧ step a n = .ok (t, first)
  fits : ∀ a b s t out, Kept s → Apart a b → Fits a s → step b s = .ok (t, out) → Fits a t

/-- A step that fits is taken back where it was just done. -/
structure TakenBack (Kept : σ → Prop) (Fits : α → σ → Prop) (Apart : α → α → Prop)
    (step undo : α → σ → Except ε (σ × ρ)) : Prop extends Swaps Kept Fits Apart step where
  undoes : ∀ a s t out, Kept s → Fits a s → step a s = .ok (t, out) → undo a t = .ok (s, out)

section
variable {Kept : σ → Prop} {Fits : α → σ → Prop} {Apart : α → α → Prop}
  {step undo : α → σ → Except ε (σ × ρ)}

theorem Swaps.moveLast (swaps : Swaps Kept Fits Apart step) {a : α} {as : List α}
    {s m t : σ} {out : ρ} {outs : List ρ} (kept : Kept s) (fit : Fits a s)
    (apart : ∀ b ∈ as, Apart a b) (h : step a s = .ok (m, out)) (run : RunsTo step as m outs t) :
    ∃ n, Kept n ∧ Fits a n ∧ RunsTo step as s outs n ∧ step a n = .ok (t, out) := by
  induction run generalizing s with
  | nil => exact ⟨s, kept, fit, .nil s, h⟩
  | @cons b as _ _ _ _ _ hb _ ih =>
      rw [List.forall_mem_cons] at apart
      obtain ⟨n, hn, hlast⟩ := swaps.swaps _ _ _ _ _ _ _ kept apart.1 h hb
      obtain ⟨last, hkept, hfit, hrun, hdone⟩ := ih (swaps.keeps _ _ _ _ kept hn)
        (swaps.fits _ _ _ _ _ kept apart.1 fit hn) apart.2 hlast
      exact ⟨last, hkept, hfit, .cons hn hrun, hdone⟩

/-- What takes each step back only to where it was done, takes back a run in its order only to
where it began. -/
theorem Swaps.back (swaps : Swaps Kept Fits Apart step)
    (inverse : ∀ a s t r out returned, Kept s → Fits a s → step a s = .ok (t, out) →
      undo a t = .ok (r, returned) → r = s)
    {as : List α} {s t r : σ} {outs returned : List ρ} (kept : Kept s) (fit : ∀ a ∈ as, Fits a s)
    (apart : as.Pairwise Apart) (run : RunsTo step as s outs t)
    (undone : RunsTo undo as t returned r) : r = s := by
  induction as generalizing t outs returned with
  | nil =>
      cases run
      cases undone
      rfl
  | cons a as ih =>
      rw [List.forall_mem_cons] at fit
      rw [List.pairwise_cons] at apart
      cases run with
      | cons h rest =>
          cases undone with
          | cons hback hmore =>
              obtain ⟨n, hkept, hfit, hrest, hlast⟩ :=
                swaps.moveLast kept fit.1 apart.1 h rest
              cases inverse _ _ _ _ _ _ hkept hfit hlast hback
              exact ih fit.2 apart.2 hrest hmore

/-- Steps that stand apart are taken back in the order in which they were done, and each of them
returns what it did. -/
theorem TakenBack.run (back : TakenBack Kept Fits Apart step undo) {as : List α} {s t : σ}
    {outs : List ρ}
    (kept : Kept s) (fit : ∀ a ∈ as, Fits a s) (apart : as.Pairwise Apart)
    (run : RunsTo step as s outs t) : RunsTo undo as t outs s := by
  induction as generalizing t outs with
  | nil =>
      cases run
      exact .nil s
  | cons a as ih =>
      rw [List.forall_mem_cons] at fit
      rw [List.pairwise_cons] at apart
      cases run with
      | cons h rest =>
          obtain ⟨n, hkept, hfit, hrest, hlast⟩ := back.moveLast kept fit.1 apart.1 h rest
          exact .cons (back.undoes _ _ _ _ hkept hfit hlast) (ih fit.2 apart.2 hrest)

end

end Checked
