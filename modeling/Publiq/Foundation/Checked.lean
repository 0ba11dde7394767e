import Mathlib.Logic.Basic
import Mathlib.Data.List.Basic

/-! Computations that either return a value or stop with a failure. A caller
reads a run through the equations below and never unfolds the monad. -/
namespace Checked

universe u v w
variable {ε : Type u} {α β σ : Type v}

def require (c : Prop) [Decidable c] (e : ε) : Except ε PUnit.{v+1} :=
  if c then .ok ⟨⟩ else .error e

theorem bind_ok_iff {x : Except ε α} {f : α → Except ε β} {b : β} :
    (x >>= f) = .ok b ↔ ∃ a, x = .ok a ∧ f a = .ok b := by
  rcases x with e | a <;> simp only [bind, Except.bind, reduceCtorEq, false_and, exists_false,
    Except.ok.injEq, exists_eq_left']

@[simp] theorem ok_bind (a : α) (f : α → Except ε β) : (Except.ok a >>= f) = f a := rfl

@[simp] theorem error_bind (e : ε) (f : α → Except ε β) :
    (Except.error e >>= f) = .error e := rfl

theorem pure_ok_iff {a b : α} : (pure a : Except ε α) = .ok b ↔ a = b :=
  ⟨fun h => Except.ok.inj h, fun h => congrArg Except.ok h⟩

theorem require_ok_iff {c : Prop} [Decidable c] {e : ε} {u : PUnit.{v+1}} :
    require c e = .ok u ↔ c := by
  by_cases h : c
  · simp [require, h]
  · simp [require, h]

@[simp] theorem require_true {c : Prop} [Decidable c] {e : ε} (h : c) :
    (require c e : Except ε PUnit.{v+1}) = .ok ⟨⟩ := if_pos h

@[simp] theorem require_false {c : Prop} [Decidable c] {e : ε} (h : ¬ c) :
    (require c e : Except ε PUnit.{v+1}) = .error e := if_neg h

theorem require_bind_ok_iff {c : Prop} [Decidable c] {e : ε}
    {f : PUnit.{v+1} → Except ε β} {b : β} :
    (require c e >>= f) = .ok b ↔ c ∧ f ⟨⟩ = .ok b := by
  by_cases h : c
  · simp [require, h]
  · simp [require, h]

theorem isOk_iff {x : Except ε α} : x.isOk = true ↔ ∃ a, x = .ok a := by
  cases x with
  | error e => exact ⟨fun h => (Bool.false_ne_true h).elim, fun ⟨a, h⟩ => nomatch h⟩
  | ok a => exact ⟨fun _ => ⟨a, rfl⟩, fun _ => rfl⟩

def okValue : (x : Except ε α) → x.isOk = true → α
  | .ok a, _ => a
  | .error _, h => nomatch h

theorem eq_okValue {x : Except ε α} (h : x.isOk = true) : x = .ok (okValue x h) := by
  cases x with
  | error e => cases h
  | ok a => rfl

def runAll (step : α → σ → Except ε σ) : List α → σ → Except ε σ
  | [], s => .ok s
  | a :: as, s => step a s >>= runAll step as

@[simp] theorem runAll_nil (step : α → σ → Except ε σ) (s : σ) :
    runAll step [] s = .ok s := rfl

@[simp] theorem runAll_cons (step : α → σ → Except ε σ) (a : α) (as : List α) (s : σ) :
    runAll step (a :: as) s = step a s >>= runAll step as := rfl

theorem runAll_cons_ok_iff {step : α → σ → Except ε σ} {a : α} {as : List α} {s t : σ} :
    runAll step (a :: as) s = .ok t ↔ ∃ m, step a s = .ok m ∧ runAll step as m = .ok t :=
  bind_ok_iff

theorem runAll_append (step : α → σ → Except ε σ) (as bs : List α) (s : σ) :
    runAll step (as ++ bs) s = runAll step as s >>= runAll step bs := by
  induction as generalizing s with
  | nil => rfl
  | cons a as ih =>
      cases h : step a s with
      | error e => simp [h]
      | ok m => simp [h, ih]

theorem runAll_append_ok_iff {step : α → σ → Except ε σ} {as bs : List α} {s t : σ} :
    runAll step (as ++ bs) s = .ok t ↔
      ∃ m, runAll step as s = .ok m ∧ runAll step bs m = .ok t := by
  rw [runAll_append, bind_ok_iff]

theorem runAll_singleton (step : α → σ → Except ε σ) (a : α) (s : σ) :
    runAll step [a] s = step a s := by
  cases h : step a s with
  | error e => simp [h]
  | ok m => simp [h]

theorem runAll_mem_ok {step : α → σ → Except ε σ} {as : List α} {s t : σ}
    (run : runAll step as s = .ok t) {a : α} (member : a ∈ as) :
    ∃ m n, step a m = .ok n := by
  obtain ⟨before, after, rfl⟩ := List.append_of_mem member
  obtain ⟨m, _, rest⟩ := runAll_append_ok_iff.mp run
  obtain ⟨n, here, _⟩ := runAll_cons_ok_iff.mp rest
  exact ⟨m, n, here⟩

def RunComesTo (step : α → σ → Except ε σ) (as : List α) (s : σ) (a : α) (m : σ) : Prop :=
  ∃ before after, as = before ++ a :: after ∧ runAll step before s = .ok m

theorem runComesTo_head (step : α → σ → Except ε σ) (a : α) (as : List α) (s : σ) :
    RunComesTo step (a :: as) s a s :=
  ⟨[], as, rfl, rfl⟩

theorem RunComesTo.cons {step : α → σ → Except ε σ} {as : List α} {a b : α} {s m t : σ}
    (first : step a s = .ok m) (h : RunComesTo step as m b t) : RunComesTo step (a :: as) s b t := by
  obtain ⟨before, after, rfl, run⟩ := h
  exact ⟨a :: before, after, rfl, runAll_cons_ok_iff.mpr ⟨m, first, run⟩⟩

theorem runAll_invariant {step : α → σ → Except ε σ} {I : σ → Prop} {as : List α}
    (keep : ∀ a ∈ as, ∀ s t, I s → step a s = .ok t → I t)
    {s t : σ} (hs : I s) (run : runAll step as s = .ok t) : I t := by
  induction as generalizing s with
  | nil => cases run; exact hs
  | cons a as ih =>
      obtain ⟨m, first, rest⟩ := runAll_cons_ok_iff.mp run
      exact ih (fun b hb => keep b (List.mem_cons_of_mem a hb))
        (keep a List.mem_cons_self s m hs first) rest

theorem runAll_ok_iff {step : α → σ → Except ε σ} {P : α → Prop} {update : α → σ → σ}
    {as : List α} (single : ∀ a ∈ as, ∀ s t, step a s = .ok t ↔ P a ∧ t = update a s) {s t : σ} :
    runAll step as s = .ok t ↔ (∀ a ∈ as, P a) ∧ t = as.foldl (fun s a => update a s) s := by
  induction as generalizing s with
  | nil =>
      rw [runAll_nil, List.foldl_nil]
      exact ⟨fun h => ⟨fun _ member => absurd member List.not_mem_nil, (Except.ok.inj h).symm⟩,
        fun h => congrArg Except.ok h.2.symm⟩
  | cons a as ih =>
      have rest : ∀ b ∈ as, ∀ s t, step b s = .ok t ↔ P b ∧ t = update b s :=
        fun b hb => single b (List.mem_cons_of_mem a hb)
      rw [runAll_cons_ok_iff, List.foldl_cons, List.forall_mem_cons]
      constructor
      · rintro ⟨m, first, run⟩
        obtain ⟨ha, rfl⟩ := (single a List.mem_cons_self s m).mp first
        obtain ⟨hall, ht⟩ := (ih rest).mp run
        exact ⟨⟨ha, hall⟩, ht⟩
      · rintro ⟨⟨ha, hall⟩, ht⟩
        exact ⟨_, (single a List.mem_cons_self s _).mpr ⟨ha, rfl⟩, (ih rest).mpr ⟨hall, ht⟩⟩

theorem map_of_mapM {γ : Type w} {g : β → γ} {p : α → γ} {f : α → Except ε β} {as : List α}
    {bs : List β} (each : ∀ a b, f a = .ok b → g b = p a) (h : as.mapM f = .ok bs) :
    bs.map g = as.map p := by
  induction as generalizing bs with
  | nil =>
      cases pure_ok_iff.mp h
      rfl
  | cons a rest ih =>
      rw [List.mapM_cons] at h
      obtain ⟨b, hb, h⟩ := bind_ok_iff.mp h
      obtain ⟨rest', hrest, h⟩ := bind_ok_iff.mp h
      cases pure_ok_iff.mp h
      rw [List.map_cons, each a b hb, ih hrest, List.map_cons]

theorem mapM_of_ok {f : α → Except ε β} {g : α → β} {as : List α}
    (each : ∀ a ∈ as, f a = .ok (g a)) : as.mapM f = .ok (as.map g) := by
  induction as with
  | nil => rfl
  | cons a rest ih =>
      rw [List.forall_mem_cons] at each
      rw [List.mapM_cons, each.1, ih each.2]
      rfl

def Alike (R : α → β → Prop) : Except ε α → Except ε β → Prop
  | .ok a, .ok b => R a b
  | .error e, .error f => e = f
  | _, _ => False

theorem alike_ok {R : α → β → Prop} {a : α} {b : β} (h : R a b) :
    Alike R (.ok a : Except ε α) (.ok b) := h

theorem Alike.mono {R S : α → β → Prop} {x : Except ε α} {y : Except ε β} (h : Alike R x y)
    (imp : ∀ a b, R a b → S a b) : Alike S x y := by
  cases x with
  | error e =>
      cases y with
      | error f => exact h
      | ok b => exact h.elim
  | ok a =>
      cases y with
      | error f => exact h.elim
      | ok b => exact imp a b h

theorem Alike.bind {γ δ : Type v} {R : α → β → Prop} {S : γ → δ → Prop} {x : Except ε α}
    {y : Except ε β} {f : α → Except ε γ} {g : β → Except ε δ} (h : Alike R x y)
    (next : ∀ a b, R a b → Alike S (f a) (g b)) : Alike S (x >>= f) (y >>= g) := by
  cases x with
  | error e =>
      cases y with
      | error f => exact h
      | ok b => exact h.elim
  | ok a =>
      cases y with
      | error f => exact h.elim
      | ok b => exact next a b h

theorem alike_bind_same {γ δ : Type v} {S : γ → δ → Prop} (x : Except ε α)
    {f : α → Except ε γ} {g : α → Except ε δ} (next : ∀ a, x = .ok a → Alike S (f a) (g a)) :
    Alike S (x >>= f) (x >>= g) := by
  cases x with
  | error e => rfl
  | ok a => exact next a rfl

theorem alike_bind_same_of_eq {γ δ : Type v} {S : γ → δ → Prop} {x y : Except ε α}
    {f : α → Except ε γ} {g : α → Except ε δ} (same : y = x)
    (next : ∀ a, x = .ok a → Alike S (f a) (g a)) : Alike S (x >>= f) (y >>= g) := by
  rw [same]
  exact alike_bind_same x next

theorem alike_runAll {σ' : Type v} {step : α → σ → Except ε σ} {step' : α → σ' → Except ε σ'}
    {R : σ → σ' → Prop} {as : List α}
    (keep : ∀ a ∈ as, ∀ s s', R s s' → Alike R (step a s) (step' a s'))
    {s : σ} {s' : σ'} (hs : R s s') : Alike R (runAll step as s) (runAll step' as s') := by
  induction as generalizing s s' with
  | nil => exact hs
  | cons a as ih =>
      exact (keep a List.mem_cons_self s s' hs).bind fun t t' ht =>
        ih (fun b hb => keep b (List.mem_cons_of_mem a hb)) ht

theorem Alike.ok_left {R : α → β → Prop} {x : Except ε α} {y : Except ε β} (h : Alike R x y)
    {a : α} (hx : x = .ok a) : ∃ b, y = .ok b ∧ R a b := by
  subst hx
  cases y with
  | error f => exact h.elim
  | ok b => exact ⟨b, rfl, h⟩

theorem Alike.ok_right {R : α → β → Prop} {x : Except ε α} {y : Except ε β} (h : Alike R x y)
    {b : β} (hy : y = .ok b) : ∃ a, x = .ok a ∧ R a b := by
  subst hy
  cases x with
  | error e => exact h.elim
  | ok a => exact ⟨a, rfl, h⟩

end Checked
