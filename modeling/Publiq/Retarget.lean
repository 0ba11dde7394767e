import Publiq.HeaderLaws
import Publiq.Foundation.Along

/-! The rule for `c_const`. `mine_block` computes it from the last deltas, one block at a
time; a header session checks it over local and received headers joined. -/
namespace Publiq
open Message Checked

/-- A delta and a `c_const`. -/
abbrev DeltaConst := UInt64 × UInt64

def Message.BlockHeader.deltaConst (header : BlockHeader) : DeltaConst :=
  (header.delta, header.cConst)

/-- What `mine_block` asks of `check_delta_vector`, over all the headers below. -/
def minedConst (below : List DeltaConst) : Checked (Except DeltaError UInt64) :=
  checkDeltaVector (below.drop (below.length - deltaStep))

def ruleConst : List DeltaConst → UInt64
  | c :: b :: a :: _ => adjustConst c.2 (a.1 + b.1 + c.1)
  | c :: _ => c.2
  | [] => 0

def nextConst (below : List DeltaConst) : UInt64 := ruleConst below.reverse

theorem exists_first_three (deltas : List DeltaConst) :
    deltas.length < deltaStep ∨ ∃ a b c rest, deltas = a :: b :: c :: rest := by
  match deltas with
  | [] => exact .inl (by decide)
  | [_] => exact .inl (Nat.lt_add_of_pos_left Nat.two_pos)
  | [_, _] => exact .inl (Nat.lt_succ_self 2)
  | a :: b :: c :: rest => exact .inr ⟨a, b, c, rest, rfl⟩

theorem exists_last_three (deltas : List DeltaConst) :
    deltas.length < deltaStep ∨ ∃ a b c rest, deltas = rest ++ [a, b, c] := by
  rcases exists_first_three deltas.reverse with h | ⟨c, b, a, rest, h⟩
  · exact .inl (by simpa using h)
  · refine .inr ⟨a, b, c, rest.reverse, ?_⟩
    rw [← List.reverse_reverse deltas, h]
    simp

theorem nextConst_append_three (rest : List DeltaConst) (a b c : DeltaConst) :
    nextConst (rest ++ [a, b, c]) = adjustConst c.2 (a.1 + b.1 + c.1) := by
  simp [nextConst, ruleConst]

/-- The `c_const` of the highest header of a list. -/
def lastConst (below : List DeltaConst) : UInt64 := (below.getLastD (0, 0)).2

theorem lastConst_append (below : List DeltaConst) (pair : DeltaConst) :
    lastConst (below ++ [pair]) = pair.2 := by
  simp [lastConst]

theorem nextConst_short {below : List DeltaConst} (nonempty : below ≠ [])
    (short : below.length < deltaStep) : nextConst below = lastConst below := by
  match below with
  | [] => exact absurd rfl nonempty
  | [_] => rfl
  | [_, _] => rfl
  | _ :: _ :: _ :: _ =>
      simp only [List.length_cons, deltaStep] at short
      omega

theorem nextConst_append {below : List DeltaConst} (full : deltaStep ≤ below.length)
    (before : List DeltaConst) : nextConst (before ++ below) = nextConst below := by
  rcases exists_last_three below with h | ⟨a, b, c, rest, rfl⟩
  · omega
  · rw [← List.append_assoc, nextConst_append_three, nextConst_append_three]

/-- A list of deltas with the places where they stand, from a place on. -/
def placed (start : ℕ) (deltas : List DeltaConst) : List (ℕ × DeltaConst) :=
  (deltas.zipIdx start).map fun ((delta, cConst), index) => (index, delta, cConst)

theorem placed_cons (start : ℕ) (a : DeltaConst) (rest : List DeltaConst) :
    placed start (a :: rest) = (start, a) :: placed (start + 1) rest := rfl

theorem sumWindow_due (expected : UInt64) (start : ℕ) (a b c : DeltaConst) :
    sumWindow expected [(start, a), (start + 1, b), (start + 2, c)] (start + 2, 0) =
      if c.2 = expected then .ok (start + 3, a.1 + b.1 + c.1)
      else .error ⟨start + 2, c.2, expected⟩ := by
  have hfirst : start + 2 ≠ start := by omega
  have hsecond : start + 2 ≠ start + 1 := by omega
  simp only [sumWindow, hfirst, hsecond, ↓reduceIte, UInt64.zero_add, ne_eq, ite_not]

/-- The loop over the windows lets every `c_const` through that is the one of the rule, and
ends with the next one. -/
theorem checkWindows_ok_iff {vector : List (ℕ × DeltaConst)} {start : ℕ} {a b : DeltaConst}
    {before rest : List DeltaConst} {cConst : UInt64}
    (hvector : vector.drop start = placed start (a :: b :: rest)) :
    checkWindows vector (List.range' start rest.length)
        (start + 2, nextConst (before ++ [a, b])) = .ok cConst ↔
      Along (fun below pair => pair.2 = nextConst below) (before ++ [a, b]) rest ∧
        cConst = nextConst (before ++ [a, b] ++ rest) := by
  induction rest generalizing start a b before with
  | nil =>
      rw [List.append_nil]
      constructor
      · intro h
        exact ⟨along_nil _, (Except.ok.inj h).symm⟩
      · rintro ⟨_, rfl⟩
        rfl
  | cons c rest ih =>
      rw [List.length_cons, List.range'_succ, checkWindows, hvector]
      simp only [placed_cons, deltaStep, List.take_succ_cons, List.take_zero, sumWindow_due,
        List.length_cons, List.length_nil, Nat.zero_add, Nat.reduceAdd, ↓reduceIte, along_cons]
      by_cases hdue : c.2 = nextConst (before ++ [a, b])
      · have hnext : nextConst (before ++ [a] ++ [b, c]) =
            adjustConst (nextConst (before ++ [a, b])) (a.1 + b.1 + c.1) := by
          rw [← hdue, ← nextConst_append_three before a b c, List.append_assoc]
          rfl
        have hbefore : before ++ [a, b] ++ [c] = before ++ [a] ++ [b, c] := by simp
        have hlonger : before ++ [a, b] ++ c :: rest = before ++ [a] ++ [b, c] ++ rest := by simp
        have hdrop : vector.drop (start + 1) = placed (start + 1) (b :: c :: rest) := by
          rw [← List.drop_drop, hvector]
          rfl
        rw [if_pos hdue, ok_bind, ← hnext, hbefore, hlonger]
        simp only [hdue, true_and]
        exact ih hdrop
      · rw [if_neg hdue]
        constructor
        · intro h
          cases h
        · rintro ⟨⟨h, _⟩, _⟩
          exact absurd h hdue

/-- Over a full window, `check_delta_vector` lets only the rule through. -/
theorem checkDeltaVector_ok_iff {deltas : List DeltaConst} (full : deltaStep ≤ deltas.length)
    {cConst : UInt64} :
    checkDeltaVector deltas = .ok (.ok cConst) ↔
      Along (fun below pair => pair.2 = nextConst below) (deltas.take deltaStep)
        (deltas.drop deltaStep) ∧ cConst = nextConst deltas := by
  rcases exists_first_three deltas with hshort | ⟨a, b, c, rest, rfl⟩
  · omega
  · have hend : (a :: b :: c :: rest).length - deltaStep + 1 = rest.length + 1 := by
      simp [deltaStep]
    have hfirst : sumWindow c.2 [(0, a), (1, b), (2, c)] (3, 0) =
        .ok (3, a.1 + b.1 + c.1) := by
      simp [sumWindow]
    have hrest : nextConst ([a] ++ [b, c]) = adjustConst c.2 (a.1 + b.1 + c.1) :=
      nextConst_append_three [] a b c
    have hvector : (placed 0 (a :: b :: c :: rest)).drop 1 = placed 1 (b :: c :: rest) := rfl
    have hchecked : checkDeltaVector (a :: b :: c :: rest) = .ok (checkWindows
        (placed 0 (a :: b :: c :: rest)) (List.range' 1 rest.length)
        (1 + 2, nextConst ([a] ++ [b, c]))) := by
      rw [checkDeltaVector, require_true (List.cons_ne_nil _ _), ok_bind, if_pos full, hend]
      apply congrArg Except.ok
      change checkWindows (placed 0 (a :: b :: c :: rest)) (List.range (rest.length + 1))
        (3, c.2) = _
      rw [List.range_eq_range', List.range'_succ, checkWindows, List.drop_zero]
      simp only [placed_cons, deltaStep, List.take_succ_cons, List.take_zero, List.length_cons,
        List.length_nil, Nat.zero_add, Nat.reduceAdd, hfirst, ok_bind, ↓reduceIte]
      rw [hrest]
    rw [hchecked, Except.ok.injEq]
    exact checkWindows_ok_iff hvector

theorem along_of_checkDeltaVector {deltas : List DeltaConst} {cConst : UInt64}
    (h : checkDeltaVector deltas = .ok (.ok cConst)) :
    Along (fun below pair => pair.2 = nextConst below) (deltas.take deltaStep)
      (deltas.drop deltaStep) := by
  by_cases full : deltaStep ≤ deltas.length
  · exact ((checkDeltaVector_ok_iff full).mp h).1
  · rw [List.drop_eq_nil_of_le (Nat.le_of_not_le full)]
    exact along_nil _

/-- What `mine_block` computes is the rule. -/
theorem minedConst_eq {below : List DeltaConst} (nonempty : below ≠ []) :
    minedConst below = .ok (.ok (nextConst below)) := by
  rcases exists_last_three below with hshort | ⟨a, b, c, rest, rfl⟩
  · rw [nextConst_short nonempty hshort]
    match below with
    | [_] => rfl
    | [_, _] => rfl
    | _ :: _ :: _ :: _ =>
        simp only [List.length_cons, deltaStep] at hshort
        omega
  · have hwindow : (rest ++ [a, b, c]).drop ((rest ++ [a, b, c]).length - deltaStep) =
        [a, b, c] := by
      simp [deltaStep]
    rw [minedConst, hwindow, nextConst_append_three]
    simp [checkDeltaVector, checkWindows, sumWindow, deltaStep, List.range_succ, require,
      pure, Except.pure]

/-- On three headers alone, `check_delta_vector` returns the rule over all that lie below. -/
theorem checkDeltaVector_window {deltas : List DeltaConst} {index : ℕ}
    (due : deltaStep ≤ index) (inside : index ≤ deltas.length) :
    checkDeltaVector ((deltas.drop (index - deltaStep)).take deltaStep) =
      .ok (.ok (nextConst (deltas.take index))) := by
  have hlength : (deltas.take index).length = index := by
    rw [List.length_take, Nat.min_eq_left inside]
  have nonempty : deltas.take index ≠ [] := by
    apply List.ne_nil_of_length_pos
    rw [hlength]
    exact Nat.lt_of_lt_of_le (by decide) due
  have hmined := minedConst_eq nonempty
  rw [minedConst, hlength, List.drop_take, Nat.sub_sub_self due] at hmined
  exact hmined

theorem along_due_iff {P : List DeltaConst → DeltaConst → Prop} {deltas : List DeltaConst} :
    Along P (deltas.take deltaStep) (deltas.drop deltaStep) ↔
      ∀ index pair, deltaStep ≤ index → deltas[index]? = some pair →
        P (deltas.take index) pair := by
  rw [along_iff]
  constructor
  · intro h index pair due hpair
    obtain ⟨inside, rfl⟩ := List.getElem?_eq_some_iff.mp hpair
    have hsplit : deltas.drop deltaStep = (deltas.drop deltaStep).take (index - deltaStep) ++
        deltas[index] :: deltas.drop (index + 1) := by
      calc deltas.drop deltaStep
          = (deltas.drop deltaStep).take (index - deltaStep) ++
              (deltas.drop deltaStep).drop (index - deltaStep) := (List.take_append_drop _ _).symm
        _ = _ := by rw [List.drop_drop, Nat.add_sub_cancel' due, List.drop_eq_getElem_cons inside]
    have hbelow : deltas.take deltaStep ++ (deltas.drop deltaStep).take (index - deltaStep) =
        deltas.take index := by
      rw [← List.take_add, Nat.add_sub_cancel' due]
    rw [← hbelow]
    exact h _ _ _ hsplit
  · intro h middle pair rest hsplit
    have hdeltas : deltas = deltas.take deltaStep ++ middle ++ pair :: rest := by
      rw [List.append_assoc, ← hsplit, List.take_append_drop]
    have full : deltaStep < deltas.length := by
      have hlength := congrArg List.length hsplit
      rw [List.length_drop, List.length_append, List.length_cons] at hlength
      omega
    have hbelow : (deltas.take deltaStep ++ middle).length = deltaStep + middle.length := by
      rw [List.length_append, List.length_take, Nat.min_eq_left full.le]
    have htake : deltas.take (deltaStep + middle.length) = deltas.take deltaStep ++ middle := by
      conv_lhs => rw [hdeltas]
      exact List.take_left' hbelow
    have hpair : deltas[deltaStep + middle.length]? = some pair := by
      conv_lhs => rw [hdeltas]
      rw [List.getElem?_append_right hbelow.le, hbelow, Nat.sub_self]
      rfl
    rw [← htake]
    exact h _ _ (Nat.le_add_right _ _) hpair

/-- `check_delta_vector` over many headers is what `mine_block` asks of it one at a time. -/
theorem checkDeltaVector_stepwise {deltas : List DeltaConst}
    (full : deltaStep ≤ deltas.length) :
    ((∃ cConst, checkDeltaVector deltas = .ok (.ok cConst)) ↔
      ∀ index pair, deltaStep ≤ index → deltas[index]? = some pair →
        checkDeltaVector ((deltas.drop (index - deltaStep)).take deltaStep) =
          .ok (.ok pair.2)) ∧
    ∀ cConst, checkDeltaVector deltas = .ok (.ok cConst) →
      minedConst deltas = .ok (.ok cConst) ∧
      ∀ next : DeltaConst,
        (∃ after, checkDeltaVector (deltas ++ [next]) = .ok (.ok after)) ↔ next.2 = cConst := by
  have nonempty : deltas ≠ [] :=
    List.ne_nil_of_length_pos (Nat.lt_of_lt_of_le (by decide) full)
  constructor
  · have hrule : (∃ cConst, checkDeltaVector deltas = .ok (.ok cConst)) ↔
        Along (fun below pair => pair.2 = nextConst below) (deltas.take deltaStep)
          (deltas.drop deltaStep) := by
      simp only [checkDeltaVector_ok_iff full, exists_and_left, exists_eq, and_true]
    rw [hrule, along_due_iff]
    refine forall₄_congr fun index pair due hpair => ?_
    have inside := (List.getElem?_eq_some_iff.mp hpair).1
    rw [checkDeltaVector_window due inside.le, Except.ok.injEq, Except.ok.injEq, eq_comm]
  · intro cConst h
    obtain ⟨hbelow, rfl⟩ := (checkDeltaVector_ok_iff full).mp h
    refine ⟨minedConst_eq nonempty, fun next => ?_⟩
    have hlonger : deltaStep ≤ (deltas ++ [next]).length := by
      rw [List.length_append]
      omega
    simp only [checkDeltaVector_ok_iff hlonger, exists_and_left, exists_eq, and_true]
    rw [List.take_append_of_le_length full, List.drop_append_of_le_length full, along_append,
      List.take_append_drop, along_cons]
    exact ⟨fun after => after.2.1, fun hnext => ⟨hbelow, hnext, along_nil _⟩⟩

/-- Three high deltas double the `c_const`, and the window after them leaves it. -/
theorem checkDeltaVector_stepwise_doubled :
    let deltas : List DeltaConst := [(5000000000, 4), (5000000000, 4), (5000000000, 4), (1, 8)]
    minedConst deltas = .ok (.ok 8) ∧
      ∀ next : DeltaConst,
        (∃ after, checkDeltaVector (deltas ++ [next]) = .ok (.ok after)) ↔ next.2 = 8 :=
  (checkDeltaVector_stepwise (by decide)).2 8 (by decide +kernel)

/-- A divisor of `calc_delta` that neither is zero nor wraps, at every distance. -/
def Divides (cConst : UInt64) : Prop :=
  ∀ dist ≤ distMax, (dist + 1) * cConst ≠ 0 ∧
    ((dist + 1) * cConst).toNat = (dist.toNat + 1) * cConst.toNat

theorem divides_iff {cConst : UInt64} :
    Divides cConst ↔ 0 < cConst.toNat ∧ cConst.toNat < 2 ^ 32 := by
  have hmax : distMax.toNat = 2 ^ 32 := rfl
  have hword := cConst.toNat_lt
  constructor
  · intro h
    obtain ⟨hzero, hproduct⟩ := h 4294967295 (by decide)
    have hfits := ((4294967295 + 1) * cConst).toNat_lt
    have hdist : (4294967295 : UInt64).toNat = 4294967295 := rfl
    rw [hproduct, hdist] at hfits
    constructor
    · apply Nat.pos_of_ne_zero
      intro hconst
      apply hzero
      rw [← UInt64.toNat_inj, hproduct, hconst]
      rfl
    · omega
  · rintro ⟨hpos, hsmall⟩ dist hdist
    have hdist := UInt64.le_iff_toNat_le.mp hdist
    have hone : (dist + 1).toNat = dist.toNat + 1 := by
      rw [UInt64.toNat_add]
      apply Nat.mod_eq_of_lt
      change dist.toNat + 1 < 2 ^ 64
      omega
    have hfits : (dist.toNat + 1) * cConst.toNat < 2 ^ 64 :=
      calc (dist.toNat + 1) * cConst.toNat ≤ (2 ^ 32 + 1) * (2 ^ 32 - 1) :=
            Nat.mul_le_mul (by omega) (by omega)
        _ < 2 ^ 64 := by decide
    have hproduct : ((dist + 1) * cConst).toNat = (dist.toNat + 1) * cConst.toNat := by
      rw [UInt64.toNat_mul, hone, Nat.mod_eq_of_lt hfits]
    refine ⟨?_, hproduct⟩
    intro hzero
    rw [hzero] at hproduct
    exact absurd hproduct.symm (Nat.mul_pos (Nat.succ_pos _) hpos).ne'

/-- Every `c_const` received is the one that `mine_block` would have computed there, and
`calc_delta` divides by none that is bad. -/
structure Retargeted (below received : List DeltaConst) : Prop where
  mined : Along (fun below pair => minedConst below = .ok (.ok pair.2)) below received
  attached : Divides (lastConst below)
  divides : ∀ pair ∈ received, Divides pair.2

/-- A header below the first full window keeps the `c_const` of the one before it, and none
doubles one of 32 bits. -/
structure Steady (below : List DeltaConst) (pair : DeltaConst) : Prop where
  early : below.length < deltaStep → pair.2 = lastConst below
  doubled : 2 ^ 31 ≤ (lastConst below).toNat → pair.2 ≠ lastConst below * 2

theorem nextConst_full {below : List DeltaConst} (full : deltaStep ≤ below.length) :
    ∃ deltaSum, nextConst below = adjustConst (lastConst below) deltaSum := by
  rcases exists_last_three below with h | ⟨a, b, c, rest, rfl⟩
  · omega
  · refine ⟨a.1 + b.1 + c.1, ?_⟩
    rw [nextConst_append_three]
    simp [lastConst]

theorem adjustConst_cases (expected deltaSum : UInt64) :
    adjustConst expected deltaSum = expected * 2 ∨
      (1 < expected ∧ adjustConst expected deltaSum = expected / 2) ∨
      adjustConst expected deltaSum = expected := by
  unfold adjustConst
  split_ifs with hup hdown
  · exact .inl rfl
  · exact .inr (.inl ⟨hdown.2, rfl⟩)
  · exact .inr (.inr rfl)

/-- Over a good `c_const` the rule only goes wrong where it doubles one of 32 bits. -/
theorem divides_adjustConst {expected deltaSum : UInt64} (h : Divides expected)
    (doubled : 2 ^ 31 ≤ expected.toNat → adjustConst expected deltaSum ≠ expected * 2) :
    Divides (adjustConst expected deltaSum) := by
  rw [divides_iff] at h ⊢
  rcases adjustConst_cases expected deltaSum with hup | ⟨hlarge, hdown⟩ | hsame
  · have hsmall : expected.toNat < 2 ^ 31 := by
      by_contra hlarge
      exact doubled (Nat.le_of_not_lt hlarge) hup
    have htwice : (expected * 2).toNat = expected.toNat * 2 := by
      rw [UInt64.toNat_mul]
      apply Nat.mod_eq_of_lt
      change expected.toNat * 2 < 2 ^ 64
      omega
    rw [hup, htwice]
    omega
  · have hlarge := UInt64.lt_iff_toNat_lt.mp hlarge
    have hone : (1 : UInt64).toNat = 1 := rfl
    have hhalf : (expected / 2).toNat = expected.toNat / 2 := UInt64.toNat_div expected 2
    rw [hdown, hhalf]
    omega
  · rw [hsame]
    exact h

/-- Doubling a `c_const` of 32 bits leaves the good ones. -/
theorem not_divides_double {cConst : UInt64} (h : Divides cConst)
    (large : 2 ^ 31 ≤ cConst.toNat) : ¬ Divides (cConst * 2) := by
  rw [divides_iff] at h ⊢
  have htwice : (cConst * 2).toNat = cConst.toNat * 2 := by
    rw [UInt64.toNat_mul]
    apply Nat.mod_eq_of_lt
    change cConst.toNat * 2 < 2 ^ 64
    omega
  omega

/-- One header more: it is the mined one and good exactly when it is steady. -/
theorem mined_and_divides_iff {below : List DeltaConst} {pair : DeltaConst}
    (nonempty : below ≠ []) (attached : Divides (lastConst below))
    (checked : deltaStep ≤ below.length → pair.2 = nextConst below) :
    (minedConst below = .ok (.ok pair.2) ∧ Divides pair.2) ↔ Steady below pair := by
  rw [minedConst_eq nonempty]
  constructor
  · rintro ⟨hmined, hdivides⟩
    have hrule : nextConst below = pair.2 := Except.ok.inj (Except.ok.inj hmined)
    constructor
    · intro early
      rw [← hrule, nextConst_short nonempty early]
    · intro hlarge hdouble
      rw [hdouble] at hdivides
      exact not_divides_double attached hlarge hdivides
  · intro steady
    by_cases early : below.length < deltaStep
    · have hlast := steady.early early
      rw [hlast, nextConst_short nonempty early]
      exact ⟨rfl, attached⟩
    · have hrule := checked (Nat.le_of_not_lt early)
      obtain ⟨deltaSum, hadjust⟩ := nextConst_full (Nat.le_of_not_lt early)
      rw [hrule]
      refine ⟨rfl, ?_⟩
      rw [hadjust]
      apply divides_adjustConst attached
      intro hlarge
      rw [← hadjust, ← hrule]
      exact steady.doubled hlarge

theorem retargeted_iff {below received : List DeltaConst} (nonempty : below ≠ [])
    (checked : Along (fun below pair => deltaStep ≤ below.length → pair.2 = nextConst below)
      below received) :
    Retargeted below received ↔ Divides (lastConst below) ∧ Along Steady below received := by
  induction received generalizing below with
  | nil =>
      constructor
      · intro h
        exact ⟨h.attached, along_nil below⟩
      · rintro ⟨hattached, _⟩
        exact ⟨along_nil below, hattached, fun _ h => nomatch h⟩
  | cons pair rest ih =>
      have hrest := ih (List.append_ne_nil_of_left_ne_nil nonempty [pair]) checked.2
      rw [lastConst_append] at hrest
      constructor
      · intro h
        have hdivides := h.divides pair List.mem_cons_self
        have hsteady := (mined_and_divides_iff nonempty h.attached checked.1).mp
          ⟨h.mined.1, hdivides⟩
        have hafter : Retargeted (below ++ [pair]) rest := by
          refine ⟨h.mined.2, ?_, fun other hother => h.divides other (.tail pair hother)⟩
          rwa [lastConst_append]
        exact ⟨h.attached, hsteady, (hrest.mp hafter).2⟩
      · rintro ⟨hattached, hsteady, hafter⟩
        obtain ⟨hmined, hdivides⟩ :=
          (mined_and_divides_iff nonempty hattached checked.1).mpr hsteady
        have hrest := hrest.mpr ⟨hdivides, hafter⟩
        refine ⟨⟨hmined, hrest.mined⟩, hattached, ?_⟩
        intro other hother
        cases hother with
        | head => exact hdivides
        | tail _ hother => exact hrest.divides other hother

theorem along_of_checked {window received : List DeltaConst} {cConst : UInt64}
    (h : checkDeltaVector (window ++ received) = .ok (.ok cConst)) :
    Along (fun below pair => deltaStep ≤ below.length → pair.2 = nextConst below)
      window received := by
  have hrule := along_iff.mp (along_of_checkDeltaVector h)
  rw [along_iff]
  rintro middle pair rest rfl full
  have happend : window ++ (middle ++ pair :: rest) = (window ++ middle) ++ pair :: rest := by
    simp
  rw [happend, List.take_append_of_le_length full, List.drop_append_of_le_length full] at hrule
  have hpair := hrule ((window ++ middle).drop deltaStep) pair rest rfl
  rwa [List.take_append_drop] at hpair

theorem along_of_window {below received : List DeltaConst}
    (h : Along (fun below pair => deltaStep ≤ below.length → pair.2 = nextConst below)
      (below.drop (below.length - deltaStep)) received) :
    Along (fun below pair => deltaStep ≤ below.length → pair.2 = nextConst below)
      below received := by
  rcases exists_last_three below with hshort | ⟨a, b, c, rest, rfl⟩
  · rwa [Nat.sub_eq_zero_of_le (by omega), List.drop_zero] at h
  · have hwindow : (rest ++ [a, b, c]).drop ((rest ++ [a, b, c]).length - deltaStep) =
        [a, b, c] := by
      simp [deltaStep]
    rw [hwindow, along_iff] at h
    rw [along_iff]
    intro middle pair after hsplit _
    have full : deltaStep ≤ ([a, b, c] ++ middle).length := by
      simp [deltaStep]
    rw [h middle pair after hsplit full, List.append_assoc, nextConst_append full]

def Blockchain.deltasBelow (chain : Blockchain) (number : ℕ) : List DeltaConst :=
  (chain.blocks.take number).map fun signedBlock =>
    signedBlock.blockDetails.header.deltaConst

theorem lastDeltas_eq {chain : Blockchain} {number : ℕ} (h : number < chain.length) :
    lastDeltas chain number = .ok ((chain.deltasBelow (number + 1)).drop
      ((chain.deltasBelow (number + 1)).length - deltaStep)) := by
  have hlength : (chain.deltasBelow (number + 1)).length = number + 1 := by
    rw [Blockchain.deltasBelow, List.length_map, List.length_take]
    exact Nat.min_eq_left h
  have hbelow : chain.deltasBelow (number + 1) =
      (List.range (number + 1)).map fun index =>
        ((chain.blocks[index]?.map fun signedBlock =>
          signedBlock.blockDetails.header.deltaConst).getD (0, 0)) := by
    apply List.ext_getElem
    · rw [hlength, List.length_map, List.length_range]
    · intro index hindex _
      have hlt : index < chain.blocks.length := by
        rw [hlength] at hindex
        exact Nat.lt_of_lt_of_le hindex h
      simp [Blockchain.deltasBelow, List.getElem?_eq_getElem hlt]
  rw [hlength, hbelow, ← List.map_drop]
  apply mapM_of_ok
  intro index hindex
  have hlt : index < chain.blocks.length := by
    have hmem := List.mem_range.mp (List.mem_of_mem_drop hindex)
    exact Nat.lt_of_lt_of_le hmem h
  simp [Blockchain.headerAt, Blockchain.blockAt, List.getElem?_eq_getElem hlt,
    BlockHeader.deltaConst, pure, Except.pure]

/-- The `c_const` of a mined block is that of the rule over the chain. -/
theorem nextHeader_cConst [Externals] {node : NodeInternals} {header : BlockHeader}
    (h : node.nextHeader = .ok header) :
    minedConst (node.blockchain.deltasBelow node.blockchain.length) =
      .ok (.ok header.cConst) := by
  have hpos := node.blockchain.length_pos
  have hlast := @lastDeltas_eq node.blockchain (node.blockchain.length - 1) (by omega)
  rw [Nat.sub_add_cancel hpos] at hlast
  unfold NodeInternals.nextHeader at h
  rw [hlast, ok_bind] at h
  obtain ⟨outcome, houtcome, h⟩ := bind_ok_iff.mp h
  cases outcome with
  | error e => cases h
  | ok cConst =>
      cases pure_ok_iff.mp h
      exact houtcome

section
variable [Externals]

def attachedTo (chain : Blockchain) (headers : List BlockHeaderExtended) : List DeltaConst :=
  chain.deltasBelow ((headers.getLast?.map fun back => back.blockNumber.toNat).getD 0)

def receivedDeltas (headers : List BlockHeaderExtended) : List DeltaConst :=
  headers.reverse.map fun header => header.deltaConst

theorem along_of_checkAgainstCommon {chain : Blockchain} {headers : List BlockHeaderExtended}
    (h : checkAgainstCommon chain headers = .ok ()) :
    attachedTo chain headers ≠ [] ∧
      Along (fun below pair => deltaStep ≤ below.length → pair.2 = nextConst below)
        (attachedTo chain headers) (receivedDeltas headers) := by
  unfold checkAgainstCommon at h
  cases hback : headers.getLast? with
  | none =>
      rw [hback] at h
      cases h
  | some back =>
      simp only [hback] at h
      obtain ⟨hnumber, h⟩ := require_bind_ok_iff.mp h
      obtain ⟨header, hheader, h⟩ := bind_ok_iff.mp h
      obtain ⟨_, h⟩ := require_bind_ok_iff.mp h
      obtain ⟨base, hbase⟩ := Blockchain.headerExAt_total hheader
      have hlt := (List.getElem?_eq_some_iff.mp hbase).1
      have hpos : 0 < back.blockNumber.toNat :=
        Nat.pos_of_ne_zero fun hzero => hnumber (UInt64.toNat_inj.mp hzero)
      have hattached : attachedTo chain headers = chain.deltasBelow back.blockNumber.toNat := by
        rw [attachedTo, hback]
        rfl
      have hlast := lastDeltas_eq hlt
      rw [Nat.sub_add_cancel hpos, ← hattached] at hlast
      rw [hlast, ok_bind] at h
      obtain ⟨outcome, houtcome, h⟩ := bind_ok_iff.mp h
      cases outcome with
      | error e => cases h
      | ok cConst =>
          have hreceived : headers.reverse.map (fun header => (header.delta, header.cConst)) =
              receivedDeltas headers := rfl
          rw [hreceived] at houtcome
          refine ⟨?_, along_of_window (along_of_checked houtcome)⟩
          rw [hattached, Blockchain.deltasBelow, ne_eq, List.map_eq_nil_iff,
            List.take_eq_nil_iff, not_or]
          exact ⟨hpos.ne', chain.nonempty⟩

/-- What a header session completes with follows the rule exactly when the header that it
attaches to has a `c_const` of 32 bits other than zero and every received one is steady. -/
theorem HeaderSession.retargeted_iff_steady {chain : Blockchain} {now : ℤ}
    {response headers : List BlockHeaderExtended} {session : HeaderSession}
    (h : session.processResponse chain now response = .ok (.completed headers)) :
    Retargeted (attachedTo chain headers) (receivedDeltas headers) ↔
      (0 < (lastConst (attachedTo chain headers)).toNat ∧
        (lastConst (attachedTo chain headers)).toNat < 2 ^ 32) ∧
      Along Steady (attachedTo chain headers) (receivedDeltas headers) := by
  obtain ⟨_, h⟩ := require_bind_ok_iff.mp h
  obtain ⟨_, _, h⟩ := bind_ok_iff.mp h
  cases hcut : cutAtCommon chain (session.syncHeaders ++ response) with
  | none => simp [hcut, pure_ok_iff] at h
  | some kept =>
      simp only [hcut] at h
      obtain ⟨_, hcommon, h⟩ := bind_ok_iff.mp h
      cases pure_ok_iff.mp h
      obtain ⟨nonempty, checked⟩ := along_of_checkAgainstCommon hcommon
      rw [retargeted_iff nonempty checked, divides_iff]

end

section Examples

/-- A genesis block with the least `c_const`. -/
def constGenesis : SignedBlock := ⟨⟨⟨0, 0, 0, 1, "", 0⟩, [], []⟩, ⟨"genesis", ""⟩⟩

noncomputable local instance constExternals : Externals :=
  namedExternals [constGenesis.blockDetails] []

theorem constGenesis_isOk : (Blockchain.start constGenesis).isOk = true := by
  decide

def constChain : Blockchain := okValue _ constGenesis_isOk

/-- The header of a first block, with a `c_const` of the peer's choice. -/
def constHeader (cConst : UInt64) : BlockHeaderExtended :=
  { blockNumber := 1, delta := 1, cSum := 1, cConst, prevHash := "#", timeSigned := 600,
    blockHash := "peer" }

noncomputable def constSession (cConst : UInt64) : HeaderSession :=
  HeaderSession.start constChain (constHeader cConst)

theorem constSession_completes (cConst : UInt64) (h : cConst = 0 ∨ cConst = 1) :
    (constSession cConst).processResponse constChain 700 [constHeader cConst] =
      .ok (.completed [constHeader cConst]) := by
  rcases h with rfl | rfl <;> decide +kernel

theorem constHeader_retargeted :
    Retargeted (attachedTo constChain [constHeader 1]) (receivedDeltas [constHeader 1]) := by
  apply (HeaderSession.retargeted_iff_steady (constSession_completes 1 (.inr rfl))).mpr
  refine ⟨by decide +kernel, ⟨?_, ?_⟩, trivial⟩
  · decide +kernel
  · decide +kernel

/-- A first block may halve the `c_const` of the genesis block to zero: the check begins
with the third entry of its vector, which the first two blocks never are. -/
theorem zero_const_accepted :
    ¬ ∀ [Externals] (chain : Blockchain) (now : ℤ) (response headers : List BlockHeaderExtended)
      (session : HeaderSession), (∀ genesis, chain.blocks[0]? = some genesis →
        1 ≤ genesis.blockDetails.header.cConst) →
      session.processResponse chain now response = .ok (.completed headers) →
      Retargeted (attachedTo chain headers) (receivedDeltas headers) := by
  intro claim
  have retargeted := claim constChain 700 _ _ _ ?_ (constSession_completes 0 (.inl rfl))
  · have hzero := (divides_iff.mp (retargeted.divides (1, 0) (by decide +kernel))).1
    exact absurd hzero (by decide)
  · intro genesis hgenesis
    rw [show constChain.blocks[0]? = some constGenesis from by decide +kernel] at hgenesis
    cases hgenesis
    decide

end Examples
end Publiq
