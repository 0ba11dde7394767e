import Publiq.HeaderSync

/-! What `check_headers_vector` promises of the headers that it lets through. The source
compares numbers, weights and times in words of 64 bits; the laws read them as integers. -/
namespace Publiq
open Message Checked

/-- The next header as the protocol wants it, in integers that do not wrap. -/
structure LawfulNext (header next : BlockHeaderExtended) : Prop where
  number : next.blockNumber.toNat = header.blockNumber.toNat + 1
  prevHash : next.prevHash = header.blockHash
  time : next.timeSigned = header.timeSigned + blockMineDelay
  weight : next.cSum.toNat = header.cSum.toNat + next.delta.toNat
  heavier : header.cSum.toNat < next.cSum.toNat

/-- Headers, the highest first, that lie over a local header as the protocol wants them. -/
structure Lawful (header : BlockHeaderExtended) (headers : List BlockHeaderExtended) :
    Prop where
  next : (header :: headers.reverse).IsChain LawfulNext
  heavier : (header :: headers.reverse).Pairwise fun a b => a.cSum.toNat < b.cSum.toNat
  total : ∀ before last after, headers.reverse = before ++ last :: after →
    last.cSum.toNat =
      header.cSum.toNat + ((before ++ [last]).map fun header => header.delta.toNat).sum

/-- A number that has a successor, and two times that the clock can subtract. -/
structure InRange (header next : BlockHeaderExtended) : Prop where
  number : header.blockNumber.toNat + 1 < 2 ^ 64
  low : -(2 * clockRange) ≤ next.timeSigned - header.timeSigned
  high : next.timeSigned - header.timeSigned ≤ 2 * clockRange

/-- The headers pass their own check and attach to the local header. -/
structure Accepted (header : BlockHeaderExtended) (headers : List BlockHeaderExtended) :
    Prop where
  vector : checkHeadersVector headers = false
  attached : ∀ back, headers.getLast? = some back → checkHeaders back header = false

theorem Accepted.isChain {header : BlockHeaderExtended} {headers : List BlockHeaderExtended}
    (h : Accepted header headers) : (header :: headers.reverse).IsChain Next := by
  have hchain := isChain_of_checkHeadersVector h.vector
  cases hreverse : headers.reverse with
  | nil => exact .singleton header
  | cons back rest =>
      rw [hreverse] at hchain
      apply List.IsChain.cons_cons
      · apply h.attached back
        rw [List.getLast?_eq_head?_reverse, hreverse, List.head?_cons]
      · exact hchain

theorem Next.weight {header next : BlockHeaderExtended} (h : Next header next) :
    next.cSum.toNat = header.cSum.toNat + next.delta.toNat ∧
      header.cSum.toNat < next.cSum.toNat := by
  obtain ⟨_, hgrows, hsum, _⟩ := next_iff.mp h
  have hgrows := UInt64.lt_iff_toNat_lt.mp hgrows
  have hsum := congrArg UInt64.toNat hsum
  rw [UInt64.toNat_add] at hsum
  have hdelta := next.delta.toNat_lt
  have hheader := header.cSum.toNat_lt
  constructor
  · omega
  · exact hgrows

theorem Next.lawfulNext {header next : BlockHeaderExtended} (h : Next header next)
    (inRange : InRange header next) : LawfulNext header next := by
  obtain ⟨hnumber, _, _, _, hprev, _, htime⟩ := next_iff.mp h
  refine ⟨?_, hprev, ?_, h.weight.1, h.weight.2⟩
  · rw [hnumber, UInt64.toNat_add]
    exact Nat.mod_eq_of_lt inRange.number
  · rw [clockSeconds_eq inRange.low inRange.high] at htime
    omega

theorem LawfulNext.inRange {header next : BlockHeaderExtended} (h : LawfulNext header next) :
    InRange header next := by
  have hnumber := next.blockNumber.toNat_lt
  have htime := h.time
  have hdelay : (blockMineDelay : ℤ) = 600 := rfl
  constructor
  · rw [← h.number]
    exact hnumber
  · unfold clockRange
    omega
  · unfold clockRange
    omega

theorem isChain_lawfulNext_iff {headers : List BlockHeaderExtended} (h : headers.IsChain Next) :
    headers.IsChain LawfulNext ↔ headers.IsChain InRange := by
  constructor
  · intro lawful
    exact lawful.imp fun _ _ => LawfulNext.inRange
  · intro inRange
    induction inRange with
    | nil => exact .nil
    | singleton header => exact .singleton header
    | cons_cons hrange _ ih =>
        rw [List.isChain_cons_cons] at h
        exact .cons_cons (h.1.lawfulNext hrange) (ih h.2)

theorem pairwise_cSum {headers : List BlockHeaderExtended} (h : headers.IsChain Next) :
    headers.Pairwise fun a b => a.cSum.toNat < b.cSum.toNat := by
  have : IsTrans BlockHeaderExtended fun a b => a.cSum.toNat < b.cSum.toNat :=
    ⟨fun _ _ _ => Nat.lt_trans⟩
  exact List.isChain_iff_pairwise.mp (h.imp fun _ _ hnext => hnext.weight.2)

theorem total_cSum {header last : BlockHeaderExtended} {before after : List BlockHeaderExtended}
    (h : (header :: (before ++ last :: after)).IsChain Next) :
    last.cSum.toNat =
      header.cSum.toNat + ((before ++ [last]).map fun header => header.delta.toNat).sum := by
  induction before generalizing header with
  | nil =>
      rw [List.nil_append, List.isChain_cons_cons] at h
      simpa using h.1.weight.1
  | cons next rest ih =>
      rw [List.cons_append, List.isChain_cons_cons] at h
      have hnext := h.1.weight.1
      have hlast := ih h.2
      simp only [List.cons_append, List.map_cons, List.sum_cons]
      omega

/-- Accepted headers obey the laws exactly when no number and no time difference between
neighbours leaves the range of its word. -/
theorem Accepted.lawful_iff {header : BlockHeaderExtended} {headers : List BlockHeaderExtended}
    (h : Accepted header headers) :
    Lawful header headers ↔ (header :: headers.reverse).IsChain InRange := by
  constructor
  · intro lawful
    exact (isChain_lawfulNext_iff h.isChain).mp lawful.next
  · intro inRange
    refine ⟨(isChain_lawfulNext_iff h.isChain).mpr inRange, pairwise_cSum h.isChain, ?_⟩
    intro before last after hsplit
    have hchain := h.isChain
    rw [hsplit] at hchain
    exact total_cSum hchain

/-- A header over `numbered n`, which refers to it and adds a weight of one. -/
def numbered (number : UInt64) (time : ℤ) : BlockHeaderExtended where
  blockNumber := number
  delta := 1
  cSum := number
  cConst := 1
  prevHash := toString (number - 1)
  timeSigned := time
  blockHash := toString number

theorem numbered_lawful : Lawful (numbered 4 0) [numbered 6 1200, numbered 5 600] := by
  have accepted : Accepted (numbered 4 0) [numbered 6 1200, numbered 5 600] := by
    constructor
    · decide +kernel
    · rintro back hback
      cases hback
      decide +kernel
  apply accepted.lawful_iff.mpr
  refine .cons_cons ⟨?_, ?_, ?_⟩ (.cons_cons ⟨?_, ?_, ?_⟩ (.singleton _)) <;> decide +kernel

/-- A header of the twenty-sixth century passes for one of ten minutes later: in
nanoseconds the difference wraps to 600 seconds. -/
theorem late_header_unlawful :
    ¬ ∀ header headers, Accepted header headers → Lawful header headers := by
  intro h
  have lawful := h (numbered 4 0) [numbered 6 18446745274, numbered 5 600] (by
    constructor
    · decide +kernel
    · rintro back hback
      cases hback
      decide +kernel)
  have hlast := (List.isChain_cons_cons.mp lawful.next).2
  have htime := (List.isChain_cons_cons.mp hlast).1.time
  revert htime
  decide +kernel

end Publiq
