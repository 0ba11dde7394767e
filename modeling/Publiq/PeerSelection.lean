import Publiq.Workers
import Mathlib.Data.List.MinMax
import Mathlib.Data.List.Perm.Basic
import Mathlib.Order.Bounds.Basic

/-! The peer that `header_worker` asks for headers, whatever order the hash table of the
responses is gone through in. -/
namespace Publiq
open Message

namespace Synchronization
variable [Externals]

abbrev Entry := String × SyncResponse

/-- What the scan has: the selected head and its peer, the weight and the number it compares
with, and the heads requested already. -/
abbrev Scanned := Option (String × BlockHeaderExtended) × UInt64 × UInt64 × List String

def scanIn (s : Synchronization) (peers : List String) (order : List Entry) : Scanned :=
  order.foldl (s.scanResponses peers) (none, 0, s.chain.lastHeader.blockNumber, [])

def selectedIn (s : Synchronization) (peers : List String) (order : List Entry) :
    Option BlockHeaderExtended :=
  (s.scanIn peers order).1.map Prod.snd

variable (s : Synchronization) (peers : List String)

def Reverting (e : Entry) : Prop :=
  e.1 ∈ peers ∧ (s.headersActionsData[e.1]?.any fun data => 0 < data.revertsRequired) = true

instance : DecidablePred (s.Reverting peers) := fun _ => inferInstanceAs (Decidable (_ ∧ _))

/-- A connected peer without such a session has another head that is not below the own one. -/
def Open (e : Entry) : Prop :=
  e.1 ∈ peers ∧ ¬ s.Reverting peers e ∧ s.chain.lastHash ≠ e.2.ownHeader.blockHash ∧
    s.chain.lastHeader.blockNumber ≤ e.2.ownHeader.blockNumber

def Requested (blockHash : String) : Prop :=
  ∃ e ∈ s.syncResponses.toList, s.Reverting peers e ∧ e.2.ownHeader.blockHash = blockHash

def Eligible (e : Entry) : Prop :=
  e ∈ s.syncResponses.toList ∧ s.Open peers e ∧ ¬ s.Requested peers e.2.ownHeader.blockHash

def eligibleSums : Set ℕ := { sum | ∃ e, s.Eligible peers e ∧ e.2.ownHeader.cSum.toNat = sum }

/-- Whatever the order, the greatest weight is selected, and none where nothing is eligible. -/
structure SelectsGreatest : Prop where
  same : ∀ order order' : List Entry, order.Perm s.syncResponses.toList →
    order'.Perm s.syncResponses.toList →
      ((s.selectedIn peers order).map fun header => header.cSum) =
        (s.selectedIn peers order').map fun header => header.cSum
  greatest : ∀ order : List Entry, order.Perm s.syncResponses.toList → ∀ header,
    s.selectedIn peers order = some header → IsGreatest (s.eligibleSums peers) header.cSum.toNat
  none_iff : ∀ order : List Entry, order.Perm s.syncResponses.toList →
    (s.selectedIn peers order = none ↔ ∀ e, ¬ s.Eligible peers e)

/-- An eligible response of positive weight that no other one outweighs; those of less weight
have no greater number, the responses for requested heads included. -/
def Outstanding (best : Entry) : Prop :=
  s.Eligible peers best ∧ 0 < best.2.ownHeader.cSum ∧
    ∀ e ∈ s.syncResponses.toList, s.Open peers e → 0 < e.2.ownHeader.cSum →
      e.2.ownHeader.cSum ≤ best.2.ownHeader.cSum ∧
      (e.2.ownHeader.cSum < best.2.ownHeader.cSum →
        e.2.ownHeader.blockNumber ≤ best.2.ownHeader.blockNumber)

/-- There is such a response, or there is nothing to select. -/
def Undisputed : Prop :=
  (∃ best, s.Outstanding peers best) ∨
    (∀ e, ¬ s.Eligible peers e) ∧
      ∀ e ∈ s.syncResponses.toList, s.Open peers e → e.2.ownHeader.cSum = 0

variable {s : Synchronization} {peers : List String}

/-- What one response does to the scan. -/
theorem scanResponses_cases (scanned : Scanned) (e : Entry) :
    (s.Reverting peers e ∧ s.scanResponses peers scanned e =
      (scanned.1, scanned.2.1, scanned.2.2.1, scanned.2.2.2 ++ [e.2.ownHeader.blockHash])) ∨
    (¬ s.Reverting peers e ∧
      (e.1 ∈ peers ∧ s.chain.lastHash ≠ e.2.ownHeader.blockHash ∧
        scanned.2.1 < e.2.ownHeader.cSum ∧ scanned.2.2.1 ≤ e.2.ownHeader.blockNumber ∧
        e.2.ownHeader.blockHash ∉ scanned.2.2.2) ∧
      s.scanResponses peers scanned e = (some (e.1, e.2.ownHeader), e.2.ownHeader.cSum,
        e.2.ownHeader.blockNumber, scanned.2.2.2)) ∨
    (¬ s.Reverting peers e ∧
      ¬ (e.1 ∈ peers ∧ s.chain.lastHash ≠ e.2.ownHeader.blockHash ∧
        scanned.2.1 < e.2.ownHeader.cSum ∧ scanned.2.2.1 ≤ e.2.ownHeader.blockNumber ∧
        e.2.ownHeader.blockHash ∉ scanned.2.2.2) ∧
      s.scanResponses peers scanned e = scanned) := by
  obtain ⟨scan, cSum, number, requested⟩ := scanned
  obtain ⟨peer, response⟩ := e
  unfold scanResponses Reverting
  dsimp only
  by_cases connected : peer ∈ peers
  · rw [if_neg (not_not.mpr connected)]
    by_cases active :
        (s.headersActionsData[peer]?.any fun data => 0 < data.revertsRequired) = true
    · rw [if_pos active]
      exact .inl ⟨⟨connected, active⟩, rfl⟩
    · rw [if_neg active]
      right
      by_cases better : s.chain.lastHash ≠ response.ownHeader.blockHash ∧
          cSum < response.ownHeader.cSum ∧ number ≤ response.ownHeader.blockNumber ∧
          response.ownHeader.blockHash ∉ requested
      · rw [if_pos better]
        exact .inl ⟨fun both => active both.2, ⟨connected, better⟩, rfl⟩
      · rw [if_neg better]
        exact .inr ⟨fun both => active both.2, fun both => better both.2, rfl⟩
  · rw [if_pos connected]
    exact .inr (.inr ⟨fun both => connected both.1, fun both => connected both.1, rfl⟩)

/-- The scan over some responses, from what it had: the numbers grow, the requested heads come
in, and what is selected newly was selected against what there was. -/
theorem scan_spec (order : List Entry) (start : Scanned) :
    (∀ blockHash, blockHash ∈ (order.foldl (s.scanResponses peers) start).2.2.2 ↔
      blockHash ∈ start.2.2.2 ∨
        ∃ e ∈ order, s.Reverting peers e ∧ e.2.ownHeader.blockHash = blockHash) ∧
    (start.2.1 ≤ (order.foldl (s.scanResponses peers) start).2.1 ∧
      start.2.2.1 ≤ (order.foldl (s.scanResponses peers) start).2.2.1) ∧
    (((order.foldl (s.scanResponses peers) start).1 = start.1 ∧
        (order.foldl (s.scanResponses peers) start).2.1 = start.2.1 ∧
        (order.foldl (s.scanResponses peers) start).2.2.1 = start.2.2.1) ∨
      ∃ e ∈ order, e.1 ∈ peers ∧ ¬ s.Reverting peers e ∧
        s.chain.lastHash ≠ e.2.ownHeader.blockHash ∧ start.2.1 < e.2.ownHeader.cSum ∧
        start.2.2.1 ≤ e.2.ownHeader.blockNumber ∧ e.2.ownHeader.blockHash ∉ start.2.2.2 ∧
        (order.foldl (s.scanResponses peers) start).1 = some (e.1, e.2.ownHeader) ∧
        (order.foldl (s.scanResponses peers) start).2.1 = e.2.ownHeader.cSum ∧
        (order.foldl (s.scanResponses peers) start).2.2.1 = e.2.ownHeader.blockNumber) := by
  induction order generalizing start with
  | nil =>
      refine ⟨fun blockHash => ?_, ⟨UInt64.le_refl _, UInt64.le_refl _⟩, .inl ⟨rfl, rfl, rfl⟩⟩
      simp
  | cons e rest ih =>
      rw [List.foldl_cons]
      obtain ⟨requested, ⟨sum, number⟩, selected⟩ := ih (s.scanResponses peers start e)
      rcases scanResponses_cases start e with
        ⟨active, step⟩ | ⟨idle, ⟨connected, other, heavier, higher, new⟩, step⟩ | ⟨idle, _, step⟩
      · rw [step] at requested sum number selected ⊢
        refine ⟨fun blockHash => ?_, ⟨sum, number⟩, ?_⟩
        · rw [requested, List.mem_append, List.mem_singleton, or_assoc]
          simp [active, eq_comm]
        · rcases selected with same | ⟨found, member, a, b, c, d, f, unrequested, g⟩
          · exact .inl same
          · refine .inr ⟨found, List.mem_cons_of_mem e member, a, b, c, d, f, ?_, g⟩
            exact fun before => unrequested (List.mem_append_left _ before)
      · rw [step] at requested sum number selected ⊢
        refine ⟨fun blockHash => ?_,
          ⟨UInt64.le_trans (UInt64.le_of_lt heavier) sum, UInt64.le_trans higher number⟩, .inr ?_⟩
        · rw [requested]
          simp [idle]
        · rcases selected with ⟨same, same', same''⟩ | ⟨found, member, a, b, c, d, f, g⟩
          · exact ⟨e, List.mem_cons_self, connected, idle, other, heavier, higher, new, same,
              same', same''⟩
          · exact ⟨found, List.mem_cons_of_mem e member, a, b, c, UInt64.lt_trans heavier d,
              UInt64.le_trans higher f, g⟩
      · rw [step] at requested sum number selected ⊢
        refine ⟨fun blockHash => ?_, ⟨sum, number⟩, ?_⟩
        · rw [requested]
          simp [idle]
        · rcases selected with same | ⟨found, member, g⟩
          · exact .inl same
          · exact .inr ⟨found, List.mem_cons_of_mem e member, g⟩

theorem scan_open (order : List Entry) (start : Scanned)
    (low : s.chain.lastHeader.blockNumber ≤ start.2.2.1) :
    ((order.foldl (s.scanResponses peers) start).1 = start.1 ∧
        (order.foldl (s.scanResponses peers) start).2.1 = start.2.1 ∧
        (order.foldl (s.scanResponses peers) start).2.2.1 = start.2.2.1) ∨
      ∃ e ∈ order, s.Open peers e ∧ start.2.1 < e.2.ownHeader.cSum ∧
        start.2.2.1 ≤ e.2.ownHeader.blockNumber ∧ e.2.ownHeader.blockHash ∉ start.2.2.2 ∧
        (order.foldl (s.scanResponses peers) start).1 = some (e.1, e.2.ownHeader) ∧
        (order.foldl (s.scanResponses peers) start).2.1 = e.2.ownHeader.cSum ∧
        (order.foldl (s.scanResponses peers) start).2.2.1 = e.2.ownHeader.blockNumber := by
  rcases (@scan_spec _ s peers order start).2.2 with
    same | ⟨e, member, connected, idle, other, heavier, higher, new, selected⟩
  · exact .inl same
  · exact .inr ⟨e, member, ⟨connected, idle, other, UInt64.le_trans low higher⟩, heavier, higher,
      new, selected⟩

/-- An open response is selected against a smaller weight, unless its number is too low or its
head is requested. -/
theorem step_open {e : Entry} (is_open : s.Open peers e) (scanned : Scanned)
    (heavier : scanned.2.1 < e.2.ownHeader.cSum)
    (higher : scanned.2.2.1 ≤ e.2.ownHeader.blockNumber)
    (new : e.2.ownHeader.blockHash ∉ scanned.2.2.2) :
    s.scanResponses peers scanned e =
      (some (e.1, e.2.ownHeader), e.2.ownHeader.cSum, e.2.ownHeader.blockNumber,
        scanned.2.2.2) := by
  rcases @scanResponses_cases _ s peers scanned e with
    ⟨active, _⟩ | ⟨_, _, step⟩ | ⟨_, worse, _⟩
  · exact absurd active is_open.2.1
  · exact step
  · exact absurd ⟨is_open.1, is_open.2.2.1, heavier, higher, new⟩ worse

/-- An outstanding response fixes the weight that is selected. -/
theorem scanIn_outstanding {best : Entry} (outstanding : s.Outstanding peers best)
    {order : List Entry} (shuffled : order.Perm s.syncResponses.toList) :
    ∃ peer header, (s.scanIn peers order).1 = some (peer, header) ∧
      header.cSum = best.2.ownHeader.cSum := by
  obtain ⟨⟨held, is_open, unrequested⟩, positive, bounded⟩ := outstanding
  obtain ⟨before, after, rfl⟩ := List.append_of_mem (shuffled.mem_iff.mpr held)
  have within : ∀ e ∈ before ++ best :: after, e ∈ s.syncResponses.toList :=
    fun e member => shuffled.mem_iff.mp member
  unfold scanIn
  rw [List.foldl_append, List.foldl_cons]
  set first := before.foldl (s.scanResponses peers) (none, 0, s.chain.lastHeader.blockNumber, [])
    with first_eq
  have new : best.2.ownHeader.blockHash ∉ first.2.2.2 := by
    intro member
    rw [first_eq, (scan_spec before _).1] at member
    rcases member with member | ⟨e, member, active, same⟩
    · exact absurd member List.not_mem_nil
    · exact unrequested ⟨e, within e (List.mem_append_left _ member), active, same⟩
  have low : s.chain.lastHeader.blockNumber ≤ first.2.2.1 :=
    (scan_spec before (none, 0, s.chain.lastHeader.blockNumber, [])).2.1.2
  -- once the outstanding response has been looked at, its weight is the one selected
  have passed : ∃ peer header, (s.scanResponses peers first best).1 = some (peer, header) ∧
      header.cSum = best.2.ownHeader.cSum ∧
      (s.scanResponses peers first best).2.1 = best.2.ownHeader.cSum := by
    rcases @scan_open _ s peers before
        (none, 0, s.chain.lastHeader.blockNumber, []) (UInt64.le_refl _) with
      ⟨_, sum, number⟩ | ⟨e, member, other, heavier, _, _, selected, sum, number⟩
    · rw [← first_eq] at sum number
      rw [step_open is_open first (by rw [sum]; exact positive)
        (by rw [number]; exact is_open.2.2.2) new]
      exact ⟨best.1, best.2.ownHeader, rfl, rfl, rfl⟩
    · rw [← first_eq] at selected sum number
      obtain ⟨atMost, lower⟩ := bounded e (within e (List.mem_append_left _ member)) other heavier
      by_cases less : e.2.ownHeader.cSum < best.2.ownHeader.cSum
      · rw [step_open is_open first (by rw [sum]; exact less)
          (by rw [number]; exact lower less) new]
        exact ⟨best.1, best.2.ownHeader, rfl, rfl, rfl⟩
      · have equal : e.2.ownHeader.cSum = best.2.ownHeader.cSum :=
          UInt64.le_antisymm atMost (UInt64.not_lt.mp less)
        rcases @scanResponses_cases _ s peers first best with
          ⟨active, _⟩ | ⟨_, _, step⟩ | ⟨_, _, step⟩
        · exact absurd active is_open.2.1
        · rw [step]
          exact ⟨best.1, best.2.ownHeader, rfl, rfl, rfl⟩
        · rw [step]
          exact ⟨e.1, e.2.ownHeader, selected, equal, sum.trans equal⟩
  obtain ⟨peer, header, selected, same, sum⟩ := passed
  rcases @scan_open _ s peers after (s.scanResponses peers first best)
      (UInt64.le_trans low (scan_spec [best] first).2.1.2) with
    ⟨kept, _⟩ | ⟨e, member, other, heavier, _⟩
  · exact ⟨peer, header, kept.trans selected, same⟩
  · rw [sum] at heavier
    have atMost := (bounded e (within e (List.mem_append_right _ (List.mem_cons_of_mem _ member)))
      other (UInt64.lt_trans positive heavier)).1
    exact absurd heavier (UInt64.not_lt.mpr atMost)

theorem scan_requested_first (rest : List Entry) (start : Scanned)
    (low : s.chain.lastHeader.blockNumber ≤ start.2.2.1) :
    ((rest.filter (s.Reverting peers) ++ rest.filter (fun e => !decide (s.Reverting peers e))).foldl
        (s.scanResponses peers) start).1 = start.1 ∨
      ∃ e ∈ rest, s.Open peers e ∧ start.2.2.1 ≤ e.2.ownHeader.blockNumber ∧
        (∀ e' ∈ rest, s.Reverting peers e' →
          e'.2.ownHeader.blockHash ≠ e.2.ownHeader.blockHash) ∧
        ((rest.filter (s.Reverting peers) ++
            rest.filter (fun e => !decide (s.Reverting peers e))).foldl
          (s.scanResponses peers) start).1 = some (e.1, e.2.ownHeader) := by
  rw [List.foldl_append]
  obtain ⟨requested, ⟨_, number⟩, kept⟩ :=
    @scan_spec _ s peers (rest.filter (s.Reverting peers)) start
  -- the responses of the reverting sessions select nothing
  have same : ((rest.filter (s.Reverting peers)).foldl (s.scanResponses peers) start).1 =
      start.1 := by
    rcases kept with kept | ⟨e, member, _, idle, _⟩
    · exact kept.1
    · exact absurd (of_decide_eq_true (List.mem_filter.mp member).2) idle
  rcases @scan_open _ s peers
      (rest.filter fun e => !decide (s.Reverting peers e)) _ (UInt64.le_trans low number) with
    ⟨unchanged, _⟩ | ⟨e, member, is_open, _, higher, new, selected, _⟩
  · exact .inl (unchanged.trans same)
  · refine .inr ⟨e, (List.mem_filter.mp member).1, is_open, UInt64.le_trans number higher, ?_,
      selected⟩
    intro e' member' active equal
    refine new ((requested _).mpr (.inr ⟨e', List.mem_filter.mpr ⟨member', ?_⟩, active, equal⟩))
    exact decide_eq_true active

theorem selects_open {e : Entry} (is_open : s.Open peers e) (positive : 0 < e.2.ownHeader.cSum)
    (rest : List Entry) : ∃ peer header, (s.scanIn peers (e :: rest)).1 = some (peer, header) ∧
      e.2.ownHeader.cSum ≤ header.cSum := by
  unfold scanIn
  rw [List.foldl_cons, step_open is_open _ positive is_open.2.2.2 List.not_mem_nil]
  rcases @scan_open _ s peers rest
      (some (e.1, e.2.ownHeader), e.2.ownHeader.cSum, e.2.ownHeader.blockNumber, [])
      is_open.2.2.2 with
    ⟨kept, _⟩ | ⟨e', _, _, heavier, _, _, selected, _⟩
  · exact ⟨e.1, e.2.ownHeader, kept, UInt64.le_refl _⟩
  · exact ⟨e'.1, e'.2.ownHeader, selected, UInt64.le_of_lt heavier⟩

/-- Where no open response has a positive weight, nothing is selected. -/
theorem scanIn_none {order : List Entry}
    (zero : ∀ e ∈ order, s.Open peers e → e.2.ownHeader.cSum = 0) :
    (s.scanIn peers order).1 = none := by
  rcases @scan_open _ s peers order
      (none, 0, s.chain.lastHeader.blockNumber, []) (UInt64.le_refl _) with
    ⟨kept, _⟩ | ⟨e, member, is_open, heavier, _⟩
  · exact kept
  · rw [zero e member is_open] at heavier
    exact absurd heavier (UInt64.lt_irrefl _)

theorem selected_sum (selects : s.SelectsGreatest peers) {order order' : List Entry}
    (shuffled : order.Perm s.syncResponses.toList)
    (shuffled' : order'.Perm s.syncResponses.toList) {found found' : String × BlockHeaderExtended}
    (selected : (s.scanIn peers order).1 = some found)
    (selected' : (s.scanIn peers order').1 = some found') : found.2.cSum = found'.2.cSum := by
  have same := selects.same order order' shuffled shuffled'
  unfold selectedIn at same
  rw [selected, selected'] at same
  exact Option.some.inj same

/-- With an open response of positive weight, the selection of every order has one weight, which
no open response exceeds. -/
theorem exists_sum (selects : s.SelectsGreatest peers) {e : Entry}
    (held : e ∈ s.syncResponses.toList) (is_open : s.Open peers e)
    (positive : 0 < e.2.ownHeader.cSum) :
    ∃ sum : UInt64, (∀ order : List Entry, order.Perm s.syncResponses.toList →
        ∃ peer header, (s.scanIn peers order).1 = some (peer, header) ∧ header.cSum = sum) ∧
      ∀ e' ∈ s.syncResponses.toList, s.Open peers e' → 0 < e'.2.ownHeader.cSum →
        e'.2.ownHeader.cSum ≤ sum := by
  -- the order that begins with a given response
  have begins : ∀ e' ∈ s.syncResponses.toList, s.Open peers e' → 0 < e'.2.ownHeader.cSum →
      ∃ order : List Entry, order.Perm s.syncResponses.toList ∧ ∃ found,
        (s.scanIn peers order).1 = some found ∧ e'.2.ownHeader.cSum ≤ found.2.cSum := by
    intro e' held' is_open' positive'
    obtain ⟨before, after, split⟩ := List.append_of_mem held'
    obtain ⟨peer, header, selected, atMost⟩ :=
      selects_open is_open' positive' (before ++ after)
    refine ⟨e' :: (before ++ after), ?_, (peer, header), selected, atMost⟩
    rw [split]
    exact List.perm_middle.symm
  obtain ⟨order, shuffled, found, selected, _⟩ := begins e held is_open positive
  refine ⟨found.2.cSum, fun order' shuffled' => ?_, fun e' held' is_open' positive' => ?_⟩
  · have some_found : ((s.scanIn peers order').1.map Prod.snd).map (fun header => header.cSum) =
        some found.2.cSum := by
      have same := selects.same order' order shuffled' shuffled
      unfold selectedIn at same
      rw [same, selected]
      rfl
    rw [Option.map_map, Option.map_eq_some_iff] at some_found
    obtain ⟨⟨peer, header⟩, selected', same⟩ := some_found
    exact ⟨peer, header, selected', same⟩
  · obtain ⟨order', shuffled', found', selected', atMost⟩ := begins e' held' is_open' positive'
    rw [selected_sum selects shuffled shuffled' selected selected']
    exact atMost

/-- An order that ends in an eligible response: of the open responses below the greatest weight
the one with the greatest number is seen first, then the requested heads. -/
theorem exists_outstanding {sum : UInt64}
    (always : ∀ order : List Entry, order.Perm s.syncResponses.toList →
      ∃ peer header, (s.scanIn peers order).1 = some (peer, header) ∧ header.cSum = sum)
    (atMost : ∀ e ∈ s.syncResponses.toList, s.Open peers e → 0 < e.2.ownHeader.cSum →
      e.2.ownHeader.cSum ≤ sum) (positive : 0 < sum) : ∃ best, s.Outstanding peers best := by
  classical
  set lower := s.syncResponses.toList.filter fun e =>
    s.Open peers e ∧ 0 < e.2.ownHeader.cSum ∧ e.2.ownHeader.cSum < sum with lower_eq
  have mem_lower : ∀ e, e ∈ lower ↔ e ∈ s.syncResponses.toList ∧ s.Open peers e ∧
      0 < e.2.ownHeader.cSum ∧ e.2.ownHeader.cSum < sum := by
    intro e
    rw [lower_eq, List.mem_filter, decide_eq_true_iff]
  rcases found : lower.argmax fun e => e.2.ownHeader.blockNumber.toNat with _ | top
  · -- nothing open is below the greatest weight
    have empty : lower = [] := List.argmax_eq_none.mp found
    have shuffled := List.filter_append_perm (s.Reverting peers ·) s.syncResponses.toList
    obtain ⟨peer, header, selected, same⟩ := always _ shuffled
    rcases @scan_requested_first _ s peers s.syncResponses.toList
        (none, 0, s.chain.lastHeader.blockNumber, []) (UInt64.le_refl _) with
      none_found | ⟨best, held, is_open, _, new, selected'⟩
    · exact absurd (selected.symm.trans none_found) (Option.some_ne_none _)
    · have header_eq : best.2.ownHeader = header :=
        congrArg Prod.snd (Option.some.inj (selected'.symm.trans selected))
      refine ⟨best, ⟨held, is_open, ?_⟩, ?_, ?_⟩
      · rintro ⟨e, member, active, equal⟩
        exact new e member active equal
      · rw [header_eq, same]
        exact positive
      · intro e member is_open' positive'
        rw [header_eq, same]
        refine ⟨atMost e member is_open' positive', fun less => ?_⟩
        have inside := (mem_lower e).mpr ⟨member, is_open', positive', less⟩
        rw [empty] at inside
        exact absurd inside List.not_mem_nil
  · have top_lower : top ∈ lower := List.argmax_mem found
    obtain ⟨held_top, open_top, positive_top, below_top⟩ := (mem_lower top).mp top_lower
    obtain ⟨before, after, split⟩ := List.append_of_mem held_top
    have shuffled := List.filter_append_perm (s.Reverting peers ·) (before ++ after)
    obtain ⟨peer, header, selected, same⟩ := always (top :: _) ((shuffled.cons top).trans
      (by rw [split]; exact List.perm_middle.symm))
    unfold scanIn at selected
    rw [List.foldl_cons, step_open open_top _ positive_top open_top.2.2.2 List.not_mem_nil]
      at selected
    rcases @scan_requested_first _ s peers (before ++ after)
        (some (top.1, top.2.ownHeader), top.2.ownHeader.cSum, top.2.ownHeader.blockNumber, [])
        open_top.2.2.2 with
      kept | ⟨best, member, is_open, higher, new, selected'⟩
    · have top_header : top.2.ownHeader = header :=
        congrArg Prod.snd (Option.some.inj (kept.symm.trans selected))
      rw [top_header, same] at below_top
      exact absurd below_top (UInt64.lt_irrefl _)
    · have header_eq : best.2.ownHeader = header :=
        congrArg Prod.snd (Option.some.inj (selected'.symm.trans selected))
      have held : best ∈ s.syncResponses.toList := by
        rw [split]
        exact List.perm_middle.mem_iff.mpr (List.mem_cons_of_mem _ member)
      refine ⟨best, ⟨held, is_open, ?_⟩, ?_, ?_⟩
      · rintro ⟨e, member', active, equal⟩
        rw [split] at member'
        rcases List.mem_cons.mp (List.perm_middle.mem_iff.mp member') with rfl | inside
        · exact open_top.2.1 active
        · exact new e inside active equal
      · rw [header_eq, same]
        exact positive
      · intro e member' is_open' positive'
        rw [header_eq, same]
        refine ⟨atMost e member' is_open' positive', fun less => ?_⟩
        have inside := (mem_lower e).mpr ⟨member', is_open', positive', less⟩
        have number := List.le_of_mem_argmax inside found
        rw [← header_eq]
        exact UInt64.le_trans (UInt64.le_iff_toNat_le.mpr number) higher

/-- The scan selects the greatest eligible weight in every order exactly when the responses are
undisputed. -/
theorem selectsGreatest_iff (s : Synchronization) (peers : List String) :
    s.SelectsGreatest peers ↔ s.Undisputed peers := by
  constructor
  · intro selects
    by_cases exists_open : ∃ e ∈ s.syncResponses.toList, s.Open peers e ∧ 0 < e.2.ownHeader.cSum
    · obtain ⟨e, held, is_open, positive⟩ := exists_open
      obtain ⟨sum, always, atMost⟩ := exists_sum selects held is_open positive
      exact .inl (exists_outstanding always atMost
        (UInt64.lt_of_lt_of_le positive (atMost e held is_open positive)))
    · have zero : ∀ e ∈ s.syncResponses.toList, s.Open peers e → e.2.ownHeader.cSum = 0 := by
        intro e held is_open
        by_contra nonzero
        exact exists_open ⟨e, held, is_open, UInt64.pos_iff_ne_zero.mpr nonzero⟩
      refine .inr ⟨(selects.none_iff _ (List.Perm.refl _)).mp ?_, zero⟩
      unfold selectedIn
      rw [scanIn_none zero]
      rfl
  · rintro (⟨best, outstanding⟩ | ⟨nothing, zero⟩)
    · have selected : ∀ order : List Entry, order.Perm s.syncResponses.toList →
          ∃ header, s.selectedIn peers order = some header ∧
            header.cSum = best.2.ownHeader.cSum := by
        intro order shuffled
        obtain ⟨peer, header, found, same⟩ := scanIn_outstanding outstanding shuffled
        unfold selectedIn
        rw [found]
        exact ⟨header, rfl, same⟩
      obtain ⟨eligible, positive, bounded⟩ := outstanding
      refine ⟨fun order order' shuffled shuffled' => ?_, fun order shuffled header found => ?_,
        fun order shuffled => ?_⟩
      · obtain ⟨header, found, same⟩ := selected order shuffled
        obtain ⟨header', found', same'⟩ := selected order' shuffled'
        rw [found, found', Option.map_some, Option.map_some, same, same']
      · obtain ⟨header', found', same⟩ := selected order shuffled
        obtain rfl : header' = header := Option.some.inj (found'.symm.trans found)
        refine ⟨⟨best, eligible, by rw [same]⟩, ?_⟩
        rintro _ ⟨e, ⟨held, is_open, _⟩, rfl⟩
        rw [same]
        by_cases zero : e.2.ownHeader.cSum = 0
        · rw [zero]
          exact Nat.zero_le _
        · exact UInt64.le_iff_toNat_le.mp
            (bounded e held is_open (UInt64.pos_iff_ne_zero.mpr zero)).1
      · obtain ⟨header, found, _⟩ := selected order shuffled
        rw [found]
        exact ⟨fun none_found => absurd none_found (Option.some_ne_none _),
          fun nothing => absurd eligible (nothing best)⟩
    · have none_found : ∀ order : List Entry, order.Perm s.syncResponses.toList →
          s.selectedIn peers order = none := by
        intro order shuffled
        unfold selectedIn
        rw [scanIn_none fun e member => zero e (shuffled.mem_iff.mp member)]
        rfl
      refine ⟨fun order order' shuffled shuffled' => ?_, fun order shuffled header found => ?_,
        fun order shuffled => ⟨fun _ => nothing, fun _ => none_found order shuffled⟩⟩
      · rw [none_found order shuffled, none_found order' shuffled']
      · rw [none_found order shuffled] at found
        exact absurd found.symm (Option.some_ne_none _)

end Synchronization

section Examples
open Synchronization

local instance peerExternals : Externals := plainExternals

def forkedHeader : BlockHeaderExtended := ⟨⟨1, 10, 10, 1, "genesis", 600⟩, "fork"⟩

/-- A node that fetches headers from the first peer, which revert its last block, when the second
peer has the same head. -/
def forkedPeers : Synchronization :=
  { node :=
      { ctx := exampleNode "own" .blockchain
        ledger := default
        actionLog := ActionLog.loaded [] false
        transactionPool := []
        transactionCache := ∅
        storageController := ∅
        freezeBeforeBlock := 0 }
    syncResponses := ((∅ : Std.ExtTreeMap String SyncResponse).insert
      "first" ⟨forkedHeader, forkedHeader⟩).insert "second" ⟨forkedHeader, forkedHeader⟩
    headersActionsData := (∅ : Std.ExtTreeMap String HeadersActionData).insert "first" ⟨600, []⟩
    headerSessions := ∅
    blockSession := none }

theorem forkedPeers_selected :
    (forkedPeers.selectedIn ["first", "second"] forkedPeers.syncResponses.toList).isSome = false ∧
      (forkedPeers.selectedIn ["first", "second"]
        forkedPeers.syncResponses.toList.reverse).isSome = true := by
  decide +kernel

/-- The shared head is selected when the second peer is looked at first, and is taken for
requested when the first one is. -/
theorem sharedHead_depends_on_order :
    ¬ ∀ [Externals] (s : Synchronization) (peers : List String), s.SelectsGreatest peers := by
  intro claim
  have same := (claim forkedPeers ["first", "second"]).same _ _ (List.Perm.refl _)
    (List.reverse_perm _)
  obtain ⟨inOrder, reversed⟩ := forkedPeers_selected
  have selected := congrArg Option.isSome same
  rw [Option.isSome_map, Option.isSome_map, inOrder, reversed] at selected
  exact Bool.false_ne_true selected

end Examples
end Publiq
