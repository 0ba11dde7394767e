import Mathlib.Combinatorics.SimpleGraph.Connectivity.Connected
import Mathlib.Data.Fintype.Card

/-! Search of a graph, level by level: the vertices looked at and those to look at next. When
nothing is left to look at, what was found is the connected component of the start. -/
namespace Publiq

universe u

variable {V : Type u} [DecidableEq V] {G : SimpleGraph V} {start : V} {used next : Finset V}

/-- What is found is reachable, and the neighbours of what was looked at are found. -/
structure Frontier (G : SimpleGraph V) (start : V) (used next : Finset V) : Prop where
  start_mem : start ∈ used ∪ next
  reachable : ∀ v ∈ used ∪ next, G.Reachable start v
  closed : ∀ v ∈ used, ∀ w, G.Adj v w → w ∈ used ∪ next

namespace Frontier

theorem initial (G : SimpleGraph V) (start : V) : Frontier G start ∅ {start} where
  start_mem := Finset.mem_union_right _ (Finset.mem_singleton_self start)
  reachable := by
    intro v member
    rw [Finset.empty_union, Finset.mem_singleton] at member
    rw [member]
  closed := fun v member => absurd member (Finset.notMem_empty v)

theorem step (frontier : Frontier G start used next) {level : Finset V}
    (neighbours : ∀ w, w ∈ level ↔ w ∉ used ∪ next ∧ ∃ v ∈ next, G.Adj v w) :
    Frontier G start (used ∪ next) level where
  start_mem := Finset.mem_union_left _ frontier.start_mem
  reachable := by
    intro w member
    rcases Finset.mem_union.mp member with found | new
    · exact frontier.reachable w found
    · obtain ⟨_, v, here, adjacent⟩ := (neighbours w).mp new
      exact (frontier.reachable v (Finset.mem_union_right _ here)).trans adjacent.reachable
  closed := by
    intro v member w adjacent
    rcases Finset.mem_union.mp member with before | here
    · exact Finset.mem_union_left _ (frontier.closed v before w adjacent)
    · by_cases found : w ∈ used ∪ next
      · exact Finset.mem_union_left _ found
      · exact Finset.mem_union_right _ ((neighbours w).mpr ⟨found, v, here, adjacent⟩)

theorem mem_iff (frontier : Frontier G start used ∅) (v : V) :
    v ∈ used ↔ G.Reachable start v := by
  constructor
  · intro member
    exact frontier.reachable v (Finset.mem_union_left _ member)
  · intro reachable
    rw [SimpleGraph.reachable_iff_reflTransGen] at reachable
    induction reachable with
    | refl =>
        have found := frontier.start_mem
        rwa [Finset.union_empty] at found
    | tail _ adjacent ih =>
        have found := frontier.closed _ ih _ adjacent
        rwa [Finset.union_empty] at found

end Frontier

theorem card_unfound_lt [Fintype V] (disjoint : Disjoint used next) (nonempty : next.Nonempty) :
    (Finset.univ \ (used ∪ next)).card < (Finset.univ \ used).card := by
  obtain ⟨v, here⟩ := nonempty
  refine Finset.card_lt_card (Finset.ssubset_iff_of_subset ?_ |>.mpr ⟨v, ?_, ?_⟩)
  · exact Finset.sdiff_subset_sdiff (Finset.Subset.refl _) Finset.subset_union_left
  · exact Finset.mem_sdiff.mpr ⟨Finset.mem_univ v, Finset.disjoint_right.mp disjoint here⟩
  · intro member
    exact (Finset.mem_sdiff.mp member).2 (Finset.mem_union_right _ here)

end Publiq
