import Publiq.MineSelection

/-! The entries that the cache keeps of the transactions of the pool. What takes the pool
back asks them which transactions were applied. -/
namespace Publiq
open Message Checked

namespace TransactionCache
variable [Externals]

/-- The entry of a transaction of the pool says whether it is complete, no complete one is
in the pool twice, and only transactions of the pool have entries that say they are not. -/
structure Keeps (pool : List SignedTransaction) (cache : TransactionCache) : Prop where
  entry : ∀ st ∈ pool, (erasePool st cache).1 = st.isComplete
  distinct : ((pool.filter SignedTransaction.isComplete).map transactionHash).Nodup
  incomplete : ∀ (key : String) (entry : CacheEntry), cache[key]? = some entry →
    entry.complete = false → ∃ st ∈ pool, st.isComplete = false ∧ key = transactionHash st

theorem erasePool_fst (st : SignedTransaction) (cache : TransactionCache) :
    (erasePool st cache).1 = (cache[transactionHash st]?.map CacheEntry.complete).getD false := rfl

theorem erasePool_of_getElem? {cache : TransactionCache} {st : SignedTransaction}
    {entry : CacheEntry} (h : cache[transactionHash st]? = some entry) :
    (erasePool st cache).1 = entry.complete := by
  rw [erasePool_fst, h]
  rfl

theorem erasePool_of_free {cache : TransactionCache} {st : SignedTransaction}
    (h : cache[transactionHash st]? = none) : (erasePool st cache).1 = false := by
  rw [erasePool_fst, h]
  rfl

theorem holds_eq_false_iff {cache : TransactionCache} {st : SignedTransaction} :
    holds cache st = false ↔ cache[transactionHash st]? = none := by
  unfold holds
  rw [Std.ExtTreeMap.contains_eq_isSome_getElem?, Option.isSome_eq_false_iff,
    Option.isNone_iff_eq_none]

/-- An empty pool has no entry that is not complete. -/
theorem keeps_nil_iff {cache : TransactionCache} : Keeps [] cache ↔
    ∀ (key : String) (entry : CacheEntry), cache[key]? = some entry → entry.complete = true := by
  constructor
  · intro keeps key entry hentry
    by_contra hcomplete
    obtain ⟨_, hnil, _⟩ := keeps.incomplete key entry hentry (Bool.eq_false_of_not_eq_true hcomplete)
    cases hnil
  · intro h
    refine ⟨fun _ hnil => (nomatch hnil), List.nodup_nil, fun key entry hentry hcomplete => ?_⟩
    rw [h key entry hentry] at hcomplete
    cases hcomplete

theorem keeps_empty : Keeps [] (∅ : TransactionCache) := by
  rw [keeps_nil_iff]
  intro key entry hentry
  rw [Std.ExtTreeMap.getElem?_empty] at hentry
  cases hentry

theorem Keeps.mono {cache after : TransactionCache} (keeps : Keeps [] cache)
    (less : ∀ (key : String) (entry : CacheEntry), after[key]? = some entry →
      cache[key]? = some entry ∨ entry.complete = true) : Keeps [] after := by
  rw [keeps_nil_iff] at keeps ⊢
  intro key entry hentry
  rcases less key entry hentry with hentry | hcomplete
  · exact keeps key entry hentry
  · exact hcomplete

theorem Keeps.pop {pool : List SignedTransaction} {st : SignedTransaction}
    {cache : TransactionCache} (keeps : Keeps (pool ++ [st]) cache) :
    Keeps pool (erasePool st cache).2 := by
  have herase (key : String) : (erasePool st cache).2[key]? =
      if transactionHash st = key then none else cache[key]? := by
    change (cache.erase (transactionHash st))[key]? = _
    simp only [Std.ExtTreeMap.getElem?_erase, Std.compare_eq_iff_eq]
  have hdistinct := keeps.distinct
  rw [List.filter_append, List.map_append, List.nodup_append] at hdistinct
  refine ⟨fun other hother => ?_, hdistinct.1, fun key entry hentry hcomplete => ?_⟩
  · have hbefore := keeps.entry other (List.mem_append_left _ hother)
    rw [erasePool_fst, herase]
    split_ifs with hkey
    · by_contra hdiffers
      have hcomplete : other.isComplete = true :=
        Bool.eq_true_of_not_eq_false (Ne.symm hdiffers)
      have hst := keeps.entry st (List.mem_append_right _ (List.mem_singleton.mpr rfl))
      rw [erasePool_fst, hkey, ← erasePool_fst, hbefore, hcomplete] at hst
      refine hdistinct.2.2 (transactionHash other) ?_ (transactionHash st) ?_ hkey.symm
      · exact List.mem_map_of_mem (List.mem_filter.mpr ⟨hother, hcomplete⟩)
      · exact List.mem_map_of_mem
          (List.mem_filter.mpr ⟨List.mem_singleton.mpr rfl, hst.symm⟩)
    · exact hbefore
  · rw [herase] at hentry
    split_ifs at hentry with hkey
    obtain ⟨other, hother, hrest⟩ := keeps.incomplete key entry hentry hcomplete
    rcases List.mem_append.mp hother with hother | hother
    · exact ⟨other, hother, hrest⟩
    · rw [List.mem_singleton.mp hother] at hrest
      exact absurd hrest.2.symm hkey

theorem Keeps.addChain {st : SignedTransaction} {cache after : TransactionCache}
    (keeps : Keeps [] cache) (h : addChain st cache = some after) : Keeps [] after := by
  refine keeps.mono fun key entry hentry => ?_
  rw [(addChain_eq_some h).2] at hentry
  split_ifs at hentry
  · cases hentry
    exact .inr rfl
  · exact .inl hentry

theorem Keeps.eraseChain {cache : TransactionCache} (keeps : Keeps [] cache)
    (st : SignedTransaction) : Keeps [] (eraseChain st cache) := by
  refine keeps.mono fun key entry hentry => ?_
  rw [getElem?_eraseChain] at hentry
  split_ifs at hentry
  exact .inl hentry

theorem Keeps.addMined {transactions : List SignedTransaction} {cache after : TransactionCache}
    (keeps : Keeps [] cache) (h : NodeInternals.addMined transactions cache = some after) :
    Keeps [] after := by
  induction transactions generalizing cache with
  | nil =>
      cases h
      exact keeps
  | cons st rest ih =>
      obtain ⟨mid, hmid, h⟩ := Option.bind_eq_some_iff.mp h
      exact ih (keeps.addChain hmid) h

theorem Keeps.eraseMined {cache : TransactionCache} (keeps : Keeps [] cache)
    (transactions : List SignedTransaction) :
    Keeps [] (NodeInternals.eraseMined transactions cache) := by
  unfold NodeInternals.eraseMined
  induction transactions generalizing cache with
  | nil => exact keeps
  | cons st rest ih => exact ih (keeps.eraseChain st)

theorem Keeps.recacheBlock {cache : TransactionCache} (keeps : Keeps [] cache)
    (signedBlock : SignedBlock) : Keeps [] (NodeInternals.recacheBlock signedBlock cache) := by
  unfold NodeInternals.recacheBlock
  induction signedBlock.blockDetails.signedTransactions generalizing cache with
  | nil => exact keeps
  | cons st rest ih =>
      rw [List.foldl_cons]
      apply ih
      cases hadd : TransactionCache.addChain st cache with
      | none => exact keeps
      | some after => exact keeps.addChain hadd

theorem Keeps.cacheWithout {cache : TransactionCache} (keeps : Keeps [] cache)
    (chain : Blockchain) : Keeps [] (NodeInternals.cacheWithout chain cache) := by
  unfold NodeInternals.cacheWithout
  have herased := keeps.eraseMined chain.lastBlock.blockDetails.signedTransactions.reverse
  dsimp only
  split
  · split_ifs
    · exact herased.recacheBlock _
    · exact herased
  · exact herased

/-- A transaction joins the pool: a complete one that is not there yet, or an incomplete one
that no entry calls complete. -/
theorem Keeps.push (hash : Externals.Collisionless) {pool : List SignedTransaction}
    {cache : TransactionCache} (keeps : Keeps pool cache) {st : SignedTransaction}
    (fresh : st.isComplete = true → st ∉ pool)
    (free : st.isComplete = false → (erasePool st cache).1 = false) :
    Keeps (pool ++ [st]) (addPool st st.isComplete cache) := by
  have hown : (erasePool st (addPool st st.isComplete cache)).1 = st.isComplete := by
    cases hentry : cache[transactionHash st]? with
    | none =>
        rw [erasePool_fst, getElem?_addPool, if_pos ⟨rfl, hentry⟩]
        rfl
    | some entry =>
        have hafter : (addPool st st.isComplete cache)[transactionHash st]? = some entry := by
          rw [getElem?_addPool, if_neg (by simp [hentry]), hentry]
        rw [erasePool_of_getElem? hafter]
        cases hcomplete : st.isComplete with
        | false => exact (erasePool_of_getElem? hentry).symm.trans (free hcomplete)
        | true =>
            by_contra hfalse
            obtain ⟨other, _, hother, hkey⟩ :=
              keeps.incomplete _ entry hentry (Bool.eq_false_of_not_eq_true hfalse)
            rw [hash.transaction hkey, hother] at hcomplete
            cases hcomplete
  refine ⟨fun other hother => ?_, ?_, fun key entry hentry hcomplete => ?_⟩
  · by_cases hkey : transactionHash st = transactionHash other
    · rw [← hash.transaction hkey]
      exact hown
    · have hsame : (erasePool other (addPool st st.isComplete cache)).1 =
          (erasePool other cache).1 := by
        rw [erasePool_fst, erasePool_fst, getElem?_addPool, if_neg fun h => hkey h.1]
      rw [hsame]
      rcases List.mem_append.mp hother with hother | hother
      · exact keeps.entry other hother
      · exact absurd (List.mem_singleton.mp hother ▸ rfl) hkey
  · rw [List.filter_append, List.map_append]
    cases hcomplete : st.isComplete with
    | false =>
        rw [List.filter_cons_of_neg (by simp [hcomplete]), List.filter_nil, List.map_nil,
          List.append_nil]
        exact keeps.distinct
    | true =>
        rw [List.filter_cons_of_pos hcomplete, List.filter_nil, List.map_singleton]
        refine keeps.distinct.append (List.nodup_singleton _) ?_
        rw [List.disjoint_singleton]
        intro hmem
        obtain ⟨other, hother, hkey⟩ := List.mem_map.mp hmem
        rw [hash.transaction hkey] at hother
        exact fresh hcomplete (List.mem_of_mem_filter hother)
  · rw [getElem?_addPool] at hentry
    split_ifs at hentry with hnew
    · cases hentry
      exact ⟨st, List.mem_append_right _ (List.mem_singleton.mpr rfl), hcomplete, hnew.1.symm⟩
    · obtain ⟨other, hother, hrest⟩ := keeps.incomplete key entry hentry hcomplete
      exact ⟨other, List.mem_append_left _ hother, hrest⟩

theorem Keeps.pushNew (hash : Externals.Collisionless) {pool : List SignedTransaction}
    {cache : TransactionCache} (keeps : Keeps pool cache) {st : SignedTransaction}
    (new : holds cache st = false) : Keeps (pool ++ [st]) (addPool st st.isComplete cache) := by
  have hfree := erasePool_of_free (holds_eq_false_iff.mp new)
  refine keeps.push hash (fun hcomplete hmem => ?_) fun _ => hfree
  rw [keeps.entry st hmem, hcomplete] at hfree
  cases hfree

theorem Keeps.clean {pool : List SignedTransaction} {cache : TransactionCache}
    (keeps : Keeps pool cache) {tp : ℤ}
    (held : ∀ st ∈ pool, st.isComplete = true → holds (clean tp cache) st = true) :
    Keeps pool (clean tp cache) := by
  refine ⟨fun st hst => ?_, keeps.distinct, fun key entry hentry hcomplete => ?_⟩
  · cases hentry : (TransactionCache.clean tp cache)[transactionHash st]? with
    | some entry =>
        rw [erasePool_of_getElem? hentry, ← keeps.entry st hst]
        exact (erasePool_of_getElem? (getElem?_clean.mp hentry).1).symm
    | none =>
        rw [erasePool_of_free hentry]
        by_contra hcomplete
        have hheld := held st hst (Bool.eq_true_of_not_eq_false (Ne.symm hcomplete))
        rw [holds_eq_false_iff.mpr hentry] at hheld
        cases hheld
  · exact keeps.incomplete key entry (getElem?_clean.mp hentry).1 hcomplete

end TransactionCache

namespace NodeInternals
variable [Externals]
open TransactionCache

theorem keeps_loadChain {transactions : List SignedTransaction} {cache after : TransactionCache}
    (keeps : Keeps [] cache) (h : runAll loadChain transactions cache = .ok after) :
    Keeps [] after := by
  refine runAll_invariant (I := Keeps []) (fun st _ s t hs step => ?_) keeps h
  unfold loadChain at step
  split at step
  · rename_i hadd
    cases step
    exact hs.addChain hadd
  · cases step

theorem keeps_loadPool (hash : Externals.Collisionless) {config : Config}
    {loaded transactions : List SignedTransaction} {cache after : TransactionCache}
    (keeps : Keeps loaded cache) (h : runAll (loadPool config) transactions cache = .ok after) :
    Keeps (loaded ++ transactions) after := by
  induction transactions generalizing loaded cache with
  | nil =>
      cases h
      rwa [List.append_nil]
  | cons st rest ih =>
      obtain ⟨mid, first, h⟩ := runAll_cons_ok_iff.mp h
      obtain ⟨complete, hcomplete, first⟩ := bind_ok_iff.mp first
      obtain ⟨hnew, first⟩ := require_bind_ok_iff.mp first
      cases pure_ok_iff.mp first
      rw [List.append_cons]
      refine ih ?_ h
      rw [isComplete_of_actionIsComplete hcomplete]
      exact keeps.pushNew hash hnew

end NodeInternals
end Publiq
