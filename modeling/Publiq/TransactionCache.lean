import Publiq.Blockchain
import Std.Data.ExtTreeMap

/-! `transaction_cache` of `node_internals.hpp`: the transactions seen recently, by
their hash. An entry of the pool says whether the transaction was complete. -/
namespace Publiq
open Message Checked

/-- `transaction_cache::data_type`. -/
structure CacheEntry where
  complete : Bool
  tp : ℤ
  deriving DecidableEq

/-- `transaction_cache`. -/
abbrev TransactionCache := Std.ExtTreeMap String CacheEntry

namespace TransactionCache
variable [Externals]

/-- The hash of the transaction with each of its authorizations alone, when it has
several. -/
def subKeys (signedTransaction : SignedTransaction) : List String :=
  if 1 < signedTransaction.authorizations.length then
    signedTransaction.authorizations.map fun authorization =>
      transactionHash { signedTransaction with authorizations := [authorization] }
  else []

def chainKeys (signedTransaction : SignedTransaction) : List String :=
  transactionHash signedTransaction :: subKeys signedTransaction

def entryOf (signedTransaction : SignedTransaction) (complete : Bool) : CacheEntry :=
  ⟨complete, signedTransaction.transactionDetails.creation⟩

def keep (entry : CacheEntry) (cache : TransactionCache) (key : String) : TransactionCache :=
  cache.insertIfNew key entry

/-- `transaction_cache::contains`. -/
def holds (cache : TransactionCache) (signedTransaction : SignedTransaction) : Bool :=
  cache.contains (transactionHash signedTransaction)

/-- `transaction_cache::add_chain`: no cache when a key of the transaction is taken. -/
def addChain (signedTransaction : SignedTransaction) (cache : TransactionCache) :
    Option TransactionCache :=
  if (chainKeys signedTransaction).any cache.contains then none
  else some ((chainKeys signedTransaction).reverse.foldl (keep (entryOf signedTransaction true))
    cache)

/-- `transaction_cache::erase_chain`. -/
def eraseChain (signedTransaction : SignedTransaction) (cache : TransactionCache) :
    TransactionCache :=
  (chainKeys signedTransaction).foldl Std.ExtTreeMap.erase cache

/-- `transaction_cache::add_pool`, which leaves an entry of the same key. -/
def addPool (signedTransaction : SignedTransaction) (complete : Bool) (cache : TransactionCache) :
    TransactionCache :=
  keep (entryOf signedTransaction complete) cache (transactionHash signedTransaction)

/-- `transaction_cache::erase_pool`: whether the entry was there and complete. -/
def erasePool (signedTransaction : SignedTransaction) (cache : TransactionCache) :
    Bool × TransactionCache :=
  let key := transactionHash signedTransaction
  ((cache[key]?.map CacheEntry.complete).getD false, cache.erase key)

omit [Externals] in
/-- How old the creation of an entry may be before `clean` drops it. -/
def keepSeconds : ℕ := transactionMaxLifetimeHours * 3600 + nodesTimeShift

omit [Externals] in
/-- `transaction_cache::clean`. -/
def clean (tp : ℤ) (cache : TransactionCache) : TransactionCache :=
  cache.filter fun _ entry => tp - entry.tp ≤ keepSeconds

omit [Externals] in
theorem getElem?_keep (entry : CacheEntry) (cache : TransactionCache) (key k : String) :
    (keep entry cache key)[k]? =
      if key = k ∧ cache[k]? = none then some entry else cache[k]? := by
  simp only [keep, Std.ExtTreeMap.getElem?_insertIfNew, Std.compare_eq_iff_eq]
  by_cases h : key = k
  · subst h
    simp only [Std.ExtTreeMap.mem_iff_isSome_getElem?, Option.isSome_iff_ne_none, not_not]
  · simp [h]

omit [Externals] in
theorem getElem?_keepAll (entry : CacheEntry) (keys : List String) (cache : TransactionCache)
    (k : String) : (keys.foldl (keep entry) cache)[k]? =
      if k ∈ keys ∧ cache[k]? = none then some entry else cache[k]? := by
  induction keys generalizing cache with
  | nil => simp
  | cons key rest ih =>
      rw [List.foldl_cons, ih, getElem?_keep]
      by_cases hkey : key = k
      · subst hkey
        cases hk : cache[key]? <;> simp
      · have hne : k ≠ key := fun h => hkey h.symm
        simp [hkey, hne]

theorem addChain_eq_some {signedTransaction : SignedTransaction} {cache after : TransactionCache}
    (h : addChain signedTransaction cache = some after) :
    (∀ k ∈ chainKeys signedTransaction, cache[k]? = none) ∧ ∀ k : String, after[k]? =
      if k ∈ chainKeys signedTransaction then some (entryOf signedTransaction true)
      else cache[k]? := by
  unfold addChain at h
  split_ifs at h with hany
  cases h
  have hfree : ∀ k ∈ chainKeys signedTransaction, cache[k]? = none := by
    intro k hk
    by_contra hne
    refine hany (List.any_eq_true.mpr ⟨k, hk, ?_⟩)
    rw [Std.ExtTreeMap.contains_eq_isSome_getElem?]
    exact Option.isSome_iff_ne_none.mpr hne
  refine ⟨hfree, fun k => ?_⟩
  simp only [getElem?_keepAll, List.mem_reverse]
  by_cases hk : k ∈ chainKeys signedTransaction
  · rw [if_pos ⟨hk, hfree k hk⟩, if_pos hk]
  · rw [if_neg fun h => hk h.1, if_neg hk]

theorem addChain_isSome {signedTransaction : SignedTransaction} {cache : TransactionCache}
    (free : ∀ k ∈ chainKeys signedTransaction, cache[k]? = none) :
    (addChain signedTransaction cache).isSome := by
  unfold addChain
  rw [if_neg]
  · rfl
  · intro hany
    obtain ⟨k, hk, hcontains⟩ := List.any_eq_true.mp hany
    rw [Std.ExtTreeMap.contains_eq_isSome_getElem?, free k hk] at hcontains
    cases hcontains

omit [Externals] in
theorem getElem?_eraseAll (keys : List String) (cache : TransactionCache) (k : String) :
    (keys.foldl Std.ExtTreeMap.erase cache)[k]? = if k ∈ keys then none else cache[k]? := by
  induction keys generalizing cache with
  | nil => simp
  | cons key rest ih =>
      simp only [List.foldl_cons, ih, Std.ExtTreeMap.getElem?_erase, Std.compare_eq_iff_eq]
      by_cases hkey : key = k
      · subst hkey
        simp
      · have hne : k ≠ key := fun h => hkey h.symm
        simp [hkey, hne]

theorem getElem?_eraseChain (signedTransaction : SignedTransaction) (cache : TransactionCache)
    (k : String) : (eraseChain signedTransaction cache)[k]? =
      if k ∈ chainKeys signedTransaction then none else cache[k]? :=
  getElem?_eraseAll _ _ _

theorem eraseChain_addChain {signedTransaction : SignedTransaction} {cache after : TransactionCache}
    (h : addChain signedTransaction cache = some after) :
    eraseChain signedTransaction after = cache := by
  obtain ⟨hfree, hafter⟩ := addChain_eq_some h
  apply Std.ExtTreeMap.ext_getElem?
  intro k
  rw [getElem?_eraseChain, hafter]
  by_cases hk : k ∈ chainKeys signedTransaction
  · rw [if_pos hk, hfree k hk]
  · rw [if_neg hk, if_neg hk]

theorem getElem?_addPool (signedTransaction : SignedTransaction) (complete : Bool)
    (cache : TransactionCache) (k : String) : (addPool signedTransaction complete cache)[k]? =
      if transactionHash signedTransaction = k ∧ cache[k]? = none then
        some (entryOf signedTransaction complete)
      else cache[k]? :=
  getElem?_keep _ _ _ _

omit [Externals] in
theorem getElem?_clean {tp : ℤ} {cache : TransactionCache} {k : String} {entry : CacheEntry} :
    (clean tp cache)[k]? = some entry ↔ cache[k]? = some entry ∧ tp - entry.tp ≤ keepSeconds := by
  rw [clean, Std.ExtTreeMap.getElem?_filter', Option.filter_eq_some_iff, decide_eq_true_iff]

theorem exists_of_mem_chainKeys {signedTransaction : SignedTransaction} {k : String}
    (h : k ∈ chainKeys signedTransaction) : ∃ other, k = transactionHash other ∧
      other.transactionDetails = signedTransaction.transactionDetails := by
  unfold chainKeys subKeys at h
  rcases List.mem_cons.mp h with rfl | h
  · exact ⟨_, rfl, rfl⟩
  · split_ifs at h
    · obtain ⟨authorization, _, rfl⟩ := List.mem_map.mp h
      exact ⟨_, rfl, rfl⟩
    · cases h

theorem transactionHash_mem_chainKeys (signedTransaction : SignedTransaction) :
    transactionHash signedTransaction ∈ chainKeys signedTransaction := List.mem_cons_self

end TransactionCache
end Publiq
