import Publiq.TransactionCache

/-! `add_chain` as it goes over the cache: it tests the keys of a combined transaction and
inserts them in loops of their own. -/
namespace Publiq
open Message

def Message.SignedTransaction.copyOf (signedTransaction : SignedTransaction)
    (authorization : Authority) :
    SignedTransaction :=
  { signedTransaction with authorizations := [authorization] }

namespace TransactionCache
variable [Externals]

def testCopies (signedTransaction : SignedTransaction) (cache : TransactionCache) :
    List Authority → Bool
  | [] => true
  | authorization :: rest =>
      if cache.contains (transactionHash (signedTransaction.copyOf authorization)) then false
      else testCopies signedTransaction cache rest

/-- The loop that inserts the keys of the copies; what `insert` finds it leaves. -/
def insertCopies (signedTransaction : SignedTransaction) :
    List Authority → TransactionCache → TransactionCache
  | [], cache => cache
  | authorization :: rest, cache =>
      insertCopies signedTransaction rest (keep (entryOf signedTransaction true) cache
        (transactionHash (signedTransaction.copyOf authorization)))

/-- `transaction_cache::add_chain`: its answer, and the cache it leaves. -/
def addChainCall (signedTransaction : SignedTransaction) (cache : TransactionCache) :
    Bool × TransactionCache :=
  let key := transactionHash signedTransaction
  let authorizations := signedTransaction.authorizations
  if cache.contains key then (false, cache)
  else if 1 < authorizations.length then
    if testCopies signedTransaction cache authorizations then
      (true, keep (entryOf signedTransaction true)
        (insertCopies signedTransaction authorizations cache) key)
    else (false, cache)
  else (true, keep (entryOf signedTransaction true) cache key)

variable {signedTransaction : SignedTransaction} {cache : TransactionCache}

theorem testCopies_iff (authorizations : List Authority) :
    testCopies signedTransaction cache authorizations = true ↔ ∀ authorization ∈ authorizations,
      cache.contains (transactionHash (signedTransaction.copyOf authorization)) = false := by
  induction authorizations with
  | nil => simp [testCopies]
  | cons authorization rest ih =>
      rw [testCopies, List.forall_mem_cons]
      split_ifs with taken
      · simp [taken]
      · rw [ih]
        simp [taken]

theorem insertCopies_eq (authorizations : List Authority) :
    insertCopies signedTransaction authorizations cache =
      (authorizations.map fun authorization =>
        transactionHash (signedTransaction.copyOf authorization)).foldl
          (keep (entryOf signedTransaction true)) cache := by
  induction authorizations generalizing cache with
  | nil => rfl
  | cons authorization rest ih => exact ih

theorem mem_chainKeys {key : String} : key ∈ chainKeys signedTransaction ↔
    key = transactionHash signedTransaction ∨ 1 < signedTransaction.authorizations.length ∧
      ∃ authorization ∈ signedTransaction.authorizations,
        transactionHash (signedTransaction.copyOf authorization) = key := by
  unfold chainKeys subKeys SignedTransaction.copyOf
  split_ifs with several
  · simp [several]
  · simp [several]

/-- The four ways through `add_chain`. -/
theorem addChainCall_cases (signedTransaction : SignedTransaction) (cache : TransactionCache) :
    (cache.contains (transactionHash signedTransaction) = true ∧
      addChainCall signedTransaction cache = (false, cache)) ∨
    (cache.contains (transactionHash signedTransaction) = false ∧
      1 < signedTransaction.authorizations.length ∧
      testCopies signedTransaction cache signedTransaction.authorizations = true ∧
      addChainCall signedTransaction cache = (true, keep (entryOf signedTransaction true)
        (insertCopies signedTransaction signedTransaction.authorizations cache)
          (transactionHash signedTransaction))) ∨
    (cache.contains (transactionHash signedTransaction) = false ∧
      1 < signedTransaction.authorizations.length ∧
      testCopies signedTransaction cache signedTransaction.authorizations = false ∧
      addChainCall signedTransaction cache = (false, cache)) ∨
    (cache.contains (transactionHash signedTransaction) = false ∧
      ¬ 1 < signedTransaction.authorizations.length ∧
      addChainCall signedTransaction cache = (true, keep (entryOf signedTransaction true) cache
        (transactionHash signedTransaction))) := by
  unfold addChainCall
  dsimp only
  by_cases taken : cache.contains (transactionHash signedTransaction) = true
  · exact .inl ⟨taken, if_pos taken⟩
  · have untaken := Bool.eq_false_of_not_eq_true taken
    rw [if_neg taken]
    by_cases several : 1 < signedTransaction.authorizations.length
    · rw [if_pos several]
      by_cases free : testCopies signedTransaction cache signedTransaction.authorizations = true
      · exact .inr (.inl ⟨untaken, several, free, if_pos free⟩)
      · exact .inr (.inr (.inl ⟨untaken, several, Bool.eq_false_of_not_eq_true free, if_neg free⟩))
    · exact .inr (.inr (.inr ⟨untaken, several, if_neg several⟩))

/-- The keys are all free when `add_chain` says so. -/
theorem addChainCall_fst_iff : (addChainCall signedTransaction cache).1 = true ↔
    ∀ key ∈ chainKeys signedTransaction, cache.contains key = false := by
  have keys : (∀ key ∈ chainKeys signedTransaction, cache.contains key = false) ↔
      cache.contains (transactionHash signedTransaction) = false ∧
        (1 < signedTransaction.authorizations.length →
          testCopies signedTransaction cache signedTransaction.authorizations = true) := by
    rw [testCopies_iff]
    constructor
    · intro free
      refine ⟨free _ (mem_chainKeys.mpr (.inl rfl)), fun several authorization member => ?_⟩
      exact free _ (mem_chainKeys.mpr (.inr ⟨several, authorization, member, rfl⟩))
    · rintro ⟨own, copies⟩ key member
      rcases mem_chainKeys.mp member with rfl | ⟨several, authorization, signed, rfl⟩
      · exact own
      · exact copies several authorization signed
  rw [keys]
  rcases addChainCall_cases signedTransaction cache with
    ⟨taken, call⟩ | ⟨untaken, several, free, call⟩ | ⟨untaken, several, held, call⟩ |
      ⟨untaken, single, call⟩
  · simp [call, taken]
  · simp [call, untaken, free]
  · simp [call, several, held]
  · simp [call, untaken, single]

/-- What `add_chain` leaves when it refuses. -/
theorem addChainCall_refused (refused : (addChainCall signedTransaction cache).1 = false) :
    (addChainCall signedTransaction cache).2 = cache := by
  rcases addChainCall_cases signedTransaction cache with
    ⟨_, call⟩ | ⟨_, _, _, call⟩ | ⟨_, _, _, call⟩ | ⟨_, _, call⟩
  · rw [call]
  · rw [call] at refused
    cases refused
  · rw [call]
  · rw [call] at refused
    cases refused

/-- What `add_chain` leaves when it adds: every key of the transaction and what there was. -/
theorem getElem?_addChainCall (added : (addChainCall signedTransaction cache).1 = true)
    (key : String) : (addChainCall signedTransaction cache).2[key]? =
      if key ∈ chainKeys signedTransaction then some (entryOf signedTransaction true)
      else cache[key]? := by
  have free : ∀ key ∈ chainKeys signedTransaction, cache[key]? = none := by
    intro key member
    have untaken := addChainCall_fst_iff.mp added key member
    rwa [Std.ExtTreeMap.contains_eq_isSome_getElem?, Option.isSome_eq_false_iff,
      Option.isNone_iff_eq_none] at untaken
  have result : (addChainCall signedTransaction cache).2 =
      keep (entryOf signedTransaction true)
        ((subKeys signedTransaction).foldl (keep (entryOf signedTransaction true)) cache)
        (transactionHash signedTransaction) := by
    rcases addChainCall_cases signedTransaction cache with
      ⟨_, call⟩ | ⟨_, several, _, call⟩ | ⟨_, _, _, call⟩ | ⟨_, single, call⟩
    · rw [call] at added
      cases added
    · rw [call, insertCopies_eq, subKeys, if_pos several]
      rfl
    · rw [call] at added
      cases added
    · rw [call, subKeys, if_neg single]
      rfl
  have whole : (addChainCall signedTransaction cache).2 =
      (subKeys signedTransaction ++ [transactionHash signedTransaction]).foldl
        (keep (entryOf signedTransaction true)) cache := by
    rw [result, List.foldl_append]
    rfl
  rw [whole, getElem?_keepAll]
  have member : key ∈ subKeys signedTransaction ++ [transactionHash signedTransaction] ↔
      key ∈ chainKeys signedTransaction := by
    rw [chainKeys, List.mem_append, List.mem_singleton, List.mem_cons, or_comm]
  by_cases mine : key ∈ chainKeys signedTransaction
  · rw [if_pos ⟨member.mpr mine, free key mine⟩, if_pos mine]
  · rw [if_neg fun both => mine (member.mp both.1), if_neg mine]

theorem addChainCall_eq : addChainCall signedTransaction cache =
    match addChain signedTransaction cache with
    | none => (false, cache)
    | some after => (true, after) := by
  cases run : addChain signedTransaction cache with
  | none =>
      have refused : (addChainCall signedTransaction cache).1 = false := by
        by_contra added
        have free := addChainCall_fst_iff.mp (Bool.not_eq_false _ ▸ added)
        have some := addChain_isSome fun key member => by
          have untaken := free key member
          rwa [Std.ExtTreeMap.contains_eq_isSome_getElem?, Option.isSome_eq_false_iff,
            Option.isNone_iff_eq_none] at untaken
        rw [run] at some
        cases some
      exact Prod.ext refused (addChainCall_refused refused)
  | some after =>
      obtain ⟨free, held⟩ := addChain_eq_some run
      have added : (addChainCall signedTransaction cache).1 = true := by
        refine addChainCall_fst_iff.mpr fun key member => ?_
        rw [Std.ExtTreeMap.contains_eq_isSome_getElem?, free key member]
        rfl
      refine Prod.ext added (Std.ExtTreeMap.ext_getElem? fun key => ?_)
      rw [getElem?_addChainCall added, held]

theorem addChainCall_blocked {key : String} (member : key ∈ chainKeys signedTransaction)
    (held : cache[key]? ≠ none) : (addChainCall signedTransaction cache).1 = false := by
  by_contra added
  have free := addChainCall_fst_iff.mp (Bool.not_eq_false _ ▸ added) key member
  rw [Std.ExtTreeMap.contains_eq_isSome_getElem?, Option.isSome_eq_false_iff,
    Option.isNone_iff_eq_none] at free
  exact held free

/-- `add_chain` changes nothing when it refuses, and `erase_chain` takes back exactly what it
added; what was added is refused, combined or as a copy with one of its authorizations, and a
copy that is cached blocks the combined transaction. -/
theorem addChain_eraseChain_blocks (signedTransaction : SignedTransaction)
    (cache : TransactionCache) :
    ((addChainCall signedTransaction cache).1 = false →
      (addChainCall signedTransaction cache).2 = cache) ∧
    ((addChainCall signedTransaction cache).1 = true →
      eraseChain signedTransaction (addChainCall signedTransaction cache).2 = cache ∧
      (addChainCall signedTransaction (addChainCall signedTransaction cache).2).1 = false ∧
      (1 < signedTransaction.authorizations.length →
        ∀ authorization ∈ signedTransaction.authorizations,
          (addChainCall (signedTransaction.copyOf authorization)
            (addChainCall signedTransaction cache).2).1 = false)) ∧
    (1 < signedTransaction.authorizations.length →
      ∀ authorization ∈ signedTransaction.authorizations,
        holds cache (signedTransaction.copyOf authorization) = true →
          (addChainCall signedTransaction cache).1 = false) := by
  refine ⟨addChainCall_refused, fun added => ⟨?_, ?_, ?_⟩, ?_⟩
  · have eq := @addChainCall_eq _ signedTransaction cache
    cases run : addChain signedTransaction cache with
    | none =>
        rw [run] at eq
        rw [eq] at added
        cases added
    | some after =>
        rw [run] at eq
        rw [eq]
        exact eraseChain_addChain run
  · apply addChainCall_blocked (transactionHash_mem_chainKeys signedTransaction)
    rw [getElem?_addChainCall added, if_pos (transactionHash_mem_chainKeys signedTransaction)]
    exact Option.some_ne_none _
  · intro several authorization member
    have key : transactionHash (signedTransaction.copyOf authorization) ∈
        chainKeys signedTransaction :=
      mem_chainKeys.mpr (.inr ⟨several, authorization, member, rfl⟩)
    apply addChainCall_blocked (transactionHash_mem_chainKeys _)
    rw [getElem?_addChainCall added, if_pos key]
    exact Option.some_ne_none _
  · intro several authorization member held
    have key : transactionHash (signedTransaction.copyOf authorization) ∈
        chainKeys signedTransaction :=
      mem_chainKeys.mpr (.inr ⟨several, authorization, member, rfl⟩)
    apply addChainCall_blocked key
    rw [holds, Std.ExtTreeMap.contains_eq_isSome_getElem?] at held
    exact Option.isSome_iff_ne_none.mp held

end TransactionCache
end Publiq
