import Publiq.Commander

/-! The logs that the explorer keeps of an account, and their indices: entries come and go
at the end, in the blocks of the latest numbers. -/
namespace Publiq
open Message Checked CommanderMessage

namespace IndexedLog
variable {α : Type}

def countAt (k : ℕ) (entries : List (ℕ × α)) : ℕ := entries.countP fun entry => entry.1 = k

def countBelow (k : ℕ) (entries : List (ℕ × α)) : ℕ := entries.countP fun entry => entry.1 < k

/-- The log holds the entries, and the index says where those of each block lie. -/
def Represents (il : IndexedLog α) (entries : List (ℕ × α)) : Prop :=
  il.log = entries.map Prod.snd ∧ ∀ k : ℕ, il.index[k]? =
    if countAt k entries = 0 then none else some ⟨countBelow k entries, countAt k entries⟩

theorem represents_default : Represents (default : IndexedLog α) [] := by
  refine ⟨rfl, fun k => ?_⟩
  change (∅ : Std.ExtTreeMap ℕ NumberPair)[k]? = _
  rw [Std.ExtTreeMap.getElem?_empty]
  rfl

theorem countAt_concat (k : ℕ) (entries : List (ℕ × α)) (entry : ℕ × α) :
    countAt k (entries ++ [entry]) = countAt k entries + if entry.1 = k then 1 else 0 := by
  unfold countAt
  rw [List.countP_append, List.countP_singleton]
  by_cases h : entry.1 = k <;> simp [h]

theorem countBelow_concat (k : ℕ) (entries : List (ℕ × α)) (entry : ℕ × α) :
    countBelow k (entries ++ [entry]) = countBelow k entries + if entry.1 < k then 1 else 0 := by
  unfold countBelow
  rw [List.countP_append, List.countP_singleton]
  by_cases h : entry.1 < k <;> simp [h]

/-- Where no block lies above, its entries and those below it are all. -/
theorem countBelow_add_countAt {k : ℕ} {entries : List (ℕ × α)}
    (low : ∀ entry ∈ entries, entry.1 ≤ k) :
    countBelow k entries + countAt k entries = entries.length := by
  induction entries using List.reverseRecOn with
  | nil => rfl
  | append_singleton rest entry ih =>
      have hrest := ih fun other hother => low other (List.mem_append_left _ hother)
      have hentry := low entry (List.mem_append_right _ List.mem_cons_self)
      rw [countBelow_concat, countAt_concat, List.length_append, List.length_singleton]
      by_cases h : entry.1 = k
      · rw [if_neg (by omega), if_pos h]
        omega
      · rw [if_pos (by omega), if_neg h]
        omega

variable {il : IndexedLog α} {entries : List (ℕ × α)} {k : ℕ} {x : α}

/-- An entry of the latest block is added to it. -/
theorem Represents.add (represents : Represents il entries)
    (low : ∀ entry ∈ entries, entry.1 ≤ k) (what : String) :
    ∃ after, il.add what k x = .ok after ∧ Represents after (entries ++ [(k, x)]) := by
  obtain ⟨hlog, hindex⟩ := represents
  have hall := countBelow_add_countAt low
  have hlast : (il.log ++ [x]).length - 1 = countBelow k entries + countAt k entries := by
    rw [hall, hlog, List.length_append, List.length_map, List.length_singleton,
      Nat.add_sub_cancel]
  have habove : ∀ other : ℕ, k < other →
      countAt other entries = 0 := fun other hother => by
    rw [countAt, List.countP_eq_zero]
    intro entry hentry
    have hle := low entry hentry
    simp only [decide_eq_true_eq]
    omega
  have hother : ∀ other : ℕ, k ≠ other →
      (if countAt other (entries ++ [(k, x)]) = 0 then none
        else some (⟨countBelow other (entries ++ [(k, x)]),
          countAt other (entries ++ [(k, x)])⟩ : NumberPair)) = il.index[other]? := by
    intro other hne
    rw [hindex, countAt_concat, if_neg hne, Nat.add_zero, countBelow_concat]
    by_cases hlt : k < other
    · rw [habove other hlt, if_pos rfl, if_pos rfl]
    · rw [if_neg hlt, Nat.add_zero]
  have hsame : countBelow k (entries ++ [(k, x)]) = countBelow k entries := by
    rw [countBelow_concat, if_neg (lt_irrefl k), Nat.add_zero]
  have hnew : countAt k (entries ++ [(k, x)]) = countAt k entries + 1 := by
    rw [countAt_concat, if_pos rfl]
  unfold IndexedLog.add
  dsimp only
  rw [hlast, hindex k]
  by_cases hnone : countAt k entries = 0
  · rw [if_pos hnone]
    refine ⟨_, rfl, ?_, fun other => ?_⟩
    · rw [hlog, List.map_append]
      rfl
    · rw [Std.ExtTreeMap.getElem?_insert]
      by_cases hkey : k = other
      · subst hkey
        rw [hsame, hnew, hnone]
        simp
      · rw [if_neg (by simpa using hkey), hother other hkey]
  · rw [if_neg hnone]
    simp only [require_true, ok_bind]
    refine ⟨_, rfl, ?_, fun other => ?_⟩
    · rw [hlog, List.map_append]
      rfl
    · rw [Std.ExtTreeMap.getElem?_insert]
      by_cases hkey : k = other
      · subst hkey
        rw [hsame, hnew]
        simp
      · rw [if_neg (by simpa using hkey), hother other hkey]

/-- The latest entry is removed again. -/
theorem Represents.remove (represents : Represents il (entries ++ [(k, x)]))
    (low : ∀ entry ∈ entries, entry.1 ≤ k) (what : String) :
    ∃ after, il.remove what k = .ok after ∧ Represents after entries := by
  obtain ⟨hlog, hindex⟩ := represents
  have hall := countBelow_add_countAt low
  rw [List.map_append, List.map_singleton] at hlog
  have hdrop : il.log.dropLast = entries.map Prod.snd := by
    rw [hlog, List.dropLast_concat]
  have hsame : countBelow k (entries ++ [(k, x)]) = countBelow k entries := by
    rw [countBelow_concat, if_neg (lt_irrefl k), Nat.add_zero]
  have hnew : countAt k (entries ++ [(k, x)]) = countAt k entries + 1 := by
    rw [countAt_concat, if_pos rfl]
  have hat : il.index[k]? = some ⟨countBelow k entries, countAt k entries + 1⟩ := by
    rw [hindex, hnew, if_neg (Nat.succ_ne_zero _), hsame]
  have hother : ∀ other : ℕ, k ≠ other → il.index[other]? =
      if countAt other entries = 0 then none
        else some ⟨countBelow other entries, countAt other entries⟩ := by
    intro other hne
    rw [hindex, countAt_concat, if_neg hne, Nat.add_zero, countBelow_concat]
    by_cases hlt : k < other
    · have hzero : countAt other entries = 0 := by
        rw [countAt, List.countP_eq_zero]
        intro entry hentry
        have hle := low entry hentry
        simp only [decide_eq_true_eq]
        omega
      rw [hzero, if_pos rfl, if_pos rfl]
    · rw [if_neg hlt, Nat.add_zero]
  unfold IndexedLog.remove
  dsimp only
  rw [require_true (by rw [hlog]; simp), ok_bind, hdrop, hat]
  simp only [List.length_map]
  rw [require_true (by omega), ok_bind]
  refine ⟨_, rfl, rfl, fun other => ?_⟩
  by_cases hnone : countAt k entries = 0
  · rw [if_pos (by omega), Std.ExtTreeMap.getElem?_erase]
    by_cases hkey : k = other
    · subst hkey
      rw [hnone]
      simp
    · rw [if_neg (by simpa using hkey), hother other hkey]
  · rw [if_neg (by omega), Std.ExtTreeMap.getElem?_insert]
    by_cases hkey : k = other
    · subst hkey
      rw [if_neg hnone]
      simp
    · rw [if_neg (by simpa using hkey), hother other hkey]

end IndexedLog

def KeepsLogs {α : Type} (accounts : List String) (entriesOf : String → List (ℕ × α))
    (logs : IndexedLogs α) : Prop :=
  ∀ account ∈ accounts, (logs[account]?.getD default).Represents (entriesOf account)

def entriesWith {α : Type} (touched : List String) (k : ℕ) (x : α)
    (entriesOf : String → List (ℕ × α)) (a : String) : List (ℕ × α) :=
  if a ∈ touched then entriesOf a ++ [(k, x)] else entriesOf a

section
variable {α : Type} {accounts : List String} {entriesOf : String → List (ℕ × α)}
  {logs : IndexedLogs α} {account : String} {k : ℕ} {x : α}

theorem entriesWith_cons {touched : List String} (new : account ∉ touched) :
    entriesWith (account :: touched) k x entriesOf =
      entriesWith touched k x (entriesWith [account] k x entriesOf) := by
  funext a
  unfold entriesWith
  by_cases hkey : a = account
  · subst hkey
    simp [new]
  · simp [hkey]

theorem keepsLogs_insert {il : IndexedLog α} {others : String → List (ℕ × α)}
    (keeps : KeepsLogs accounts entriesOf logs)
    (same : ∀ a ∈ accounts, a ≠ account → others a = entriesOf a)
    (represents : il.Represents (others account)) :
    KeepsLogs accounts others (logs.insert account il) := by
  intro a ha
  rw [Std.ExtTreeMap.getElem?_insert]
  by_cases hkey : account = a
  · subst hkey
    simpa using represents
  · rw [if_neg (by simpa using hkey), same a ha (Ne.symm hkey)]
    exact keeps a ha

theorem KeepsLogs.apply (keeps : KeepsLogs accounts entriesOf logs)
    (low : ∀ entry ∈ entriesOf account, entry.1 ≤ k) (what : String) :
    ∃ after, processEntry what accounts k account x .apply logs = .ok after ∧
      KeepsLogs accounts (entriesWith [account] k x entriesOf) after := by
  unfold processEntry
  by_cases hmem : account ∈ accounts
  · rw [if_pos hmem]
    obtain ⟨il, hadd, represents⟩ := (keeps account hmem).add (x := x) low what
    simp only [hadd, ok_bind]
    refine ⟨_, rfl, keepsLogs_insert keeps ?_ ?_⟩
    · intro a _ hne
      exact if_neg (by simpa using hne)
    · rwa [entriesWith, if_pos List.mem_cons_self]
  · rw [if_neg hmem]
    refine ⟨_, rfl, fun a ha => ?_⟩
    rw [entriesWith, if_neg (by rw [List.mem_singleton]; rintro rfl; exact hmem ha)]
    exact keeps a ha

theorem KeepsLogs.revert (keeps : KeepsLogs accounts (entriesWith [account] k x entriesOf) logs)
    (low : ∀ entry ∈ entriesOf account, entry.1 ≤ k) (what : String) :
    ∃ after, processEntry what accounts k account x .revert logs = .ok after ∧
      KeepsLogs accounts entriesOf after := by
  unfold processEntry
  by_cases hmem : account ∈ accounts
  · rw [if_pos hmem]
    have represents := keeps account hmem
    rw [entriesWith, if_pos List.mem_cons_self] at represents
    obtain ⟨il, hremove, hafter⟩ := represents.remove low what
    simp only [hremove, ok_bind]
    refine ⟨_, rfl, keepsLogs_insert keeps ?_ hafter⟩
    intro a _ hne
    rw [entriesWith, if_neg (by simpa using hne)]
  · rw [if_neg hmem]
    refine ⟨_, rfl, fun a ha => ?_⟩
    have represents := keeps a ha
    rwa [entriesWith, if_neg (by rw [List.mem_singleton]; rintro rfl; exact hmem ha)] at represents

theorem KeepsLogs.applyAll {touched : List String} (distinct : touched.Nodup)
    (keeps : KeepsLogs accounts entriesOf logs)
    (low : ∀ a ∈ touched, ∀ entry ∈ entriesOf a, entry.1 ≤ k) (what : String) :
    ∃ after, runAll (fun account => processEntry what accounts k account x .apply) touched logs =
        .ok after ∧ KeepsLogs accounts (entriesWith touched k x entriesOf) after := by
  induction touched generalizing entriesOf logs with
  | nil => exact ⟨logs, rfl, keeps⟩
  | cons account rest ih =>
      obtain ⟨hnew, hrest⟩ := List.nodup_cons.mp distinct
      obtain ⟨mid, hmid, hkeeps⟩ := keeps.apply (x := x) (low account List.mem_cons_self) what
      obtain ⟨after, hafter, hlast⟩ := ih hrest hkeeps fun a ha entry hentry => by
        rw [entriesWith, if_neg (by rw [List.mem_singleton]; rintro rfl; exact hnew ha)] at hentry
        exact low a (List.mem_cons_of_mem _ ha) entry hentry
      refine ⟨after, ?_, entriesWith_cons hnew ▸ hlast⟩
      rw [runAll_cons, hmid]
      exact hafter

theorem KeepsLogs.revertAll {touched : List String} (distinct : touched.Nodup)
    (keeps : KeepsLogs accounts (entriesWith touched k x entriesOf) logs)
    (low : ∀ a ∈ touched, ∀ entry ∈ entriesOf a, entry.1 ≤ k) (what : String) :
    ∃ after, runAll (fun account => processEntry what accounts k account x .revert) touched logs =
        .ok after ∧ KeepsLogs accounts entriesOf after := by
  induction touched generalizing entriesOf logs with
  | nil => exact ⟨logs, rfl, keeps⟩
  | cons account rest ih =>
      obtain ⟨hnew, hrest⟩ := List.nodup_cons.mp distinct
      have hswap : entriesWith (account :: rest) k x entriesOf =
          entriesWith [account] k x (entriesWith rest k x entriesOf) := by
        funext a
        unfold entriesWith
        by_cases hkey : a = account
        · subst hkey
          simp [hnew]
        · simp [hkey]
      rw [hswap] at keeps
      obtain ⟨mid, hmid, hkeeps⟩ := keeps.revert (fun entry hentry => by
        rw [entriesWith, if_neg hnew] at hentry
        exact low account List.mem_cons_self entry hentry) what
      obtain ⟨after, hafter, hlast⟩ := ih hrest hkeeps fun a ha =>
        low a (List.mem_cons_of_mem _ ha)
      refine ⟨after, ?_, hlast⟩
      rw [runAll_cons, hmid]
      exact hafter

end

theorem touchedBy_nodup (info : TransactionInfo) (authority : String) :
    (touchedBy info authority).Nodup := by
  unfold touchedBy
  simp only [List.filter_cons, List.filter_nil]
  split_ifs <;> grind

end Publiq
