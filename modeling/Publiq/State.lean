import Publiq.Common
import Publiq.Foundation.SparseMap

/-! `state.cpp`: the balances and the roles. Every balance change goes through
`setBalance`, which also keeps the node's own balance as of the chain layer. -/
namespace Publiq
open Message Checked

/-- `publiqpp::state`. A balance of zero is not stored. -/
structure State where
  accounts : SparseMap String Coin
  nodeAccounts : SparseMap String Coin
  roles : Std.ExtTreeMap String Role
  deriving DecidableEq

namespace State

instance : Inhabited State := ⟨⟨∅, ∅, ∅⟩⟩

/-- `state::get_balance`. -/
def getBalance (s : State) (key : String) : StateLayer → Coin
  | .pool => s.accounts.get key
  | .chain => s.nodeAccounts.get key

/-- `state::set_balance` on the node whose key is `own`. -/
def setBalance (own key : String) (amount : Coin) (layer : StateLayer) (s : State) : State :=
  { s with
    accounts := s.accounts.set key amount
    nodeAccounts :=
      if layer = .chain ∧ own = key then s.nodeAccounts.set key amount else s.nodeAccounts }

/-- `state::increase_balance`. -/
def increaseBalance (own key : String) (amount : Coin) (layer : StateLayer) (s : State) : State :=
  if amount.isEmpty then s
  else setBalance own key (s.getBalance key .pool + amount) layer s

/-- `state::decrease_balance`. -/
def decreaseBalance (own key : String) (amount : Coin) (layer : StateLayer) (s : State) :
    Checked State :=
  if amount.isEmpty then .ok s
  else do
    let balance := s.getBalance key .pool
    require (balance.lt amount = false) (.notEnoughBalance key balance amount)
    let rest ← balance.sub amount
    pure (setBalance own key rest layer s)

/-- `state::get_role`. -/
def getRole (s : State) (nodeid : String) : Option NodeType :=
  s.roles[nodeid]?.map Role.nodeType

/-- `state::insert_role`. -/
def insertRole (role : Role) (s : State) : Checked State := do
  require (s.roles.contains role.nodeAddress = false) (.logicError "role already exists")
  pure { s with roles := s.roles.insert role.nodeAddress role }

/-- `state::remove_role`. -/
def removeRole (nodeid : String) (s : State) : State :=
  { s with roles := s.roles.erase nodeid }

def worth (s : State) (key : String) : ℕ := (s.accounts.get key).value

/-- The node's own balance at the chain layer is the one of the accounts, and no
other account has one. -/
def Synced (own : String) (s : State) : Prop :=
  ∀ key, s.nodeAccounts.get key = if own = key then s.accounts.get key else 0

theorem ext_get {a b : State} (accounts : ∀ k, a.accounts.get k = b.accounts.get k)
    (nodeAccounts : ∀ k, a.nodeAccounts.get k = b.nodeAccounts.get k)
    (roles : a.roles = b.roles) : a = b := by
  rcases a with ⟨aa, an, ar⟩
  rcases b with ⟨ba, bn, br⟩
  have ha : aa = ba := SparseMap.ext accounts
  have hn : an = bn := SparseMap.ext nodeAccounts
  cases ha
  cases hn
  cases roles
  rfl

@[simp] theorem setBalance_accounts (own key : String) (amount : Coin) (layer : StateLayer)
    (s : State) : (setBalance own key amount layer s).accounts = s.accounts.set key amount := rfl

@[simp] theorem increaseBalance_roles (own key : String) (amount : Coin) (layer : StateLayer)
    (s : State) : (increaseBalance own key amount layer s).roles = s.roles := by
  unfold increaseBalance
  split <;> rfl

theorem increaseBalance_accounts (own key : String) (amount : Coin) (layer : StateLayer)
    (s : State) : (increaseBalance own key amount layer s).accounts =
      s.accounts.set key (s.accounts.get key + amount) := by
  unfold increaseBalance
  split
  · rename_i h
    rw [(Coin.isEmpty_iff amount).mp h, Coin.add_zero, SparseMap.set_get]
  · rfl

theorem decreaseBalance_ok_iff {own key : String} {amount : Coin} {layer : StateLayer}
    {s t : State} :
    decreaseBalance own key amount layer s = .ok t ↔
      (amount.isEmpty = true ∧ t = s) ∨
      (amount.isEmpty = false ∧ ∃ rest, (s.accounts.get key).sub amount = .ok rest ∧
        t = setBalance own key rest layer s) := by
  unfold decreaseBalance
  cases hz : amount.isEmpty with
  | true =>
      simp only [if_true, Except.ok.injEq, true_and, Bool.true_eq_false, false_and, or_false]
      exact eq_comm
  | false =>
      simp only [Bool.false_eq_true, if_false, false_and, false_or, true_and]
      rw [require_bind_ok_iff, bind_ok_iff]
      constructor
      · rintro ⟨_, rest, hsub, ht⟩
        exact ⟨rest, hsub, (pure_ok_iff.mp ht).symm⟩
      · rintro ⟨rest, hsub, ht⟩
        refine ⟨?_, rest, hsub, pure_ok_iff.mpr ht.symm⟩
        rw [Bool.eq_false_iff, Ne, Coin.lt_iff_value]
        exact not_lt.mpr (Coin.sub_lt hsub)

theorem decreaseBalance_accounts {own key : String} {amount : Coin} {layer : StateLayer}
    {s t : State} (h : decreaseBalance own key amount layer s = .ok t) :
    ∃ rest, (s.accounts.get key).sub amount = .ok rest ∧ t.accounts = s.accounts.set key rest := by
  rcases decreaseBalance_ok_iff.mp h with ⟨he, rfl⟩ | ⟨_, rest, hsub, rfl⟩
  · have hz := (Coin.isEmpty_iff amount).mp he
    have hv0 : amount.value = 0 := hz ▸ Coin.value_zero
    obtain ⟨c, hc, hv⟩ := Coin.sub_total (a := t.accounts.get key) (hv0 ▸ Nat.zero_le _)
    have hsame : c = t.accounts.get key := Coin.value_injective (by rw [← hv, hv0, Nat.add_zero])
    exact ⟨c, hc, by rw [hsame, SparseMap.set_get]⟩
  · exact ⟨rest, hsub, rfl⟩

theorem decreaseBalance_total (own key : String) {amount : Coin} (layer : StateLayer) {s : State}
    (h : amount.value ≤ s.worth key) : ∃ t, decreaseBalance own key amount layer s = .ok t := by
  obtain ⟨rest, hsub, _⟩ := Coin.sub_total h
  cases hz : amount.isEmpty with
  | true => exact ⟨s, decreaseBalance_ok_iff.mpr (.inl ⟨hz, rfl⟩)⟩
  | false => exact ⟨_, decreaseBalance_ok_iff.mpr (.inr ⟨hz, rest, hsub, rfl⟩)⟩

theorem decreaseBalance_le {own key : String} {amount : Coin} {layer : StateLayer}
    {s t : State} (h : decreaseBalance own key amount layer s = .ok t) :
    amount.value ≤ s.worth key := by
  obtain ⟨rest, hsub, _⟩ := decreaseBalance_accounts h
  exact Coin.sub_lt hsub

theorem worth_increaseBalance {own key : String} {amount : Coin} {layer : StateLayer} {s : State}
    (fits : s.worth key + amount.value < Coin.limit) (a : String) :
    (increaseBalance own key amount layer s).worth a =
      s.worth a + if key = a then amount.value else 0 := by
  rw [worth, increaseBalance_accounts, SparseMap.get_set]
  by_cases h : key = a
  · rw [if_pos h, if_pos h, ← h]
    exact Coin.value_add fits
  · rw [if_neg h, if_neg h]
    rfl

theorem worth_decreaseBalance {own key : String} {amount : Coin} {layer : StateLayer}
    {s t : State} (h : decreaseBalance own key amount layer s = .ok t) (a : String) :
    t.worth a + (if key = a then amount.value else 0) = s.worth a := by
  obtain ⟨rest, hsub, ht⟩ := decreaseBalance_accounts h
  rw [worth, ht, SparseMap.get_set]
  by_cases hk : key = a
  · rw [if_pos hk, if_pos hk, ← hk]
    exact Coin.value_sub hsub
  · rw [if_neg hk, if_neg hk]
    rfl

theorem setBalance_undo {own key : String} {layer : StateLayer} {s : State}
    (synced : layer = .chain → Synced own s) (amount : Coin) :
    setBalance own key (s.accounts.get key) layer (setBalance own key amount layer s) = s := by
  apply ext_get
  · intro k
    simp only [setBalance, SparseMap.set_undo]
  · intro k
    simp only [setBalance]
    split
    · rename_i h
      have hk := synced h.1 key
      rw [if_pos h.2] at hk
      rw [← hk, SparseMap.set_undo]
    · rfl
  · rfl

/-- A decrease takes an increase back, when the balance did not overflow. -/
theorem decreaseBalance_increaseBalance {own key : String} {amount : Coin} {layer : StateLayer}
    {s : State} (synced : layer = .chain → Synced own s)
    (fits : s.worth key + amount.value < Coin.limit) :
    decreaseBalance own key amount layer (increaseBalance own key amount layer s) = .ok s := by
  rw [decreaseBalance_ok_iff]
  cases hz : amount.isEmpty with
  | true => exact .inl ⟨rfl, by rw [increaseBalance, if_pos hz]⟩
  | false =>
      refine .inr ⟨rfl, s.accounts.get key, ?_, ?_⟩
      · rw [increaseBalance_accounts, SparseMap.get_set_self]
        have hv := Coin.value_add fits
        obtain ⟨c, hc, hcv⟩ := Coin.sub_total (a := s.accounts.get key + amount) (b := amount)
          (by rw [hv]; exact Nat.le_add_left _ _)
        rw [hc]
        exact congrArg _ (Coin.value_injective (by rw [hv] at hcv; exact Nat.add_right_cancel hcv))
      · rw [increaseBalance, if_neg (by simp [hz])]
        exact (setBalance_undo synced _).symm

theorem increaseBalance_decreaseBalance {own key : String} {amount : Coin} {layer : StateLayer}
    {s t : State} (synced : layer = .chain → Synced own s)
    (h : decreaseBalance own key amount layer s = .ok t) :
    increaseBalance own key amount layer t = s := by
  rcases decreaseBalance_ok_iff.mp h with ⟨he, rfl⟩ | ⟨he, rest, hsub, rfl⟩
  · rw [increaseBalance, if_pos he]
  · have hback : rest + amount = s.accounts.get key := by
      apply Coin.value_injective
      have hv := Coin.value_sub hsub
      rw [Coin.value_add (by rw [hv]; exact Coin.value_bound _), hv]
    rw [increaseBalance, if_neg (by simp [he])]
    simp only [getBalance, setBalance_accounts, SparseMap.get_set_self, hback]
    exact setBalance_undo synced _

end State
end Publiq
