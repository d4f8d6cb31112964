import VerifiableCompute.Lib.Ledger
import VerifiableCompute.Market.Fulfill

/-! What each write of the market changes. `Change` records how the request flags
and the locks are rewritten, which events are logged and how far the sums of the
balances and the holdings move. Changes compose, so the effect of a function is
read off its writes one by one. -/

namespace VerifiableCompute.Market

open Lib Function

abbrev Flags := Address → U32 → Bool × Bool

abbrev Locks := RequestId → RequestLock

namespace State

noncomputable def balances (s : State) : ℕ := total (fun a : Account => a.balance.toNat) s.accounts

/-- The sum of all accounts' collateral balances. -/
noncomputable def collaterals (s : State) : ℕ :=
  total (fun a : Account => a.collateralBalance.toNat) s.accounts

end State

/-- Flags and locks are rewritten by `F` and `L`, the events are logged, and the
sums of balances and collaterals and the two holdings move by these amounts. -/
structure Change (s s' : State) (F : Flags → Flags) (L : Locks → Locks) (events : List Event)
    (balances collaterals eth tokens : ℤ) : Prop where
  flags : s'.flags = F s.flags
  requestLocks : s'.requestLocks = L s.requestLocks
  logs : s'.logs = s.logs ++ events
  transient : s'.transient = s.transient
  timestamp : s'.timestamp = s.timestamp
  balances : (s'.balances : ℤ) = s.balances + balances
  collaterals : (s'.collaterals : ℤ) = s.collaterals + collaterals
  eth : (s'.eth : ℤ) = s.eth + eth
  tokens : (s'.tokens : ℤ) = s.tokens + tokens

namespace Change

variable {s r s' : State} {F F' : Flags → Flags} {L L' : Locks → Locks} {ev ev' : List Event}
  {b b' c c' e e' t t' : ℤ}

theorem trans (h : Change s r F L ev b c e t) (h' : Change r s' F' L' ev' b' c' e' t') :
    Change s s' (F' ∘ F) (L' ∘ L) (ev ++ ev') (b + b') (c + c') (e + e') (t + t') where
  flags := by rw [h'.flags, h.flags, comp_apply]
  requestLocks := by rw [h'.requestLocks, h.requestLocks, comp_apply]
  logs := by rw [h'.logs, h.logs, List.append_assoc]
  transient := h'.transient.trans h.transient
  timestamp := h'.timestamp.trans h.timestamp
  balances := by rw [h'.balances, h.balances, add_assoc]
  collaterals := by rw [h'.collaterals, h.collaterals, add_assoc]
  eth := by rw [h'.eth, h.eth, add_assoc]
  tokens := by rw [h'.tokens, h.tokens, add_assoc]

end Change

def raiseFlags (client : Address) (idx : U32) (locked fulfilled : Bool) (flags : Flags) : Flags :=
  fun c i => if c = client ∧ i = idx then ((flags c i).1 || locked, (flags c i).2 || fulfilled) else flags c i

def rewriteLock (id : RequestId) (f : RequestLock → RequestLock) (locks : Locks) : Locks :=
  Function.update locks id (f (locks id))

namespace State

variable {s s' : State} {a client : Address} {value : U96} {idx : U32}

theorem setAccount_change (s : State) (a : Address) (account : Account) (F : Flags → Flags) (b c : ℤ)
    (hF : (s.setAccount a account).flags = F s.flags)
    (hb : (account.balance.toNat : ℤ) = (s.accounts a).balance.toNat + b)
    (hc : (account.collateralBalance.toNat : ℤ) = (s.accounts a).collateralBalance.toNat + c) :
    Change s (s.setAccount a account) F id [] b c 0 0 := by
  have h1 : (s.setAccount a account).balances + (s.accounts a).balance.toNat =
      s.balances + account.balance.toNat := total_update _ _ _ _
  have h2 : (s.setAccount a account).collaterals + (s.accounts a).collateralBalance.toNat =
      s.collaterals + account.collateralBalance.toNat := total_update _ _ _ _
  refine ⟨hF, rfl, ?_, rfl, rfl, ?_, ?_, ?_, ?_⟩
  · simp [setAccount]
  · omega
  · omega
  · simp [setAccount]
  · simp [setAccount]

theorem flags_setAccount (s : State) (a : Address) (account : Account)
    (h : ∀ idx, account.requestFlags idx = (s.accounts a).requestFlags idx) :
    (s.setAccount a account).flags = id s.flags := by
  funext b idx
  by_cases hb : b = a
  · subst hb
    simp [flags, setAccount, h]
  · simp [flags, setAccount, update_of_ne hb]

theorem creditBalance_spec (h : s.creditBalance a value = .ok s') : Change s s' id id [] value.toNat 0 0 0 ∧
      (s'.accounts a).balance.toNat = (s.accounts a).balance.toNat + value.toNat ∧
      (∀ b, (s'.accounts b).collateralBalance = (s.accounts b).collateralBalance) := by
  obtain ⟨balance, hb, h⟩ := bind_ok_iff.mp h
  cases h
  have hb := checkedAdd_ok hb
  refine ⟨setAccount_change _ _ _ _ _ _ (flags_setAccount _ _ _ fun _ => rfl) (by simp [hb]) (by simp), ?_, ?_⟩
  · simp [setAccount, hb]
  · intro b
    by_cases hab : b = a
    · subst hab
      simp [setAccount]
    · simp [setAccount, update_of_ne hab]

theorem creditCollateral_spec (h : s.creditCollateral a value = .ok s') : Change s s' id id [] 0 value.toNat 0 0 ∧
      (s'.accounts a).collateralBalance.toNat = (s.accounts a).collateralBalance.toNat + value.toNat ∧
      (∀ b, (s'.accounts b).balance = (s.accounts b).balance) := by
  obtain ⟨balance, hb, h⟩ := bind_ok_iff.mp h
  cases h
  have hb := checkedAdd_ok hb
  refine ⟨setAccount_change _ _ _ _ _ _ (flags_setAccount _ _ _ fun _ => rfl) (by simp) (by simp [hb]), ?_, ?_⟩
  · simp [setAccount, hb]
  · intro b
    by_cases hab : b = a
    · subst hab
      simp [setAccount]
    · simp [setAccount, update_of_ne hab]

/-- The guard of the callers makes the unchecked subtraction exact. -/
theorem debitBalance_change (h : value ≤ (s.accounts a).balance) :
    Change s (s.debitBalance a value) id id [] (-value.toNat) 0 0 0 := by
  have hb := sub_add_toNat h
  refine setAccount_change _ _ _ _ _ _ (flags_setAccount _ _ _ fun _ => rfl) ?_ (by simp)
  push_cast [← hb]
  ring

theorem debitCollateral_change (h : value ≤ (s.accounts a).collateralBalance) :
    Change s (s.debitCollateral a value) id id [] 0 (-value.toNat) 0 0 := by
  have hb := sub_add_toNat h
  refine setAccount_change _ _ _ _ _ _ (flags_setAccount _ _ _ fun _ => rfl) (by simp) ?_
  push_cast [← hb]
  ring

theorem transferTokens_change {amount : U256} (h : s.transferTokens amount = .ok s') :
    Change s s' id id [] 0 0 0 (-amount.toNat) := by
  simp only [transferTokens, bind_ok_iff, require_ok_iff] at h
  obtain ⟨_, hle, h⟩ := h
  cases h
  refine ⟨rfl, rfl, by simp, rfl, rfl, by simp [balances], by simp [collaterals], by simp, ?_⟩
  push_cast [Nat.cast_sub hle]
  ring

theorem setRequestFlags_change {flags : U8} {account : Account}
    (h : (s.accounts client).setRequestFlags idx flags = .ok account) :
    Change s (s.setAccount client account) (raiseFlags client idx (flags.getLsbD 0) (flags.getLsbD 1)) id []
      0 0 0 0 := by
  have hframe := Account.setRequestFlags_frame h
  refine setAccount_change _ _ _ _ _ _ ?_ (by simp [hframe.1]) (by simp [hframe.2])
  funext c i
  by_cases hc : c = client
  · subst hc
    simp only [State.flags, setAccount, raiseFlags, update_self, true_and,
      Account.requestFlags_setRequestFlags h i]
    split_ifs with hi <;> simp [hi]
  · simp [State.flags, setAccount, raiseFlags, hc]

theorem setRequestLocked_change (h : s.setRequestLocked client idx = .ok s') :
    Change s s' (raiseFlags client idx true false) id [] 0 0 0 0 := by
  obtain ⟨account, ha, h⟩ := bind_ok_iff.mp h
  cases h
  exact setRequestFlags_change ha

theorem setRequestFulfilled_change (h : s.setRequestFulfilled client idx = .ok s') :
    Change s s' (raiseFlags client idx false true) id [] 0 0 0 0 := by
  obtain ⟨account, ha, h⟩ := bind_ok_iff.mp h
  cases h
  exact setRequestFlags_change ha

theorem modifyLock_change (s : State) (k : RequestId) (f : RequestLock → RequestLock) :
    Change s (s.modifyLock k f) id (rewriteLock k f) [] 0 0 0 0 := by
  refine ⟨rfl, rfl, ?_, rfl, rfl, ?_, ?_, ?_, ?_⟩ <;> simp [modifyLock, setLock, balances, collaterals]

theorem emit_change (s : State) (e : Event) : Change s (s.emit e) id id [e] 0 0 0 0 := by
  refine ⟨rfl, rfl, rfl, rfl, rfl, ?_, ?_, ?_, ?_⟩ <;> simp [emit, balances, collaterals]

end State

end VerifiableCompute.Market
