import Fluxor.PostgresDemo.Accounting

/-!
# What a wallet has available

`GetWalletBalanceByType` reports the balance less what is frozen, and a
transfer may take as much. A freeze lowers the balance and raises what is
frozen, and the table wants the one to stay at least the other, so that it may
take half of that only.
-/

namespace Fluxor.PostgresDemo

open Database Database.Program Transition Wallet

section Available

variable {s : WalletService} {db : Tables} {userID walletType : String} {amount : ℚ}

def Tables.available (db : Tables) (userID walletType : String) : ℚ :=
  db.balance userID walletType - db.frozen userID walletType

def Reports (db : Tables) (userID walletType : String) (amount : ℚ) : Prop :=
  ∃ available db', amount ≤ available ∧
    (getWalletBalanceByType userID walletType).Returns db available db'

theorem Tables.check (db : Tables) (userID walletType : String) :
    Check (db.balance userID walletType) (db.frozen userID walletType) := by
  cases hrow : db.wallets.lookup (userID, walletType) with
  | none =>
    rw [balance_of_none hrow, frozen_of_none hrow]
    exact empty.check
  | some w =>
    rw [balance_of_lookup hrow, frozen_of_lookup hrow]
    exact w.check

theorem reports_iff (hactive : db.Active walletType) :
    Reports db userID walletType amount ↔ amount ≤ db.available userID walletType := by
  simp only [Reports, returns_getWalletBalanceByType, Tables.available]
  constructor
  · rintro ⟨available, _, hle, -, rfl, -⟩
    exact hle
  · intro hle
    exact ⟨_, _, hle, hactive, rfl, rfl⟩

theorem check_freeze_iff {w : Wallet} (hpos : 0 < amount) :
    Check (w.balance - amount) (w.frozen + amount) ↔ 2 * amount ≤ w.balance - w.frozen := by
  constructor
  · intro h
    linarith [h.frozen_le]
  · intro h
    have hfrozen := w.check.frozen_nonneg
    have hbalance := w.check.fits
    rw [Fits, abs_of_nonneg w.check.balance_nonneg] at hbalance
    refine ⟨by linarith, by linarith, by linarith, ?_⟩
    rw [Fits, abs_of_nonneg (by linarith)]
    linarith

theorem freeze_succeeds_iff (hrules : s.ruleService = none) (hactive : db.Active walletType)
    (hpos : 0 < amount) :
    (freezeAmountByType s userID walletType amount).Succeeds db ↔
      2 * amount ≤ db.available userID walletType ∧
        Accepts s db accCodeFrozenFunds accCodeUserWallets amount := by
  simp only [Program.Succeeds, returns_freezeAmountByType, Tables.available]
  constructor
  · rintro ⟨_, _, -, -, w, w', hw, -, hbalance, hfrozen, -, -, haccepts, -⟩
    refine ⟨?_, haccepts⟩
    rw [balance_of_lookup hw, frozen_of_lookup hw, ← check_freeze_iff hpos, ← hbalance, ← hfrozen]
    exact w'.check
  · rintro ⟨hle, haccepts⟩
    obtain ⟨w, hw⟩ := Option.ne_none_iff_exists'.mp (row_of_available hpos (by linarith))
    rw [balance_of_lookup hw, frozen_of_lookup hw] at hle
    have hfrozen := w.check.frozen_nonneg
    exact ⟨_, _, by simp [hrules], hactive, w,
      ⟨_, _, (check_freeze_iff hpos).mpr hle⟩, hw, ⟨by linarith, by linarith⟩,
      rfl, rfl, w.fits_of_available hpos (by linarith), rfl, haccepts, rfl⟩

theorem transfer_succeeds_iff {toWalletType : String} (hrules : s.ruleService = none)
    (hactive : db.Active walletType) (hpos : 0 < amount) (hto : db.Active toWalletType)
    (hne : walletType ≠ toWalletType) :
    (transferBetweenWallets s userID walletType toWalletType amount).Succeeds db ↔
      amount ≤ db.available userID walletType ∧ db.balance userID toWalletType + amount < 10 ^ 8 ∧
        Accepts s db accCodeUserWallets accCodeUserWallets amount := by
  simp only [Program.Succeeds, returns_transferBetweenWallets, Tables.available]
  constructor
  · rintro ⟨_, _, -, -, -, -, -, w, w', v', hw, hle, -, -, hbalance, -, haccepts, -⟩
    refine ⟨?_, ?_, haccepts⟩
    · rwa [balance_of_lookup hw, frozen_of_lookup hw]
    · rw [← hbalance]
      exact (abs_lt.mp v'.check.fits).2
  · rintro ⟨hle, hroom, haccepts⟩
    obtain ⟨w, hw⟩ := Option.ne_none_iff_exists'.mp (row_of_available hpos hle)
    rw [balance_of_lookup hw, frozen_of_lookup hw] at hle
    have hfrozen := w.check.frozen_nonneg
    have hbalance := abs_lt.mp w.check.fits
    have hdest := db.check userID toWalletType
    have hsource : Check (w.balance - amount) w.frozen :=
      ⟨by linarith, hfrozen, by linarith, abs_lt.mpr ⟨by linarith, by linarith [hbalance.2]⟩⟩
    have hcredit : Check (db.balance userID toWalletType + amount)
        (db.frozen userID toWalletType) :=
      ⟨by linarith [hdest.balance_nonneg], hdest.frozen_nonneg, by linarith [hdest.frozen_le],
        abs_lt.mpr ⟨by linarith [hdest.balance_nonneg], hroom⟩⟩
    exact ⟨(), _, hpos, hne, hactive, hto, by simp [hrules], w, ⟨_, _, hsource⟩,
      ⟨_, _, hcredit⟩, hw, hle, rfl, rfl, rfl, rfl, haccepts, rfl⟩

/-- The reported balance can be spent: a freeze and a transfer to any other
wallet succeed exactly if the amount is reported. -/
def Spendable (s : WalletService) (db : Tables) (userID walletType : String) (amount : ℚ) : Prop :=
  ((freezeAmountByType s userID walletType amount).Succeeds db ↔
    Reports db userID walletType amount) ∧
  ∀ toWalletType, db.Active toWalletType → walletType ≠ toWalletType →
    ((transferBetweenWallets s userID walletType toWalletType amount).Succeeds
      db ↔ Reports db userID walletType amount)

/-- What is reported can be spent exactly if twice the amount is available, the
ledger has its accounts and the other wallets have room. -/
theorem spendable_iff (hrules : s.ruleService = none) (hactive : db.Active walletType)
    (hpos : 0 < amount) :
    Spendable s db userID walletType amount ↔ (amount ≤ db.available userID walletType →
        2 * amount ≤ db.available userID walletType ∧
        Accepts s db accCodeFrozenFunds accCodeUserWallets amount ∧
        ∀ toWalletType, db.Active toWalletType → walletType ≠ toWalletType →
          db.balance userID toWalletType + amount < 10 ^ 8 ∧
          Accepts s db accCodeUserWallets accCodeUserWallets amount) := by
  rw [Spendable, freeze_succeeds_iff hrules hactive hpos, reports_iff hactive]
  constructor
  · rintro ⟨hfreeze, htransfer⟩ hle
    obtain ⟨htwice, haccepts⟩ := hfreeze.mpr hle
    refine ⟨htwice, haccepts, fun toWalletType hto hne => ?_⟩
    have hsucceeds := (htransfer toWalletType hto hne).mpr hle
    rw [transfer_succeeds_iff hrules hactive hpos hto hne] at hsucceeds
    exact hsucceeds.2
  · intro h
    refine ⟨⟨fun hfreeze => by linarith [hfreeze.1], fun hle => ?_⟩, fun toWalletType hto hne => ?_⟩
    · exact ⟨(h hle).1, (h hle).2.1⟩
    · rw [transfer_succeeds_iff hrules hactive hpos hto hne]
      exact ⟨And.left, fun hle => ⟨hle, (h hle).2.2 toWalletType hto hne⟩⟩

end Available

def funded : Tables :=
  shop.setWallet "ann" "primary" ⟨100, 0, check_hundred⟩

theorem spendable_half : Spendable {} funded "ann" "primary" 50 := by
  refine (spendable_iff rfl (by decide +kernel) (by norm_num)).mpr fun _ =>
    ⟨by decide +kernel, accepts_of_no_ledger rfl, fun toWalletType _ hne =>
      ⟨?_, accepts_of_no_ledger rfl⟩⟩
  rw [funded, balance_setWallet_ne (by simpa using hne.symm)]
  exact (by norm_num : (0 : ℚ) + 50 < 10 ^ 8)

/-- 60 of 100 are reported and can be transferred, but not frozen. -/
theorem reported_not_frozen :
    ∃ db, Run (succeed {}) anyStep shop [.add "ann" "primary" 100] db ∧
      db.Active "primary" ∧ Reports db "ann" "primary" 60 ∧
      (transferBetweenWallets {} "ann" "primary" "savings" 60).Succeeds db ∧
      ¬(freezeAmountByType {} "ann" "primary" 60).Succeeds db := by
  refine exists_run_of _ (fun db => db.Active "primary" ∧ db.Active "savings" ∧
      db.available "ann" "primary" = 100 ∧ db.balance "ann" "savings" = 0) (by decide +kernel) ?_
  rintro db - ⟨hprimary, hsavings, havailable, hroom⟩
  refine ⟨hprimary, ?_, ?_, ?_⟩
  · rw [reports_iff hprimary, havailable]
    norm_num
  · rw [transfer_succeeds_iff rfl hprimary (by norm_num) hsavings (by decide), havailable, hroom]
    exact ⟨by norm_num, by norm_num, accepts_of_no_ledger rfl⟩
  · rw [freeze_succeeds_iff rfl hprimary (by norm_num), havailable]
    norm_num

end Fluxor.PostgresDemo
