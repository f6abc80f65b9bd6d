import Mathlib.Algebra.Order.Ring.Rat
import Mathlib.Algebra.Order.Group.Abs
import Fluxor.Support.Database

/-!
# The tables of the shop

The tables that `SetupPurchaseTables` of `apps/postgres-demo` and its migrations
create, and the statements that the services run on them. A column of type
`DECIMAL(10, 2)` holds a rational number in its range. A row cannot be built against
the constraints of its table.

Columns that no modelled function reads are left out: names, descriptions,
timestamps, the order of a wallet transaction, and the rows of the journals.
-/

namespace Fluxor.PostgresDemo

open Database Database.Program

/-- The range of a column `DECIMAL(10, 2)`. -/
def Fits (x : ℚ) : Prop :=
  |x| < 10 ^ 8

instance (x : ℚ) : Decidable (Fits x) := inferInstanceAs (Decidable (_ < _))

/-- The range of a column `INTEGER`. -/
def FitsInteger (n : ℤ) : Prop := -2 ^ 31 ≤ n ∧ n < 2 ^ 31

instance (n : ℤ) : Decidable (FitsInteger n) := inferInstanceAs (Decidable (_ ∧ _))

structure Wallet.Check (balance frozen : ℚ) : Prop where
  balance_nonneg : 0 ≤ balance
  frozen_nonneg : 0 ≤ frozen
  frozen_le : frozen ≤ balance
  fits : Fits balance

/-- A row of `wallets`. The frozen amount is in range because the balance is. -/
structure Wallet where
  (balance frozen : ℚ)
  check : Wallet.Check balance frozen

theorem Wallet.check_iff {balance frozen : ℚ} :
    Wallet.Check balance frozen ↔ 0 ≤ balance ∧ 0 ≤ frozen ∧ frozen ≤ balance ∧ Fits balance := by
  constructor
  · intro h
    exact ⟨h.balance_nonneg, h.frozen_nonneg, h.frozen_le, h.fits⟩
  · rintro ⟨hbalance, hfrozen, hle, hfits⟩
    exact ⟨hbalance, hfrozen, hle, hfits⟩

instance (balance frozen : ℚ) : Decidable (Wallet.Check balance frozen) :=
  decidable_of_iff' _ Wallet.check_iff

inductive TransactionStatus
  | pending | completed | cancelled
  deriving DecidableEq

inductive TransactionType
  | credit | debit

structure WalletTransaction where
  (userID walletType : String)
  type : TransactionType
  amount : ℚ
  status : TransactionStatus

structure WalletTypeInfo where
  isActive : Bool
  maxBalance : Option ℚ := none

structure Product where
  price : ℚ
  stock : ℤ

structure OrderItem where
  orderID : ℕ
  (productID quantity : ℤ)
  (price subtotal : ℚ)

/-- The tables. The rows of `wallet_transactions` and of `orders` are numbered; of
`accounts` the codes are kept. -/
structure Tables where
  walletTypes : AList fun _ : String => WalletTypeInfo := ∅
  wallets : AList fun _ : String × String => Wallet := ∅
  walletTransactions : List WalletTransaction := []
  accounts : List String := []
  products : AList fun _ : ℤ => Product := ∅
  orders : List (String × ℚ) := []
  orderItems : List OrderItem := []

/-- The errors of the services, with the values that their texts show. -/
inductive Error
  | wrapped (text : String) (err : Error)
  | constraintViolation | amountNotPositive
  | walletTypeNotFound (walletType : String)
  | walletTypeNotActive (walletType : String)
  | ruleViolation (message : String)
  | exceedsMaximum (current adding max : ℚ)
  | insufficientWalletBalance (required balance frozen : ℚ)
  | stateMismatch (operation : String) (frozen required : ℚ)
  | sameWalletType
  | insufficientBalance (available required : ℚ)
  | insufficientAvailableBalance (balance frozen required : ℚ)
  | tooFewEntries | negativeEntry
  | debitAndCredit (account : String)
  | noDebitOrCredit (account : String)
  | unbalanced (debit credit : ℚ)
  | accountNotFound (account : String)
  | transactionNotFound | noItems
  | productNotFound (product : ℤ)
  | insufficientStock (product requested available : ℤ)

def wrap {α : Type} (text : String) (x : Program Tables Error α) : Program Tables Error α :=
  x.mapError (.wrapped text)

variable (userID walletType : String)

def insertWallet (balance frozen : ℚ) : Program Tables Error Wallet := do
  let db ← tables
  require (db.wallets.lookup (userID, walletType) = none) .constraintViolation
  if h : Wallet.Check balance frozen then
    modify fun db => { db with
      wallets := db.wallets.insert (userID, walletType) ⟨balance, frozen, h⟩ }
    pure ⟨balance, frozen, h⟩
  else throw .constraintViolation

/-- `UPDATE wallets` of the row of a user and a type, if it meets `cond` and there is a new row. -/
def updateWallet (cond : Wallet → Prop) [DecidablePred cond] (balance frozen : Wallet → ℚ) :
    Program Tables Error (Option Wallet) := do
  let db ← tables
  match db.wallets.lookup (userID, walletType) with
  | none => pure none
  | some w =>
    if cond w then
      if h : Wallet.Check (balance w) (frozen w) then
        modify fun db => { db with
          wallets := db.wallets.insert (userID, walletType) ⟨_, _, h⟩ }
        pure (some ⟨_, _, h⟩)
      else throw .constraintViolation
    else pure none

/-- `SELECT balance, frozen` for the text of an error: both are 0 if there is no
row. -/
def currentColumns : Program Tables Error (ℚ × ℚ) := do
  let db ← tables
  match db.wallets.lookup (userID, walletType) with
  | none => pure (0, 0)
  | some w => pure (w.balance, w.frozen)

/-- `INSERT INTO wallet_transactions`, with the number of the new row. -/
def insertTransaction (row : WalletTransaction) : Program Tables Error ℕ := do
  let db ← tables
  require (Fits row.amount) .constraintViolation
  require ((db.wallets.lookup (row.userID, row.walletType)).isSome = true) .constraintViolation
  modify fun db => { db with
    walletTransactions := db.walletTransactions ++ [row] }
  pure db.walletTransactions.length

def WalletTransaction.settle (status : TransactionStatus)
    (row : WalletTransaction) : WalletTransaction :=
  if row.status = .pending then { row with status := status } else row

/-- `UPDATE wallet_transactions` of the status of a pending row. -/
def updateStatus (transactionID : ℕ) (status : TransactionStatus) : Program Tables Error Unit :=
  modify fun db => { db with
    walletTransactions := db.walletTransactions.modify transactionID (.settle status) }

section Returns

variable {userID walletType : String} {db db' : Tables}

theorem Wallet.ext {w w' : Wallet} (hbalance : w.balance = w'.balance)
    (hfrozen : w.frozen = w'.frozen) : w = w' := by
  obtain ⟨_, _, _⟩ := w
  obtain ⟨_, _, _⟩ := w'
  subst hbalance hfrozen
  rfl

def Tables.setWallet (db : Tables) (userID walletType : String) (w : Wallet) : Tables :=
  { db with wallets := db.wallets.insert (userID, walletType) w }

def Tables.addTransaction (db : Tables) (row : WalletTransaction) : Tables :=
  { db with walletTransactions := db.walletTransactions ++ [row] }

@[simp] theorem returns_wrap {α : Type} {text : String} {x : Program Tables Error α} {a : α} :
    (wrap text x).Returns db a db' ↔ x.Returns db a db' :=
  returns_mapError

@[simp] theorem returns_insertWallet {balance frozen : ℚ} {w : Wallet} :
    (insertWallet userID walletType balance frozen).Returns db w db' ↔
      db.wallets.lookup (userID, walletType) = none ∧ w.balance = balance ∧
        w.frozen = frozen ∧ db' = db.setWallet userID walletType w := by
  rw [insertWallet]
  split
  next hcheck =>
    simp only [returns_bind, returns_tables, returns_require, returns_modify, returns_pure]
    constructor
    · rintro ⟨_, _, ⟨rfl, rfl⟩, _, _, ⟨hnone, rfl⟩, _, _, rfl, rfl, rfl⟩
      exact ⟨hnone, rfl, rfl, rfl⟩
    · rintro ⟨hnone, hbalance, hfrozen, rfl⟩
      obtain rfl : w = ⟨balance, frozen, hcheck⟩ := Wallet.ext hbalance hfrozen
      exact ⟨db, db, ⟨rfl, rfl⟩, (), db, ⟨hnone, rfl⟩, (), _, rfl, rfl, rfl⟩
  next hcheck =>
    simp only [returns_bind, returns_throw, and_false, exists_false, false_iff]
    rintro ⟨-, rfl, rfl, -⟩
    exact hcheck w.check

theorem returns_updateWallet {cond : Wallet → Prop} [DecidablePred cond]
    {balance frozen : Wallet → ℚ} {row : Option Wallet} :
    (updateWallet userID walletType cond balance frozen).Returns db row db' ↔
      (row = none ∧ db' = db ∧ ∀ w, db.wallets.lookup (userID, walletType) = some w → ¬cond w) ∨
      ∃ w w', db.wallets.lookup (userID, walletType) = some w ∧ cond w ∧
        w'.balance = balance w ∧ w'.frozen = frozen w ∧ row = some w' ∧
        db' = db.setWallet userID walletType w' := by
  rw [updateWallet]
  simp only [returns_bind, returns_tables]
  constructor
  · rintro ⟨_, _, ⟨rfl, rfl⟩, h⟩
    split at h
    next hnone =>
      obtain ⟨rfl, rfl⟩ := returns_pure.mp h
      exact .inl ⟨rfl, rfl, fun w hw => absurd hw (by simp [hnone])⟩
    next w hw =>
      split at h
      next hcond =>
        split at h
        · simp only [returns_bind, returns_modify, returns_pure] at h
          obtain ⟨_, _, rfl, rfl, rfl⟩ := h
          exact .inr ⟨w, _, hw, hcond, rfl, rfl, rfl, rfl⟩
        · exact absurd h returns_throw
      next hcond =>
        obtain ⟨rfl, rfl⟩ := returns_pure.mp h
        refine .inl ⟨rfl, rfl, fun w' hw' => ?_⟩
        obtain rfl := Option.some.inj (hw.symm.trans hw')
        exact hcond
  · rintro (⟨rfl, rfl, hnot⟩ | ⟨w, w', hw, hcond, hbalance, hfrozen, rfl, rfl⟩)
    · refine ⟨db', db', ⟨rfl, rfl⟩, ?_⟩
      split
      · exact returns_pure.mpr ⟨rfl, rfl⟩
      next w hw =>
        rw [if_neg (hnot w hw)]
        exact returns_pure.mpr ⟨rfl, rfl⟩
    · refine ⟨db, db, ⟨rfl, rfl⟩, ?_⟩
      have hcheck : Wallet.Check (balance w) (frozen w) := by
        rw [← hbalance, ← hfrozen]
        exact w'.check
      obtain rfl : w' = ⟨balance w, frozen w, hcheck⟩ := Wallet.ext hbalance hfrozen
      rw [hw]
      simp only [if_pos hcond, dif_pos hcheck, returns_bind, returns_modify, returns_pure]
      exact ⟨(), _, rfl, trivial, rfl⟩

@[simp] theorem returns_insertTransaction {row : WalletTransaction} {id : ℕ} :
    (insertTransaction row).Returns db id db' ↔ Fits row.amount ∧
        (db.wallets.lookup (row.userID, row.walletType)).isSome = true ∧
        id = db.walletTransactions.length ∧ db' = db.addTransaction row := by
  rw [insertTransaction]
  simp only [returns_bind, returns_tables, returns_require, returns_modify, returns_pure]
  constructor
  · rintro ⟨_, _, ⟨rfl, rfl⟩, _, _, ⟨hfits, rfl⟩, _, _, ⟨hsome, rfl⟩, _, _, rfl, rfl, rfl⟩
    exact ⟨hfits, hsome, rfl, rfl⟩
  · rintro ⟨hfits, hsome, rfl, rfl⟩
    exact ⟨db, db, ⟨rfl, rfl⟩, (), db, ⟨hfits, rfl⟩, (), db, ⟨hsome, rfl⟩, (), _, rfl, rfl, rfl⟩

@[simp] theorem returns_updateStatus {id : ℕ} {status : TransactionStatus} {u : Unit} :
    (updateStatus id status).Returns db u db' ↔ db' = { db with
        walletTransactions := db.walletTransactions.modify id (.settle status) } :=
  returns_modify

end Returns

end Fluxor.PostgresDemo
