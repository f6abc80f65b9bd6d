import Mathlib.Tactic.Linarith
import Fluxor.PostgresDemo.Tables

/-!
# The wallet service

`wallet_service.go` and the journals of `ledger_service.go`. The rule service
is a parameter: what its checks say may depend on the tables. A journal that
was just created is pending, so that `PostJournal` goes through.
-/

namespace Fluxor.PostgresDemo

open Database Database.Program Tables

/-! ## Journals -/

structure JournalEntryInput where
  accountCode : String
  (debit credit : ℚ)

def accCodeUserWallets : String := "1100"

def accCodeCompanyCash : String := "1200"

def accCodeFrozenFunds : String := "2100"

def JournalEntryInput.validate (entry : JournalEntryInput) : Except Error Unit :=
  if entry.debit < 0 ∨ entry.credit < 0 then .error .negativeEntry
  else if 0 < entry.debit ∧ 0 < entry.credit then
    .error (.debitAndCredit entry.accountCode)
  else if entry.debit = 0 ∧ entry.credit = 0 then
    .error (.noDebitOrCredit entry.accountCode)
  else .ok ()

def getAccountByCode (accounts : List String) (code : String) : Except Error Unit :=
  if code ∈ accounts then .ok () else .error (.accountNotFound code)

def createJournal (accounts : List String) (entries : List JournalEntryInput) :
    Except Error Unit := do
  if entries.length < 2 then .error .tooFewEntries
  entries.forM JournalEntryInput.validate
  let totalDebit : ℚ := (entries.map (·.debit)).sum
  let totalCredit : ℚ := (entries.map (·.credit)).sum
  let diff := totalDebit - totalCredit
  if diff < -(1 / 100 : ℚ) ∨ (1 / 100 : ℚ) < diff then
    .error (.unbalanced totalDebit totalCredit)
  entries.forM fun entry => getAccountByCode accounts entry.accountCode

/-! ## The service -/

structure WalletRuleService where
  (validateAddBalance validateFreeze : Tables → String → String → ℚ → Except Error Unit)
  validateTransfer : Tables → String → String → String → ℚ → Except Error Unit

/-- `WalletService`. Of the ledger service only its presence matters. -/
structure WalletService where
  ledgerService : Bool := false
  ruleService : Option WalletRuleService := none

variable (s : WalletService) (userID walletType : String) (amount : ℚ)

def WalletService.journal (text debit credit : String)
    (amount : ℚ) : Program Tables Error Unit := do
  if s.ledgerService then
    let db ← tables
    wrap text (lift (createJournal db.accounts [⟨debit, amount, 0⟩, ⟨credit, 0, amount⟩]))

def WalletService.rules (check : WalletRuleService → Tables → Except Error Unit) :
    Program Tables Error Unit := do
  match s.ruleService with
  | none => pure ()
  | some rules =>
    let db ← tables
    lift (check rules db)

def validateWalletType (walletType : String) : Program Tables Error Unit := do
  let db ← tables
  let info ← found (db.walletTypes.lookup walletType) (.walletTypeNotFound walletType)
  require (info.isActive = true) (.walletTypeNotActive walletType)

def getWalletTypeInfo (walletType : String) : Program Tables Error WalletTypeInfo := do
  let db ← tables
  found (db.walletTypes.lookup walletType) (.walletTypeNotFound walletType)

/-- `GetWalletBalanceByType`: a wallet that does not exist is created. -/
def getWalletBalanceByType : Program Tables Error ℚ := do
  validateWalletType walletType
  let db ← tables
  match db.wallets.lookup (userID, walletType) with
  | some w => pure (w.balance - w.frozen)
  | none =>
    let w ← wrap "failed to create wallet" (insertWallet userID walletType 0 0)
    pure (w.balance - w.frozen)

/-- The check of `AddWalletBalanceByType` against the largest balance. The branch
for an error of the type compares 15 bytes with 13 and is never taken. -/
def checkMaximum (info : WalletTypeInfo) : Program Tables Error Unit :=
  match info.maxBalance with
  | none => pure ()
  | some max => do
      let balance ← (getWalletBalanceByType userID walletType).attempt
      let current := balance.getD 0
      require (current + amount ≤ max) (.exceedsMaximum current amount max)

def depositWallet : Program Tables Error Unit := do
  let db ← tables
  match db.wallets.lookup (userID, walletType) with
  | none =>
    let _ ← insertWallet userID walletType amount 0
    pure ()
  | some _ =>
    let _ ← updateWallet userID walletType (fun _ => True)
      (fun w => w.balance + amount) (fun w => w.frozen)
    pure ()

def creditWallet : Program Tables Error Unit := do
  let db ← tables
  wrap (if db.wallets.lookup (userID, walletType) = none
      then "failed to create wallet" else "failed to update wallet")
    (depositWallet userID walletType amount)
  let _ ← wrap "failed to create wallet transaction"
    (insertTransaction ⟨userID, walletType, .credit, amount, .completed⟩)
  s.journal "failed to create ledger journal" accCodeUserWallets accCodeCompanyCash amount

def addWalletBalanceByType : Program Tables Error Unit := do
  require (0 < amount) .amountNotPositive
  validateWalletType walletType
  let info ← getWalletTypeInfo walletType
  s.rules fun rules db => rules.validateAddBalance db userID walletType amount
  checkMaximum userID walletType amount info
  (creditWallet s userID walletType amount).transaction

def walletTypePrimary : String := "primary"

def addWalletBalance (userID : String) (amount : ℚ) : Program Tables Error Unit :=
  addWalletBalanceByType s userID walletTypePrimary amount

/-- `FreezeAmountByType`, which returns the number of the transaction. -/
def freezeAmountByType : Program Tables Error ℕ := do
  s.rules fun rules db => rules.validateFreeze db userID walletType amount
  validateWalletType walletType
  let row ← wrap "failed to freeze wallet amount"
    (updateWallet userID walletType (fun w => 0 < w.balance ∧ amount ≤ w.balance)
      (fun w => w.balance - amount) (fun w => w.frozen + amount))
  match row with
  | none =>
    let (balance, frozen) ← currentColumns userID walletType
    throw (.insufficientWalletBalance amount balance frozen)
  | some _ =>
    let transactionID ← wrap "failed to create pending transaction"
      (insertTransaction ⟨userID, walletType, .debit, amount, .pending⟩)
    s.journal "failed to create freeze journal" accCodeFrozenFunds accCodeUserWallets amount
    pure transactionID

/-- What `CommitTransactionByType` and `RollbackTransactionByType` share: the amount
leaves what is frozen, `credit` of it goes back to the balance, and a pending
transaction gets the status `status`. -/
def settleTransaction (operation : String)
    (status : TransactionStatus) (debitAccount : String) (credit : ℚ)
    (userID walletType : String) (amount : ℚ) (transactionID : ℕ) :
    Program Tables Error Unit := do
  let row ← wrap ("failed to " ++ operation ++ " transaction")
    (updateWallet userID walletType (fun w => amount ≤ w.frozen)
      (fun w => w.balance + credit) (fun w => w.frozen - amount))
  match row with
  | none =>
    let (_, frozen) ← currentColumns userID walletType
    throw (.stateMismatch operation frozen amount)
  | some _ =>
    updateStatus transactionID status
    s.journal ("failed to create " ++ operation ++ " journal") debitAccount
      accCodeFrozenFunds amount

def commitTransactionByType (transactionID : ℕ) : Program Tables Error Unit :=
  settleTransaction s "commit" .completed accCodeCompanyCash 0 userID walletType
    amount transactionID

def rollbackTransactionByType (transactionID : ℕ) : Program Tables Error Unit :=
  settleTransaction s "rollback" .cancelled accCodeUserWallets amount userID
    walletType amount transactionID

/-- `CommitTransaction`: the type of the wallet is that of the transaction. -/
def commitTransaction (userID : String) (amount : ℚ)
    (transactionID : ℕ) : Program Tables Error Unit := do
  let db ← tables
  let row ← wrap "failed to find transaction"
    (found db.walletTransactions[transactionID]? .transactionNotFound)
  commitTransactionByType s userID row.walletType amount transactionID

/-- The credit of a transfer: `INSERT INTO wallets … ON CONFLICT DO UPDATE`.
The row that is proposed has to meet the constraints too. -/
def upsertWallet : Program Tables Error Unit := do
  require (Wallet.Check amount 0) .constraintViolation
  depositWallet userID walletType amount

def moveBetweenWallets (userID fromWalletType toWalletType : String) (amount : ℚ) :
    Program Tables Error Unit := do
  let row ← wrap "failed to deduct from source wallet" (updateWallet userID fromWalletType
      (fun w => amount ≤ w.balance - w.frozen) (fun w => w.balance - amount)
      (fun w => w.frozen))
  match row with
  | none =>
    let (balance, frozen) ← currentColumns userID fromWalletType
    throw (.insufficientAvailableBalance balance frozen amount)
  | some _ =>
    wrap "failed to add to destination wallet" (upsertWallet userID toWalletType amount)
    let _ ← wrap "failed to create debit transaction" (insertTransaction
      ⟨userID, fromWalletType, .debit, amount, .completed⟩)
    let _ ← wrap "failed to create credit transaction" (insertTransaction
      ⟨userID, toWalletType, .credit, amount, .completed⟩)
    s.journal "failed to create transfer journal" accCodeUserWallets accCodeUserWallets amount

def transferBetweenWallets (userID fromWalletType toWalletType : String) (amount : ℚ) :
    Program Tables Error Unit := do
  require (0 < amount) .amountNotPositive
  require (fromWalletType ≠ toWalletType) .sameWalletType
  wrap "invalid source wallet type" (validateWalletType fromWalletType)
  wrap "invalid destination wallet type" (validateWalletType toWalletType)
  s.rules fun rules db => rules.validateTransfer db userID fromWalletType toWalletType amount
  let available ← wrap "failed to check source wallet balance"
    (getWalletBalanceByType userID fromWalletType)
  require (amount ≤ available) (.insufficientBalance available amount)
  (moveBetweenWallets s userID fromWalletType toWalletType amount).transaction

/-! ## What the calls do -/

section Returns

variable {s : WalletService} {userID walletType : String} {amount : ℚ} {db db' : Tables} {u : Unit}

def Tables.Active (db : Tables) (walletType : String) : Prop :=
  ∃ info, db.walletTypes.lookup walletType = some info ∧ info.isActive = true

instance : Decidable (db.Active walletType) :=
  decidable_of_iff ((db.walletTypes.lookup walletType).any (·.isActive) = true)
    (Option.any_eq_true _ _)

def Tables.balance (db : Tables) (userID walletType : String) : ℚ :=
  ((db.wallets.lookup (userID, walletType)).map Wallet.balance).getD 0

def Tables.frozen (db : Tables) (userID walletType : String) : ℚ :=
  ((db.wallets.lookup (userID, walletType)).map Wallet.frozen).getD 0

section

variable (h : db.wallets.lookup (userID, walletType) = none)

include h

theorem balance_of_none : db.balance userID walletType = 0 := by
  rw [balance, h]
  rfl

theorem frozen_of_none : db.frozen userID walletType = 0 := by
  rw [frozen, h]
  rfl

end

theorem balance_of_lookup {w : Wallet} (h : db.wallets.lookup (userID, walletType) = some w) :
    db.balance userID walletType = w.balance := by
  rw [balance, h]
  rfl

theorem frozen_of_lookup {w : Wallet} (h : db.wallets.lookup (userID, walletType) = some w) :
    db.frozen userID walletType = w.frozen := by
  rw [frozen, h]
  rfl

section Update

variable {w w' : Wallet}

theorem setWallet_setWallet : (db.setWallet userID walletType w).setWallet userID walletType w' =
      db.setWallet userID walletType w' := by
  rw [setWallet, setWallet, setWallet, AList.insert_insert]

theorem lookup_setWallet_same :
    (db.setWallet userID walletType w).wallets.lookup (userID, walletType) = some w :=
  AList.lookup_insert _

variable {user type : String}

section

variable (h : (user, type) ≠ (userID, walletType))

include h

theorem lookup_setWallet_ne : (db.setWallet userID walletType w).wallets.lookup (user, type) =
      db.wallets.lookup (user, type) :=
  AList.lookup_insert_ne h

omit h in
theorem balance_setWallet_same :
    (db.setWallet userID walletType w).balance userID walletType = w.balance :=
  balance_of_lookup lookup_setWallet_same

omit h in
theorem frozen_setWallet_same :
    (db.setWallet userID walletType w).frozen userID walletType = w.frozen :=
  frozen_of_lookup lookup_setWallet_same

theorem balance_setWallet_ne :
    (db.setWallet userID walletType w).balance user type = db.balance user type := by
  grind [balance, lookup_setWallet_ne]

theorem frozen_setWallet_ne :
    (db.setWallet userID walletType w).frozen user type = db.frozen user type := by
  rw [frozen, lookup_setWallet_ne h, frozen]

end

end Update

variable {debit credit : String}

/-- A journal of one amount goes through if the amount is positive and both
accounts exist. -/
theorem createJournal_two {accounts : List String} :
    createJournal accounts [⟨debit, amount, 0⟩, ⟨credit, 0, amount⟩] = .ok () ↔
      0 < amount ∧ debit ∈ accounts ∧ credit ∈ accounts := by
  rcases lt_trichotomy amount 0 with hneg | rfl | hpos
  · simp [createJournal, JournalEntryInput.validate, hneg, hneg.not_gt, bind, Except.bind]
  · simp [createJournal, JournalEntryInput.validate, bind, Except.bind]
  · have hdiff : ¬(100 : ℚ) < 0 := by norm_num
    have haccounts : createJournal accounts [⟨debit, amount, 0⟩, ⟨credit, 0, amount⟩] =
          (getAccountByCode accounts debit).bind fun _ =>
            (getAccountByCode accounts credit).bind fun _ => .ok () := by
      simp [createJournal, JournalEntryInput.validate, bind, Except.bind, pure,
        Except.pure, hpos, hpos.ne', hpos.not_gt, hdiff]
    rw [haccounts]
    by_cases hdebit : debit ∈ accounts
    · by_cases hcredit : credit ∈ accounts
      · simp [getAccountByCode, Except.bind, hpos, hdebit, hcredit]
      · simp [getAccountByCode, Except.bind, hdebit, hcredit]
    · simp [getAccountByCode, Except.bind, hdebit]

/-- The ledger accepts a journal, or there is none. -/
def Accepts (s : WalletService) (db : Tables) (debit credit : String) (amount : ℚ) : Prop :=
  s.ledgerService = true → 0 < amount ∧ debit ∈ db.accounts ∧ credit ∈ db.accounts

theorem accepts_of_no_ledger (h : s.ledgerService = false) : Accepts s db debit credit amount := by
  intro hledger
  rw [h] at hledger
  cases hledger

@[simp] theorem returns_journal {text : String} :
    (s.journal text debit credit amount).Returns db u db' ↔
      Accepts s db debit credit amount ∧ db' = db := by
  rw [WalletService.journal, Accepts]
  split
  next hledger =>
    simp only [returns_bind, returns_tables, returns_wrap, returns_lift, hledger]
    grind [createJournal_two]
  next hledger => simp [hledger]

@[simp] theorem returns_rules {check : WalletRuleService → Tables → Except Error Unit} :
    (s.rules check).Returns db u db' ↔
      (∀ rules, s.ruleService = some rules → check rules db = .ok ()) ∧ db' = db := by
  rw [WalletService.rules]
  split
  next hnone => simp [hnone]
  next hsome =>
    simp only [returns_bind, returns_tables, returns_lift, hsome, Option.some.injEq, forall_eq']
    grind

@[simp] theorem returns_validateWalletType :
    (validateWalletType walletType).Returns db u db' ↔ db.Active walletType ∧ db' = db := by
  simp only [validateWalletType, returns_bind, returns_tables, returns_found,
    returns_require, Active]
  grind

def Wallet.empty : Wallet := ⟨0, 0, by decide⟩

theorem returns_getWalletBalanceByType {available : ℚ} :
    (getWalletBalanceByType userID walletType).Returns db available db' ↔ db.Active walletType ∧
      available = db.balance userID walletType - db.frozen userID walletType ∧
      db' = if db.wallets.lookup (userID, walletType) = none
        then db.setWallet userID walletType .empty else db := by
  simp only [getWalletBalanceByType, returns_bind, returns_tables, returns_validateWalletType]
  constructor
  · rintro ⟨_, _, ⟨hactive, rfl⟩, _, _, ⟨rfl, rfl⟩, h⟩
    refine ⟨hactive, ?_⟩
    split at h
    · grind [returns_pure, balance_of_lookup, frozen_of_lookup]
    next hnone =>
      simp only [returns_bind, returns_wrap, returns_insertWallet, returns_pure] at h
      obtain ⟨w, _, ⟨-, hbalance, hfrozen, rfl⟩, rfl, rfl⟩ := h
      obtain rfl : w = .empty := Wallet.ext hbalance hfrozen
      grind [balance, frozen]
  · rintro ⟨hactive, rfl, rfl⟩
    refine ⟨(), db, ⟨hactive, rfl⟩, db, db, ⟨rfl, rfl⟩, ?_⟩
    split
    · grind [balance_of_lookup, frozen_of_lookup, returns_pure]
    next hnone =>
      simp only [returns_bind, returns_wrap, returns_insertWallet, returns_pure, hnone]
      grind [Wallet.empty, balance, frozen]

theorem returns_freezeAmountByType {id : ℕ} :
    (freezeAmountByType s userID walletType amount).Returns db id db' ↔
      (∀ rules, s.ruleService = some rules →
        rules.validateFreeze db userID walletType amount = .ok ()) ∧
      db.Active walletType ∧
      ∃ w w', db.wallets.lookup (userID, walletType) = some w ∧
        (0 < w.balance ∧ amount ≤ w.balance) ∧
        w'.balance = w.balance - amount ∧ w'.frozen = w.frozen + amount ∧
        Fits amount ∧ id = db.walletTransactions.length ∧
        Accepts s db accCodeFrozenFunds accCodeUserWallets amount ∧
        db' = (db.setWallet userID walletType w').addTransaction
          ⟨userID, walletType, .debit, amount, .pending⟩ := by
  simp only [freezeAmountByType, returns_bind, returns_rules,
    returns_validateWalletType, returns_wrap, returns_updateWallet]
  constructor
  · rintro ⟨_, _, ⟨hrules, rfl⟩, _, _, ⟨hactive, rfl⟩, row, _, hrow, h⟩
    refine ⟨hrules, hactive, ?_⟩
    rcases hrow with
      ⟨rfl, rfl, -⟩ | ⟨w, w', hw, hcond, hbalance, hfrozen, rfl, rfl⟩
    · simp at h
    · simp only [returns_bind, returns_wrap, returns_insertTransaction,
        returns_journal, returns_pure] at h
      obtain ⟨_, _, ⟨hfits, -, rfl, rfl⟩, _, _, ⟨haccepts, rfl⟩, rfl, rfl⟩ := h
      exact ⟨w, w', hw, hcond, hbalance, hfrozen, hfits, rfl, haccepts, rfl⟩
  · rintro ⟨hrules, hactive, w, w', hw, hcond, hbalance, hfrozen, hfits, rfl, haccepts, rfl⟩
    refine ⟨(), db, ⟨hrules, rfl⟩, (), db, ⟨hactive, rfl⟩, some w', _,
      .inr ⟨w, w', hw, hcond, hbalance, hfrozen, rfl, rfl⟩, ?_⟩
    simp only [returns_bind, returns_wrap, returns_insertTransaction, returns_journal, returns_pure]
    refine ⟨_, _, ⟨hfits, ?_, rfl, rfl⟩, (), _, ⟨haccepts, rfl⟩, rfl, rfl⟩
    simp [setWallet]

/-- A settlement takes the amount from what is frozen; only a pending transaction
changes its status. -/
theorem returns_settleTransaction {operation debitAccount : String} {status : TransactionStatus}
    {credit : ℚ} {id : ℕ} :
    (settleTransaction s operation status debitAccount credit userID walletType
      amount id).Returns db u db' ↔
      ∃ w w', db.wallets.lookup (userID, walletType) = some w ∧
        amount ≤ w.frozen ∧ w'.balance = w.balance + credit ∧
        w'.frozen = w.frozen - amount ∧
        Accepts s db debitAccount accCodeFrozenFunds amount ∧
        db' = { db.setWallet userID walletType w' with
          walletTransactions := db.walletTransactions.modify id (.settle status) } := by
  simp only [settleTransaction, returns_bind, returns_wrap, returns_updateWallet]
  constructor
  · rintro ⟨row, _, hrow, h⟩
    rcases hrow with
      ⟨rfl, rfl, -⟩ | ⟨w, w', hw, hcond, hbalance, hfrozen, rfl, rfl⟩
    · simp at h
    · simp only [returns_bind, returns_updateStatus, returns_journal] at h
      obtain ⟨_, _, rfl, haccepts, rfl⟩ := h
      exact ⟨w, w', hw, hcond, hbalance, hfrozen, haccepts, rfl⟩
  · rintro ⟨w, w', hw, hcond, hbalance, hfrozen, haccepts, rfl⟩
    refine ⟨some w', _, .inr ⟨w, w', hw, hcond, hbalance, hfrozen, rfl, rfl⟩, ?_⟩
    simp only [returns_bind, returns_updateStatus, returns_journal]
    exact ⟨(), _, rfl, haccepts, rfl⟩

theorem returns_checkMaximum {info : WalletTypeInfo} (hactive : db.Active walletType)
    (h : (checkMaximum userID walletType amount info).Returns db u db') :
    db' = db ∨ db.wallets.lookup (userID, walletType) = none ∧
      db' = db.setWallet userID walletType .empty := by
  rw [checkMaximum] at h
  split at h
  · exact .inl (returns_pure.mp h).2
  · simp only [returns_bind, returns_require] at h
    obtain ⟨_, _, hattempt, -, rfl⟩ := h
    have hbalance := returns_getWalletBalanceByType.mpr
      ⟨hactive, (rfl : db.balance userID walletType - _ = _), rfl⟩
    rw [Program.Returns, hbalance.attempt] at hattempt
    grind

theorem returns_depositWallet :
    (depositWallet userID walletType amount).Returns db u db' ↔
      ∃ w', w'.balance = db.balance userID walletType + amount ∧
        w'.frozen = db.frozen userID walletType ∧
        db' = db.setWallet userID walletType w' := by
  simp only [depositWallet, returns_bind, returns_tables]
  constructor
  · rintro ⟨_, _, ⟨rfl, rfl⟩, h⟩
    split at h
    · rename_i hnone
      simp only [returns_bind, returns_insertWallet, returns_pure] at h
      obtain ⟨w', _, ⟨-, hbalance, hfrozen, rfl⟩, -, rfl⟩ := h
      refine ⟨w', ?_, ?_, rfl⟩
      · rw [hbalance, balance_of_none hnone, zero_add]
      · rw [hfrozen, frozen_of_none hnone]
    · rename_i w hw
      simp only [returns_bind, returns_updateWallet, returns_pure] at h
      obtain ⟨_, _, hrow, -, rfl⟩ := h
      rcases hrow with
        ⟨-, -, hnot⟩ | ⟨v, w', hv, -, hbalance, hfrozen, -, rfl⟩
      · exact absurd trivial (hnot w hw)
      · refine ⟨w', ?_, ?_, rfl⟩
        · rw [hbalance, balance_of_lookup hv]
        · rw [hfrozen, frozen_of_lookup hv]
  · rintro ⟨w', hbalance, hfrozen, rfl⟩
    refine ⟨db, db, ⟨rfl, rfl⟩, ?_⟩
    split
    · rename_i hnone
      simp only [returns_bind, returns_insertWallet, returns_pure]
      rw [balance_of_none hnone, zero_add] at hbalance
      rw [frozen_of_none hnone] at hfrozen
      exact ⟨w', _, ⟨hnone, hbalance, hfrozen, rfl⟩, trivial, rfl⟩
    · rename_i w hw
      simp only [returns_bind, returns_updateWallet, returns_pure]
      rw [balance_of_lookup hw] at hbalance
      rw [frozen_of_lookup hw] at hfrozen
      exact ⟨some w', _, .inr ⟨w, w', hw, trivial, hbalance, hfrozen, rfl, rfl⟩, trivial, rfl⟩

theorem returns_creditWallet : (creditWallet s userID walletType amount).Returns db u db' ↔
      ∃ w', w'.balance = db.balance userID walletType + amount ∧
        w'.frozen = db.frozen userID walletType ∧ Fits amount ∧
        Accepts s db accCodeUserWallets accCodeCompanyCash amount ∧
        db' = (db.setWallet userID walletType w').addTransaction
          ⟨userID, walletType, .credit, amount, .completed⟩ := by
  simp only [creditWallet, returns_bind, returns_tables, returns_depositWallet,
    returns_wrap, returns_insertTransaction, returns_journal]
  constructor
  · rintro ⟨_, _, ⟨rfl, rfl⟩, _, _, ⟨w', hbalance, hfrozen, rfl⟩, _, _,
      ⟨hfits, -, rfl, rfl⟩, haccepts, rfl⟩
    exact ⟨w', hbalance, hfrozen, hfits, haccepts, rfl⟩
  · rintro ⟨w', hbalance, hfrozen, hfits, haccepts, rfl⟩
    refine ⟨db, db, ⟨rfl, rfl⟩, (), _, ⟨w', hbalance, hfrozen, rfl⟩, _, _,
      ⟨hfits, ?_, rfl, rfl⟩, haccepts, rfl⟩
    rw [lookup_setWallet_same]
    rfl

theorem returns_addWalletBalanceByType
    (h : (addWalletBalanceByType s userID walletType amount).Returns db u db') :
    ∃ w', w'.balance = db.balance userID walletType + amount ∧
      w'.frozen = db.frozen userID walletType ∧
      db' = (db.setWallet userID walletType w').addTransaction
        ⟨userID, walletType, .credit, amount, .completed⟩ := by
  simp only [addWalletBalanceByType, returns_bind, returns_require,
    returns_validateWalletType, getWalletTypeInfo, returns_tables, returns_found,
    returns_rules, returns_transaction, returns_creditWallet] at h
  obtain ⟨_, _, ⟨-, rfl⟩, _, _, ⟨hactive, rfl⟩, _, _, ⟨_, _, ⟨rfl, rfl⟩, -, rfl⟩,
    _, _, ⟨-, rfl⟩, _, _, hmaximum, w', hbalance, hfrozen, -, -, rfl⟩ := h
  rcases returns_checkMaximum hactive hmaximum with rfl | ⟨hnone, rfl⟩
  · exact ⟨w', hbalance, hfrozen, rfl⟩
  · refine ⟨w', ?_, ?_, ?_⟩
    · rw [hbalance, balance_setWallet_same, balance_of_none hnone]
      rfl
    · rw [hfrozen, frozen_setWallet_same, frozen_of_none hnone]
      rfl
    · rw [setWallet_setWallet]

theorem Wallet.fits_of_available (w : Wallet) (hpos : 0 < amount)
    (h : amount ≤ w.balance - w.frozen) : Fits amount := by
  have hbalance := w.check.fits
  rw [Fits, abs_of_nonneg w.check.balance_nonneg] at hbalance
  rw [Fits, abs_of_pos hpos]
  linarith [w.check.frozen_nonneg]

theorem row_of_available (hpos : 0 < amount)
    (h : amount ≤ db.balance userID walletType - db.frozen userID walletType) :
    db.wallets.lookup (userID, walletType) ≠ none := by
  grind [balance_of_none, frozen_of_none]

variable {fromWalletType toWalletType : String}

def Moves (s : WalletService) (userID fromWalletType toWalletType : String) (amount : ℚ)
    (db db' : Tables) : Prop :=
  ∃ w w' v', db.wallets.lookup (userID, fromWalletType) = some w ∧ amount ≤ w.balance - w.frozen ∧
    w'.balance = w.balance - amount ∧ w'.frozen = w.frozen ∧
    v'.balance = db.balance userID toWalletType + amount ∧
    v'.frozen = db.frozen userID toWalletType ∧
    Accepts s db accCodeUserWallets accCodeUserWallets amount ∧
    db' = (((db.setWallet userID fromWalletType w').setWallet userID toWalletType v').addTransaction
        ⟨userID, fromWalletType, .debit, amount, .completed⟩).addTransaction
        ⟨userID, toWalletType, .credit, amount, .completed⟩

/-- The transaction of a transfer. The row proposed for the destination meets the
constraints because the source had the amount. -/
theorem returns_moveBetweenWallets (hpos : 0 < amount) (hne : fromWalletType ≠ toWalletType) :
    (moveBetweenWallets s userID fromWalletType toWalletType amount).Returns db u db' ↔
      Moves s userID fromWalletType toWalletType amount db db' := by
  have hkey : (userID, toWalletType) ≠ (userID, fromWalletType) := by simpa using hne.symm
  simp only [moveBetweenWallets, returns_bind, returns_wrap, returns_updateWallet]
  constructor
  · rintro ⟨row, _, hrow, h⟩
    rcases hrow with
      ⟨rfl, rfl, -⟩ | ⟨w, w', hw, hcond, hbalance, hfrozen, rfl, rfl⟩
    · simp at h
    · simp only [upsertWallet, returns_bind, returns_wrap, returns_require,
        returns_depositWallet, returns_insertTransaction, returns_journal] at h
      obtain ⟨_, _, ⟨_, _, ⟨-, rfl⟩, v', hvbalance, hvfrozen, rfl⟩, _, _,
        ⟨-, -, -, rfl⟩, _, _, ⟨-, -, -, rfl⟩, haccepts, rfl⟩ := h
      rw [balance_setWallet_ne hkey] at hvbalance
      rw [frozen_setWallet_ne hkey] at hvfrozen
      exact ⟨w, w', v', hw, hcond, hbalance, hfrozen, hvbalance, hvfrozen, haccepts, rfl⟩
  · rintro ⟨w, w', v', hw, hcond, hbalance, hfrozen, hvbalance, hvfrozen, haccepts, rfl⟩
    have hfits : Fits amount := w.fits_of_available hpos hcond
    refine ⟨some w', _, .inr ⟨w, w', hw, hcond, hbalance, hfrozen, rfl, rfl⟩, ?_⟩
    simp only [upsertWallet, returns_bind, returns_wrap, returns_require,
      returns_depositWallet, returns_insertTransaction, returns_journal]
    refine ⟨(), _, ⟨(), _, ⟨⟨hpos.le, le_rfl, hpos.le, hfits⟩, rfl⟩, v', ?_, ?_,
      rfl⟩, _, _, ⟨hfits, ?_, rfl, rfl⟩, _, _, ⟨hfits, ?_, rfl, rfl⟩, haccepts,
      rfl⟩
    · rw [balance_setWallet_ne hkey, hvbalance]
    · rw [frozen_setWallet_ne hkey, hvfrozen]
    · grind [lookup_setWallet_ne, lookup_setWallet_same]
    · change ((setWallet _ _ _ _).wallets.lookup _).isSome = true
      rw [lookup_setWallet_same]
      rfl

theorem returns_transferBetweenWallets :
    (transferBetweenWallets s userID fromWalletType toWalletType amount).Returns db u db' ↔
      0 < amount ∧ fromWalletType ≠ toWalletType ∧
      db.Active fromWalletType ∧ db.Active toWalletType ∧
      (∀ rules, s.ruleService = some rules → rules.validateTransfer db userID
        fromWalletType toWalletType amount = .ok ()) ∧
      Moves s userID fromWalletType toWalletType amount db db' := by
  simp only [transferBetweenWallets, returns_bind, returns_require, returns_wrap,
    returns_validateWalletType, returns_rules, returns_getWalletBalanceByType,
    returns_transaction]
  constructor
  · rintro ⟨_, _, ⟨hpos, rfl⟩, _, _, ⟨hne, rfl⟩, _, _, ⟨hfrom, rfl⟩, _, _,
      ⟨hto, rfl⟩, _, _, ⟨hrules, rfl⟩, _, _, ⟨-, rfl, rfl⟩, _, _,
      ⟨havailable, rfl⟩, h⟩
    rw [if_neg (row_of_available hpos havailable)] at h
    exact ⟨hpos, hne, hfrom, hto, hrules, (returns_moveBetweenWallets hpos hne).mp h⟩
  · rintro ⟨hpos, hne, hfrom, hto, hrules, h⟩
    have havailable : amount ≤ db.balance userID fromWalletType -
        db.frozen userID fromWalletType := by
      obtain ⟨w, -, -, hw, hle, -⟩ := h
      rwa [balance_of_lookup hw, frozen_of_lookup hw]
    refine ⟨(), db, ⟨hpos, rfl⟩, (), db, ⟨hne, rfl⟩, (), db, ⟨hfrom, rfl⟩, (), db,
      ⟨hto, rfl⟩, (), db, ⟨hrules, rfl⟩, _, _, ⟨hfrom, rfl, rfl⟩, (), _,
      ⟨havailable, rfl⟩, ?_⟩
    rw [if_neg (row_of_available hpos havailable)]
    exact (returns_moveBetweenWallets hpos hne).mpr h

end Returns

end Fluxor.PostgresDemo
