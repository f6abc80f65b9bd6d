import Mathlib.Tactic.Ring
import Fluxor.PostgresDemo.WalletService
import Fluxor.Support.Transition

/-!
# Accounting for the money in the wallets

Sequences of successful calls of the wallet service. `Writes` says what a
successful call writes; everything else is proved from it.
-/

namespace Fluxor.PostgresDemo

open Database Database.Program Transition List WalletTransaction

inductive Call
  | add (userID walletType : String) (amount : ℚ)
  | freeze (userID walletType : String) (amount : ℚ)
  | commit (userID walletType : String) (amount : ℚ) (transactionID : ℕ)
  | rollback (userID walletType : String) (amount : ℚ) (transactionID : ℕ)
  | transfer (userID fromWalletType toWalletType : String) (amount : ℚ)

def Call.program (s : WalletService) : Call → Program Tables Error Unit
  | .add userID walletType amount => addWalletBalanceByType s userID walletType amount
  | .freeze userID walletType amount => do
      let _ ← freezeAmountByType s userID walletType amount
      pure ()
  | .commit userID walletType amount transactionID =>
    commitTransactionByType s userID walletType amount transactionID
  | .rollback userID walletType amount transactionID =>
    rollbackTransactionByType s userID walletType amount transactionID
  | .transfer userID fromWalletType toWalletType amount =>
    transferBetweenWallets s userID fromWalletType toWalletType amount

def succeed (s : WalletService) (db : Tables) (call : Call) : Option Tables :=
  match call.program s db with
  | (.ok _, db') => some db'
  | (.error _, _) => none

def Tables.settle (db : Tables) (transactionID : ℕ) (status : TransactionStatus) : Tables :=
  { db with walletTransactions := db.walletTransactions.modify transactionID (.settle status) }

inductive Writes (db : Tables) : Call → Tables → Prop
  | add {userID walletType : String} {amount : ℚ} {w : Wallet}
      (balance : w.balance = db.balance userID walletType + amount)
      (frozen : w.frozen = db.frozen userID walletType) :
      Writes db (.add userID walletType amount) ((db.setWallet userID walletType w).addTransaction
          ⟨userID, walletType, .credit, amount, .completed⟩)
  | freeze {userID walletType : String} {amount : ℚ} {w : Wallet}
      (balance : w.balance = db.balance userID walletType - amount)
      (frozen : w.frozen = db.frozen userID walletType + amount) :
      Writes db (.freeze userID walletType amount)
        ((db.setWallet userID walletType w).addTransaction
          ⟨userID, walletType, .debit, amount, .pending⟩)
  | commit {userID walletType : String} {amount : ℚ} {transactionID : ℕ}
      {w : Wallet} (balance : w.balance = db.balance userID walletType)
      (frozen : w.frozen = db.frozen userID walletType - amount) :
      Writes db (.commit userID walletType amount transactionID)
        ((db.setWallet userID walletType w).settle transactionID .completed)
  | rollback {userID walletType : String} {amount : ℚ} {transactionID : ℕ}
      {w : Wallet} (balance : w.balance = db.balance userID walletType + amount)
      (frozen : w.frozen = db.frozen userID walletType - amount) :
      Writes db (.rollback userID walletType amount transactionID)
        ((db.setWallet userID walletType w).settle transactionID .cancelled)
  | transfer {userID fromWalletType toWalletType : String} {amount : ℚ}
      {w v : Wallet} (differ : fromWalletType ≠ toWalletType)
      (balance : w.balance = db.balance userID fromWalletType - amount)
      (frozen : w.frozen = db.frozen userID fromWalletType)
      (balance' : v.balance = db.balance userID toWalletType + amount)
      (frozen' : v.frozen = db.frozen userID toWalletType) :
      Writes db (.transfer userID fromWalletType toWalletType amount)
        ((((db.setWallet userID fromWalletType w).setWallet userID toWalletType v).addTransaction
            ⟨userID, fromWalletType, .debit, amount, .completed⟩).addTransaction
            ⟨userID, toWalletType, .credit, amount, .completed⟩)

section Calls

variable {s : WalletService} {db db' : Tables} {call : Call} {calls : List Call}

theorem returns_of_succeed (h : succeed s db call = some db') :
    (call.program s).Returns db () db' := by
  rw [succeed] at h
  split at h
  next hcall =>
    cases h
    exact hcall
  · cases h

theorem writes_of_succeed (h : succeed s db call = some db') : Writes db call db' := by
  have hreturns := returns_of_succeed h
  cases call with
  | add =>
    obtain ⟨w, hbalance, hfrozen, rfl⟩ := returns_addWalletBalanceByType hreturns
    exact .add hbalance hfrozen
  | freeze =>
    simp only [Call.program, returns_bind, returns_freezeAmountByType, returns_pure] at hreturns
    obtain ⟨_, _, ⟨-, -, w, w', hw, -, hbalance, hfrozen, -, -, -, rfl⟩, -, rfl⟩ := hreturns
    rw [← balance_of_lookup hw] at hbalance
    rw [← frozen_of_lookup hw] at hfrozen
    exact .freeze hbalance hfrozen
  | commit =>
    obtain ⟨w, w', hw, -, hbalance, hfrozen, -, rfl⟩ := returns_settleTransaction.mp hreturns
    rw [← balance_of_lookup hw, add_zero] at hbalance
    rw [← frozen_of_lookup hw] at hfrozen
    exact .commit hbalance hfrozen
  | rollback =>
    obtain ⟨w, w', hw, -, hbalance, hfrozen, -, rfl⟩ := returns_settleTransaction.mp hreturns
    rw [← balance_of_lookup hw] at hbalance
    rw [← frozen_of_lookup hw] at hfrozen
    exact .rollback hbalance hfrozen
  | transfer =>
    obtain ⟨-, hne, -, -, -, w, w', v', hw, -, hbalance, hfrozen, hbalance',
      hfrozen', -, rfl⟩ := returns_transferBetweenWallets.mp hreturns
    rw [← balance_of_lookup hw] at hbalance
    rw [← frozen_of_lookup hw] at hfrozen
    exact .transfer hne hbalance hfrozen hbalance' hfrozen'

/-! ## The money in all wallets -/

/-- The sum of `balance + frozen` over all wallets. -/
def Tables.held (db : Tables) : ℚ := total (fun w : Wallet => w.balance + w.frozen) db.wallets

def Call.added : Call → ℚ
  | .add _ _ amount => amount
  | _ => 0

def Call.committed : Call → ℚ
  | .commit _ _ amount _ => amount
  | _ => 0

def Tables.Fresh (db : Tables) : Prop := db.wallets = ∅ ∧ db.walletTransactions = []

theorem held_setWallet {userID walletType : String} {w : Wallet} :
    (db.setWallet userID walletType w).held =
      db.held - (db.balance userID walletType + db.frozen userID walletType) +
        (w.balance + w.frozen) := by
  rw [Tables.held, Tables.setWallet]
  cases hrow : db.wallets.lookup (userID, walletType) with
  | none => grind [total_insert_of_none, balance_of_none, frozen_of_none, Tables.held]
  | some =>
    rw [total_insert_of_some hrow, balance_of_lookup hrow, frozen_of_lookup hrow, Tables.held]

@[simp] theorem held_addTransaction {row : WalletTransaction} :
    (db.addTransaction row).held = db.held :=
  rfl

@[simp] theorem held_settle {id : ℕ} {status : TransactionStatus} :
    (db.settle id status).held = db.held :=
  rfl

theorem held_of_fresh (h : db.Fresh) : db.held = 0 := by
  rw [Tables.held, h.1]
  exact sum_nil

theorem Writes.held (h : Writes db call db') :
    db'.held = db.held + call.added - call.committed := by
  cases h with
  | add hbalance hfrozen =>
    rw [held_addTransaction, held_setWallet, hbalance, hfrozen]
    simp only [Call.added, Call.committed]
    ring
  | freeze hbalance hfrozen =>
    rw [held_addTransaction, held_setWallet, hbalance, hfrozen]
    simp only [Call.added, Call.committed]
    ring
  | commit hbalance hfrozen =>
    rw [held_settle, held_setWallet, hbalance, hfrozen]
    simp only [Call.added, Call.committed]
    ring
  | rollback hbalance hfrozen =>
    rw [held_settle, held_setWallet, hbalance, hfrozen]
    simp only [Call.added, Call.committed]
    ring
  | @transfer userID fromWalletType toWalletType _ _ _ hne hbalance hfrozen hbalance' hfrozen' =>
      have hkey : (userID, toWalletType) ≠ (userID, fromWalletType) := by
        simpa using hne.symm
      rw [held_addTransaction, held_addTransaction, held_setWallet,
        balance_setWallet_ne hkey, frozen_setWallet_ne hkey, held_setWallet,
        hbalance, hfrozen, hbalance', hfrozen']
      simp only [Call.added, Call.committed]
      ring

/-- Any sequence of successful calls conserves the money: what is held has been
added and not been committed, and no column is negative. -/
theorem wallets_conserve_money (hfresh : db.Fresh) (hrun : Run (succeed s) anyStep db calls db') :
    db'.held = (calls.map Call.added).sum - (calls.map Call.committed).sum ∧
      ∀ key w, db'.wallets.lookup key = some w → 0 ≤ w.balance ∧ 0 ≤ w.frozen := by
  constructor
  · induction hrun with
    | nil =>
      rw [held_of_fresh hfresh]
      simp
    | snoc _ _ hnext ih =>
      rw [(writes_of_succeed hnext).held, ih]
      simp only [map_append, sum_append, map_cons, map_nil,
        sum_cons, sum_nil]
      ring
  · intro key w _
    exact ⟨w.check.balance_nonneg, w.check.frozen_nonneg⟩

end Calls

def shop : Tables :=
  { walletTypes := ((∅ : AList fun _ : String => WalletTypeInfo).insert "primary"
      { isActive := true }).insert "savings" { isActive := true } }

theorem check_hundred : Wallet.Check 100 0 := by
  decide +kernel

theorem wallets_conserve_money_shop : shop.Fresh ∧ ∃ db', Run (succeed {}) anyStep shop
      [.add "ann" "primary" 100, .freeze "ann" "primary" 30,
        .transfer "ann" "primary" "savings" 20, .commit "ann" "primary" 30 1] db' ∧
      db'.held = 70 := by
  refine ⟨⟨rfl, rfl⟩, exists_run_of _ (fun _ => True) (by decide +kernel) ?_⟩
  intro db' hrun _
  rw [(wallets_conserve_money ⟨rfl, rfl⟩ hrun).1]
  decide +kernel

/-! ## What is frozen -/

section Frozen

variable {s : WalletService} {db db' : Tables} {call : Call} {calls : List Call}
  {userID walletType : String}

def WalletTransaction.PendingOf (userID walletType : String) (row : WalletTransaction) : Prop :=
  row.userID = userID ∧ row.walletType = walletType ∧ row.status = .pending

instance : DecidablePred (WalletTransaction.PendingOf userID walletType) :=
  fun _ => inferInstanceAs (Decidable (_ ∧ _))

/-- The sum that `GetPendingInfoByType` compares with what is frozen. -/
def Tables.pendingSum (db : Tables) (userID walletType : String) : ℚ :=
  ((db.walletTransactions.filter (·.PendingOf userID walletType)).map (·.amount)).sum

def Tables.Accounted (db : Tables) : Prop :=
  ∀ userID walletType, db.frozen userID walletType = db.pendingSum userID walletType

def WalletTransaction.pendingAmount (userID walletType : String) (row : WalletTransaction) : ℚ :=
  if row.PendingOf userID walletType then row.amount else 0

theorem pendingSum_eq : db.pendingSum userID walletType = (db.walletTransactions.map
      (pendingAmount userID walletType)).sum := by
  rw [Tables.pendingSum]
  induction db.walletTransactions with
  | nil => rfl
  | cons => grind [pendingAmount]

variable {row : WalletTransaction}

theorem pendingSum_addTransaction :
    (db.addTransaction row).pendingSum userID walletType = db.pendingSum userID walletType +
        row.pendingAmount userID walletType := by
  grind [pendingSum_eq, Tables.addTransaction]

variable {rows : List WalletTransaction} {id : ℕ}

theorem sum_map_modify {f : WalletTransaction → WalletTransaction} {g : WalletTransaction → ℚ}
    (h : rows[id]? = some row) :
    ((rows.modify id f).map g).sum = (rows.map g).sum - g row + g (f row) := by
  induction rows generalizing id with
  | nil => cases h
  | cons => grind

variable {status : TransactionStatus}

theorem pendingAmount_settle (hstatus : status ≠ .pending) :
    (row.settle status).pendingAmount userID walletType = 0 := by
  rw [pendingAmount, if_neg]
  rintro ⟨-, -, h⟩
  grind [settle]

theorem pendingSum_settle (h : db.walletTransactions[id]? = some row)
    (hstatus : status ≠ .pending) :
    (db.settle id status).pendingSum userID walletType = db.pendingSum userID walletType -
        row.pendingAmount userID walletType := by
  grind [pendingSum_eq, Tables.settle, sum_map_modify, pendingAmount_settle]

def Tables.HasTransaction (db : Tables) (id : ℕ) (P : WalletTransaction → Prop) : Prop :=
  ∃ row, db.walletTransactions[id]? = some row ∧ P row

instance {id : ℕ} {P : WalletTransaction → Prop} [DecidablePred P] :
    Decidable (db.HasTransaction id P) :=
  match h : db.walletTransactions[id]? with
  | none => isFalse fun ⟨_, hrow, _⟩ => nomatch h.symm.trans hrow
  | some row => decidable_of_iff (P row) ⟨fun hP => ⟨row, h, hP⟩, fun ⟨_, hrow, hP⟩ =>
        Option.some.inj (h.symm.trans hrow) ▸ hP⟩

def Call.Names (db : Tables) : Call → Prop
  | .commit userID walletType amount id | .rollback userID walletType amount id =>
    db.HasTransaction id fun row =>
      row.userID = userID ∧ row.walletType = walletType ∧ row.amount = amount
  | _ => True

/-- A settlement is of a pending transaction, or of no money at all. -/
def Call.Open (db : Tables) : Call → Prop
  | .commit _ _ amount id | .rollback _ _ amount id =>
    amount = 0 ∨ db.HasTransaction id (·.status = .pending)
  | _ => True

instance : Decidable (call.Names db) := by
  delta Call.Names
  cases call <;> infer_instance

instance : Decidable (call.Open db) := by
  delta Call.Open
  cases call <;> infer_instance

def Call.settles (id : ℕ) : Call → Bool
  | .commit _ _ amount transactionID | .rollback _ _ amount transactionID =>
    decide (transactionID = id ∧ amount ≠ 0)
  | _ => false

variable {w : Wallet} {user : String}

theorem frozen_setWallet {type : String} : (db.setWallet userID walletType w).frozen user type =
      if (user, type) = (userID, walletType) then w.frozen else db.frozen user type := by
  grind [frozen_setWallet_same, frozen_setWallet_ne]

theorem accounted_of_eq (hacc : db.Accounted)
    (hfrozen : ∀ user type, db'.frozen user type = db.frozen user type)
    (hpending : ∀ user type, db'.pendingSum user type = db.pendingSum user type) :
    db'.Accounted := by
  intro user type
  rw [hfrozen, hpending, hacc]

variable {type : TransactionType} {amount : ℚ}

theorem pendingAmount_completed {userType : String} : pendingAmount user userType
      ⟨userID, walletType, type, amount, .completed⟩ = 0 :=
  if_neg fun h => nomatch h.2.2

theorem pendingAmount_pending {userType : String} :
    pendingAmount user userType ⟨userID, walletType, type, amount, .pending⟩ =
        if (user, userType) = (userID, walletType) then amount else 0 := by
  grind [pendingAmount, PendingOf]

theorem accounted_freeze (hacc : db.Accounted)
    (hfrozen : w.frozen = db.frozen userID walletType + amount) :
    ((db.setWallet userID walletType w).addTransaction
      ⟨userID, walletType, .debit, amount, .pending⟩).Accounted := by
  intro user type
  rw [pendingSum_addTransaction, pendingAmount_pending]
  change (db.setWallet userID walletType w).frozen user type = db.pendingSum user type + _
  rw [frozen_setWallet]
  split
  next hkey =>
    obtain ⟨rfl, rfl⟩ := Prod.mk.inj hkey
    rw [hfrozen, hacc]
  · rw [hacc, add_zero]

theorem accounted_settle_iff (hacc : db.Accounted) (hnames : db.HasTransaction id fun row =>
      row.userID = userID ∧ row.walletType = walletType ∧ row.amount = amount)
    (hstatus : status ≠ .pending) (hfrozen : w.frozen = db.frozen userID walletType - amount) :
    ((db.setWallet userID walletType w).settle id status).Accounted ↔
      amount = 0 ∨ db.HasTransaction id (·.status = .pending) := by
  obtain ⟨row, hrow, rfl, rfl, rfl⟩ := hnames
  have hpending : db.HasTransaction id (·.status = .pending) ↔ row.status = .pending := by
    simp [Tables.HasTransaction, hrow]
  have hsum : ∀ user type, ((db.setWallet row.userID row.walletType w).settle id status).pendingSum
        user type = db.pendingSum user type - row.pendingAmount user type :=
    fun _ _ => @pendingSum_settle (db.setWallet _ _ w) _ _ _ _ _ hrow hstatus
  have hcolumn : ∀ user type,
      ((db.setWallet row.userID row.walletType w).settle id status).frozen user
        type = if (user, type) = (row.userID, row.walletType)
          then db.frozen row.userID row.walletType - row.amount
          else db.frozen user type := by
    intro user type
    rw [← hfrozen, ← frozen_setWallet]
    rfl
  rw [hpending]
  constructor
  · intro h
    have hown := h row.userID row.walletType
    rw [hsum, hcolumn, if_pos rfl, hacc, pendingAmount] at hown
    by_cases hstatus' : row.status = .pending
    · exact .inr hstatus'
    · rw [if_neg fun hof => hstatus' hof.2.2] at hown
      exact .inl (by linarith)
  · intro h user type
    rw [hsum, hcolumn]
    split
    next hkey =>
      obtain ⟨rfl, rfl⟩ := Prod.mk.inj hkey
      rw [hacc, pendingAmount]
      by_cases hstatus' : row.status = .pending
      · rw [if_pos ⟨rfl, rfl, hstatus'⟩]
      · rw [h.resolve_right hstatus', ite_self]
    next hkey =>
      rw [hacc, pendingAmount, if_neg, sub_zero]
      rintro ⟨rfl, rfl, -⟩
      exact hkey rfl

theorem Writes.accounted_iff (h : Writes db call db') (hacc : db.Accounted)
    (hnames : call.Names db) : db'.Accounted ↔ call.Open db := by
  cases h with
  | add =>
    refine iff_of_true (accounted_of_eq hacc ?_ ?_) trivial
    · intro user type
      change (db.setWallet _ _ _).frozen user type = _
      grind [frozen_setWallet]
    · intro user type
      rw [pendingSum_addTransaction, pendingAmount_completed, add_zero]
      rfl
  | freeze hbalance hfrozen => exact iff_of_true (accounted_freeze hacc hfrozen) trivial
  | commit _ hfrozen | rollback _ hfrozen =>
    exact accounted_settle_iff hacc hnames (by decide) hfrozen
  | @transfer userID fromWalletType toWalletType _ w v hne hbalance hfrozen hbalance' hfrozen' =>
      refine iff_of_true (accounted_of_eq hacc ?_ ?_) trivial
      · intro user type
        change ((db.setWallet _ _ w).setWallet _ _ v).frozen user type = _
        grind [frozen_setWallet]
      · intro user type
        rw [pendingSum_addTransaction, pendingSum_addTransaction,
          pendingAmount_completed, pendingAmount_completed, add_zero, add_zero]
        rfl

/-! ## Settled once -/

def Tables.Closed (db : Tables) (id : ℕ) : Prop := db.HasTransaction id (·.status ≠ .pending)

variable {P : WalletTransaction → Prop}

theorem hasTransaction_append (h : db.HasTransaction id P)
    (hrows : db'.walletTransactions = db.walletTransactions ++ rows) : db'.HasTransaction id P := by
  obtain ⟨row, hrow, hP⟩ := h
  refine ⟨row, ?_, hP⟩
  grind

theorem status_settle_ne (hstatus : status ≠ .pending) : (row.settle status).status ≠ .pending := by
  grind [settle]

theorem closed_settle {id' : ℕ} (hstatus : status ≠ .pending) (h : db.Closed id) :
    (db.settle id' status).Closed id := by
  obtain ⟨row, hrow, hclosed⟩ := h
  by_cases hid : id' = id
  · refine ⟨row.settle status, ?_, status_settle_ne hstatus⟩
    simp [Tables.settle, hrow, hid]
  · refine ⟨row, ?_, hclosed⟩
    simp [Tables.settle, hrow, hid]

theorem Writes.closed (h : Writes db call db') (hclosed : db.Closed id) : db'.Closed id := by
  cases h with
  | add | freeze => exact hasTransaction_append hclosed rfl
  | commit | rollback => exact closed_settle (by decide) hclosed
  | transfer => exact hasTransaction_append hclosed (append_assoc _ _ _)

theorem closed_of_settle (hstatus : status ≠ .pending) (h : db.HasTransaction id P) :
    (db.settle id status).Closed id := by
  obtain ⟨row, hrow, -⟩ := h
  refine ⟨row.settle status, ?_, status_settle_ne hstatus⟩
  simp [Tables.settle, hrow]

theorem Writes.closes (h : Writes db call db') (hnames : call.Names db)
    (hsettles : call.settles id = true) : db'.Closed id := by
  cases h with
  | add | freeze | transfer => cases hsettles
  | commit | rollback =>
    obtain ⟨rfl, -⟩ := of_decide_eq_true hsettles
    exact closed_of_settle (by decide) hnames

theorem not_open_of_closed (hsettles : call.settles id = true) (hclosed : db.Closed id) :
    ¬call.Open db := by
  have hstatus : ¬db.HasTransaction id (·.status = .pending) := by
    rintro ⟨row, hrow, hpending⟩
    obtain ⟨row', hrow', hne⟩ := hclosed
    grind
  cases call with
  | add | freeze | transfer => cases hsettles
  | commit | rollback =>
    obtain ⟨rfl, hamount⟩ := of_decide_eq_true hsettles
    exact not_or.mpr ⟨hamount, hstatus⟩

def SettledOnce (calls : List Call) : Prop := ∀ id, calls.countP (·.settles id) ≤ 1

/-- A settlement that names its transaction and is of a pending one. -/
def Call.Proper (db : Tables) (call : Call) : Prop := call.Names db ∧ call.Open db

instance : Decidable (call.Proper db) := inferInstanceAs (Decidable (_ ∧ _))

theorem countP_settles_le_one
    (hrun : Run (succeed s) (fun db call => call.Proper db) db calls db') :
    calls.countP (·.settles id) ≤ 1 ∧ (calls.countP (·.settles id) ≠ 0 → db'.Closed id) := by
  induction hrun with
  | nil => simp
  | snoc _ hproper hnext ih =>
    have hwrites := writes_of_succeed hnext
    rw [countP_append, countP_singleton]
    split
    next hsettles =>
      have hzero := not_imp_comm.mp ih.2 fun hclosed =>
        not_open_of_closed hsettles hclosed hproper.2
      rw [hzero]
      exact ⟨le_rfl, fun _ => hwrites.closes hproper.1 hsettles⟩
    grind [Writes.closed]

theorem accounted_of_fresh (h : db.Fresh) : db.Accounted := by
  intro user type
  rw [Tables.frozen, h.1, Tables.pendingSum, h.2]
  rfl

/-- The calls succeed one after the other, and what is frozen is accounted for at
each point. -/
def AccountedThroughout (s : WalletService) (db : Tables) (calls : List Call)
    (db' : Tables) : Prop :=
  Run (succeed s) (fun db call => call.Names db ∧ db.Accounted) db calls db' ∧ db'.Accounted

theorem accountedThroughout_of_proper (hacc : db.Accounted)
    (hrun : Run (succeed s) (fun db call => call.Proper db) db calls db') :
    AccountedThroughout s db calls db' := by
  induction hrun with
  | nil => exact ⟨.nil _, hacc⟩
  | snoc _ hproper hnext ih =>
    obtain ⟨hthrough, hlast⟩ := ih
    have haccounted := (writes_of_succeed hnext).accounted_iff hlast hproper.1
    exact ⟨hthrough.snoc ⟨hproper.1, hlast⟩ hnext, haccounted.mpr hproper.2⟩

theorem proper_of_accountedThroughout (h : AccountedThroughout s db calls db') :
    Run (succeed s) (fun db call => call.Proper db) db calls db' := by
  obtain ⟨hrun, hlast⟩ := h
  induction hrun with
  | nil => exact .nil _
  | snoc _ hguard hnext ih =>
    have haccounted := (writes_of_succeed hnext).accounted_iff hguard.2 hguard.1
    exact (ih hguard.2).snoc ⟨hguard.1, haccounted.mp hlast⟩ hnext

/-- What is frozen is accounted for throughout a sequence of successful calls, and
every transaction settled once, exactly if each settlement is of a pending
transaction, or of no money. -/
theorem frozen_accounted_settled_once_iff (hfresh : db.Fresh) :
    AccountedThroughout s db calls db' ∧ SettledOnce calls ↔
      Run (succeed s) (fun db call => call.Proper db) db calls db' := by
  constructor
  · rintro ⟨hthrough, -⟩
    exact proper_of_accountedThroughout hthrough
  · intro hrun
    exact ⟨accountedThroughout_of_proper (accounted_of_fresh hfresh) hrun,
      fun _ => (countP_settles_le_one hrun).1⟩

end Frozen

def settledRun : List Call :=
  [.add "ann" "primary" 100, .freeze "ann" "primary" 10,
    .freeze "ann" "primary" 20, .commit "ann" "primary" 10 1,
    .rollback "ann" "primary" 20 2]

theorem frozen_accounted_settled_once_shop :
    ∃ db', AccountedThroughout {} shop settledRun db' ∧ SettledOnce settledRun := by
  obtain ⟨db', hrun, -⟩ := exists_run (succeed {})
    (fun db call => call.Proper db) shop settledRun (fun _ => True)
    (by decide +kernel)
  exact ⟨db', (frozen_accounted_settled_once_iff ⟨rfl, rfl⟩).mpr hrun⟩

def twiceCommitted : List Call :=
  [.add "ann" "primary" 100, .freeze "ann" "primary" 10,
    .freeze "ann" "primary" 10, .commit "ann" "primary" 10 1,
    .commit "ann" "primary" 10 1]

/-- The second commit takes the money of the other transaction, which stays pending. -/
theorem frozen_settled_twice : shop.Fresh ∧ ¬SettledOnce twiceCommitted ∧
      ∃ db', Run (succeed {}) (fun db call => call.Names db) shop twiceCommitted
        db' ∧ db'.frozen "ann" "primary" = 0 ∧
        db'.pendingSum "ann" "primary" = 10 := by
  refine ⟨⟨rfl, rfl⟩, ?_, ?_⟩
  · intro honce
    exact absurd (honce 1) (by decide +kernel)
  · exact exists_run _ _ _ _ _ (by decide +kernel)

end Fluxor.PostgresDemo
