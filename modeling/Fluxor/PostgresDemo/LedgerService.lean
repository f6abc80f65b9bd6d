import Mathlib.Algebra.Order.BigOperators.Group.List
import Fluxor.PostgresDemo.WalletService

/-!
# Reports and reversals of the ledger

`ledger_service.go` of `apps/postgres-demo`, with its journals and entries as
tables. The report of one account joins the entries with the posted journals; the
two reports of all accounts join them from the left, which drops no entry. A
reversal posts the mirrored journal and takes the reversed one out of the reports as
well.
-/

namespace Fluxor.PostgresDemo

open List

inductive AccountType
  | asset | liability | equity | revenue | expense
  deriving DecidableEq

def AccountType.isDebitNormal (type : AccountType) : Bool :=
  type = .asset || type = .expense

inductive JournalStatus
  | pending | posted | reversed
  deriving DecidableEq

structure Account where
  id : ℕ
  code : String
  type : AccountType
  deriving DecidableEq

structure LedgerEntry where
  (journalID accountID : ℕ)
  (debit credit : ℚ)

/-- The constraints of `ledger_entries`: one amount is positive and the other zero, and the
account and the journal exist. -/
def LedgerEntry.Valid (e : LedgerEntry) (accounts : List Account)
    (journals : List JournalStatus) : Prop :=
  (0 < e.debit ∧ e.credit = 0 ∨ e.debit = 0 ∧ 0 < e.credit) ∧
    (∃ a ∈ accounts, a.id = e.accountID) ∧ e.journalID < journals.length

instance (e : LedgerEntry) (accounts : List Account) (journals : List JournalStatus) :
    Decidable (e.Valid accounts journals) :=
  inferInstanceAs (Decidable (_ ∧ _ ∧ _))

/-- The tables of the ledger; journals are numbered in the order of their insertion. -/
structure Ledger where
  accounts : List Account
  journals : List JournalStatus := []
  entries : List LedgerEntry := []
  ids : (accounts.map Account.id).Nodup
  codes : (accounts.map Account.code).Nodup
  valid : ∀ e ∈ entries, e.Valid accounts journals

structure AccountBalance where
  account : Account
  (totalDebit totalCredit balance : ℚ)

def Account.balance (a : Account) (debit credit : ℚ) : AccountBalance :=
  ⟨a, debit, credit, if a.type.isDebitNormal then debit - credit else credit - debit⟩

namespace Ledger

variable (l : Ledger)

def posted (e : LedgerEntry) : Bool :=
  l.journals[e.journalID]? = some .posted

/-- `ledger_entries JOIN journals`: the entries of the account in posted journals. -/
def postedEntries (a : Account) : List LedgerEntry :=
  l.entries.filter fun e => e.accountID = a.id ∧ l.posted e = true

def getAccountBalance (code : String) : Option AccountBalance :=
  (l.accounts.find? (·.code = code)).map fun a =>
    a.balance ((l.postedEntries a).map (·.debit)).sum ((l.postedEntries a).map (·.credit)).sum

/-- `accounts LEFT JOIN ledger_entries LEFT JOIN journals`: the entries of the account, each
with its journal if that is posted. -/
def joined (a : Account) : List (LedgerEntry × Option ℕ) :=
  (l.entries.filter (·.accountID = a.id)).map fun e =>
    (e, if l.posted e then some e.journalID else none)

def getAllAccountBalances : List AccountBalance :=
  l.accounts.map fun a => a.balance ((l.joined a).map (·.1.debit)).sum
    ((l.joined a).map (·.1.credit)).sum

def getTrialBalance : List AccountBalance :=
  l.getAllAccountBalances.filter fun b => 0 < b.totalDebit ∨ 0 < b.totalCredit

def row (rows : List AccountBalance) (a : Account) : Option AccountBalance :=
  rows.find? (·.account = a)

variable {l} {a : Account}

theorem find?_code (ha : a ∈ l.accounts) : l.accounts.find? (·.code = a.code) = some a := by
  obtain ⟨l₁, l₂, heq⟩ := append_of_mem ha
  have hcodes := l.codes
  rw [heq] at hcodes ⊢
  rw [find?_append, find?_eq_none.mpr, Option.none_or, find?_cons_of_pos (by simp)]
  intro b hb
  simp only [map_append, map_cons, nodup_append] at hcodes
  simpa using hcodes.2.2 b.code (mem_map_of_mem hb) a.code (by simp)

theorem find?_self {accounts : List Account} (ha : a ∈ accounts) {p : Account → Bool}
    (hp : p a = true) : accounts.find? (fun b => decide (p b = true ∧ b = a)) = some a := by
  induction accounts with
  | nil => cases ha
  | cons b rest ih =>
    by_cases hb : b = a
    · rw [find?_cons_of_pos (by simp [hb, hp]), hb]
    · rw [find?_cons_of_neg (by simp [hb])]
      exact ih ((mem_cons.mp ha).resolve_left (Ne.symm hb))

theorem row_filter (ha : a ∈ l.accounts) {f : Account → AccountBalance}
    (hf : ∀ b, (f b).account = b) (p : AccountBalance → Bool) :
    row ((l.accounts.map f).filter p) a = if p (f a) then some (f a) else none := by
  rw [row, find?_filter, find?_map]
  simp only [Function.comp_def, hf, decide_eq_true_eq]
  split
  next hp =>
    rw [find?_self (p := fun b => p (f b)) ha hp]
    rfl
  next hp =>
    rw [find?_eq_none.mpr]
    · rfl
    · rintro b - hb
      obtain ⟨hpb, rfl⟩ := of_decide_eq_true hb
      exact hp hpb

theorem debit_nonneg {e : LedgerEntry} (he : e ∈ l.entries) : 0 ≤ e.debit := by
  obtain ⟨⟨hdebit, -⟩ | ⟨hdebit, -⟩, -⟩ := l.valid e he
  · exact hdebit.le
  · exact hdebit.ge

theorem credit_nonneg {e : LedgerEntry} (he : e ∈ l.entries) : 0 ≤ e.credit := by
  obtain ⟨⟨-, hcredit⟩ | ⟨-, hcredit⟩, -⟩ := l.valid e he
  · exact hcredit.ge
  · exact hcredit.le

/-- The entries of the account, posted or not. -/
def accountEntries (l : Ledger) (a : Account) : List LedgerEntry :=
  l.entries.filter (·.accountID = a.id)

theorem getAllAccountBalances_eq (l : Ledger) : l.getAllAccountBalances = l.accounts.map fun a =>
    a.balance ((l.accountEntries a).map (·.debit)).sum
      ((l.accountEntries a).map (·.credit)).sum := by
  simp [getAllAccountBalances, joined, accountEntries, Function.comp_def]

theorem getAccountBalance_code (ha : a ∈ l.accounts) : l.getAccountBalance a.code =
    some (a.balance ((l.postedEntries a).map (·.debit)).sum
      ((l.postedEntries a).map (·.credit)).sum) := by
  rw [getAccountBalance, find?_code ha, Option.map_some]

theorem postedEntries_eq (l : Ledger) (a : Account) :
    l.postedEntries a = (l.accountEntries a).filter (l.posted ·) := by
  rw [postedEntries, accountEntries, filter_filter]
  exact filter_congr fun e _ => by simp [Bool.and_comm]

theorem row_getAllAccountBalances (ha : a ∈ l.accounts) : row l.getAllAccountBalances a =
    some (a.balance ((l.accountEntries a).map (·.debit)).sum
      ((l.accountEntries a).map (·.credit)).sum) := by
  rw [getAllAccountBalances_eq]
  have hrow := row_filter ha (f := fun a => a.balance ((l.accountEntries a).map (·.debit)).sum
    ((l.accountEntries a).map (·.credit)).sum) (fun _ => rfl) fun _ => true
  rwa [filter_true] at hrow

/-- An account is missing from the trial balance only if both of its sums are zero. -/
theorem getD_row_getTrialBalance (ha : a ∈ l.accounts) :
    some ((row l.getTrialBalance a).getD (a.balance 0 0)) = row l.getAllAccountBalances a := by
  have hdebit : 0 ≤ ((l.accountEntries a).map (·.debit)).sum := by
    refine sum_nonneg fun q hq => ?_
    obtain ⟨e, he, rfl⟩ := mem_map.mp hq
    exact debit_nonneg (mem_of_mem_filter he)
  have hcredit : 0 ≤ ((l.accountEntries a).map (·.credit)).sum := by
    refine sum_nonneg fun q hq => ?_
    obtain ⟨e, he, rfl⟩ := mem_map.mp hq
    exact credit_nonneg (mem_of_mem_filter he)
  rw [row_getAllAccountBalances ha, getTrialBalance, getAllAccountBalances_eq,
    row_filter ha fun _ => rfl]
  split
  · rfl
  next hzero =>
    obtain ⟨hd, hc⟩ := not_or.mp (mt decide_eq_true hzero)
    have hd : ((l.accountEntries a).map (·.debit)).sum = 0 := (not_lt.mp hd).antisymm hdebit
    have hc : ((l.accountEntries a).map (·.credit)).sum = 0 := (not_lt.mp hc).antisymm hcredit
    rw [Option.getD_none, hd, hc]

/-- Entries that are left out of a sum without changing it are zero. -/
theorem eq_zero_of_sum_filter {f : LedgerEntry → ℚ} {p : LedgerEntry → Bool}
    {es : List LedgerEntry} (hf : ∀ e ∈ es, 0 ≤ f e)
    (hsum : (es.map f).sum = ((es.filter p).map f).sum) : ∀ e ∈ es, p e = false → f e = 0 := by
  induction es with
  | nil => nofun
  | cons x rest ih =>
    have hrest : ∀ e ∈ rest, 0 ≤ f e := fun e he => hf e (mem_cons_of_mem x he)
    intro e he hp
    cases hx : p x with
    | true =>
      rw [filter_cons_of_pos hx, map_cons, map_cons, sum_cons, sum_cons] at hsum
      rcases mem_cons.mp he with rfl | he
      · cases hx.symm.trans hp
      · exact ih hrest (add_left_cancel hsum) e he hp
    | false =>
      rw [filter_cons_of_neg (by simp [hx]), map_cons, sum_cons] at hsum
      have hle : ((rest.filter p).map f).sum ≤ (rest.map f).sum := by
        refine (filter_sublist.map f).sum_le_sum fun q hq => ?_
        obtain ⟨e, he, rfl⟩ := mem_map.mp hq
        exact hrest e he
      have hzero : f x = 0 := by
        have hnonneg := hf x mem_cons_self
        linarith
      rcases mem_cons.mp he with rfl | he
      · exact hzero
      · rw [hzero, zero_add] at hsum
        exact ih hrest hsum e he hp

theorem eq_zero_of_sum {f : LedgerEntry → ℚ} {es : List LedgerEntry} (hf : ∀ e ∈ es, 0 ≤ f e)
    (hsum : (es.map f).sum = 0) : ∀ e ∈ es, f e = 0 :=
  fun _ he => all_zero_of_le_zero_le_of_sum_eq_zero (forall_mem_map.mpr hf) hsum (mem_map_of_mem he)

/-- The three reports agree about every account exactly if every entry is of a posted
journal. -/
theorem reports_agree_iff (l : Ledger) :
    (∀ a ∈ l.accounts, row l.getAllAccountBalances a = l.getAccountBalance a.code ∧
      some ((row l.getTrialBalance a).getD (a.balance 0 0)) = l.getAccountBalance a.code) ↔
    ∀ e ∈ l.entries, l.posted e = true := by
  constructor
  · intro hagree e he
    by_contra hposted
    obtain ⟨hamounts, ⟨a, ha, hid⟩, -⟩ := l.valid e he
    have hmem : e ∈ l.accountEntries a := mem_filter.mpr ⟨he, decide_eq_true hid.symm⟩
    have hrow := (hagree a ha).1
    rw [row_getAllAccountBalances ha, getAccountBalance_code ha, postedEntries_eq] at hrow
    have hbalance := Option.some.inj hrow
    have hp : l.posted e = false := Bool.eq_false_iff.mpr hposted
    have hdebit := eq_zero_of_sum_filter (fun e he => debit_nonneg (mem_of_mem_filter he))
      (congrArg AccountBalance.totalDebit hbalance) e hmem hp
    have hcredit := eq_zero_of_sum_filter (fun e he => credit_nonneg (mem_of_mem_filter he))
      (congrArg AccountBalance.totalCredit hbalance) e hmem hp
    rcases hamounts with ⟨hpos, -⟩ | ⟨-, hpos⟩
    · exact hpos.ne' hdebit
    · exact hpos.ne' hcredit
  · intro hposted a ha
    have hall : l.postedEntries a = l.accountEntries a := by
      rw [postedEntries_eq]
      exact filter_eq_self.mpr fun e he => hposted e (mem_of_mem_filter he)
    rw [getD_row_getTrialBalance ha, row_getAllAccountBalances ha, getAccountBalance_code ha, hall]
    exact ⟨rfl, rfl⟩

def sampleLedger (status : JournalStatus) : Ledger where
  accounts := [⟨1, "1100", .asset⟩, ⟨2, "1200", .asset⟩, ⟨3, "4100", .revenue⟩]
  journals := [status]
  entries := [⟨0, 1, 100, 0⟩, ⟨0, 2, 0, 100⟩]
  ids := by decide
  codes := by decide
  valid := by cases status <;> decide +kernel

/-- The entries of a pending journal are in one report and not in the other. -/
theorem reports_differ :
    (row (sampleLedger .pending).getAllAccountBalances ⟨1, "1100", .asset⟩).map (·.balance) =
        some 100 ∧
      ((sampleLedger .pending).getAccountBalance "1100").map (·.balance) = some 0 := by
  decide +kernel

inductive ReverseError
  | journalNotFound (journalID : ℕ)
  | notPosted (current : JournalStatus)
  | create (err : Error)

variable (l) in
def reverseEntries (j : ℕ) : List JournalEntryInput :=
  (l.entries.filter (·.journalID = j)).filterMap fun e =>
    (l.accounts.find? (·.id = e.accountID)).map fun a => ⟨a.code, e.credit, e.debit⟩

variable (l) in
def insertEntries (journalID : ℕ) (entries : List JournalEntryInput) : List LedgerEntry :=
  entries.filterMap fun e =>
    (l.accounts.find? (·.code = e.accountCode)).map fun a => ⟨journalID, a.id, e.debit, e.credit⟩

variable (l) in
def journalEntries (j : ℕ) (a : Account) : List LedgerEntry :=
  l.entries.filter fun e => e.accountID = a.id ∧ e.journalID = j

def mirror (journalID : ℕ) (e : LedgerEntry) : LedgerEntry :=
  ⟨journalID, e.accountID, e.credit, e.debit⟩

theorem find?_id (ha : a ∈ l.accounts) : l.accounts.find? (·.id = a.id) = some a := by
  obtain ⟨b, hb⟩ := Option.isSome_iff_exists.mp
    (find?_isSome.mpr ⟨a, ha, decide_eq_true rfl⟩ : (l.accounts.find? (·.id = a.id)).isSome)
  rw [hb, inj_on_of_nodup_map l.ids (mem_of_find?_eq_some hb) ha
    (by simpa using find?_some hb)]

theorem insertEntries_reverseEntries (k j : ℕ) :
    l.insertEntries k (l.reverseEntries j) = (l.entries.filter (·.journalID = j)).filterMap
      fun e => (l.accounts.find? (·.id = e.accountID)).map fun _ => mirror k e := by
  rw [insertEntries, reverseEntries, filterMap_filterMap]
  refine filterMap_congr fun e _ => ?_
  cases hb : l.accounts.find? (·.id = e.accountID) with
  | none => rfl
  | some b =>
    have hid : b.id = e.accountID := by simpa using find?_some hb
    simp [find?_code (mem_of_find?_eq_some hb), hid, mirror]

/-- The reversal keeps the constraints of the tables. -/
theorem valid_reversed (l : Ledger) (j : ℕ) :
    ∀ e ∈ l.entries ++ l.insertEntries l.journals.length (l.reverseEntries j),
      e.Valid l.accounts (l.journals.set j .reversed ++ [.posted]) := by
  intro e he
  rcases mem_append.mp he with he | he
  · obtain ⟨hamounts, haccount, hjournal⟩ := l.valid e he
    exact ⟨hamounts, haccount, by rw [length_append, length_set]; omega⟩
  · rw [insertEntries_reverseEntries] at he
    obtain ⟨e₀, he₀, he⟩ := mem_filterMap.mp he
    obtain ⟨b, -, rfl⟩ := Option.map_eq_some_iff.mp he
    obtain ⟨hamounts, haccount, -⟩ := l.valid e₀ (mem_of_mem_filter he₀)
    refine ⟨hamounts.symm.imp And.symm And.symm, haccount, ?_⟩
    rw [length_append, length_set]
    exact Nat.lt_succ_self _

variable (l) in
def reverseJournal (j : ℕ) : Except ReverseError Ledger :=
  match l.journals[j]? with
  | none => .error (.journalNotFound j)
  | some status =>
    if status ≠ .posted then .error (.notPosted status)
    else match createJournal (l.accounts.map (·.code)) (l.reverseEntries j) with
      | .error err => .error (.create err)
      | .ok () => .ok { l with
          journals := l.journals.set j .reversed ++ [.posted]
          entries := l.entries ++ l.insertEntries l.journals.length (l.reverseEntries j)
          valid := l.valid_reversed j }

theorem valid_without (l : Ledger) (j : ℕ) : ∀ e ∈ l.entries.filter (·.journalID ≠ j),
    e.Valid l.accounts l.journals :=
  fun e he => l.valid e (mem_of_mem_filter he)

variable (l) in
def without (j : ℕ) : Ledger :=
  { l with
    entries := l.entries.filter (·.journalID ≠ j)
    valid := l.valid_without j }

theorem filter_insertEntries (ha : a ∈ l.accounts) (k j : ℕ) :
    (l.insertEntries k (l.reverseEntries j)).filter (·.accountID = a.id) =
      (l.journalEntries j a).map (mirror k) := by
  rw [insertEntries_reverseEntries]
  have hrow : ∀ es : List LedgerEntry, (es.filterMap fun e =>
      (l.accounts.find? (·.id = e.accountID)).map fun _ => mirror k e).filter (·.accountID = a.id) =
      (es.filter (·.accountID = a.id)).map (mirror k) := by
    intro es
    induction es with
    | nil => rfl
    | cons e rest ih =>
      by_cases he : e.accountID = a.id
      · simp [he, find?_id ha, ← ih, mirror]
      · cases hb : l.accounts.find? (·.id = e.accountID) <;> simp [he, hb, ← ih, mirror]
  rw [hrow, filter_filter, journalEntries]
  simp

/-- After a reversal the mirrored entries count, and those of the journal do not. -/
theorem postedEntries_reverseJournal {l' : Ledger} {j : ℕ} (hok : l.reverseJournal j = .ok l')
    (ha : a ∈ l.accounts) : l'.accounts = l.accounts ∧ l'.postedEntries a =
      (l.without j).postedEntries a ++
        (l.journalEntries j a).map (mirror l.journals.length) := by
  obtain ⟨hl', hjournals, hentries⟩ : l'.accounts = l.accounts ∧
      l'.journals = l.journals.set j .reversed ++ [.posted] ∧
      l'.entries = l.entries ++ l.insertEntries l.journals.length (l.reverseEntries j) := by
    unfold reverseJournal at hok
    split at hok
    · cases hok
    · split at hok
      · cases hok
      · split at hok
        · cases hok
        · cases hok
          exact ⟨rfl, rfl, rfl⟩
  refine ⟨hl', ?_⟩
  have hold : l.entries.filter (fun e => e.accountID = a.id ∧ l'.posted e = true) =
      (l.without j).postedEntries a := by
    rw [postedEntries, without, filter_filter]
    refine filter_congr fun e he => ?_
    have hlt := (l.valid e he).2.2
    by_cases hj : e.journalID = j
    · simp [hjournals, posted, getElem?_append_left, hj ▸ hlt, hj]
    · simp [hjournals, posted, getElem?_append_left, hlt, hj, Ne.symm hj]
  have hnew : (l.insertEntries l.journals.length (l.reverseEntries j)).filter
      (fun e => e.accountID = a.id ∧ l'.posted e = true) =
      (l.insertEntries l.journals.length (l.reverseEntries j)).filter (·.accountID = a.id) := by
    refine filter_congr fun e he => ?_
    rw [insertEntries_reverseEntries] at he
    obtain ⟨e₀, -, he⟩ := mem_filterMap.mp he
    obtain ⟨b, -, rfl⟩ := Option.map_eq_some_iff.mp he
    exact decide_eq_decide.mpr (by simp [hjournals, posted, mirror])
  rw [← hold, ← filter_insertEntries ha, ← hnew, ← filter_append, postedEntries, hentries]

/-- After a reversal the report of an account is that of the ledger without the journal
exactly if the journal has no entry on the account, and its balance exactly if the
journal has the same sums of debits and credits there. -/
theorem reverseJournal_undoes_iff {l' : Ledger} {j : ℕ} (hok : l.reverseJournal j = .ok l')
    (ha : a ∈ l.accounts) :
    (l'.getAccountBalance a.code = (l.without j).getAccountBalance a.code ↔
      l.journalEntries j a = []) ∧
    ((l'.getAccountBalance a.code).map (·.balance) =
        ((l.without j).getAccountBalance a.code).map (·.balance) ↔
      ((l.journalEntries j a).map (·.debit)).sum =
        ((l.journalEntries j a).map (·.credit)).sum) := by
  obtain ⟨haccounts, hrows⟩ := postedEntries_reverseJournal hok ha
  have ha' : a ∈ l'.accounts := haccounts ▸ ha
  have ha'' : a ∈ (l.without j).accounts := ha
  rw [getAccountBalance_code ha', getAccountBalance_code ha'', hrows]
  simp only [map_append, sum_append, map_map, Function.comp_def, mirror]
  refine ⟨⟨fun heq => ?_, fun hnil => ?_⟩, ?_⟩
  · have hdebit := left_eq_add.mp (congrArg AccountBalance.totalDebit (Option.some.inj heq)).symm
    have hcredit := left_eq_add.mp (congrArg AccountBalance.totalCredit (Option.some.inj heq)).symm
    refine eq_nil_iff_forall_not_mem.mpr fun e he => ?_
    obtain ⟨hentry, -⟩ := mem_filter.mp he
    rcases (l.valid e hentry).1 with ⟨hpos, -⟩ | ⟨-, hpos⟩
    · exact hpos.ne' (eq_zero_of_sum (fun e he => debit_nonneg (mem_of_mem_filter he)) hcredit e he)
    · exact hpos.ne' (eq_zero_of_sum (fun e he => credit_nonneg (mem_of_mem_filter he)) hdebit e he)
  · simp [hnil]
  · simp only [Option.map_some, Account.balance, Option.some.injEq]
    split
    · constructor <;> intro h <;> linarith
    · constructor <;> intro h <;> linarith

theorem exists_ok {ε α : Type} {x : Except ε α} (h : x.toBool = true) : ∃ y, x = .ok y := by
  cases x with
  | error => cases h
  | ok y => exact ⟨y, rfl⟩

/-- The account 4100 is not touched by the journal. -/
theorem reverseJournal_undoes_untouched : ∃ l', (sampleLedger .posted).reverseJournal 0 = .ok l' ∧
    l'.getAccountBalance "4100" = ((sampleLedger .posted).without 0).getAccountBalance "4100" := by
  obtain ⟨l', hl'⟩ := exists_ok (x := (sampleLedger .posted).reverseJournal 0) (by decide +kernel)
  have hiff := (reverseJournal_undoes_iff (a := ⟨3, "4100", .revenue⟩) hl' (by decide)).1
  exact ⟨l', hl', hiff.mpr (by decide +kernel)⟩

theorem reverseJournal_overshoots :
    ((sampleLedger .posted).reverseJournal 0).toOption.map
        (fun l' => (l'.getAccountBalance "1100").map (·.balance)) = some (some (-100)) ∧
      (((sampleLedger .posted).without 0).getAccountBalance "1100").map (·.balance) =
        some 0 := by
  decide +kernel

end Ledger

end Fluxor.PostgresDemo
