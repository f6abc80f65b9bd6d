import Mathlib.Data.List.Induction
import Fluxor.PostgresDemo.Accounting

/-!
# Purchases

`MakePurchase` of `purchase_service.go`. A first loop reads the stock of every
line, a second one writes the stock that is left of what was read: of several
lines with one product the last one decides.
-/

namespace Fluxor.PostgresDemo

open Database Database.Program List Tables

structure PurchaseItem where
  (productID quantity : ℤ)

/-- An entry of `orderItems`: a line with what was read for it. -/
structure Line where
  (productID quantity : ℤ)
  (price subtotal : ℚ)
  stock : ℤ

/-- The body of the first loop, with the lines and the total so far. -/
def validateItem (acc : List Line × ℚ) (item : PurchaseItem) :
    Program Tables Error (List Line × ℚ) := do
  let db ← tables
  let product ← found (db.products.lookup item.productID) (.productNotFound item.productID)
  require (item.quantity ≤ product.stock)
    (.insufficientStock item.productID item.quantity product.stock)
  let subtotal := product.price * item.quantity
  pure (acc.1 ++ [⟨item.productID, item.quantity, product.price, subtotal,
    product.stock⟩], acc.2 + subtotal)

def insertOrder (userID : String) (total : ℚ) : Program Tables Error ℕ := do
  let db ← tables
  require (Fits total) .constraintViolation
  modify fun db => { db with orders := db.orders ++ [(userID, total)] }
  pure db.orders.length

/-- `INSERT INTO order_items`. The order and the product exist. -/
def insertOrderItem (row : OrderItem) : Program Tables Error Unit := do
  require (FitsInteger row.quantity ∧ Fits row.price ∧ Fits row.subtotal) .constraintViolation
  modify fun db => { db with orderItems := db.orderItems ++ [row] }

def withStock (products : AList fun _ : ℤ => Product) (productID stock : ℤ) :
    AList fun _ : ℤ => Product :=
  match products.lookup productID with
  | none => products
  | some product => products.insert productID { product with stock := stock }

def updateStock (productID stock : ℤ) : Program Tables Error Unit := do
  require (FitsInteger stock) .constraintViolation
  modify fun db => { db with products := withStock db.products productID stock }

/-- The body of the second loop. After an error the database transaction takes
everything back, also what `RollbackTransaction` did. -/
def sellLine (orderID : ℕ) (line : Line) : Program Tables Error Unit := do
  wrap "failed to create order item" (insertOrderItem
    ⟨orderID, line.productID, line.quantity, line.price, line.subtotal⟩)
  wrap "failed to update product stock" (updateStock line.productID (line.stock - line.quantity))

/-- `MakePurchase`, with the number of the order and the total. -/
def makePurchase (s : WalletService) (userID : String)
    (items : List PurchaseItem) : Program Tables Error (ℕ × ℚ) := do
  require (items ≠ []) .noItems
  transaction do
    let (lines, total) ← items.foldlM validateItem ([], 0)
    let orderID ← wrap "failed to create order" (insertOrder userID total)
    wrap "invalid wallet type for purchase" (validateWalletType walletTypePrimary)
    let transactionID ← wrap "failed to freeze wallet amount"
      (freezeAmountByType s userID walletTypePrimary total)
    lines.forM (sellLine orderID)
    wrap "failed to commit wallet transaction" (commitTransaction s userID total transactionID)
    pure (orderID, total)

section Loops

variable {s : WalletService} {userID : String} {db db' : Tables} {u : Unit}
  {items : List PurchaseItem}

def Tables.product (db : Tables) (productID : ℤ) : Product :=
  (db.products.lookup productID).getD ⟨0, 0⟩

theorem product_of_lookup {productID : ℤ} {product : Product}
    (h : db.products.lookup productID = some product) : db.product productID = product := by
  rw [Tables.product, h]
  rfl

def Tables.price (db : Tables) (items : List PurchaseItem) : ℚ :=
  (items.map fun item => (db.product item.productID).price * item.quantity).sum

def Tables.line (db : Tables) (item : PurchaseItem) : Line :=
  ⟨item.productID, item.quantity, (db.product item.productID).price,
    (db.product item.productID).price * item.quantity,
    (db.product item.productID).stock⟩

variable {acc r : List Line × ℚ}

theorem returns_validateItem {item : PurchaseItem} (h : (validateItem acc item).Returns db r db') :
    db' = db ∧ item.quantity ≤ (db.product item.productID).stock ∧
      r = (acc.1 ++ [db.line item], acc.2 + db.price [item]) := by
  simp only [validateItem, returns_bind, returns_tables, returns_found,
    returns_require, returns_pure] at h
  obtain ⟨_, _, ⟨rfl, rfl⟩, product, _, ⟨hproduct, rfl⟩, _, _, ⟨hstock, rfl⟩, rfl, rfl⟩ := h
  have hrow := product_of_lookup hproduct
  refine ⟨rfl, hrow ▸ hstock, ?_⟩
  simp [line, price, hrow]

theorem returns_validateItems (h : (items.foldlM validateItem acc).Returns db r db') :
    db' = db ∧ (∀ item ∈ items, item.quantity ≤ (db.product item.productID).stock) ∧
      r = (acc.1 ++ items.map db.line, acc.2 + db.price items) := by
  induction items generalizing acc with
  | nil =>
    obtain ⟨rfl, rfl⟩ := returns_pure.mp h
    simp [price]
  | cons item items ih =>
    rw [foldlM_cons, returns_bind] at h
    obtain ⟨acc', _, hitem, hitems⟩ := h
    obtain ⟨rfl, hstock, rfl⟩ := returns_validateItem hitem
    obtain ⟨rfl, hrest, rfl⟩ := ih hitems
    refine ⟨rfl, ?_, ?_⟩
    · simpa using ⟨hstock, hrest⟩
    · simp [price, add_assoc]

structure SameWallets (db db' : Tables) : Prop where
  wallets : db'.wallets = db.wallets
  walletTransactions : db'.walletTransactions = db.walletTransactions

theorem returns_sellLines {orderID : ℕ} {lines : List Line}
    (h : (lines.forM (sellLine orderID)).Returns db u db') :
    SameWallets db db' ∧ db'.products = lines.foldl (fun products line =>
        withStock products line.productID (line.stock - line.quantity))
        db.products := by
  induction lines generalizing db with
  | nil =>
    obtain ⟨-, rfl⟩ := returns_pure.mp h
    exact ⟨⟨rfl, rfl⟩, rfl⟩
  | cons line lines ih =>
    change (sellLine orderID line >>= fun _ => lines.forM (sellLine orderID)).Returns db u db' at h
    simp only [returns_bind, sellLine, returns_wrap, insertOrderItem,
      updateStock, returns_require, returns_modify] at h
    obtain ⟨_, _, ⟨_, _, ⟨_, _, ⟨-, rfl⟩, rfl⟩, _, _, ⟨-, rfl⟩, rfl⟩, hlines⟩ := h
    obtain ⟨⟨hwallets, htransactions⟩, hproducts⟩ := ih hlines
    exact ⟨⟨hwallets, htransactions⟩, hproducts⟩

theorem lookup_withStock {products : AList fun _ : ℤ => Product} {productID stock id : ℤ} :
    (withStock products productID stock).lookup id = (products.lookup id).map fun product =>
        if productID = id then { product with stock := stock } else product := by
  rw [withStock]
  by_cases hid : productID = id
  · subst hid
    split
    next hnone =>
      rw [hnone]
      rfl
    next hproduct =>
      rw [AList.lookup_insert, hproduct]
      simp
  · split
    · simp [hid]
    · rw [AList.lookup_insert_ne (Ne.symm hid)]
      simp [hid]

def quantities (items : List PurchaseItem) (productID : ℤ) : List ℤ :=
  (items.filter (·.productID = productID)).map (·.quantity)

theorem lookup_sold {id : ℤ} : ((items.map db.line).foldl (fun products line =>
      withStock products line.productID (line.stock - line.quantity))
      db.products).lookup id =
      (db.products.lookup id).map fun product =>
        { product with stock := product.stock - ((quantities items id).getLast?.getD 0) } := by
  induction items using reverseRecOn with
  | nil => simp [quantities]
  | append_singleton items item ih =>
    rw [map_append, foldl_append, map_singleton, foldl_cons, foldl_nil, lookup_withStock, ih]
    cases hproduct : db.products.lookup id with
    | none => rfl
    | some =>
      by_cases hid : item.productID = id
      · subst hid
        simp [line, quantities, product_of_lookup hproduct]
      · simp [line, quantities, hid]

theorem returns_commitTransaction {amount : ℚ} {id : ℕ} {row : WalletTransaction}
    (hrow : db.walletTransactions[id]? = some row)
    (h : (commitTransaction s userID amount id).Returns db u db') :
    db'.balance userID row.walletType = db.balance userID row.walletType ∧
      db'.products = db.products := by
  simp only [commitTransaction, commitTransactionByType, returns_bind,
    returns_tables, returns_wrap, returns_found, returns_settleTransaction] at h
  obtain ⟨_, _, ⟨rfl, rfl⟩, row', db, ⟨hrow', rfl⟩, w, w', hw, -, hbalance, -, -, rfl⟩ := h
  obtain rfl := Option.some.inj (hrow.symm.trans hrow')
  refine ⟨?_, rfl⟩
  change (db.setWallet _ _ w').balance _ _ = _
  rw [balance_setWallet_same, hbalance, add_zero, balance_of_lookup hw]

theorem returns_makePurchase {r : ℕ × ℚ} (h : (makePurchase s userID items).Returns db r db') :
    (∀ item ∈ items, item.quantity ≤ (db.product item.productID).stock) ∧
      (∀ id, db'.products.lookup id = (db.products.lookup id).map fun product =>
        { product with stock := product.stock - ((quantities items id).getLast?.getD 0) }) ∧
      db'.balance userID walletTypePrimary =
        db.balance userID walletTypePrimary - db.price items := by
  simp only [makePurchase, returns_bind, returns_require, returns_transaction,
    returns_wrap, insertOrder, returns_tables, returns_modify, returns_pure,
    returns_validateWalletType, returns_freezeAmountByType] at h
  obtain ⟨_, db, ⟨-, rfl⟩, _, _, hvalidate, _, _, ⟨_, _, ⟨rfl, rfl⟩, _, _,
    ⟨-, rfl⟩, _, _, rfl, rfl, rfl⟩, _, _, ⟨-, rfl⟩, _, _,
    ⟨-, -, w, w', hw, -, hbalance, -, -, rfl, -, rfl⟩, _, db₁, hsell, _, _,
    hcommit, -, rfl⟩ := h
  obtain ⟨hsame, hstock, rfl⟩ := returns_validateItems hvalidate
  obtain rfl := hsame.symm
  obtain ⟨⟨hwallets, htransactions⟩, hproducts⟩ := returns_sellLines hsell
  have hrow : db₁.walletTransactions[db.walletTransactions.length]? =
      some ⟨userID, walletTypePrimary, .debit, 0 + db.price items, .pending⟩ := by
    rw [htransactions]
    simp [addTransaction, setWallet]
  obtain ⟨hcolumn, hcatalogue⟩ := returns_commitTransaction hrow hcommit
  refine ⟨hstock, fun id => ?_, ?_⟩
  · rw [hcatalogue, hproducts]
    exact lookup_sold
  · rw [hcolumn, balance, hwallets]
    change (setWallet _ _ _ w').balance _ _ = _
    rw [balance_setWallet_same, hbalance, zero_add, ← balance_of_lookup hw]
    rfl

structure TakesExactly (db : Tables) (userID : String)
    (items : List PurchaseItem) (db' : Tables) : Prop where
  stock : ∀ id product, db.products.lookup id = some product →
    ∃ product', db'.products.lookup id = some product' ∧
      product'.stock = product.stock - (quantities items id).sum ∧
      0 ≤ product'.stock ∧ product'.stock ≤ product.stock
  balance : db'.balance userID walletTypePrimary =
    db.balance userID walletTypePrimary - db.price items

theorem last_le_stock {id : ℤ} (hnonneg : 0 ≤ (db.product id).stock)
    (h : ∀ item ∈ items, item.quantity ≤ (db.product item.productID).stock) :
    (quantities items id).getLast?.getD 0 ≤ (db.product id).stock := by
  cases hlast : (quantities items id).getLast? with
  | none => exact hnonneg
  | some =>
    obtain ⟨item, hitem, rfl⟩ := mem_map.mp (mem_of_getLast? hlast)
    obtain ⟨hmem, hid⟩ := mem_filter.mp hitem
    rw [← of_decide_eq_true hid]
    exact h item hmem

/-- A successful purchase takes exactly what it sells if and only if, for every
product of the catalogue, the lines before its last one come to nothing, the
last one is not negative, and neither is the stock. -/
theorem takesExactly_iff {r : ℕ × ℚ} (h : (makePurchase s userID items).Returns db r db') :
    TakesExactly db userID items db' ↔ ∀ id product, db.products.lookup id = some product →
        (quantities items id).sum = (quantities items id).getLast?.getD 0 ∧
        0 ≤ (quantities items id).getLast?.getD 0 ∧ 0 ≤ product.stock := by
  obtain ⟨hstock, hproducts, hbalance⟩ := returns_makePurchase h
  constructor
  · rintro ⟨hexact, -⟩ id product hproduct
    obtain ⟨product', hproduct', hsum, hnonneg, hle⟩ := hexact id product hproduct
    rw [hproducts, hproduct] at hproduct'
    cases hproduct'
    dsimp only at hsum hnonneg hle
    omega
  · intro hregular
    refine ⟨fun id product hproduct => ?_, hbalance⟩
    obtain ⟨hsum, hlast, hnonneg⟩ := hregular id product hproduct
    have hrow := product_of_lookup hproduct
    have hle := last_le_stock (hrow ▸ hnonneg) hstock
    rw [hrow] at hle
    refine ⟨_, by rw [hproducts, hproduct]; rfl, ?_, ?_, ?_⟩
    · rw [hsum]
    · exact sub_nonneg.mpr hle
    · exact sub_le_self _ hlast

end Loops

def stocked : Tables :=
  { shop.setWallet "ann" "primary" ⟨100, 0, check_hundred⟩ with
    products := (∅ : AList fun _ : ℤ => Product).insert 1 ⟨2, 10⟩ }

theorem takesExactly_stocked : ∃ r db', (makePurchase {} "ann" [⟨1, 3⟩]).Returns stocked r db' ∧
      TakesExactly stocked "ann" [⟨1, 3⟩] db' := by
  obtain ⟨r, db', hreturns, -⟩ := exists_returns (P := fun _ _ => True)
    (x := makePurchase {} "ann" [⟨1, 3⟩]) (s := stocked) (by decide +kernel)
  refine ⟨r, db', hreturns, (takesExactly_iff hreturns).mpr ?_⟩
  intro id product hproduct
  by_cases hid : id = 1
  · subst hid
    obtain rfl : _ = product := Option.some.inj ((AList.lookup_insert _).symm.trans hproduct)
    decide
  · cases (AList.lookup_insert_ne hid).symm.trans hproduct

/-- Of five pieces that are paid for, two leave the stock. -/
theorem purchase_of_two_lines : ∃ r db',
    (makePurchase {} "ann" [⟨1, 3⟩, ⟨1, 2⟩]).Returns stocked r db' ∧
      db'.balance "ann" "primary" = 90 ∧ (db'.product 1).stock = 8 ∧
      ¬TakesExactly stocked "ann" [⟨1, 3⟩, ⟨1, 2⟩] db' := by
  obtain ⟨r, db', hreturns, hbalance, hstock⟩ := exists_returns
    (P := fun _ db' => db'.balance "ann" "primary" = 90 ∧ (db'.product 1).stock = 8)
    (x := makePurchase {} "ann" [⟨1, 3⟩, ⟨1, 2⟩]) (s := stocked)
    (by decide +kernel)
  refine ⟨r, db', hreturns, hbalance, hstock, fun hexact => ?_⟩
  obtain ⟨product', hproduct', hsum, -⟩ := hexact.stock 1 ⟨2, 10⟩ rfl
  rw [product_of_lookup hproduct', hsum] at hstock
  exact absurd hstock (by decide)

end Fluxor.PostgresDemo
