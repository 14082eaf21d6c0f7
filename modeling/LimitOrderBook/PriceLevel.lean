/-
  LimitOrderBook.PriceLevel

  `PriceLevel.h`: the FIFO queue of the resting orders at one price, with the
  cached `totalQty_`. The `std::deque<Order*>` is a list of pointers, front
  first; every mutator reads the orders it touches through the storage.

  `totalQty_` is a `uint64_t` and every update of it wraps. `qtySum` is the
  sum of the queued quantities in the same arithmetic, and each mutator comes
  with the lemma saying how it moves the total against that sum: that is the
  bookkeeping the level's invariant rests on. `reduceTop` is called by no
  one and is left out.
-/
import LimitOrderBook.Types
import Mathlib.Algebra.BigOperators.Group.List
import Mathlib.Tactic.Abel

namespace LimitOrderBook

/-- `PriceLevel`: the queued orders, front first, and `totalQty_`. -/
structure PriceLevel where
  orders : List Ptr
  totalQty : Quantity

/-- The queued quantities summed in `uint64_t` arithmetic. -/
def qtySum (st : Storage) (ps : List Ptr) : Quantity := (ps.map st.qty).sum

@[simp] theorem qtySum_nil (st : Storage) : qtySum st [] = 0 := rfl

@[simp] theorem qtySum_cons (st : Storage) (p : Ptr) (ps : List Ptr) :
    qtySum st (p :: ps) = st.qty p + qtySum st ps := List.sum_cons

@[simp] theorem qtySum_append (st : Storage) (ps qs : List Ptr) :
    qtySum st (ps ++ qs) = qtySum st ps + qtySum st qs := by
  simp [qtySum]

/-- A write to an order outside the list leaves its sum alone. -/
theorem qtySum_setQuantity_of_not_mem {st : Storage} {p : Ptr} {ps : List Ptr} (h : p ∉ ps)
    (q : Quantity) : qtySum (st.setQuantity p q) ps = qtySum st ps := by
  induction ps with
  | nil => rfl
  | cons r ps ih =>
    simp only [List.mem_cons, not_or] at h
    simp only [qtySum_cons, ih h.2, Storage.qty, Storage.setQuantity_orders_ne (Ne.symm h.1)]

/-- A write to an order listed once moves the sum by the change of its quantity. -/
theorem qtySum_setQuantity_of_mem {st : Storage} {p : Ptr} {ps : List Ptr} (hd : ps.Nodup)
    (h : p ∈ ps) (q : Quantity) :
    qtySum (st.setQuantity p q) ps = qtySum st ps - st.qty p + q := by
  induction ps with
  | nil => cases h
  | cons r ps ih =>
    rw [List.nodup_cons] at hd
    rcases List.mem_cons.mp h with rfl | h
    · simp only [qtySum_cons, qtySum_setQuantity_of_not_mem hd.1, Storage.qty,
        Storage.setQuantity_orders_self]
      abel
    · have hne : r ≠ p := fun e => hd.1 (e ▸ h)
      simp only [qtySum_cons, ih hd.2 h, Storage.qty, Storage.setQuantity_orders_ne hne]
      abel

/-- The sum reads only the listed orders. -/
theorem qtySum_congr {st st' : Storage} {ps : List Ptr} (h : ∀ p ∈ ps, st'.qty p = st.qty p) :
    qtySum st' ps = qtySum st ps := by
  simp only [qtySum, List.map_congr_left h]

namespace PriceLevel

/-- `PriceLevel(p)`: no orders and a zero total. -/
def new : PriceLevel := ⟨[], 0⟩

/-- `addOrder`: push to the back and add its remaining quantity. -/
def addOrder (st : Storage) (l : PriceLevel) (o : Ptr) : PriceLevel :=
  ⟨l.orders ++ [o], l.totalQty + st.qty o⟩

/-- `removeOrder`: the linear scan for the first order carrying `id`; on a hit
    subtract its remaining quantity and unlink it. -/
def removeOrder (st : Storage) (l : PriceLevel) (id : OrderId) : Bool × PriceLevel :=
  match l.orders.find? (fun o => st.idOf o == id) with
  | none => (false, l)
  | some o => (true, ⟨l.orders.eraseP (fun o => st.idOf o == id), l.totalQty - st.qty o⟩)

/-- `getFront`: the oldest order, if any. -/
def getFront (l : PriceLevel) : Option Ptr := l.orders.head?

/-- `popFront`: drop the oldest order and subtract its remaining quantity. -/
def popFront (st : Storage) (l : PriceLevel) : PriceLevel :=
  match l.orders with
  | [] => l
  | o :: os => ⟨os, l.totalQty - st.qty o⟩

/-- `adjustTotal`: the total drops by `delta`. -/
def adjustTotal (l : PriceLevel) (delta : Quantity) : PriceLevel :=
  { l with totalQty := l.totalQty - delta }

/-- `empty()`. -/
def empty (l : PriceLevel) : Bool := l.orders.isEmpty

/-- `orderCount()`. -/
def orderCount (l : PriceLevel) : Nat := l.orders.length

/-- The cached total agrees with the queued quantities. -/
def TotalOk (st : Storage) (l : PriceLevel) : Prop := l.totalQty = qtySum st l.orders

@[simp] theorem empty_iff (l : PriceLevel) : l.empty = true ↔ l.orders = [] := List.isEmpty_iff

theorem new_totalOk (st : Storage) : new.TotalOk st := rfl

theorem TotalOk.congr {st st' : Storage} {l : PriceLevel} (h : l.TotalOk st)
    (hq : ∀ p ∈ l.orders, st'.qty p = st.qty p) : l.TotalOk st' :=
  h.trans (qtySum_congr hq).symm

/-! ### How each mutator moves the total -/

@[simp] theorem addOrder_orders (st : Storage) (l : PriceLevel) (o : Ptr) :
    (l.addOrder st o).orders = l.orders ++ [o] := rfl

theorem addOrder_totalOk {st : Storage} {l : PriceLevel} (h : l.TotalOk st) (o : Ptr) :
    (l.addOrder st o).TotalOk st := by
  unfold TotalOk at h ⊢
  simp only [addOrder, h, qtySum_append, qtySum_cons, qtySum_nil, add_zero]

theorem removeOrder_of_find? {st : Storage} {l : PriceLevel} {id : OrderId} {o : Ptr}
    (h : l.orders.find? (fun o => st.idOf o == id) = some o) :
    l.removeOrder st id =
      (true, ⟨l.orders.eraseP (fun o => st.idOf o == id), l.totalQty - st.qty o⟩) := by
  simp only [removeOrder, h]

theorem removeOrder_of_find?_none {st : Storage} {l : PriceLevel} {id : OrderId}
    (h : l.orders.find? (fun o => st.idOf o == id) = none) : l.removeOrder st id = (false, l) := by
  simp only [removeOrder, h]

/-- Unlinking the first match of a predicate removes exactly that order's quantity. -/
theorem qtySum_eraseP {st : Storage} {ps : List Ptr} {f : Ptr → Bool} {o : Ptr}
    (h : ps.find? f = some o) : qtySum st (ps.eraseP f) = qtySum st ps - st.qty o := by
  obtain ⟨ho, as, bs, rfl, has⟩ := List.find?_eq_some.mp h
  have hnot : ∀ a ∈ as, ¬ f a := fun a ha => by simpa using has a ha
  rw [List.eraseP_append_right _ hnot, List.eraseP_cons_of_pos ho]
  simp only [qtySum_append, qtySum_cons]
  abel

theorem removeOrder_totalOk {st : Storage} {l : PriceLevel} (h : l.TotalOk st) (id : OrderId) :
    (l.removeOrder st id).2.TotalOk st := by
  cases hf : l.orders.find? (fun o => st.idOf o == id) with
  | none => rw [removeOrder_of_find?_none hf]; exact h
  | some o =>
    unfold TotalOk at h ⊢
    rw [removeOrder_of_find? hf]; simp only [h, qtySum_eraseP hf]

/-- `adjustTotal` after a write that lowers one queued order by `delta` keeps the
    total in step. -/
theorem adjustTotal_totalOk {st : Storage} {l : PriceLevel} (h : l.TotalOk st)
    (hd : l.orders.Nodup) {p : Ptr} (hp : p ∈ l.orders) (delta : Quantity) :
    (l.adjustTotal delta).TotalOk (st.setQuantity p (st.qty p - delta)) := by
  unfold TotalOk at h ⊢
  simp only [adjustTotal, qtySum_setQuantity_of_mem hd hp, h, Storage.qty]
  abel

end PriceLevel

end LimitOrderBook
