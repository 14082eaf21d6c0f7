/-
  LimitOrderBook.Types

  The basic types of `Types.h` and the engine's order storage.

  `OrderId` and `Quantity` are `uint64_t` in the source and are modelled as
  `UInt64`, so that `nextOrderId_++` and a level's `totalQty_` wrap exactly as
  the code's do. `Price` is `int64_t`; the matching path only compares prices,
  so a price is an `Int`.

  `MatchingEngine::storage_` owns every `Order`, and the levels and the index
  hold raw `Order*` pointers into it. A pointer is the order's position in
  storage (`Ptr`) and storage is a heap `Ptr → Order` with its allocation
  count, so that a write through one pointer is seen through every alias.
  `Order::timestamp` is written once and never read, and is left out.

  `push` does not fail. The vector holds at most `max_size()` orders
  (`Storage.maxSize`), and a `push_back` past it throws `std::length_error`
  after `nextOrderId_++` has run. That throw is not modelled: the runs the
  model follows as the program's are those whose storage stays within
  `max_size()`, in which every `push_back` succeeds, and the results that
  need it say so.

  `spread()` and `midPrice()` subtract and add two prices in `int64_t`. A
  signed overflow is undefined in C++; the targets' `sub` and `add` wrap in
  two's complement, and so does the model (`wrapInt64`), which agrees with
  the exact value whenever that fits (`fitsInt64`).
-/
import Mathlib.Data.UInt
import Mathlib.Logic.Function.Basic

namespace LimitOrderBook

abbrev OrderId := UInt64
abbrev Quantity := UInt64

inductive Side where
  | buy
  | sell
  deriving DecidableEq, Repr, Inhabited

/-- The side a taker of side `s` matches against. -/
def Side.opposite : Side → Side
  | .buy => .sell
  | .sell => .buy

@[simp] theorem Side.opposite_opposite (s : Side) : s.opposite.opposite = s := by
  cases s <;> rfl

/-- `Order`, with `quantity` the remaining quantity. -/
structure Order where
  id : OrderId
  side : Side
  price : Int
  quantity : Quantity
  originalQty : Quantity
  deriving DecidableEq, Repr, Inhabited

/-- `Trade`: a fill record. -/
structure Trade where
  makerOrderId : OrderId
  takerOrderId : OrderId
  price : Int
  quantity : Quantity
  deriving DecidableEq, Repr

/-- An `Order*`: the position of the order in `storage_`. -/
abbrev Ptr := Nat

/-- `storage_`: the orders allocated so far, addressed by pointer. -/
structure Storage where
  orders : Ptr → Order
  size : Nat

namespace Storage

def empty : Storage := ⟨fun _ => default, 0⟩

/-- `storage_.max_size()`: a `std::vector<std::unique_ptr<Order>>` holds at
    most `PTRDIFF_MAX / sizeof(std::unique_ptr<Order>)` elements, `2^60 - 1`
    with libstdc++ and 8-byte pointers. -/
def maxSize : Nat := 1152921504606846975

/-- `storage_.push_back(std::make_unique<Order>(..))`; the new order's pointer is
    the old `size`. -/
def push (st : Storage) (o : Order) : Storage :=
  ⟨Function.update st.orders st.size o, st.size + 1⟩

/-- `ptr->quantity = q`. -/
def setQuantity (st : Storage) (p : Ptr) (q : Quantity) : Storage :=
  { st with orders := Function.update st.orders p { st.orders p with quantity := q } }

/-- The remaining quantity behind a pointer. -/
def qty (st : Storage) (p : Ptr) : Quantity := (st.orders p).quantity

/-- The id behind a pointer. -/
def idOf (st : Storage) (p : Ptr) : OrderId := (st.orders p).id

@[simp] theorem push_size (st : Storage) (o : Order) : (st.push o).size = st.size + 1 := rfl

theorem push_orders (st : Storage) (o : Order) (p : Ptr) :
    (st.push o).orders p = if p = st.size then o else st.orders p := by
  simp only [push, Function.update_apply]

theorem push_orders_of_lt {st : Storage} {p : Ptr} (h : p < st.size) (o : Order) :
    (st.push o).orders p = st.orders p := by
  rw [push_orders, if_neg (Nat.ne_of_lt h)]

@[simp] theorem push_orders_size (st : Storage) (o : Order) : (st.push o).orders st.size = o := by
  simp [push_orders]

@[simp] theorem setQuantity_size (st : Storage) (p : Ptr) (q : Quantity) :
    (st.setQuantity p q).size = st.size := rfl

theorem setQuantity_orders (st : Storage) (p : Ptr) (q : Quantity) (r : Ptr) :
    (st.setQuantity p q).orders r = if r = p then { st.orders p with quantity := q } else st.orders r := by
  simp only [setQuantity, Function.update_apply]

@[simp] theorem setQuantity_orders_self (st : Storage) (p : Ptr) (q : Quantity) :
    (st.setQuantity p q).orders p = { st.orders p with quantity := q } := by
  simp [setQuantity_orders]

@[simp] theorem qty_setQuantity_self (st : Storage) (p : Ptr) (q : Quantity) :
    (st.setQuantity p q).qty p = q := by
  simp [qty]

theorem setQuantity_orders_ne {r p : Ptr} (h : r ≠ p) (st : Storage) (q : Quantity) :
    (st.setQuantity p q).orders r = st.orders r := by
  rw [setQuantity_orders, if_neg h]

/-- Writing a quantity changes no order's id, side, price or original quantity. -/
@[simp] theorem setQuantity_id (st : Storage) (p r : Ptr) (q : Quantity) :
    ((st.setQuantity p q).orders r).id = (st.orders r).id := by
  rw [setQuantity_orders]; split <;> simp_all

@[simp] theorem setQuantity_side (st : Storage) (p r : Ptr) (q : Quantity) :
    ((st.setQuantity p q).orders r).side = (st.orders r).side := by
  rw [setQuantity_orders]; split <;> simp_all

@[simp] theorem setQuantity_price (st : Storage) (p r : Ptr) (q : Quantity) :
    ((st.setQuantity p q).orders r).price = (st.orders r).price := by
  rw [setQuantity_orders]; split <;> simp_all

@[simp] theorem setQuantity_originalQty (st : Storage) (p r : Ptr) (q : Quantity) :
    ((st.setQuantity p q).orders r).originalQty = (st.orders r).originalQty := by
  rw [setQuantity_orders]; split <;> simp_all

end Storage

/-! ## `int64_t` arithmetic -/

/-- `int64_t` holds exactly the integers in `[-2^63, 2^63)`. -/
def fitsInt64 (v : Int) : Prop := -9223372036854775808 ≤ v ∧ v < 9223372036854775808

instance : DecidablePred fitsInt64 := fun _ => inferInstanceAs (Decidable (_ ∧ _))

/-- The `int64_t` result of a sum or a difference whose exact value is `v`:
    `v` wrapped into `[-2^63, 2^63)`. -/
def wrapInt64 (v : Int) : Int :=
  (v + 9223372036854775808) % 18446744073709551616 - 9223372036854775808

theorem wrapInt64_of_fits {v : Int} (h : fitsInt64 v) : wrapInt64 v = v := by
  unfold fitsInt64 at h
  unfold wrapInt64
  omega

/-- The integers in `[-2^62, 2^62)`, whose sums and differences fit in
    `int64_t`. -/
def fitsInt63 (v : Int) : Prop := -4611686018427387904 ≤ v ∧ v < 4611686018427387904

instance : DecidablePred fitsInt63 := fun _ => inferInstanceAs (Decidable (_ ∧ _))

theorem fitsInt63.sub_add {a b : Int} (ha : fitsInt63 a) (hb : fitsInt63 b) :
    fitsInt64 (b - a) ∧ fitsInt64 (a + b) := by
  unfold fitsInt63 at ha hb
  unfold fitsInt64
  omega

/-! ## `uint64_t` order facts

`UInt64` comparisons are comparisons of `toNat`; these let `omega` finish
quantity arithmetic. -/

namespace Quantity

theorem lt_iff (a b : Quantity) : a < b ↔ a.toNat < b.toNat := Iff.rfl

theorem le_iff (a b : Quantity) : a ≤ b ↔ a.toNat ≤ b.toNat := Iff.rfl

theorem eq_iff (a b : Quantity) : a = b ↔ a.toNat = b.toNat := ⟨fun h => h ▸ rfl, UInt64.toNat.inj⟩

theorem zero_toNat : (0 : Quantity).toNat = 0 := rfl

theorem add_toNat (a b : Quantity) : (a + b).toNat = (a.toNat + b.toNat) % 2 ^ 64 := rfl

theorem not_le {a b : Quantity} : ¬ a ≤ b ↔ b < a := by
  rw [le_iff, lt_iff]; omega

theorem min_def (a b : Quantity) : min a b = if a ≤ b then a else b := rfl

theorem min_toNat (a b : Quantity) : (min a b).toNat = min a.toNat b.toNat := by
  rw [min_def]; split <;> rename_i h <;> rw [le_iff] at h <;> omega

theorem min_le_left (a b : Quantity) : min a b ≤ a := by
  rw [le_iff, min_toNat]; omega

theorem min_le_right (a b : Quantity) : min a b ≤ b := by
  rw [le_iff, min_toNat]; omega

/-- No wrap: a subtraction below the minuend is exact. -/
theorem sub_toNat {a b : Quantity} (h : b ≤ a) : (a - b).toNat = a.toNat - b.toNat :=
  UInt64.toNat_sub_of_le a b h

end Quantity

/-- `nextOrderId_++` from `k` gives `k + 1` modulo `2^64`. -/
theorem ofNat_add_one (k : Nat) : UInt64.ofNat (k + 1) = UInt64.ofNat k + 1 := by
  apply UInt64.toNat.inj
  show (k + 1) % 2 ^ 64 = (k % 2 ^ 64 + 1 % 2 ^ 64) % 2 ^ 64
  omega

end LimitOrderBook
