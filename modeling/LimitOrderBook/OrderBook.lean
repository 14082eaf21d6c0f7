/-
  LimitOrderBook.OrderBook

  `OrderBook.h`: the bid and ask maps and the `unordered_map<OrderId, Order*>`
  index. The source writes every method twice, once per side; here each is
  written once over `levels s`, the map of side `s`, and `setLevels`.

  The methods that read an order do so through the storage they are given;
  `modifyQuantity` writes the order's quantity through its pointer and
  returns the storage with it. `spread` and `midPrice` subtract and add the
  best prices in `int64_t`, where the result wraps (`wrapInt64`), and only
  then divide in `double`. The exact difference and sum (`askMinusBid`,
  `bidPlusAsk`) are kept apart, so that whether they fit in `int64_t` can be
  stated of the book.
-/
import LimitOrderBook.LevelMap

namespace LimitOrderBook

/-- `OrderBook`: `bids_`, `asks_` and `index_`. -/
structure OrderBook where
  bids : LevelMap .buy
  asks : LevelMap .sell
  index : OrderId → Option Ptr

namespace OrderBook

def empty : OrderBook := ⟨.empty, .empty, fun _ => none⟩

/-- The map of side `s`: `bids_` or `asks_`. -/
def levels (b : OrderBook) : (s : Side) → LevelMap s
  | .buy => b.bids
  | .sell => b.asks

/-- Replace the map of side `s`. -/
def setLevels (b : OrderBook) : (s : Side) → LevelMap s → OrderBook
  | .buy, m => { b with bids := m }
  | .sell, m => { b with asks := m }

@[simp] theorem levels_setLevels_same (b : OrderBook) (s : Side) (m : LevelMap s) :
    (b.setLevels s m).levels s = m := by
  cases s <;> rfl

@[simp] theorem levels_setLevels_opposite (b : OrderBook) (s : Side) (m : LevelMap s) :
    (b.setLevels s m).levels s.opposite = b.levels s.opposite := by
  cases s <;> rfl

@[simp] theorem index_setLevels (b : OrderBook) (s : Side) (m : LevelMap s) :
    (b.setLevels s m).index = b.index := by
  cases s <;> rfl

/-- Replace the index. -/
def withIndex (b : OrderBook) (i : OrderId → Option Ptr) : OrderBook := { b with index := i }

@[simp] theorem levels_withIndex (b : OrderBook) (i : OrderId → Option Ptr) (s : Side) :
    (b.withIndex i).levels s = b.levels s := by
  cases s <;> rfl

@[simp] theorem index_withIndex (b : OrderBook) (i : OrderId → Option Ptr) :
    (b.withIndex i).index = i := rfl

@[simp] theorem levels_empty (s : Side) : empty.levels s = .empty := by
  cases s <;> rfl

@[simp] theorem setLevels_setLevels (b : OrderBook) (s : Side) (m m' : LevelMap s) :
    (b.setLevels s m).setLevels s m' = b.setLevels s m' := by
  cases s <;> rfl

@[simp] theorem withIndex_setLevels (b : OrderBook) (i : OrderId → Option Ptr) (s : Side)
    (m : LevelMap s) : (b.withIndex i).setLevels s m = (b.setLevels s m).withIndex i := by
  cases s <;> rfl

theorem levels_setLevels_of_ne {s s' : Side} (h : s' ≠ s) (b : OrderBook) (m : LevelMap s) :
    (b.setLevels s m).levels s' = b.levels s' := by
  cases s <;> cases s' <;> first | rfl | exact absurd rfl h

theorem eq_opposite_of_ne {s s' : Side} (h : s' ≠ s) : s' = s.opposite := by
  cases s <;> cases s' <;> first | rfl | exact absurd rfl h

/-- `addOrder`: find or create the level at the order's price on its side,
    push the order to its back, and index it. -/
def addOrder (st : Storage) (b : OrderBook) (o : Ptr) : OrderBook :=
  let order := st.orders o
  let p := order.price
  let m := ((b.levels order.side).emplace p PriceLevel.new).modify p (·.addOrder st o)
  (b.setLevels order.side m).withIndex (Function.update b.index order.id (some o))

/-- `cancelOrder`: look the order up in the index, unlink it from its level
    (erasing the level if that empties it) and drop its index entry. -/
def cancelOrder (st : Storage) (b : OrderBook) (id : OrderId) : Bool × OrderBook :=
  match b.index id with
  | none => (false, b)
  | some o =>
    let order := st.orders o
    let p := order.price
    let m := b.levels order.side
    let m' := match m.find? p with
      | none => m
      | some L => m.update p (L.removeOrder st id).2
    (true, (b.setLevels order.side m').withIndex (Function.update b.index id none))

/-- `modifyQuantity`: reduce-only. Write the new quantity through the order's
    pointer and take the difference off its level's total. -/
def modifyQuantity (st : Storage) (b : OrderBook) (id : OrderId) (newQty : Quantity) :
    Bool × OrderBook × Storage :=
  match b.index id with
  | none => (false, b, st)
  | some o =>
    let order := st.orders o
    if newQty ≥ order.quantity then (false, b, st)
    else
      let delta := order.quantity - newQty
      let st' := st.setQuantity o newQty
      let p := order.price
      let m := b.levels order.side
      let m' := match m.find? p with
        | none => m
        | some _ => m.modify p (·.adjustTotal delta)
      (true, b.setLevels order.side m', st')

/-- `cleanLevel`: erase the level at `price` on `side` if it exists and is empty. -/
def cleanLevel (b : OrderBook) (side : Side) (price : Int) : OrderBook :=
  match (b.levels side).find? price with
  | some L => if L.empty then b.setLevels side ((b.levels side).erase price) else b
  | none => b

theorem cleanLevel_of_find? {b : OrderBook} {s : Side} {k : Int} {L : PriceLevel}
    (h : (b.levels s).find? k = some L) :
    b.cleanLevel s k = if L.empty then b.setLevels s ((b.levels s).erase k) else b := by
  simp only [cleanLevel, h]

/-- `removeFromIndex`. -/
def removeFromIndex (b : OrderBook) (id : OrderId) : OrderBook :=
  b.withIndex (Function.update b.index id none)

/-- `bestBid()`. -/
def bestBid (b : OrderBook) : Option Int := b.bids.begin.map (·.1)

/-- `bestAsk()`. -/
def bestAsk (b : OrderBook) : Option Int := b.asks.begin.map (·.1)

/-- The best bid and the best ask when the book has both, the test
    `if (!bid || !ask) return std::nullopt;` of `spread()` and `midPrice()`. -/
def bestQuotes (b : OrderBook) : Option (Int × Int) :=
  match b.bestBid, b.bestAsk with
  | some bid, some ask => some (bid, ask)
  | _, _ => none

/-- The exact difference `*ask - *bid` of `spread()`, before `int64_t` wraps
    it. -/
def askMinusBid (b : OrderBook) : Option Int := b.bestQuotes.map fun q => q.2 - q.1

/-- The exact sum `*bid + *ask` of `midPrice()`, before `int64_t` wraps it. -/
def bidPlusAsk (b : OrderBook) : Option Int := b.bestQuotes.map fun q => q.1 + q.2

/-- `spread()`: `static_cast<double>(*ask - *bid) / 100.0`, the difference
    taken in `int64_t`. -/
def spread (b : OrderBook) : Option Float :=
  b.askMinusBid.map fun d => Float.ofInt (wrapInt64 d) / 100.0

/-- `midPrice()`: `(*bid + *ask) / 200.0`, the sum taken in `int64_t`. -/
def midPrice (b : OrderBook) : Option Float :=
  b.bidPlusAsk.map fun m => Float.ofInt (wrapInt64 m) / 200.0

/-- `hasOrder(id)`. -/
def hasOrder (b : OrderBook) (id : OrderId) : Bool := (b.index id).isSome

/-- `getOrder(id)`. -/
def getOrder (b : OrderBook) (id : OrderId) : Option Ptr := b.index id

end OrderBook

end LimitOrderBook
