/-
  LimitOrderBook.MatchingEngine

  `MatchingEngine.h`: order storage, id allocation, and the price-time walk.

  The two loops of the source are the two recursions below, each the `while`
  of the source around a one-pass body: `fillLevel` around `fillStep` (fill the
  front maker of one level), `matchLoop` around `matchStep` (fill the best
  level of the opposite side, then clean it up). Each recursion re-tests the
  source's loop condition before every pass; its measure, the orders (or the
  levels) still queued plus one while the taker is unfilled, is what makes the
  loop stop.

  The taker is allocated in storage before the walk, but is not reachable
  from the book until it rests, so the loops carry it as a value; its
  remaining quantity is written back to storage when the walk ends.
  `now()` feeds only the unused timestamp and is left out.
-/
import LimitOrderBook.OrderBook

namespace LimitOrderBook

/-- `MatchingEngine`: `book_`, `storage_` and `nextOrderId_`. -/
structure MatchingEngine where
  book : OrderBook
  storage : Storage
  nextOrderId : OrderId

/-- The data the `fillLevel` loop reads and writes. -/
structure FillState where
  taker : Order
  level : PriceLevel
  storage : Storage
  index : OrderId → Option Ptr
  trades : List Trade

/-- One pass of the `fillLevel` loop body against the front order `maker`. -/
def fillStep (fs : FillState) (maker : Ptr) : FillState :=
  let m := fs.storage.orders maker
  let fillQty := min fs.taker.quantity m.quantity
  let trades := fs.trades ++ [⟨m.id, fs.taker.id, m.price, fillQty⟩]
  let taker := { fs.taker with quantity := fs.taker.quantity - fillQty }
  let storage := fs.storage.setQuantity maker (m.quantity - fillQty)
  let level := fs.level.adjustTotal fillQty
  if storage.qty maker = 0 then
    ⟨taker, level.popFront storage, storage, Function.update fs.index m.id none, trades⟩
  else ⟨taker, level, storage, fs.index, trades⟩

/-- What `fillLevel`'s loop condition counts down. -/
def FillState.measure (fs : FillState) : Nat :=
  fs.level.orders.length + if 0 < fs.taker.quantity then 1 else 0

/-- A pass either pops the front maker or fills the whole taker. -/
theorem fillStep_measure_lt {fs : FillState} {maker : Ptr}
    (hf : fs.level.getFront = some maker) (ht : 0 < fs.taker.quantity) :
    (fillStep fs maker).measure < fs.measure := by
  obtain ⟨os, hos⟩ : ∃ os, fs.level.orders = maker :: os := by
    simp only [PriceLevel.getFront, List.head?_eq_some_iff] at hf
    exact hf
  simp only [fillStep, FillState.measure]
  split_ifs with h₀ h₁ h₂
  · simp only [PriceLevel.popFront, PriceLevel.adjustTotal, hos, List.length_cons]; omega
  · simp only [PriceLevel.popFront, PriceLevel.adjustTotal, hos, List.length_cons]; omega
  · exfalso
    simp only [Storage.qty, Storage.setQuantity_orders_self, Quantity.eq_iff,
      Quantity.zero_toNat] at h₀
    simp only [Quantity.lt_iff, Quantity.zero_toNat] at h₂
    rw [Quantity.sub_toNat (Quantity.min_le_left _ _), Quantity.min_toNat] at h₂
    rw [Quantity.sub_toNat (Quantity.min_le_right _ _), Quantity.min_toNat] at h₀
    omega
  · simp only [PriceLevel.adjustTotal, hos, List.length_cons]; omega

/-- `fillLevel`: fill the taker against the level front to back while both
    have quantity left. -/
def fillLevel (fs : FillState) : FillState :=
  if ht : 0 < fs.taker.quantity then
    match hf : fs.level.getFront with
    | none => fs
    | some maker => fillLevel (fillStep fs maker)
  else fs
termination_by fs.measure
decreasing_by exact fillStep_measure_lt hf ht

/-- `fillLevel` stops with the taker filled or the level empty. -/
theorem fillLevel_exit (fs : FillState) :
    (fillLevel fs).taker.quantity = 0 ∨ (fillLevel fs).level.orders = [] := by
  induction fs using fillLevel.induct with
  | case1 fs ht hf =>
    rw [fillLevel, dif_pos ht]; split
    · exact .inr (by simpa [PriceLevel.getFront] using hf)
    · simp_all
  | case2 fs ht maker hf ih =>
    rw [fillLevel, dif_pos ht]; split
    · simp_all
    · simp_all
  | case3 fs ht =>
    rw [fillLevel, dif_neg ht]
    exact .inl (by simpa [Quantity.lt_iff, Quantity.eq_iff] using ht)

/-- The data the `match` loop reads and writes. -/
structure MatchState where
  taker : Order
  book : OrderBook
  storage : Storage
  trades : List Trade

/-- Whether the level at `levelPrice` on side `s` ends the walk of a taker
    priced `takerPrice`: `it->first > taker->price` on the asks,
    `it->first < taker->price` on the bids. -/
def stopsAt : Side → Int → Int → Bool
  | .sell, levelPrice, takerPrice => levelPrice > takerPrice
  | .buy, levelPrice, takerPrice => levelPrice < takerPrice

/-- The `fillLevel(taker, level, trades)` call of a `match` pass. -/
def MatchState.fill (ms : MatchState) (level : PriceLevel) : FillState :=
  fillLevel ⟨ms.taker, level, ms.storage, ms.book.index, ms.trades⟩

/-- One pass of the `match` loop body at the best level `(k, level)` of side
    `s`: fill the level in place, then `cleanLevel` it if it is empty. -/
def matchStep (s : Side) (ms : MatchState) (k : Int) (level : PriceLevel) : MatchState :=
  let fs := ms.fill level
  let book := (ms.book.setLevels s ((ms.book.levels s).modify k fun _ => fs.level)).withIndex
    fs.index
  let book := if fs.level.empty then book.cleanLevel s k else book
  ⟨fs.taker, book, fs.storage, fs.trades⟩

/-- A pass writes the drained level back, or erases it. -/
theorem matchStep_eq {s : Side} {ms : MatchState} {k : Int} {level : PriceLevel}
    (hmem : (k, level) ∈ (ms.book.levels s).entries) :
    matchStep s ms k level =
      ⟨(ms.fill level).taker,
       (ms.book.setLevels s ((ms.book.levels s).update k (ms.fill level).level)).withIndex
         (ms.fill level).index,
       (ms.fill level).storage, (ms.fill level).trades⟩ := by
  have hf : ((ms.book.levels s).modify k fun _ => (ms.fill level).level).find? k =
      some (ms.fill level).level :=
    LevelMap.find?_eq_some.mpr (LevelMap.mem_modify.mpr (.inl ⟨level, hmem, rfl⟩))
  simp only [matchStep, LevelMap.update]
  split_ifs with he
  · rw [OrderBook.cleanLevel_of_find? (by simpa using hf), if_pos he]
    simp
  · rfl

/-- What the `match` loop condition counts down. -/
def MatchState.measure (s : Side) (ms : MatchState) : Nat :=
  (ms.book.levels s).entries.length + if 0 < ms.taker.quantity then 1 else 0

/-- A pass either erases the best level or fills the whole taker. -/
theorem matchStep_measure_lt {s : Side} {ms : MatchState} {k : Int} {level : PriceLevel}
    (hb : (ms.book.levels s).begin = some (k, level)) (ht : 0 < ms.taker.quantity) :
    (matchStep s ms k level).measure s < ms.measure s := by
  have hmem := LevelMap.begin_mem hb
  rw [MatchState.measure, MatchState.measure, matchStep_eq hmem]
  simp only [OrderBook.levels_withIndex, OrderBook.levels_setLevels_same]
  have hexit : (ms.fill level).taker.quantity = 0 ∨ (ms.fill level).level.orders = [] :=
    fillLevel_exit _
  rw [if_pos ht]
  rcases hexit with h | h
  · have := LevelMap.update_length_le (ms.book.levels s) k (ms.fill level).level
    have h0 : ¬ 0 < (ms.fill level).taker.quantity := by
      simp [h, Quantity.lt_iff, Quantity.zero_toNat]
    rw [if_neg h0]; omega
  · have := LevelMap.update_length_lt hmem h
    split_ifs <;> omega

/-- `match`'s walk of the side-`s` levels, best first, while the taker has
    quantity left and the best level crosses its price. -/
def matchLoop (s : Side) (ms : MatchState) : MatchState :=
  if ht : 0 < ms.taker.quantity then
    match hb : (ms.book.levels s).begin with
    | none => ms
    | some (k, level) =>
      if stopsAt s k ms.taker.price then ms else matchLoop s (matchStep s ms k level)
  else ms
termination_by ms.measure s
decreasing_by exact matchStep_measure_lt hb ht

/-- `MatchingEngine::match`: a buy walks the asks, a sell the bids. -/
def «match» (ms : MatchState) : MatchState := matchLoop ms.taker.side.opposite ms

namespace MatchingEngine

/-- `MatchingEngine()`: an empty book, empty storage, ids from 1. -/
def init : MatchingEngine := ⟨OrderBook.empty, Storage.empty, 1⟩

/-- `submitOrder`: allocate the order with the next id, match it, and rest
    whatever is left of it. The `push_back` is taken to succeed, as it does
    below `storage_.max_size()`. -/
def submitOrder (e : MatchingEngine) (side : Side) (price : Int) (qty : Quantity) :
    List Trade × MatchingEngine :=
  let order : Order := ⟨e.nextOrderId, side, price, qty, qty⟩
  let raw := e.storage.size
  let ms := «match» ⟨order, e.book, e.storage.push order, []⟩
  let storage := ms.storage.setQuantity raw ms.taker.quantity
  let book := if 0 < ms.taker.quantity then ms.book.addOrder storage raw else ms.book
  (ms.trades, ⟨book, storage, e.nextOrderId + 1⟩)

/-- `cancelOrder`. -/
def cancelOrder (e : MatchingEngine) (id : OrderId) : Bool × MatchingEngine :=
  let r := e.book.cancelOrder e.storage id
  (r.1, { e with book := r.2 })

/-- `modifyOrder`: a same-price modify reduces the quantity in place; a new
    price cancels the order and submits a fresh one. The two `throw`s are the
    `error`s. -/
def modifyOrder (e : MatchingEngine) (id : OrderId) (newPrice : Int) (newQty : Quantity) :
    Except String (List Trade × MatchingEngine) :=
  match e.book.getOrder id with
  | none => .error ("Order not found: " ++ toString id)
  | some o =>
    let order := e.storage.orders o
    if newPrice = order.price then
      if newQty ≥ order.quantity then .error "Modify can only redice qty at same price"
      else
        let r := e.book.modifyQuantity e.storage id newQty
        .ok ([], { e with book := r.2.1, storage := r.2.2 })
    else
      let side := order.side
      let r := e.book.cancelOrder e.storage id
      .ok (submitOrder { e with book := r.2 } side newPrice newQty)

/-- `lastOrderId()`. -/
def lastOrderId (e : MatchingEngine) : OrderId := e.nextOrderId - 1

end MatchingEngine

end LimitOrderBook
