/-
  LimitOrderBook.Reference

  The price-time-priority walk as the specification states it, against which
  the nested loops of `match` and `fillLevel` are checked.

  The opposite side's resting orders are listed in priority order (levels best
  first, each front to back); the walk keeps the longest prefix that crosses
  the taker's limit and goes through it with the taker's quantity `r`: each
  maker, while `r > 0`, trades `min r remaining` at its own price. The
  reference state unlinks every maker the walk brought to zero from its level
  and from the index, takes each level's fills off its total, erases the
  levels left empty, and rests what is left of the taker: at the back of the
  level at its price, or alone in a new level behind every better price
  (`restEntries`), which is what `OrderBook::addOrder` does
  (`OrderBook.rest_eq_addOrder`).
-/
import LimitOrderBook.Run

namespace LimitOrderBook

/-- The resting orders of a side in priority order: levels best first, each
    front to back. -/
def restingOrders {s : Side} (m : LevelMap s) : List Ptr := m.entries.flatMap (·.2.orders)

/-- Whether a maker priced `makerPrice` crosses a taker of side `side` with
    limit `p`: `ask ≤ p` for a buy, `bid ≥ p` for a sell. -/
def crosses : Side → Int → Int → Bool
  | .buy, makerPrice, p => makerPrice ≤ p
  | .sell, makerPrice, p => p ≤ makerPrice

/-- What the walk produces. -/
structure Walk where
  trades : List Trade
  storage : Storage
  remaining : Quantity
  /-- The makers the walk brought to zero, in walk order. -/
  gone : List Ptr

/-- The reference walk of taker `n` with quantity `r` over a list of makers. -/
def walk (n : OrderId) (st : Storage) (r : Quantity) : List Ptr → Walk
  | [] => ⟨[], st, r, []⟩
  | m :: ms =>
    if 0 < r then
      let f := min r (st.qty m)
      let st' := st.setQuantity m (st.qty m - f)
      let w := walk n st' (r - f) ms
      ⟨⟨st.idOf m, n, (st.orders m).price, f⟩ :: w.trades, w.storage, w.remaining,
        if st'.qty m = 0 then m :: w.gone else w.gone⟩
    else ⟨[], st, r, []⟩

/-- A level after the walk: its gone makers unlinked, its total down by the
    fills its orders gave. -/
def PriceLevel.afterWalk (st st' : Storage) (gone : List Ptr) (L : PriceLevel) : PriceLevel :=
  ⟨L.orders.filter (· ∉ gone), L.totalQty - (qtySum st L.orders - qtySum st' L.orders)⟩

/-- A side after the walk: every level after the walk, the emptied ones erased. -/
def LevelMap.afterWalk {s : Side} (st st' : Storage) (gone : List Ptr) (m : LevelMap s) :
    LevelMap s :=
  ⟨(m.entries.map fun e => (e.1, e.2.afterWalk st st' gone)).filter (fun e => !e.2.orders.isEmpty),
   List.Pairwise.filter _ (List.pairwise_map.mpr (m.sorted.imp fun h => h))⟩

/-- The index after the walk: the entries of the gone makers' ids erased. -/
def eraseIds (st : Storage) (gone : List Ptr) (index : OrderId → Option Ptr) :
    OrderId → Option Ptr :=
  gone.foldl (fun i o => Function.update i (st.idOf o) none) index

/-- The makers a taker of side `side` with limit `p` walks through. -/
def crossingMakers (st : Storage) (side : Side) (p : Int) (b : OrderBook) : List Ptr :=
  (restingOrders (b.levels side.opposite)).takeWhile fun o => crosses side (st.orders o).price p

/-- The reference walk of `submitOrder(side, p, q)`'s taker `n`, the previous
    `lastOrderId() + 1`, whose order is pushed to the storage first. -/
def referenceWalk (e : MatchingEngine) (side : Side) (p : Int) (q : Quantity) : Walk :=
  let st := e.storage.push ⟨e.nextOrderId, side, p, q, q⟩
  walk (e.lastOrderId + 1) st q (crossingMakers st side p e.book)

@[simp] theorem MatchingEngine.lastOrderId_add_one (e : MatchingEngine) :
    e.lastOrderId + 1 = e.nextOrderId :=
  sub_add_cancel _ _

/-- The reference state once the walk is done, before the taker rests: the
    makers' side after the walk, their index entries erased, the taker's
    remaining quantity written back, and the next id taken. -/
def afterReferenceWalk (e : MatchingEngine) (side : Side) (p : Int) (q : Quantity) :
    MatchingEngine :=
  let st := e.storage.push ⟨e.nextOrderId, side, p, q, q⟩
  let w := referenceWalk e side p q
  ⟨(e.book.setLevels side.opposite
    ((e.book.levels side.opposite).afterWalk st w.storage w.gone)).withIndex
      (eraseIds st w.gone e.book.index),
   w.storage.setQuantity e.storage.size w.remaining, e.nextOrderId + 1⟩

/-! ## Resting an order -/

/-- The levels once the order at `o`, priced `k` and with quantity `r`, rests:
    at the back of the level at `k`, whose total goes up by `r`, or alone in
    a new level behind every better price. -/
def restEntries (s : Side) (k : Int) (o : Ptr) (r : Quantity) :
    List (Int × PriceLevel) → List (Int × PriceLevel)
  | [] => [(k, ⟨[o], r⟩)]
  | x :: xs =>
    if x.1 = k then (k, ⟨x.2.orders ++ [o], x.2.totalQty + r⟩) :: xs
    else if s.before k x.1 then (k, ⟨[o], r⟩) :: x :: xs
    else x :: restEntries s k o r xs

/-- Resting puts the key `k` where `emplace` puts it. -/
theorem restEntries_keys (s : Side) (k : Int) (o : Ptr) (r : Quantity) (v : PriceLevel) :
    ∀ es : List (Int × PriceLevel),
      (restEntries s k o r es).map (·.1) = (insertEntry s k v es).map (·.1)
  | [] => rfl
  | x :: xs => by
    simp only [restEntries, insertEntry]
    by_cases hx : x.1 = k
    · simp [hx, Side.before_irrefl]
    · by_cases hb : s.before k x.1
      · simp [hx, hb]
      · simp [hx, hb, Ne.symm hx, restEntries_keys s k o r v xs]

theorem restEntries_sorted {s : Side} (k : Int) (o : Ptr) (r : Quantity)
    {es : List (Int × PriceLevel)} (h : es.Pairwise (fun a b => s.before a.1 b.1)) :
    (restEntries s k o r es).Pairwise (fun a b => s.before a.1 b.1) := by
  have := List.pairwise_map.mpr (insertEntry_sorted k PriceLevel.new h)
  rw [← restEntries_keys s k o r] at this
  exact List.pairwise_map.mp this

/-- A side once the order at `o`, priced `k` and with quantity `r`, rests on
    it. -/
def LevelMap.rest {s : Side} (m : LevelMap s) (k : Int) (o : Ptr) (r : Quantity) : LevelMap s :=
  ⟨restEntries s k o r m.entries, restEntries_sorted k o r m.sorted⟩

/-- The book once the order at `o` rests: on its side at its price, behind the
    orders already there, with its remaining quantity, and indexed under its
    id. -/
def OrderBook.rest (st : Storage) (b : OrderBook) (o : Ptr) : OrderBook :=
  let order := st.orders o
  (b.setLevels order.side ((b.levels order.side).rest order.price o (st.qty o))).withIndex
    (Function.update b.index order.id (some o))

/-- The reference result of `submitOrder(side, p, q)`: the trades of the walk
    and the reference state, where what is left of the taker rests. -/
def referenceSubmit (e : MatchingEngine) (side : Side) (p : Int) (q : Quantity) :
    List Trade × MatchingEngine :=
  let w := referenceWalk e side p q
  let e' := afterReferenceWalk e side p q
  (w.trades, { e' with book :=
    if 0 < w.remaining then OrderBook.rest e'.storage e'.book e.storage.size else e'.book })

/-! ## `addOrder` rests an order -/

/-- `emplace` then `modify` with `PriceLevel::addOrder`, over sorted entries,
    is the reference's resting step. -/
theorem insertEntry_addOrder {s : Side} (st : Storage) (k : Int) (o : Ptr) :
    ∀ {es : List (Int × PriceLevel)}, es.Pairwise (fun a b => s.before a.1 b.1) →
      (insertEntry s k PriceLevel.new es).map
          (fun e => if e.1 = k then (e.1, e.2.addOrder st o) else e) =
        restEntries s k o (st.qty o) es
  | [], _ => by simp [insertEntry, restEntries, PriceLevel.addOrder, PriceLevel.new]
  | x :: xs, h => by
    rw [List.pairwise_cons] at h
    -- behind `x`, no entry has `k` once `k` is at or before `x`
    have hkeep : (k = x.1 ∨ s.before k x.1) →
        xs.map (fun e => if e.1 = k then (e.1, e.2.addOrder st o) else e) = xs := fun hk => by
      refine (List.map_congr_left fun y hy => ?_).trans (List.map_id xs)
      have hne : y.1 ≠ k := by
        rcases hk with rfl | hk
        · exact fun hy' => Side.before_irrefl s _ (hy' ▸ h.1 y hy)
        · exact fun hy' => Side.before_irrefl s _ (Side.before_trans hk (hy' ▸ h.1 y hy))
      simp [hne]
    simp only [insertEntry, restEntries]
    by_cases hx : x.1 = k
    · subst hx
      simp only [Side.before_irrefl, if_false, if_true, List.map_cons, hkeep (.inl rfl)]
      rfl
    · by_cases hb : s.before k x.1
      · simp only [hb, if_true, if_neg hx, List.map_cons, hkeep (.inr hb)]
        simp [PriceLevel.addOrder, PriceLevel.new]
      · simp only [hb, if_false, Ne.symm hx, hx, List.map_cons, insertEntry_addOrder st k o h.2]

/-- **`OrderBook::addOrder` rests the order as the reference does.** -/
theorem OrderBook.rest_eq_addOrder (st : Storage) (b : OrderBook) (o : Ptr) :
    OrderBook.rest st b o = b.addOrder st o := by
  simp only [OrderBook.rest, OrderBook.addOrder]
  congr 2
  exact LevelMap.ext_entries (insertEntry_addOrder st _ o (b.levels _).sorted).symm

end LimitOrderBook
