/-
  LimitOrderBook.Trading

  What a submission does to the book, proved once on the queue book and
  carried to the engine through `WF.view_submitOrder`, so for every state a
  run reaches, however many orders it has submitted: the taker trades with
  the front of the other side's priority order, in that order, each maker at
  its own price and within the taker's limit; the makers it traded with leave
  the book, except that the last may stay at the front with a smaller,
  positive quantity; the rest of that side is as it was; and what the taker
  traded and what is left of it add up to its quantity.
-/
import LimitOrderBook.Index
import LimitOrderBook.Refinement

namespace LimitOrderBook

namespace MatchingEngine

variable {e : MatchingEngine}

/-- What is left of the taker, written back to its slot, is the queue book's
    remainder. -/
theorem WF.qty_submitOrder_taker (h : e.WF) (side : Side) (p : Int) (q : Quantity) :
    (e.submitOrder side p q).2.storage.qty e.storage.size =
      (QueueBook.fill e.nextOrderId side p q (e.view.queue side.opposite)).2.1 := by
  rw [h.submitOrder_eq, (referenceSubmit_orders_size side p q).2.2, h.fill_view]

end MatchingEngine

/-- **A submission trades by price-time priority**, from every state a run
    reaches: its makers are the first orders of the other side in priority
    order, in that order, each trading at its own price; every trade names the
    new order as taker and is within its limit; and what it traded plus what
    is left of it is its quantity. -/
theorem submitOrder_trades {n : Nat} {e : MatchingEngine} (h : Reachable n e) (side : Side)
    (p : Int) (q : Quantity) :
    ((e.submitOrder side p q).1.map fun t => (t.makerOrderId, t.price)) =
        ((restingOrders (e.book.levels side.opposite)).take (e.submitOrder side p q).1.length).map
          (fun o => (e.storage.idOf o, (e.storage.orders o).price)) ∧
      (∀ t ∈ (e.submitOrder side p q).1,
        t.takerOrderId = e.nextOrderId ∧ crosses side t.price p = true) ∧
      ((e.submitOrder side p q).1.map (·.quantity.toNat)).sum +
        ((e.submitOrder side p q).2.storage.qty e.storage.size).toNat = q.toNat := by
  have hw := h.wf
  rw [hw.qty_submitOrder_taker, (hw.view_submitOrder side p q).1, QueueBook.submit_trades,
    MatchingEngine.view_nextId]
  refine ⟨?_, QueueBook.fill_trade_crosses _ _ _ _ _, QueueBook.fill_qty _ _ _ _ _⟩
  rw [QueueBook.fill_makers, MatchingEngine.view_queue, ← List.map_take, List.map_map]
  rfl

/-- A sell of 2 at 99 against the bid of 5 at 100: one trade with order 1 at
    100, and the sell is filled. -/
theorem submitOrder_trades_oneBid :
    Reachable 1 oneBid ∧
    (((oneBid.submitOrder .sell 99 2).1.map fun t => (t.makerOrderId, t.price)) =
        ((restingOrders (oneBid.book.levels Side.sell.opposite)).take
          (oneBid.submitOrder .sell 99 2).1.length).map
          (fun o => (oneBid.storage.idOf o, (oneBid.storage.orders o).price)) ∧
      (∀ t ∈ (oneBid.submitOrder .sell 99 2).1,
        t.takerOrderId = oneBid.nextOrderId ∧ crosses .sell t.price 99 = true) ∧
      ((oneBid.submitOrder .sell 99 2).1.map (·.quantity.toNat)).sum +
        ((oneBid.submitOrder .sell 99 2).2.storage.qty oneBid.storage.size).toNat = (2 : Quantity).toNat) :=
  ⟨oneBid_reachable, submitOrder_trades oneBid_reachable .sell 99 2⟩

/-- **At most one maker is left partly filled**, from every state a run
    reaches: after a submission that made `k` trades, the other side's queue
    is the old one without its first `k` orders, or without its first `k - 1`
    and with the `k`-th, the last maker, left at the front with a smaller,
    positive quantity. No other order of that side changes. -/
theorem submitOrder_makers_side {n : Nat} {e : MatchingEngine} (h : Reachable n e) (side : Side)
    (p : Int) (q : Quantity) :
    (e.submitOrder side p q).2.view.queue side.opposite =
        (e.view.queue side.opposite).drop (e.submitOrder side p q).1.length ∨
      ∃ j o, (e.submitOrder side p q).1.length = j + 1 ∧
        (e.view.queue side.opposite).drop j = o :: (e.view.queue side.opposite).drop (j + 1) ∧
        ∃ q', 0 < q' ∧ q' < o.qty ∧
          (e.submitOrder side p q).2.view.queue side.opposite =
            { o with qty := q' } :: (e.view.queue side.opposite).drop (j + 1) := by
  obtain ⟨h₁, h₂⟩ := h.wf.view_submitOrder side p q
  rw [h₁, h₂, QueueBook.submit_trades, QueueBook.submit_queue_opposite]
  exact QueueBook.fill_rest _ _ _ _ _

/-- The sell of 2 at 99 leaves the bid of 5 at the front with 3. -/
theorem submitOrder_makers_side_oneBid :
    Reachable 1 oneBid ∧
    ((oneBid.submitOrder .sell 99 2).2.view.queue Side.sell.opposite =
        (oneBid.view.queue Side.sell.opposite).drop (oneBid.submitOrder .sell 99 2).1.length ∨
      ∃ j o, (oneBid.submitOrder .sell 99 2).1.length = j + 1 ∧
        (oneBid.view.queue Side.sell.opposite).drop j =
          o :: (oneBid.view.queue Side.sell.opposite).drop (j + 1) ∧
        ∃ q', 0 < q' ∧ q' < o.qty ∧
          (oneBid.submitOrder .sell 99 2).2.view.queue Side.sell.opposite =
            { o with qty := q' } :: (oneBid.view.queue Side.sell.opposite).drop (j + 1)) :=
  ⟨oneBid_reachable, submitOrder_makers_side oneBid_reachable .sell 99 2⟩

/-- **A submission conserves the makers' quantity**, from every state a run
    reaches: the quantity resting on the other side falls by exactly the
    quantity its trades carry. -/
theorem submitOrder_conserves {n : Nat} {e : MatchingEngine} (h : Reachable n e) (side : Side)
    (p : Int) (q : Quantity) :
    (((e.submitOrder side p q).2.view.queue side.opposite).map (·.qty.toNat)).sum +
        ((e.submitOrder side p q).1.map (·.quantity.toNat)).sum =
      ((e.view.queue side.opposite).map (·.qty.toNat)).sum := by
  obtain ⟨h₁, h₂⟩ := h.wf.view_submitOrder side p q
  rw [h₁, h₂, QueueBook.submit_trades, QueueBook.submit_queue_opposite]
  exact QueueBook.fill_maker_qty _ _ _ _ _

theorem submitOrder_conserves_oneBid :
    Reachable 1 oneBid ∧
    (((oneBid.submitOrder .sell 99 2).2.view.queue Side.sell.opposite).map (·.qty.toNat)).sum +
        ((oneBid.submitOrder .sell 99 2).1.map (·.quantity.toNat)).sum =
      ((oneBid.view.queue Side.sell.opposite).map (·.qty.toNat)).sum :=
  ⟨oneBid_reachable, submitOrder_conserves oneBid_reachable .sell 99 2⟩

/-! ## A cancel undoes a resting submission -/

/-- **Cancelling an order that rested without trading restores the book**, in
    every run of fewer than `2^64 - 2` submissions: after a submission that
    made no trade, `cancelOrder` of the id it took succeeds exactly when its
    quantity was positive, and leaves every queue as it was before the
    submission; only the next id has moved on. -/
theorem cancel_undoes_resting_submit {n : Nat} {e : MatchingEngine} (h : Reachable n e)
    (hn : n + 1 < 2 ^ 64 - 1) (side : Side) (p : Int) (q : Quantity)
    (ht : (e.submitOrder side p q).1 = []) :
    ((e.submitOrder side p q).2.cancelOrder e.nextOrderId).1 = decide (0 < q) ∧
      ((e.submitOrder side p q).2.cancelOrder e.nextOrderId).2.view =
        { e.view with nextId := e.nextOrderId + 1 } := by
  have hf := h.fresh (by omega)
  obtain ⟨h₁, h₂⟩ := hf.wf.view_submitOrder side p q
  obtain ⟨c₁, c₂⟩ := (hf.submitOrder (by omega) side p q).view_cancelOrder e.nextOrderId
  -- every resting order carries an id below the next one
  have hids : ∀ s, ∀ x ∈ e.view.queue s, x.id ≠ e.view.nextId := fun s x hx => by
    rw [MatchingEngine.view_queue] at hx
    obtain ⟨o, ho, rfl⟩ := List.mem_map.mp hx
    have hlt := hf.idOf_lt_next (hf.lt_of_resting ho)
    rw [Quantity.lt_iff] at hlt
    exact fun hx' => Nat.ne_of_lt hlt (congrArg UInt64.toNat hx')
  have hab := QueueBook.cancel_submit_of_trades_nil e.view side p q hids (h₁ ▸ ht)
  rw [c₁, c₂, h₂]
  exact ⟨congrArg Prod.fst hab, congrArg Prod.snd hab⟩

/-- A buy of 3 at 99 under the bid at 100 rests without trading, as id 2. -/
theorem cancel_undoes_resting_submit_oneBid :
    Reachable 1 oneBid ∧ 1 + 1 < 2 ^ 64 - 1 ∧ (oneBid.submitOrder .buy 99 3).1 = [] ∧
    (((oneBid.submitOrder .buy 99 3).2.cancelOrder oneBid.nextOrderId).1 = decide ((0 : Quantity) < 3) ∧
      ((oneBid.submitOrder .buy 99 3).2.cancelOrder oneBid.nextOrderId).2.view =
        { oneBid.view with nextId := oneBid.nextOrderId + 1 }) :=
  have ht : (oneBid.submitOrder .buy 99 3).1 = [] := by
    rw [oneBid_reachable.wf.submitOrder_eq, oneBid, MatchingEngine.init_wf.exec_submitOrder]
    decide
  ⟨oneBid_reachable, by decide, ht,
    cancel_undoes_resting_submit oneBid_reachable (by decide) .buy 99 3 ht⟩

end LimitOrderBook
