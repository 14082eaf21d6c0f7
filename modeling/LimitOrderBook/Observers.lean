/-
  LimitOrderBook.Observers

  The engine's queries read the queue book. From every state a run reaches,
  the levels of a side, each printed as its price and `totalQuantity()`, are
  the depth of the side's queue: one row per price, best first, with the
  quantity resting there summed as a `uint64_t`. The best level's key is the
  price of the front of the queue, so `bestBid()` and `bestAsk()` are the
  queue book's. `spread()` and `midPrice()` take the difference and the sum
  of those two in `int64_t`, and are the queue book's, and so is the table
  `printBook` prints, whenever those fit (`QueueBook.QuotesFit`).
  `hasOrder(id)` and `getOrder(id)` go through the index, and read the queue
  book while ids do not come round.

  The table of the queue book takes the rows `printBook` takes: the highest
  ask levels, and the highest bid levels.
-/
import LimitOrderBook.Index
import LimitOrderBook.Refinement
import LimitOrderBook.BookPrinter

namespace LimitOrderBook

/-- The table `printBook(book, levels)` prints of the queue book. -/
def QueueBook.table (b : QueueBook) (levels : Int) : BookPrinter.Table where
  asks := (QueueBook.depth (b.queue .sell)).reverse.take levels.toNat
  spreadLine := b.spread.bind fun s => b.midPrice.map fun m => (s, m)
  bids := (QueueBook.depth (b.queue .buy)).take levels.toNat

/-- A side whose levels are in map order, non-empty, priced at their keys and
    with right totals: its queue's depth is its levels, as printed. -/
theorem depth_flatMap_restingAt (st : Storage) {s : Side} : ∀ (es : List (Int × PriceLevel)),
    es.Pairwise (fun a b => s.before a.1 b.1) → (∀ x ∈ es, x.2.orders ≠ []) →
    (∀ x ∈ es, ∀ o ∈ x.2.orders, (st.orders o).price = x.1) → (∀ x ∈ es, x.2.TotalOk st) →
    QueueBook.depth ((es.flatMap (·.2.orders)).map st.restingAt) = es.map BookPrinter.row
  | [], _, _, _, _ => rfl
  | (k, L) :: rest, hs, hne, hp, ht => by
    rw [List.pairwise_cons] at hs
    obtain ⟨o, os, hL⟩ := List.exists_cons_of_ne_nil (hne _ (List.mem_cons_self _ _))
    have hprice : ∀ x ∈ L.orders, (st.orders x).price = k := hp _ (List.mem_cons_self _ _)
    -- the next level's front is at the next key, which is not `k`
    have hnext : ∀ y ∈ ((rest.flatMap (·.2.orders)).map st.restingAt).head?, y.price ≠ k := by
      intro y hy
      obtain ⟨r, hr, rfl⟩ := List.mem_map.mp (List.mem_of_mem_head? hy)
      obtain ⟨x, hx, hrx⟩ := List.mem_flatMap.mp hr
      rw [Storage.restingAt_price, hp x (List.mem_cons_of_mem _ hx) r hrx]
      exact fun h => Side.before_irrefl s k (h ▸ hs.1 x hx)
    have hrun : ∀ x ∈ (o :: os).map st.restingAt, x.price = k := by
      rw [← hL]
      intro x hx
      obtain ⟨r, hr, rfl⟩ := List.mem_map.mp hx
      exact hprice r hr
    rw [List.flatMap_cons, List.map_append, hL, List.map_cons,
      QueueBook.depth_append_of_price hnext _ _ (by rwa [← List.map_cons]),
      depth_flatMap_restingAt st rest hs.2 (fun x hx => hne x (List.mem_cons_of_mem _ hx))
        (fun x hx => hp x (List.mem_cons_of_mem _ hx)) (fun x hx => ht x (List.mem_cons_of_mem _ hx))]
    -- the row's quantity is the level's total
    have htot : L.totalQty = qtySum st (o :: os) := hL ▸ ht _ (List.mem_cons_self _ _)
    simp [BookPrinter.row, htot, qtySum, Function.comp_def]

namespace MatchingEngine

variable {n : Nat} {e : MatchingEngine}

/-- The levels of each side, printed as price and total, are the depth of the
    side's queue. -/
theorem WF.depth_view (h : e.WF) (s : Side) :
    QueueBook.depth (e.view.queue s) = (e.book.levels s).entries.map BookPrinter.row := by
  rw [view_queue]
  exact depth_flatMap_restingAt e.storage _ (e.book.levels s).sorted (h.sideOk s).nonempty
    (h.sideOk s).price (h.total s)

/-- The best level's key is the price of the front of the queue. -/
theorem WF.begin_view (h : e.WF) (s : Side) :
    (e.book.levels s).begin.map (·.1) = e.view.best s := by
  rw [QueueBook.best, ← QueueBook.depth_head, h.depth_view, List.head?_map, Option.map_map]
  rfl

theorem WF.bestBid_view (h : e.WF) : e.book.bestBid = e.view.best .buy := h.begin_view .buy

theorem WF.bestAsk_view (h : e.WF) : e.book.bestAsk = e.view.best .sell := h.begin_view .sell

theorem WF.bestQuotes_view (h : e.WF) : e.book.bestQuotes = e.view.quotes := by
  unfold OrderBook.bestQuotes QueueBook.quotes
  cases hb : e.view.best .buy <;> cases ha : e.view.best .sell <;>
    simp [h.bestBid_view, h.bestAsk_view, hb, ha]

theorem WF.spread_view (h : e.WF) (hq : e.view.QuotesFit) : e.book.spread = e.view.spread := by
  simp only [OrderBook.spread, OrderBook.askMinusBid, QueueBook.spread, Option.map_map,
    h.bestQuotes_view]
  cases hqs : e.view.quotes with
  | none => rfl
  | some q => simp [wrapInt64_of_fits (hq q hqs).1]

theorem WF.midPrice_view (h : e.WF) (hq : e.view.QuotesFit) : e.book.midPrice = e.view.midPrice := by
  simp only [OrderBook.midPrice, OrderBook.bidPlusAsk, QueueBook.midPrice, Option.map_map,
    h.bestQuotes_view]
  cases hqs : e.view.quotes with
  | none => rfl
  | some q => simp [wrapInt64_of_fits (hq q hqs).2]

/-- `printBook` prints the queue book's table. -/
theorem WF.printBook_view (h : e.WF) (hq : e.view.QuotesFit) (levels : Int) :
    BookPrinter.printBook e.book levels = e.view.table levels := by
  simp only [BookPrinter.printBook, QueueBook.table, BookPrinter.askLevels_eq_take,
    BookPrinter.bidRows_eq_take, sub_zero, h.spread_view hq, h.midPrice_view hq, h.depth_view,
    List.map_take, List.map_reverse]
  rfl

/-- While ids do not come round, `hasOrder(id)` holds exactly when the queue
    book holds an order with the id. -/
theorem Fresh.hasOrder_view (hf : e.Fresh n) (i : OrderId) :
    e.book.hasOrder i = (e.view.find i).isSome := by
  rw [hf.view_find, Option.isSome_map']
  rfl

/-- While ids do not come round, no two orders of the queue book share an
    id. -/
theorem Fresh.idsUnique_view (hf : e.Fresh n) : e.view.IdsUnique := by
  have := hf.indexExact.idsUnique
  simpa [QueueBook.IdsUnique, view, List.map_map, Function.comp_def] using this

end MatchingEngine

/-! ## Runs -/

/-- **The top of the book is the front of the queues**, from every state a run
    reaches: `bestBid()` and `bestAsk()` are the prices of the first bid and
    the first ask in priority order, and `spread()` and `midPrice()` are the
    queue book's whenever the difference and the sum of those two fit in
    `int64_t`. -/
theorem quotes_read_queueBook {n : Nat} {e : MatchingEngine} (h : Reachable n e) :
    e.book.bestBid = e.view.best .buy ∧ e.book.bestAsk = e.view.best .sell ∧
      (e.view.QuotesFit → e.book.spread = e.view.spread ∧ e.book.midPrice = e.view.midPrice) :=
  ⟨h.wf.bestBid_view, h.wf.bestAsk_view, fun hq => ⟨h.wf.spread_view hq, h.wf.midPrice_view hq⟩⟩

/-- A bid at 99 and an ask at 101. -/
def bidAndAsk : MatchingEngine :=
  ((MatchingEngine.init.exec (.submitOrder .buy 99 1)).2.exec (.submitOrder .sell 101 1)).2

theorem bidAndAsk_reachable : Reachable 2 bidAndAsk :=
  .step (.submitOrder .sell 101 1) (.step (.submitOrder .buy 99 1) .init)

theorem quotes_read_queueBook_bidAndAsk :
    Reachable 2 bidAndAsk ∧ bidAndAsk.view.QuotesFit ∧
    (bidAndAsk.book.bestBid = bidAndAsk.view.best .buy ∧
      bidAndAsk.book.bestAsk = bidAndAsk.view.best .sell ∧
      (bidAndAsk.view.QuotesFit →
        bidAndAsk.book.spread = bidAndAsk.view.spread ∧
          bidAndAsk.book.midPrice = bidAndAsk.view.midPrice)) :=
  have hq : bidAndAsk.view.QuotesFit := by
    rw [bidAndAsk, (Reachable.step (.submitOrder .buy 99 1) .init).wf.exec_submitOrder,
      MatchingEngine.init_wf.exec_submitOrder]
    decide
  ⟨bidAndAsk_reachable, hq, quotes_read_queueBook bidAndAsk_reachable⟩

/-- **Each printed level is one price of the queue**, from every state a run
    reaches: the levels of a side, each as its price and `totalQuantity()`,
    are the side's queue in priority order cut into runs of one price, each
    with the sum of its orders' quantities modulo `2^64`. -/
theorem book_rows_are_depth {n : Nat} {e : MatchingEngine} (h : Reachable n e) (s : Side) :
    (e.book.levels s).entries.map BookPrinter.row = QueueBook.depth (e.view.queue s) :=
  (h.wf.depth_view s).symm

theorem book_rows_are_depth_twoHalfBids :
    Reachable 2 twoHalfBids ∧
    (twoHalfBids.book.levels .buy).entries.map BookPrinter.row =
      QueueBook.depth (twoHalfBids.view.queue .buy) :=
  ⟨twoHalfBids_reachable, book_rows_are_depth twoHalfBids_reachable .buy⟩

/-- **The index answers for the queue book**, in every run of fewer than
    `2^64 - 1` submissions: `hasOrder(id)` holds exactly when an order with
    the id rests, and `getOrder(id)` reaches that order, with its side, price
    and remaining quantity. -/
theorem index_reads_queueBook {n : Nat} {e : MatchingEngine} (h : Reachable n e)
    (hn : n < 2 ^ 64 - 1) (i : OrderId) :
    e.book.hasOrder i = (e.view.find i).isSome ∧
      (e.book.getOrder i).map (fun o => ((e.storage.orders o).side, e.storage.restingAt o)) =
        e.view.find i :=
  have hf := h.fresh hn
  ⟨hf.hasOrder_view i, (hf.view_find i).symm⟩

theorem index_reads_queueBook_oneBid :
    Reachable 1 oneBid ∧ 1 < 2 ^ 64 - 1 ∧
    (oneBid.book.hasOrder 1 = (oneBid.view.find 1).isSome ∧
      (oneBid.book.getOrder 1).map (fun o => ((oneBid.storage.orders o).side, oneBid.storage.restingAt o)) =
        oneBid.view.find 1) :=
  ⟨oneBid_reachable, by decide, index_reads_queueBook oneBid_reachable (by decide) 1⟩

end LimitOrderBook
