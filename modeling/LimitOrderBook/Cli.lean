/-
  LimitOrderBook.Cli

  The command loop of `main`, one command at a time: what it calls on the
  engine and what it prints. A command is a line once `main` has read its
  words. `parsePrice` (`std::stod`, then `d * 100.0 + 0.5` cast to `int64_t`)
  is left out: a command carries the price in cents it returns, next to the
  price as typed, which the resting message echoes. A line whose words do not
  read is the command's usage case. The `BookPrinter` calls are lines that
  stand for what they print; every other line is its text, without the
  newline.

  For a buy or a sell the loop reports on `lastOrderId()`: "resting in book"
  when there was no trade, otherwise the trades, then "partially filled —
  remainder resting" when `hasOrder` of that id holds and "fully filled" when
  it does not. In runs without a repeated id that id is the order just
  submitted, and the report is right for every positive quantity. A quantity
  of zero is reported resting, and never rests.
-/
import LimitOrderBook.Trading
import LimitOrderBook.BookPrinter

namespace LimitOrderBook

namespace Cli

/-- A line of input, once `main` has read its words. -/
inductive Command where
  | quit
  | help
  /-- `buy <price> <qty>` or `sell <price> <qty>`: the price as typed, and as
      `parsePrice` returns it. -/
  | order (side : Side) (priceStr : String) (price : Int) (qty : Quantity)
  /-- `buy` or `sell` whose price or quantity does not read. -/
  | orderUsage (side : Side)
  | cancel (id : OrderId)
  | cancelUsage
  | modify (id : OrderId) (price : Int) (qty : Quantity)
  | modifyUsage
  | book (levels : Int)
  | top
  | unknown

/-- What `main` prints. -/
inductive Line where
  | text (s : String)
  /-- `printHelp()`. -/
  | help
  /-- `BookPrinter::printTrades(trades)`, which prints nothing for no trade. -/
  | trades (ts : List Trade)
  /-- `BookPrinter::printBook(book, levels)`. -/
  | book (t : BookPrinter.Table)
  /-- `BookPrinter::printTopOfBook(book)`: the best bid, the best ask, and the
      spread and the mid price when there are both. -/
  | top (bid ask : Option Int) (spreadMid : Option (Float × Float))

/-- The command word of a side. -/
def sideWord : Side → String
  | .buy => "buy"
  | .sell => "sell"

/-- The report on an order that made no trade. -/
def restingText (id : OrderId) (side : Side) (priceStr : String) (qty : Quantity) : String :=
  "  Order #" ++ toString id ++ " resting in book (" ++ sideWord side ++ " $" ++ priceStr ++
    " x" ++ toString qty ++ ")"

/-- The report on an order that traded and is indexed. -/
def partialText (id : OrderId) : String :=
  "  Order #" ++ toString id ++ " partially filled — remainder resting."

/-- The report on an order that traded and is not indexed. -/
def filledText (id : OrderId) : String := "  Order #" ++ toString id ++ " fully filled."

/-- One pass of the loop: what it prints for a command and the engine after
    it, or `none` for `quit`. The `catch` prints an exception's text after
    "Error: "; of the calls on parsed commands only `modifyOrder` throws. -/
def step (e : MatchingEngine) : Command → Option (List Line × MatchingEngine)
  | .quit => none
  | .help => some ([.help], e)
  | .order side priceStr p qty =>
    let r := e.submitOrder side p qty
    let id := r.2.lastOrderId
    if r.1.isEmpty then some ([.text (restingText id side priceStr qty)], r.2)
    else
      some ([.trades r.1, .text (if r.2.book.hasOrder id then partialText id else filledText id)],
        r.2)
  | .orderUsage side => some ([.text ("  Usage: " ++ sideWord side ++ " <price> <qty>")], e)
  | .cancel id =>
    let r := e.cancelOrder id
    some ([.text ("  Order #" ++ toString id ++ if r.1 then " cancelled." else " not found.")], r.2)
  | .cancelUsage => some ([.text "Usage: cancel <id>"], e)
  | .modify id p qty =>
    match e.modifyOrder id p qty with
    | .ok r => some ([.text ("Order #" ++ toString id ++ " modified."), .trades r.1], r.2)
    | .error msg => some ([.text ("Error: " ++ msg)], e)
  | .modifyUsage => some ([.text "Usage: modify <id> <new_price> <qty>"], e)
  | .book levels => some ([.book (BookPrinter.printBook e.book levels)], e)
  | .top =>
    some ([.top e.book.bestBid e.book.bestAsk
      (e.book.spread.bind fun s => e.book.midPrice.map fun m => (s, m))], e)
  | .unknown => some ([.text "Unknown command. Type \x27help\x27."], e)

/-- The loop over the commands, until `quit` or the end of the input. -/
def session (e : MatchingEngine) : List Command → List Line
  | [] => []
  | c :: cs =>
    match step e c with
    | none => []
    | some (out, e') => out ++ session e' cs

/-- `main`: the help text, then the loop from a fresh engine. -/
def main (cs : List Command) : List Line := .help :: session .init cs

end Cli

/-! ## The report on a submission -/

/-- Writing back the quantity an order already has changes nothing. -/
theorem Storage.setQuantity_of_qty {st : Storage} {p : Ptr} {q : Quantity} (h : st.qty p = q) :
    st.setQuantity p q = st := by
  obtain ⟨orders, size⟩ := st
  simp only [setQuantity, mk.injEq, and_true]
  funext r
  by_cases hr : r = p
  · subst hr; simp [← h, qty]
  · simp [Function.update_noteq hr]

namespace MatchingEngine

variable {n : Nat} {e : MatchingEngine}

/-- A submission of quantity zero leaves the book as it was and only
    allocates its order under the next id. -/
theorem submitOrder_zero (e : MatchingEngine) (side : Side) (p : Int) :
    e.submitOrder side p 0 =
      ([], ⟨e.book, e.storage.push ⟨e.nextOrderId, side, p, 0, 0⟩, e.nextOrderId + 1⟩) := by
  have hm : «match» ⟨⟨e.nextOrderId, side, p, 0, 0⟩, e.book,
      e.storage.push ⟨e.nextOrderId, side, p, 0, 0⟩, []⟩ =
      ⟨⟨e.nextOrderId, side, p, 0, 0⟩, e.book, e.storage.push ⟨e.nextOrderId, side, p, 0, 0⟩, []⟩ := by
    rw [«match», matchLoop]
    exact dif_neg (lt_irrefl 0)
  have hq : (e.storage.push ⟨e.nextOrderId, side, p, 0, 0⟩).qty e.storage.size = 0 := by
    simp [Storage.qty]
  simp only [submitOrder, hm, Storage.setQuantity_of_qty hq]
  rw [if_neg (show ¬ (0 : Quantity) < 0 by decide)]

theorem lastOrderId_submitOrder (e : MatchingEngine) (side : Side) (p : Int) (q : Quantity) :
    (e.submitOrder side p q).2.lastOrderId = e.nextOrderId :=
  add_sub_cancel_right _ _

/-- The order a submission allocates rests afterwards exactly when it is left
    with quantity. -/
theorem WF.size_mem_resting_submitOrder (h : e.WF) (side : Side) (p : Int) (q : Quantity) :
    e.storage.size ∈ (e.submitOrder side p q).2.resting ↔
      0 < (e.submitOrder side p q).2.storage.qty e.storage.size := by
  rw [h.submitOrder_eq, h.size_mem_resting_referenceSubmit side p q,
    (referenceSubmit_orders_size side p q).2.2]

/-- In a run without a repeated id, the id a submission takes is indexed
    afterwards exactly when its order rests. -/
theorem Fresh.hasOrder_submitOrder (hf : e.Fresh n) (hn : n + 2 < 2 ^ 64) (side : Side) (p : Int)
    (q : Quantity) :
    (e.submitOrder side p q).2.book.hasOrder e.nextOrderId = true ↔
      e.storage.size ∈ (e.submitOrder side p q).2.resting := by
  have hf' := hf.submitOrder hn side p q
  -- the new order is the only allocated order with the new id
  have hid : ∀ o < n + 1,
      (e.submitOrder side p q).2.storage.idOf o = e.nextOrderId ↔ o = e.storage.size := by
    intro o ho
    rw [Quantity.eq_iff, Storage.idOf, hf'.ids o ho, hf.next, hf.size]
    omega
  rw [hf'.indexExact.hasOrder, mem_resting_iff]
  constructor
  · rintro ⟨s, o, ho, ho'⟩
    exact ⟨s, (hid o (hf'.lt_of_resting ho)).mp ho' ▸ ho⟩
  · rintro ⟨s, ho⟩
    exact ⟨s, _, ho, (hid _ (hf'.lt_of_resting ho)).mpr rfl⟩

end MatchingEngine

namespace Cli

/-- **`main` reports a buy or a sell rightly**, from every state of a run of
    fewer than `2^64 - 2` submissions, for every positive quantity: the report
    names the order just submitted; with no trade it says "resting in book",
    and the order rests with all of its quantity; with trades it prints them,
    then "partially filled — remainder resting" exactly when the order
    rests. -/
theorem order_report {n : Nat} {e : MatchingEngine} (h : Reachable n e) (hn : n + 1 < 2 ^ 64 - 1)
    (side : Side) (priceStr : String) (p : Int) {qty : Quantity} (hq : 0 < qty) :
    step e (.order side priceStr p qty) =
      (if (e.submitOrder side p qty).1.isEmpty then
        some ([.text (restingText e.nextOrderId side priceStr qty)], (e.submitOrder side p qty).2)
      else
        some ([.trades (e.submitOrder side p qty).1,
          .text (if e.storage.size ∈ (e.submitOrder side p qty).2.resting then
            partialText e.nextOrderId else filledText e.nextOrderId)], (e.submitOrder side p qty).2)) ∧
    ((e.submitOrder side p qty).1 = [] →
      e.storage.size ∈ (e.submitOrder side p qty).2.resting ∧
        (e.submitOrder side p qty).2.storage.qty e.storage.size = qty) := by
  have hf := h.fresh (by omega)
  have hhas := hf.hasOrder_submitOrder (by omega) side p qty
  refine ⟨?_, fun h0 => ?_⟩
  · simp only [step, MatchingEngine.lastOrderId_submitOrder]
    by_cases hr : e.storage.size ∈ (e.submitOrder side p qty).2.resting
    · simp only [hhas.mpr hr, hr, if_true]
    · simp only [Bool.not_eq_true] at hhas
      simp only [(Bool.eq_false_iff.mpr (mt hhas.mp hr)), hr, if_false]
      simp
  · -- no trade: the walk left the taker all of its quantity
    have hw := hf.wf
    have hfill := QueueBook.fill_qty e.nextOrderId side p qty (e.view.queue side.opposite)
    rw [(hw.view_submitOrder side p qty).1, QueueBook.submit_trades,
      MatchingEngine.view_nextId] at h0
    rw [h0, List.map_nil, List.sum_nil, Nat.zero_add] at hfill
    have hqty : (e.submitOrder side p qty).2.storage.qty e.storage.size = qty := by
      rw [hw.qty_submitOrder_taker]; exact UInt64.toNat.inj hfill
    exact ⟨(hw.size_mem_resting_submitOrder side p qty).mpr (by rw [hqty]; exact hq), hqty⟩

/-- A sell of 2 at 0.99 against the bid of 5 at 100. -/
theorem order_report_oneBid :
    Reachable 1 oneBid ∧ 1 + 1 < 2 ^ 64 - 1 ∧ (0 : Quantity) < 2 ∧
    (step oneBid (.order .sell "0.99" 99 2) =
      (if (oneBid.submitOrder .sell 99 2).1.isEmpty then
        some ([.text (restingText oneBid.nextOrderId .sell "0.99" 2)], (oneBid.submitOrder .sell 99 2).2)
      else
        some ([.trades (oneBid.submitOrder .sell 99 2).1,
          .text (if oneBid.storage.size ∈ (oneBid.submitOrder .sell 99 2).2.resting then
            partialText oneBid.nextOrderId else filledText oneBid.nextOrderId)],
          (oneBid.submitOrder .sell 99 2).2)) ∧
    ((oneBid.submitOrder .sell 99 2).1 = [] →
      oneBid.storage.size ∈ (oneBid.submitOrder .sell 99 2).2.resting ∧
        (oneBid.submitOrder .sell 99 2).2.storage.qty oneBid.storage.size = 2)) :=
  ⟨oneBid_reachable, by decide, by decide,
    order_report oneBid_reachable (by decide) .sell "0.99" 99 (by decide)⟩

/-- A buy of 0 at 1.00 behind the bid of 5 at 100: `main` prints "resting in
    book" for it, and it does not rest. -/
example : step oneBid (.order .buy "1.00" 100 0) =
      some ([.text (restingText oneBid.nextOrderId .buy "1.00" 0)], (oneBid.submitOrder .buy 100 0).2) ∧
    oneBid.storage.size ∉ (oneBid.submitOrder .buy 100 0).2.resting := by
  simp only [step, MatchingEngine.lastOrderId_submitOrder, MatchingEngine.submitOrder_zero]
  refine ⟨rfl, ?_⟩
  rw [oneBid, MatchingEngine.init_wf.exec_submitOrder]
  decide

end Cli

end LimitOrderBook
