/-
  LimitOrderBook.Quotes

  `spread()` and `midPrice()` compute `*ask - *bid` and `*bid + *ask` in
  `int64_t` before converting to `double`, and a signed overflow there is
  undefined. `submitOrder` accepts any `int64_t` price and the book bounds no
  price, so the best prices of a run are whatever it submitted. When every
  submitted price is positive, both best prices lie in `[1, 2^63)` and the
  difference always fits; the sum fits only while it is below `2^63`, and a
  sell at `2^63 - 1` with a buy at `2^63 - 2` under it brings it to
  `2^64 - 3`, which wraps to `-3`.
-/
import LimitOrderBook.Index

namespace LimitOrderBook

/-! ## The best prices of a run -/

theorem OrderBook.bestQuotes_eq_some {b : OrderBook} {bid ask : Int} :
    b.bestQuotes = some (bid, ask) ↔ b.bestBid = some bid ∧ b.bestAsk = some ask := by
  cases hb : b.bestBid <;> cases ha : b.bestAsk <;> simp [OrderBook.bestQuotes, hb, ha]

namespace MatchingEngine

variable {e : MatchingEngine}

/-- Every order the run submitted, each of them allocated in the storage, has
    a positive `int64_t` price. -/
def PricesPositive (e : MatchingEngine) : Prop :=
  ∀ k < e.storage.size, 0 < (e.storage.orders k).price ∧ fitsInt64 (e.storage.orders k).price

instance : DecidablePred PricesPositive := fun e =>
  inferInstanceAs (Decidable (∀ k < e.storage.size, _))

/-- A best price is the price of an allocated order. -/
theorem WF.best_price_allocated (h : e.WF) (s : Side) {p : Int}
    (hp : (e.book.levels s).begin.map (·.1) = some p) :
    ∃ k < e.storage.size, (e.storage.orders k).price = p := by
  obtain ⟨⟨p', L⟩, hb, rfl⟩ := Option.map_eq_some'.mp hp
  obtain ⟨o, ho, hpo⟩ := h.best_resting hb
  exact ⟨o, h.alloc s o ho, hpo⟩

/-- Both best prices of a book whose submitted prices are positive lie in
    `[1, 2^63)`. -/
theorem WF.bestQuotes_bounds (h : e.WF) (hp : e.PricesPositive) {bid ask : Int}
    (hq : e.book.bestQuotes = some (bid, ask)) :
    (0 < bid ∧ bid < 9223372036854775808) ∧ (0 < ask ∧ ask < 9223372036854775808) := by
  obtain ⟨hb, ha⟩ := OrderBook.bestQuotes_eq_some.mp hq
  obtain ⟨kb, hkb, rfl⟩ := h.best_price_allocated .buy hb
  obtain ⟨ka, hka, rfl⟩ := h.best_price_allocated .sell ha
  obtain ⟨hb0, -, hb1⟩ := hp kb hkb
  obtain ⟨ha0, -, ha1⟩ := hp ka hka
  exact ⟨⟨hb0, hb1⟩, ⟨ha0, ha1⟩⟩

/-- From a book whose submitted prices are positive, `spread()`'s difference
    always fits in `int64_t`, and `midPrice()`'s sum fits exactly when it is
    below `2^63`. -/
theorem WF.quotes_fit (h : e.WF) (hp : e.PricesPositive) :
    (∀ v, e.book.askMinusBid = some v → fitsInt64 v) ∧
    (∀ v, e.book.bidPlusAsk = some v → (fitsInt64 v ↔ v < 9223372036854775808)) := by
  refine ⟨fun v hv => ?_, fun v hv => ?_⟩ <;>
  · obtain ⟨⟨bid, ask⟩, hq, rfl⟩ := Option.map_eq_some'.mp hv
    have := h.bestQuotes_bounds hp hq
    simp only [fitsInt64]
    omega

end MatchingEngine

/-! ## A sum past `INT64_MAX` -/

/-- A sell of 1 at `2^63 - 1`, then a buy of 1 at `2^63 - 2`, which does not
    cross it. -/
def quotesAtTop : MatchingEngine :=
  ((MatchingEngine.init.exec (.submitOrder .sell 9223372036854775807 1)).2.exec
    (.submitOrder .buy 9223372036854775806 1)).2

/-- Both prices are positive `int64_t` values and both orders rest. `spread()`'s
    difference is 1, but `midPrice()`'s sum is `2^64 - 3`, past `INT64_MAX`. -/
theorem midPrice_sum_overflows :
    Reachable 2 quotesAtTop ∧ quotesAtTop.PricesPositive ∧
      quotesAtTop.book.bestQuotes = some (9223372036854775806, 9223372036854775807) ∧
      quotesAtTop.book.askMinusBid = some 1 ∧
      quotesAtTop.book.bidPlusAsk = some 18446744073709551613 ∧ ¬ fitsInt64 18446744073709551613 := by
  have h₁ : Reachable 1 (MatchingEngine.init.exec (.submitOrder .sell 9223372036854775807 1)).2 :=
    .step (.submitOrder .sell 9223372036854775807 1) .init
  refine ⟨.step (.submitOrder .buy 9223372036854775806 1) h₁, ?_⟩
  rw [quotesAtTop, h₁.wf.exec_submitOrder, MatchingEngine.init_wf.exec_submitOrder]
  decide

/-- There `midPrice()` returns the wrapped sum over 200: a negative mid price
    between two positive quotes. -/
example : quotesAtTop.book.midPrice = some (Float.ofInt (-3) / 200.0) := by
  have h₁ : Reachable 1 (MatchingEngine.init.exec (.submitOrder .sell 9223372036854775807 1)).2 :=
    .step (.submitOrder .sell 9223372036854775807 1) .init
  have hs : quotesAtTop.book.bidPlusAsk = some 18446744073709551613 := by
    rw [quotesAtTop, h₁.wf.exec_submitOrder, MatchingEngine.init_wf.exec_submitOrder]; decide
  have hw : wrapInt64 18446744073709551613 = -3 := by decide
  rw [OrderBook.midPrice, hs, Option.map_some', hw]

end LimitOrderBook
