/-
  LimitOrderBook.BookPrinter

  `BookPrinter::printBook(book, levels)`, as the rows of the table it prints.
  The asks are read from `asks.rbegin()`, one row per level while
  `count < levels`; the bids from `bids.begin()`, breaking once
  `count++ >= levels`. Between the two, the spread line shows `spread()` and
  `midPrice()` when the book has both sides. Box drawing, colours and number
  formats (`toDecimal`, `setw`, `setprecision`) are left out: a row is its
  level's price, in cents, and its level's total.

  The asks map is ordered lowest first, so the walk from `rbegin()` prints the
  highest asks. With more ask levels than `levels`, the best asks, the ones
  nearest the spread, are left out. The bids map is ordered highest first, and
  its walk from `begin()` prints the best bids.
-/
import LimitOrderBook.RunInvariant

namespace LimitOrderBook

namespace BookPrinter

/-! ## The table -/

/-- The row printed for a level: its price and `totalQuantity()`. -/
def row (x : Int × PriceLevel) : Int × Quantity := (x.1, x.2.totalQty)

/-- The ask loop, over the levels from `asks.rbegin()` on:
    `for (...; it != asks.rend() && count < levels; ++it, ++count)`. -/
def askLevels (levels : Int) : Int → List (Int × PriceLevel) → List (Int × Quantity)
  | _, [] => []
  | count, x :: xs => if count < levels then row x :: askLevels levels (count + 1) xs else []

/-- The bid loop, over the levels from `bids.begin()` on:
    `if (count++ >= levels) break;` before each row. -/
def bidRows (levels : Int) : Int → List (Int × PriceLevel) → List (Int × Quantity)
  | _, [] => []
  | count, x :: xs => if count ≥ levels then [] else row x :: bidRows levels (count + 1) xs

/-- What `printBook` prints: the ask rows, the spread line when there is a
    spread, and the bid rows. -/
structure Table where
  asks : List (Int × Quantity)
  spreadLine : Option (Float × Float)
  bids : List (Int × Quantity)

/-- `printBook(book, levels)`. -/
def printBook (book : OrderBook) (levels : Int) : Table where
  asks := askLevels levels 0 book.asks.entries.reverse
  spreadLine := book.spread.bind fun s => book.midPrice.map fun m => (s, m)
  bids := bidRows levels 0 book.bids.entries

/-! ## What is printed -/

/-- Both loops print the first `levels - count` levels they walk. -/
theorem askLevels_eq_take (levels : Int) : ∀ (count : Int) (xs : List (Int × PriceLevel)),
    askLevels levels count xs = (xs.take (levels - count).toNat).map row
  | _, [] => by simp [askLevels]
  | count, x :: xs => by
    unfold askLevels
    split_ifs with h
    · rw [show (levels - count).toNat = (levels - (count + 1)).toNat + 1 by omega,
        List.take_succ_cons, List.map_cons, askLevels_eq_take levels (count + 1) xs]
    · rw [show (levels - count).toNat = 0 by omega]; rfl

theorem bidRows_eq_take (levels : Int) : ∀ (count : Int) (xs : List (Int × PriceLevel)),
    bidRows levels count xs = (xs.take (levels - count).toNat).map row
  | _, [] => by simp [bidRows]
  | count, x :: xs => by
    unfold bidRows
    split_ifs with h
    · rw [show (levels - count).toNat = 0 by omega]; rfl
    · rw [show (levels - count).toNat = (levels - (count + 1)).toNat + 1 by omega,
        List.take_succ_cons, List.map_cons, bidRows_eq_take levels (count + 1) xs]

/-- **What `printBook` prints**, for every book and every depth `n`: the
    `min(n, #asks)` highest asks, highest first, and the `min(n, #bids)`
    highest bids, highest first. -/
theorem printBook_rows (book : OrderBook) (n : Nat) :
    (printBook book n).asks = (book.asks.entries.reverse.take n).map row ∧
    (printBook book n).bids = (book.bids.entries.take n).map row := by
  simp only [printBook, askLevels_eq_take, bidRows_eq_take, sub_zero, Int.toNat_ofNat, and_self]

end BookPrinter

/-! ## The best ask left out -/

/-- Two asks, at 101 and 102. -/
def twoAsks : MatchingEngine :=
  ((MatchingEngine.init.exec (.submitOrder .sell 101 1)).2.exec (.submitOrder .sell 102 1)).2

/-- At depth 1 `printBook` prints the ask at 102; the best ask, the lowest, is
    101. -/
theorem printBook_skips_best_ask :
    Reachable 2 twoAsks ∧ twoAsks.book.bestAsk = some 101 ∧
      (twoAsks.book.asks.entries.take 1).map BookPrinter.row = [(101, 1)] ∧
      (BookPrinter.printBook twoAsks.book 1).asks = [(102, 1)] := by
  have h₁ : Reachable 1 (MatchingEngine.init.exec (.submitOrder .sell 101 1)).2 :=
    .step (.submitOrder .sell 101 1) .init
  refine ⟨.step (.submitOrder .sell 102 1) h₁, ?_⟩
  rw [twoAsks, h₁.wf.exec_submitOrder, MatchingEngine.init_wf.exec_submitOrder]
  decide

end LimitOrderBook
