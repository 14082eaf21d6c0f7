/-
  LimitOrderBook.Run

  Runs of the engine's public API from a fresh `MatchingEngine`. A call that
  throws leaves the engine as it was (both `throw`s of `modifyOrder` come
  before any write) and its caller goes on with the next call.

  `Reachable n e`: `e` is reached from `MatchingEngine()` by a run that made
  `n` order submissions, the resubmission of a repriced `modifyOrder` counted.
  The invariants of the book are proved along this relation.
-/
import LimitOrderBook.MatchingEngine

namespace LimitOrderBook

/-- A call of the engine's public API. -/
inductive Call where
  | submitOrder (side : Side) (price : Int) (qty : Quantity)
  | cancelOrder (id : OrderId)
  | modifyOrder (id : OrderId) (newPrice : Int) (newQty : Quantity)

/-- What a call gives back: its trades, the result of a cancel, or the text of
    the exception it threw. -/
inductive Reply where
  | trades (ts : List Trade)
  | cancelled (ok : Bool)
  | error (msg : String)

namespace MatchingEngine

/-- Run one call. -/
def exec (e : MatchingEngine) : Call → Reply × MatchingEngine
  | .submitOrder side price qty => let r := e.submitOrder side price qty; (.trades r.1, r.2)
  | .cancelOrder id => let r := e.cancelOrder id; (.cancelled r.1, r.2)
  | .modifyOrder id newPrice newQty =>
    match e.modifyOrder id newPrice newQty with
    | .ok r => (.trades r.1, r.2)
    | .error msg => (.error msg, e)

end MatchingEngine

/-- How many times a call runs `submitOrder`. -/
def Call.submissions (e : MatchingEngine) : Call → Nat
  | .submitOrder .. => 1
  | .cancelOrder _ => 0
  | .modifyOrder id newPrice _ =>
    match e.book.getOrder id with
    | some o => if newPrice = (e.storage.orders o).price then 0 else 1
    | none => 0

/-- `e` is reached from a fresh engine by a run making `n` submissions. -/
inductive Reachable : Nat → MatchingEngine → Prop
  | init : Reachable 0 MatchingEngine.init
  | step {n : Nat} {e : MatchingEngine} (c : Call) :
      Reachable n e → Reachable (n + c.submissions e) (e.exec c).2

end LimitOrderBook
