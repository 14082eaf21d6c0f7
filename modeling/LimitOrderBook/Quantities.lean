/-
  LimitOrderBook.Quantities

  The quantities of the book. Every level's `totalQty_` is the sum of its
  orders' remaining quantities, in `uint64_t` arithmetic: that sum can wrap,
  since nothing bounds what rests at one price. And a same-price
  `modifyOrder` to zero is accepted (`modifyQuantity` only rejects
  `newQty >= quantity`), so an order with nothing left can rest and be
  filled for zero.
-/
import Mathlib
import LimitOrderBook.Index

namespace LimitOrderBook

/-! ## Level totals -/

/-- The `uint64_t` sum of a list of quantities is their exact sum modulo `2^64`. -/
theorem qtySum_toNat (st : Storage) (ps : List Ptr) :
    (qtySum st ps).toNat = (ps.map fun o => (st.qty o).toNat).sum % 2 ^ 64 := by
  induction ps with
  | nil => rfl
  | cons p ps ih =>
    rw [qtySum_cons, Quantity.add_toNat, ih, List.map_cons, List.sum_cons, Nat.add_mod_mod]

/-- **Level totals are the sums of their quantities**: in every reachable
    state each level's `totalQty` is the sum of the remaining quantities of
    the orders it holds, modulo `2^64`. -/
theorem level_total_eq_sum {n : Nat} {e : MatchingEngine} (h : Reachable n e) (s : Side) :
    ∀ x ∈ (e.book.levels s).entries,
      x.2.totalQty.toNat = (x.2.orders.map fun o => (e.storage.orders o).quantity.toNat).sum % 2 ^ 64 :=
  fun x hx => (congrArg UInt64.toNat (h.wf.total s x hx)).trans (qtySum_toNat _ _)

theorem level_total_eq_sum_twoHalfBids : Reachable 2 twoHalfBids ∧
    ∀ x ∈ (twoHalfBids.book.levels .buy).entries,
      x.2.totalQty.toNat =
        (x.2.orders.map fun o => (twoHalfBids.storage.orders o).quantity.toNat).sum % 2 ^ 64 :=
  ⟨twoHalfBids_reachable, level_total_eq_sum twoHalfBids_reachable .buy⟩

/-- Both rest at 100: the level's exact sum is `2^64` and its total has
    wrapped to 0. -/
theorem level_total_wraps : Reachable 2 twoHalfBids ∧
    twoHalfBids.book.bids.entries.map (fun x =>
      (x.1, (x.2.orders.map fun o => (twoHalfBids.storage.orders o).quantity.toNat).sum,
        x.2.totalQty)) = [(100, 2 ^ 64, 0)] := by
  have h₁ : Reachable 1 (MatchingEngine.init.exec (.submitOrder .buy 100 9223372036854775808)).2 :=
    .step (.submitOrder .buy 100 9223372036854775808) .init
  refine ⟨.step (.submitOrder .buy 100 9223372036854775808) h₁, ?_⟩
  rw [twoHalfBids, h₁.wf.exec_submitOrder, MatchingEngine.init_wf.exec_submitOrder]
  decide

/-! ## Orders reduced to zero -/

namespace MatchingEngine

/-- From every state of a run of fewer than `2^64 - 1` submissions, a
    same-price reduce of a resting order to zero is accepted and leaves the
    order resting, with nothing left. -/
theorem Fresh.exec_modifyOrder_zero {n : Nat} {e : MatchingEngine} (hf : e.Fresh n) {s : Side}
    {o : Ptr} (ho : o ∈ restingOrders (e.book.levels s)) (hq : 0 < e.storage.qty o) :
    o ∈ restingOrders ((e.exec (.modifyOrder (e.storage.idOf o) (e.storage.orders o).price 0)).2.book.levels s) ∧
      (e.exec (.modifyOrder (e.storage.idOf o) (e.storage.orders o).price 0)).2.storage.qty o = 0 := by
  rw [hf.exec_modifyOrder_of_lt ho hq]
  refine ⟨?_, Storage.qty_setQuantity_self _ _ _⟩
  rw [OrderBook.levels_setLevels_same, restingOrders_modify]
  exacts [ho, fun _ => rfl]

end MatchingEngine

/-- A buy of 10 at 100, resting as id 1, reduced in place to 0. -/
def zeroBid : MatchingEngine :=
  ((MatchingEngine.init.exec (.submitOrder .buy 100 10)).2.exec (.modifyOrder 1 100 0)).2

/-- It still rests, with quantity 0, and a sell of 5 at 100 fills it for
    `min(5, 0) = 0`: the trade has quantity 0. -/
theorem zero_quantity_trade :
    Reachable 1 zeroBid ∧ 0 ∈ restingOrders (zeroBid.book.levels .buy) ∧ zeroBid.storage.qty 0 = 0 ∧
      (zeroBid.submitOrder .sell 100 5).1 = [⟨1, 2, 100, 0⟩] := by
  have h₁ : Reachable 1 (MatchingEngine.init.exec (.submitOrder .buy 100 10)).2 :=
    .step (.submitOrder .buy 100 10) .init
  have hz : Reachable 1 zeroBid := by
    have h₂ := h₁.step (.modifyOrder 1 100 0)
    have hs : Call.submissions (MatchingEngine.init.exec (.submitOrder .buy 100 10)).2
        (.modifyOrder 1 100 0) = 0 := by
      rw [MatchingEngine.init_wf.exec_submitOrder]; decide
    rwa [hs] at h₂
  refine ⟨hz, ?_⟩
  rw [hz.wf.submitOrder_eq, zeroBid, MatchingEngine.init_wf.exec_submitOrder]
  decide

end LimitOrderBook
