/-
  LimitOrderBook.Lifecycle

  What a run does to order ids. `lastOrderId()` is the number of submissions
  the run made, the resubmissions of repriced modifies counted, modulo `2^64`:
  it never falls until the count reaches `2^64`, and then it comes round to 0.

  While ids do not come round, every trade a call returns names as taker the
  order the call submitted, and as maker an order submitted before it; a
  resting order leaves the book only by a cancel or a modify of its id, or by
  a trade that fills all of it; it keeps its side and its price while it
  rests, and its quantity only falls; and an id that has left the book never
  rests again. These are proved on the queue book (`QueueBook.trades_exec`,
  `QueueBook.stays_or_leaves_exec`, `QueueBook.remainsOf_exec`), where each
  call says where each order goes and where each comes from, and carried to
  the engine through `Fresh.view_exec`.
-/
import LimitOrderBook.Observers

namespace LimitOrderBook

/-- A call submits at most once. -/
theorem Call.submissions_le_one (e : MatchingEngine) (c : Call) : c.submissions e ≤ 1 := by
  cases c with
  | modifyOrder id p q =>
    simp only [Call.submissions]
    split
    · split_ifs <;> omega
    · omega
  | _ => simp [Call.submissions]

namespace MatchingEngine

variable {n : Nat} {e : MatchingEngine}

/-- A call moves `nextOrderId` on by the submissions it makes. -/
theorem nextOrderId_exec (e : MatchingEngine) (c : Call) :
    (e.exec c).2.nextOrderId = e.nextOrderId + UInt64.ofNat (c.submissions e) := by
  cases c with
  | submitOrder => rfl
  | cancelOrder => exact (add_zero _).symm
  | modifyOrder id p q =>
    simp only [MatchingEngine.exec]
    split
    · rename_i r hr
      obtain ⟨o, hi, ⟨hp, -, rfl⟩ | ⟨hp, rfl⟩⟩ := modifyOrder_eq_ok hr
      · simp [Call.submissions, OrderBook.getOrder, hi, hp]
      · simp [Call.submissions, OrderBook.getOrder, hi, hp]
        rfl
    · rename_i msg hr
      rcases modifyOrder_eq_error hr with ⟨hi, -⟩ | ⟨o, hi, hp, -, -⟩
      · simp [Call.submissions, OrderBook.getOrder, hi]
      · simp [Call.submissions, OrderBook.getOrder, hi, hp]

theorem Fresh.id_lt_of_mem_view (hf : e.Fresh n) {s : Side} {x : Resting}
    (hx : x ∈ e.view.queue s) : x.id < e.nextOrderId := by
  rw [view_queue] at hx
  obtain ⟨o, ho, rfl⟩ := List.mem_map.mp hx
  exact hf.idOf_lt_next (hf.lt_of_resting ho)

theorem Fresh.run (hf : e.Fresh n) (cs : List Call) (hn : n + e.runSubmissions cs < 2 ^ 64 - 1) :
    (e.run cs).Fresh (n + e.runSubmissions cs) := by
  induction cs generalizing n e with
  | nil => exact hf
  | cons c cs ih =>
    simp only [runSubmissions] at hn ⊢
    rw [← Nat.add_assoc]
    exact ih (hf.exec c (by omega)) (by omega)

/-- An id handed out before a call is still below the next id after it. -/
theorem Fresh.lt_next_exec (hf : e.Fresh n) (c : Call) (hn : n + c.submissions e < 2 ^ 64 - 1)
    {i : OrderId} (hi : i < e.nextOrderId) : i < (e.exec c).2.nextOrderId := by
  rw [Quantity.lt_iff, (hf.exec c hn).next]
  rw [Quantity.lt_iff, hf.next] at hi
  omega

/-- An order resting after a call rested before it, on the same side, at the
    same price, with at least its quantity, unless it is the order the call
    submitted. -/
theorem Fresh.find_exec (hf : e.Fresh n) (c : Call) {i : OrderId} {s s' : Side} {x x' : Resting}
    (hx : e.view.find i = some (s, x)) (hx' : (e.exec c).2.view.find i = some (s', x')) :
    s' = s ∧ x'.RemainsOf x := by
  obtain ⟨hmx, hxi⟩ := QueueBook.find_spec hx
  obtain ⟨hmx', hxi'⟩ := QueueBook.find_spec hx'
  rw [(hf.view_exec c).2] at hmx'
  rcases QueueBook.remainsOf_exec hf.idsUnique_view c hmx' with h | ⟨y, hy, hxy⟩
  · -- the order submitted takes the next id, which no resting order has
    have hlt := hf.id_lt_of_mem_view hmx
    rw [hxi, ← hxi', h, view_nextId, Quantity.lt_iff] at hlt
    exact absurd hlt (Nat.lt_irrefl _)
  · obtain ⟨rfl, rfl⟩ := hf.idsUnique_view.eq hy hmx (hxy.1.symm.trans (hxi'.trans hxi.symm))
    exact ⟨rfl, hxy⟩

/-- An id handed out before a call and not resting does not rest after it. -/
theorem Fresh.find_exec_none (hf : e.Fresh n) (c : Call) {i : OrderId} (hi : i < e.nextOrderId)
    (h0 : e.view.find i = none) : (e.exec c).2.view.find i = none := by
  refine Option.not_isSome_iff_eq_none.mp fun h => ?_
  obtain ⟨s, x, hx, rfl⟩ := (QueueBook.find_isSome_iff _ _).mp h
  rw [(hf.view_exec c).2] at hx
  rcases QueueBook.remainsOf_exec hf.idsUnique_view c hx with h' | ⟨y, hy, hxy⟩
  · rw [h', view_nextId, Quantity.lt_iff] at hi
    exact Nat.lt_irrefl _ hi
  · rw [← Option.not_isSome_iff_eq_none] at h0
    exact h0 ((QueueBook.find_isSome_iff _ _).mpr ⟨s, y, hy, hxy.1.symm⟩)

theorem Fresh.find_run_none (hf : e.Fresh n) (cs : List Call)
    (hn : n + e.runSubmissions cs < 2 ^ 64 - 1) {i : OrderId} (hi : i < e.nextOrderId)
    (h0 : e.view.find i = none) : (e.run cs).view.find i = none := by
  induction cs generalizing n e with
  | nil => exact h0
  | cons c cs ih =>
    simp only [runSubmissions] at hn
    exact ih (hf.exec c (by omega)) (by omega) (hf.lt_next_exec c (by omega) hi)
      (hf.find_exec_none c hi h0)

/-- Over a run, an order that rests at both ends rests on one side at one
    price, and its quantity falls: a call it does not survive ends its id for
    good, and each call it survives leaves what remains of it. -/
theorem Fresh.find_run (hf : e.Fresh n) (cs : List Call) (hn : n + e.runSubmissions cs < 2 ^ 64 - 1)
    {i : OrderId} {s s' : Side} {x x' : Resting} (hx : e.view.find i = some (s, x))
    (hx' : (e.run cs).view.find i = some (s', x')) : s' = s ∧ x'.RemainsOf x := by
  induction cs generalizing n e s x with
  | nil =>
    rw [MatchingEngine.run, hx] at hx'
    cases hx'
    exact ⟨rfl, .refl _⟩
  | cons c cs ih =>
    simp only [runSubmissions] at hn
    have hf' := hf.exec c (by omega)
    rcases hmid : (e.exec c).2.view.find i with _ | ⟨s₁, x₁⟩
    · -- gone after the first call: gone for good
      have hi : i < (e.exec c).2.nextOrderId := by
        obtain ⟨hmx, rfl⟩ := QueueBook.find_spec hx
        exact hf.lt_next_exec c (by omega) (hf.id_lt_of_mem_view hmx)
      rw [MatchingEngine.run, hf'.find_run_none cs (by omega) hi hmid] at hx'
      cases hx'
    · obtain ⟨rfl, h₁⟩ := hf.find_exec c hx hmid
      obtain ⟨rfl, h₂⟩ := ih hf' (by omega) hmid hx'
      exact ⟨rfl, h₂.trans h₁⟩

end MatchingEngine

/-! ## `lastOrderId()` -/

/-- **`lastOrderId()` counts the submissions**, in every run: it is the number
    of orders the run submitted, the resubmissions of repriced modifies
    counted, modulo `2^64`. -/
theorem lastOrderId_counts {n : Nat} {e : MatchingEngine} (h : Reachable n e) :
    e.lastOrderId.toNat = n % 2 ^ 64 := by
  suffices hnext : e.nextOrderId = UInt64.ofNat (n + 1) by
    rw [MatchingEngine.lastOrderId, hnext, ofNat_add_one, add_sub_cancel_right]
    rfl
  induction h with
  | init => rfl
  | @step n e c _ ih =>
    rw [MatchingEngine.nextOrderId_exec, ih]
    rcases Nat.le_one_iff_eq_zero_or_eq_one.mp (Call.submissions_le_one e c) with hc | hc <;>
      rw [hc]
    · exact add_zero _
    · rw [ofNat_add_one (n + 1)]
      rfl

theorem lastOrderId_counts_oneBid : Reachable 1 oneBid ∧ oneBid.lastOrderId.toNat = 1 % 2 ^ 64 :=
  ⟨oneBid_reachable, lastOrderId_counts oneBid_reachable⟩

/-! ## Trades -/

/-- **Every trade is between the order just submitted and an older one**, in
    every run of fewer than `2^64 - 1` submissions: each trade a call returns
    names as taker the id the call handed out, and as maker an order with a
    smaller id. -/
theorem trades_taker_newest {n : Nat} {e : MatchingEngine} (h : Reachable n e)
    (hn : n < 2 ^ 64 - 1) (c : Call) {ts : List Trade} (hts : (e.exec c).1 = .trades ts) :
    ∀ t ∈ ts, t.takerOrderId = e.nextOrderId ∧ t.makerOrderId < t.takerOrderId := by
  have hf := h.fresh hn
  intro t ht
  rw [(hf.view_exec c).1] at hts
  obtain ⟨htaker, s, y, hy, hyt⟩ := QueueBook.trades_exec _ c hts t ht
  rw [MatchingEngine.view_nextId] at htaker
  refine ⟨htaker, ?_⟩
  rw [htaker, ← hyt]
  exact hf.id_lt_of_mem_view hy

/-- A sell of 2 at 99 against the bid of 5 at 100. -/
theorem trades_taker_newest_oneBid :
    Reachable 1 oneBid ∧ 1 < 2 ^ 64 - 1 ∧
    (oneBid.exec (.submitOrder .sell 99 2)).1 = .trades (oneBid.submitOrder .sell 99 2).1 ∧
    ∀ t ∈ (oneBid.submitOrder .sell 99 2).1,
      t.takerOrderId = oneBid.nextOrderId ∧ t.makerOrderId < t.takerOrderId :=
  ⟨oneBid_reachable, by decide, rfl,
    trades_taker_newest oneBid_reachable (by decide) (.submitOrder .sell 99 2) rfl⟩

/-! ## Resting orders -/

/-- **An id that has left the book never rests again**, in every run of fewer
    than `2^64 - 1` submissions: once an id has been handed out and
    `hasOrder` of it fails, it fails after every later run of calls. -/
theorem departed_id_never_returns {n : Nat} {e : MatchingEngine} (h : Reachable n e) (cs : List Call)
    (hn : n + e.runSubmissions cs < 2 ^ 64 - 1) {i : OrderId} (hi : i < e.nextOrderId)
    (hgone : e.book.hasOrder i = false) : (e.run cs).book.hasOrder i = false := by
  have hf := h.fresh (by omega)
  have h0 : e.view.find i = none := by
    rw [hf.hasOrder_view] at hgone
    exact Option.not_isSome_iff_eq_none.mp (by simp [hgone])
  rw [(hf.run cs hn).hasOrder_view, hf.find_run_none cs hn hi h0]
  rfl

/-- The bid of 5 at 100, cancelled. -/
def cancelledBid : MatchingEngine := (oneBid.exec (.cancelOrder 1)).2

theorem cancelledBid_reachable : Reachable 1 cancelledBid := .step (.cancelOrder 1) oneBid_reachable

/-- After the cancel, a new bid at 100 does not bring id 1 back. -/
theorem departed_id_never_returns_cancelledBid :
    Reachable 1 cancelledBid ∧
    1 + cancelledBid.runSubmissions [.submitOrder .buy 100 5] < 2 ^ 64 - 1 ∧
    (1 : OrderId) < cancelledBid.nextOrderId ∧ cancelledBid.book.hasOrder 1 = false ∧
    (cancelledBid.run [.submitOrder .buy 100 5]).book.hasOrder 1 = false :=
  have hn : 1 + cancelledBid.runSubmissions [.submitOrder .buy 100 5] < 2 ^ 64 - 1 := by
    simp [MatchingEngine.runSubmissions, Call.submissions]
  have hi : (1 : OrderId) < cancelledBid.nextOrderId := by
    rw [cancelledBid, oneBid, MatchingEngine.init_wf.exec_submitOrder]; decide
  have hgone : cancelledBid.book.hasOrder 1 = false := by
    rw [cancelledBid, oneBid, MatchingEngine.init_wf.exec_submitOrder]; decide
  ⟨cancelledBid_reachable, hn, hi, hgone,
    departed_id_never_returns cancelledBid_reachable _ hn hi hgone⟩

/-- **A resting order leaves the book only by a cancel, a modify or a fill of
    all of it**, in every run of fewer than `2^64 - 2` submissions: after a
    call, an id that rested before still rests, or the call cancels or
    modifies that id, or the call returns a trade with it as maker for all of
    its remaining quantity. -/
theorem resting_order_not_lost {n : Nat} {e : MatchingEngine} (h : Reachable n e)
    (hn : n + 1 < 2 ^ 64 - 1) (c : Call) {i : OrderId} {s : Side} {x : Resting}
    (hx : e.view.find i = some (s, x)) :
    (e.exec c).2.book.hasOrder i = true ∨ c = .cancelOrder i ∨ (∃ p q, c = .modifyOrder i p q) ∨
      ∃ ts, (e.exec c).1 = .trades ts ∧ ∃ t ∈ ts, t.makerOrderId = i ∧ t.quantity = x.qty := by
  have hf := h.fresh (by omega)
  have hf' := hf.exec c (by have := Call.submissions_le_one e c; omega)
  obtain ⟨hmx, rfl⟩ := QueueBook.find_spec hx
  obtain ⟨h₁, h₂⟩ := hf.view_exec c
  rw [hf'.hasOrder_view, h₁, h₂, QueueBook.find_isSome_iff]
  rcases QueueBook.stays_or_leaves_exec _ c hmx with ⟨y, hy, hyx⟩ | h'
  · exact .inl ⟨s, y, hy, hyx⟩
  · exact .inr h'

/-- A sell of 5 at 100 fills the bid of 5 at 100 whole. -/
theorem resting_order_not_lost_oneBid :
    Reachable 1 oneBid ∧ 1 + 1 < 2 ^ 64 - 1 ∧ oneBid.view.find 1 = some (.buy, ⟨1, 100, 5⟩) ∧
    ((oneBid.exec (.submitOrder .sell 100 5)).2.book.hasOrder 1 = true ∨
      Call.submitOrder .sell 100 5 = .cancelOrder 1 ∨
      (∃ p q, Call.submitOrder .sell 100 5 = .modifyOrder 1 p q) ∨
      ∃ ts, (oneBid.exec (.submitOrder .sell 100 5)).1 = .trades ts ∧
        ∃ t ∈ ts, t.makerOrderId = 1 ∧ t.quantity = (⟨1, 100, 5⟩ : Resting).qty) :=
  have hx : oneBid.view.find 1 = some (.buy, ⟨1, 100, 5⟩) := by
    rw [oneBid, MatchingEngine.init_wf.exec_submitOrder]; decide
  ⟨oneBid_reachable, by decide, hx,
    resting_order_not_lost oneBid_reachable (by decide) (.submitOrder .sell 100 5) hx⟩

/-- **A resting order only shrinks**, in every run of fewer than `2^64 - 1`
    submissions: if id `i` rests before a run and after it, it rests on the
    same side, at the same price, with at most the quantity it had. -/
theorem resting_order_only_shrinks {n : Nat} {e : MatchingEngine} (h : Reachable n e) (cs : List Call)
    (hn : n + e.runSubmissions cs < 2 ^ 64 - 1) {i : OrderId} {s s' : Side} {x x' : Resting}
    (hx : e.view.find i = some (s, x)) (hx' : (e.run cs).view.find i = some (s', x')) :
    s' = s ∧ x'.RemainsOf x :=
  (h.fresh (by omega)).find_run cs hn hx hx'

/-- A sell of 2 at 100 leaves the bid of 5 at 100 with 3. -/
theorem resting_order_only_shrinks_oneBid :
    Reachable 1 oneBid ∧ 1 + oneBid.runSubmissions [.submitOrder .sell 100 2] < 2 ^ 64 - 1 ∧
    oneBid.view.find 1 = some (.buy, ⟨1, 100, 5⟩) ∧
    (oneBid.run [.submitOrder .sell 100 2]).view.find 1 = some (.buy, ⟨1, 100, 3⟩) ∧
    (Side.buy = Side.buy ∧ (⟨1, 100, 3⟩ : Resting).RemainsOf ⟨1, 100, 5⟩) :=
  have hn : 1 + oneBid.runSubmissions [.submitOrder .sell 100 2] < 2 ^ 64 - 1 := by
    simp [MatchingEngine.runSubmissions, Call.submissions]
  have hx : oneBid.view.find 1 = some (.buy, ⟨1, 100, 5⟩) := by
    rw [oneBid, MatchingEngine.init_wf.exec_submitOrder]; decide
  have hx' : (oneBid.run [.submitOrder .sell 100 2]).view.find 1 = some (.buy, ⟨1, 100, 3⟩) := by
    show (oneBid.exec (.submitOrder .sell 100 2)).2.view.find 1 = _
    rw [oneBid_reachable.wf.exec_submitOrder, oneBid, MatchingEngine.init_wf.exec_submitOrder]
    decide
  ⟨oneBid_reachable, hn, hx, hx', resting_order_only_shrinks oneBid_reachable _ hn hx hx'⟩

end LimitOrderBook
