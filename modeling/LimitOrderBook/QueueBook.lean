/-
  LimitOrderBook.QueueBook

  What the engine is for, stated without maps, pointers or an index. A book is
  the queue of resting orders of each side in priority order (best price
  first, earlier first at one price) and the id the next order takes.

  A submission walks the front of the other side's queue while the front
  crosses its limit, trading `min(taker, maker)` at the maker's price: a maker
  brought to zero leaves the queue, a maker left with quantity ends the walk.
  What is left of the taker joins its own queue behind every order priced at
  its price or better. A cancel takes the order with the id out of its queue;
  a modify at the order's price lowers its quantity in place, and at a new
  price cancels it and submits afresh; the two refusals carry the engine's
  texts.

  `LimitOrderBook.Refinement` proves that the engine computes exactly this.
-/
import Mathlib
import LimitOrderBook.Reference

namespace LimitOrderBook

/-- A resting order as the book's user sees it: its id, price and remaining
    quantity. -/
structure Resting where
  id : OrderId
  price : Int
  qty : Quantity
  deriving DecidableEq, Repr

/-- A book: the queue of each side in priority order, and the next id. -/
structure QueueBook where
  bids : List Resting
  asks : List Resting
  nextId : OrderId
  deriving DecidableEq, Repr

namespace QueueBook

/-- The empty book; ids start at 1. -/
def init : QueueBook := ⟨[], [], 1⟩

/-- The queue of side `s`. -/
def queue (b : QueueBook) : Side → List Resting
  | .buy => b.bids
  | .sell => b.asks

/-- Replace the queue of side `s`. -/
def setQueue (b : QueueBook) : Side → List Resting → QueueBook
  | .buy, l => { b with bids := l }
  | .sell, l => { b with asks := l }

@[simp] theorem queue_setQueue_same (b : QueueBook) (s : Side) (l : List Resting) :
    (b.setQueue s l).queue s = l := by
  cases s <;> rfl

@[simp] theorem queue_setQueue_opposite (b : QueueBook) (s : Side) (l : List Resting) :
    (b.setQueue s l).queue s.opposite = b.queue s.opposite := by
  cases s <;> rfl

@[simp] theorem nextId_setQueue (b : QueueBook) (s : Side) (l : List Resting) :
    (b.setQueue s l).nextId = b.nextId := by
  cases s <;> rfl

theorem queue_setQueue_of_ne {s s' : Side} (h : s' ≠ s) (b : QueueBook) (l : List Resting) :
    (b.setQueue s l).queue s' = b.queue s' := by
  cases s <;> cases s' <;> first | rfl | exact absurd rfl h

@[simp] theorem queue_withNextId (b : QueueBook) (i : OrderId) (s : Side) :
    ({ b with nextId := i } : QueueBook).queue s = b.queue s := by
  cases s <;> rfl

/-- Two books with the same queues and the same next id are equal. -/
theorem ext_queue {b b' : QueueBook} (hq : ∀ s, b.queue s = b'.queue s)
    (hn : b.nextId = b'.nextId) : b = b' := by
  cases b; cases b'
  have hb := hq .buy
  have ha := hq .sell
  simp only [queue] at hb ha hn
  rw [hb, ha, hn]

/-! ## Submission -/

/-- The walk of taker `n`, of side `side` with limit `p` and quantity `r`,
    down the other side's queue: the trades, what is left of the taker, and
    what is left of the queue. -/
def fill (n : OrderId) (side : Side) (p : Int) : Quantity → List Resting →
    List Trade × Quantity × List Resting
  | r, [] => ([], r, [])
  | r, o :: os =>
    if 0 < r ∧ crosses side o.price p = true then
      let f := min r o.qty
      let t : Trade := ⟨o.id, n, o.price, f⟩
      if o.qty - f = 0 then
        let w := fill n side p (r - f) os
        (t :: w.1, w.2.1, w.2.2)
      else ([t], r - f, { o with qty := o.qty - f } :: os)
    else ([], r, o :: os)

/-- What is left of a taker joins the queue of side `s` behind every order
    priced at its price or better. -/
def enqueue (s : Side) (o : Resting) : List Resting → List Resting
  | [] => [o]
  | x :: xs => if s.before o.price x.price then o :: x :: xs else x :: enqueue s o xs

/-- `submitOrder(side, p, q)`: the taker takes the next id, walks the other
    side's queue, and what is left of it rests. -/
def submit (b : QueueBook) (side : Side) (p : Int) (q : Quantity) : List Trade × QueueBook :=
  let w := fill b.nextId side p q (b.queue side.opposite)
  let own := if 0 < w.2.1 then enqueue side ⟨b.nextId, p, w.2.1⟩ (b.queue side) else b.queue side
  (w.1, { (b.setQueue side.opposite w.2.2).setQueue side own with nextId := b.nextId + 1 })

@[simp] theorem submit_trades (b : QueueBook) (side : Side) (p : Int) (q : Quantity) :
    (b.submit side p q).1 = (fill b.nextId side p q (b.queue side.opposite)).1 := rfl

@[simp] theorem submit_nextId (b : QueueBook) (side : Side) (p : Int) (q : Quantity) :
    (b.submit side p q).2.nextId = b.nextId + 1 := rfl

@[simp] theorem submit_queue_opposite (b : QueueBook) (side : Side) (p : Int) (q : Quantity) :
    (b.submit side p q).2.queue side.opposite = (fill b.nextId side p q (b.queue side.opposite)).2.2 := by
  simp [submit]

@[simp] theorem submit_queue_same (b : QueueBook) (side : Side) (p : Int) (q : Quantity) :
    (b.submit side p q).2.queue side =
      if 0 < (fill b.nextId side p q (b.queue side.opposite)).2.1 then
        enqueue side ⟨b.nextId, p, (fill b.nextId side p q (b.queue side.opposite)).2.1⟩ (b.queue side)
      else b.queue side := by
  simp [submit]

/-! ## Cancel and modify -/

/-- The side and the resting order that carry id `i`: the bids are searched
    first. -/
def find (b : QueueBook) (i : OrderId) : Option (Side × Resting) :=
  match b.bids.find? (·.id == i) with
  | some o => some (.buy, o)
  | none => (b.asks.find? (·.id == i)).map fun o => (.sell, o)

/-- `cancelOrder(i)`: take the order with id `i` out of its queue. -/
def cancel (b : QueueBook) (i : OrderId) : Bool × QueueBook :=
  match b.find i with
  | some (s, _) => (true, b.setQueue s ((b.queue s).filter (·.id != i)))
  | none => (false, b)

/-- `modifyOrder(i, newPrice, newQty)`: at the order's price, lower its
    quantity where it stands; at a new price, cancel it and submit afresh. -/
def modify (b : QueueBook) (i : OrderId) (newPrice : Int) (newQty : Quantity) :
    Except String (List Trade × QueueBook) :=
  match b.find i with
  | none => .error ("Order not found: " ++ toString i)
  | some (s, o) =>
    if newPrice = o.price then
      if newQty ≥ o.qty then .error "Modify can only redice qty at same price"
      else .ok ([], b.setQueue s ((b.queue s).map fun x => if x.id = i then { x with qty := newQty } else x))
    else .ok ((b.cancel i).2.submit s newPrice newQty)

/-- Run one call. -/
def exec (b : QueueBook) : Call → Reply × QueueBook
  | .submitOrder side price qty => let r := b.submit side price qty; (.trades r.1, r.2)
  | .cancelOrder id => let r := b.cancel id; (.cancelled r.1, r.2)
  | .modifyOrder id newPrice newQty =>
    match b.modify id newPrice newQty with
    | .ok r => (.trades r.1, r.2)
    | .error msg => (.error msg, b)

/-- The replies of a run of calls. -/
def replies (b : QueueBook) : List Call → List Reply
  | [] => []
  | c :: cs => (b.exec c).1 :: (b.exec c).2.replies cs

/-- The book after a run of calls. -/
def run (b : QueueBook) : List Call → QueueBook
  | [] => b
  | c :: cs => (b.exec c).2.run cs

/-! ## Queries -/

/-- The best price of side `s`: the price of the front of its queue. -/
def best (b : QueueBook) (s : Side) : Option Int := (b.queue s).head?.map (·.price)

/-- The best bid and the best ask, when the book has both. -/
def quotes (b : QueueBook) : Option (Int × Int) :=
  match b.best .buy, b.best .sell with
  | some bid, some ask => some (bid, ask)
  | _, _ => none

/-- The spread in dollars. -/
def spread (b : QueueBook) : Option Float := b.quotes.map fun q => Float.ofInt (q.2 - q.1) / 100.0

/-- The mid price in dollars. -/
def midPrice (b : QueueBook) : Option Float :=
  b.quotes.map fun q => Float.ofInt (q.1 + q.2) / 200.0

/-- The best prices' difference and sum fit in `int64_t`, where the engine
    takes them. -/
def QuotesFit (b : QueueBook) : Prop := ∀ q ∈ b.quotes, fitsInt64 (q.2 - q.1) ∧ fitsInt64 (q.1 + q.2)

instance : DecidablePred QuotesFit := fun b => inferInstanceAs (Decidable (∀ q ∈ b.quotes, _))

/-- Every resting order's price satisfies `P`. -/
def PricesIn (P : Int → Prop) (b : QueueBook) : Prop := ∀ s, ∀ x ∈ b.queue s, P x.price

/-- The best price of a side is the price of an order of its queue. -/
theorem mem_of_best {b : QueueBook} {s : Side} {k : Int} (h : b.best s = some k) :
    ∃ x ∈ b.queue s, x.price = k := by
  obtain ⟨x, hx, rfl⟩ := Option.map_eq_some'.mp h
  exact ⟨x, List.mem_of_mem_head? hx, rfl⟩

/-- A book whose prices all fit in 63 bits has quotes that fit in `int64_t`. -/
theorem PricesIn.quotesFit {b : QueueBook} (hb : b.PricesIn fitsInt63) : b.QuotesFit := by
  intro q hq
  cases hbid : b.best .buy with
  | none => simp [quotes, hbid] at hq
  | some bid =>
    cases hask : b.best .sell with
    | none => simp [quotes, hbid, hask] at hq
    | some ask =>
      simp only [quotes, hbid, hask, Option.mem_def, Option.some.injEq] at hq
      subst hq
      obtain ⟨x, hx, rfl⟩ := mem_of_best hbid
      obtain ⟨y, hy, rfl⟩ := mem_of_best hask
      exact fitsInt63.sub_add (hb _ x hx) (hb _ y hy)

/-- The depth of a queue: one row per price, in queue order, with the
    quantity resting at that price, summed as `uint64_t`s. -/
def depth : List Resting → List (Int × Quantity)
  | [] => []
  | o :: os =>
    match depth os with
    | (p, t) :: rows =>
      if o.price = p then (p, o.qty + t) :: rows else (o.price, o.qty) :: (p, t) :: rows
    | [] => [(o.price, o.qty)]

/-- The first row of the depth is at the price of the front of the queue. -/
theorem depth_head : ∀ l : List Resting, (depth l).head?.map (·.1) = l.head?.map (·.price)
  | [] => rfl
  | o :: os => by
    rcases h : depth os with _ | ⟨⟨p, t⟩, rows⟩
    · simp [depth, h]
    · simp only [depth, h]
      split_ifs with hp <;> simp [hp]

/-- A run of orders at one price, followed by a queue whose front is at another
    price, is one row of the depth: the price, and the sum of the run's
    quantities. -/
theorem depth_append_of_price {k : Int} {ys : List Resting} (hy : ∀ y ∈ ys.head?, y.price ≠ k) :
    ∀ (o : Resting) (os : List Resting), (∀ x ∈ o :: os, x.price = k) →
      depth (o :: os ++ ys) = (k, ((o :: os).map (·.qty)).sum) :: depth ys
  | o, [], h => by
    have ho : o.price = k := h o (List.mem_singleton_self o)
    rcases hd : depth ys with _ | ⟨⟨p, t⟩, rows⟩
    · simp [depth, hd, ho]
    · -- the next row is at the front's price, which is not `k`
      have hp : p ≠ k := by
        have := depth_head ys
        rw [hd] at this
        obtain ⟨y, hy', rfl⟩ := Option.map_eq_some'.mp this.symm
        exact hy y hy'
      simp [depth, hd, ho, Ne.symm hp]
  | o, o' :: os, h => by
    rw [List.forall_mem_cons] at h
    rw [List.cons_append, depth, depth_append_of_price hy o' os h.2]
    simp [h.1]

/-! ## The walk of a submission -/

section Fill

variable (n : OrderId) (side : Side) (p : Int)

/-- Each trade names the taker and is at a price within its limit. -/
theorem fill_trade_crosses : ∀ (r : Quantity) (l : List Resting),
    ∀ t ∈ (fill n side p r l).1, t.takerOrderId = n ∧ crosses side t.price p = true
  | _, [], t, ht => by simp [fill] at ht
  | r, o :: os, t, ht => by
    simp only [fill] at ht
    split_ifs at ht with h hz
    · rcases List.mem_cons.mp ht with rfl | ht
      · exact ⟨rfl, h.2⟩
      · exact fill_trade_crosses _ os t ht
    · rw [List.mem_singleton.mp ht]; exact ⟨rfl, h.2⟩
    · cases ht

/-- The makers are the front of the queue, in queue order, each trading at its
    own price. -/
theorem fill_makers : ∀ (r : Quantity) (l : List Resting),
    (fill n side p r l).1.map (fun t => (t.makerOrderId, t.price)) =
      (l.take (fill n side p r l).1.length).map fun o => (o.id, o.price)
  | _, [] => rfl
  | r, o :: os => by
    simp only [fill]
    split_ifs
    · simp only [List.map_cons, List.length_cons, List.take_succ_cons, fill_makers _ os]
    · rfl
    · rfl

/-- The spec's price priority: the better bid is hit first. -/
example : ((init.run [.submitOrder .buy 9900 100, .submitOrder .buy 10000 100]).submit
    .sell 9800 100).1 = [⟨2, 3, 10000, 100⟩] := by decide

/-- The spec's time priority: at one price the older bid is hit first. -/
example : ((init.run [.submitOrder .buy 10000 50, .submitOrder .buy 10000 50]).submit
    .sell 10000 50).1 = [⟨1, 3, 10000, 50⟩] := by decide

/-- The spec's sweep: a buy walks three ask levels, best first. -/
example : ((init.run [.submitOrder .sell 10000 50, .submitOrder .sell 10100 50,
    .submitOrder .sell 10200 50]).submit .buy 10200 150).1 =
    [⟨1, 4, 10000, 50⟩, ⟨2, 4, 10100, 50⟩, ⟨3, 4, 10200, 50⟩] := by decide

/-- The taker's quantity is what it traded plus what is left of it. -/
theorem fill_qty : ∀ (r : Quantity) (l : List Resting),
    ((fill n side p r l).1.map (·.quantity.toNat)).sum + (fill n side p r l).2.1.toNat = r.toNat
  | _, [] => by simp [fill]
  | r, o :: os => by
    have hf : (r - min r o.qty).toNat = r.toNat - (min r o.qty).toNat :=
      Quantity.sub_toNat (Quantity.min_le_left _ _)
    have hle : (min r o.qty).toNat ≤ r.toNat := Quantity.min_le_left _ _
    simp only [fill]
    split_ifs
    · have ih := fill_qty (r - min r o.qty) os
      simp only [List.map_cons, List.sum_cons]
      omega
    · simp only [List.map_cons, List.map_nil, List.sum_cons, List.sum_nil]
      omega
    · simp

/-- Every maker the walk traded with leaves the queue, except that the last one
    may stay at the front with a smaller, positive quantity; the rest of the
    queue is untouched. -/
theorem fill_rest : ∀ (r : Quantity) (l : List Resting),
    (fill n side p r l).2.2 = l.drop (fill n side p r l).1.length ∨
    ∃ j o, (fill n side p r l).1.length = j + 1 ∧ l.drop j = o :: l.drop (j + 1) ∧
      ∃ q, 0 < q ∧ q < o.qty ∧ (fill n side p r l).2.2 = { o with qty := q } :: l.drop (j + 1)
  | _, [] => .inl rfl
  | r, o :: os => by
    simp only [fill]
    split_ifs with h hz
    · rcases fill_rest (r - min r o.qty) os with h' | ⟨j, o', hj, hd, q, hq⟩
      · exact .inl h'
      · exact .inr ⟨j + 1, o', by simp [hj], hd, q, hq⟩
    · -- the maker keeps quantity: it stays, reduced by a positive fill
      refine .inr ⟨0, o, rfl, rfl, o.qty - min r o.qty, ?_, ?_, rfl⟩
      · exact Nat.pos_of_ne_zero fun h0 => hz (UInt64.toNat.inj h0)
      · have h1 := Quantity.sub_toNat (Quantity.min_le_right r o.qty)
        have h2 := Quantity.min_toNat r o.qty
        have h3 : 0 < r.toNat := h.1
        have h4 : (o.qty - min r o.qty).toNat ≠ 0 := fun h0 => hz (UInt64.toNat.inj h0)
        show (o.qty - min r o.qty).toNat < o.qty.toNat
        omega
    · exact .inl rfl

/-- The makers' side loses exactly what the trades carry. -/
theorem fill_maker_qty : ∀ (r : Quantity) (l : List Resting),
    ((fill n side p r l).2.2.map (·.qty.toNat)).sum +
        ((fill n side p r l).1.map (·.quantity.toNat)).sum = (l.map (·.qty.toNat)).sum
  | _, [] => rfl
  | r, o :: os => by
    have hf : (o.qty - min r o.qty).toNat = o.qty.toNat - (min r o.qty).toNat :=
      Quantity.sub_toNat (Quantity.min_le_right _ _)
    have hle : (min r o.qty).toNat ≤ o.qty.toNat := Quantity.min_le_right _ _
    simp only [fill]
    split_ifs with h hz
    · -- the maker is used up: it gave all it had
      have ih := fill_maker_qty (r - min r o.qty) os
      have hz' : (o.qty - min r o.qty).toNat = 0 := by rw [hz]; rfl
      simp only [List.map_cons, List.sum_cons]
      omega
    · simp only [List.map_cons, List.map_nil, List.sum_cons, List.sum_nil]
      omega
    · simp

/-- A walk that made no trade leaves the queue and the taker as they were. -/
theorem fill_of_trades_nil {r : Quantity} {l : List Resting} (h : (fill n side p r l).1 = []) :
    (fill n side p r l).2.2 = l ∧ (fill n side p r l).2.1 = r := by
  have hq := fill_qty n side p r l
  rw [h, List.map_nil, List.sum_nil, Nat.zero_add] at hq
  refine ⟨?_, UInt64.toNat.inj hq⟩
  rcases fill_rest n side p r l with h' | ⟨j, -, hj, -⟩
  · rw [h', h]; rfl
  · rw [h] at hj; cases hj

end Fill

/-! ## Joining a queue -/

theorem enqueue_of_forall_before {s : Side} {o : Resting} :
    ∀ {l : List Resting}, (∀ x ∈ l, s.before o.price x.price) → enqueue s o l = o :: l
  | [], _ => rfl
  | x :: _, h => if_pos (h x (List.mem_cons_self _ _))

theorem enqueue_append_of_forall_not_before {s : Side} {o : Resting} {l₂ : List Resting} :
    ∀ {l₁ : List Resting}, (∀ x ∈ l₁, ¬ s.before o.price x.price) →
      enqueue s o (l₁ ++ l₂) = l₁ ++ enqueue s o l₂
  | [], _ => rfl
  | x :: xs, h => by
    rw [List.forall_mem_cons] at h
    rw [List.cons_append, enqueue, if_neg h.1, enqueue_append_of_forall_not_before h.2,
      List.cons_append]

theorem find?_enqueue (s : Side) (o : Resting) :
    ∀ {l : List Resting}, (∀ x ∈ l, x.id ≠ o.id) → (enqueue s o l).find? (·.id == o.id) = some o
  | [], _ => by simp [enqueue]
  | x :: xs, h => by
    rw [List.forall_mem_cons] at h
    unfold enqueue
    split_ifs
    · simp
    · rw [List.find?_cons_of_neg _ (by simpa using h.1), find?_enqueue s o h.2]

theorem filter_enqueue (s : Side) (o : Resting) :
    ∀ {l : List Resting}, (∀ x ∈ l, x.id ≠ o.id) → (enqueue s o l).filter (·.id != o.id) = l
  | [], _ => by simp [enqueue]
  | x :: xs, h => by
    unfold enqueue
    split_ifs
    · rw [List.filter_cons_of_neg (by simp), List.filter_eq_self.mpr]
      intro y hy
      simpa using h y hy
    · rw [List.forall_mem_cons] at h
      rw [List.filter_cons_of_pos (by simpa using h.1), filter_enqueue s o h.2]

/-! ## Finding an id -/

/-- No order carries the id: it is not found. -/
theorem find_of_forall_ne {b : QueueBook} {i : OrderId} (h : ∀ s, ∀ x ∈ b.queue s, x.id ≠ i) :
    b.find i = none := by
  have hn : ∀ s, (b.queue s).find? (·.id == i) = none := fun s =>
    List.find?_eq_none.mpr fun x hx => by simpa using h s x hx
  simp only [find, show b.bids = b.queue .buy from rfl, show b.asks = b.queue .sell from rfl, hn,
    Option.map_none']

/-- The id is found in the queue of side `s` and carried by no order of the
    other side: it is found there. -/
theorem find_of_find? {b : QueueBook} {i : OrderId} {s : Side} {o : Resting}
    (hs : (b.queue s).find? (·.id == i) = some o) (ho : ∀ x ∈ b.queue s.opposite, x.id ≠ i) :
    b.find i = some (s, o) := by
  have hn : (b.queue s.opposite).find? (·.id == i) = none :=
    List.find?_eq_none.mpr fun x hx => by simpa using ho x hx
  cases s
  · simp only [find, show b.bids = b.queue .buy from rfl, hs]
  · simp only [find, show b.bids = b.queue Side.sell.opposite from rfl, hn,
      show b.asks = b.queue .sell from rfl, hs, Option.map_some']

/-- **Cancelling an order that rested without trading restores the book.**
    When a submission made no trade and no order carried the id it took, a
    cancel of that id succeeds exactly when the submission had quantity, and
    leaves the book as it was before the submission, but for the next id. -/
theorem cancel_submit_of_trades_nil (b : QueueBook) (side : Side) (p : Int) (q : Quantity)
    (hids : ∀ s, ∀ x ∈ b.queue s, x.id ≠ b.nextId) (ht : (b.submit side p q).1 = []) :
    (b.submit side p q).2.cancel b.nextId = (decide (0 < q), { b with nextId := b.nextId + 1 }) := by
  obtain ⟨hrest, hrem⟩ := fill_of_trades_nil b.nextId side p ht
  have hopp : (b.submit side p q).2.queue side.opposite = b.queue side.opposite := by
    rw [submit_queue_opposite, hrest]
  by_cases hq : 0 < q
  · -- the taker rested as the only order with its id, and the cancel takes it out
    have hown : (b.submit side p q).2.queue side =
        enqueue side ⟨b.nextId, p, q⟩ (b.queue side) := by
      rw [submit_queue_same, hrem, if_pos hq]
    have hfind : (b.submit side p q).2.find b.nextId = some (side, ⟨b.nextId, p, q⟩) :=
      find_of_find? (by rw [hown]; exact find?_enqueue side ⟨b.nextId, p, q⟩ (hids side))
        (by rw [hopp]; exact hids side.opposite)
    simp only [cancel, hfind, hown, filter_enqueue side ⟨b.nextId, p, q⟩ (hids side), decide_eq_true hq]
    refine congrArg _ (ext_queue (fun s => ?_) (by simp))
    rcases eq_or_ne s side with rfl | hs
    · simp
    · obtain rfl := OrderBook.eq_opposite_of_ne hs
      rw [queue_setQueue_opposite, hopp]
      rfl
  · -- nothing rested: no order carries the id
    have hown : (b.submit side p q).2.queue side = b.queue side := by
      rw [submit_queue_same, hrem, if_neg hq]
    have hb : (b.submit side p q).2 = { b with nextId := b.nextId + 1 } := by
      refine ext_queue (fun s => ?_) (by simp)
      rcases eq_or_ne s side with rfl | hs
      · rw [hown]; rfl
      · obtain rfl := OrderBook.eq_opposite_of_ne hs
        rw [hopp]; rfl
    have hfind : (b.submit side p q).2.find b.nextId = none := find_of_forall_ne fun s => by
      rw [hb, queue_withNextId]; exact hids s
    simp only [cancel, hfind, decide_eq_false hq]
    rw [hb]

/-- No two resting orders share an id. -/
def IdsUnique (b : QueueBook) : Prop := ((b.bids ++ b.asks).map (·.id)).Nodup

end QueueBook

/-! ## Where a resting order comes from -/

/-- `x` is order `y` with at most its quantity left: same id, same price. -/
def Resting.RemainsOf (x y : Resting) : Prop :=
  x.id = y.id ∧ x.price = y.price ∧ x.qty.toNat ≤ y.qty.toNat

theorem Resting.RemainsOf.refl (x : Resting) : x.RemainsOf x := ⟨rfl, rfl, le_refl _⟩

theorem Resting.RemainsOf.trans {x y z : Resting} (h₁ : x.RemainsOf y) (h₂ : y.RemainsOf z) :
    x.RemainsOf z :=
  ⟨h₁.1.trans h₂.1, h₁.2.1.trans h₂.2.1, h₁.2.2.trans h₂.2.2⟩

namespace QueueBook

theorem mem_enqueue {s : Side} {o x : Resting} : ∀ {l : List Resting}, x ∈ enqueue s o l ↔ x = o ∨ x ∈ l
  | [] => by simp [enqueue]
  | y :: ys => by
    unfold enqueue
    split_ifs
    · exact List.mem_cons
    · rw [List.mem_cons, mem_enqueue, List.mem_cons, or_left_comm]

/-- What a modify can do: fail and leave the book as it is; at the price of
    the order found, lower its quantity below what it has, in place; or, at a
    new price, cancel it and submit afresh on its side. -/
theorem exec_modifyOrder_cases (b : QueueBook) (i : OrderId) (p : Int) (q : Quantity) :
    (∃ msg, b.exec (.modifyOrder i p q) = (.error msg, b)) ∨
    ∃ s o, b.find i = some (s, o) ∧
      ((p = o.price ∧ q < o.qty ∧ b.exec (.modifyOrder i p q) = (.trades [],
          b.setQueue s ((b.queue s).map fun x => if x.id = i then { x with qty := q } else x))) ∨
        (p ≠ o.price ∧ b.exec (.modifyOrder i p q) =
          (.trades ((b.cancel i).2.submit s p q).1, ((b.cancel i).2.submit s p q).2))) := by
  simp only [exec, modify]
  rcases hfind : b.find i with _ | ⟨s, o⟩
  · exact .inl ⟨_, rfl⟩
  · dsimp only
    split_ifs with hp hq
    · exact .inl ⟨_, rfl⟩
    · exact .inr ⟨s, o, rfl, .inl ⟨hp, Quantity.not_le.mp hq, rfl⟩⟩
    · exact .inr ⟨s, o, rfl, .inr ⟨hp, rfl⟩⟩

/-- What is left of the other side's queue after a walk is orders of the
    queue, each with at most its quantity. -/
theorem remainsOf_fill_rest (n : OrderId) (side : Side) (p : Int) (r : Quantity) (l : List Resting)
    {x : Resting} (hx : x ∈ (fill n side p r l).2.2) : ∃ y ∈ l, x.RemainsOf y := by
  rcases fill_rest n side p r l with h | ⟨j, o, -, hd, q, -, hq, h⟩
  · rw [h] at hx
    exact ⟨x, List.mem_of_mem_drop hx, .refl x⟩
  · have ho : o ∈ l := List.mem_of_mem_drop (by rw [hd]; exact List.mem_cons_self _ _)
    rw [h, List.mem_cons] at hx
    rcases hx with rfl | hx
    · exact ⟨o, ho, rfl, rfl, Nat.le_of_lt hq⟩
    · exact ⟨x, List.mem_of_mem_drop hx, .refl x⟩

/-- After a submission, an order of a queue is the new order or an order of
    the queue before, with at most its quantity. -/
theorem remainsOf_submit (b : QueueBook) (side : Side) (p : Int) (q : Quantity) {s : Side}
    {x : Resting} (hx : x ∈ (b.submit side p q).2.queue s) :
    (x.id = b.nextId ∧ x.price = p) ∨ ∃ y ∈ b.queue s, x.RemainsOf y := by
  rcases eq_or_ne s side with rfl | hs
  · rw [submit_queue_same] at hx
    split_ifs at hx
    · rcases mem_enqueue.mp hx with rfl | hx
      · exact .inl ⟨rfl, rfl⟩
      · exact .inr ⟨x, hx, .refl x⟩
    · exact .inr ⟨x, hx, .refl x⟩
  · obtain rfl := OrderBook.eq_opposite_of_ne hs
    rw [submit_queue_opposite] at hx
    exact .inr (remainsOf_fill_rest _ _ _ _ _ hx)

/-- A cancel only takes orders out. -/
theorem mem_cancel {b : QueueBook} {i : OrderId} {s : Side} {x : Resting}
    (hx : x ∈ (b.cancel i).2.queue s) : x ∈ b.queue s := by
  unfold cancel at hx
  split at hx
  · rename_i s' _ _
    rcases eq_or_ne s s' with rfl | hs
    · rw [queue_setQueue_same] at hx
      exact List.mem_of_mem_filter hx
    · rwa [queue_setQueue_of_ne hs] at hx
  · exact hx

@[simp] theorem cancel_nextId (b : QueueBook) (i : OrderId) : (b.cancel i).2.nextId = b.nextId := by
  unfold cancel
  split <;> simp

theorem find_spec {b : QueueBook} {i : OrderId} {s : Side} {o : Resting}
    (h : b.find i = some (s, o)) : o ∈ b.queue s ∧ o.id = i := by
  unfold find at h
  split at h
  · rename_i o' ho
    cases h
    exact ⟨List.mem_of_find?_eq_some ho, by simpa using List.find?_some ho⟩
  · obtain ⟨o', ho, ho'⟩ := Option.map_eq_some'.mp h
    cases ho'
    exact ⟨List.mem_of_find?_eq_some ho, by simpa using List.find?_some ho⟩

theorem find_isSome_iff (b : QueueBook) (i : OrderId) :
    (b.find i).isSome ↔ ∃ s, ∃ x ∈ b.queue s, x.id = i := by
  constructor
  · intro h
    obtain ⟨⟨s, o⟩, hso⟩ := Option.isSome_iff_exists.mp h
    exact ⟨s, o, find_spec hso⟩
  · rintro ⟨s, x, hx, rfl⟩
    by_contra hn
    rw [Option.not_isSome_iff_eq_none, find] at hn
    split at hn
    · cases hn
    · rename_i hb
      have ha := Option.map_eq_none'.mp hn
      cases s
      · exact absurd hb (List.find?_eq_none.not.mpr fun h => by simpa using h x hx)
      · exact absurd ha (List.find?_eq_none.not.mpr fun h => by simpa using h x hx)

/-- Two resting orders with one id are one order, on one side. -/
theorem IdsUnique.eq {b : QueueBook} (hu : b.IdsUnique) {s s' : Side} {x y : Resting}
    (hx : x ∈ b.queue s) (hy : y ∈ b.queue s') (h : x.id = y.id) : s = s' ∧ x = y := by
  have hmem : ∀ (s : Side) (x : Resting), x ∈ b.queue s → x ∈ b.bids ++ b.asks := fun s x hx => by
    cases s
    · exact List.mem_append_left _ hx
    · exact List.mem_append_right _ hx
  have hxy := List.inj_on_of_nodup_map hu (hmem s x hx) (hmem s' y hy) h
  subst hxy
  refine ⟨?_, rfl⟩
  unfold IdsUnique at hu
  rw [List.map_append, List.nodup_append] at hu
  cases s <;> cases s'
  · rfl
  · exact absurd (List.mem_map_of_mem _ hy) (hu.2.2 (List.mem_map_of_mem (·.id) hx))
  · exact absurd (List.mem_map_of_mem _ hx) (hu.2.2 (List.mem_map_of_mem (·.id) hy))
  · rfl

/-- After a call, an order of a queue is the order just submitted or an order
    of the queue before, with at most its quantity: nothing changes side or
    price, and nothing grows. -/
theorem remainsOf_exec {b : QueueBook} (hu : b.IdsUnique) (c : Call) {s : Side} {x : Resting}
    (hx : x ∈ (b.exec c).2.queue s) : x.id = b.nextId ∨ ∃ y ∈ b.queue s, x.RemainsOf y := by
  cases c with
  | submitOrder side p q => exact (remainsOf_submit b side p q hx).imp_left And.left
  | cancelOrder i => exact .inr ⟨x, mem_cancel hx, .refl x⟩
  | modifyOrder i p q =>
    rcases exec_modifyOrder_cases b i p q with ⟨msg, he⟩ | ⟨s', o, hfind, ⟨-, hq, he⟩ | ⟨-, he⟩⟩ <;>
      simp only [he] at hx
    · exact .inr ⟨x, hx, .refl x⟩
    · -- the reduce: only the order found changes, and it falls
      obtain ⟨ho, hoi⟩ := find_spec hfind
      rcases eq_or_ne s s' with rfl | hs
      · rw [queue_setQueue_same] at hx
        obtain ⟨y, hy, rfl⟩ := List.mem_map.mp hx
        refine .inr ⟨y, hy, ?_⟩
        split_ifs with hyi
        · obtain ⟨-, rfl⟩ := hu.eq hy ho (hyi.trans hoi.symm)
          exact ⟨rfl, rfl, Nat.le_of_lt hq⟩
        · exact .refl y
      · rw [queue_setQueue_of_ne hs] at hx
        exact .inr ⟨x, hx, .refl x⟩
    · -- a new price: the cancel takes the order out, the submission adds one
      rcases remainsOf_submit _ s' p q hx with h | ⟨y, hy, hxy⟩
      · exact .inl (h.1.trans (cancel_nextId b i))
      · exact .inr ⟨y, mem_cancel hy, hxy⟩

/-! ## Prices -/

section Prices

variable {P : Int → Prop} {b : QueueBook}

/-- A submission rests no price but its own. -/
theorem PricesIn.submit (hb : b.PricesIn P) {p : Int} (hp : P p) (side : Side) (q : Quantity) :
    (b.submit side p q).2.PricesIn P := fun s x hx => by
  rcases remainsOf_submit b side p q hx with ⟨-, h⟩ | ⟨y, hy, -, h, -⟩
  · exact h ▸ hp
  · exact h ▸ hb s y hy

theorem PricesIn.cancel (hb : b.PricesIn P) (i : OrderId) : (b.cancel i).2.PricesIn P :=
  fun s x hx => hb s x (mem_cancel hx)

/-- A modify rests no price but the ones there and its own. -/
theorem PricesIn.modify (hb : b.PricesIn P) {i : OrderId} {p : Int} (hp : P p) {q : Quantity}
    {r : List Trade × QueueBook} (hr : b.modify i p q = .ok r) : r.2.PricesIn P := by
  have he : b.exec (.modifyOrder i p q) = (.trades r.1, r.2) := by simp [exec, hr]
  rcases exec_modifyOrder_cases b i p q with ⟨msg, he'⟩ | ⟨s, o, -, ⟨-, -, he'⟩ | ⟨-, he'⟩⟩ <;>
    rw [he'] at he <;> simp only [Prod.mk.injEq, reduceCtorEq, false_and, Reply.trades.injEq] at he
  · -- the reduce changes quantities only
    intro s' x hx
    rw [← he.2] at hx
    rcases eq_or_ne s' s with rfl | hs
    · rw [queue_setQueue_same] at hx
      obtain ⟨y, hy, rfl⟩ := List.mem_map.mp hx
      split_ifs <;> exact hb _ y hy
    · rw [queue_setQueue_of_ne hs] at hx
      exact hb _ x hx
  · exact he.2 ▸ (hb.cancel i).submit hp s q

end Prices

/-! ## Where a resting order goes -/

/-- Every order of the queue walked stays in it, or is filled whole by a trade
    of the walk. -/
theorem fill_stays_or_filled (n : OrderId) (side : Side) (p : Int) :
    ∀ (r : Quantity) (l : List Resting), ∀ x ∈ l,
      (∃ y ∈ (fill n side p r l).2.2, y.id = x.id) ∨
        ∃ t ∈ (fill n side p r l).1, t.makerOrderId = x.id ∧ t.quantity = x.qty
  | _, [], x, hx => absurd hx (List.not_mem_nil x)
  | r, o :: os, x, hx => by
    simp only [fill]
    split_ifs with hc hz
    · rcases List.mem_cons.mp hx with rfl | hx
      · -- the front maker is used up: its trade carries all of it
        have hmin : min r x.qty = x.qty := by
          rw [Quantity.eq_iff, Quantity.sub_toNat (Quantity.min_le_right _ _),
            Quantity.min_toNat] at hz
          rw [Quantity.eq_iff, Quantity.min_toNat]
          simp only [Quantity.zero_toNat] at hz
          omega
        exact .inr ⟨_, List.mem_cons_self _ _, rfl, hmin⟩
      · rcases fill_stays_or_filled n side p _ os x hx with h | ⟨t, ht, h⟩
        · exact .inl h
        · exact .inr ⟨t, List.mem_cons_of_mem _ ht, h⟩
    · rcases List.mem_cons.mp hx with rfl | hx
      · exact .inl ⟨_, List.mem_cons_self _ _, rfl⟩
      · exact .inl ⟨x, List.mem_cons_of_mem _ hx, rfl⟩
    · exact .inl ⟨x, hx, rfl⟩

theorem stays_or_filled_submit (b : QueueBook) (side : Side) (p : Int) (q : Quantity) {s : Side}
    {x : Resting} (hx : x ∈ b.queue s) :
    (∃ y ∈ (b.submit side p q).2.queue s, y.id = x.id) ∨
      ∃ t ∈ (b.submit side p q).1, t.makerOrderId = x.id ∧ t.quantity = x.qty := by
  rcases eq_or_ne s side with rfl | hs
  · refine .inl ⟨x, ?_, rfl⟩
    rw [submit_queue_same]
    split_ifs
    · exact mem_enqueue.mpr (.inr hx)
    · exact hx
  · obtain rfl := OrderBook.eq_opposite_of_ne hs
    rw [submit_queue_opposite, submit_trades]
    exact fill_stays_or_filled _ _ _ _ _ x hx

/-- A cancel keeps every order with another id. -/
theorem mem_cancel_of_ne {b : QueueBook} {i : OrderId} {s : Side} {x : Resting}
    (hx : x ∈ b.queue s) (hi : x.id ≠ i) : x ∈ (b.cancel i).2.queue s := by
  unfold cancel
  split
  · rename_i s' _ _
    rcases eq_or_ne s s' with rfl | hs
    · rw [queue_setQueue_same]
      exact List.mem_filter.mpr ⟨hx, by simpa using hi⟩
    · rwa [queue_setQueue_of_ne hs]
  · exact hx

/-- **An order leaves the book only by a cancel, a modify or a fill of all of
    it**: after a call, every order of a queue before it is still in the
    queue, or the call cancels or modifies its id, or the call returns a trade
    that fills all of it as maker. -/
theorem stays_or_leaves_exec (b : QueueBook) (c : Call) {s : Side} {x : Resting}
    (hx : x ∈ b.queue s) :
    (∃ y ∈ (b.exec c).2.queue s, y.id = x.id) ∨ c = .cancelOrder x.id ∨
      (∃ p q, c = .modifyOrder x.id p q) ∨
      ∃ ts, (b.exec c).1 = .trades ts ∧ ∃ t ∈ ts, t.makerOrderId = x.id ∧ t.quantity = x.qty := by
  cases c with
  | submitOrder side p q =>
    rcases stays_or_filled_submit b side p q hx with h | h
    · exact .inl h
    · exact .inr (.inr (.inr ⟨_, rfl, h⟩))
  | cancelOrder i =>
    by_cases hi : x.id = i
    · exact .inr (.inl (hi ▸ rfl))
    · exact .inl ⟨x, mem_cancel_of_ne hx hi, rfl⟩
  | modifyOrder i p q =>
    by_cases hi : x.id = i
    · exact .inr (.inr (.inl ⟨p, q, hi ▸ rfl⟩))
    rcases exec_modifyOrder_cases b i p q with ⟨msg, he⟩ | ⟨s', o, -, ⟨-, -, he⟩ | ⟨-, he⟩⟩ <;>
      rw [he]
    · exact .inl ⟨x, hx, rfl⟩
    · -- the reduce changes only the quantity of orders with id `i`
      refine .inl ⟨x, ?_, rfl⟩
      rcases eq_or_ne s s' with rfl | hs
      · rw [queue_setQueue_same]
        exact List.mem_map.mpr ⟨x, hx, if_neg hi⟩
      · rwa [queue_setQueue_of_ne hs]
    · rcases stays_or_filled_submit _ s' p q (mem_cancel_of_ne hx hi) with h | h
      · exact .inl h
      · exact .inr (.inr (.inr ⟨_, rfl, h⟩))

/-! ## Ids -/

/-- With unique ids, a cancel leaves no order with the id. -/
theorem IdsUnique.find_cancel {b : QueueBook} (hu : b.IdsUnique) (i : OrderId) :
    (b.cancel i).2.find i = none := by
  cases hfind : b.find i with
  | none => simp only [cancel, hfind]
  | some so =>
    obtain ⟨ho, hoi⟩ := find_spec hfind
    refine Option.not_isSome_iff_eq_none.mp fun h => ?_
    obtain ⟨s', x, hx, hxi⟩ := (find_isSome_iff _ i).mp h
    simp only [cancel, hfind] at hx
    rcases eq_or_ne s' so.1 with rfl | hs
    · rw [queue_setQueue_same] at hx
      simp [(List.mem_filter.mp hx).2, hxi] at hx
    · rw [queue_setQueue_of_ne hs] at hx
      exact hs (hu.eq hx ho (hxi.trans hoi.symm)).1

/-- A submission brings back no id but its own. -/
theorem find_submit_of_find_none {b : QueueBook} {i : OrderId} (h0 : b.find i = none)
    (hi : i ≠ b.nextId) (side : Side) (p : Int) (q : Quantity) :
    (b.submit side p q).2.find i = none := by
  refine Option.not_isSome_iff_eq_none.mp fun h => ?_
  obtain ⟨s, x, hx, rfl⟩ := (find_isSome_iff _ i).mp h
  rcases remainsOf_submit b side p q hx with h' | ⟨y, hy, hxy⟩
  · exact hi h'.1
  · rw [← Option.not_isSome_iff_eq_none] at h0
    exact h0 ((find_isSome_iff _ _).mpr ⟨s, y, hy, hxy.1.symm⟩)

/-- A submission that made no trade rests under its id, when it has quantity. -/
theorem find_submit_self {b : QueueBook} {side : Side} {p : Int} {q : Quantity}
    (ht : (b.submit side p q).1 = []) (hq : 0 < q) : ((b.submit side p q).2.find b.nextId).isSome := by
  have hrem := (fill_of_trades_nil b.nextId side p ht).2
  refine (find_isSome_iff _ _).mpr ⟨side, ⟨b.nextId, p, q⟩, ?_, rfl⟩
  rw [submit_queue_same, hrem, if_pos hq]
  exact mem_enqueue.mpr (.inl rfl)

/-! ## Who trades -/

/-- Every maker of a walk is an order of the queue walked, trading at its
    price. -/
theorem fill_maker_mem (n : OrderId) (side : Side) (p : Int) (r : Quantity) (l : List Resting)
    {t : Trade} (ht : t ∈ (fill n side p r l).1) :
    ∃ y ∈ l, y.id = t.makerOrderId ∧ y.price = t.price := by
  have hmem : (t.makerOrderId, t.price) ∈
      (l.take (fill n side p r l).1.length).map fun o => (o.id, o.price) := by
    rw [← fill_makers]
    exact List.mem_map_of_mem (fun t => (t.makerOrderId, t.price)) ht
  obtain ⟨y, hy, hyt⟩ := List.mem_map.mp hmem
  exact ⟨y, List.mem_of_mem_take hy, (Prod.mk.inj hyt).1, (Prod.mk.inj hyt).2⟩

theorem trades_submit (b : QueueBook) (side : Side) (p : Int) (q : Quantity) :
    ∀ t ∈ (b.submit side p q).1,
      t.takerOrderId = b.nextId ∧ ∃ s, ∃ y ∈ b.queue s, y.id = t.makerOrderId := fun t ht => by
  rw [submit_trades] at ht
  obtain ⟨y, hy, hyt, -⟩ := fill_maker_mem _ _ _ _ _ ht
  exact ⟨(fill_trade_crosses _ _ _ _ _ t ht).1, side.opposite, y, hy, hyt⟩

/-- Every trade of a call names as taker the order the call submits, and as
    maker an order resting before the call. -/
theorem trades_exec (b : QueueBook) (c : Call) {ts : List Trade} (h : (b.exec c).1 = .trades ts) :
    ∀ t ∈ ts, t.takerOrderId = b.nextId ∧ ∃ s, ∃ y ∈ b.queue s, y.id = t.makerOrderId := by
  cases c with
  | submitOrder side p q => cases h; exact trades_submit b side p q
  | cancelOrder i => cases h
  | modifyOrder i p q =>
    rcases exec_modifyOrder_cases b i p q with ⟨msg, he⟩ | ⟨s', o, -, ⟨-, -, he⟩ | ⟨-, he⟩⟩ <;>
      simp only [he, Reply.trades.injEq, reduceCtorEq] at h
    · simp [← h]
    · -- the resubmission, after the cancel, which only takes orders out
      intro t ht
      obtain ⟨ht', s, y, hy, hyt⟩ := trades_submit _ _ _ _ t (h ▸ ht)
      exact ⟨ht'.trans (cancel_nextId b i), s, y, mem_cancel hy, hyt⟩

/-- The spec's reprice: the buy repriced onto the ask trades as a new order,
    id 3, and the book is left empty. -/
example : init.run [.submitOrder .sell 10100 100, .submitOrder .buy 9900 100,
    .modifyOrder 2 10100 100] = ⟨[], [], 4⟩ := by decide

end QueueBook

end LimitOrderBook
