/-
  LimitOrderBook.Refinement

  The engine computes the queue book of `LimitOrderBook.QueueBook`.
  `MatchingEngine.view` reads a `QueueBook` off the engine: each side's
  resting orders in priority order (levels best first, each front to back),
  with the id, price and quantity their pointers reach in storage, and the
  next id.

  From every state a run reaches, a submission returns the queue book's
  trades and leaves the queue book's state: the two nested loops of `match`
  are the walk down the other side's queue, and `addOrder`, which emplaces
  a level at the order's price and pushes to its back, is the insertion
  behind the orders at its price or better. A cancel and a modify go through
  the index, whose entries name the orders with those ids only while ids do
  not come round; in such runs (`MatchingEngine.Fresh`) they too are the
  queue book's. So a run of fewer than `2^64 - 1` submissions gives the queue
  book's replies, call for call, and ends in the queue book's state.
-/
import LimitOrderBook.Ledger
import LimitOrderBook.QueueBook

namespace LimitOrderBook

/-! ## The view -/

/-- The resting order behind a pointer. -/
def Storage.restingAt (st : Storage) (o : Ptr) : Resting := ⟨st.idOf o, (st.orders o).price, st.qty o⟩

namespace Storage

@[simp] theorem restingAt_id (st : Storage) (o : Ptr) : (st.restingAt o).id = st.idOf o := rfl

@[simp] theorem restingAt_price (st : Storage) (o : Ptr) :
    (st.restingAt o).price = (st.orders o).price := rfl

@[simp] theorem restingAt_qty (st : Storage) (o : Ptr) : (st.restingAt o).qty = st.qty o := rfl

theorem restingAt_setQuantity_ne {r p : Ptr} (h : r ≠ p) (st : Storage) (q : Quantity) :
    (st.setQuantity p q).restingAt r = st.restingAt r := by
  simp only [restingAt, idOf_setQuantity, setQuantity_price, qty, setQuantity_orders_ne h]

theorem restingAt_setQuantity_self (st : Storage) (p : Ptr) (q : Quantity) :
    (st.setQuantity p q).restingAt p = { st.restingAt p with qty := q } := by
  simp [restingAt]

end Storage

namespace MatchingEngine

/-- The queue book the engine holds. -/
def view (e : MatchingEngine) : QueueBook :=
  ⟨(restingOrders e.book.bids).map e.storage.restingAt,
   (restingOrders e.book.asks).map e.storage.restingAt, e.nextOrderId⟩

@[simp] theorem view_queue (e : MatchingEngine) (s : Side) :
    e.view.queue s = (restingOrders (e.book.levels s)).map e.storage.restingAt := by
  cases s <;> rfl

@[simp] theorem view_nextId (e : MatchingEngine) : e.view.nextId = e.nextOrderId := rfl

theorem init_view : init.view = QueueBook.init := rfl

/-- The replies of a run of calls. -/
def replies (e : MatchingEngine) : List Call → List Reply
  | [] => []
  | c :: cs => (e.exec c).1 :: (e.exec c).2.replies cs

end MatchingEngine

/-! ## The walk is the queue book's fill -/

/-- Walking the crossing front of a queue of distinct makers is the queue
    book's fill of their view: the same trades and remainder, and the queue
    without the makers brought to zero, read through the storage the walk
    leaves. -/
theorem fill_map_restingAt (n : OrderId) (side : Side) (p : Int) :
    ∀ (st : Storage) (r : Quantity) (xs : List Ptr), xs.Nodup →
      QueueBook.fill n side p r (xs.map st.restingAt) =
        let w := walk n st r (xs.takeWhile fun o => crosses side (st.orders o).price p)
        (w.trades, w.remaining, (xs.filter (· ∉ w.gone)).map w.storage.restingAt)
  | st, r, [], _ => by simp [QueueBook.fill, walk]
  | st, r, m :: ms, hd => by
    rw [List.nodup_cons] at hd
    by_cases hc : 0 < r ∧ crosses side (st.orders m).price p = true
    · -- the front maker trades `f = min r (qty m)`
      set st' := st.setQuantity m (st.qty m - min r (st.qty m))
      have hms : ms.map st'.restingAt = ms.map st.restingAt :=
        List.map_congr_left fun x hx =>
          Storage.restingAt_setQuantity_ne (ne_of_mem_of_not_mem hx hd.1) _ _
      have ih := fill_map_restingAt n side p st' (r - min r (st.qty m)) ms hd.2
      simp only [st', hms, Storage.setQuantity_price] at ih
      simp only [List.map_cons, List.takeWhile_cons, if_pos hc.2, walk_cons_of_pos n hc.1,
        QueueBook.fill, Storage.restingAt_price, Storage.restingAt_qty, Storage.restingAt_id,
        if_pos hc, Storage.qty_setQuantity_self]
      split_ifs with hz
      · -- the maker is used up: it leaves, and the walk goes on
        rw [ih]
        have hf : (m :: ms).filter (· ∉ m :: (walk n st' (r - min r (st.qty m))
            (ms.takeWhile fun o => crosses side (st.orders o).price p)).gone) =
            ms.filter (· ∉ (walk n st' (r - min r (st.qty m))
              (ms.takeWhile fun o => crosses side (st.orders o).price p)).gone) := by
          rw [List.filter_cons_of_neg (by simp)]
          exact List.filter_congr fun x hx => by
            simp [ne_of_mem_of_not_mem hx hd.1]
        rw [hf]
      · -- the maker keeps quantity: the taker is used up and the walk stops
        rw [min_sub_eq_zero hz, walk_of_not_pos n (lt_irrefl 0)]
        simp only [List.not_mem_nil, not_false_eq_true, decide_True, List.filter_true,
          List.map_cons, hms, Storage.restingAt_setQuantity_self, ← min_sub_eq_zero hz]
        rfl
    · -- the front maker does not trade: neither walk moves
      have hw : walk n st r ((m :: ms).takeWhile fun o => crosses side (st.orders o).price p) =
          ⟨[], st, r, []⟩ := by
        by_cases hr : 0 < r
        · rw [List.takeWhile_cons, if_neg fun h => hc ⟨hr, h⟩]; rfl
        · exact walk_of_not_pos n hr _ _
      simp only [hw, QueueBook.fill, List.map_cons, Storage.restingAt_price, if_neg hc,
        List.not_mem_nil, not_false_eq_true, decide_True, List.filter_true]

/-- After the walk a side lists its orders in the same order, without the
    makers the walk brought to zero. -/
theorem restingOrders_afterWalk {s : Side} (m : LevelMap s) (st st' : Storage) (g : List Ptr) :
    restingOrders (m.afterWalk st st' g) = (restingOrders m).filter (· ∉ g) := by
  simp only [restingOrders, LevelMap.afterWalk]
  induction m.entries with
  | nil => rfl
  | cons x xs ih =>
    simp only [List.map_cons, List.filter_cons, List.flatMap_cons, List.filter_append]
    split_ifs with h
    · rw [List.flatMap_cons, ih]; rfl
    · simp only [Bool.not_eq_true', List.isEmpty_eq_false, ne_eq, not_not, PriceLevel.afterWalk]
        at h
      rw [ih, h, List.nil_append]

/-! ## Resting the taker is the queue book's insertion -/

/-- On entries in priority order, each queue priced at its key, `emplace` of
    a level at the order's price and `addOrder` there list the orders as the
    queue book's insertion does. -/
theorem flatMap_insertEntry_addOrder {s : Side} {st : Storage} {raw : Ptr} {k₀ : Int}
    (hk₀ : (st.orders raw).price = k₀) :
    ∀ {E : List (Int × PriceLevel)}, E.Pairwise (fun a b => s.before a.1 b.1) →
      (∀ x ∈ E, ∀ o ∈ x.2.orders, (st.orders o).price = x.1) →
      (((insertEntry s k₀ PriceLevel.new E).map fun x =>
          if x.1 = k₀ then (x.1, x.2.addOrder st raw) else x).flatMap (·.2.orders)).map
            st.restingAt =
        QueueBook.enqueue s (st.restingAt raw) ((E.flatMap (·.2.orders)).map st.restingAt)
  | [], _, _ => by simp [insertEntry, PriceLevel.new, QueueBook.enqueue]
  | (k, L) :: E, hs, hp => by
    rw [List.pairwise_cons] at hs
    have hL : ∀ x ∈ L.orders.map st.restingAt, x.price = k := by
      simp only [List.mem_map, forall_exists_index, and_imp, forall_apply_eq_imp_iff₂]
      exact fun o ho => hp _ (List.mem_cons_self _ _) o ho
    -- the orders of the levels behind the head are priced behind its key
    have hE : ∀ x ∈ (E.flatMap (·.2.orders)).map st.restingAt, s.before k x.price := by
      simp only [List.mem_map, List.mem_flatMap, forall_exists_index, and_imp]
      rintro _ o y hy hoy rfl
      rw [Storage.restingAt_price, hp y (List.mem_cons_of_mem _ hy) o hoy]
      exact hs.1 y hy
    -- `modify` at a key before every level behind the head keeps them
    have hkeep : s.before k₀ k ∨ k₀ = k →
        (E.map fun x => if x.1 = k₀ then (x.1, x.2.addOrder st raw) else x) = E := by
      intro h
      refine (List.map_congr_left fun y hy => if_neg fun hy' => ?_).trans (List.map_id' E)
      have hky := hs.1 y hy
      rw [hy'] at hky
      rcases h with h | rfl
      · exact s.before_asymm h hky
      · exact s.before_irrefl _ hky
    rcases s.before_trichotomy k₀ k with hb | rfl | hb
    · -- a new level before the head
      have hk : k ≠ k₀ := fun h => s.before_irrefl k (h ▸ hb)
      rw [insertEntry, if_pos hb, List.map_cons, List.map_cons, if_pos rfl, if_neg hk,
        hkeep (.inl hb)]
      simp only [List.flatMap_cons, PriceLevel.addOrder_orders, PriceLevel.new, List.nil_append,
        List.singleton_append, List.map_cons, List.map_nil, List.map_append]
      rw [QueueBook.enqueue_of_forall_before]
      intro x hx
      rcases List.mem_append.mp hx with hx | hx
      · rw [Storage.restingAt_price, hk₀, hL x hx]; exact hb
      · rw [Storage.restingAt_price, hk₀]; exact Side.before_trans hb (hE x hx)
    · -- the level at the order's price: it goes to its back
      rw [insertEntry, if_neg (s.before_irrefl _), if_pos rfl, List.map_cons, if_pos rfl,
        hkeep (.inr rfl)]
      simp only [List.flatMap_cons, PriceLevel.addOrder_orders, List.map_append, List.append_assoc,
        List.map_cons, List.map_nil, List.singleton_append]
      rw [QueueBook.enqueue_append_of_forall_not_before, QueueBook.enqueue_of_forall_before]
      · intro x hx; rw [Storage.restingAt_price, hk₀]; exact hE x hx
      · intro x hx; rw [Storage.restingAt_price, hk₀, hL x hx]; exact s.before_irrefl _
    · -- a level behind the head: the head's orders come first
      have hk : ¬ s.before k₀ k := s.before_asymm hb
      have hne : k₀ ≠ k := fun h => s.before_irrefl k (h ▸ hb)
      rw [insertEntry, if_neg hk, if_neg hne, List.map_cons, if_neg (Ne.symm hne)]
      simp only [List.flatMap_cons, List.map_append]
      rw [QueueBook.enqueue_append_of_forall_not_before,
        flatMap_insertEntry_addOrder hk₀ hs.2 fun x hx => hp x (List.mem_cons_of_mem _ hx)]
      intro x hx; rw [Storage.restingAt_price, hk₀, hL x hx]; exact hk

/-- `addOrder` rests the order as the queue book's insertion does, on a side
    whose queues are priced at their keys. -/
theorem OrderBook.restingOrders_addOrder_same {b : OrderBook} {st : Storage} {raw : Ptr}
    (hp : SideOk st (b.levels (st.orders raw).side)) :
    (restingOrders ((b.addOrder st raw).levels (st.orders raw).side)).map st.restingAt =
      QueueBook.enqueue (st.orders raw).side (st.restingAt raw)
        ((restingOrders (b.levels (st.orders raw).side)).map st.restingAt) := by
  simp only [OrderBook.addOrder, OrderBook.levels_withIndex, OrderBook.levels_setLevels_same]
  exact flatMap_insertEntry_addOrder rfl (b.levels _).sorted hp.price

theorem OrderBook.levels_addOrder_of_ne {b : OrderBook} {st : Storage} {raw : Ptr} {s : Side}
    (hs : s ≠ (st.orders raw).side) : (b.addOrder st raw).levels s = b.levels s := by
  simp [OrderBook.addOrder, OrderBook.levels_setLevels_of_ne hs]

/-! ## `submitOrder` -/

namespace MatchingEngine

variable {e : MatchingEngine}

/-- An order of the taker's side is not among the makers it walks. -/
theorem WF.not_mem_crossingMakers (h : e.WF) {side : Side} {o : Ptr}
    (ho : o ∈ restingOrders (e.book.levels side)) (st : Storage) (p : Int) :
    o ∉ crossingMakers st side p e.book := fun hx => by
  obtain ⟨-, -, -, hs⟩ := h.mem_resting ho
  obtain ⟨-, -, -, hs'⟩ := h.mem_resting ((List.takeWhile_sublist _).subset hx)
  exact absurd (hs.symm.trans hs') (by cases side <;> decide)

/-- The walk leaves every order it does not reach as it was. -/
theorem WF.restingAt_afterReferenceWalk (h : e.WF) (side : Side) (p : Int) (q : Quantity)
    {s : Side} {o : Ptr} (ho : o ∈ restingOrders (e.book.levels s))
    (hx : o ∉ crossingMakers (e.storage.push ⟨e.nextOrderId, side, p, q, q⟩) side p e.book) :
    (afterReferenceWalk e side p q).storage.restingAt o = e.storage.restingAt o := by
  obtain ⟨h₁, -, h₃⟩ := afterReferenceWalk_orders h side p q ho
  simp only [Storage.restingAt, Storage.idOf, h₁, h₃, afterReferenceWalk_qty_of_not_mem h side p q ho hx]

/-- The walk of a submission is the queue book's fill of the other side: its
    trades, its remainder, and the other side without the makers it brought to
    zero. -/
theorem WF.fill_view (h : e.WF) (side : Side) (p : Int) (q : Quantity) :
    QueueBook.fill e.nextOrderId side p q (e.view.queue side.opposite) =
      ((referenceWalk e side p q).trades, (referenceWalk e side p q).remaining,
        ((restingOrders (e.book.levels side.opposite)).filter
          (· ∉ (referenceWalk e side p q).gone)).map (referenceWalk e side p q).storage.restingAt) := by
  set st := e.storage.push ⟨e.nextOrderId, side, p, q, q⟩
  have hxs : (restingOrders (e.book.levels side.opposite)).map e.storage.restingAt =
      (restingOrders (e.book.levels side.opposite)).map st.restingAt :=
    List.map_congr_left fun o ho => by
      simp only [Storage.restingAt, Storage.idOf, Storage.qty, st, h.push_orders ho]
  rw [view_queue, hxs, fill_map_restingAt _ _ _ st q _ (h.sideOk _).nodup, referenceWalk_eq]
  rfl

/-- After the walk the taker's slot holds an order of its side, with its id,
    its price and what is left of it. -/
theorem afterReferenceWalk_taker (e : MatchingEngine) (side : Side) (p : Int) (q : Quantity) :
    ((afterReferenceWalk e side p q).storage.orders e.storage.size).side = side ∧
      (afterReferenceWalk e side p q).storage.restingAt e.storage.size =
        ⟨e.nextOrderId, p, (referenceWalk e side p q).remaining⟩ := by
  obtain ⟨hid, hside, hprice, -⟩ := walk_orders_id e.nextOrderId
    (e.storage.push ⟨e.nextOrderId, side, p, q, q⟩) q
    (crossingMakers (e.storage.push ⟨e.nextOrderId, side, p, q, q⟩) side p e.book) e.storage.size
  simp only [Storage.push_orders_size] at hid hside hprice
  simp only [Storage.restingAt, Storage.idOf, Storage.qty, afterReferenceWalk, referenceWalk_eq,
    Storage.setQuantity_side, Storage.setQuantity_id, Storage.setQuantity_price,
    Storage.setQuantity_orders_self, hid, hside, hprice, and_self]

/-- After a submission the taker's side is the queue book's: what is left of
    the taker joins it behind every order at its price or better. -/
theorem WF.queue_submitOrder_same (h : e.WF) (side : Side) (p : Int) (q : Quantity) :
    (e.submitOrder side p q).2.view.queue side = (e.view.submit side p q).2.queue side := by
  obtain ⟨hside, hraw⟩ := afterReferenceWalk_taker e side p q
  -- the walk did not touch the taker's side
  have hown : (restingOrders ((afterReferenceWalk e side p q).book.levels side)).map
      (afterReferenceWalk e side p q).storage.restingAt =
        (restingOrders (e.book.levels side)).map e.storage.restingAt := by
    rw [afterReferenceWalk_levels_of_ne e side p q (by cases side <;> decide)]
    exact List.map_congr_left fun o ho =>
      h.restingAt_afterReferenceWalk side p q ho (h.not_mem_crossingMakers ho _ p)
  rw [h.submitOrder_eq, QueueBook.submit_queue_same, view_nextId, h.fill_view]
  simp only [referenceSubmit, OrderBook.rest_eq_addOrder, view_queue]
  split_ifs
  · have := OrderBook.restingOrders_addOrder_same ((afterReferenceWalk_wf h side p q).sideOk
      ((afterReferenceWalk e side p q).storage.orders e.storage.size).side)
    rw [hside] at this
    rw [this, hraw, hown]
  · exact hown

/-- After a submission the makers' side is the queue book's: the makers the
    walk brought to zero are gone, the others read through the storage the
    walk left. -/
theorem WF.queue_submitOrder_opposite (h : e.WF) (side : Side) (p : Int) (q : Quantity) :
    (e.submitOrder side p q).2.view.queue side.opposite =
      (e.view.submit side p q).2.queue side.opposite := by
  have hopp : side.opposite ≠ ((afterReferenceWalk e side p q).storage.orders e.storage.size).side := by
    rw [(afterReferenceWalk_taker e side p q).1]; cases side <;> decide
  have hlev : (referenceSubmit e side p q).2.book.levels side.opposite =
      (afterReferenceWalk e side p q).book.levels side.opposite := by
    simp only [referenceSubmit, OrderBook.rest_eq_addOrder]
    split_ifs
    · exact OrderBook.levels_addOrder_of_ne hopp
    · rfl
  rw [h.submitOrder_eq, QueueBook.submit_queue_opposite, view_nextId, h.fill_view, view_queue, hlev,
    afterReferenceWalk_levels_opposite, restingOrders_afterWalk]
  refine List.map_congr_left fun o ho => ?_
  have hne : o ≠ e.storage.size := Nat.ne_of_lt (h.alloc _ o (List.mem_filter.mp ho).1)
  simp only [referenceSubmit, afterReferenceWalk, Storage.restingAt_setQuantity_ne hne]

/-- **A submission is the queue book's**, from every state satisfying the
    invariant: the same trades, and the queue book's state after it. -/
theorem WF.view_submitOrder (h : e.WF) (side : Side) (p : Int) (q : Quantity) :
    (e.submitOrder side p q).1 = (e.view.submit side p q).1 ∧
      (e.submitOrder side p q).2.view = (e.view.submit side p q).2 := by
  refine ⟨?_, QueueBook.ext_queue (fun s => ?_) rfl⟩
  · rw [h.submitOrder_eq, QueueBook.submit_trades, view_nextId, h.fill_view]
    rfl
  · rcases eq_or_ne s side with rfl | hs
    · exact h.queue_submitOrder_same s p q
    · obtain rfl := OrderBook.eq_opposite_of_ne hs
      exact h.queue_submitOrder_opposite side p q

end MatchingEngine

/-! ## `cancelOrder` and `modifyOrder` -/

/-- A sublist of a list without repeats that keeps exactly the members other
    than `o` is the list without `o`. -/
theorem eq_filter_of_sublist {l l' : List Ptr} {o : Ptr} (hsub : l'.Sublist l) (hnd : l.Nodup)
    (hmem : ∀ r, r ∈ l' ↔ r ∈ l ∧ r ≠ o) : l' = l.filter (· ≠ o) := by
  have h₁ : l'.Sublist (l.filter (· ≠ o)) := by
    have := hsub.filter (fun r => decide (r ≠ o))
    rwa [List.filter_eq_self.mpr fun r hr => by simpa using ((hmem r).mp hr).2] at this
  refine h₁.eq_of_length_le ((hnd.filter _).subperm fun r hr => (hmem r).mpr ?_).length_le
  simpa using List.mem_filter.mp hr

namespace MatchingEngine

variable {n : Nat} {e : MatchingEngine}

/-- In a run without a repeated id, the order a side holds under id `i` is the
    one the index names, if that order is of the side. -/
theorem Fresh.find?_restingAt (hf : e.Fresh n) (s : Side) (i : OrderId) :
    ((restingOrders (e.book.levels s)).map e.storage.restingAt).find? (·.id == i) =
      ((e.book.index i).filter fun o => (e.storage.orders o).side = s).map e.storage.restingAt := by
  rw [List.find?_map]
  cases hi : e.book.index i with
  | none =>
    refine congrArg _ (List.find?_eq_none.mpr fun r hr h => ?_)
    have := hf.indexed s r hr
    simp only [Function.comp, Storage.restingAt_id, beq_iff_eq] at h
    rw [h, hi] at this
    cases this
  | some o =>
    obtain ⟨hro, hid⟩ := hf.wf.index i o hi
    have hu : ∀ r ∈ restingOrders (e.book.levels s),
        ((·.id == i) ∘ e.storage.restingAt) r = true → r = o := fun r hr h' =>
      hf.idOf_inj (hf.lt_of_resting hr) (hf.lt_of_resting hro)
        ((beq_iff_eq.mp h').trans hid.symm)
    by_cases hs : (e.storage.orders o).side = s
    · subst hs
      rw [find?_eq_of_unique hro (by simp [hid]) hu]
      simp [Option.filter]
    · rw [List.find?_eq_none.mpr fun r hr h' => ?_]
      · simp [Option.filter, hs]
      obtain rfl := hu r hr h'
      obtain ⟨-, -, -, hs'⟩ := hf.wf.mem_resting hr
      exact hs hs'

/-- In a run without a repeated id, the queue book finds under id `i` the
    order the index names, on its side. -/
theorem Fresh.view_find (hf : e.Fresh n) (i : OrderId) :
    e.view.find i =
      (e.book.index i).map fun o => ((e.storage.orders o).side, e.storage.restingAt o) := by
  have hb : e.view.bids.find? (·.id == i) = _ := hf.find?_restingAt .buy i
  have ha : e.view.asks.find? (·.id == i) = _ := hf.find?_restingAt .sell i
  simp only [QueueBook.find, hb, ha]
  cases hi : e.book.index i with
  | none => rfl
  | some o => cases hs : (e.storage.orders o).side <;> simp [Option.filter, hs]

/-- In a run without a repeated id, a cancel of an indexed id lists each side
    as before, without the order the index names. -/
theorem Fresh.restingOrders_cancelOrder (hf : e.Fresh n) {i : OrderId} {o : Ptr}
    (hi : e.book.index i = some o) (s : Side) :
    restingOrders ((e.cancelOrder i).2.book.levels s) =
      (restingOrders (e.book.levels s)).filter (· ≠ o) :=
  eq_filter_of_sublist (hf.wf.cancelOrder_sub i s).resting (hf.wf.sideOk s).nodup
    fun _ => hf.mem_restingOrders_cancelOrder hi

/-- In a run without a repeated id, the resting order at `r` carries id `i`
    exactly when it is the order the index names. -/
theorem Fresh.eq_iff_idOf_eq (hf : e.Fresh n) {i : OrderId} {o : Ptr}
    (hi : e.book.index i = some o) {s : Side} {r : Ptr} (hr : r ∈ restingOrders (e.book.levels s)) :
    r = o ↔ e.storage.idOf r = i := by
  obtain ⟨hro, hid⟩ := hf.wf.index i o hi
  exact ⟨fun h => h ▸ hid, fun h =>
    hf.idOf_inj (hf.lt_of_resting hr) (hf.lt_of_resting hro) (h.trans hid.symm)⟩

/-- An order the index names rests on its own side only. -/
theorem Fresh.ne_of_side_ne (hf : e.Fresh n) {s : Side} {o r : Ptr}
    (hs : s ≠ (e.storage.orders o).side) (hr : r ∈ restingOrders (e.book.levels s)) : r ≠ o := by
  rintro rfl
  obtain ⟨-, -, -, hs'⟩ := hf.wf.mem_resting hr
  exact hs hs'.symm

/-- **A cancel is the queue book's**, in a run without a repeated id. -/
theorem Fresh.view_cancelOrder (hf : e.Fresh n) (i : OrderId) :
    (e.cancelOrder i).1 = (e.view.cancel i).1 ∧ (e.cancelOrder i).2.view = (e.view.cancel i).2 := by
  cases hi : e.book.index i with
  | none =>
    have : e.cancelOrder i = (false, e) := by
      simp [MatchingEngine.cancelOrder, OrderBook.cancelOrder_of_index_none hi]
    simp [QueueBook.cancel, hf.view_find, hi, this]
  | some o =>
    simp only [QueueBook.cancel, hf.view_find, hi, Option.map_some']
    refine ⟨by rw [hf.cancelOrder_eq hi], QueueBook.ext_queue (fun s => ?_) (by simp; rfl)⟩
    rw [view_queue, hf.restingOrders_cancelOrder hi]
    show ((restingOrders (e.book.levels s)).filter (· ≠ o)).map e.storage.restingAt = _
    rcases eq_or_ne s (e.storage.orders o).side with rfl | hs
    · rw [QueueBook.queue_setQueue_same, view_queue, List.filter_map]
      congr 1
      exact List.filter_congr fun r hr => by
        simp [hf.eq_iff_idOf_eq hi hr, bne, Bool.beq_eq_decide_eq]
    · rw [QueueBook.queue_setQueue_of_ne hs, view_queue,
        List.filter_eq_self.mpr fun r hr => by simpa using hf.ne_of_side_ne hs hr]

/-- **A modify is the queue book's**, in a run without a repeated id: the same
    refusals with the same texts, a same-price reduce in place, and a reprice
    as a cancel and a submission. -/
theorem Fresh.view_exec_modifyOrder (hf : e.Fresh n) (i : OrderId) (p : Int) (q : Quantity) :
    (e.exec (.modifyOrder i p q)).1 = (e.view.exec (.modifyOrder i p q)).1 ∧
      (e.exec (.modifyOrder i p q)).2.view = (e.view.exec (.modifyOrder i p q)).2 := by
  cases hi : e.book.index i with
  | none =>
    simp [MatchingEngine.exec, modifyOrder, OrderBook.getOrder, QueueBook.exec, QueueBook.modify,
      hf.view_find, hi]
  | some o =>
    obtain ⟨hro, hid⟩ := hf.wf.index i o hi
    obtain ⟨L, hL, -, -⟩ := hf.wf.mem_resting hro
    simp only [MatchingEngine.exec, modifyOrder, OrderBook.getOrder, QueueBook.exec,
      QueueBook.modify, hf.view_find, hi, Option.map_some', Storage.restingAt_price,
      Storage.restingAt_qty, Storage.qty]
    split_ifs with hp hq
    · exact ⟨rfl, rfl⟩
    · -- a same-price reduce: only the order's quantity changes
      rw [OrderBook.modifyQuantity_of_index hi (Quantity.not_le.mp hq) hL]
      have hf' : ∀ L : PriceLevel,
          (L.adjustTotal ((e.storage.orders o).quantity - q)).orders = L.orders := fun _ => rfl
      refine ⟨rfl, QueueBook.ext_queue (fun s => ?_) (by simp)⟩
      rw [view_queue]
      dsimp only
      rw [OrderBook.restingOrders_setLevels_modify hf']
      rcases eq_or_ne s (e.storage.orders o).side with rfl | hs
      · rw [QueueBook.queue_setQueue_same, view_queue, List.map_map]
        refine List.map_congr_left fun r hr => ?_
        by_cases hro' : r = o
        · subst hro'
          simp [Storage.restingAt_setQuantity_self, hid]
        · have hri : e.storage.idOf r ≠ i := fun h => hro' ((hf.eq_iff_idOf_eq hi hr).mpr h)
          simp [Storage.restingAt_setQuantity_ne hro', hri]
      · rw [QueueBook.queue_setQueue_of_ne hs, view_queue]
        exact List.map_congr_left fun r hr =>
          Storage.restingAt_setQuantity_ne (hf.ne_of_side_ne hs hr) _ _
    · -- a reprice: a cancel, then a submission
      obtain ⟨h₁, h₂⟩ := (hf.cancelOrder i).wf.view_submitOrder (e.storage.orders o).side p q
      rw [(hf.view_cancelOrder i).2] at h₁ h₂
      exact ⟨congrArg Reply.trades h₁, h₂⟩

/-- **Every call is the queue book's**, in a run without a repeated id. -/
theorem Fresh.view_exec (hf : e.Fresh n) (c : Call) :
    (e.exec c).1 = (e.view.exec c).1 ∧ (e.exec c).2.view = (e.view.exec c).2 := by
  cases c with
  | submitOrder side p q =>
    obtain ⟨h₁, h₂⟩ := hf.wf.view_submitOrder side p q
    exact ⟨congrArg Reply.trades h₁, h₂⟩
  | cancelOrder i =>
    obtain ⟨h₁, h₂⟩ := hf.view_cancelOrder i
    exact ⟨congrArg Reply.cancelled h₁, h₂⟩
  | modifyOrder i p q => exact hf.view_exec_modifyOrder i p q

/-- A run is the queue book's while ids do not come round: the same replies,
    call for call, and the queue book's state at the end. -/
theorem Fresh.view_run (hf : e.Fresh n) (cs : List Call)
    (hn : n + e.runSubmissions cs < 2 ^ 64 - 1) :
    e.replies cs = e.view.replies cs ∧ (e.run cs).view = e.view.run cs := by
  induction cs generalizing n e with
  | nil => exact ⟨rfl, rfl⟩
  | cons c cs ih =>
    simp only [runSubmissions] at hn
    obtain ⟨h₁, h₂⟩ := hf.view_exec c
    obtain ⟨ih₁, ih₂⟩ := ih (hf.exec c (by omega)) (by omega)
    rw [h₂] at ih₁ ih₂
    exact ⟨by rw [replies, QueueBook.replies, h₁, ih₁], by rw [run, QueueBook.run, ih₂]⟩

end MatchingEngine

/-! ## Runs -/

/-- **A submission is the queue book's from every state a run reaches**, ids
    come round or not: it returns the queue book's trades, and the engine
    holds the queue book's queues and next id after it. -/
theorem submitOrder_refines_queueBook {n : Nat} {e : MatchingEngine} (h : Reachable n e)
    (side : Side) (p : Int) (q : Quantity) :
    (e.submitOrder side p q).1 = (e.view.submit side p q).1 ∧
      (e.submitOrder side p q).2.view = (e.view.submit side p q).2 :=
  h.wf.view_submitOrder side p q

theorem submitOrder_refines_queueBook_init :
    Reachable 0 MatchingEngine.init ∧
      ((MatchingEngine.init.submitOrder .buy 100 5).1 =
          (MatchingEngine.init.view.submit .buy 100 5).1 ∧
        (MatchingEngine.init.submitOrder .buy 100 5).2.view =
          (MatchingEngine.init.view.submit .buy 100 5).2) :=
  ⟨.init, submitOrder_refines_queueBook .init .buy 100 5⟩

/-- **The engine is the queue book.** In every run of fewer than `2^64 - 1`
    submissions from a fresh engine, every call (`submitOrder`, `cancelOrder`,
    `modifyOrder`) replies what the queue book's replies, and the engine ends
    holding the queue book's queues and next id. -/
theorem engine_refines_queueBook (cs : List Call)
    (hn : MatchingEngine.init.runSubmissions cs < 2 ^ 64 - 1) :
    MatchingEngine.init.replies cs = QueueBook.init.replies cs ∧
      (MatchingEngine.init.run cs).view = QueueBook.init.run cs := by
  rw [← MatchingEngine.init_view]
  exact MatchingEngine.Fresh.init.view_run cs (by rwa [Nat.zero_add])

/-- A sell of 5 at 101, a buy of 3 at 102 that takes 3 of it, and a cancel of
    what is left. -/
def crossRun : List Call := [.submitOrder .sell 101 5, .submitOrder .buy 102 3, .cancelOrder 1]

theorem engine_refines_queueBook_crossRun :
    MatchingEngine.init.runSubmissions crossRun < 2 ^ 64 - 1 ∧
      (MatchingEngine.init.replies crossRun = QueueBook.init.replies crossRun ∧
        (MatchingEngine.init.run crossRun).view = QueueBook.init.run crossRun) :=
  have hn : MatchingEngine.init.runSubmissions crossRun < 2 ^ 64 - 1 := by
    simp [crossRun, MatchingEngine.runSubmissions, Call.submissions]
  ⟨hn, engine_refines_queueBook crossRun hn⟩

end LimitOrderBook
