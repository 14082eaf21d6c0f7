/-
  LimitOrderBook.Index

  The book's index against its levels, and the two calls that go through the
  index: `cancelOrder` and `modifyOrder`. In runs of fewer than `2^64 - 1`
  submissions (`Reachable.fresh`) the index maps exactly the ids queued in the
  levels to their orders and ids grow from front to back in every level. In
  every run whose orders fit in the vector (`Reachable.fresh_of_le_maxSize`)
  a cancel takes out exactly the order its id names, and a same-price reduce
  writes exactly that order's quantity.
-/
import LimitOrderBook.Fresh

namespace LimitOrderBook

/-- The index and the levels agree: every level is non-empty and holds orders
    of its side priced at its key; every id in the book sits at exactly one
    position of one level; the index maps exactly those ids to their orders;
    every id in the book is below `nextOrderId`; so `hasOrder(id)` holds iff
    `id` rests, and the best prices are prices of resting orders. -/
structure MatchingEngine.IndexExact (e : MatchingEngine) : Prop where
  levels : ∀ s, ∀ x ∈ (e.book.levels s).entries, x.2.orders ≠ [] ∧
    ∀ o ∈ x.2.orders, (e.storage.orders o).side = s ∧ (e.storage.orders o).price = x.1
  idsUnique : ((restingOrders (e.book.levels .buy) ++ restingOrders (e.book.levels .sell)).map
    e.storage.idOf).Nodup
  index : ∀ id o, e.book.index id = some o ↔
    ∃ s, o ∈ restingOrders (e.book.levels s) ∧ e.storage.idOf o = id
  belowNext : ∀ s, ∀ o ∈ restingOrders (e.book.levels s), e.storage.idOf o < e.nextOrderId
  hasOrder : ∀ id, e.book.hasOrder id = true ↔
    ∃ s, ∃ o ∈ restingOrders (e.book.levels s), e.storage.idOf o = id
  bestBid : ∀ b, e.book.bestBid = some b →
    ∃ o ∈ restingOrders (e.book.levels .buy), (e.storage.orders o).price = b
  bestAsk : ∀ a, e.book.bestAsk = some a →
    ∃ o ∈ restingOrders (e.book.levels .sell), (e.storage.orders o).price = a

namespace MatchingEngine

variable {n : Nat} {e : MatchingEngine}

theorem Fresh.idOf_lt_next (hf : e.Fresh n) {o : Nat} (ho : o < n) :
    e.storage.idOf o < e.nextOrderId := by
  show (e.storage.orders o).id.toNat < e.nextOrderId.toNat
  rw [hf.ids o ho, hf.next]; omega

/-- The best level of a side holds a resting order priced at its key. -/
theorem WF.best_resting (h : e.WF) {s : Side} {k : Int} {L : PriceLevel}
    (hb : (e.book.levels s).begin = some (k, L)) :
    ∃ o ∈ restingOrders (e.book.levels s), (e.storage.orders o).price = k := by
  have hL := LevelMap.begin_mem hb
  obtain ⟨o, ho⟩ := List.exists_mem_of_ne_nil _ ((h.sideOk s).nonempty _ hL)
  exact ⟨o, mem_restingOrders.mpr ⟨_, hL, ho⟩, (h.sideOk s).price _ hL o ho⟩

theorem Fresh.indexExact (hf : e.Fresh n) : e.IndexExact where
  levels s x hx := ⟨(hf.wf.sideOk s).nonempty x hx, fun o ho =>
    ⟨hf.wf.side s x hx o ho, (hf.wf.sideOk s).price x hx o ho⟩⟩
  idsUnique := by
    refine List.Nodup.map_on (fun a ha b hb hab => ?_) (List.nodup_append.mpr
      ⟨(hf.wf.sideOk _).nodup, (hf.wf.sideOk _).nodup, fun o hb ha => ?_⟩)
    · have hlt : ∀ r ∈ restingOrders (e.book.levels .buy) ++ restingOrders (e.book.levels .sell),
          r < n := fun r hr => by
        rcases List.mem_append.mp hr with hr | hr <;> exact hf.lt_of_resting hr
      exact hf.idOf_inj (hlt a ha) (hlt b hb) hab
    · obtain ⟨-, -, -, hs⟩ := hf.wf.mem_resting hb
      obtain ⟨-, -, -, hs'⟩ := hf.wf.mem_resting ha
      exact absurd (hs.symm.trans hs') (by decide)
  index id o := ⟨fun hi => ⟨_, hf.wf.index id o hi⟩, fun ⟨s, ho, hid⟩ => hid ▸ hf.indexed s o ho⟩
  belowNext s o ho := hf.idOf_lt_next (hf.lt_of_resting ho)
  hasOrder id := by
    simp only [OrderBook.hasOrder, Option.isSome_iff_exists]
    constructor
    · rintro ⟨o, hi⟩; exact ⟨_, o, hf.wf.index id o hi⟩
    · rintro ⟨s, o, ho, rfl⟩; exact ⟨o, hf.indexed s o ho⟩
  bestBid b hb := by
    obtain ⟨⟨k, L⟩, hb', rfl⟩ := Option.map_eq_some'.mp hb
    exact hf.wf.best_resting hb'
  bestAsk a ha := by
    obtain ⟨⟨k, L⟩, ha', rfl⟩ := Option.map_eq_some'.mp ha
    exact hf.wf.best_resting ha'

end MatchingEngine

/-- **The index is exact** in every run of fewer than `2^64 - 1` submissions. -/
theorem index_exact {n : Nat} {e : MatchingEngine} (h : Reachable n e) (hn : n < 2 ^ 64 - 1) :
    e.IndexExact :=
  (h.fresh hn).indexExact

/-- A buy of 5 at 100, resting as id 1. -/
def oneBid : MatchingEngine := (MatchingEngine.init.exec (.submitOrder .buy 100 5)).2

theorem oneBid_reachable : Reachable 1 oneBid := .step (.submitOrder .buy 100 5) .init

/-- Two buys of `2^63` at 100, queued in one level as ids 1 and 2. -/
def twoHalfBids : MatchingEngine :=
  ((MatchingEngine.init.exec (.submitOrder .buy 100 9223372036854775808)).2.exec
    (.submitOrder .buy 100 9223372036854775808)).2

theorem twoHalfBids_reachable : Reachable 2 twoHalfBids :=
  .step (.submitOrder .buy 100 9223372036854775808) (.step (.submitOrder .buy 100 9223372036854775808) .init)

theorem index_exact_oneBid : Reachable 1 oneBid ∧ 1 < 2 ^ 64 - 1 ∧ oneBid.IndexExact :=
  ⟨oneBid_reachable, by decide, index_exact oneBid_reachable (by decide)⟩

/-- **Levels are queued in submission order**: in every run of fewer than
    `2^64 - 1` submissions the ids of each level strictly increase from front
    to back. -/
theorem level_ids_increasing {n : Nat} {e : MatchingEngine} (h : Reachable n e)
    (hn : n < 2 ^ 64 - 1) :
    ∀ s, ∀ x ∈ (e.book.levels s).entries, (x.2.orders.map e.storage.idOf).Pairwise (· < ·) := by
  have hf := h.fresh hn
  intro s x hx
  refine List.pairwise_map.mpr ((hf.ordered s x hx).imp_of_mem fun {a b} ha hb hab => ?_)
  have hab' : @LT.lt Nat _ a b := hab
  have hlt : ∀ r ∈ x.2.orders, r < n := fun r hr => hf.lt_of_resting (mem_restingOrders.mpr ⟨x, hx, hr⟩)
  show (e.storage.orders _).id.toNat < (e.storage.orders _).id.toNat
  rw [hf.ids _ (hlt _ ha), hf.ids _ (hlt _ hb)]; omega

theorem level_ids_increasing_twoHalfBids : Reachable 2 twoHalfBids ∧ 2 < 2 ^ 64 - 1 ∧
    ∀ s, ∀ x ∈ (twoHalfBids.book.levels s).entries,
      (x.2.orders.map twoHalfBids.storage.idOf).Pairwise (· < ·) :=
  ⟨twoHalfBids_reachable, by decide, level_ids_increasing twoHalfBids_reachable (by decide)⟩

/-! ## `cancelOrder` -/

/-- **`cancelOrder` takes out exactly the named order**, in every run whose
    orders fit in the vector: it answers `hasOrder(id)`; when that fails
    nothing changes; otherwise the order the index names leaves its level and
    the index, and nothing else changes; a second cancel of the same id
    answers false and changes nothing. -/
theorem cancelOrder_spec {n : Nat} {e : MatchingEngine} (h : Reachable n e)
    (hcap : e.storage.size ≤ Storage.maxSize) (id : OrderId) :
    (e.cancelOrder id).1 = e.book.hasOrder id ∧
    (e.book.hasOrder id = false → (e.cancelOrder id).2 = e) ∧
    (∀ o, e.book.index id = some o →
      (e.cancelOrder id).2 = { e with book := e.book.unlink e.storage id o }) ∧
    (e.cancelOrder id).2.cancelOrder id = (false, (e.cancelOrder id).2) := by
  have hf := h.fresh_of_le_maxSize hcap
  cases hi : e.book.index id with
  | none =>
    simp [MatchingEngine.cancelOrder, OrderBook.cancelOrder_of_index_none hi, OrderBook.hasOrder,
      hi]
  | some o =>
    rw [hf.cancelOrder_eq hi]
    refine ⟨by simp [OrderBook.hasOrder, hi], by simp [OrderBook.hasOrder, hi], ?_, ?_⟩
    · rintro o' ⟨⟩; rfl
    · simp [MatchingEngine.cancelOrder, OrderBook.cancelOrder, OrderBook.unlink]

theorem cancelOrder_spec_oneBid : Reachable 1 oneBid ∧ oneBid.storage.size ≤ Storage.maxSize ∧
    (oneBid.cancelOrder 1).1 = oneBid.book.hasOrder 1 ∧
    (oneBid.book.hasOrder 1 = false → (oneBid.cancelOrder 1).2 = oneBid) ∧
    (∀ o, oneBid.book.index 1 = some o →
      (oneBid.cancelOrder 1).2 = { oneBid with book := oneBid.book.unlink oneBid.storage 1 o }) ∧
    (oneBid.cancelOrder 1).2.cancelOrder 1 = (false, (oneBid.cancelOrder 1).2) :=
  have hcap : oneBid.storage.size ≤ Storage.maxSize := by rw [oneBid_reachable.size]; decide
  ⟨oneBid_reachable, hcap, cancelOrder_spec oneBid_reachable hcap 1⟩

/-! ## `modifyOrder` -/

namespace MatchingEngine

variable {n : Nat} {e : MatchingEngine}

theorem Fresh.exec_modifyOrder_of_not_resting (hf : e.Fresh n) {id : OrderId}
    (hno : ∀ s, ∀ o ∈ restingOrders (e.book.levels s), e.storage.idOf o ≠ id) (p : Int)
    (q : Quantity) :
    e.exec (.modifyOrder id p q) = (.error ("Order not found: " ++ toString id), e) := by
  have hi : e.book.index id = none := by
    cases hi : e.book.index id with
    | none => rfl
    | some o =>
      obtain ⟨hro, hid⟩ := hf.wf.index id o hi
      exact absurd hid (hno _ o hro)
  simp [MatchingEngine.exec, MatchingEngine.modifyOrder, OrderBook.getOrder, hi]

theorem Fresh.exec_modifyOrder_of_le (hf : e.Fresh n) {s : Side} {o : Ptr}
    (ho : o ∈ restingOrders (e.book.levels s)) {q : Quantity}
    (hq : (e.storage.orders o).quantity ≤ q) :
    e.exec (.modifyOrder (e.storage.idOf o) (e.storage.orders o).price q) =
      (.error "Modify can only redice qty at same price", e) := by
  simp [MatchingEngine.exec, MatchingEngine.modifyOrder, OrderBook.getOrder, hf.indexed s o ho, hq]

theorem Fresh.exec_modifyOrder_of_lt (hf : e.Fresh n) {s : Side} {o : Ptr}
    (ho : o ∈ restingOrders (e.book.levels s)) {q : Quantity}
    (hq : q < (e.storage.orders o).quantity) :
    e.exec (.modifyOrder (e.storage.idOf o) (e.storage.orders o).price q) =
      (.trades [], { e with
        book := e.book.setLevels s ((e.book.levels s).modify (e.storage.orders o).price fun L =>
          { L with totalQty := L.totalQty - ((e.storage.orders o).quantity - q) }),
        storage := e.storage.setQuantity o q }) := by
  obtain ⟨L, hL, -, rfl⟩ := hf.wf.mem_resting ho
  simp only [MatchingEngine.exec, MatchingEngine.modifyOrder, OrderBook.getOrder, hf.indexed _ o ho, if_true, ge_iff_le,
    Quantity.not_le.mpr hq, if_false, OrderBook.modifyQuantity_of_index (hf.indexed _ o ho) hq hL]
  rfl

end MatchingEngine

/-- **`modifyOrder` at an order's own price**, in every run whose orders fit
    in the vector: an id that does not rest throws "Order not found",
    a quantity not below the order's throws, and either way the state is
    unchanged; a smaller quantity returns no trades, writes the quantity
    through the order's pointer and takes the difference off its level's
    total, and changes nothing else. -/
theorem modifyOrder_spec {n : Nat} {e : MatchingEngine} (h : Reachable n e)
    (hcap : e.storage.size ≤ Storage.maxSize) (id : OrderId) (p : Int) (q : Quantity) :
    ((∀ s, ∀ o ∈ restingOrders (e.book.levels s), e.storage.idOf o ≠ id) →
      e.exec (.modifyOrder id p q) = (.error ("Order not found: " ++ toString id), e)) ∧
    (∀ s, ∀ o ∈ restingOrders (e.book.levels s), e.storage.idOf o = id →
      p = (e.storage.orders o).price →
      ((e.storage.orders o).quantity ≤ q →
        e.exec (.modifyOrder id p q) = (.error "Modify can only redice qty at same price", e)) ∧
      (q < (e.storage.orders o).quantity →
        e.exec (.modifyOrder id p q) = (.trades [], { e with
          book := e.book.setLevels s ((e.book.levels s).modify p fun L =>
            { L with totalQty := L.totalQty - ((e.storage.orders o).quantity - q) }),
          storage := e.storage.setQuantity o q }))) := by
  have hf := h.fresh_of_le_maxSize hcap
  refine ⟨fun hno => hf.exec_modifyOrder_of_not_resting hno p q, fun s o ho hid hp => ?_⟩
  subst hid hp
  exact ⟨hf.exec_modifyOrder_of_le ho, hf.exec_modifyOrder_of_lt ho⟩

theorem modifyOrder_spec_oneBid : Reachable 1 oneBid ∧ oneBid.storage.size ≤ Storage.maxSize ∧
    ((∀ s, ∀ o ∈ restingOrders (oneBid.book.levels s), oneBid.storage.idOf o ≠ 1) →
      oneBid.exec (.modifyOrder 1 100 2) = (.error ("Order not found: " ++ toString (1 : OrderId)), oneBid)) ∧
    (∀ s, ∀ o ∈ restingOrders (oneBid.book.levels s), oneBid.storage.idOf o = 1 →
      100 = (oneBid.storage.orders o).price →
      ((oneBid.storage.orders o).quantity ≤ 2 →
        oneBid.exec (.modifyOrder 1 100 2) = (.error "Modify can only redice qty at same price", oneBid)) ∧
      (2 < (oneBid.storage.orders o).quantity →
        oneBid.exec (.modifyOrder 1 100 2) = (.trades [], { oneBid with
          book := oneBid.book.setLevels s ((oneBid.book.levels s).modify 100 fun L =>
            { L with totalQty := L.totalQty - ((oneBid.storage.orders o).quantity - 2) }),
          storage := oneBid.storage.setQuantity o 2 }))) :=
  have hcap : oneBid.storage.size ≤ Storage.maxSize := by rw [oneBid_reachable.size]; decide
  ⟨oneBid_reachable, hcap, modifyOrder_spec oneBid_reachable hcap 1 100 2⟩

end LimitOrderBook
