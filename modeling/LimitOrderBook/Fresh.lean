/-
  LimitOrderBook.Fresh

  Runs in which no order id has come round again. `nextOrderId_` is a
  `uint64_t` that starts at 1 and goes up by one per submission, so while
  fewer than `2^64 - 1` orders have been submitted the `k`-th order of the
  storage carries id `k + 1` and no two orders share an id. Every run whose
  orders fit in the vector is one of them: `max_size()` is below `2^64 - 1`. In such runs
  (`MatchingEngine.Fresh`) every queued order is indexed under its own id,
  every level is queued in submission order, and the linear scan of
  `PriceLevel::removeOrder` finds exactly the order the index points at.
-/
import LimitOrderBook.RunInvariant

namespace LimitOrderBook

/-! ## A queue in which one order carries the id -/

theorem find?_eq_of_unique {l : List Ptr} {P : Ptr → Bool} {o : Ptr} (ho : o ∈ l)
    (hP : P o = true) (hu : ∀ r ∈ l, P r = true → r = o) : l.find? P = some o := by
  induction l with
  | nil => cases ho
  | cons a l ih =>
    by_cases ha : P a = true
    · rw [List.find?_cons_of_pos _ ha, hu a (List.mem_cons_self _ _) ha]
    · have hoa : o ≠ a := fun h => ha (h ▸ hP)
      rw [List.find?_cons_of_neg _ ha]
      exact ih ((List.mem_cons.mp ho).resolve_left hoa) fun r hr => hu r (List.mem_cons_of_mem _ hr)

theorem eraseP_eq_erase_of_unique {l : List Ptr} {P : Ptr → Bool} {o : Ptr} (ho : o ∈ l)
    (hP : P o = true) (hu : ∀ r ∈ l, P r = true → r = o) : l.eraseP P = l.erase o := by
  induction l with
  | nil => cases ho
  | cons a l ih =>
    by_cases ha : P a = true
    · obtain rfl := hu a (List.mem_cons_self _ _) ha
      rw [List.eraseP_cons_of_pos ha, List.erase_cons_head]
    · have hoa : o ≠ a := fun h => ha (h ▸ hP)
      rw [List.eraseP_cons_of_neg ha, List.erase_cons_tail (by simpa using Ne.symm hoa),
        ih ((List.mem_cons.mp ho).resolve_left hoa) fun r hr => hu r (List.mem_cons_of_mem _ hr)]

/-- With `o` the only order of the level carrying `id`, `removeOrder` unlinks
    exactly `o` and takes its remaining quantity off the total. -/
theorem PriceLevel.removeOrder_of_unique {st : Storage} {L : PriceLevel} {id : OrderId} {o : Ptr}
    (ho : o ∈ L.orders) (hid : st.idOf o = id) (hu : ∀ r ∈ L.orders, st.idOf r = id → r = o) :
    L.removeOrder st id = (true, ⟨L.orders.erase o, L.totalQty - st.qty o⟩) := by
  have hP : (fun r => st.idOf r == id) o = true := by simp [hid]
  have hu' : ∀ r ∈ L.orders, (fun r => st.idOf r == id) r = true → r = o :=
    fun r hr h => hu r hr (by simpa using h)
  rw [removeOrder_of_find? (find?_eq_of_unique ho hP hu'), eraseP_eq_erase_of_unique ho hP hu']

theorem erase_eq_nil_iff {l : List Ptr} {o : Ptr} (ho : o ∈ l) : l.erase o = [] ↔ l = [o] := by
  constructor
  · intro h
    have := List.perm_cons_erase ho
    rwa [h, List.perm_singleton] at this
  · rintro rfl; exact List.erase_cons_head _ _

theorem LevelMap.erase_modify {s : Side} (m : LevelMap s) (k : Int) (f : PriceLevel → PriceLevel) :
    (m.modify k f).erase k = m.erase k := by
  apply ext_entries
  simp only [erase, modify]
  induction m.entries with
  | nil => rfl
  | cons e es ih => by_cases he : e.1 = k <;> simp [he, ih]

theorem LevelMap.not_mem_of_mem_restingOrders_afterWalk {s : Side} {m : LevelMap s}
    {st st' : Storage} {g : List Ptr} {r : Ptr} (hr : r ∈ restingOrders (m.afterWalk st st' g)) :
    r ∉ g := by
  obtain ⟨x, hx, hrx⟩ := mem_restingOrders.mp hr
  simp only [afterWalk, List.mem_filter, List.mem_map] at hx
  obtain ⟨⟨y, -, rfl⟩, -⟩ := hx
  simpa using (List.mem_filter.mp hrx).2

/-! ## The invariant of runs without a repeated id -/

/-- The invariant of a run of `n` submissions in which no id came round: the
    storage holds the `n` orders submitted, the `k`-th with id `k + 1`;
    `nextOrderId` is `n + 1`; every queued order is indexed under its id; and
    every level holds its orders in the order they were submitted. -/
structure MatchingEngine.Fresh (n : Nat) (e : MatchingEngine) : Prop where
  wf : e.WF
  size : e.storage.size = n
  next : e.nextOrderId.toNat = n + 1
  ids : ∀ k < n, (e.storage.orders k).id.toNat = k + 1
  indexed : ∀ s, ∀ o ∈ restingOrders (e.book.levels s), e.book.index (e.storage.idOf o) = some o
  ordered : ∀ s, ∀ x ∈ (e.book.levels s).entries, x.2.orders.Pairwise (· < ·)

namespace MatchingEngine

theorem Fresh.init : MatchingEngine.init.Fresh 0 where
  wf := init_wf
  size := rfl
  next := rfl
  ids _ h := absurd h (Nat.not_lt_zero _)
  indexed s := by simp [MatchingEngine.init, LevelMap.empty, restingOrders]
  ordered s := by simp [MatchingEngine.init, LevelMap.empty]

variable {n : Nat} {e : MatchingEngine}

theorem Fresh.lt_of_resting (hf : e.Fresh n) {s : Side} {o : Ptr}
    (ho : o ∈ restingOrders (e.book.levels s)) : o < n :=
  hf.size ▸ hf.wf.alloc s o ho

/-- No two submitted orders share an id. -/
theorem Fresh.idOf_inj (hf : e.Fresh n) {o o' : Ptr} (ho : o < n) (ho' : o' < n)
    (h : e.storage.idOf o = e.storage.idOf o') : o = o' := by
  have h' : (e.storage.orders o).id.toNat = (e.storage.orders o').id.toNat := congrArg UInt64.toNat h
  have h₁ := hf.ids o ho
  have h₂ := hf.ids o' ho'
  show @Eq Nat o o'
  omega

end MatchingEngine

/-! ### `cancelOrder` -/

/-- The book with the order at `o` taken out, as `cancelOrder(id)` is specified:
    the order leaves its level, which is erased if the order was its only one
    and otherwise loses the order's remaining quantity from its total, and the
    index entry `id` is erased; nothing else changes. -/
def OrderBook.unlink (st : Storage) (b : OrderBook) (id : OrderId) (o : Ptr) : OrderBook :=
  let order := st.orders o
  let m := b.levels order.side
  let m' := match m.find? order.price with
    | none => m
    | some L =>
      if L.orders = [o] then m.erase order.price
      else m.modify order.price fun _ => ⟨L.orders.erase o, L.totalQty - st.qty o⟩
  (b.setLevels order.side m').withIndex (Function.update b.index id none)

namespace MatchingEngine

variable {n : Nat} {e : MatchingEngine}

/-- In a run without a repeated id, `cancelOrder` of an indexed id takes out
    exactly the order the index points at. -/
theorem Fresh.cancelOrder_eq (hf : e.Fresh n) {id : OrderId} {o : Ptr}
    (hi : e.book.index id = some o) :
    e.cancelOrder id = (true, { e with book := e.book.unlink e.storage id o }) := by
  obtain ⟨hro, hid⟩ := hf.wf.index id o hi
  obtain ⟨L, hL, hoL, -⟩ := hf.wf.mem_resting hro
  have hu : ∀ r ∈ L.orders, e.storage.idOf r = id → r = o := fun r hr hr' =>
    hf.idOf_inj (hf.lt_of_resting (mem_restingOrders.mpr ⟨_, hL, hr⟩)) (hf.lt_of_resting hro)
      (hr'.trans hid.symm)
  simp only [MatchingEngine.cancelOrder, OrderBook.cancelOrder_of_index hi hL,
    PriceLevel.removeOrder_of_unique hoL hid hu, OrderBook.unlink, LevelMap.find?_eq_some.mpr hL,
    LevelMap.update, PriceLevel.empty_iff, erase_eq_nil_iff hoL]
  split_ifs <;> simp [LevelMap.erase_modify]

/-- In a run without a repeated id, a cancel of an indexed id unlinks the
    order the index points at, and only it. -/
theorem Fresh.mem_restingOrders_cancelOrder (hf : e.Fresh n) {id : OrderId} {o : Ptr}
    (hi : e.book.index id = some o) {s : Side} {r : Ptr} :
    r ∈ restingOrders ((e.cancelOrder id).2.book.levels s) ↔
      r ∈ restingOrders (e.book.levels s) ∧ r ≠ o := by
  obtain ⟨hro, hid⟩ := hf.wf.index id o hi
  obtain ⟨L, hL, hoL, -⟩ := hf.wf.mem_resting hro
  constructor
  · intro hr
    refine ⟨(hf.wf.cancelOrder_sub id s).resting.subset hr, fun hro' => ?_⟩
    obtain ⟨x, hx, hrx⟩ := mem_restingOrders.mp hr
    rw [hro'] at hrx
    rcases (mem_levels_cancelOrder hi hL).mp hx with ⟨-, rfl, -⟩ | ⟨hx, hk⟩
    · have hu : ∀ q ∈ L.orders, e.storage.idOf q = id → q = o := fun q hq hq' =>
        hf.idOf_inj (hf.lt_of_resting (mem_restingOrders.mpr ⟨_, hL, hq⟩)) (hf.lt_of_resting hro)
          (hq'.trans hid.symm)
      rw [PriceLevel.removeOrder_of_unique hoL hid hu] at hrx
      exact List.Nodup.not_mem_erase ((hf.wf.sideOk _).level_nodup hL) hrx
    · exact hk (hf.wf.side s x hx _ hrx).symm ((hf.wf.sideOk s).price x hx _ hrx).symm
  · rintro ⟨hr, hne⟩
    exact hf.wf.mem_restingOrders_cancelOrder hr fun hrid =>
      hne (hf.idOf_inj (hf.lt_of_resting hr) (hf.lt_of_resting hro) (hrid.trans hid.symm))

/-- `cancelOrder` keeps a run without repeated ids free of them: the order it
    unlinks is the one whose index entry it erases. -/
theorem Fresh.cancelOrder (hf : e.Fresh n) (id : OrderId) : (e.cancelOrder id).2.Fresh n := by
  cases hi : e.book.index id with
  | none => simpa [MatchingEngine.cancelOrder, OrderBook.cancelOrder_of_index_none hi] using hf
  | some o =>
    obtain ⟨hro, hid⟩ := hf.wf.index id o hi
    refine ⟨hf.wf.cancelOrder id, hf.size, hf.next, hf.ids, fun s r hr => ?_, fun s x hx => ?_⟩
    · obtain ⟨hr, hne⟩ := (hf.mem_restingOrders_cancelOrder hi).mp hr
      have hrid : e.storage.idOf r ≠ id := fun hrid =>
        hne (hf.idOf_inj (hf.lt_of_resting hr) (hf.lt_of_resting hro) (hrid.trans hid.symm))
      show (e.book.cancelOrder e.storage id).2.index (e.storage.idOf r) = some r
      rw [OrderBook.index_cancelOrder, Function.update_noteq hrid]
      exact hf.indexed s r hr
    · obtain ⟨L, hL, hsub⟩ := (hf.wf.cancelOrder_sub id s).entry x hx
      exact (hf.ordered s _ hL).sublist hsub

/-- A same-price reduce changes no queue and no index entry. -/
theorem Fresh.modifyQuantity (hf : e.Fresh n) {id : OrderId} {o : Ptr}
    (hi : e.book.index id = some o) {q : Quantity} (hq : q < (e.storage.orders o).quantity) :
    ({ e with book := (e.book.modifyQuantity e.storage id q).2.1,
              storage := (e.book.modifyQuantity e.storage id q).2.2 } : MatchingEngine).Fresh n := by
  have hw := hf.wf.modifyQuantity hi hq
  obtain ⟨hro, -⟩ := hf.wf.index id o hi
  obtain ⟨L, hL, -, -⟩ := hf.wf.mem_resting hro
  rw [OrderBook.modifyQuantity_of_index hi hq hL] at hw ⊢
  have hf' : ∀ L : PriceLevel, (L.adjustTotal ((e.storage.orders o).quantity - q)).orders = L.orders :=
    fun _ => rfl
  refine ⟨hw, by simpa using hf.size, hf.next, fun k hk => by simpa using hf.ids k hk,
    fun s r hr => ?_, fun s x hx => ?_⟩
  · -- every queue is as it was
    have hr' : r ∈ restingOrders (e.book.levels s) := by
      rwa [← OrderBook.restingOrders_setLevels_modify hf']
    simpa using hf.indexed s r hr'
  · rcases OrderBook.mem_levels_setLevels_modify.mp hx with ⟨rfl, L₀, hL₀, rfl⟩ | ⟨hx, -⟩
    exacts [hf.ordered _ (_, L₀) hL₀, hf.ordered s x hx]

/-! ### `submitOrder` -/

/-- After the walk an order rests iff it rested and the walk did not bring it
    to zero. -/
theorem WF.mem_restingOrders_afterReferenceWalk (h : e.WF) (side : Side) (p : Int) (q : Quantity)
    {s : Side} {r : Ptr} :
    r ∈ restingOrders ((afterReferenceWalk e side p q).book.levels s) ↔
      r ∈ restingOrders (e.book.levels s) ∧ r ∉ (referenceWalk e side p q).gone := by
  have hgone : ∀ g ∈ (referenceWalk e side p q).gone,
      g ∈ restingOrders (e.book.levels side.opposite) := fun g hg =>
    (List.takeWhile_sublist _).subset (walk_gone_subset _ _ _ _ g hg)
  rcases eq_or_ne s side.opposite with rfl | hs
  · rw [afterReferenceWalk_levels_opposite]
    exact ⟨fun hr => ⟨(LevelMap.afterWalk_sub _ _ _ _).resting.subset hr,
        LevelMap.not_mem_of_mem_restingOrders_afterWalk hr⟩,
      fun ⟨hr, hg⟩ => LevelMap.mem_restingOrders_afterWalk hr hg _ _⟩
  · rw [afterReferenceWalk_levels_of_ne e side p q hs]
    refine ⟨fun hr => ⟨hr, fun hg => hs ?_⟩, And.left⟩
    obtain ⟨-, -, -, hs₁⟩ := h.mem_resting hr
    obtain ⟨-, -, -, hs₂⟩ := h.mem_resting (hgone r hg)
    exact hs₁.symm.trans hs₂

/-- The walk keeps ids unrepeated: it hands out the next id, and erases from
    the index only the ids of the makers it unlinks. -/
theorem Fresh.afterWalk (hf : e.Fresh n) (hn : n + 2 < 2 ^ 64) (side : Side) (p : Int)
    (q : Quantity) : (afterReferenceWalk e side p q).Fresh (n + 1) := by
  set st := e.storage.push ⟨e.nextOrderId, side, p, q, q⟩
  have hid : ∀ k, ((afterReferenceWalk e side p q).storage.orders k).id = (st.orders k).id :=
    fun k => by
      simp only [afterReferenceWalk, Storage.setQuantity_id]
      exact (walk_orders_id _ _ _ _ k).1
  refine ⟨afterReferenceWalk_wf hf.wf side p q,
    by simp [afterReferenceWalk, referenceWalk, hf.size], ?_, fun k hk => ?_, fun s r hr => ?_,
    fun s x hx => ?_⟩
  · show (e.nextOrderId + 1).toNat = n + 1 + 1
    rw [Quantity.add_toNat, hf.next]
    exact Nat.mod_eq_of_lt hn
  · rw [hid]
    rcases Nat.lt_succ_iff_lt_or_eq.mp hk with hk | rfl
    · rw [Storage.push_orders_of_lt (hf.size ▸ hk)]; exact hf.ids k hk
    · rw [← hf.size, Storage.push_orders_size, hf.size]; exact hf.next
  · obtain ⟨hro, hng⟩ := (hf.wf.mem_restingOrders_afterReferenceWalk side p q).mp hr
    obtain ⟨hid', -, -⟩ := afterReferenceWalk_orders hf.wf side p q hro
    rw [Storage.idOf, hid']
    show eraseIds st (referenceWalk e side p q).gone e.book.index (e.storage.idOf r) = some r
    rw [eraseIds_apply, if_neg]
    · exact hf.indexed s r hro
    rintro ⟨g, hg, hgr⟩
    -- a maker the walk unlinked carries another id than any order still queued
    have hgo : g ∈ restingOrders (e.book.levels side.opposite) :=
      (List.takeWhile_sublist _).subset (walk_gone_subset _ _ _ _ g hg)
    have hgr' : e.storage.idOf g = e.storage.idOf r := by
      rw [← hgr]; simp only [Storage.idOf, st, hf.wf.push_orders hgo]
    exact hng (hf.idOf_inj (hf.lt_of_resting hgo) (hf.lt_of_resting hro) hgr' ▸ hg)
  · obtain ⟨L, hL, hsl⟩ := (afterReferenceWalk_levels_sub e side p q s).entry x hx
    exact (hf.ordered s _ hL).sublist hsl

/-- Resting an order allocated after every queued one keeps ids unrepeated and
    levels in submission order. -/
theorem Fresh.addOrder (hf : e.Fresh n) {raw : Ptr}
    (hw : ({ e with book := e.book.addOrder e.storage raw } : MatchingEngine).WF) (hraw : raw < n)
    (hlt : ∀ s, ∀ r ∈ restingOrders (e.book.levels s), r < raw) :
    ({ e with book := e.book.addOrder e.storage raw } : MatchingEngine).Fresh n := by
  set L₀ := ((e.book.levels (e.storage.orders raw).side).find?
    (e.storage.orders raw).price).getD PriceLevel.new
  have hL₀ : (∀ r ∈ L₀.orders, r < raw) ∧ L₀.orders.Pairwise (· < ·) := by
    cases hf' : (e.book.levels (e.storage.orders raw).side).find? (e.storage.orders raw).price with
    | none => simp [L₀, hf', PriceLevel.new]
    | some L =>
      have hL := LevelMap.find?_eq_some.mp hf'
      simp only [L₀, hf', Option.getD_some]
      exact ⟨fun r hr => hlt _ r (mem_restingOrders.mpr ⟨_, hL, hr⟩), hf.ordered _ _ hL⟩
  refine ⟨hw, hf.size, hf.next, hf.ids, fun s r hr => ?_, fun s x hx => ?_⟩
  · simp only [OrderBook.index_addOrder, Function.update_apply]
    rcases OrderBook.mem_restingOrders_addOrder.mp hr with ⟨rfl, -⟩ | hr
    · simp [Storage.idOf]
    · have hne : e.storage.idOf r ≠ (e.storage.orders raw).id := fun h =>
        Nat.ne_of_lt (hlt s r hr) (hf.idOf_inj (hf.lt_of_resting hr) hraw h)
      rw [if_neg hne]; exact hf.indexed s r hr
  · rcases OrderBook.mem_levels_addOrder.mp hx with ⟨-, rfl⟩ | ⟨hx, -⟩
    · exact List.pairwise_append.mpr ⟨hL₀.2, List.pairwise_singleton _ _,
        fun r hr r' hr' => List.mem_singleton.mp hr' ▸ hL₀.1 r hr⟩
    · exact hf.ordered s x hx

/-- `submitOrder` keeps ids unrepeated while the next id does not wrap. -/
theorem Fresh.submitOrder (hf : e.Fresh n) (hn : n + 2 < 2 ^ 64) (side : Side) (p : Int)
    (q : Quantity) : (e.submitOrder side p q).2.Fresh (n + 1) := by
  have hw := hf.wf.submitOrder side p q
  have h₁ := hf.afterWalk hn side p q
  rw [hf.wf.submitOrder_eq] at hw ⊢
  simp only [referenceSubmit, OrderBook.rest_eq_addOrder] at hw ⊢
  split_ifs at hw ⊢
  · refine h₁.addOrder hw (by rw [← hf.size]; exact Nat.lt_succ_self _) fun s r hr => ?_
    exact hf.wf.alloc s r ((afterReferenceWalk_levels_sub e side p q s).resting.subset hr)
  · exact h₁

/-- Every call keeps ids unrepeated while the next id does not wrap. -/
theorem Fresh.exec (hf : e.Fresh n) (c : Call) (hn : n + c.submissions e < 2 ^ 64 - 1) :
    (e.exec c).2.Fresh (n + c.submissions e) := by
  cases c with
  | submitOrder side p q => exact hf.submitOrder (by simp only [Call.submissions] at hn; omega) _ _ _
  | cancelOrder id => exact hf.cancelOrder id
  | modifyOrder id p q =>
    simp only [MatchingEngine.exec]
    split
    · rename_i r hr
      obtain ⟨o, hi, ⟨hp, hq, rfl⟩ | ⟨hp, rfl⟩⟩ := modifyOrder_eq_ok hr
      · have h0 : Call.submissions e (.modifyOrder id p q) = 0 := by
          simp [Call.submissions, OrderBook.getOrder, hi, hp]
        rw [h0]; exact hf.modifyQuantity hi hq
      · have h1 : Call.submissions e (.modifyOrder id p q) = 1 := by
          simp [Call.submissions, OrderBook.getOrder, hi, hp]
        rw [h1] at hn ⊢
        exact (hf.cancelOrder id).submitOrder (by omega) _ _ _
    · rename_i msg hr
      have h0 : Call.submissions e (.modifyOrder id p q) = 0 := by
        rcases modifyOrder_eq_error hr with ⟨hi, -⟩ | ⟨o, hi, hp, -, -⟩
        · simp [Call.submissions, OrderBook.getOrder, hi]
        · simp [Call.submissions, OrderBook.getOrder, hi, hp]
      rw [h0]; exact hf

end MatchingEngine

/-- **Runs with fewer than `2^64 - 1` submissions repeat no id.** -/
theorem Reachable.fresh {n : Nat} {e : MatchingEngine} (h : Reachable n e) (hn : n < 2 ^ 64 - 1) :
    e.Fresh n := by
  induction h with
  | init => exact MatchingEngine.Fresh.init
  | step c _ ih => exact (ih (by omega)).exec c hn

/-- **The vector holds fewer orders than there are ids**: a run whose storage
    is within `max_size()`, every `push_back` of it having succeeded, made
    fewer than `2^64 - 1` submissions and repeats no id. -/
theorem Reachable.fresh_of_le_maxSize {n : Nat} {e : MatchingEngine} (h : Reachable n e)
    (hcap : e.storage.size ≤ Storage.maxSize) : e.Fresh n :=
  h.fresh (by rw [h.size, Storage.maxSize] at hcap; omega)

end LimitOrderBook
