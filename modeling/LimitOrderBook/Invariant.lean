/-
  LimitOrderBook.Invariant

  The invariants of the book that hold in every reachable state, however long
  the run (`MatchingEngine.WF`): every level is non-empty and holds orders of
  its side priced at its key, no order is queued twice and every queued order
  is allocated, the index only points at queued orders under their own id,
  every level's cached total is the sum of its quantities in `uint64_t`
  arithmetic, and the book is not crossed.

  Cancels and walks only remove orders from a side; `LevelMap.Sub` says so once,
  and the facts that follow from it (the side stays fit for the loop, its
  orders keep their side) are proved once for both.
-/
import LimitOrderBook.Submit

namespace LimitOrderBook

/-! ## Lists of queues -/

theorem flatMap_sublist_flatMap {α β : Type _} {f g : α → List β} :
    ∀ {l : List α}, (∀ x ∈ l, (f x).Sublist (g x)) → (l.flatMap f).Sublist (l.flatMap g)
  | [], _ => List.Sublist.slnil
  | x :: xs, h => by
    simp only [List.flatMap_cons]
    exact (h x (List.mem_cons_self _ _)).append
      (flatMap_sublist_flatMap fun y hy => h y (List.mem_cons_of_mem _ hy))

theorem flatMap_filter_sublist {α β : Type _} (f : α → List β) (p : α → Bool) :
    ∀ (l : List α), ((l.filter p).flatMap f).Sublist (l.flatMap f)
  | [] => List.Sublist.slnil
  | x :: xs => by
    simp only [List.filter_cons, List.flatMap_cons]
    split
    · exact (flatMap_filter_sublist f p xs).append_left _
    · exact (flatMap_filter_sublist f p xs).trans (List.sublist_append_right _ _)

theorem mem_restingOrders {s : Side} {m : LevelMap s} {o : Ptr} :
    o ∈ restingOrders m ↔ ∃ x ∈ m.entries, o ∈ x.2.orders := by
  simp [restingOrders]

/-! ## Sides that only lose orders -/

/-- `m'` keeps some of `m`'s orders, each in the level it was in, in order. -/
structure LevelMap.Sub {s : Side} (m' m : LevelMap s) : Prop where
  entry : ∀ x ∈ m'.entries, ∃ L, (x.1, L) ∈ m.entries ∧ x.2.orders.Sublist L.orders
  resting : (restingOrders m').Sublist (restingOrders m)

namespace LevelMap

variable {s : Side}

theorem Sub.refl (m : LevelMap s) : m.Sub m :=
  ⟨fun x hx => ⟨x.2, hx, List.Sublist.refl _⟩, List.Sublist.refl _⟩

theorem Sub.trans {m'' m' m : LevelMap s} (h₁ : m''.Sub m') (h₂ : m'.Sub m) : m''.Sub m :=
  ⟨fun x hx => by
    obtain ⟨L', hL', hs'⟩ := h₁.entry x hx
    obtain ⟨L, hL, hs⟩ := h₂.entry _ hL'
    exact ⟨L, hL, hs'.trans hs⟩, h₁.resting.trans h₂.resting⟩

theorem afterWalk_sub (m : LevelMap s) (st st' : Storage) (g : List Ptr) :
    (m.afterWalk st st' g).Sub m := by
  refine ⟨fun x hx => ?_, ?_⟩
  · simp only [afterWalk, List.mem_filter, List.mem_map] at hx
    obtain ⟨⟨y, hy, rfl⟩, -⟩ := hx
    exact ⟨y.2, hy, List.filter_sublist _⟩
  · refine (flatMap_filter_sublist _ _ _).trans ?_
    rw [List.flatMap_map]
    exact flatMap_sublist_flatMap fun x _ => List.filter_sublist _

theorem modify_sub {k : Int} {f : PriceLevel → PriceLevel} (m : LevelMap s)
    (hf : ∀ L, (f L).orders.Sublist L.orders) : (m.modify k f).Sub m := by
  refine ⟨fun x hx => ?_, ?_⟩
  · rcases mem_modify.mp hx with ⟨L, hL, rfl⟩ | ⟨hx, -⟩
    · exact ⟨L, hL, hf L⟩
    · exact ⟨x.2, hx, List.Sublist.refl _⟩
  · simp only [restingOrders, modify, List.flatMap_map]
    exact flatMap_sublist_flatMap fun x _ => by split_ifs <;> simp [hf]

theorem erase_sub (m : LevelMap s) (k : Int) : (m.erase k).Sub m :=
  ⟨fun x hx => ⟨x.2, (mem_erase.mp hx).1, List.Sublist.refl _⟩, flatMap_filter_sublist _ _ _⟩

theorem update_sub {k : Int} {L L' : PriceLevel} (m : LevelMap s) (hL : (k, L) ∈ m.entries)
    (h : L'.orders.Sublist L.orders) : (m.update k L').Sub m := by
  have hmod : (m.modify k fun _ => L').Sub m := by
    refine ⟨fun x hx => ?_, ?_⟩
    · rcases mem_modify.mp hx with ⟨L₀, hL₀, rfl⟩ | ⟨hx, -⟩
      · exact ⟨L, hL, key_unique hL₀ hL ▸ h⟩
      · exact ⟨x.2, hx, List.Sublist.refl _⟩
    · simp only [restingOrders, modify, List.flatMap_map]
      refine flatMap_sublist_flatMap fun x hx => ?_
      split_ifs with hk
      · obtain ⟨k', L₀⟩ := x
        simp only at hk; subst hk
        exact key_unique hx hL ▸ h
      · exact List.Sublist.refl _
  unfold update
  split_ifs
  · exact (erase_sub _ k).trans hmod
  · exact hmod

end LevelMap

/-- A side read through a storage that kept the prices of its orders is as fit
    for the `match` loop as it was. -/
theorem SideOk.congr {st st' : Storage} {s : Side} {m : LevelMap s} (h : SideOk st m)
    (hp : ∀ o ∈ restingOrders m, (st'.orders o).price = (st.orders o).price) : SideOk st' m where
  nonempty := h.nonempty
  price x hx o ho := by
    rw [hp o (mem_restingOrders.mpr ⟨x, hx, ho⟩)]; exact h.price x hx o ho
  nodup := h.nodup

theorem LevelMap.afterWalk_nonempty {s : Side} (m : LevelMap s) (st st' : Storage) (g : List Ptr) :
    ∀ x ∈ (m.afterWalk st st' g).entries, x.2.orders ≠ [] := by
  intro x hx
  simp only [afterWalk, List.mem_filter] at hx
  simpa using hx.2

/-- A side with no empty level, each queue without repeats and priced at its
    key, has no order queued twice. -/
theorem SideOk.of_levels {st : Storage} {s : Side} {m : LevelMap s}
    (hne : ∀ x ∈ m.entries, x.2.orders ≠ [])
    (hp : ∀ x ∈ m.entries, ∀ o ∈ x.2.orders, (st.orders o).price = x.1)
    (hnd : ∀ x ∈ m.entries, x.2.orders.Nodup) : SideOk st m := by
  refine ⟨hne, hp, List.nodup_flatMap.mpr ⟨hnd, ?_⟩⟩
  refine m.sorted.imp_of_mem fun {x y} hx hy hxy => ?_
  intro o hox hoy
  have := (hp x hx o hox).symm.trans (hp y hy o hoy)
  exact Side.before_irrefl s _ (this ▸ hxy)

theorem SideOk.level_nodup {st : Storage} {s : Side} {m : LevelMap s} (h : SideOk st m)
    {x : Int × PriceLevel} (hx : x ∈ m.entries) : x.2.orders.Nodup :=
  (List.nodup_flatMap.mp h.nodup).1 x hx

/-! ## The invariant -/

/-- The invariants of the book in every reachable state. -/
structure MatchingEngine.WF (e : MatchingEngine) : Prop where
  sideOk : ∀ s, SideOk e.storage (e.book.levels s)
  side : ∀ s, ∀ x ∈ (e.book.levels s).entries, ∀ o ∈ x.2.orders, (e.storage.orders o).side = s
  alloc : ∀ s, ∀ o ∈ restingOrders (e.book.levels s), o < e.storage.size
  index : ∀ id o, e.book.index id = some o →
    o ∈ restingOrders (e.book.levels (e.storage.orders o).side) ∧ e.storage.idOf o = id
  total : ∀ s, ∀ x ∈ (e.book.levels s).entries, x.2.TotalOk e.storage
  uncrossed : ∀ b ∈ (e.book.levels .buy).entries, ∀ a ∈ (e.book.levels .sell).entries, b.1 < a.1

namespace MatchingEngine

theorem init_wf : init.WF where
  sideOk s := by simp only [init, OrderBook.levels_empty]; exact ⟨nofun, nofun, List.nodup_nil⟩
  side s := by simp [init, LevelMap.empty]
  alloc s := by simp [init, LevelMap.empty, restingOrders]
  index := by simp [init, OrderBook.empty]
  total s := by simp [init, LevelMap.empty]
  uncrossed := by simp [init, LevelMap.empty]

/-- An order queued on side `s` is an order of side `s`, at the key of its level. -/
theorem WF.mem_resting {e : MatchingEngine} (h : e.WF) {s : Side} {o : Ptr}
    (ho : o ∈ restingOrders (e.book.levels s)) :
    ∃ L, ((e.storage.orders o).price, L) ∈ (e.book.levels s).entries ∧ o ∈ L.orders ∧
      (e.storage.orders o).side = s := by
  obtain ⟨x, hx, hox⟩ := mem_restingOrders.mp ho
  refine ⟨x.2, ?_, hox, h.side s x hx o hox⟩
  rw [(h.sideOk s).price x hx o hox]
  exact hx

/-- A step that only removes orders from levels, and changes no order's side
    or price, keeps the invariant once it keeps the index and the totals. -/
theorem WF.of_sub {e e' : MatchingEngine} (h : e.WF)
    (hst : ∀ s, ∀ o ∈ restingOrders (e.book.levels s),
      (e'.storage.orders o).price = (e.storage.orders o).price ∧
      (e'.storage.orders o).side = (e.storage.orders o).side)
    (hsize : e.storage.size ≤ e'.storage.size)
    (hsub : ∀ s, (e'.book.levels s).Sub (e.book.levels s))
    (hne : ∀ s, ∀ x ∈ (e'.book.levels s).entries, x.2.orders ≠ [])
    (hidx : ∀ id o, e'.book.index id = some o →
      o ∈ restingOrders (e'.book.levels (e'.storage.orders o).side) ∧ e'.storage.idOf o = id)
    (htot : ∀ s, ∀ x ∈ (e'.book.levels s).entries, x.2.TotalOk e'.storage) : e'.WF where
  sideOk s := by
    refine SideOk.of_levels (hne s) (fun x hx o ho => ?_) (fun x hx => ?_)
    · obtain ⟨L, hL, hs⟩ := (hsub s).entry x hx
      have hor := mem_restingOrders.mpr ⟨_, hL, hs.subset ho⟩
      rw [(hst s o hor).1]
      exact (h.sideOk s).price _ hL o (hs.subset ho)
    · obtain ⟨L, hL, hs⟩ := (hsub s).entry x hx
      exact ((h.sideOk s).level_nodup hL).sublist hs
  side s x hx o ho := by
    obtain ⟨L, hL, hs⟩ := (hsub s).entry x hx
    rw [(hst s o (mem_restingOrders.mpr ⟨_, hL, hs.subset ho⟩)).2]
    exact h.side s _ hL o (hs.subset ho)
  alloc s o ho := Nat.lt_of_lt_of_le (h.alloc s o ((hsub s).resting.subset ho)) hsize
  index := hidx
  total := htot
  uncrossed b hb a ha := by
    obtain ⟨Lb, hb', -⟩ := (hsub .buy).entry b hb
    obtain ⟨La, ha', -⟩ := (hsub .sell).entry a ha
    exact h.uncrossed (b.1, Lb) hb' (a.1, La) ha'

end MatchingEngine

/-! ## `cancelOrder` -/

theorem OrderBook.cancelOrder_of_index_none {st : Storage} {b : OrderBook} {id : OrderId}
    (hi : b.index id = none) : b.cancelOrder st id = (false, b) := by
  simp only [OrderBook.cancelOrder, hi]

/-- `cancelOrder` of an indexed order queued at its price: its level loses the
    first order carrying `id`, and the index loses `id`. -/
theorem OrderBook.cancelOrder_of_index {st : Storage} {b : OrderBook} {id : OrderId} {o : Ptr}
    (hi : b.index id = some o) {L : PriceLevel}
    (hL : ((st.orders o).price, L) ∈ (b.levels (st.orders o).side).entries) :
    b.cancelOrder st id = (true, (b.setLevels (st.orders o).side
      ((b.levels (st.orders o).side).update (st.orders o).price (L.removeOrder st id).2)).withIndex
        (Function.update b.index id none)) := by
  simp only [OrderBook.cancelOrder, hi, LevelMap.find?_eq_some.mpr hL]

theorem PriceLevel.removeOrder_sublist (st : Storage) (L : PriceLevel) (id : OrderId) :
    (L.removeOrder st id).2.orders.Sublist L.orders := by
  unfold removeOrder
  split
  · exact List.Sublist.refl _
  · exact List.eraseP_sublist _

/-- The scan for `id` passes over every order carrying another id. -/
theorem PriceLevel.mem_removeOrder {st : Storage} {L : PriceLevel} {id : OrderId} {o : Ptr}
    (ho : o ∈ L.orders) (hid : st.idOf o ≠ id) : o ∈ (L.removeOrder st id).2.orders := by
  unfold removeOrder
  split
  · exact ho
  · exact (List.mem_eraseP_of_neg (by simpa using hid)).mpr ho

@[simp] theorem OrderBook.index_cancelOrder (st : Storage) (b : OrderBook) (id : OrderId) :
    (b.cancelOrder st id).2.index = Function.update b.index id none := by
  unfold OrderBook.cancelOrder
  split
  · rename_i hi; rw [← hi, Function.update_eq_self]
  · rfl

namespace MatchingEngine

variable {e : MatchingEngine} {id : OrderId}

/-- The levels after a cancel of an indexed order: its own level without the
    first order carrying `id`, kept while it is non-empty, and every other
    level as it was. -/
theorem mem_levels_cancelOrder {o : Ptr} (hi : e.book.index id = some o) {L : PriceLevel}
    (hL : ((e.storage.orders o).price, L) ∈ (e.book.levels (e.storage.orders o).side).entries)
    {s : Side} {x : Int × PriceLevel} :
    x ∈ ((e.cancelOrder id).2.book.levels s).entries ↔
      (s = (e.storage.orders o).side ∧ x = ((e.storage.orders o).price, (L.removeOrder e.storage id).2) ∧
        (L.removeOrder e.storage id).2.orders ≠ []) ∨
      (x ∈ (e.book.levels s).entries ∧ (s = (e.storage.orders o).side → x.1 ≠ (e.storage.orders o).price)) := by
  have hc : e.book.cancelOrder e.storage id = _ := OrderBook.cancelOrder_of_index hi hL
  simp only [MatchingEngine.cancelOrder, hc, OrderBook.levels_withIndex]
  rcases eq_or_ne s (e.storage.orders o).side with rfl | hs
  · rw [OrderBook.levels_setLevels_same, LevelMap.mem_update]
    exact or_congr ⟨fun ⟨hx, _, hne⟩ => ⟨rfl, hx, hne⟩, fun ⟨_, hx, hne⟩ => ⟨hx, ⟨L, hL⟩, hne⟩⟩
      ⟨fun ⟨hx, hk⟩ => ⟨hx, fun _ => hk⟩, fun ⟨hx, hk⟩ => ⟨hx, hk rfl⟩⟩
  · rw [OrderBook.levels_setLevels_of_ne hs]
    simp [hs]

/-- A cancel only takes orders out of levels. -/
theorem WF.cancelOrder_sub (h : e.WF) (id : OrderId) (s : Side) :
    ((e.cancelOrder id).2.book.levels s).Sub (e.book.levels s) := by
  cases hi : e.book.index id with
  | none =>
    simpa [MatchingEngine.cancelOrder, OrderBook.cancelOrder_of_index_none hi] using LevelMap.Sub.refl _
  | some o =>
    obtain ⟨L, hL, -, -⟩ := h.mem_resting (h.index id o hi).1
    simp only [MatchingEngine.cancelOrder, OrderBook.cancelOrder_of_index hi hL,
      OrderBook.levels_withIndex]
    rcases eq_or_ne s (e.storage.orders o).side with rfl | hs
    · rw [OrderBook.levels_setLevels_same]
      exact LevelMap.update_sub _ hL (L.removeOrder_sublist e.storage id)
    · rw [OrderBook.levels_setLevels_of_ne hs]
      exact LevelMap.Sub.refl _

/-- A cancel of `id` keeps every queued order that carries another id. -/
theorem WF.mem_restingOrders_cancelOrder (h : e.WF) {s : Side} {r : Ptr}
    (hr : r ∈ restingOrders (e.book.levels s)) (hid : e.storage.idOf r ≠ id) :
    r ∈ restingOrders ((e.cancelOrder id).2.book.levels s) := by
  cases hi : e.book.index id with
  | none => simpa [MatchingEngine.cancelOrder, OrderBook.cancelOrder_of_index_none hi] using hr
  | some o =>
    obtain ⟨L, hL, -, -⟩ := h.mem_resting (h.index id o hi).1
    obtain ⟨x, hx, hrx⟩ := mem_restingOrders.mp hr
    refine mem_restingOrders.mpr ?_
    by_cases hk : s = (e.storage.orders o).side ∧ x.1 = (e.storage.orders o).price
    · obtain ⟨rfl, hk⟩ := hk
      obtain ⟨k, L₁⟩ := x
      simp only at hk; subst hk
      obtain rfl := LevelMap.key_unique hx hL
      have hr' := PriceLevel.mem_removeOrder hrx hid
      exact ⟨_, (mem_levels_cancelOrder hi hL).mpr (.inl ⟨rfl, rfl, List.ne_nil_of_mem hr'⟩), hr'⟩
    · exact ⟨x, (mem_levels_cancelOrder hi hL).mpr (.inr ⟨hx, fun hs hk' => hk ⟨hs, hk'⟩⟩), hrx⟩

theorem WF.cancelOrder (h : e.WF) (id : OrderId) : (e.cancelOrder id).2.WF := by
  cases hi : e.book.index id with
  | none => simpa [MatchingEngine.cancelOrder, OrderBook.cancelOrder_of_index_none hi] using h
  | some o =>
    obtain ⟨L, hL, -, -⟩ := h.mem_resting (h.index id o hi).1
    refine h.of_sub (fun _ _ _ => ⟨rfl, rfl⟩) le_rfl (h.cancelOrder_sub id) (fun s x hx => ?_)
      (fun j o' hj => ?_) (fun s x hx => ?_)
    · rcases (mem_levels_cancelOrder hi hL).mp hx with ⟨-, rfl, hne⟩ | ⟨hx, -⟩
      exacts [hne, (h.sideOk s).nonempty x hx]
    · have hj' : (e.book.cancelOrder e.storage id).2.index j = some o' := hj
      rw [OrderBook.index_cancelOrder, Function.update_apply] at hj'
      split_ifs at hj' with hji
      obtain ⟨hro', hid'⟩ := h.index j o' hj'
      exact ⟨h.mem_restingOrders_cancelOrder hro' (hid'.trans_ne hji), hid'⟩
    · rcases (mem_levels_cancelOrder hi hL).mp hx with ⟨-, rfl, -⟩ | ⟨hx, -⟩
      exacts [PriceLevel.removeOrder_totalOk (h.total _ _ hL) id, h.total s x hx]

end MatchingEngine

/-! ## Same-price `modifyOrder` -/

/-- `modifyQuantity` of an indexed order queued at its price, to a smaller
    quantity: the quantity is written through the order's pointer and its
    level's total goes down by the difference. -/
theorem OrderBook.modifyQuantity_of_index {st : Storage} {b : OrderBook} {id : OrderId} {o : Ptr}
    (hi : b.index id = some o) {q : Quantity} (hq : q < (st.orders o).quantity) {L : PriceLevel}
    (hL : ((st.orders o).price, L) ∈ (b.levels (st.orders o).side).entries) :
    b.modifyQuantity st id q = (true, b.setLevels (st.orders o).side
      ((b.levels (st.orders o).side).modify (st.orders o).price
        (·.adjustTotal ((st.orders o).quantity - q))), st.setQuantity o q) := by
  simp only [OrderBook.modifyQuantity, hi, LevelMap.find?_eq_some.mpr hL, ge_iff_le,
    if_neg (Quantity.not_le.mpr hq)]

theorem restingOrders_modify {s : Side} (m : LevelMap s) (k : Int) {f : PriceLevel → PriceLevel}
    (hf : ∀ L, (f L).orders = L.orders) : restingOrders (m.modify k f) = restingOrders m := by
  simp only [restingOrders, LevelMap.modify, List.flatMap_map]
  congr 1; funext x; split_ifs <;> simp [hf]

namespace OrderBook

variable {b : OrderBook} {sd : Side} {k : Int} {f : PriceLevel → PriceLevel}

/-- The levels after the level at `k` of side `sd` is rewritten by `f`. -/
theorem mem_levels_setLevels_modify {s : Side} {x : Int × PriceLevel} :
    x ∈ ((b.setLevels sd ((b.levels sd).modify k f)).levels s).entries ↔
      (s = sd ∧ ∃ L, (k, L) ∈ (b.levels sd).entries ∧ x = (k, f L)) ∨
      (x ∈ (b.levels s).entries ∧ (s = sd → x.1 ≠ k)) := by
  rcases eq_or_ne s sd with rfl | hs
  · rw [levels_setLevels_same, LevelMap.mem_modify]
    simp only [true_and, forall_const]
  · rw [levels_setLevels_of_ne hs]
    simp [hs]

theorem setLevels_modify_sub (hf : ∀ L, (f L).orders.Sublist L.orders) (s : Side) :
    ((b.setLevels sd ((b.levels sd).modify k f)).levels s).Sub (b.levels s) := by
  rcases eq_or_ne s sd with rfl | hs
  · rw [levels_setLevels_same]; exact LevelMap.modify_sub _ hf
  · rw [levels_setLevels_of_ne hs]; exact LevelMap.Sub.refl _

/-- Rewriting a level without touching its queue leaves every queue as it was. -/
theorem restingOrders_setLevels_modify (hf : ∀ L, (f L).orders = L.orders) (s : Side) :
    restingOrders ((b.setLevels sd ((b.levels sd).modify k f)).levels s) =
      restingOrders (b.levels s) := by
  rcases eq_or_ne s sd with rfl | hs
  · rw [levels_setLevels_same, restingOrders_modify _ _ hf]
  · rw [levels_setLevels_of_ne hs]

end OrderBook

namespace MatchingEngine

/-- What a `modifyOrder` that does not throw did: a reduce in place at the
    order's price, or a cancel and a fresh submission at a new price. -/
theorem modifyOrder_eq_ok {e : MatchingEngine} {id : OrderId} {p : Int} {q : Quantity}
    {r : List Trade × MatchingEngine} (h : e.modifyOrder id p q = .ok r) :
    ∃ o, e.book.index id = some o ∧
      ((p = (e.storage.orders o).price ∧ q < (e.storage.orders o).quantity ∧
        r = ([], { e with book := (e.book.modifyQuantity e.storage id q).2.1,
                          storage := (e.book.modifyQuantity e.storage id q).2.2 })) ∨
       (p ≠ (e.storage.orders o).price ∧
        r = submitOrder { e with book := (e.book.cancelOrder e.storage id).2 }
          (e.storage.orders o).side p q)) := by
  simp only [modifyOrder, OrderBook.getOrder] at h
  split at h
  · cases h
  · rename_i o hi
    refine ⟨o, hi, ?_⟩
    split_ifs at h with hp hq
    · cases h; exact .inl ⟨hp, Quantity.not_le.mp hq, rfl⟩
    · cases h; exact .inr ⟨hp, rfl⟩

/-- What a `modifyOrder` that throws saw, and the text it threw. -/
theorem modifyOrder_eq_error {e : MatchingEngine} {id : OrderId} {p : Int} {q : Quantity}
    {msg : String} (h : e.modifyOrder id p q = .error msg) :
    (e.book.index id = none ∧ msg = "Order not found: " ++ toString id) ∨
    (∃ o, e.book.index id = some o ∧ p = (e.storage.orders o).price ∧
      (e.storage.orders o).quantity ≤ q ∧ msg = "Modify can only redice qty at same price") := by
  simp only [modifyOrder, OrderBook.getOrder] at h
  split at h
  · cases h; exact .inl ⟨‹_›, rfl⟩
  · rename_i o hi
    split_ifs at h with hp hq
    cases h; exact .inr ⟨o, hi, hp, hq, rfl⟩

/-- A same-price reduce keeps the invariant. -/
theorem WF.modifyQuantity {e : MatchingEngine} (h : e.WF) {id : OrderId} {o : Ptr}
    (hi : e.book.index id = some o) {q : Quantity} (hq : q < (e.storage.orders o).quantity) :
    ({ e with book := (e.book.modifyQuantity e.storage id q).2.1,
              storage := (e.book.modifyQuantity e.storage id q).2.2 } : MatchingEngine).WF := by
  obtain ⟨hro, -⟩ := h.index id o hi
  obtain ⟨L, hL, hoL, -⟩ := h.mem_resting hro
  rw [OrderBook.modifyQuantity_of_index hi hq hL]
  have hf : ∀ L : PriceLevel, (L.adjustTotal ((e.storage.orders o).quantity - q)).orders = L.orders :=
    fun _ => rfl
  refine h.of_sub (fun _ _ _ => by simp) (by simp)
    (OrderBook.setLevels_modify_sub fun L => by rw [hf]) (fun s x hx => ?_) (fun j o' hj => ?_)
    (fun s x hx => ?_)
  · rcases OrderBook.mem_levels_setLevels_modify.mp hx with ⟨rfl, L₀, hL₀, rfl⟩ | ⟨hx, -⟩
    exacts [(h.sideOk _).nonempty (_, L₀) hL₀, (h.sideOk s).nonempty x hx]
  · obtain ⟨hro', hid'⟩ := h.index j o' (by simpa using hj)
    rw [Storage.setQuantity_side, Storage.idOf_setQuantity, OrderBook.restingOrders_setLevels_modify hf]
    exact ⟨hro', hid'⟩
  · rcases OrderBook.mem_levels_setLevels_modify.mp hx with ⟨rfl, L₀, hL₀, rfl⟩ | ⟨hx', hk⟩
    · -- the order's level: its total goes down by what `o` lost
      obtain rfl := LevelMap.key_unique hL₀ hL
      have := PriceLevel.adjustTotal_totalOk (h.total _ _ hL₀) ((h.sideOk _).level_nodup hL₀) hoL
        ((e.storage.orders o).quantity - q)
      rwa [Storage.qty, sub_sub_cancel] at this
    · -- every other level keeps its sum: `o` is not queued there
      refine (h.total s x hx').congr fun r hr => ?_
      have hro : r ≠ o := by
        rintro rfl
        exact hk (h.side s x hx' r hr).symm ((h.sideOk s).price x hx' r hr).symm
      simp only [Storage.qty, Storage.setQuantity_orders_ne hro]

end MatchingEngine

end LimitOrderBook
