/-
  LimitOrderBook.RunInvariant

  `submitOrder` keeps the invariant, and with the cancel and modify lemmas of
  `LimitOrderBook.Invariant` every state a run reaches satisfies it
  (`Reachable.wf`).

  Through `submitOrder_eq_referenceSubmit` a submission is the reference walk
  followed by resting the taker. The walk only takes orders off the makers'
  side, so `WF.of_sub` applies to it; a taker that is left with quantity used
  up every maker it crossed, and the makers still queued lie beyond its limit,
  so resting it leaves the book uncrossed.

  What the invariant gives the engine's callers in every reachable state:
  `submitOrder` is the price-time-priority walk of the reference, and the best
  bid is below the best ask.
-/
import LimitOrderBook.Invariant

namespace LimitOrderBook

/-! ## Crossing makers come first in priority order -/

theorem mem_takeWhile_of_pairwise {α : Type _} {P : α → Bool} :
    ∀ {l : List α}, l.Pairwise (fun a b => P b = true → P a = true) →
      ∀ {x : α}, x ∈ l → P x = true → x ∈ l.takeWhile P
  | a :: l, hl, x, hx, hP => by
    rw [List.pairwise_cons] at hl
    have hPa : P a = true := by
      rcases List.mem_cons.mp hx with rfl | hx
      · exact hP
      · exact hl.1 x hx hP
    rw [List.takeWhile_cons, if_pos hPa]
    rcases List.mem_cons.mp hx with rfl | hx
    · exact List.mem_cons_self _ _
    · exact List.mem_cons_of_mem _ (mem_takeWhile_of_pairwise hl.2 hx hP)

/-- A maker priced behind a crossing maker's price crosses too. -/
theorem crosses_of_before {side : Side} {k k' p : Int} (h : side.opposite.before k k')
    (hc : crosses side k' p = true) : crosses side k p = true := by
  cases side <;> simp only [crosses, Side.opposite, Side.before, decide_eq_true_eq] at * <;> omega

/-- A maker that does not cross lies beyond the taker's limit on its side. -/
theorem before_of_not_crosses {side : Side} {k p : Int} (h : ¬ crosses side k p = true) :
    side.opposite.before p k := by
  cases side <;> simp only [crosses, Side.opposite, Side.before, decide_eq_true_eq] at * <;> omega

/-- Along the makers' priority order a crossing maker is preceded only by
    crossing makers. -/
theorem SideOk.crosses_pairwise {st : Storage} {side : Side} {m : LevelMap side.opposite}
    (h : SideOk st m) (p : Int) :
    (restingOrders m).Pairwise (fun a b =>
      crosses side (st.orders b).price p = true → crosses side (st.orders a).price p = true) := by
  refine List.pairwise_flatMap.mpr ⟨fun x hx => ?_, m.sorted.imp_of_mem fun {x y} hx hy hxy => ?_⟩
  · refine List.Pairwise.imp_of_mem (fun {a b} ha hb _ => ?_) (List.pairwise_of_forall (R := fun _ _ => True) fun _ _ => trivial)
    rw [h.price x hx a ha, ← h.price x hx b hb]; exact id
  · intro a ha b hb
    rw [h.price x hx a ha, h.price y hy b hb]
    exact crosses_of_before hxy

/-! ## The walk keeps the invariant -/

theorem qtySum_filter_of_zero {st : Storage} {g : List Ptr} (hg : ∀ o ∈ g, st.qty o = 0) :
    ∀ ps : List Ptr, qtySum st (ps.filter (· ∉ g)) = qtySum st ps
  | [] => rfl
  | o :: ps => by
    have ih := qtySum_filter_of_zero hg ps
    by_cases ho : o ∈ g
    · rw [List.filter_cons_of_neg (by simpa using ho), ih, qtySum_cons, hg o ho, zero_add]
    · rw [List.filter_cons_of_pos (by simpa using ho), qtySum_cons, qtySum_cons, ih]

/-- Unlinking makers left at zero and taking the fills off the total keeps a
    level's total in step. -/
theorem PriceLevel.afterWalk_totalOk {st st' : Storage} {g : List Ptr} {L : PriceLevel}
    (h : L.TotalOk st) (hg : ∀ o ∈ g, st'.qty o = 0) : (L.afterWalk st st' g).TotalOk st' := by
  unfold TotalOk at h ⊢
  simp only [afterWalk, h, sub_sub_cancel, qtySum_filter_of_zero hg]

theorem LevelMap.mem_restingOrders_afterWalk {s : Side} {m : LevelMap s} {o : Ptr}
    (ho : o ∈ restingOrders m) {g : List Ptr} (hg : o ∉ g) (st st' : Storage) :
    o ∈ restingOrders (m.afterWalk st st' g) := by
  obtain ⟨x, hx, hox⟩ := mem_restingOrders.mp ho
  have hox' : o ∈ (x.2.afterWalk st st' g).orders := List.mem_filter.mpr ⟨hox, by simpa using hg⟩
  refine mem_restingOrders.mpr ⟨(x.1, x.2.afterWalk st st' g), ?_, hox'⟩
  simp only [afterWalk, List.mem_filter, List.mem_map]
  exact ⟨⟨x, hx, rfl⟩, by simpa using List.ne_nil_of_mem hox'⟩

namespace MatchingEngine

theorem afterReferenceWalk_levels_sub (e : MatchingEngine) (side : Side) (p : Int) (q : Quantity)
    (s : Side) :
    ((afterReferenceWalk e side p q).book.levels s).Sub (e.book.levels s) := by
  rcases eq_or_ne s side.opposite with rfl | hs
  · simpa [afterReferenceWalk] using LevelMap.afterWalk_sub _ _ _ _
  · simpa [afterReferenceWalk, OrderBook.levels_setLevels_of_ne hs] using LevelMap.Sub.refl _

/-- The makers' side after the walk. -/
theorem afterReferenceWalk_levels_opposite (e : MatchingEngine) (side : Side) (p : Int)
    (q : Quantity) :
    (afterReferenceWalk e side p q).book.levels side.opposite =
      (e.book.levels side.opposite).afterWalk (e.storage.push ⟨e.nextOrderId, side, p, q, q⟩)
        (referenceWalk e side p q).storage (referenceWalk e side p q).gone := by
  simp [afterReferenceWalk]

/-- The taker's side is untouched by the walk. -/
theorem afterReferenceWalk_levels_of_ne (e : MatchingEngine) (side : Side) (p : Int)
    (q : Quantity) {s : Side} (hs : s ≠ side.opposite) :
    (afterReferenceWalk e side p q).book.levels s = e.book.levels s := by
  simp [afterReferenceWalk, OrderBook.levels_setLevels_of_ne hs]

variable {e : MatchingEngine} (h : e.WF) (side : Side) (p : Int) (q : Quantity)
include h

/-- Pushing the taker leaves every queued order as it was. -/
theorem WF.push_orders {s : Side} {o : Ptr} (ho : o ∈ restingOrders (e.book.levels s))
    (t : Order) : (e.storage.push t).orders o = e.storage.orders o :=
  Storage.push_orders_of_lt (h.alloc s o ho) t

theorem WF.sideOk_push (t : Order) (s : Side) : SideOk (e.storage.push t) (e.book.levels s) :=
  (h.sideOk s).congr fun _ ho => by rw [h.push_orders ho]

/-- The storage after the walk, read at a queued order: the walk changed its
    quantity at most. -/
theorem afterReferenceWalk_orders {s : Side} {o : Ptr} (ho : o ∈ restingOrders (e.book.levels s)) :
    let o' := (afterReferenceWalk e side p q).storage.orders o
    o'.id = (e.storage.orders o).id ∧ o'.side = (e.storage.orders o).side ∧
      o'.price = (e.storage.orders o).price := by
  have hne : o ≠ e.storage.size := Nat.ne_of_lt (h.alloc s o ho)
  obtain ⟨h₁, h₂, h₃, -⟩ := walk_orders_id e.nextOrderId
    (e.storage.push ⟨e.nextOrderId, side, p, q, q⟩) q
    (crossingMakers (e.storage.push ⟨e.nextOrderId, side, p, q, q⟩) side p e.book) o
  simp only [afterReferenceWalk, referenceWalk, MatchingEngine.lastOrderId_add_one, Storage.setQuantity_orders_ne hne, h₁, h₂, h₃,
    h.push_orders ho, and_self]

/-- An order the walk did not reach keeps its quantity. -/
theorem afterReferenceWalk_qty_of_not_mem {s : Side} {o : Ptr}
    (ho : o ∈ restingOrders (e.book.levels s))
    (hx : o ∉ crossingMakers (e.storage.push ⟨e.nextOrderId, side, p, q, q⟩) side p e.book) :
    (afterReferenceWalk e side p q).storage.qty o = e.storage.qty o := by
  simp only [afterReferenceWalk, referenceWalk, MatchingEngine.lastOrderId_add_one, Storage.qty,
    Storage.setQuantity_orders_ne (Nat.ne_of_lt (h.alloc s o ho)), walk_orders_of_not_mem _ hx,
    h.push_orders ho]

/-- The walk keeps the invariant: it only unlinks makers, erases their ids,
    and writes quantities. -/
theorem afterReferenceWalk_wf : (afterReferenceWalk e side p q).WF := by
  set st := e.storage.push ⟨e.nextOrderId, side, p, q, q⟩
  set xs := crossingMakers st side p e.book
  set w := referenceWalk e side p q
  have hxs : ∀ o ∈ xs, o ∈ restingOrders (e.book.levels side.opposite) :=
    fun o ho => List.takeWhile_sublist _ |>.subset ho
  have hnd : xs.Nodup :=
    ((h.sideOk_push ⟨e.nextOrderId, side, p, q, q⟩ _).nodup).sublist (List.takeWhile_sublist _)
  have hgone : ∀ o ∈ w.gone, w.storage.qty o = 0 := walk_gone_qty _ _ _ _ hnd
  have hlev := fun s => afterReferenceWalk_levels_of_ne e side p q (s := s)
  have hopp := afterReferenceWalk_levels_opposite e side p q
  refine h.of_sub (fun s o ho => ?_) (by simp [afterReferenceWalk, referenceWalk])
    (afterReferenceWalk_levels_sub e side p q) (fun s x hx => ?_) (fun j o hj => ?_)
    (fun s x hx => ?_)
  · exact ⟨(afterReferenceWalk_orders h side p q ho).2.2, (afterReferenceWalk_orders h side p q ho).2.1⟩
  · rcases eq_or_ne s side.opposite with rfl | hs
    · rw [hopp] at hx; exact LevelMap.afterWalk_nonempty _ _ _ _ x hx
    · rw [hlev s hs] at hx; exact (h.sideOk s).nonempty x hx
  · -- an index entry that survives the erasure is an untouched one
    simp only [afterReferenceWalk, OrderBook.index_withIndex, eraseIds_apply] at hj
    split_ifs at hj with hg
    obtain ⟨hro, hid⟩ := h.index j o hj
    obtain ⟨hid', hside', -⟩ := afterReferenceWalk_orders h side p q hro
    have hog : o ∉ w.gone := fun hog => hg ⟨o, hog, by simp only [Storage.idOf, st, h.push_orders hro]; exact hid⟩
    refine ⟨?_, by rw [Storage.idOf, hid']; exact hid⟩
    rw [hside']
    rcases eq_or_ne (e.storage.orders o).side side.opposite with hs | hs
    · rw [hs] at hro ⊢; rw [hopp]
      exact LevelMap.mem_restingOrders_afterWalk hro hog _ _
    · rw [hlev _ hs]; exact hro
  · rcases eq_or_ne s side.opposite with rfl | hs
    · rw [hopp] at hx
      simp only [LevelMap.afterWalk, List.mem_filter, List.mem_map] at hx
      obtain ⟨⟨y, hy, rfl⟩, -⟩ := hx
      have hst : (y.2.TotalOk st) := (h.total _ y hy).congr fun o ho => by
        simp only [Storage.qty, st, h.push_orders (mem_restingOrders.mpr ⟨y, hy, ho⟩)]
      refine (PriceLevel.afterWalk_totalOk hst hgone).congr fun o ho => ?_
      have hor := mem_restingOrders.mpr ⟨y, hy, (List.mem_filter.mp ho).1⟩
      simp only [afterReferenceWalk, Storage.qty,
        Storage.setQuantity_orders_ne (Nat.ne_of_lt (h.alloc _ o hor))]
    · rw [hlev s hs] at hx
      refine (h.total s x hx).congr fun o ho => ?_
      have hor := mem_restingOrders.mpr ⟨x, hx, ho⟩
      refine afterReferenceWalk_qty_of_not_mem h side p q hor fun hox => hs ?_
      rw [← h.side s x hx o ho, (h.mem_resting (hxs o hox)).choose_spec.2.2]

/-- A taker left with quantity after the walk crosses no maker still queued. -/
theorem afterReferenceWalk_uncrossed (hr : 0 < (referenceWalk e side p q).remaining) :
    ∀ x ∈ ((afterReferenceWalk e side p q).book.levels side.opposite).entries,
      side.opposite.before p x.1 := by
  set st := e.storage.push ⟨e.nextOrderId, side, p, q, q⟩
  have hok := h.sideOk_push ⟨e.nextOrderId, side, p, q, q⟩ side.opposite
  have hgone : (referenceWalk e side p q).gone = crossingMakers st side p e.book :=
    walk_gone_of_pos _ _ _ _ hr
  intro x hx
  simp only [afterReferenceWalk, OrderBook.levels_withIndex, OrderBook.levels_setLevels_same,
    LevelMap.afterWalk, List.mem_filter, List.mem_map] at hx
  obtain ⟨⟨y, hy, rfl⟩, hne⟩ := hx
  obtain ⟨o, ho⟩ := List.exists_mem_of_ne_nil _ (by simpa using hne)
  obtain ⟨hoy, hog⟩ := List.mem_filter.mp ho
  rw [hgone] at hog
  have hog' : o ∉ crossingMakers st side p e.book := by simpa using hog
  have hnc : ¬ crosses side (st.orders o).price p = true := fun hc =>
    hog' (mem_takeWhile_of_pairwise (hok.crosses_pairwise p) (mem_restingOrders.mpr ⟨y, hy, hoy⟩) hc)
  rw [hok.price y hy o hoy] at hnc
  exact before_of_not_crosses hnc

end MatchingEngine

/-! ## Resting the taker keeps the invariant -/

namespace LevelMap

variable {s : Side}

/-- `emplace` then `modify` at one key: the level there is the old one, or a
    new one, changed by `f`; the others stay. -/
theorem mem_emplace_modify {m : LevelMap s} {k : Int} {f : PriceLevel → PriceLevel}
    {x : Int × PriceLevel} :
    x ∈ ((m.emplace k PriceLevel.new).modify k f).entries ↔
      x = (k, f ((m.find? k).getD PriceLevel.new)) ∨ (x ∈ m.entries ∧ x.1 ≠ k) := by
  have hk : ∀ L, (k, L) ∈ (m.emplace k PriceLevel.new).entries ↔
      L = (m.find? k).getD PriceLevel.new := by
    intro L
    rw [mem_emplace]
    cases hf : m.find? k with
    | none =>
      have := find?_eq_none.mp hf
      simp only [Option.getD_none, Prod.mk.injEq, true_and, and_true]
      exact ⟨fun h => h.elim (fun h => absurd rfl (this _ h)) id, .inr⟩
    | some L₀ =>
      have h₀ := find?_eq_some.mp hf
      simp only [Option.getD_some, Option.some_ne_none, and_false, or_false]
      exact ⟨fun h => key_unique h h₀, fun h => h ▸ h₀⟩
  rw [mem_modify]
  constructor
  · rintro (⟨L, hL, rfl⟩ | ⟨hx, hxk⟩)
    · exact .inl (by rw [(hk L).mp hL])
    · refine .inr ⟨?_, hxk⟩
      rcases mem_emplace.mp hx with hx | ⟨rfl, -⟩
      · exact hx
      · exact absurd rfl hxk
  · rintro (rfl | ⟨hx, hxk⟩)
    · exact .inl ⟨_, (hk _).mpr rfl, rfl⟩
    · exact .inr ⟨mem_emplace.mpr (.inl hx), hxk⟩

end LevelMap

/-- The level `addOrder` appends to is the one at the order's price, or a new
    one; when it holds an order, it is the map's level at that price. -/
theorem LevelMap.find?_getD_mem {s : Side} {m : LevelMap s} {k : Int} {r : Ptr}
    (hr : r ∈ ((m.find? k).getD PriceLevel.new).orders) :
    (k, (m.find? k).getD PriceLevel.new) ∈ m.entries := by
  cases hf : m.find? k with
  | none => simp [hf, PriceLevel.new] at hr
  | some L => simpa [hf] using LevelMap.find?_eq_some.mp hf

namespace OrderBook

variable {st : Storage} {b : OrderBook} {raw : Ptr}

@[simp] theorem index_addOrder :
    (b.addOrder st raw).index = Function.update b.index (st.orders raw).id (some raw) := rfl

/-- The levels after `addOrder`: the order is pushed to the level at its
    price, or to a new one there, and every other level stays. -/
theorem mem_levels_addOrder {s : Side} {x : Int × PriceLevel} :
    x ∈ ((b.addOrder st raw).levels s).entries ↔
      (s = (st.orders raw).side ∧ x = ((st.orders raw).price,
        (((b.levels (st.orders raw).side).find? (st.orders raw).price).getD .new).addOrder st raw)) ∨
      (x ∈ (b.levels s).entries ∧ (s = (st.orders raw).side → x.1 ≠ (st.orders raw).price)) := by
  rcases eq_or_ne s (st.orders raw).side with rfl | hs
  · simp only [addOrder, levels_withIndex, levels_setLevels_same, LevelMap.mem_emplace_modify,
      true_and, forall_const]
  · simp [addOrder, levels_setLevels_of_ne hs, hs]

/-- The orders queued on a side after `addOrder`: the new one and the old ones. -/
theorem mem_restingOrders_addOrder {s : Side} {r : Ptr} :
    r ∈ restingOrders ((b.addOrder st raw).levels s) ↔
      (r = raw ∧ s = (st.orders raw).side) ∨ r ∈ restingOrders (b.levels s) := by
  set o := st.orders raw
  set L₀ := ((b.levels o.side).find? o.price).getD PriceLevel.new
  constructor
  · intro hr
    obtain ⟨x, hx, hrx⟩ := mem_restingOrders.mp hr
    rcases mem_levels_addOrder.mp hx with ⟨rfl, rfl⟩ | ⟨hx, -⟩
    · simp only [PriceLevel.addOrder_orders, List.mem_append, List.mem_singleton] at hrx
      rcases hrx with hrx | rfl
      · exact .inr (mem_restingOrders.mpr ⟨_, LevelMap.find?_getD_mem hrx, hrx⟩)
      · exact .inl ⟨rfl, rfl⟩
    · exact .inr (mem_restingOrders.mpr ⟨x, hx, hrx⟩)
  · rintro (⟨rfl, rfl⟩ | hr)
    · exact mem_restingOrders.mpr ⟨_, mem_levels_addOrder.mpr (.inl ⟨rfl, rfl⟩), by simp⟩
    · obtain ⟨x, hx, hrx⟩ := mem_restingOrders.mp hr
      refine mem_restingOrders.mpr ?_
      by_cases hk : s = o.side ∧ x.1 = o.price
      · obtain ⟨rfl, hk⟩ := hk
        have hx' : (o.price, x.2) ∈ (b.levels o.side).entries := hk ▸ hx
        have : x.2 = L₀ := by simp [L₀, LevelMap.find?_eq_some.mpr hx']
        have hr' : r ∈ L₀.orders := this ▸ hrx
        exact ⟨_, mem_levels_addOrder.mpr (.inl ⟨rfl, rfl⟩), List.mem_append_left _ hr'⟩
      · exact ⟨x, mem_levels_addOrder.mpr (.inr ⟨hx, fun hs hk' => hk ⟨hs, hk'⟩⟩), hrx⟩

end OrderBook

namespace MatchingEngine

/-- Resting an allocated order that is not queued yet and that crosses no
    order of the other side keeps the invariant. -/
theorem WF.addOrder {e : MatchingEngine} (h : e.WF) {raw : Ptr} (hraw : raw < e.storage.size)
    (hfresh : ∀ s, raw ∉ restingOrders (e.book.levels s))
    (hcross : ∀ x ∈ (e.book.levels (e.storage.orders raw).side.opposite).entries,
      (e.storage.orders raw).side.opposite.before (e.storage.orders raw).price x.1) :
    ({ e with book := e.book.addOrder e.storage raw } : MatchingEngine).WF := by
  set o := e.storage.orders raw
  set L₀ := ((e.book.levels o.side).find? o.price).getD PriceLevel.new
  -- the level the order joins: the one at its price, or a new one
  have hL₀ : L₀.TotalOk e.storage ∧ L₀.orders.Nodup := by
    cases hf : (e.book.levels o.side).find? o.price with
    | none =>
      simp only [L₀, hf, Option.getD_none]
      exact ⟨PriceLevel.new_totalOk _, List.nodup_nil⟩
    | some L =>
      have hL := LevelMap.find?_eq_some.mp hf
      simp only [L₀, hf, Option.getD_some]
      exact ⟨h.total _ _ hL, (h.sideOk _).level_nodup hL⟩
  -- an order queued after the push is the new one, or was queued before
  have hnew : ∀ s x, x ∈ ((e.book.addOrder e.storage raw).levels s).entries →
      ∀ r ∈ x.2.orders, (r = raw ∧ s = o.side ∧ x.1 = o.price) ∨
        ((e.storage.orders r).price = x.1 ∧ (e.storage.orders r).side = s ∧
          r ∈ restingOrders (e.book.levels s)) := by
    intro s x hx r hr
    rcases OrderBook.mem_levels_addOrder.mp hx with ⟨rfl, rfl⟩ | ⟨hx, -⟩
    · simp only [PriceLevel.addOrder_orders, List.mem_append, List.mem_singleton] at hr
      rcases hr with hr | rfl
      · have := LevelMap.find?_getD_mem hr
        exact .inr ⟨(h.sideOk _).price _ this r hr, h.side _ _ this r hr,
          mem_restingOrders.mpr ⟨_, this, hr⟩⟩
      · exact .inl ⟨rfl, rfl, rfl⟩
    · exact .inr ⟨(h.sideOk s).price x hx r hr, h.side s x hx r hr,
        mem_restingOrders.mpr ⟨x, hx, hr⟩⟩
  refine ⟨fun s => SideOk.of_levels (fun x hx => ?_) (fun x hx r hr => ?_) (fun x hx => ?_),
    fun s x hx r hr => ?_, fun s r hr => ?_, fun j r hj => ?_, fun s x hx => ?_,
    fun b hb a ha => ?_⟩
  · rcases OrderBook.mem_levels_addOrder.mp hx with ⟨-, rfl⟩ | ⟨hx, -⟩
    · simp
    · exact (h.sideOk s).nonempty x hx
  · rcases hnew s x hx r hr with ⟨rfl, -, hk⟩ | ⟨hp, -⟩
    · exact hk.symm
    · exact hp
  · rcases OrderBook.mem_levels_addOrder.mp hx with ⟨rfl, rfl⟩ | ⟨hx, -⟩
    · refine List.nodup_append.mpr ⟨hL₀.2, List.nodup_singleton _, fun r hr hr' => ?_⟩
      rw [List.mem_singleton.mp hr'] at hr
      exact hfresh _ (mem_restingOrders.mpr ⟨_, LevelMap.find?_getD_mem hr, hr⟩)
    · exact (h.sideOk s).level_nodup hx
  · rcases hnew s x hx r hr with ⟨rfl, hs, -⟩ | ⟨-, hs, -⟩
    · exact hs.symm
    · exact hs
  · rcases OrderBook.mem_restingOrders_addOrder.mp hr with ⟨rfl, -⟩ | hr
    · exact hraw
    · exact h.alloc s r hr
  · simp only [OrderBook.index_addOrder, Function.update_apply] at hj
    split_ifs at hj with hjo
    · cases hj
      exact ⟨OrderBook.mem_restingOrders_addOrder.mpr (.inl ⟨rfl, rfl⟩), hjo.symm⟩
    · obtain ⟨hr, hid⟩ := h.index j r hj
      exact ⟨OrderBook.mem_restingOrders_addOrder.mpr (.inr hr), hid⟩
  · rcases OrderBook.mem_levels_addOrder.mp hx with ⟨-, rfl⟩ | ⟨hx, -⟩
    · exact PriceLevel.addOrder_totalOk hL₀.1 raw
    · exact h.total s x hx
  · rcases OrderBook.mem_levels_addOrder.mp hb with ⟨hs, rfl⟩ | ⟨hb, -⟩ <;>
      rcases OrderBook.mem_levels_addOrder.mp ha with ⟨hs', rfl⟩ | ⟨ha, -⟩
    · exact absurd (hs.trans hs'.symm) (by decide)
    · have := hcross a (by rw [← hs]; exact ha)
      rw [← hs] at this; exact this
    · have := hcross b (by rw [← hs']; exact hb)
      rw [← hs'] at this; exact this
    · exact h.uncrossed b hb a ha

/-- From a state satisfying the invariant, `submitOrder` is the reference
    submission. -/
theorem WF.submitOrder_eq {e : MatchingEngine} (h : e.WF) (side : Side) (p : Int) (q : Quantity) :
    e.submitOrder side p q = referenceSubmit e side p q :=
  submitOrder_eq_referenceSubmit e side p q (h.sideOk_push _ _)

theorem WF.exec_submitOrder {e : MatchingEngine} (h : e.WF) (side : Side) (p : Int)
    (q : Quantity) : (e.exec (.submitOrder side p q)).2 = (referenceSubmit e side p q).2 := by
  rw [← h.submitOrder_eq]; rfl

/-- `submitOrder` keeps the invariant. -/
theorem WF.submitOrder {e : MatchingEngine} (h : e.WF) (side : Side) (p : Int) (q : Quantity) :
    (e.submitOrder side p q).2.WF := by
  rw [h.submitOrder_eq]
  have h₁ := afterReferenceWalk_wf h side p q
  simp only [referenceSubmit, OrderBook.rest_eq_addOrder]
  split_ifs with hr
  · -- the taker keeps its side and price through the walk
    obtain ⟨-, hside, hprice, -⟩ := walk_orders_id e.nextOrderId
      (e.storage.push ⟨e.nextOrderId, side, p, q, q⟩) q
      (crossingMakers (e.storage.push ⟨e.nextOrderId, side, p, q, q⟩) side p e.book) e.storage.size
    simp only [Storage.push_orders_size] at hside hprice
    refine h₁.addOrder (by simp [afterReferenceWalk, referenceWalk]) (fun s hs => ?_) ?_
    · exact Nat.lt_irrefl _
        (h.alloc s _ ((afterReferenceWalk_levels_sub e side p q s).resting.subset hs))
    · have hs' : ((afterReferenceWalk e side p q).storage.orders e.storage.size).side = side := by
        simp only [afterReferenceWalk, referenceWalk, MatchingEngine.lastOrderId_add_one, Storage.setQuantity_side, hside]
      have hp' : ((afterReferenceWalk e side p q).storage.orders e.storage.size).price = p := by
        simp only [afterReferenceWalk, referenceWalk, MatchingEngine.lastOrderId_add_one, Storage.setQuantity_price, hprice]
      rw [hs', hp']
      exact afterReferenceWalk_uncrossed h side p q hr
  · exact h₁

/-- Every call keeps the invariant; a call that throws changes nothing. -/
theorem WF.exec {e : MatchingEngine} (h : e.WF) (c : Call) : (e.exec c).2.WF := by
  cases c with
  | submitOrder side p q => exact h.submitOrder side p q
  | cancelOrder id => exact h.cancelOrder id
  | modifyOrder id p q =>
    simp only [MatchingEngine.exec]
    split
    · rename_i r hr
      obtain ⟨o, hi, ⟨-, hq, rfl⟩ | ⟨-, rfl⟩⟩ := modifyOrder_eq_ok hr
      · exact h.modifyQuantity hi hq
      · exact (h.cancelOrder id).submitOrder _ _ _
    · exact h

theorem WF.size_submitOrder {e : MatchingEngine} (h : e.WF) (side : Side) (p : Int) (q : Quantity) :
    (e.submitOrder side p q).2.storage.size = e.storage.size + 1 := by
  rw [h.submitOrder_eq]
  simp [referenceSubmit, afterReferenceWalk, referenceWalk]

/-- A call allocates one order per submission, and nothing else. -/
theorem WF.size_exec {e : MatchingEngine} (h : e.WF) (c : Call) :
    (e.exec c).2.storage.size = e.storage.size + c.submissions e := by
  cases c with
  | submitOrder side p q => exact h.size_submitOrder side p q
  | cancelOrder id => rfl
  | modifyOrder id p q =>
    simp only [MatchingEngine.exec]
    split
    · rename_i r hr
      obtain ⟨o, hi, ⟨hp, hq, rfl⟩ | ⟨hp, rfl⟩⟩ := modifyOrder_eq_ok hr
      · obtain ⟨L, hL, -, -⟩ := h.mem_resting (h.index id o hi).1
        simp [Call.submissions, OrderBook.getOrder, hi, hp, OrderBook.modifyQuantity_of_index hi hq hL]
      · have h1 : Call.submissions e (.modifyOrder id p q) = 1 := by
          simp [Call.submissions, OrderBook.getOrder, hi, hp]
        rw [h1]
        exact (h.cancelOrder id).size_submitOrder _ _ _
    · rename_i msg hr
      rcases modifyOrder_eq_error hr with ⟨hi, -⟩ | ⟨o, hi, hp, -, -⟩
      · simp [Call.submissions, OrderBook.getOrder, hi]
      · simp [Call.submissions, OrderBook.getOrder, hi, hp]

end MatchingEngine

/-- **Every reachable state satisfies the invariant.** -/
theorem Reachable.wf {n : Nat} {e : MatchingEngine} (h : Reachable n e) : e.WF := by
  induction h with
  | init => exact MatchingEngine.init_wf
  | step c _ ih => exact ih.exec c

/-- A run of `n` submissions has allocated `n` orders. -/
theorem Reachable.size {n : Nat} {e : MatchingEngine} (h : Reachable n e) : e.storage.size = n := by
  induction h with
  | init => rfl
  | step c h ih => rw [h.wf.size_exec, ih]

/-! ## What the invariant gives the callers -/

/-- **Matching is the reference walk.** From every reachable state,
    `submitOrder(side, p, q)` returns the trades of the price-time-priority
    walk over the crossing makers and leaves the reference state. -/
theorem submitOrder_reference {n : Nat} {e : MatchingEngine} (h : Reachable n e) (side : Side)
    (p : Int) (q : Quantity) : e.submitOrder side p q = referenceSubmit e side p q :=
  h.wf.submitOrder_eq side p q

/-- A sell resting at 100, reached by one submission, and a buy that crosses it. -/
theorem submitOrder_reference_after_ask :
    Reachable 1 (MatchingEngine.init.exec (.submitOrder .sell 100 5)).2 ∧
      (MatchingEngine.init.exec (.submitOrder .sell 100 5)).2.submitOrder .buy 101 3 =
        referenceSubmit (MatchingEngine.init.exec (.submitOrder .sell 100 5)).2 .buy 101 3 :=
  ⟨.step (.submitOrder .sell 100 5) .init,
    submitOrder_reference (.step (.submitOrder .sell 100 5) .init) .buy 101 3⟩

/-- **The book is never crossed**: whenever both sides are non-empty,
    `bestBid() < bestAsk()`. -/
theorem bestBid_lt_bestAsk {n : Nat} {e : MatchingEngine} (h : Reachable n e) {b a : Int}
    (hb : e.book.bestBid = some b) (ha : e.book.bestAsk = some a) : b < a := by
  obtain ⟨⟨b', Lb⟩, hb', rfl⟩ := Option.map_eq_some'.mp hb
  obtain ⟨⟨a', La⟩, ha', rfl⟩ := Option.map_eq_some'.mp ha
  exact h.wf.uncrossed _ (LevelMap.begin_mem hb') _ (LevelMap.begin_mem ha')

/-- A bid at 99 and an ask at 101, resting after two submissions. -/
theorem bestBid_lt_bestAsk_two_sided :
    Reachable 2 ((MatchingEngine.init.exec (.submitOrder .buy 99 1)).2.exec
      (.submitOrder .sell 101 1)).2 ∧
    ((MatchingEngine.init.exec (.submitOrder .buy 99 1)).2.exec
      (.submitOrder .sell 101 1)).2.book.bestBid = some 99 ∧
    ((MatchingEngine.init.exec (.submitOrder .buy 99 1)).2.exec
      (.submitOrder .sell 101 1)).2.book.bestAsk = some 101 ∧ (99 : Int) < 101 := by
  have h₁ : Reachable 1 (MatchingEngine.init.exec (.submitOrder .buy 99 1)).2 :=
    .step (.submitOrder .buy 99 1) .init
  have h₂ := Reachable.step (.submitOrder .sell 101 1) h₁
  have hb : ((MatchingEngine.init.exec (.submitOrder .buy 99 1)).2.exec
      (.submitOrder .sell 101 1)).2.book.bestBid = some 99 := by
    rw [h₁.wf.exec_submitOrder, MatchingEngine.init_wf.exec_submitOrder]; decide
  have ha : ((MatchingEngine.init.exec (.submitOrder .buy 99 1)).2.exec
      (.submitOrder .sell 101 1)).2.book.bestAsk = some 101 := by
    rw [h₁.wf.exec_submitOrder, MatchingEngine.init_wf.exec_submitOrder]; decide
  exact ⟨h₂, hb, ha, bestBid_lt_bestAsk h₂ hb ha⟩

end LimitOrderBook

