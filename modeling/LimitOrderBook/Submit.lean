/-
  LimitOrderBook.Submit

  The `match` loop against the reference walk, level by level
  (`matchLoop_eq_walk`), and with it `submitOrder` against `referenceSubmit`
  (`submitOrder_eq_referenceSubmit`).

  A pass of the loop fills the best level, which is `fillLevel_eq_walk`. If the
  level is left non-empty the taker is used up and the walk has nothing more to
  do; otherwise the level is erased and the loop goes on with the rest of the
  side, exactly as the walk goes on with the rest of its makers. What the loop
  needs of the side is `SideOk`: no empty level, every order priced at its
  level's key, no order queued twice.
-/
import LimitOrderBook.Walk

namespace LimitOrderBook

/-- What the `match` loop needs of the side it walks. -/
structure SideOk (st : Storage) {s : Side} (m : LevelMap s) : Prop where
  nonempty : ∀ e ∈ m.entries, e.2.orders ≠ []
  price : ∀ e ∈ m.entries, ∀ o ∈ e.2.orders, (st.orders o).price = e.1
  nodup : (restingOrders m).Nodup

/-- A side with no empty level comes out of a walk that touched nothing as it was. -/
theorem LevelMap.afterWalk_same {s : Side} {m : LevelMap s} (st : Storage)
    (hne : ∀ e ∈ m.entries, e.2.orders ≠ []) : m.afterWalk st st [] = m := by
  apply LevelMap.ext_entries
  have hmap : (m.entries.map fun e => (e.1, e.2)) = m.entries := by simp
  simp only [LevelMap.afterWalk, PriceLevel.afterWalk_same, hmap]
  exact List.filter_eq_self.mpr fun e he => by simpa using hne e he

@[simp] theorem OrderBook.setLevels_levels (b : OrderBook) (s : Side) :
    b.setLevels s (b.levels s) = b := by
  cases s <;> rfl

@[simp] theorem OrderBook.withIndex_index (b : OrderBook) : b.withIndex b.index = b := rfl

@[simp] theorem OrderBook.withIndex_withIndex (b : OrderBook) (i j : OrderId → Option Ptr) :
    (b.withIndex i).withIndex j = b.withIndex j := rfl

theorem LevelMap.entries_of_begin {s : Side} {m : LevelMap s} {k : Int} {L : PriceLevel}
    (h : m.begin = some (k, L)) : ∃ rest, m.entries = (k, L) :: rest := by
  simp only [LevelMap.begin, List.head?_eq_some_iff] at h
  exact h

/-- The walk's crossing test is the loop's `stopsAt`, negated. -/
theorem crosses_eq_not_stopsAt (side : Side) (k p : Int) :
    crosses side k p = !stopsAt side.opposite k p := by
  cases side <;> simp only [crosses, stopsAt, Side.opposite, gt_iff_lt, ← decide_not, not_lt]

/-- The state the `match` loop ends in, read off the reference walk of the
    side's crossing makers. -/
def MatchState.afterWalk (s : Side) (ms : MatchState) : MatchState :=
  let w := walk ms.taker.id ms.storage ms.taker.quantity
    ((restingOrders (ms.book.levels s)).takeWhile
      fun o => !stopsAt s (ms.storage.orders o).price ms.taker.price)
  ⟨{ ms.taker with quantity := w.remaining },
   (ms.book.setLevels s ((ms.book.levels s).afterWalk ms.storage w.storage w.gone)).withIndex
     (eraseIds ms.storage w.gone ms.book.index),
   w.storage, ms.trades ++ w.trades⟩

/-- A walk over no maker leaves the match state as it is. -/
theorem MatchState.afterWalk_of_takeWhile_nil {s : Side} {ms : MatchState}
    (hne : ∀ e ∈ (ms.book.levels s).entries, e.2.orders ≠ [])
    (h : (restingOrders (ms.book.levels s)).takeWhile
      (fun o => !stopsAt s (ms.storage.orders o).price ms.taker.price) = [] ∨
      ¬ 0 < ms.taker.quantity) : ms.afterWalk s = ms := by
  obtain ⟨t, b, st, ts⟩ := ms
  have hw : ∀ xs : List Ptr, xs = [] ∨ ¬ 0 < t.quantity → walk t.id st t.quantity xs =
      ⟨[], st, t.quantity, []⟩ := by
    rintro xs (rfl | h)
    · rfl
    · exact walk_of_not_pos _ h _ _
  simp only [afterWalk, hw _ h, LevelMap.afterWalk_same st hne, OrderBook.setLevels_levels,
    eraseIds_nil, OrderBook.withIndex_index, List.append_nil]

/-! ## The side after one pass -/

section Entries

variable {s : Side} {m : LevelMap s} {k : Int} {L : PriceLevel} {rest : List (Int × PriceLevel)}

/-- The keys after the best one differ from it. -/
theorem LevelMap.rest_key_ne (hm : m.entries = (k, L) :: rest) : ∀ e ∈ rest, e.1 ≠ k := by
  have hs := m.sorted
  rw [hm, List.pairwise_cons] at hs
  exact fun e he hk => Side.before_irrefl s k (hk ▸ hs.1 e he)

/-- Writing back the best level: it stays in front, or is gone. -/
theorem LevelMap.update_entries_cons (hm : m.entries = (k, L) :: rest) (L' : PriceLevel) :
    (m.update k L').entries = (if L'.orders = [] then [] else [(k, L')]) ++ rest := by
  have hne := LevelMap.rest_key_ne hm
  have hmod : (m.modify k fun _ => L').entries = (k, L') :: rest := by
    simp only [LevelMap.modify, hm, List.map_cons, if_true, List.cons.injEq, true_and]
    exact List.map_congr_left (fun e he => if_neg (hne e he)) |>.trans (List.map_id _)
  by_cases he : L'.orders = []
  · simp only [LevelMap.update, (PriceLevel.empty_iff L').mpr he, if_true, LevelMap.erase, hmod,
      List.filter_cons, bne_self_eq_false, he, List.nil_append]
    exact List.filter_eq_self.mpr fun e he' => by simpa using hne e he'
  · have : ¬ L'.empty = true := by simpa using he
    simp only [LevelMap.update, if_neg this, hmod, he, if_false, List.singleton_append]

theorem LevelMap.afterWalk_entries_cons (hm : m.entries = (k, L) :: rest) (st st' : Storage)
    (g : List Ptr) : (m.afterWalk st st' g).entries =
      (if (L.afterWalk st st' g).orders = [] then [] else [(k, L.afterWalk st st' g)]) ++
        (rest.map fun e => (e.1, e.2.afterWalk st st' g)).filter fun e => !e.2.orders.isEmpty := by
  simp only [LevelMap.afterWalk, hm, List.map_cons, List.filter_cons]
  split_ifs <;> simp_all

end Entries

/-- A level the first part of a walk did not touch sees only the rest of it. -/
theorem PriceLevel.afterWalk_append {st st₁ st₂ : Storage} {g₁ g₂ : List Ptr} {L : PriceLevel}
    (hg : ∀ o ∈ L.orders, o ∉ g₁) (hs : ∀ o ∈ L.orders, st₁.orders o = st.orders o) :
    L.afterWalk st st₂ (g₁ ++ g₂) = L.afterWalk st₁ st₂ g₂ := by
  have hsum : qtySum st₁ L.orders = qtySum st L.orders := by
    simp only [qtySum]; congr 1; exact List.map_congr_left fun o ho => by simp [Storage.qty, hs o ho]
  simp only [PriceLevel.afterWalk, hsum, PriceLevel.mk.injEq, and_true]
  exact List.filter_congr fun o ho => by simp [hg o ho]

/-! ## One pass of the loop -/

/-- A pass of the loop, read off the walk of the best level's queue. -/
theorem matchStep_eq_walk {s : Side} {ms : MatchState} {k : Int} {L : PriceLevel}
    (hmem : (k, L) ∈ (ms.book.levels s).entries) (hd : L.orders.Nodup) :
    matchStep s ms k L =
      let w := walk ms.taker.id ms.storage ms.taker.quantity L.orders
      ⟨{ ms.taker with quantity := w.remaining },
       (ms.book.setLevels s ((ms.book.levels s).update k
          (L.afterWalk ms.storage w.storage w.gone))).withIndex
         (eraseIds ms.storage w.gone ms.book.index),
       w.storage, ms.trades ++ w.trades⟩ := by
  rw [matchStep_eq hmem, MatchState.fill, fillLevel_eq_walk _ hd]; rfl

/-- The walk of one level stops with the taker used up or the level emptied. -/
theorem walk_exit (n : OrderId) (st : Storage) (r : Quantity) {L : PriceLevel}
    (hd : L.orders.Nodup) :
    (walk n st r L.orders).remaining = 0 ∨
      (L.afterWalk st (walk n st r L.orders).storage (walk n st r L.orders).gone).orders = [] := by
  have h := fillLevel_exit ⟨⟨n, .buy, 0, r, r⟩, L, st, fun _ => none, []⟩
  rw [fillLevel_eq_walk _ hd] at h
  exact h

theorem restingOrders_eq {s : Side} {m : LevelMap s} {k : Int} {L : PriceLevel}
    {rest : List (Int × PriceLevel)} (hm : m.entries = (k, L) :: rest) :
    restingOrders m = L.orders ++ rest.flatMap (·.2.orders) := by
  simp only [restingOrders, hm, List.flatMap_cons]

/-- The side a pass leaves is still fit for the loop. -/
theorem SideOk.update {st : Storage} {s : Side} {m : LevelMap s} (h : SideOk st m) {k : Int}
    {L : PriceLevel} {rest : List (Int × PriceLevel)} (hm : m.entries = (k, L) :: rest)
    (n : OrderId) (r : Quantity) :
    let w := walk n st r L.orders
    SideOk w.storage (m.update k (L.afterWalk st w.storage w.gone)) := by
  intro w
  have hent := LevelMap.update_entries_cons hm (L.afterWalk st w.storage w.gone)
  have hprice : ∀ o, (w.storage.orders o).price = (st.orders o).price :=
    fun o => (walk_orders_id n st r L.orders o).2.2.1
  have hsub : (L.afterWalk st w.storage w.gone).orders.Sublist L.orders := List.filter_sublist _
  refine ⟨fun e he => ?_, fun e he o ho => ?_, ?_⟩
  · rw [hent] at he
    rcases List.mem_append.mp he with he | he
    · split at he
      · cases he
      · rw [List.mem_singleton] at he; subst he; assumption
    · exact h.nonempty e (hm ▸ List.mem_cons_of_mem _ he)
  · rw [hprice]
    rw [hent] at he
    rcases List.mem_append.mp he with he | he
    · split at he
      · cases he
      · rw [List.mem_singleton] at he; subst he
        exact h.price (k, L) (hm ▸ List.mem_cons_self _ _) o (hsub.subset ho)
    · exact h.price e (hm ▸ List.mem_cons_of_mem _ he) o ho
  · have hnd := h.nodup
    rw [restingOrders_eq hm] at hnd
    simp only [restingOrders, hent, List.flatMap_append]
    refine List.Nodup.sublist (List.Sublist.append ?_ (List.Sublist.refl _)) hnd
    split
    · exact List.nil_sublist _
    · simpa using hsub

section Compose

variable {s : Side} {m : LevelMap s} {k : Int} {L : PriceLevel} {rest : List (Int × PriceLevel)}
  {st st₁ st₂ : Storage} {g₁ g₂ : List Ptr}

/-- The best level drained empty: walking the rest from the side it leaves is
    walking the whole side. -/
theorem LevelMap.afterWalk_update_of_empty (hm : m.entries = (k, L) :: rest)
    (hdisj : ∀ e ∈ rest, ∀ o ∈ e.2.orders, o ∉ L.orders) (hg : ∀ o ∈ g₁, o ∈ L.orders)
    (hs : ∀ o, o ∉ L.orders → st₁.orders o = st.orders o)
    (he : (L.afterWalk st st₁ g₁).orders = []) :
    (m.update k (L.afterWalk st st₁ g₁)).afterWalk st₁ st₂ g₂ = m.afterWalk st st₂ (g₁ ++ g₂) := by
  apply LevelMap.ext_entries
  have hhead : (L.afterWalk st st₂ (g₁ ++ g₂)).orders = [] := by
    simp only [PriceLevel.afterWalk, List.filter_eq_nil_iff] at he ⊢
    intro o ho
    have : o ∈ g₁ := by simpa using he o ho
    simp [this]
  have hrest : (rest.map fun e => (e.1, e.2.afterWalk st₁ st₂ g₂)) =
      rest.map fun e => (e.1, e.2.afterWalk st st₂ (g₁ ++ g₂)) :=
    List.map_congr_left fun e he' => by
      rw [PriceLevel.afterWalk_append (fun o ho hg₁ => hdisj e he' o ho (hg o hg₁))
        (fun o ho => hs o (hdisj e he' o ho))]
  have hm' := LevelMap.update_entries_cons hm (L.afterWalk st st₁ g₁)
  rw [if_pos he, List.nil_append] at hm'
  simp only [LevelMap.afterWalk, hm', hrest, hm, List.map_cons, List.filter_cons, hhead,
    List.isEmpty_nil, Bool.not_true, Bool.false_eq_true, if_false]

/-- The best level left non-empty: the taker is used up, and the side the walk
    leaves is the side the pass leaves. -/
theorem LevelMap.afterWalk_eq_update (hm : m.entries = (k, L) :: rest)
    (hne : ∀ e ∈ rest, e.2.orders ≠ [])
    (hdisj : ∀ e ∈ rest, ∀ o ∈ e.2.orders, o ∉ L.orders) (hg : ∀ o ∈ g₁, o ∈ L.orders)
    (hs : ∀ o, o ∉ L.orders → st₁.orders o = st.orders o)
    (he : (L.afterWalk st st₁ g₁).orders ≠ []) :
    m.afterWalk st st₁ g₁ = m.update k (L.afterWalk st st₁ g₁) := by
  apply LevelMap.ext_entries
  have hrest : (rest.map fun e => (e.1, e.2.afterWalk st st₁ g₁)) = rest :=
    (List.map_congr_left fun e he' => by
      rw [PriceLevel.afterWalk_untouched (fun o ho hg₁ => hdisj e he' o ho (hg o hg₁))
        (fun o ho => hs o (hdisj e he' o ho))]; rfl).trans (List.map_id _)
  rw [LevelMap.afterWalk_entries_cons hm, LevelMap.update_entries_cons hm, if_neg he,
    hrest, List.filter_eq_self.mpr fun e he' => by simpa using hne e he']

end Compose

/-- After a pass, the walk of what is left finishes the walk of the whole side. -/
theorem MatchState.afterWalk_matchStep {s : Side} {ms : MatchState}
    (h : SideOk ms.storage (ms.book.levels s)) {k : Int} {L : PriceLevel}
    {rest : List (Int × PriceLevel)} (hm : (ms.book.levels s).entries = (k, L) :: rest)
    (hcross : ¬ stopsAt s k ms.taker.price = true) :
    (matchStep s ms k L).afterWalk s = ms.afterWalk s := by
  obtain ⟨t, b, st, ts⟩ := ms
  simp only at h hm hcross
  have hmem : (k, L) ∈ (b.levels s).entries := hm ▸ List.mem_cons_self _ _
  have hnd := h.nodup
  rw [restingOrders_eq hm, List.nodup_append] at hnd
  obtain ⟨hndL, -, hdis⟩ := hnd
  have hdisj : ∀ e ∈ rest, ∀ o ∈ e.2.orders, o ∉ L.orders := fun e he o ho hoL =>
    hdis hoL (List.mem_flatMap.mpr ⟨e, he, ho⟩)
  have hneR : ∀ e ∈ rest, e.2.orders ≠ [] := fun e he => h.nonempty e (hm ▸ List.mem_cons_of_mem _ he)
  -- every order of the best level crosses
  have hcrossL : ∀ o ∈ L.orders, (!stopsAt s (st.orders o).price t.price) = true := fun o ho => by
    rw [h.price (k, L) hmem o ho]; simpa using hcross
  rw [matchStep_eq_walk hmem hndL]
  dsimp only
  have hs₁ := fun o (ho : o ∉ L.orders) => @walk_orders_of_not_mem t.id o st t.quantity _ ho
  have hprice₁ := fun o => (walk_orders_id t.id st t.quantity L.orders o).2.2.1
  have hg₁ := walk_gone_subset t.id st t.quantity L.orders
  have hexit := walk_exit t.id st t.quantity hndL
  have hidx := eraseIds_walk t.id st t.quantity L.orders
  have happ := walk_append t.id st t.quantity L.orders
  generalize walk t.id st t.quantity L.orders = w₁ at hs₁ hprice₁ hg₁ hexit hidx happ ⊢
  simp only [MatchState.afterWalk, OrderBook.levels_withIndex, OrderBook.levels_setLevels_same,
    OrderBook.index_withIndex, hprice₁, restingOrders_eq hm, List.takeWhile_append_of_pos hcrossL,
    happ, OrderBook.withIndex_setLevels, OrderBook.setLevels_setLevels,
    OrderBook.withIndex_withIndex, hidx, ← eraseIds_append, List.append_assoc]
  have hupd := LevelMap.update_entries_cons hm (L.afterWalk st w₁.storage w₁.gone)
  by_cases he : (L.afterWalk st w₁.storage w₁.gone).orders = []
  · rw [if_pos he, List.nil_append] at hupd
    rw [LevelMap.afterWalk_update_of_empty hm hdisj hg₁ hs₁ he]
    simp only [restingOrders, hupd]
  · have h0 : ¬ 0 < w₁.remaining := by
      simp [hexit.resolve_right he, Quantity.lt_iff, Quantity.zero_toNat]
    rw [if_neg he] at hupd
    have hne : ∀ e ∈ ((b.levels s).update k (L.afterWalk st w₁.storage w₁.gone)).entries,
        e.2.orders ≠ [] := by
      intro e he'
      rw [hupd, List.singleton_append, List.mem_cons] at he'
      rcases he' with rfl | he'
      · exact he
      · exact hneR e he'
    simp only [walk_of_not_pos _ h0, List.append_nil, LevelMap.afterWalk_same _ hne,
      LevelMap.afterWalk_eq_update hm hneR hdisj hg₁ hs₁ he]

/-- **The `match` loop is the reference walk** of the crossing makers of the
    side it walks. -/
theorem matchLoop_eq_walk (s : Side) (ms : MatchState) (h : SideOk ms.storage (ms.book.levels s)) :
    matchLoop s ms = ms.afterWalk s := by
  induction ms using matchLoop.induct s with
  | case1 ms ht hb =>
    rw [matchLoop, dif_pos ht]
    split
    · refine (MatchState.afterWalk_of_takeWhile_nil h.nonempty (.inl ?_)).symm
      simp [restingOrders, LevelMap.begin_eq_none.mp hb]
    · simp_all
  | case2 ms ht k L hb hstop =>
    rw [matchLoop, dif_pos ht]
    split
    · simp_all
    rename_i k' L' hb'
    obtain ⟨rfl, rfl⟩ : k = k' ∧ L = L' := by simpa using hb.symm.trans hb'
    rw [if_pos hstop]
    obtain ⟨rest, hm⟩ := LevelMap.entries_of_begin hb
    refine (MatchState.afterWalk_of_takeWhile_nil h.nonempty (.inl ?_)).symm
    obtain ⟨o, os, ho⟩ := List.exists_cons_of_ne_nil (h.nonempty _ (hm ▸ List.mem_cons_self _ _))
    have hp : (ms.storage.orders o).price = k :=
      h.price _ (hm ▸ List.mem_cons_self _ _) o (by rw [ho]; exact List.mem_cons_self _ _)
    simp only at ho
    rw [restingOrders_eq hm, ho, List.cons_append, List.takeWhile_cons_of_neg]
    simp [hp, hstop]
  | case3 ms ht k L hb hstop ih =>
    rw [matchLoop, dif_pos ht]
    split
    · simp_all
    rename_i k' L' hb'
    obtain ⟨rfl, rfl⟩ : k = k' ∧ L = L' := by simpa using hb.symm.trans hb'
    rw [if_neg hstop]
    obtain ⟨rest, hm⟩ := LevelMap.entries_of_begin hb
    have hnd := h.nodup
    rw [restingOrders_eq hm, List.nodup_append] at hnd
    have hok := h.update hm ms.taker.id ms.taker.quantity
    rw [ih (by rw [matchStep_eq_walk (hm ▸ List.mem_cons_self _ _) hnd.1]; simpa using hok),
      MatchState.afterWalk_matchStep h hm hstop]
  | case4 ms ht =>
    rw [matchLoop, dif_neg ht]
    exact (MatchState.afterWalk_of_takeWhile_nil h.nonempty (.inr ht)).symm

/-- **`submitOrder` is the reference submission** whenever the side the taker
    walks is fit for the loop. -/
theorem submitOrder_eq_referenceSubmit (e : MatchingEngine) (side : Side) (p : Int) (q : Quantity)
    (h : SideOk (e.storage.push ⟨e.nextOrderId, side, p, q, q⟩) (e.book.levels side.opposite)) :
    e.submitOrder side p q = referenceSubmit e side p q := by
  have hc : (fun o => crosses side ((e.storage.push ⟨e.nextOrderId, side, p, q, q⟩).orders o).price p)
      = fun o => !stopsAt side.opposite
          ((e.storage.push ⟨e.nextOrderId, side, p, q, q⟩).orders o).price p :=
    funext fun o => crosses_eq_not_stopsAt side _ p
  simp only [MatchingEngine.submitOrder, «match»]
  rw [matchLoop_eq_walk side.opposite ⟨⟨e.nextOrderId, side, p, q, q⟩, e.book,
    e.storage.push ⟨e.nextOrderId, side, p, q, q⟩, []⟩ h]
  simp only [MatchState.afterWalk, referenceSubmit, OrderBook.rest_eq_addOrder, referenceWalk, afterReferenceWalk,
    MatchingEngine.lastOrderId_add_one, crossingMakers, hc, List.nil_append]

end LimitOrderBook
