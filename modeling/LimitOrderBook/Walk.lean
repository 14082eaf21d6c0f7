/-
  LimitOrderBook.Walk

  The reference walk, and `fillLevel` against it: run on one level, the
  source's inner loop is the walk of that level's queue (`fillLevel_eq_walk`).
  The level comes out with the makers the walk brought to zero unlinked and its
  total down by the fills; the index loses their ids.
-/
import LimitOrderBook.Reference

namespace LimitOrderBook

/-! ## The walk -/

/-- The fill of one maker, with `f = min r q`: a taker left with `r - f` and a
    maker with `q - f`, one of which is zero. -/
theorem min_sub_eq_zero {r q : Quantity} (hq : q - min r q ≠ 0) : r - min r q = 0 := by
  rw [Quantity.eq_iff, Quantity.sub_toNat (Quantity.min_le_left _ _), Quantity.min_toNat]
  rw [Ne, Quantity.eq_iff, Quantity.sub_toNat (Quantity.min_le_right _ _), Quantity.min_toNat]
    at hq
  simp only [Quantity.zero_toNat] at hq ⊢
  omega

section Walk

variable (n : OrderId)

theorem walk_of_not_pos {r : Quantity} (hr : ¬ 0 < r) (st : Storage) (xs : List Ptr) :
    walk n st r xs = ⟨[], st, r, []⟩ := by
  cases xs <;> simp [walk, hr]

theorem walk_nil (st : Storage) (r : Quantity) : walk n st r [] = ⟨[], st, r, []⟩ := rfl

theorem walk_cons_of_pos {r : Quantity} (hr : 0 < r) (st : Storage) (m : Ptr) (ms : List Ptr) :
    walk n st r (m :: ms) =
      let f := min r (st.qty m)
      let st' := st.setQuantity m (st.qty m - f)
      let w := walk n st' (r - f) ms
      ⟨⟨st.idOf m, n, (st.orders m).price, f⟩ :: w.trades, w.storage, w.remaining,
        if st'.qty m = 0 then m :: w.gone else w.gone⟩ := by
  simp only [walk, if_pos hr]

/-- Walking `xs ++ ys` is walking `xs`, then `ys` with what is left. -/
theorem walk_append (st : Storage) (r : Quantity) (xs ys : List Ptr) :
    walk n st r (xs ++ ys) =
      let w₁ := walk n st r xs
      let w₂ := walk n w₁.storage w₁.remaining ys
      ⟨w₁.trades ++ w₂.trades, w₂.storage, w₂.remaining, w₁.gone ++ w₂.gone⟩ := by
  induction xs generalizing st r with
  | nil => rfl
  | cons m ms ih =>
    by_cases hr : 0 < r
    · rw [List.cons_append, walk_cons_of_pos n hr, walk_cons_of_pos n hr]
      dsimp only
      rw [ih]
      split <;> simp
    · simp [walk_of_not_pos n hr]

/-- The walk writes only to the makers it walks. -/
theorem walk_orders_of_not_mem {o : Ptr} :
    ∀ {st : Storage} {r : Quantity} {xs : List Ptr}, o ∉ xs →
      (walk n st r xs).storage.orders o = st.orders o
  | _, _, [], _ => rfl
  | st, r, m :: ms, h => by
    rw [List.mem_cons, not_or] at h
    by_cases hr : 0 < r
    · rw [walk_cons_of_pos n hr]
      exact (walk_orders_of_not_mem h.2).trans (Storage.setQuantity_orders_ne h.1 _ _)
    · rw [walk_of_not_pos n hr]

/-- The walk changes quantities only: ids, sides and prices stay. -/
theorem walk_orders_id :
    ∀ (st : Storage) (r : Quantity) (xs : List Ptr) (o : Ptr),
      ((walk n st r xs).storage.orders o).id = (st.orders o).id ∧
      ((walk n st r xs).storage.orders o).side = (st.orders o).side ∧
      ((walk n st r xs).storage.orders o).price = (st.orders o).price ∧
      ((walk n st r xs).storage.orders o).originalQty = (st.orders o).originalQty
  | _, _, [], _ => ⟨rfl, rfl, rfl, rfl⟩
  | st, r, m :: ms, o => by
    by_cases hr : 0 < r
    · rw [walk_cons_of_pos n hr]
      obtain ⟨h₁, h₂, h₃, h₄⟩ := walk_orders_id (st.setQuantity m (st.qty m - min r (st.qty m)))
        (r - min r (st.qty m)) ms o
      simp only [h₁, h₂, h₃, h₄, Storage.setQuantity_id, Storage.setQuantity_side,
        Storage.setQuantity_price, Storage.setQuantity_originalQty, and_self]
    · rw [walk_of_not_pos n hr]; exact ⟨rfl, rfl, rfl, rfl⟩

@[simp] theorem walk_storage_size :
    ∀ (st : Storage) (r : Quantity) (xs : List Ptr), (walk n st r xs).storage.size = st.size
  | _, _, [] => rfl
  | st, r, m :: ms => by
    by_cases hr : 0 < r
    · rw [walk_cons_of_pos n hr]; exact walk_storage_size _ _ ms
    · rw [walk_of_not_pos n hr]

/-- Every maker the walk drops is one it walked. -/
theorem walk_gone_subset :
    ∀ (st : Storage) (r : Quantity) (xs : List Ptr), ∀ o ∈ (walk n st r xs).gone, o ∈ xs
  | _, _, [], _, h => by simp [walk] at h
  | st, r, m :: ms, o, h => by
    by_cases hr : 0 < r
    · rw [walk_cons_of_pos n hr] at h
      dsimp only at h
      split at h
      · rcases List.mem_cons.mp h with rfl | h
        · exact List.mem_cons_self _ _
        · exact List.mem_cons_of_mem _ (walk_gone_subset _ _ ms o h)
      · exact List.mem_cons_of_mem _ (walk_gone_subset _ _ ms o h)
    · simp [walk_of_not_pos n hr] at h

/-- A maker the walk drops is left at zero. -/
theorem walk_gone_qty :
    ∀ (st : Storage) (r : Quantity) (xs : List Ptr), xs.Nodup →
      ∀ o ∈ (walk n st r xs).gone, (walk n st r xs).storage.qty o = 0
  | _, _, [], _, _, h => by simp [walk] at h
  | st, r, m :: ms, hd, o, h => by
    rw [List.nodup_cons] at hd
    by_cases hr : 0 < r
    · rw [walk_cons_of_pos n hr] at h ⊢
      dsimp only at h ⊢
      split at h
      · rcases List.mem_cons.mp h with rfl | h
        · rwa [Storage.qty, walk_orders_of_not_mem n hd.1]
        · exact walk_gone_qty _ _ ms hd.2 o h
      · exact walk_gone_qty _ _ ms hd.2 o h
    · simp [walk_of_not_pos n hr] at h

/-- A taker left with quantity used up every maker it walked. -/
theorem walk_gone_of_pos :
    ∀ (st : Storage) (r : Quantity) (xs : List Ptr), 0 < (walk n st r xs).remaining →
      (walk n st r xs).gone = xs
  | _, _, [], _ => rfl
  | st, r, m :: ms, h => by
    by_cases hr : 0 < r
    · rw [walk_cons_of_pos n hr] at h ⊢
      dsimp only at h ⊢
      have hz : (st.setQuantity m (st.qty m - min r (st.qty m))).qty m = 0 := by
        by_contra hne
        rw [Storage.qty_setQuantity_self] at hne
        rw [min_sub_eq_zero hne, walk_of_not_pos n (lt_irrefl 0)] at h
        exact lt_irrefl 0 h
      rw [if_pos hz, walk_gone_of_pos _ _ ms h]
    · rw [walk_of_not_pos n hr] at h; exact absurd h hr

end Walk

/-! ## Levels and index after a walk -/

@[simp] theorem Storage.idOf_setQuantity (st : Storage) (p : Ptr) (q : Quantity) :
    (st.setQuantity p q).idOf = st.idOf := by
  funext o; exact Storage.setQuantity_id st p o q

theorem eraseIds_nil (st : Storage) (index : OrderId → Option Ptr) : eraseIds st [] index = index :=
  rfl

theorem eraseIds_cons (st : Storage) (o : Ptr) (gone : List Ptr) (index : OrderId → Option Ptr) :
    eraseIds st (o :: gone) index = eraseIds st gone (Function.update index (st.idOf o) none) :=
  rfl

theorem eraseIds_append (st : Storage) (g₁ g₂ : List Ptr) (index : OrderId → Option Ptr) :
    eraseIds st (g₁ ++ g₂) index = eraseIds st g₂ (eraseIds st g₁ index) :=
  List.foldl_append _ _ _ _

theorem eraseIds_apply (st : Storage) (gone : List Ptr) (index : OrderId → Option Ptr)
    (j : OrderId) :
    eraseIds st gone index j = if ∃ o ∈ gone, st.idOf o = j then none else index j := by
  induction gone generalizing index with
  | nil => simp [eraseIds_nil]
  | cons o gone ih =>
    rw [eraseIds_cons, ih]
    by_cases h : st.idOf o = j
    · subst h; simp
    · simp [Function.update_apply, Ne.symm h, h]

/-- Erasing by id reads only the ids, which the walk leaves alone. -/
theorem eraseIds_walk (n : OrderId) (st : Storage) (r : Quantity) (xs : List Ptr) :
    eraseIds (walk n st r xs).storage = eraseIds st := by
  have : (walk n st r xs).storage.idOf = st.idOf := funext fun o => (walk_orders_id n st r xs o).1
  funext gone index
  unfold eraseIds
  rw [this]

theorem PriceLevel.afterWalk_same (st : Storage) (L : PriceLevel) : L.afterWalk st st [] = L := by
  simp [PriceLevel.afterWalk]

/-- A level none of whose orders the walk touched comes out of it unchanged. -/
theorem PriceLevel.afterWalk_untouched {st st' : Storage} {gone : List Ptr} {L : PriceLevel}
    (hg : ∀ o ∈ L.orders, o ∉ gone) (hs : ∀ o ∈ L.orders, st'.orders o = st.orders o) :
    L.afterWalk st st' gone = L := by
  obtain ⟨os, t⟩ := L
  have hsum : qtySum st' os = qtySum st os := by
    simp only [qtySum]; congr 1; exact List.map_congr_left fun o ho => by simp [Storage.qty, hs o ho]
  simp only [PriceLevel.afterWalk, hsum, sub_self, sub_zero, PriceLevel.mk.injEq, and_true]
  exact List.filter_eq_self.mpr fun o ho => by simpa using hg o ho

theorem eraseIds_setQuantity (st : Storage) (p : Ptr) (q : Quantity) :
    eraseIds (st.setQuantity p q) = eraseIds st := by
  funext gone index
  unfold eraseIds
  rw [Storage.idOf_setQuantity]

/-- A maker used up at the front of its level: the walk of the rest of the
    queue from the popped level gives the same level as the whole walk. -/
theorem PriceLevel.afterWalk_pop {L : PriceLevel} {m : Ptr} {os g : List Ptr} {st st₂ : Storage}
    (ho : L.orders = m :: os) (hm : m ∉ os) (h₂ : st₂.qty m = 0) :
    L.afterWalk st st₂ (m :: g) =
      PriceLevel.afterWalk (st.setQuantity m 0) st₂ g ⟨os, L.totalQty - st.qty m - 0⟩ := by
  have hf : (m :: os).filter (· ∉ m :: g) = os.filter (· ∉ g) := by
    rw [List.filter_cons_of_neg (by simp)]
    exact List.filter_congr fun o ho => by
      have : o ≠ m := fun e => hm (e ▸ ho)
      simp [this]
  simp only [PriceLevel.afterWalk, ho, hf, qtySum_cons, h₂, qtySum_setQuantity_of_not_mem hm]
  congr 1
  abel

/-- A maker partly filled by `f`: the level is the old one with `f` off its total. -/
theorem PriceLevel.afterWalk_partial {L : PriceLevel} {m : Ptr} {st : Storage} (hd : L.orders.Nodup)
    (hm : m ∈ L.orders) (f : Quantity) :
    L.afterWalk st (st.setQuantity m (st.qty m - f)) [] = L.adjustTotal f := by
  simp only [PriceLevel.afterWalk, PriceLevel.adjustTotal, qtySum_setQuantity_of_mem hd hm,
    Storage.qty, Storage.setQuantity_orders_self]
  simp

/-! ## `fillLevel` is the walk of one queue -/

/-- The state `fillLevel` ends in, read off the walk of the level's queue. -/
def FillState.afterWalk (fs : FillState) : FillState :=
  let w := walk fs.taker.id fs.storage fs.taker.quantity fs.level.orders
  ⟨{ fs.taker with quantity := w.remaining }, fs.level.afterWalk fs.storage w.storage w.gone,
   w.storage, eraseIds fs.storage w.gone fs.index, fs.trades ++ w.trades⟩

/-- A walk that does nothing leaves the fill state as it is. -/
theorem FillState.afterWalk_of_walk_eq {fs : FillState}
    (h : walk fs.taker.id fs.storage fs.taker.quantity fs.level.orders =
      ⟨[], fs.storage, fs.taker.quantity, []⟩) : fs.afterWalk = fs := by
  obtain ⟨t, L, st, idx, ts⟩ := fs
  simp only [afterWalk, h, PriceLevel.afterWalk_same, eraseIds_nil, List.append_nil]

/-- A pass that leaves the front maker with nothing pops it and erases its
    index entry. -/
theorem fillStep_of_used_up {fs : FillState} {maker : Ptr} {os : List Ptr}
    (ho : fs.level.orders = maker :: os)
    (hz : fs.storage.qty maker - min fs.taker.quantity (fs.storage.qty maker) = 0) :
    fillStep fs maker =
      ⟨{ fs.taker with quantity := fs.taker.quantity - min fs.taker.quantity (fs.storage.qty maker) },
       ⟨os, fs.level.totalQty - min fs.taker.quantity (fs.storage.qty maker) - 0⟩,
       fs.storage.setQuantity maker (fs.storage.qty maker - min fs.taker.quantity (fs.storage.qty maker)),
       Function.update fs.index (fs.storage.idOf maker) none,
       fs.trades ++ [⟨fs.storage.idOf maker, fs.taker.id, (fs.storage.orders maker).price,
         min fs.taker.quantity (fs.storage.qty maker)⟩]⟩ := by
  simp only [fillStep, Storage.qty, Storage.setQuantity_orders_self] at hz ⊢
  simp only [hz, if_true, PriceLevel.adjustTotal, PriceLevel.popFront, ho, Storage.qty,
    Storage.setQuantity_orders_self, Storage.idOf]

/-- A pass that leaves the front maker something fills the taker and keeps
    the maker at the front. -/
theorem fillStep_of_not_used_up {fs : FillState} {maker : Ptr}
    (hz : ¬ fs.storage.qty maker - min fs.taker.quantity (fs.storage.qty maker) = 0) :
    fillStep fs maker =
      ⟨{ fs.taker with quantity := fs.taker.quantity - min fs.taker.quantity (fs.storage.qty maker) },
       fs.level.adjustTotal (min fs.taker.quantity (fs.storage.qty maker)),
       fs.storage.setQuantity maker (fs.storage.qty maker - min fs.taker.quantity (fs.storage.qty maker)),
       fs.index,
       fs.trades ++ [⟨fs.storage.idOf maker, fs.taker.id, (fs.storage.orders maker).price,
         min fs.taker.quantity (fs.storage.qty maker)⟩]⟩ := by
  simp only [fillStep, Storage.qty, Storage.setQuantity_orders_self] at hz ⊢
  simp only [hz, if_false, Storage.idOf]

/-- **`fillLevel` walks its queue.** The taker is left with what the walk has
    left, the level loses the makers brought to zero and the fills from its
    total, and the index loses their ids. -/
theorem fillLevel_eq_walk (fs : FillState) (hd : fs.level.orders.Nodup) :
    fillLevel fs = fs.afterWalk := by
  induction fs using fillLevel.induct with
  | case1 fs ht hf =>
    have ho : fs.level.orders = [] := by simpa [PriceLevel.getFront] using hf
    rw [fillLevel, dif_pos ht]
    split
    · exact (FillState.afterWalk_of_walk_eq (by rw [ho]; rfl)).symm
    · simp_all
  | case3 fs ht =>
    rw [fillLevel, dif_neg ht]
    exact (FillState.afterWalk_of_walk_eq (walk_of_not_pos _ ht _ _)).symm
  | case2 fs ht maker hf ih =>
    obtain ⟨os, ho⟩ : ∃ os, fs.level.orders = maker :: os := by
      simp only [PriceLevel.getFront, List.head?_eq_some_iff] at hf
      exact hf
    rw [ho, List.nodup_cons] at hd
    rw [fillLevel, dif_pos ht]
    split
    · simp_all
    rename_i maker' hf'
    obtain rfl : maker = maker' := Option.some.inj (hf.symm.trans hf')
    by_cases hz : fs.storage.qty maker - min fs.taker.quantity (fs.storage.qty maker) = 0
    · -- the maker is used up and popped
      rw [ih (by rw [fillStep_of_used_up ho hz]; exact hd.2), fillStep_of_used_up ho hz]
      obtain ⟨t, L, st, idx, ts⟩ := fs
      simp only at ho ht hz ⊢
      simp only [FillState.afterWalk, ho, walk_cons_of_pos _ ht]
      generalize hf0 : min t.quantity (st.qty maker) = f at hz ⊢
      have hq : st.qty maker = f := sub_eq_zero.mp hz
      rw [hz]
      generalize hw : walk t.id (st.setQuantity maker 0) (t.quantity - f) os = w
      have hwm : w.storage.qty maker = 0 := by
        rw [← hw, Storage.qty, walk_orders_of_not_mem _ hd.1]; simp [Storage.qty]
      have hz' : (st.setQuantity maker 0).qty maker = 0 := by simp [Storage.qty]
      have hL : L.afterWalk st w.storage (maker :: w.gone) =
          PriceLevel.afterWalk (st.setQuantity maker 0) w.storage w.gone
            ⟨os, L.totalQty - f - 0⟩ := hq ▸ PriceLevel.afterWalk_pop ho hd.1 hwm
      simp only [hz', if_true, hL, eraseIds_cons, eraseIds_setQuantity, List.append_assoc,
        List.singleton_append]
    · -- the taker is used up and the maker stays at the front
      have hnd : fs.level.orders.Nodup := ho ▸ List.nodup_cons.mpr hd
      rw [ih (by rw [fillStep_of_not_used_up hz]; exact hnd), fillStep_of_not_used_up hz]
      obtain ⟨t, L, st, idx, ts⟩ := fs
      simp only at ho ht hz hnd ⊢
      have hnot : ¬ 0 < t.quantity - min t.quantity (st.qty maker) := by
        simp [min_sub_eq_zero hz, Quantity.lt_iff, Quantity.zero_toNat]
      have hz' : ¬ (st.setQuantity maker (st.qty maker - min t.quantity (st.qty maker))).qty maker
          = 0 := by simpa [Storage.qty] using hz
      rw [FillState.afterWalk_of_walk_eq (walk_of_not_pos _ hnot _ _)]
      simp only [FillState.afterWalk]
      rw [ho]
      simp only [walk_cons_of_pos _ ht, walk_of_not_pos _ hnot, hz', if_false,
        PriceLevel.afterWalk_partial hnd (ho ▸ List.mem_cons_self _ _), eraseIds_nil,
        List.append_nil, List.singleton_append]

end LimitOrderBook
