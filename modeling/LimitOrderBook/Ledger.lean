/-
  LimitOrderBook.Ledger

  Where each order's quantity goes. An order's `originalQty` is spent on the
  trades it makes, as maker or taker, on what `cancelOrder` and `modifyOrder`
  withdraw from it, and on what still rests. The account is kept per id, as
  trades and calls name orders by id, over a whole run of calls.

  `tradedQty`, `Call.withdrawn` and `MatchingEngine.charged` are the account as
  the specification words it. `Balanced e L` says every allocated order's
  `originalQty` is what `L` has charged to its id plus what it still holds;
  every call keeps it with `L` grown by the call's charges, as long as ids do
  not come round (`MatchingEngine.Fresh`), which holds of every run whose
  orders fit in the vector.
-/
import LimitOrderBook.Fresh

namespace LimitOrderBook

/-! ## The account, as specified -/

/-- The quantity the trades `ts` charge to id `i`: the sum of the quantities of
    the trades in which `i` is the maker or the taker. -/
def tradedQty (i : OrderId) : List Trade → Nat
  | [] => 0
  | t :: ts =>
    (if t.makerOrderId = i ∨ t.takerOrderId = i then t.quantity.toNat else 0) + tradedQty i ts

/-- The quantity a reply's trades charge to id `i`. -/
def Reply.traded (i : OrderId) : Reply → Nat
  | .trades ts => tradedQty i ts
  | _ => 0

namespace MatchingEngine

/-- The orders resting on both sides. -/
def resting (e : MatchingEngine) : List Ptr :=
  restingOrders (e.book.levels .buy) ++ restingOrders (e.book.levels .sell)

/-- The order resting under id `i`, if there is one. -/
def restingOrder (e : MatchingEngine) (i : OrderId) : Option Ptr :=
  e.resting.find? fun o => e.storage.idOf o == i

/-- The remaining quantity of id `i` if it rests, else 0. -/
def restingQty (e : MatchingEngine) (i : OrderId) : Nat :=
  match e.restingOrder i with
  | some o => (e.storage.qty o).toNat
  | none => 0

end MatchingEngine

/-- What a call withdraws from id `i` without trading it: `cancelOrder(i)`
    its remaining quantity; a same-price reduce `modifyOrder(i, price, q)` the
    old remaining quantity minus `q`; a reprice `modifyOrder(i, p', q)` its
    remaining quantity, which is cancelled. -/
def Call.withdrawn (e : MatchingEngine) (i : OrderId) : Call → Nat
  | .submitOrder .. => 0
  | .cancelOrder id => if id = i then e.restingQty i else 0
  | .modifyOrder id newPrice newQty =>
    if id = i then
      match e.restingOrder i with
      | some o =>
        if newPrice = (e.storage.orders o).price then
          if newQty < e.storage.qty o then (e.storage.qty o).toNat - newQty.toNat else 0
        else (e.storage.qty o).toNat
      | none => 0
    else 0

namespace MatchingEngine

/-- Run calls one after another. -/
def run (e : MatchingEngine) : List Call → MatchingEngine
  | [] => e
  | c :: cs => (e.exec c).2.run cs

/-- The submissions a run makes. -/
def runSubmissions (e : MatchingEngine) : List Call → Nat
  | [] => 0
  | c :: cs => c.submissions e + (e.exec c).2.runSubmissions cs

/-- What a run charges to id `i`: the quantities of the trades its calls
    return in which `i` is the maker or the taker, and what its calls withdraw
    from `i`. -/
def charged (e : MatchingEngine) (i : OrderId) : List Call → Nat
  | [] => 0
  | c :: cs => (e.exec c).1.traded i + c.withdrawn e i + (e.exec c).2.charged i cs

/-! ## What an order still holds -/

/-- What the order at `k` still holds: its remaining quantity if it rests,
    else 0. -/
def held (e : MatchingEngine) (k : Ptr) : Nat :=
  if k ∈ e.resting then (e.storage.qty k).toNat else 0

theorem mem_resting_iff {e : MatchingEngine} {r : Ptr} :
    r ∈ e.resting ↔ ∃ s, r ∈ restingOrders (e.book.levels s) := by
  simp only [resting, List.mem_append]
  constructor
  · rintro (h | h) <;> exact ⟨_, h⟩
  · rintro ⟨_ | _, h⟩ <;> simp [h]

variable {n : Nat} {e : MatchingEngine}

theorem Fresh.lt_of_mem_resting (hf : e.Fresh n) {r : Ptr} (hr : r ∈ e.resting) : r < n := by
  obtain ⟨s, hr⟩ := mem_resting_iff.mp hr
  exact hf.lt_of_resting hr

/-- No allocated order carries the id the next submission takes. -/
theorem Fresh.idOf_ne_next (hf : e.Fresh n) {k : Nat} (hk : k < n) :
    e.storage.idOf k ≠ e.nextOrderId := fun h => by
  have h' := congrArg UInt64.toNat h
  rw [Storage.idOf, hf.ids k hk, hf.next] at h'
  omega

/-- In a run without a repeated id, the order resting under an id is the one
    the index names. -/
theorem Fresh.restingOrder_eq_index (hf : e.Fresh n) (i : OrderId) :
    e.restingOrder i = e.book.index i := by
  cases hi : e.book.index i with
  | none =>
    refine List.find?_eq_none.mpr fun r hr h => ?_
    obtain ⟨s, hr⟩ := mem_resting_iff.mp hr
    have := hf.indexed s r hr
    rw [beq_iff_eq.mp h, hi] at this
    cases this
  | some o =>
    obtain ⟨hro, rfl⟩ := hf.wf.index i o hi
    refine find?_eq_of_unique (mem_resting_iff.mpr ⟨_, hro⟩) (by simp) fun r hr h => ?_
    exact hf.idOf_inj (hf.lt_of_mem_resting hr) (hf.lt_of_resting hro) (beq_iff_eq.mp h)

/-- In a run without a repeated id, what an allocated order's id still holds is
    what the order holds. -/
theorem Fresh.restingQty_idOf (hf : e.Fresh n) {k : Nat} (hk : k < n) :
    e.restingQty (e.storage.idOf k) = e.held k := by
  unfold restingQty held
  rw [hf.restingOrder_eq_index]
  by_cases hr : k ∈ e.resting
  · obtain ⟨s, hr'⟩ := mem_resting_iff.mp hr
    rw [hf.indexed s k hr', if_pos hr]
  · cases hi : e.book.index (e.storage.idOf k) with
    | none => rw [if_neg hr]
    | some o =>
      obtain ⟨hro, hid⟩ := hf.wf.index _ o hi
      obtain rfl := hf.idOf_inj (hf.lt_of_resting hro) hk hid
      exact absurd (mem_resting_iff.mpr ⟨_, hro⟩) hr

end MatchingEngine

/-! ## The walk's fills -/

section Walk

variable (t : OrderId)

/-- The taker is charged every fill of the walk: with what is left, that is
    its quantity. -/
theorem walk_tradedQty_taker : ∀ (st : Storage) (r : Quantity) (xs : List Ptr),
    tradedQty t (walk t st r xs).trades + (walk t st r xs).remaining.toNat = r.toNat
  | _, _, [] => by simp [walk, tradedQty]
  | st, r, m :: ms => by
    by_cases hr : 0 < r
    · have ih := walk_tradedQty_taker (st.setQuantity m (st.qty m - min r (st.qty m)))
        (r - min r (st.qty m)) ms
      have hf := Quantity.min_le_left r (st.qty m)
      rw [walk_cons_of_pos t hr]
      simp only [tradedQty, or_true, if_true, Quantity.sub_toNat hf] at ih ⊢
      rw [Quantity.le_iff] at hf
      omega
    · simp [walk_of_not_pos t hr, tradedQty]

/-- A maker is charged exactly what the walk took off it. -/
theorem walk_tradedQty_maker {k : Ptr} : ∀ (st : Storage) (r : Quantity) (xs : List Ptr),
    (∀ m ∈ xs, st.idOf m = st.idOf k → m = k) → t ≠ st.idOf k →
    tradedQty (st.idOf k) (walk t st r xs).trades + ((walk t st r xs).storage.qty k).toNat =
      (st.qty k).toNat
  | _, _, [], _, _ => by simp [walk, tradedQty]
  | st, r, m :: ms, hu, ht => by
    by_cases hr : 0 < r
    · rw [walk_cons_of_pos t hr]
      simp only [tradedQty]
      set f := min r (st.qty m)
      set st' := st.setQuantity m (st.qty m - f)
      have hid : st'.idOf k = st.idOf k := congrFun (Storage.idOf_setQuantity _ _ _) k
      have ih := walk_tradedQty_maker st' (r - f) ms
        (fun m' hm' h => hu m' (List.mem_cons_of_mem _ hm') (by simpa [st'] using h))
        (hid ▸ ht)
      rw [hid] at ih
      by_cases hmk : m = k
      · subst hmk
        have hf : f ≤ st.qty m := Quantity.min_le_right r _
        have hq : (st'.qty m).toNat = (st.qty m).toNat - f.toNat := by
          simp only [st', Storage.qty_setQuantity_self, Quantity.sub_toNat hf]
        rw [if_pos (.inl rfl)]
        rw [Quantity.le_iff] at hf
        omega
      · have hne : ¬ (st.idOf m = st.idOf k ∨ t = st.idOf k) := by
          rintro (h | h)
          exacts [hmk (hu m (List.mem_cons_self _ _) h), ht h]
        have hq : st'.qty k = st.qty k := by
          simp only [st', Storage.qty, Storage.setQuantity_orders_ne (Ne.symm hmk)]
        rw [if_neg hne, ← hq]
        omega
    · simp [walk_of_not_pos t hr, tradedQty]

/-- An id that is neither the taker's nor a maker's is charged nothing. -/
theorem walk_tradedQty_of_not_mem {i : OrderId} (ht : t ≠ i) :
    ∀ (st : Storage) (r : Quantity) (xs : List Ptr), (∀ m ∈ xs, st.idOf m ≠ i) →
      tradedQty i (walk t st r xs).trades = 0
  | _, _, [], _ => rfl
  | st, r, m :: ms, hi => by
    by_cases hr : 0 < r
    · rw [walk_cons_of_pos t hr]
      simp only [tradedQty]
      rw [if_neg (by rintro (h | h); exacts [hi m (List.mem_cons_self _ _) h, ht h]), zero_add]
      exact walk_tradedQty_of_not_mem ht _ _ ms fun m' hm' => by
        simpa using hi m' (List.mem_cons_of_mem _ hm')
    · simp [walk_of_not_pos t hr, tradedQty]

end Walk

/-! ## What each call leaves resting -/

namespace MatchingEngine

variable {n : Nat} {e : MatchingEngine}

/-- A cancel of an indexed id unlinks the order the index names, and only it. -/
theorem Fresh.mem_resting_cancelOrder (hf : e.Fresh n) {id : OrderId} {o : Ptr}
    (hi : e.book.index id = some o) {r : Ptr} :
    r ∈ (e.cancelOrder id).2.resting ↔ r ∈ e.resting ∧ r ≠ o := by
  simp only [mem_resting_iff, hf.mem_restingOrders_cancelOrder hi, exists_and_right]

/-- What each order holds after a cancel of an indexed id. -/
theorem Fresh.held_cancelOrder (hf : e.Fresh n) {id : OrderId} {o : Ptr}
    (hi : e.book.index id = some o) (k : Ptr) :
    (e.cancelOrder id).2.held k = if k = o then 0 else e.held k := by
  simp only [held, hf.mem_resting_cancelOrder hi]
  by_cases hk : k = o <;> simp [hk, MatchingEngine.cancelOrder]

/-- A same-price reduce changes no queue. -/
theorem mem_resting_adjustTotal {sd : Side} {k : Int} {δ : Quantity} (st : Storage) {r : Ptr} :
    r ∈ ({ e with book := e.book.setLevels sd ((e.book.levels sd).modify k (·.adjustTotal δ)),
                  storage := st } : MatchingEngine).resting ↔ r ∈ e.resting := by
  have hf : ∀ L : PriceLevel, (L.adjustTotal δ).orders = L.orders := fun _ => rfl
  simp only [mem_resting_iff, OrderBook.restingOrders_setLevels_modify hf]

section Submit

variable (h : e.WF) (side : Side) (p : Int) (q : Quantity)
include h

theorem WF.mem_resting_referenceSubmit {r : Ptr} (hr : r ≠ e.storage.size) :
    r ∈ (referenceSubmit e side p q).2.resting ↔ r ∈ e.resting ∧ r ∉ (referenceWalk e side p q).gone := by
  have hbook : ∀ s, r ∈ restingOrders ((referenceSubmit e side p q).2.book.levels s) ↔
      r ∈ restingOrders ((afterReferenceWalk e side p q).book.levels s) := fun s => by
    simp only [referenceSubmit, OrderBook.rest_eq_addOrder]
    split_ifs
    · rw [OrderBook.mem_restingOrders_addOrder]
      exact ⟨fun h' => h'.resolve_left fun h'' => hr h''.1, .inr⟩
    · rfl
  simp only [mem_resting_iff, hbook, h.mem_restingOrders_afterReferenceWalk]
  exact ⟨fun ⟨s, hs, hg⟩ => ⟨⟨s, hs⟩, hg⟩, fun ⟨⟨s, hs⟩, hg⟩ => ⟨s, hs, hg⟩⟩

/-- The taker rests iff the walk left it some quantity. -/
theorem WF.size_mem_resting_referenceSubmit :
    e.storage.size ∈ (referenceSubmit e side p q).2.resting ↔
      0 < (referenceWalk e side p q).remaining := by
  simp only [referenceSubmit, OrderBook.rest_eq_addOrder]
  split_ifs with hr
  · refine iff_of_true ?_ hr
    exact mem_resting_iff.mpr ⟨_, OrderBook.mem_restingOrders_addOrder.mpr (.inl ⟨rfl, rfl⟩)⟩
  · refine iff_of_false (fun hm => ?_) hr
    obtain ⟨s, hm⟩ := mem_resting_iff.mp hm
    exact Nat.lt_irrefl _ (h.alloc s _ ((afterReferenceWalk_levels_sub e side p q s).resting.subset hm))

end Submit

/-! ## The account is balanced -/

/-- Every allocated order's `originalQty` is what `L` charged to its id plus
    what it still holds, and `L` charged nothing to an id not handed out. -/
structure Balanced (e : MatchingEngine) (L : OrderId → Nat) : Prop where
  allocated : ∀ k < e.storage.size,
    (e.storage.orders k).originalQty.toNat = L (e.storage.idOf k) + e.held k
  unassigned : ∀ i, (∀ k < e.storage.size, e.storage.idOf k ≠ i) → L i = 0

theorem Balanced.init : MatchingEngine.init.Balanced fun _ => 0 where
  allocated _ h := absurd h (Nat.not_lt_zero _)
  unassigned _ _ := rfl

theorem Balanced.congr {L L' : OrderId → Nat} (hb : e.Balanced L) (hL : ∀ i, L i = L' i) :
    e.Balanced L' :=
  funext hL ▸ hb

/-! ### What each call charges -/

section Step

variable {L : OrderId → Nat}

/-- A cancel charges the order it unlinks its remaining quantity. -/
theorem Balanced.cancelOrder (hb : e.Balanced L) (hf : e.Fresh n) (id : OrderId) :
    (e.cancelOrder id).2.Balanced fun i => L i + (Call.cancelOrder id).withdrawn e i := by
  cases hi : e.book.index id with
  | none =>
    have he : (e.cancelOrder id).2 = e := by
      simp [MatchingEngine.cancelOrder, OrderBook.cancelOrder_of_index_none hi]
    rw [he]
    refine hb.congr fun i => ?_
    simp only [Call.withdrawn]
    split_ifs with h
    · subst h; simp [restingQty, hf.restingOrder_eq_index, hi]
    · rfl
  | some o =>
    obtain ⟨hro, hid⟩ := hf.wf.index id o hi
    have hlt : o < n := hf.lt_of_resting hro
    have hw : ∀ i, (Call.cancelOrder id).withdrawn e i = if id = i then e.held o else 0 := by
      intro i
      simp only [Call.withdrawn]
      split_ifs with h
      · rw [← h, ← hid, hf.restingQty_idOf hlt]
      · rfl
    constructor
    · intro k hk
      have hk' : k < n := hf.size ▸ hk
      rw [show (e.cancelOrder id).2.storage = e.storage from rfl, hf.held_cancelOrder hi, hw,
        hb.allocated k hk]
      by_cases hko : k = o
      · subst hko; simp [hid]
      · have hne : id ≠ e.storage.idOf k := fun h =>
          hko (hf.idOf_inj hk' hlt (h.symm.trans hid.symm))
        simp [hko, hne]
    · intro i hi'
      have hne : id ≠ i := fun h => hi' o (hf.size ▸ hlt) (hid.trans h)
      simp [hb.unassigned i hi', hw, hne]

/-- A same-price reduce charges the order what it takes off. -/
theorem Balanced.modifyQuantity (hb : e.Balanced L) (hf : e.Fresh n) {id : OrderId} {o : Ptr}
    (hi : e.book.index id = some o) {q : Quantity} (hq : q < (e.storage.orders o).quantity) :
    ({ e with book := (e.book.modifyQuantity e.storage id q).2.1,
              storage := (e.book.modifyQuantity e.storage id q).2.2 } : MatchingEngine).Balanced
      fun i => L i + if id = i then (e.storage.qty o).toNat - q.toNat else 0 := by
  obtain ⟨hro, hid⟩ := hf.wf.index id o hi
  obtain ⟨Lv, hL, -, -⟩ := hf.wf.mem_resting hro
  have hlt : o < n := hf.lt_of_resting hro
  have ho : o ∈ e.resting := mem_resting_iff.mpr ⟨_, hro⟩
  rw [OrderBook.modifyQuantity_of_index hi hq hL]
  constructor
  · intro k hk
    have hk' : k < n := hf.size ▸ hk
    simp only [held, mem_resting_adjustTotal, Storage.setQuantity_originalQty,
      congrFun (Storage.idOf_setQuantity _ _ _) k]
    rw [hb.allocated k hk]
    by_cases hko : k = o
    · subst hko
      have hq' : q.toNat < (e.storage.qty k).toNat := hq
      simp only [held, ho, if_true, hid, Storage.qty_setQuantity_self]
      omega
    · have hne : id ≠ e.storage.idOf k := fun h =>
        hko (hf.idOf_inj hk' hlt (h.symm.trans hid.symm))
      simp [held, hne, Storage.qty, Storage.setQuantity_orders_ne hko]
  · intro i hi'
    simp only [Storage.idOf_setQuantity, Storage.setQuantity_size] at hi'
    have hne : id ≠ i := fun h => hi' o (hf.size ▸ hlt) (hid.trans h)
    simp [hb.unassigned i hi', hne]

section Submit

variable (side : Side) (p : Int) (q : Quantity)

theorem referenceSubmit_orders_of_lt {k : Nat} (hk : k < e.storage.size) :
    ((referenceSubmit e side p q).2.storage.orders k).id = (e.storage.orders k).id ∧
    ((referenceSubmit e side p q).2.storage.orders k).originalQty =
      (e.storage.orders k).originalQty ∧
    (referenceSubmit e side p q).2.storage.qty k = (referenceWalk e side p q).storage.qty k := by
  obtain ⟨h₁, -, -, h₄⟩ := walk_orders_id (e.lastOrderId + 1)
    (e.storage.push ⟨e.nextOrderId, side, p, q, q⟩) q
    (crossingMakers (e.storage.push ⟨e.nextOrderId, side, p, q, q⟩) side p e.book) k
  simp only [referenceSubmit, afterReferenceWalk, referenceWalk, Storage.qty,
    Storage.setQuantity_orders_ne (Nat.ne_of_lt hk), h₁, h₄, Storage.push_orders_of_lt hk,
    and_self]

theorem referenceSubmit_orders_size :
    ((referenceSubmit e side p q).2.storage.orders e.storage.size).id = e.nextOrderId ∧
    ((referenceSubmit e side p q).2.storage.orders e.storage.size).originalQty = q ∧
    (referenceSubmit e side p q).2.storage.qty e.storage.size =
      (referenceWalk e side p q).remaining := by
  obtain ⟨h₁, -, -, h₄⟩ := walk_orders_id (e.lastOrderId + 1)
    (e.storage.push ⟨e.nextOrderId, side, p, q, q⟩) q
    (crossingMakers (e.storage.push ⟨e.nextOrderId, side, p, q, q⟩) side p e.book) e.storage.size
  simp only [referenceSubmit, afterReferenceWalk, referenceWalk, Storage.qty,
    Storage.setQuantity_orders_self, h₁, h₄, Storage.push_orders_size, and_self]

theorem referenceWalk_eq : referenceWalk e side p q =
    walk e.nextOrderId (e.storage.push ⟨e.nextOrderId, side, p, q, q⟩) q
      (crossingMakers (e.storage.push ⟨e.nextOrderId, side, p, q, q⟩) side p e.book) := by
  simp only [referenceWalk, lastOrderId_add_one]

theorem mem_resting_of_mem_crossingMakers {st : Storage} {m : Ptr}
    (hm : m ∈ crossingMakers st side p e.book) : m ∈ e.resting :=
  mem_resting_iff.mpr ⟨_, (List.takeWhile_sublist _).subset hm⟩

theorem WF.crossingMakers_nodup (h : e.WF) (st : Storage) : (crossingMakers st side p e.book).Nodup :=
  (h.sideOk _).nodup.sublist (List.takeWhile_sublist _)

/-- An order allocated before the submission: the walk charges its id what it
    takes off it, and the order holds the rest. -/
theorem Fresh.held_referenceSubmit_of_lt (hf : e.Fresh n) {k : Nat} (hk : k < n) :
    tradedQty (e.storage.idOf k) (referenceWalk e side p q).trades +
      (referenceSubmit e side p q).2.held k = e.held k := by
  have hks : k < e.storage.size := hf.size ▸ hk
  have hst : ∀ j < n, (e.storage.push ⟨e.nextOrderId, side, p, q, q⟩).orders j = e.storage.orders j :=
    fun j hj => Storage.push_orders_of_lt (hf.size ▸ hj) _
  have hu : ∀ m ∈ crossingMakers (e.storage.push ⟨e.nextOrderId, side, p, q, q⟩) side p e.book,
      (e.storage.push ⟨e.nextOrderId, side, p, q, q⟩).idOf m =
        (e.storage.push ⟨e.nextOrderId, side, p, q, q⟩).idOf k → m = k := fun m hm h => by
    have hm' := hf.lt_of_mem_resting (mem_resting_of_mem_crossingMakers side p hm)
    simp only [Storage.idOf, hst m hm', hst k hk] at h
    exact hf.idOf_inj hm' hk h
  have hidk : (e.storage.push ⟨e.nextOrderId, side, p, q, q⟩).idOf k = e.storage.idOf k := by
    simp only [Storage.idOf, hst k hk]
  have hqk : (e.storage.push ⟨e.nextOrderId, side, p, q, q⟩).qty k = e.storage.qty k := by
    simp only [Storage.qty, hst k hk]
  have htr := walk_tradedQty_maker e.nextOrderId _ q _ hu (hidk ▸ (hf.idOf_ne_next hk).symm)
  rw [hidk, hqk, ← referenceWalk_eq] at htr
  unfold held
  simp only [hf.wf.mem_resting_referenceSubmit side p q (Nat.ne_of_lt hks)]
  rw [(referenceSubmit_orders_of_lt side p q hks).2.2]
  by_cases hr : k ∈ e.resting
  · by_cases hg : k ∈ (referenceWalk e side p q).gone
    · -- a maker the walk dropped: it was filled in full
      have h0 : (referenceWalk e side p q).storage.qty k = 0 := by
        rw [referenceWalk_eq] at hg ⊢
        exact walk_gone_qty _ _ _ _ (hf.wf.crossingMakers_nodup side p _) k hg
      simp only [hr, hg, not_true_eq_false, and_false, if_false, if_true, h0,
        Quantity.zero_toNat] at htr ⊢
      omega
    · simp only [hr, hg, not_false_eq_true, and_self, if_true]
      omega
  · -- an order the walk did not reach
    have hx : k ∉ crossingMakers (e.storage.push ⟨e.nextOrderId, side, p, q, q⟩) side p e.book :=
      fun hx => hr (mem_resting_of_mem_crossingMakers side p hx)
    have hsame : (referenceWalk e side p q).storage.qty k = e.storage.qty k := by
      rw [referenceWalk_eq, Storage.qty, walk_orders_of_not_mem _ hx, ← Storage.qty, hqk]
    rw [hsame] at htr
    simp only [hr, false_and, if_false]
    omega

/-- The taker: the walk charges its id every fill, and it holds what is left. -/
theorem WF.held_referenceSubmit_size (h : e.WF) :
    tradedQty e.nextOrderId (referenceWalk e side p q).trades +
      (referenceSubmit e side p q).2.held e.storage.size = q.toNat := by
  have htr := walk_tradedQty_taker e.nextOrderId (e.storage.push ⟨e.nextOrderId, side, p, q, q⟩) q
    (crossingMakers (e.storage.push ⟨e.nextOrderId, side, p, q, q⟩) side p e.book)
  rw [← referenceWalk_eq] at htr
  unfold held
  by_cases hr : 0 < (referenceWalk e side p q).remaining
  · rw [if_pos ((h.size_mem_resting_referenceSubmit side p q).mpr hr),
      (referenceSubmit_orders_size side p q).2.2]
    exact htr
  · rw [if_neg (mt (h.size_mem_resting_referenceSubmit side p q).mp hr)]
    rw [Quantity.lt_iff, Quantity.zero_toNat] at hr
    omega

/-- An id that no allocated order carries, and that the taker does not take,
    is in no trade of the walk. -/
theorem Fresh.tradedQty_referenceWalk_of_unassigned (hf : e.Fresh n) {i : OrderId}
    (hi : ∀ k < n, e.storage.idOf k ≠ i) (hne : e.nextOrderId ≠ i) :
    tradedQty i (referenceWalk e side p q).trades = 0 := by
  rw [referenceWalk_eq]
  refine walk_tradedQty_of_not_mem _ hne _ _ _ fun m hm => ?_
  have hm' := hf.lt_of_mem_resting (mem_resting_of_mem_crossingMakers side p hm)
  rw [Storage.idOf, Storage.push_orders_of_lt (hf.size ▸ hm')]
  exact hi m hm'

/-- A submission charges every fill to its maker's id and to the taker's. -/
theorem Balanced.submitOrder (hb : e.Balanced L) (hf : e.Fresh n) :
    (e.submitOrder side p q).2.Balanced fun i => L i + tradedQty i (e.submitOrder side p q).1 := by
  rw [hf.wf.submitOrder_eq]
  simp only [show (referenceSubmit e side p q).1 = (referenceWalk e side p q).trades from rfl]
  have hsize : (referenceSubmit e side p q).2.storage.size = n + 1 := by
    simp [referenceSubmit, afterReferenceWalk, referenceWalk_eq, hf.size]
  constructor
  · intro k hk
    rw [hsize] at hk
    rcases Nat.lt_succ_iff_lt_or_eq.mp hk with hk | hk
    · -- an order allocated before
      have hks : k < e.storage.size := hf.size ▸ hk
      obtain ⟨hid, horig, -⟩ := referenceSubmit_orders_of_lt side p q hks
      have hheld := hf.held_referenceSubmit_of_lt side p q hk
      rw [horig, show (referenceSubmit e side p q).2.storage.idOf k = e.storage.idOf k from hid,
        hb.allocated k hks]
      omega
    · -- the taker
      obtain rfl : k = e.storage.size := hk.trans hf.size.symm
      obtain ⟨hid, horig, -⟩ := referenceSubmit_orders_size (e := e) side p q
      have hheld := hf.wf.held_referenceSubmit_size side p q
      rw [show (referenceSubmit e side p q).2.storage.idOf e.storage.size = e.nextOrderId from hid,
        horig, hb.unassigned _ fun k hk => hf.idOf_ne_next (hf.size ▸ hk)]
      omega
  · intro i hi
    have hne : e.nextOrderId ≠ i := fun h => hi e.storage.size (by rw [hsize, hf.size]; omega)
      (by rw [← h]; exact (referenceSubmit_orders_size side p q).1)
    have hold : ∀ k < e.storage.size, e.storage.idOf k ≠ i := fun k hk => by
      have := hi k (by rw [hsize, ← hf.size]; omega)
      rwa [Storage.idOf, (referenceSubmit_orders_of_lt side p q hk).1] at this
    rw [hb.unassigned i hold,
      hf.tradedQty_referenceWalk_of_unassigned side p q (fun k hk => hold k (hf.size ▸ hk)) hne]

end Submit

/-- Every call charges each id the quantities of the trades it returns in which
    the id is the maker or the taker, and what it withdraws from the id. -/
theorem Balanced.exec (hb : e.Balanced L) (hf : e.Fresh n) (c : Call) :
    (e.exec c).2.Balanced fun i => L i + (e.exec c).1.traded i + c.withdrawn e i := by
  cases c with
  | submitOrder side p q =>
    exact (hb.submitOrder side p q hf).congr fun i => by
      simp [MatchingEngine.exec, Reply.traded, Call.withdrawn]
  | cancelOrder id =>
    exact (hb.cancelOrder hf id).congr fun i => by simp [MatchingEngine.exec, Reply.traded]
  | modifyOrder id p q =>
    simp only [MatchingEngine.exec]
    split
    · rename_i r hr
      obtain ⟨o, hi, ⟨hp, hq, rfl⟩ | ⟨hp, rfl⟩⟩ := modifyOrder_eq_ok hr
      · have hq' : q < e.storage.qty o := hq
        refine (hb.modifyQuantity hf hi hq).congr fun i => ?_
        by_cases h : id = i
        · subst h
          simp [Reply.traded, tradedQty, Call.withdrawn, hf.restingOrder_eq_index, hi, hp, hq']
        · simp [Reply.traded, tradedQty, Call.withdrawn, h]
      · rw [show ({ e with book := (e.book.cancelOrder e.storage id).2 } : MatchingEngine) =
          (e.cancelOrder id).2 from rfl]
        refine ((hb.cancelOrder hf id).submitOrder _ p q (hf.cancelOrder id)).congr fun i => ?_
        by_cases h : id = i
        · subst h
          simp only [Reply.traded, Call.withdrawn, restingQty, hf.restingOrder_eq_index, hi, hp,
            if_true, if_false]
          omega
        · simp [Reply.traded, Call.withdrawn, h]
    · rename_i msg hr
      refine hb.congr fun i => ?_
      by_cases h : id = i
      · subst h
        rcases modifyOrder_eq_error hr with ⟨hi, -⟩ | ⟨o, hi, hp, hq, -⟩
        · simp [Reply.traded, Call.withdrawn, hf.restingOrder_eq_index, hi]
        · have hq' : ¬ q < e.storage.qty o := fun h => Quantity.not_le.mpr h hq
          simp [Reply.traded, Call.withdrawn, hf.restingOrder_eq_index, hi, hp, hq']
      · simp [Reply.traded, Call.withdrawn, h]

/-- A run keeps the account balanced, each call charging its trades and what
    it withdraws, while ids do not come round. -/
theorem Balanced.run (hb : e.Balanced L) (hf : e.Fresh n) (cs : List Call)
    (hn : n + e.runSubmissions cs < 2 ^ 64 - 1) :
    (e.run cs).Fresh (n + e.runSubmissions cs) ∧
      (e.run cs).Balanced fun i => L i + e.charged i cs := by
  induction cs generalizing n e L with
  | nil => exact ⟨hf, hb.congr fun i => rfl⟩
  | cons c cs ih =>
    simp only [runSubmissions] at hn ⊢
    have h₁ : n + c.submissions e < 2 ^ 64 - 1 := by omega
    obtain ⟨hf', hb'⟩ := ih (hb.exec hf c) (hf.exec c h₁) (by omega)
    refine ⟨by rwa [← Nat.add_assoc], hb'.congr fun i => ?_⟩
    simp only [charged]
    omega

end Step

end MatchingEngine

/-- A run from a reachable state reaches a state, making the run's
    submissions. -/
theorem Reachable.run {n : Nat} {e : MatchingEngine} (h : Reachable n e) (cs : List Call) :
    Reachable (n + e.runSubmissions cs) (e.run cs) := by
  induction cs generalizing n e with
  | nil => exact h
  | cons c cs ih =>
    rw [MatchingEngine.runSubmissions, ← Nat.add_assoc]
    exact ih (h.step c)

/-- **Every order's quantity is accounted for**, in every run from a fresh
    engine whose orders fit in the vector: each order's `originalQty` is what
    the run charged to its id (the trades naming it as maker or taker, and
    what cancels and modifies withdrew from it) plus its remaining quantity if
    it rests. -/
theorem order_ledger (cs : List Call)
    (hcap : (MatchingEngine.init.run cs).storage.size ≤ Storage.maxSize) :
    ∀ k < (MatchingEngine.init.run cs).storage.size,
      ((MatchingEngine.init.run cs).storage.orders k).originalQty.toNat =
        MatchingEngine.init.charged ((MatchingEngine.init.run cs).storage.idOf k) cs +
          (MatchingEngine.init.run cs).restingQty ((MatchingEngine.init.run cs).storage.idOf k) := by
  have hn : 0 + MatchingEngine.init.runSubmissions cs < 2 ^ 64 - 1 := by
    rw [(Reachable.init.run cs).size, Storage.maxSize] at hcap; omega
  obtain ⟨hf, hb⟩ := MatchingEngine.Balanced.init.run MatchingEngine.Fresh.init cs hn
  intro k hk
  have h := hb.allocated k hk
  rw [Nat.zero_add] at h
  rw [h, hf.restingQty_idOf (hf.size ▸ hk)]

theorem order_ledger_one_bid :
    (MatchingEngine.init.run [.submitOrder .buy 100 5]).storage.size ≤ Storage.maxSize ∧
    ∀ k < (MatchingEngine.init.run [.submitOrder .buy 100 5]).storage.size,
      ((MatchingEngine.init.run [.submitOrder .buy 100 5]).storage.orders k).originalQty.toNat =
        MatchingEngine.init.charged
            ((MatchingEngine.init.run [.submitOrder .buy 100 5]).storage.idOf k)
            [.submitOrder .buy 100 5] +
          (MatchingEngine.init.run [.submitOrder .buy 100 5]).restingQty
            ((MatchingEngine.init.run [.submitOrder .buy 100 5]).storage.idOf k) :=
  have hcap : (MatchingEngine.init.run [.submitOrder .buy 100 5]).storage.size ≤ Storage.maxSize := by
    rw [(Reachable.init.run _).size]; decide
  ⟨hcap, order_ledger _ hcap⟩

end LimitOrderBook
