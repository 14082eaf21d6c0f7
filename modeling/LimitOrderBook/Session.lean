/-
  LimitOrderBook.Session

  `main` over the queue book. `specStep` is the loop of `main` with the
  engine replaced by the queue book of `LimitOrderBook.QueueBook`: a buy or a
  sell submits to it and reports on its next id, a cancel and a modify go to
  it, `book` prints its table and `top` its best prices, with the spread and
  the mid price computed exactly. In every session of fewer than `2^64 - 1`
  buy, sell and modify commands whose prices lie in `[-2^62, 2^62)` cents,
  `main` prints exactly what this loop prints: no output of the program
  tells the engine from the two queues. Past that range the sum of two best
  prices can leave `int64_t`, and `midPrice()` prints the wrapped sum.

  A modify at a new price cancels the order and submits it afresh, under the
  next id. `main` reports "Order #id modified." for the id it was given, and
  prints no other id: the order now rests under an id the session never
  printed, and a cancel of the reported id finds nothing.
-/
import LimitOrderBook.Cli
import LimitOrderBook.Lifecycle

namespace LimitOrderBook

namespace Cli

/-- Whether a command may submit an order: a buy, a sell, or a modify, which
    submits afresh at a new price. -/
def Command.submits : Command → Bool
  | .order .. => true
  | .modify .. => true
  | _ => false

/-- The price a command hands to the engine: a buy's, a sell's or a
    modify's. -/
def Command.price? : Command → Option Int
  | .order _ _ p _ => some p
  | .modify _ p _ => some p
  | _ => none

/-- The loop of `main` over the queue book: what it prints for a command, and
    the book after it. -/
def specStep (b : QueueBook) : Command → Option (List Line × QueueBook)
  | .quit => none
  | .help => some ([.help], b)
  | .order side priceStr p qty =>
    let r := b.submit side p qty
    if r.1.isEmpty then some ([.text (restingText b.nextId side priceStr qty)], r.2)
    else
      some ([.trades r.1,
        .text (if (r.2.find b.nextId).isSome then partialText b.nextId else filledText b.nextId)],
        r.2)
  | .orderUsage side => some ([.text ("  Usage: " ++ sideWord side ++ " <price> <qty>")], b)
  | .cancel id =>
    let r := b.cancel id
    some ([.text ("  Order #" ++ toString id ++ if r.1 then " cancelled." else " not found.")], r.2)
  | .cancelUsage => some ([.text "Usage: cancel <id>"], b)
  | .modify id p qty =>
    match b.modify id p qty with
    | .ok r => some ([.text ("Order #" ++ toString id ++ " modified."), .trades r.1], r.2)
    | .error msg => some ([.text ("Error: " ++ msg)], b)
  | .modifyUsage => some ([.text "Usage: modify <id> <new_price> <qty>"], b)
  | .book levels => some ([.book (b.table levels)], b)
  | .top =>
    some ([.top (b.best .buy) (b.best .sell) (b.spread.bind fun s => b.midPrice.map fun m => (s, m))],
      b)
  | .unknown => some ([.text "Unknown command. Type \x27help\x27."], b)

/-- The loop over the queue book, until `quit` or the end of the input. -/
def specSession (b : QueueBook) : List Command → List Line
  | [] => []
  | c :: cs =>
    match specStep b c with
    | none => []
    | some (out, b') => out ++ specSession b' cs

/-- `main` over the queue book: the help text, then the loop from the empty
    book. -/
def specMain (cs : List Command) : List Line := .help :: specSession QueueBook.init cs

end Cli

/-- A pass of the loop over the queue book rests no price but the ones there
    and the command's own. -/
theorem QueueBook.PricesIn.specStep {P : Int → Prop} {b : QueueBook} (hb : b.PricesIn P)
    {c : Cli.Command} (hc : ∀ p ∈ c.price?, P p) {out : List Cli.Line} {b' : QueueBook}
    (hs : Cli.specStep b c = some (out, b')) : b'.PricesIn P := by
  cases c with
  | order side ps p q =>
    have hb' : b' = (b.submit side p q).2 := by
      simp only [Cli.specStep] at hs
      split_ifs at hs <;> exact (Prod.mk.inj (Option.some.inj hs)).2.symm
    exact hb' ▸ hb.submit (hc p rfl) side q
  | cancel i => cases hs; exact hb.cancel i
  | modify i p q =>
    simp only [Cli.specStep] at hs
    cases hm : b.modify i p q with
    | ok r => rw [hm] at hs; cases hs; exact hb.modify (hc p rfl) hm
    | error msg => rw [hm] at hs; cases hs; exact hb
  | quit => cases hs
  | _ => cases hs; exact hb

namespace MatchingEngine

variable {n : Nat} {e : MatchingEngine}

/-- A modify is the queue book's modify: both succeed with the same trades, or
    both fail with the same text. -/
theorem Fresh.modifyOrder_view (hf : e.Fresh n) (i : OrderId) (p : Int) (q : Quantity) :
    (e.modifyOrder i p q).map (fun r => (r.1, r.2.view)) = e.view.modify i p q := by
  obtain ⟨h₁, h₂⟩ := hf.view_exec_modifyOrder i p q
  simp only [MatchingEngine.exec, QueueBook.exec] at h₁ h₂
  cases hm : e.modifyOrder i p q <;> cases ha : e.view.modify i p q <;>
    simp only [hm, ha, Reply.trades.injEq, Reply.error.injEq, reduceCtorEq] at h₁ h₂ <;>
    simp only [Except.map, h₁, h₂, Prod.mk.eta]

/-- One pass of the loop is the queue book's: the same lines, and the queue
    book after it. -/
theorem Fresh.step_view (hf : e.Fresh n) (c : Cli.Command)
    (hn : n + (if c.submits then 1 else 0) < 2 ^ 64 - 1) (hq : e.view.QuotesFit) :
    (Cli.step e c).map (fun r => (r.1, r.2.view)) = Cli.specStep e.view c := by
  cases c with
  | order side ps p q =>
    obtain ⟨h₁, h₂⟩ := hf.wf.view_submitOrder side p q
    have hhas := (hf.submitOrder (by simp [Cli.Command.submits] at hn; omega) side p q).hasOrder_view
      e.nextOrderId
    simp only [Cli.step, Cli.specStep, lastOrderId_submitOrder, hhas, h₁, h₂, view_nextId]
    split_ifs <;> simp only [Option.map_some', h₂]
  | cancel i =>
    obtain ⟨h₁, h₂⟩ := hf.view_cancelOrder i
    simp only [Cli.step, Cli.specStep, h₁, h₂, Option.map_some']
  | modify i p q =>
    have hm := hf.modifyOrder_view i p q
    simp only [Cli.step, Cli.specStep, ← hm]
    cases e.modifyOrder i p q <;> rfl
  | book levels => simp only [Cli.step, Cli.specStep, hf.wf.printBook_view hq, Option.map_some']
  | top =>
    simp only [Cli.step, Cli.specStep, hf.wf.bestBid_view, hf.wf.bestAsk_view, hf.wf.spread_view hq,
      hf.wf.midPrice_view hq, Option.map_some']
  | _ => rfl

/-- One pass of the loop keeps ids from coming round, and submits at most once
    for a buy, a sell or a modify and never for another command. -/
theorem Fresh.step (hf : e.Fresh n) {c : Cli.Command} (hn : n + (if c.submits then 1 else 0) < 2 ^ 64 - 1)
    {out : List Cli.Line} {e' : MatchingEngine} (hs : Cli.step e c = some (out, e')) :
    ∃ m ≤ n + (if c.submits then 1 else 0), e'.Fresh m := by
  cases c with
  | quit => cases hs
  | order side ps p q =>
    have he' : e' = (e.submitOrder side p q).2 := by
      simp only [Cli.step] at hs
      split_ifs at hs <;> exact (Prod.mk.inj (Option.some.inj hs)).2.symm
    simp only [Cli.Command.submits, if_true] at hn ⊢
    exact ⟨n + 1, le_refl _, he' ▸ hf.submitOrder (by omega) side p q⟩
  | cancel i =>
    cases hs
    exact ⟨n, Nat.le_add_right _ _, hf.cancelOrder i⟩
  | modify i p q =>
    simp only [Cli.Command.submits, if_true] at hn ⊢
    have hc := Call.submissions_le_one e (.modifyOrder i p q)
    have hx := hf.exec (.modifyOrder i p q) (by omega)
    simp only [Cli.step] at hs
    cases hm : e.modifyOrder i p q with
    | ok r =>
      rw [hm] at hs
      cases hs
      simp only [MatchingEngine.exec, hm] at hx
      exact ⟨_, by omega, hx⟩
    | error msg =>
      rw [hm] at hs
      cases hs
      exact ⟨n, Nat.le_add_right _ _, hf⟩
  | _ => cases hs; exact ⟨n, Nat.le_add_right _ _, hf⟩

/-- A session is the queue book's while ids do not come round and its prices
    fit in 63 bits. -/
theorem Fresh.session_view (hf : e.Fresh n) (hb : e.view.PricesIn fitsInt63) (cs : List Cli.Command)
    (hn : n + cs.countP Cli.Command.submits < 2 ^ 64 - 1)
    (hp : ∀ c ∈ cs, ∀ p ∈ c.price?, fitsInt63 p) :
    Cli.session e cs = Cli.specSession e.view cs := by
  induction cs generalizing n e with
  | nil => rfl
  | cons c cs ih =>
    rw [List.countP_cons] at hn
    have hv := hf.step_view c (by omega) hb.quotesFit
    rcases hs : Cli.step e c with _ | ⟨out, e'⟩
    · rw [hs, Option.map_none'] at hv
      simp only [Cli.session, Cli.specSession, hs, ← hv]
    · rw [hs, Option.map_some'] at hv
      obtain ⟨m, hm, hf'⟩ := hf.step (by omega) hs
      have hb' := hb.specStep (hp c (List.mem_cons_self _ _)) hv.symm
      simp only [Cli.session, Cli.specSession, hs, ← hv,
        ih hf' hb' (by omega) fun c hc => hp c (List.mem_cons_of_mem _ hc)]

end MatchingEngine

namespace Cli

/-- **`main` cannot tell the engine from the queue book**: for every session of
    fewer than `2^64 - 1` buy, sell and modify commands whose prices lie in
    `[-2^62, 2^62)` cents, `main` prints exactly what the same loop over the
    queue book prints. -/
theorem main_refines_queueBook (cs : List Command) (hn : cs.countP Command.submits < 2 ^ 64 - 1)
    (hp : ∀ c ∈ cs, ∀ p ∈ c.price?, fitsInt63 p) : main cs = specMain cs := by
  have hb : MatchingEngine.init.view.PricesIn fitsInt63 := by
    intro s x hx
    rw [MatchingEngine.init_view] at hx
    cases s <;> cases hx
  rw [main, specMain, MatchingEngine.Fresh.init.session_view hb cs (by omega) hp,
    MatchingEngine.init_view]

/-- A session that rests a bid, crosses it with a sell, prints the top of the
    book and quits. -/
def crossSession : List Command :=
  [.order .buy "1.00" 100 5, .order .sell "0.99" 99 2, .top, .quit, .order .sell "0.98" 98 1]

theorem main_refines_queueBook_crossSession :
    crossSession.countP Command.submits < 2 ^ 64 - 1 ∧
      (∀ c ∈ crossSession, ∀ p ∈ c.price?, fitsInt63 p) ∧ main crossSession = specMain crossSession :=
  have hn : crossSession.countP Command.submits < 2 ^ 64 - 1 := by decide
  have hp : ∀ c ∈ crossSession, ∀ p ∈ c.price?, fitsInt63 p := by decide
  ⟨hn, hp, main_refines_queueBook crossSession hn hp⟩

/-! ## A modify at a new price -/

/-- **A modify at a new price renames the order, and `main` prints the old
    name**, in every run of fewer than `2^64 - 2` submissions: for an order
    resting under id `i` and a new price, `main` prints "Order #i modified."
    and the trades, and nothing else; the order no longer rests under `i`, so
    a cancel of `i` prints "not found"; `lastOrderId()` is the new id, which
    is not `i`, and when the modify made no trade and has quantity the order
    rests under it. -/
theorem modify_renames_order {n : Nat} {e : MatchingEngine} (h : Reachable n e)
    (hn : n + 1 < 2 ^ 64 - 1) {s : Side} {o : Ptr} (ho : o ∈ restingOrders (e.book.levels s))
    {p : Int} (hp : p ≠ (e.storage.orders o).price) (q : Quantity) :
    ∃ ts e', step e (.modify (e.storage.idOf o) p q) =
        some ([.text ("Order #" ++ toString (e.storage.idOf o) ++ " modified."), .trades ts], e') ∧
      step e' (.cancel (e.storage.idOf o)) =
        some ([.text ("  Order #" ++ toString (e.storage.idOf o) ++ " not found.")], e') ∧
      e'.lastOrderId = e.nextOrderId ∧ e.nextOrderId ≠ e.storage.idOf o ∧
      (ts = [] → 0 < q → e'.book.hasOrder e'.lastOrderId = true) := by
  have hf := h.fresh (by omega)
  have hi := hf.indexed s o ho
  obtain ⟨-, -, -, hside⟩ := hf.wf.mem_resting ho
  have hlt := hf.lt_of_resting ho
  -- the engine cancels and submits afresh, as the queue book does
  set r := (e.cancelOrder (e.storage.idOf o)).2.submitOrder s p q with hr
  have hmod : e.modifyOrder (e.storage.idOf o) p q = .ok r := by
    simp [MatchingEngine.modifyOrder, OrderBook.getOrder, hi, hp, hside, hr,
      MatchingEngine.cancelOrder]
  have hf' : r.2.Fresh (n + 1) := (hf.cancelOrder _).submitOrder (by omega) s p q
  have hfind : e.view.find (e.storage.idOf o) = some (s, e.storage.restingAt o) := by
    rw [hf.view_find, hi, Option.map_some', hside]
  have hview : (r.1, r.2.view) = ((e.view.cancel (e.storage.idOf o)).2.submit s p q) := by
    have := hf.modifyOrder_view (e.storage.idOf o) p q
    simp only [hmod, QueueBook.modify, hfind, Storage.restingAt_price, if_neg hp] at this
    exact Except.ok.inj this
  have hv₁ : r.1 = ((e.view.cancel (e.storage.idOf o)).2.submit s p q).1 := congrArg Prod.fst hview
  have hv₂ : r.2.view = ((e.view.cancel (e.storage.idOf o)).2.submit s p q).2 :=
    congrArg Prod.snd hview
  have hnext : e.nextOrderId ≠ e.storage.idOf o := (hf.idOf_ne_next hlt).symm
  have hlast : r.2.lastOrderId = e.nextOrderId := MatchingEngine.lastOrderId_submitOrder _ _ _ _
  -- no order of the book after the modify carries the old id
  have hgone : r.2.book.hasOrder (e.storage.idOf o) = false := by
    rw [hf'.hasOrder_view, hv₂, QueueBook.find_submit_of_find_none (hf.idsUnique_view.find_cancel _)
        (by rw [QueueBook.cancel_nextId, MatchingEngine.view_nextId]; exact hnext.symm)]
    rfl
  refine ⟨r.1, r.2, by simp [step, hmod], ?_, hlast, hnext, fun ht hq => ?_⟩
  · have hidx : r.2.book.index (e.storage.idOf o) = none := by
      simpa [OrderBook.hasOrder] using hgone
    simp [step, MatchingEngine.cancelOrder, OrderBook.cancelOrder_of_index_none hidx]
  · rw [hf'.hasOrder_view, hlast, hv₂]
    have := QueueBook.find_submit_self (hv₁ ▸ ht) hq
    rwa [QueueBook.cancel_nextId, MatchingEngine.view_nextId] at this

/-- The bid of 5 at 100, repriced to 101. -/
theorem modify_renames_order_oneBid :
    Reachable 1 oneBid ∧ 1 + 1 < 2 ^ 64 - 1 ∧ 0 ∈ restingOrders (oneBid.book.levels .buy) ∧
    (101 : Int) ≠ (oneBid.storage.orders 0).price ∧
    ∃ ts e', step oneBid (.modify (oneBid.storage.idOf 0) 101 5) =
        some ([.text ("Order #" ++ toString (oneBid.storage.idOf 0) ++ " modified."), .trades ts], e') ∧
      step e' (.cancel (oneBid.storage.idOf 0)) =
        some ([.text ("  Order #" ++ toString (oneBid.storage.idOf 0) ++ " not found.")], e') ∧
      e'.lastOrderId = oneBid.nextOrderId ∧ oneBid.nextOrderId ≠ oneBid.storage.idOf 0 ∧
      (ts = [] → 0 < (5 : Quantity) → e'.book.hasOrder e'.lastOrderId = true) :=
  have ho : 0 ∈ restingOrders (oneBid.book.levels .buy) := by
    rw [oneBid, MatchingEngine.init_wf.exec_submitOrder]; decide
  have hp : (101 : Int) ≠ (oneBid.storage.orders 0).price := by
    rw [oneBid, MatchingEngine.init_wf.exec_submitOrder]; decide
  ⟨oneBid_reachable, by decide, ho, hp, modify_renames_order oneBid_reachable (by decide) ho hp 5⟩

end Cli

end LimitOrderBook
