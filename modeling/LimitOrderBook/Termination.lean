/-
  LimitOrderBook.Termination

  The two loops of `MatchingEngine::match` stop on every book, reachable or
  not: a level may be empty, an order may have quantity zero, a pointer may be
  queued twice. A pass of `fillLevel` fills `min(taker, maker)`, so it either
  exhausts the taker or leaves the front maker at zero and pops it. A pass of
  `match` runs `fillLevel` on the best level, which therefore ends with the
  taker exhausted or the level empty, and `cleanLevel` then erases the level.
  So every pass after which the loop goes on takes orders or a level off the
  side it walks.

  `FillPass` and `MatchPass` are one pass of each loop, as a relation between
  the states before and after it. No chain of passes is infinite, and
  `fillLevel` and `matchLoop` compute the end of the chain from their
  argument: the state from which no pass is possible.
-/
import LimitOrderBook.Submit

namespace LimitOrderBook

/-! ## Chains of passes -/

/-- A relation whose every step starts in `p` and either leaves `p` or lowers
    `f` has no infinite chain. -/
theorem wellFounded_flip_of_exit_or_lt {α : Type _} {r : α → α → Prop} (p : α → Prop)
    (f : α → Nat) (hp : ∀ a b, r a b → p a) (hstep : ∀ a b, r a b → ¬ p b ∨ f b < f a) :
    WellFounded (flip r) := by
  have key : ∀ n a, f a = n → Acc (flip r) a := by
    intro n
    induction n using Nat.strong_induction_on with
    | _ n ih =>
      intro a ha
      refine Acc.intro a fun b hb => ?_
      rcases hstep a b hb with hb' | hlt
      · exact Acc.intro b fun c hc => absurd (hp b c hc) hb'
      · exact ih _ (ha ▸ hlt) b rfl
  exact ⟨fun a => key _ a rfl⟩

theorem Quantity.not_lt_zero_of_eq {q : Quantity} (h : q = 0) : ¬ 0 < q := by
  rw [h]; decide

/-! ## `fillLevel` -/

/-- One pass of `fillLevel`'s loop: the taker has quantity left and the level
    has a front order. -/
inductive FillPass : FillState → FillState → Prop
  | step {fs : FillState} {maker : Ptr} (ht : 0 < fs.taker.quantity)
      (hf : fs.level.getFront = some maker) : FillPass fs (fillStep fs maker)

theorem FillPass.taker_pos {fs fs' : FillState} (h : FillPass fs fs') : 0 < fs.taker.quantity := by
  cases h; assumption

/-- **A pass of `fillLevel` exhausts the taker or pops the front maker.** -/
theorem FillPass.exhausts_or_pops {fs fs' : FillState} (h : FillPass fs fs') :
    fs'.taker.quantity = 0 ∨ ∃ maker, fs.level.orders = maker :: fs'.level.orders := by
  cases h with
  | @step maker ht hf =>
    obtain ⟨os, ho⟩ : ∃ os, fs.level.orders = maker :: os := by
      simpa only [PriceLevel.getFront, List.head?_eq_some_iff] using hf
    by_cases hz : fs.storage.qty maker - min fs.taker.quantity (fs.storage.qty maker) = 0
    · -- the maker is left at zero: popped
      exact .inr ⟨maker, by rw [fillStep_of_used_up ho hz, ho]⟩
    · -- the maker keeps something: the fill was the whole taker
      exact .inl (by rw [fillStep_of_not_used_up hz]; exact min_sub_eq_zero hz)

/-- `fillLevel`'s loop stops: no chain of passes is infinite. -/
theorem FillPass.wellFounded : WellFounded (flip FillPass) :=
  wellFounded_flip_of_exit_or_lt (fun fs => 0 < fs.taker.quantity) (fun fs => fs.level.orders.length)
    (fun _ _ h => h.taker_pos) fun _ _ h => by
      rcases h.exhausts_or_pops with h0 | ⟨maker, ho⟩
      · exact .inl (Quantity.not_lt_zero_of_eq h0)
      · exact .inr (by simp only [ho, List.length_cons]; omega)

/-- `fillLevel` is the end of its chain of passes: it is reached from its
    argument by passes, and no pass leaves it. -/
theorem fillLevel_passes (fs : FillState) :
    Relation.ReflTransGen FillPass fs (fillLevel fs) ∧ ∀ fs', ¬ FillPass (fillLevel fs) fs' := by
  induction fs using fillLevel.induct with
  | case1 fs ht hf =>
    rw [fillLevel, dif_pos ht]
    split
    · exact ⟨.refl, fun _ h => by cases h; simp_all⟩
    · simp_all
  | case2 fs ht maker hf ih =>
    rw [fillLevel, dif_pos ht]
    split
    · simp_all
    · rename_i maker' hf'
      obtain rfl : maker = maker' := Option.some.inj (hf.symm.trans hf')
      exact ⟨.head (.step ht hf) ih.1, ih.2⟩
  | case3 fs ht =>
    rw [fillLevel, dif_neg ht]
    exact ⟨.refl, fun _ h => ht h.taker_pos⟩

/-! ## `match` -/

/-- One pass of `match`'s loop on side `s`: the taker has quantity left, the
    side has a best level, and that level does not stop the walk. -/
inductive MatchPass (s : Side) : MatchState → MatchState → Prop
  | step {ms : MatchState} {k : Int} {level : PriceLevel} (ht : 0 < ms.taker.quantity)
      (hb : (ms.book.levels s).begin = some (k, level))
      (hstop : stopsAt s k ms.taker.price = false) : MatchPass s ms (matchStep s ms k level)

/-- The orders and the levels queued on side `s`. -/
def MatchState.queued (s : Side) (ms : MatchState) : Nat :=
  (restingOrders (ms.book.levels s)).length + (ms.book.levels s).entries.length

theorem MatchPass.taker_pos {s : Side} {ms ms' : MatchState} (h : MatchPass s ms ms') :
    0 < ms.taker.quantity := by
  cases h; assumption

/-- **A pass of `match` exhausts the taker, or leaves the best level empty so
    that `cleanLevel` erases it**; then the side holds fewer orders and
    levels. -/
theorem MatchPass.exhausts_or_erases {s : Side} {ms ms' : MatchState} (h : MatchPass s ms ms') :
    ms'.taker.quantity = 0 ∨
      ((ms'.book.levels s).entries = (ms.book.levels s).entries.tail ∧ ms'.queued s < ms.queued s) := by
  cases h with
  | @step k level ht hb hstop =>
    obtain ⟨rest, hm⟩ := LevelMap.entries_of_begin hb
    have hexit : (ms.fill level).taker.quantity = 0 ∨ (ms.fill level).level.orders = [] :=
      fillLevel_exit _
    rcases hexit with h0 | he
    · exact .inl (by rw [matchStep_eq (LevelMap.begin_mem hb)]; exact h0)
    · -- the level is empty after the fill: erased
      have hrest : ((matchStep s ms k level).book.levels s).entries = rest := by
        rw [matchStep_eq (LevelMap.begin_mem hb), OrderBook.levels_withIndex,
          OrderBook.levels_setLevels_same, LevelMap.update_entries_cons hm, if_pos he,
          List.nil_append]
      refine .inr ⟨by rw [hrest, hm, List.tail_cons], ?_⟩
      simp only [MatchState.queued, restingOrders, hrest, hm, List.flatMap_cons,
        List.length_append, List.length_cons]
      omega

/-- `match`'s loop stops: no chain of passes is infinite. -/
theorem MatchPass.wellFounded (s : Side) : WellFounded (flip (MatchPass s)) :=
  wellFounded_flip_of_exit_or_lt (fun ms => 0 < ms.taker.quantity) (MatchState.queued s)
    (fun _ _ h => h.taker_pos) fun _ _ h =>
      h.exhausts_or_erases.imp Quantity.not_lt_zero_of_eq And.right

/-- `matchLoop` is the end of its chain of passes: it is reached from its
    argument by passes, and no pass leaves it. -/
theorem matchLoop_passes (s : Side) (ms : MatchState) :
    Relation.ReflTransGen (MatchPass s) ms (matchLoop s ms) ∧
      ∀ ms', ¬ MatchPass s (matchLoop s ms) ms' := by
  induction ms using matchLoop.induct s with
  | case1 ms ht hb =>
    rw [matchLoop, dif_pos ht]
    split
    · exact ⟨.refl, fun _ h => by cases h; simp_all⟩
    · simp_all
  | case2 ms ht k L hb hstop =>
    rw [matchLoop, dif_pos ht]
    split
    · simp_all
    rename_i k' L' hb'
    obtain ⟨rfl, rfl⟩ : k = k' ∧ L = L' := by simpa using hb.symm.trans hb'
    rw [if_pos hstop]
    exact ⟨.refl, fun _ h => by cases h; simp_all⟩
  | case3 ms ht k L hb hstop ih =>
    rw [matchLoop, dif_pos ht]
    split
    · simp_all
    rename_i k' L' hb'
    obtain ⟨rfl, rfl⟩ : k = k' ∧ L = L' := by simpa using hb.symm.trans hb'
    rw [if_neg hstop]
    exact ⟨.head (.step ht hb (by simpa using hstop)) ih.1, ih.2⟩
  | case4 ms ht =>
    rw [matchLoop, dif_neg ht]
    exact ⟨.refl, fun _ h => ht h.taker_pos⟩

/-- **`match` terminates on every book and every taker.** Each pass of
    `fillLevel` exhausts the taker or pops the front maker; each pass of
    `match` exhausts the taker or leaves its level empty, erased by
    `cleanLevel`, so that the orders and levels of the side it walks strictly
    decrease; no chain of passes of either loop is infinite; and `fillLevel`
    and `match` return the state at the end of their chain. -/
theorem match_terminates :
    (∀ fs fs', FillPass fs fs' →
      fs'.taker.quantity = 0 ∨ ∃ maker, fs.level.orders = maker :: fs'.level.orders) ∧
    (∀ s ms ms', MatchPass s ms ms' → ms'.taker.quantity = 0 ∨
      ((ms'.book.levels s).entries = (ms.book.levels s).entries.tail ∧ ms'.queued s < ms.queued s)) ∧
    WellFounded (flip FillPass) ∧ (∀ s, WellFounded (flip (MatchPass s))) ∧
    (∀ fs, Relation.ReflTransGen FillPass fs (fillLevel fs) ∧ ∀ fs', ¬ FillPass (fillLevel fs) fs') ∧
    (∀ ms, Relation.ReflTransGen (MatchPass ms.taker.side.opposite) ms («match» ms) ∧
      ∀ ms', ¬ MatchPass ms.taker.side.opposite («match» ms) ms') :=
  ⟨fun _ _ h => h.exhausts_or_pops, fun _ _ _ h => h.exhausts_or_erases, FillPass.wellFounded,
    MatchPass.wellFounded, fillLevel_passes, fun ms => matchLoop_passes _ ms⟩

end LimitOrderBook
