/-
  LimitOrderBook.LevelMap

  The two `std::map`s of `OrderBook.h`: `BidMap` iterates with
  `std::greater<Price>` (best bid first), `AskMap` with `std::less<Price>` (best
  ask first). A map is its list of entries in iteration order, and the type
  carries that order as a field: a `LevelMap s` whose keys are out of order, or
  repeated, cannot be built. `emplace`, `find`, `erase` and `begin` are the
  operations the book uses; `modify` is the in-place update of the level an
  iterator points at.
-/
import LimitOrderBook.PriceLevel

namespace LimitOrderBook

/-- Whether price `a` is iterated before price `b` in the map of side `s`. -/
def Side.before : Side → Int → Int → Prop
  | .buy, a, b => b < a
  | .sell, a, b => a < b

instance Side.decBefore : (s : Side) → (a b : Int) → Decidable (s.before a b)
  | .buy, a, b => inferInstanceAs (Decidable (b < a))
  | .sell, a, b => inferInstanceAs (Decidable (a < b))

namespace Side

theorem before_irrefl (s : Side) (a : Int) : ¬ s.before a a := by
  cases s <;> simp [before]

theorem before_trans {s : Side} {a b c : Int} (h₁ : s.before a b) (h₂ : s.before b c) :
    s.before a c := by
  cases s <;> simp only [before] at * <;> omega

theorem before_asymm {s : Side} {a b : Int} (h : s.before a b) : ¬ s.before b a := by
  cases s <;> simp only [before] at * <;> omega

theorem before_trichotomy (s : Side) (a b : Int) : s.before a b ∨ a = b ∨ s.before b a := by
  cases s <;> simp only [before] <;> omega

end Side

/-- A `std::map<Price, PriceLevel, _>` of side `s`: its entries in iteration order. -/
structure LevelMap (s : Side) where
  entries : List (Int × PriceLevel)
  sorted : entries.Pairwise (fun a b => s.before a.1 b.1)

/-- The entry list `emplace` leaves: `(k, v)` in its place unless `k` is a key. -/
def insertEntry (s : Side) (k : Int) (v : PriceLevel) :
    List (Int × PriceLevel) → List (Int × PriceLevel)
  | [] => [(k, v)]
  | e :: es =>
    if s.before k e.1 then (k, v) :: e :: es
    else if k = e.1 then e :: es
    else e :: insertEntry s k v es

theorem mem_insertEntry {s : Side} {k : Int} {v : PriceLevel} {x : Int × PriceLevel} :
    ∀ {es : List (Int × PriceLevel)}, x ∈ insertEntry s k v es → x ∈ es ∨ x = (k, v)
  | [], h => by simpa [insertEntry] using h
  | e :: es, h => by
    simp only [insertEntry] at h
    split_ifs at h with h₁ h₂
    · rcases List.mem_cons.mp h with h | h
      · exact .inr h
      · exact .inl h
    · exact .inl h
    · rcases List.mem_cons.mp h with h | h
      · exact .inl (h ▸ List.mem_cons_self _ _)
      · exact (mem_insertEntry h).imp_left (List.mem_cons_of_mem _)

theorem insertEntry_sorted {s : Side} (k : Int) (v : PriceLevel) :
    ∀ {es : List (Int × PriceLevel)}, es.Pairwise (fun a b => s.before a.1 b.1) →
      (insertEntry s k v es).Pairwise (fun a b => s.before a.1 b.1)
  | [], _ => List.pairwise_singleton _ _
  | e :: es, h => by
    rw [List.pairwise_cons] at h
    simp only [insertEntry]
    split_ifs with h₁ h₂
    · refine List.Pairwise.cons (fun y hy => ?_) (List.Pairwise.cons h.1 h.2)
      rcases List.mem_cons.mp hy with rfl | hy
      · exact h₁
      · exact Side.before_trans h₁ (h.1 y hy)
    · exact List.Pairwise.cons h.1 h.2
    · have hek : s.before e.1 k := by
        rcases s.before_trichotomy k e.1 with h' | h' | h'
        exacts [absurd h' h₁, absurd h' h₂, h']
      refine List.Pairwise.cons (fun y hy => ?_) (insertEntry_sorted k v h.2)
      rcases mem_insertEntry hy with hy | rfl
      · exact h.1 y hy
      · exact hek

/-- `insertEntry` keeps every entry and adds `(k, v)` exactly when `k` is new. -/
theorem insertEntry_of_mem {s : Side} {k : Int} {v : PriceLevel} {x : Int × PriceLevel} :
    ∀ {es : List (Int × PriceLevel)}, x ∈ es → x ∈ insertEntry s k v es
  | e :: es, h => by
    simp only [insertEntry]
    split_ifs
    · exact List.mem_cons_of_mem _ h
    · exact h
    · rcases List.mem_cons.mp h with rfl | h
      · exact List.mem_cons_self _ _
      · exact List.mem_cons_of_mem _ (insertEntry_of_mem h)

theorem insertEntry_of_not_key {s : Side} {k : Int} {v : PriceLevel} :
    ∀ {es : List (Int × PriceLevel)}, (∀ e ∈ es, e.1 ≠ k) → (k, v) ∈ insertEntry s k v es
  | [], _ => List.mem_singleton_self _
  | e :: es, h => by
    simp only [List.mem_cons, forall_eq_or_imp] at h
    simp only [insertEntry, if_neg (Ne.symm h.1)]
    split_ifs
    · exact List.mem_cons_self _ _
    · exact List.mem_cons_of_mem _ (insertEntry_of_not_key h.2)

namespace LevelMap

variable {s : Side}

def empty : LevelMap s := ⟨[], List.Pairwise.nil⟩

/-- `find(k)`. -/
def find? (m : LevelMap s) (k : Int) : Option PriceLevel := m.entries.lookup k

/-- `begin()`: the best entry. -/
def begin (m : LevelMap s) : Option (Int × PriceLevel) := m.entries.head?

/-- `emplace(k, v)`: insert `(k, v)` unless `k` is already a key. -/
def emplace (m : LevelMap s) (k : Int) (v : PriceLevel) : LevelMap s :=
  ⟨insertEntry s k v m.entries, insertEntry_sorted k v m.sorted⟩

/-- Update in place the level at key `k`, if there is one. -/
def modify (m : LevelMap s) (k : Int) (f : PriceLevel → PriceLevel) : LevelMap s :=
  ⟨m.entries.map (fun e => if e.1 = k then (e.1, f e.2) else e),
   List.pairwise_map.mpr (m.sorted.imp fun {a b} h => by split_ifs <;> exact h)⟩

/-- `erase`: drop the entry at key `k`. -/
def erase (m : LevelMap s) (k : Int) : LevelMap s :=
  ⟨m.entries.filter (fun e => e.1 != k), m.sorted.filter _⟩

/-- Write `L'` back as the level at `k` and erase the entry if `L'` is empty: what
    `cancelOrder` and the `match` loop do to the level they drained. -/
def update (m : LevelMap s) (k : Int) (L' : PriceLevel) : LevelMap s :=
  if L'.empty then (m.modify k fun _ => L').erase k else m.modify k fun _ => L'

theorem ext_entries {m m' : LevelMap s} (h : m.entries = m'.entries) : m = m' := by
  cases m; cases m'; cases h; rfl

/-- Keys are unique. -/
theorem key_unique {m : LevelMap s} {k : Int} {L L' : PriceLevel} (h : (k, L) ∈ m.entries)
    (h' : (k, L') ∈ m.entries) : L = L' := by
  obtain ⟨as, bs, hab⟩ := List.append_of_mem h
  have hs := m.sorted
  rw [hab, List.pairwise_append, List.pairwise_cons] at hs
  rw [hab] at h'
  rcases List.mem_append.mp h' with h' | h'
  · exact absurd (hs.2.2 _ h' _ (List.mem_cons_self _ _)) (Side.before_irrefl _ _)
  · rcases List.mem_cons.mp h' with h' | h'
    · exact (Prod.mk.inj h').2.symm
    · exact absurd (hs.2.1.1 _ h') (Side.before_irrefl _ _)

theorem find?_eq_some {m : LevelMap s} {k : Int} {L : PriceLevel} :
    m.find? k = some L ↔ (k, L) ∈ m.entries := by
  obtain ⟨es, hs⟩ := m
  simp only [find?]
  induction es with
  | nil => simp
  | cons e es ih =>
    rw [List.pairwise_cons] at hs
    obtain ⟨k', L'⟩ := e
    simp only [List.lookup_cons, List.mem_cons]
    by_cases hk : k = k'
    · subst hk
      simp only [beq_self_eq_true, Option.some.injEq, Prod.mk.injEq, true_and]
      exact ⟨fun h => .inl h.symm, fun h => h.elim Eq.symm
        fun h' => absurd (hs.1 _ h') (Side.before_irrefl _ _)⟩
    · have hb : (k == k') = false := by simpa using hk
      simp only [hb, ih hs.2, Prod.mk.injEq, hk, false_and, false_or]

theorem find?_eq_none {m : LevelMap s} {k : Int} : m.find? k = none ↔ ∀ e ∈ m.entries, e.1 ≠ k := by
  constructor
  · intro h e he hk
    obtain ⟨k', L⟩ := e
    simp only at hk
    subst hk
    simp [find?_eq_some.mpr he] at h
  · intro h
    cases hf : m.find? k with
    | none => rfl
    | some L => exact absurd rfl (h _ (find?_eq_some.mp hf))

theorem mem_emplace {m : LevelMap s} {k : Int} {v : PriceLevel} {x : Int × PriceLevel} :
    x ∈ (m.emplace k v).entries ↔ x ∈ m.entries ∨ (x = (k, v) ∧ m.find? k = none) := by
  constructor
  · intro h
    rcases mem_insertEntry h with h | rfl
    · exact .inl h
    · by_cases hf : m.find? k = none
      · exact .inr ⟨rfl, hf⟩
      · obtain ⟨L, hL⟩ := Option.ne_none_iff_exists'.mp hf
        refine .inl ?_
        have hmem := insertEntry_of_mem (s := s) (k := k) (v := v) (find?_eq_some.mp hL)
        have := key_unique (m := m.emplace k v) h hmem
        exact this ▸ find?_eq_some.mp hL
  · rintro (h | ⟨rfl, hf⟩)
    · exact insertEntry_of_mem h
    · exact insertEntry_of_not_key (find?_eq_none.mp hf)

theorem mem_modify {m : LevelMap s} {k : Int} {f : PriceLevel → PriceLevel}
    {x : Int × PriceLevel} :
    x ∈ (m.modify k f).entries ↔
      (∃ L, (k, L) ∈ m.entries ∧ x = (k, f L)) ∨ (x ∈ m.entries ∧ x.1 ≠ k) := by
  simp only [modify, List.mem_map]
  constructor
  · rintro ⟨⟨k', L⟩, he, rfl⟩
    by_cases hk : k' = k
    · subst hk; simp only [if_true]; exact .inl ⟨L, he, rfl⟩
    · simp only [hk, if_false]; exact .inr ⟨he, hk⟩
  · rintro (⟨L, he, rfl⟩ | ⟨he, hk⟩)
    · exact ⟨(k, L), he, by simp⟩
    · exact ⟨x, he, by simp [hk]⟩

theorem mem_erase {m : LevelMap s} {k : Int} {x : Int × PriceLevel} :
    x ∈ (m.erase k).entries ↔ x ∈ m.entries ∧ x.1 ≠ k := by
  simp [erase]

theorem mem_update {m : LevelMap s} {k : Int} {L' : PriceLevel} {x : Int × PriceLevel} :
    x ∈ (m.update k L').entries ↔
      (x = (k, L') ∧ (∃ L, (k, L) ∈ m.entries) ∧ L'.orders ≠ []) ∨ (x ∈ m.entries ∧ x.1 ≠ k) := by
  unfold update
  split_ifs with he
  · rw [mem_erase, mem_modify]
    simp only [PriceLevel.empty_iff] at he
    constructor
    · rintro ⟨⟨L, -, rfl⟩ | h, hk⟩
      · exact absurd rfl hk
      · exact .inr h
    · rintro (⟨rfl, -, hne⟩ | h)
      · exact absurd he hne
      · exact ⟨.inr h, h.2⟩
  · rw [mem_modify]
    simp only [PriceLevel.empty_iff] at he
    constructor
    · rintro (⟨L, hL, rfl⟩ | h)
      · exact .inl ⟨rfl, ⟨L, hL⟩, he⟩
      · exact .inr h
    · rintro (⟨rfl, ⟨L, hL⟩, -⟩ | h)
      · exact .inl ⟨L, hL, rfl⟩
      · exact .inr h

theorem erase_length_lt {m : LevelMap s} {k : Int} {L : PriceLevel}
    (h : (k, L) ∈ m.entries) : (m.erase k).entries.length < m.entries.length := by
  have hsub : (m.erase k).entries.Sublist m.entries := List.filter_sublist _
  refine Nat.lt_of_le_of_ne hsub.length_le fun heq => ?_
  have hmem := (hsub.eq_of_length heq) ▸ h
  simp [mem_erase] at hmem

theorem modify_length (m : LevelMap s) (k : Int) (f : PriceLevel → PriceLevel) :
    (m.modify k f).entries.length = m.entries.length := List.length_map _ _

/-- Writing back an empty level at a key shortens the map. -/
theorem update_length_lt {m : LevelMap s} {k : Int} {L L' : PriceLevel} (h : (k, L) ∈ m.entries)
    (he : L'.orders = []) : (m.update k L').entries.length < m.entries.length := by
  have hmem : (k, L') ∈ (m.modify k fun _ => L').entries := mem_modify.mpr (.inl ⟨L, h, rfl⟩)
  simp only [update, (PriceLevel.empty_iff L').mpr he, if_true]
  exact modify_length m k _ ▸ erase_length_lt hmem

theorem update_length_le (m : LevelMap s) (k : Int) (L' : PriceLevel) :
    (m.update k L').entries.length ≤ m.entries.length := by
  unfold update
  split_ifs
  · exact (List.filter_sublist _).length_le.trans (modify_length m k _).le
  · exact (modify_length m k _).le

theorem begin_mem {m : LevelMap s} {e : Int × PriceLevel} (h : m.begin = some e) :
    e ∈ m.entries := List.mem_of_mem_head? h

theorem begin_eq_none {m : LevelMap s} : m.begin = none ↔ m.entries = [] := List.head?_eq_none_iff

end LevelMap

end LimitOrderBook
