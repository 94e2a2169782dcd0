import ShiftReduce.Automaton.Item
import ShiftReduce.Proofs.Grammar.Lookahead
import ShiftReduce.Proofs.OrderedSet

/-!
# Closures of item sets

A closure contains its seed and the expansions of its own items, and nothing that these two do not
force into it. Each item is expanded once, and there are at most as many items as the budget allows.
-/
namespace ShiftReduce

namespace Item

variable {g : Grammar} {a : Analysis} {item added : Item}

theorem mem_expansions (wf : g.WellFormed) :
    added ∈ item.expansions g a ↔ ∃ s p c, item.next? g = some s ∧
    g.isNonterminal s ∧ p ∈ g.productions ∧ p.lhs = s ∧
    c ∈ a.beginnings (item.beyond g) (some item.lookahead) ∧ added = .of p.index 0 c := by
  unfold expansions
  cases next : item.next? g with
  | none => simp
  | some s =>
    dsimp only
    split
    next nonterminal =>
      simp only [List.mem_flatMap, List.mem_map, wf.mem_productionsOf_iff, ← OrderedSet.mem_def]
      constructor
      · rintro ⟨_, ⟨p, member, lhs, rfl⟩, c, begins, rfl⟩
        exact ⟨s, p, c, rfl, nonterminal, member, lhs, begins, rfl⟩
      · rintro ⟨_, p, c, ⟨⟩, -, member, lhs, begins, rfl⟩
        exact ⟨p.index, ⟨p, member, lhs, rfl⟩, c, begins, rfl⟩
    next terminal =>
      simp only [List.not_mem_nil, false_iff]
      rintro ⟨_, p, c, ⟨⟩, nonterminal, -⟩
      exact terminal nonterminal

/-- Where an item can move, its production splits at the dot. -/
theorem exists_split {s : Symbol} (next : item.next? g = some s) : ∃ p α,
    item.production? g = some p ∧ p.rhs = α ++ s :: item.beyond g ∧ α.length = item.place.dot := by
  obtain ⟨p, found, symbol⟩ := Option.bind_eq_some_iff.mp next
  obtain ⟨bound, rfl⟩ := List.getElem?_eq_some_iff.mp symbol
  refine ⟨p, p.rhs.take item.place.dot, found, ?_, List.length_take_of_le (Nat.le_of_lt bound)⟩
  have behind : item.beyond g = p.rhs.drop (item.place.dot + 1) := by simp [beyond, found]
  rw [behind, List.cons_getElem_drop_succ, List.take_append_drop]

theorem completed?_eq_some_iff {p : Production} : item.completed? g = some p ↔
    item.production? g = some p ∧ p.length ≤ item.place.dot := by
  rw [completed?, Option.filter_eq_some_iff, decide_eq_true_eq]

/-- Items are listed by place first. -/
theorem place_le {i j : Item} (less : compare i j = .lt) : (compare i.place j.place).isLE := by
  have either : (compare i.place j.place).then (compare i.lookahead j.lookahead) = .lt := less
  rcases Ordering.then_eq_lt.mp either with low | ⟨same, -⟩
  · simp [low]
  · simp [same]

theorem of_injective {p q d : Nat} {x y : Symbol} (same : Item.of p d x = Item.of q d y) :
    p = q ∧ x = y := by
  cases same
  exact ⟨rfl, rfl⟩

theorem expansions_nodup (wf : g.WellFormed) (item : Item) (a : Analysis) :
    (item.expansions g a).Nodup := by
  unfold expansions
  split
  · exact List.nodup_nil
  · split
    · refine List.nodup_flatMap.mpr ⟨fun p _ => ?_, ?_⟩
      · exact (OrderedSet.nodup _).map fun x y same => (of_injective same).2
      -- items of different productions differ in their production
      · refine (wf.productionsOf_pairwise _).imp fun less => ?_
        intro added fromP fromQ
        obtain ⟨x, -, rfl⟩ := List.mem_map.mp fromP
        obtain ⟨y, -, same⟩ := List.mem_map.mp fromQ
        exact absurd (of_injective same).1.symm (Nat.ne_of_lt less)
    · exact List.nodup_nil

end Item

namespace ItemSet

variable {g : Grammar} {a : Analysis} {items : ItemSet}

/-- The expansions of all items belong to the set. -/
def Closed (items : ItemSet) (g : Grammar) (a : Analysis) : Prop :=
  ∀ item ∈ items, ∀ added ∈ item.expansions g a, added ∈ items

/-- What holds of the seed and is handed on by expansions holds of all that is found. -/
theorem saturate_induction {motive : Item → Prop}
    (expand : ∀ item, motive item → ∀ added ∈ item.expansions g a, motive added)
    (budget : Nat) (pending : List Item) (items : ItemSet)
    (waiting : ∀ item ∈ pending, motive item) (known : ∀ item ∈ items, motive item) :
    ∀ item ∈ saturate g a budget pending items, motive item := by
  fun_induction saturate g a budget pending items with
  | case1 => exact known
  | case2 => exact known
  | case3 budget item pending items added ih =>
    have new (i : Item) (member : i ∈ added) : motive i :=
      expand item (waiting item (by simp)) i (List.mem_of_mem_filter member)
    apply ih
    · intro i member
      rcases List.mem_append.mp member with here | later
      · exact new i here
      · exact waiting i (List.mem_cons_of_mem _ later)
    · intro i member
      rcases OrderedSet.mem_insertAll.mp member with old | here
      · exact known i old
      · exact new i here

/-- Expanding to the end: pending items are expanded, one after the other, until none is left. What
is new among the expansions is pending next. -/
inductive Saturates (g : Grammar) (a : Analysis) : List Item → ItemSet → ItemSet → Prop
  | done {items : ItemSet} : Saturates g a [] items items
  | expand {item : Item} {pending added : List Item} {items result : ItemSet}
      (new : added = (item.expansions g a).filter (!items.contains ·))
      (later : Saturates g a (added ++ pending) (items.insertAll added) result) :
      Saturates g a (item :: pending) items result

/-- With a budget for every item there can be, expanding comes to an end. -/
theorem saturates_saturate (wf : g.WellFormed) (bounds : List Item)
    (stable : ∀ item ∈ bounds, ∀ added ∈ item.expansions g a, added ∈ bounds)
    (budget : Nat) (pending : List Item) (items : ItemSet)
    (inside : ∀ item ∈ items, item ∈ bounds) (waiting : ∀ item ∈ pending, item ∈ items)
    (enough : bounds.length + pending.length ≤ budget + items.size) :
    Saturates g a pending items (saturate g a budget pending items) := by
  fun_induction saturate g a budget pending items with
  | case1 pending items =>
    -- the budget is spent: everything there can be is known, so nothing is pending
    have bound := OrderedSet.size_le_of_subset inside
    have none : pending = [] := List.eq_nil_of_length_eq_zero (by omega)
    subst none
    exact .done
  | case2 => exact .done
  | case3 budget item pending items added ih =>
    -- each new item is counted twice, once as pending and once as known
    have new (i : Item) (member : i ∈ added) : i ∉ items := by
      simpa using (List.mem_filter.mp member).2
    have size : (items.insertAll added).size = items.size + added.length :=
      OrderedSet.size_insertAll ((Item.expansions_nodup wf item a).filter _) new
    refine .expand rfl (ih ?inside ?waiting ?enough)
    case inside =>
      intro i member
      rcases OrderedSet.mem_insertAll.mp member with old | added
      · exact inside i old
      · exact stable item (inside item (waiting item (by simp))) i (List.mem_of_mem_filter added)
    case waiting =>
      intro i member
      rcases List.mem_append.mp member with added | later
      · exact OrderedSet.mem_insertAll.mpr (Or.inr added)
      · exact OrderedSet.mem_insertAll.mpr (Or.inl (waiting i (List.mem_cons_of_mem _ later)))
    case enough =>
      rw [size, List.length_append]
      rw [List.length_cons] at enough
      omega

/-- What expanding ends with has all that it started from, and all expansions. -/
theorem Saturates.closed {pending : List Item} {items result : ItemSet}
    (saturates : Saturates g a pending items result) (waiting : ∀ item ∈ pending, item ∈ items)
    (expanded : ∀ item ∈ items, item ∉ pending → ∀ added ∈ item.expansions g a, added ∈ items) :
    result.Closed g a ∧ ∀ item ∈ items, item ∈ result := by
  induction saturates with
  | done => exact ⟨fun item member => expanded item member (by simp), fun item => id⟩
  | @expand item pending added items result new _ ih =>
    have grown (i : Item) (old : i ∈ items) : i ∈ items.insertAll added :=
      OrderedSet.mem_insertAll.mpr (Or.inl old)
    refine And.imp_right (fun kept i old => kept i (grown i old)) (ih ?waiting ?expanded)
    case waiting =>
      intro i member
      rcases List.mem_append.mp member with added | later
      · exact OrderedSet.mem_insertAll.mpr (Or.inr added)
      · exact grown i (waiting i (List.mem_cons_of_mem _ later))
    case expanded =>
      intro i member settled j expansion
      rw [List.mem_append, not_or] at settled
      have old : i ∈ items := (OrderedSet.mem_insertAll.mp member).resolve_right settled.1
      -- the item taken from the pending ones is expanded now, every other one was before
      by_cases same : i = item
      · subst same
        by_cases known : j ∈ items
        · exact grown j known
        · exact OrderedSet.mem_insertAll.mpr
            (Or.inr (new ▸ List.mem_filter.mpr ⟨expansion, by simpa using known⟩))
      · exact grown j (expanded i old (by simp [same, settled.2]) j expansion)

/-! ## The items there can be -/

/-- The lookaheads that a closure can use: members of FIRST sets and those of the seed. -/
def lookaheads (a : Analysis) (seed : ItemSet) : List Symbol :=
  a.first.flatMap OrderedSet.toList ++ seed.toList.map Item.lookahead

/-- Every item that a closure can hold. -/
def reach (g : Grammar) (a : Analysis) (seed : ItemSet) : List Item :=
  seed.toList ++ g.productions.flatMap fun p => (lookaheads a seed).map (Item.of p.index 0)

theorem length_reach (g : Grammar) (a : Analysis) (seed : ItemSet) :
    (reach g a seed).length = closureBudget g a seed := by
  have each : (lookaheads a seed).length =
      a.first.foldr (fun first n => first.size + n) seed.size := by
    -- the sum over the FIRST sets starts from the lookaheads of the seed
    unfold lookaheads
    induction a.first with
    | nil => exact List.length_map _
    | cons first rest ih =>
      rw [List.flatMap_cons, List.append_assoc, List.length_append, ih]
      rfl
  simp only [reach, List.length_append, List.length_flatMap, List.length_map, each,
    List.map_const', List.sum_replicate_nat, closureBudget]
  rfl

theorem mem_first_of_beginnings {b : Begins} {β : List Symbol} {c x : Symbol}
    (begins : c ∈ b.beginnings β (some x)) : (∃ set ∈ b.first, c ∈ set) ∨ c = x := by
  induction β with
  | nil => exact Or.inr (by simpa [eq_comm] using Begins.mem_beginnings_nil.mp begins)
  | cons s β ih =>
    rcases Begins.mem_beginnings_cons.mp begins with first | ⟨-, later⟩
    · rw [Begins.firstOf, Begins.first?] at first
      cases found : b.first[s.index]? with
      | none => simp [found] at first
      | some set => exact Or.inl ⟨set, List.mem_of_getElem? found, by simpa [found] using first⟩
    · exact ih later

theorem reach_stable (wf : g.WellFormed) (a : Analysis) (seed : ItemSet) (item : Item)
    (member : item ∈ reach g a seed) (added : Item) (expansion : added ∈ item.expansions g a) :
    added ∈ reach g a seed := by
  have ahead : item.lookahead ∈ lookaheads a seed := by
    rcases List.mem_append.mp member with here | made
    · exact List.mem_append_right _ (List.mem_map_of_mem here)
    · obtain ⟨p, -, made⟩ := List.mem_flatMap.mp made
      obtain ⟨c, listed, rfl⟩ := List.mem_map.mp made
      exact listed
  obtain ⟨s, p, c, -, -, production, -, begins, rfl⟩ := (Item.mem_expansions wf).mp expansion
  refine List.mem_append_right _ (List.mem_flatMap.mpr ⟨p, production, List.mem_map_of_mem ?_⟩)
  rcases mem_first_of_beginnings begins with ⟨set, listed, member⟩ | rfl
  · exact List.mem_append_left _ (List.mem_flatMap.mpr ⟨set, listed, member⟩)
  · exact ahead

/-! ## Closures -/

/-- Closing a seed comes to an end. -/
theorem saturates_closure (wf : g.WellFormed) (a : Analysis) (seed : List Item) :
    Saturates g a (OrderedSet.ofList seed : ItemSet).toList (OrderedSet.ofList seed)
      (closure g a seed) := by
  let items : ItemSet := OrderedSet.ofList seed
  apply saturates_saturate wf (reach g a items) (reach_stable wf a items)
  · exact fun item member => List.mem_append_left _ member
  · exact fun item member => member
  · rw [length_reach]
    exact Nat.le_refl _

theorem closure_spec (wf : g.WellFormed) (seed : List Item) :
    (closure g a seed).Closed g a ∧ ∀ item ∈ seed, item ∈ closure g a seed := by
  obtain ⟨closed, kept⟩ := (saturates_closure wf a seed).closed (fun item member => member)
    (fun item member settled => absurd member settled)
  exact ⟨closed, fun item member => kept item (OrderedSet.mem_ofList.mpr member)⟩

theorem closure_closed (wf : g.WellFormed) (a : Analysis) (seed : List Item) :
    (closure g a seed).Closed g a := (closure_spec wf seed).1

theorem mem_closure_of_mem (wf : g.WellFormed) {seed : List Item} {item : Item}
    (member : item ∈ seed) : item ∈ closure g a seed := (closure_spec wf seed).2 item member

/-- A closure holds nothing but what its seed calls for. -/
theorem closure_induction {motive : Item → Prop} {seed : List Item}
    (start : ∀ item ∈ seed, motive item)
    (expand : ∀ item, motive item → ∀ added ∈ item.expansions g a, motive added) :
    ∀ item ∈ closure g a seed, motive item :=
  saturate_induction expand _ _ _
    (fun item member => start item (OrderedSet.mem_ofList.mp member))
    (fun item member => start item (OrderedSet.mem_ofList.mp member))

/-! ## Moving over a symbol -/

theorem mem_kernel {s : Symbol} {item : Item} : item ∈ items.kernel g s ↔
    ∃ before ∈ items, before.next? g = some s ∧ item = before.advance := by
  simp only [kernel, List.mem_map, List.mem_filter, decide_eq_true_eq, OrderedSet.mem_def]
  constructor
  · rintro ⟨before, ⟨member, next⟩, rfl⟩
    exact ⟨before, member, next, rfl⟩
  · rintro ⟨before, member, next, rfl⟩
    exact ⟨before, ⟨member, next⟩, rfl⟩

theorem advance_mem_goto (wf : g.WellFormed) {s : Symbol} {item : Item} (member : item ∈ items)
    (next : item.next? g = some s) : item.advance ∈ items.goto g a s :=
  mem_closure_of_mem wf (mem_kernel.mpr ⟨item, member, next, rfl⟩)

theorem mem_outgoing {s : Symbol} : s ∈ items.outgoing g ↔ ∃ item ∈ items, item.next? g = some s := by
  rw [outgoing, OrderedSet.mem_ofList, List.mem_filterMap]
  rfl

theorem mem_core {place : Place} : place ∈ items.core ↔ ∃ item ∈ items, item.place = place := by
  rw [core, OrderedSet.mem_ofList, List.mem_map]
  rfl

end ItemSet

end ShiftReduce
