import Mathlib.Data.Set.Defs
import ShiftReduce.Proofs.Automaton.Closure
import ShiftReduce.Proofs.Grammar.Augmentation

/-!
# Least closures

The closure of a seed is the least set of items that has the seed and all that its own items call
for. Each item calls for others on its own account, so closures are determined by the members of the
seed alone, and unions go through.
-/
namespace ShiftReduce

variable {g : Grammar} {a : Analysis}

/-- An item `A -> α . X β, x` calls for `X -> . γ, y`, for every production `X -> γ` of the
nonterminal `X` and every terminal `y` that can begin `β x`. -/
inductive Item.Calls (g : Grammar) (a : Analysis) : Item → Item → Prop
  | intro {n i : Nat} {p q : Production} {α β : List Symbol} {X x y : Symbol}
      (found : g.production? n = some p) (rhs : p.rhs = α ++ X :: β)
      (nonterminal : g.isNonterminal X) (production : g.production? i = some q) (lhs : q.lhs = X)
      (begins : y ∈ a.beginnings β (some x)) : Calls g a (.of n α.length x) (.of i 0 y)

theorem Item.calls_iff (wf : g.WellFormed) {item added : Item} :
    item.Calls g a added ↔ added ∈ item.expansions g a := by
  rw [Item.mem_expansions wf]
  constructor
  · rintro @⟨n, i, p, q, α, β, X, x, y, found, rhs, nonterminal, production, lhs, begins⟩
    refine ⟨X, q, y, ?next, nonterminal, Grammar.mem_of_production? production, lhs, ?behind, ?same⟩
    case next => simp [Item.next?, Item.production?, Item.of, found, rhs]
    case behind => simpa [Item.beyond, Item.production?, Item.of, found, rhs] using begins
    case same => rw [wf.indexed _ _ production]
  · rintro ⟨s, q, y, next, nonterminal, member, lhs, begins, rfl⟩
    obtain ⟨p, α, found, rhs, dot⟩ := Item.exists_split next
    have calls := Calls.intro found rhs nonterminal (wf.production?_index member) lhs begins
    rwa [dot] at calls

namespace ItemSet

/-- The set `items` is the least one that has the seed and all that its own items call for. -/
structure IsClosure (items : ItemSet) (g : Grammar) (a : Analysis) (seed : List Item) : Prop where
  seeded : ∀ item ∈ seed, item ∈ items
  closed : ∀ item ∈ items, ∀ added, item.Calls g a added → added ∈ items
  least : ∀ others : Set Item, (∀ item ∈ seed, item ∈ others) →
    (∀ item ∈ others, ∀ added, item.Calls g a added → added ∈ others) →
    ∀ item ∈ items, item ∈ others

variable {items others : ItemSet} {seed more : List Item}

theorem isClosure_closure (wf : g.WellFormed) (a : Analysis) (seed : List Item) :
    (closure g a seed).IsClosure g a seed where
  seeded item := mem_closure_of_mem wf
  closed item member added calls :=
    closure_closed wf a seed item member added ((Item.calls_iff wf).mp calls)
  least others seeded closed := by
    refine closure_induction seeded fun item member added called => ?_
    exact closed item member added ((Item.calls_iff wf).mpr called)

namespace IsClosure

/-- There is only one least set. -/
theorem unique (first : items.IsClosure g a seed) (second : others.IsClosure g a seed) :
    items = others := by
  apply OrderedSet.ext
  intro item
  constructor
  · exact first.least {item | item ∈ others} second.seeded second.closed item
  · exact second.least {item | item ∈ items} first.seeded first.closed item

/-- Only the members of the seed matter. -/
theorem congr (isClosure : items.IsClosure g a seed) (same : ∀ item, item ∈ seed ↔ item ∈ more) :
    items.IsClosure g a more where
  seeded item member := isClosure.seeded item ((same item).mpr member)
  closed := isClosure.closed
  least others seeded := isClosure.least others fun item member => seeded item ((same item).mp member)

theorem union (first : items.IsClosure g a seed) (second : others.IsClosure g a more) :
    (items ∪ others).IsClosure g a (seed ++ more) where
  seeded item member := by
    rw [OrderedSet.mem_union]
    exact (List.mem_append.mp member).imp (first.seeded item) (second.seeded item)
  closed item member added calls := by
    rw [OrderedSet.mem_union] at member ⊢
    -- what an item calls for is in the set that the item comes from
    exact member.imp (first.closed item · added calls) (second.closed item · added calls)
  least others seeded closed item member := by
    rcases OrderedSet.mem_union.mp member with left | right
    · apply first.least others _ closed item left
      exact fun item member => seeded item (List.mem_append_left _ member)
    · apply second.least others _ closed item right
      exact fun item member => seeded item (List.mem_append_right _ member)

end IsClosure

/-- A set that has all that its items call for is its own closure. -/
theorem isClosure_self (closed : ∀ item ∈ items, ∀ added, item.Calls g a added → added ∈ items) :
    items.IsClosure g a items.toList :=
  ⟨fun _ member => member, closed, fun _ seeded _ => seeded⟩

theorem mem_kernel_union {s : Symbol} {item : Item} :
    item ∈ (items ∪ others).kernel g s ↔ item ∈ items.kernel g s ++ others.kernel g s := by
  simp only [List.mem_append, mem_kernel, OrderedSet.mem_union, or_and_right, exists_or]

end ItemSet

/-- Closure: closing any items comes to an end, at the least set of items that has them and all that
its own items call for. The order of the seed and repetitions in it make no difference, a closed set
is its own closure, and both closing and moving over a symbol go through unions. -/
theorem Grammar.Built.closure_least (built : g.Built) (a : Analysis) :
    (∀ seed, ItemSet.Saturates g a (OrderedSet.ofList seed : ItemSet).toList (OrderedSet.ofList seed)
      (.closure g a seed) ∧ (ItemSet.closure g a seed).IsClosure g a seed) ∧
    (∀ seed more : List Item, (∀ item, item ∈ seed ↔ item ∈ more) →
      ItemSet.closure g a seed = .closure g a more) ∧
    (∀ items : ItemSet, (∀ item ∈ items, ∀ added, item.Calls g a added → added ∈ items) →
      ItemSet.closure g a items.toList = items) ∧
    (∀ seed more : List Item,
      ItemSet.closure g a (seed ++ more) = .closure g a seed ∪ .closure g a more) ∧
    ∀ (items others : ItemSet) s, (items ∪ others).goto g a s = items.goto g a s ∪ others.goto g a s := by
  have wf := built.wellFormed
  have least := ItemSet.isClosure_closure wf a
  refine ⟨fun seed => ⟨ItemSet.saturates_closure wf a seed, least seed⟩, fun seed more same => ?_,
    fun items closed => ?_, fun seed more => ?_, fun items others s => ?_⟩
  · exact ((least seed).congr same).unique (least more)
  · exact (least _).unique (ItemSet.isClosure_self closed)
  · exact (least _).unique ((least seed).union (least more))
  · have moved := (least ((items ∪ others).kernel g s)).congr fun _ => ItemSet.mem_kernel_union
    exact moved.unique ((least _).union (least _))

/-- With `S -> a . S, b` in it, next to an item of no production, a closure has `S -> . b, b`. It is
the same if the seed has the first item twice. -/
theorem Grammar.chain_closure_least : chain.Built ∧
    Item.of 1 0 ⟨3⟩ ∈ ItemSet.closure chain chain.analysis [.of 7 9 ⟨40⟩, .of 0 1 ⟨3⟩] ∧
    ItemSet.closure chain chain.analysis [.of 0 1 ⟨3⟩, .of 7 9 ⟨40⟩, .of 0 1 ⟨3⟩] =
      .closure chain chain.analysis [.of 7 9 ⟨40⟩, .of 0 1 ⟨3⟩] := by
  obtain ⟨spec, same, -⟩ := chain_built.closure_least chain.analysis
  refine ⟨chain_built, ?_, same _ _ (by simp)⟩
  obtain ⟨-, least⟩ := spec [.of 7 9 ⟨40⟩, .of 0 1 ⟨3⟩]
  refine least.closed (.of 0 1 ⟨3⟩) (least.seeded _ (by simp)) _ ?_
  exact Item.Calls.intro (α := [⟨2⟩]) (β := []) rfl rfl (by decide +kernel) rfl rfl
    (by decide +kernel)

end ShiftReduce
