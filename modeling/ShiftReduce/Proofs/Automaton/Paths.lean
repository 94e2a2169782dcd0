import ShiftReduce.Proofs.Automaton.Canonical

/-!
# Paths and the items on them

Which items belong to a state can be said without states: an item is reached by the symbols on a
path if it is the initial one, is called for by a reached item, or has moved over the last symbol.
An automaton that keeps track of reached items can stand for the canonical one, whatever its states
are. The symbols of a path, like those of a stack, are listed last first.
-/
namespace ShiftReduce

variable {g : Grammar} {a : Analysis}

/-- The items that some symbols lead to. -/
inductive Reached (g : Grammar) (a : Analysis) : List Symbol → Item → Prop
  | start {accept : Nat} (chosen : g.accept = some accept) :
      Reached g a [] (.of accept 0 .endOfInput)
  | expand {γ : List Symbol} {item added : Item} (before : Reached g a γ item)
      (called : added ∈ item.expansions g a) : Reached g a γ added
  | advance {γ : List Symbol} {item : Item} {s : Symbol} (before : Reached g a γ item)
      (next : item.next? g = some s) (inner : s ≠ .endOfInput) : Reached g a (s :: γ) item.advance

namespace Item

/-- What is behind the dot, the next symbol included. -/
def rest (item : Item) (g : Grammar) : List Symbol :=
  ((item.production? g).map (·.rhs.drop item.place.dot)).getD []

variable {item : Item} {s : Symbol}

theorem rest_of_next? (next : item.next? g = some s) : item.rest g = s :: item.beyond g := by
  obtain ⟨p, found, symbol⟩ := Option.bind_eq_some_iff.mp next
  obtain ⟨bound, rfl⟩ := List.getElem?_eq_some_iff.mp symbol
  simp [rest, beyond, found]

theorem rest_of (wf : g.WellFormed) {p : Production} (member : p ∈ g.productions) (x : Symbol) :
    (Item.of p.index 0 x).rest g = p.rhs := by
  simp [rest, production?, Item.of, wf.production?_index member]

theorem next?_of_rest {β : List Symbol} (rest : item.rest g = s :: β) :
    item.next? g = some s ∧ item.beyond g = β := by
  cases found : item.production? g with
  | none => simp [Item.rest, found] at rest
  | some p =>
    have tail : p.rhs.drop item.place.dot = s :: β := by simpa [Item.rest, found] using rest
    constructor
    · simpa [next?, found] using congrArg List.head? tail
    · simpa [beyond, found] using congrArg List.tail tail

/-- The item with its dot some symbols further. -/
def skip (item : Item) (count : Nat) : Item :=
  { item with place := { item.place with dot := item.place.dot + count } }

theorem skip_advance (item : Item) (count : Nat) : item.advance.skip count = item.skip (count + 1) := by
  simp [skip, advance, Nat.add_assoc, Nat.add_comm 1]

theorem rest_advance (item : Item) (g : Grammar) : item.advance.rest g = item.beyond g := rfl

theorem known_rest (wf : g.WellFormed) (item : Item) :
    ∀ s ∈ item.rest g, ∃ name, g.Named s name := by
  intro s member
  cases found : item.production? g with
  | none => simp [Item.rest, found] at member
  | some p =>
    have listed : s ∈ p.rhs.drop item.place.dot := by simpa [Item.rest, found] using member
    exact wf.named_of_mem (Grammar.mem_of_production? found) (List.mem_of_mem_drop listed)

end Item

variable {γ : List Symbol} {item : Item}

theorem Reached.terminal (wf : g.WellFormed) (closed : a.Closed g) (reached : Reached g a γ item) :
    g.isTerminal item.lookahead := by
  induction reached with
  | start => exact wf.isTerminal_endOfInput
  | expand _ called ih =>
    obtain ⟨X, q, c, -, -, -, -, begins, rfl⟩ := (Item.mem_expansions wf).mp called
    rcases Begins.terminal_of_beginnings closed.members begins with terminal | same
    · exact terminal
    · exact Option.some.inj same ▸ ih
  | advance _ _ _ ih => exact ih

/-- A reached item starts where its dot was in front, the symbols before the dot ago. -/
theorem Reached.origin (wf : g.WellFormed) (reached : Reached g a γ item) :
    ∃ p δ, item.production? g = some p ∧ item.place.dot ≤ p.length ∧
      γ = (p.rhs.take item.place.dot).reverse ++ δ ∧
      Reached g a δ (.of item.place.production 0 item.lookahead) := by
  induction reached with
  | start chosen =>
    obtain ⟨p, -, found, -⟩ := wf.accepting _ chosen
    exact ⟨p, [], found, Nat.zero_le _, rfl, .start chosen⟩
  | @expand γ item added before called =>
    obtain ⟨_, p, c, -, -, member, -, -, rfl⟩ := (Item.mem_expansions wf).mp called
    exact ⟨p, γ, wf.production?_index member, Nat.zero_le _, rfl, .expand before called⟩
  | @advance γ item s _ next _ ih =>
    obtain ⟨p, δ, found, -, rfl, origin⟩ := ih
    have symbol : p.rhs[item.place.dot]? = some s := by simpa [Item.next?, found] using next
    refine ⟨p, δ, found, (List.getElem?_eq_some_iff.mp symbol).1, ?_, origin⟩
    change _ = (p.rhs.take (item.place.dot + 1)).reverse ++ δ
    rw [List.take_add_one, symbol]
    simp

/-- An item with the dot in front is the initial one, or some reached item calls for it. -/
theorem Reached.called {n : Nat} {x : Symbol} (reached : Reached g a γ (.of n 0 x)) :
    g.accept = some n ∧ γ = [] ∨
      ∃ item, Reached g a γ item ∧ Item.of n 0 x ∈ item.expansions g a := by
  generalize same : Item.of n 0 x = item at reached
  cases reached with
  | start chosen =>
    cases same
    exact Or.inl ⟨chosen, rfl⟩
  | expand before called => exact Or.inr ⟨_, before, called⟩
  | advance => cases same

namespace Automaton

/-- The states that the symbols of a path lead to. -/
inductive Path (m : Automaton) : List Symbol → Nat → Prop
  | start : Path m [] 0
  | step {γ : List Symbol} {s t : Nat} {X : Symbol} (before : Path m γ s)
      (edge : m.target? s X = some t) : Path m (X :: γ) t

variable {m : Automaton}

theorem Path.unique {s t : Nat} (first : m.Path γ s) (second : m.Path γ t) : s = t := by
  induction first generalizing t with
  | start =>
    cases second
    rfl
  | step _ edge ih =>
    cases second with
    | step before edge' =>
      cases ih before
      exact Option.some.inj (edge.symm.trans edge')

/-- The way to a state passes through a state for all but the last symbols. -/
theorem Path.prefix {δ : List Symbol} {t : Nat} (path : m.Path (δ ++ γ) t) : ∃ s, m.Path γ s := by
  induction δ generalizing t with
  | nil => exact ⟨t, path⟩
  | cons X δ ih =>
    cases path with
    | step before => exact ih before

/-- The states of `m` keep track of reached items: no item gets lost, and each stands for a reached
one with its dot in the same place. -/
structure Tracks (m : Automaton) (g : Grammar) (a : Analysis) : Prop where
  start : ∀ n, g.accept = some n →
    ∃ items, m.state? 0 = some items ∧ Item.of n 0 .endOfInput ∈ items
  expand : ∀ s items, m.state? s = some items → items.Closed g a
  advance : ∀ s items item X, m.state? s = some items → item ∈ items → item.next? g = some X →
    X ≠ .endOfInput → ∃ t next, m.target? s X = some t ∧ m.state? t = some next ∧
      item.advance ∈ next
  edge : ∀ s X t, m.target? s X = some t →
    X ≠ .endOfInput ∧ ∃ items, m.state? s = some items ∧ ∃ item ∈ items, item.next? g = some X
  reached : ∀ γ s items item, m.Path γ s → m.state? s = some items → item ∈ items →
    ∃ x, Reached g a γ ⟨item.place, x⟩
  terminal : ∀ s items item, m.state? s = some items → item ∈ items →
    g.isTerminal item.lookahead
  distinct : ∀ s, ((m.edgesOf s).map (·.1)).Nodup

/-- Every reached item is in the state that its path leads to. -/
theorem Tracks.holds (tracks : m.Tracks g a) (reached : Reached g a γ item) :
    ∃ s items, m.Path γ s ∧ m.state? s = some items ∧ item ∈ items := by
  induction reached with
  | start chosen =>
    obtain ⟨items, found, member⟩ := tracks.start _ chosen
    exact ⟨0, items, .start, found, member⟩
  | expand _ called ih =>
    obtain ⟨s, items, path, found, member⟩ := ih
    exact ⟨s, items, path, found, tracks.expand s items found _ member _ called⟩
  | advance _ next inner ih =>
    obtain ⟨s, items, path, found, member⟩ := ih
    obtain ⟨t, after, edge, found', moved⟩ := tracks.advance s items _ _ found member next inner
    exact ⟨t, after, path.step edge, found', moved⟩

/-- A path ends in a state with an item. -/
theorem Tracks.inhabited (tracks : m.Tracks g a) {accept : Nat} (chosen : g.accept = some accept)
    {s : Nat} (path : m.Path γ s) : ∃ items, m.state? s = some items ∧ ∃ item, item ∈ items := by
  cases path with
  | start =>
    obtain ⟨items, found, member⟩ := tracks.start _ chosen
    exact ⟨items, found, _, member⟩
  | step before edge =>
    -- the item that the last edge is for has moved along
    obtain ⟨inner, items, found, item, member, next⟩ := tracks.edge _ _ _ edge
    obtain ⟨t, after, edge', found', moved⟩ :=
      tracks.advance _ _ _ _ found member next inner
    cases edge.symm.trans edge'
    exact ⟨after, found', _, moved⟩

/-- With one edge for each symbol, the edges listed are the edges found. -/
theorem mem_edgesOf_iff {s t : Nat} {X : Symbol} (distinct : ((m.edgesOf s).map (·.1)).Nodup) :
    (X, t) ∈ m.edgesOf s ↔ m.target? s X = some t := by
  unfold target?
  generalize m.edgesOf s = row at distinct
  induction row with
  | nil => simp
  | cons edge row ih =>
    obtain ⟨Y, u⟩ := edge
    rw [List.map_cons, List.nodup_cons] at distinct
    rw [List.lookup_cons, List.mem_cons]
    -- the first edge over the symbol is the only one
    by_cases same : X = Y
    · subst same
      simp only [beq_self_eq_true, Option.some.injEq, Prod.mk.injEq, true_and]
      constructor
      · rintro (rfl | later)
        · rfl
        · exact absurd (List.mem_map_of_mem later) distinct.1
      · rintro rfl
        exact Or.inl rfl
    · have other : (X == Y) = false := by simpa using same
      simp only [other, ih distinct.2, Prod.mk.injEq, same, false_and, false_or]

theorem Tracks.mem_edgesOf_iff {s t : Nat} {X : Symbol} (tracks : m.Tracks g a) :
    (X, t) ∈ m.edgesOf s ↔ m.target? s X = some t :=
  Automaton.mem_edgesOf_iff (tracks.distinct s)

/-- A symbol on an edge is behind some dot, so that it is in a production. -/
theorem Tracks.named {s t : Nat} {X : Symbol} (tracks : m.Tracks g a) (wf : g.WellFormed)
    (edge : m.target? s X = some t) : ∃ name, g.Named X name := by
  obtain ⟨-, items, -, item, -, next⟩ := tracks.edge s X t edge
  obtain ⟨p, production, symbol⟩ := Option.bind_eq_some_iff.mp next
  exact wf.named_of_mem (Grammar.mem_of_production? production) (List.mem_of_getElem? symbol)

/-! ## The canonical automaton -/

section Canonical

variable {accept : Nat} (canonical : m.Canonical g a accept)

include canonical

theorem Canonical.edges_nodup (s : Nat) : ((m.edgesOf s).map (·.1)).Nodup := by
  cases found : m.state? s with
  | none =>
    have outside : m.edges[s]? = none := by
      rw [List.getElem?_eq_none_iff, canonical.rows]
      exact List.getElem?_eq_none_iff.mp found
    simp [edgesOf, outside]
  | some items =>
    rw [canonical.symbols s items found]
    exact (OrderedSet.nodup _).filter _

/-- There is an edge for every symbol behind a dot, but for the end of the input. -/
theorem Canonical.exists_edge {s : Nat} {items : ItemSet} {X : Symbol}
    (found : m.state? s = some items) (outgoing : X ∈ items.outgoing g) (inner : X ≠ .endOfInput) :
    ∃ t, (X, t) ∈ m.edgesOf s := by
  have listed : X ∈ (m.edgesOf s).map (·.1) := by
    rw [canonical.symbols s items found, List.mem_filter]
    exact ⟨outgoing, by simpa using inner⟩
  obtain ⟨⟨Y, t⟩, edge, rfl⟩ := List.mem_map.mp listed
  exact ⟨t, edge⟩

/-- An edge leads over a symbol behind a dot to the item set one step further. -/
theorem Canonical.target?_iff {s t : Nat} {X : Symbol} : m.target? s X = some t ↔
    ∃ items, m.state? s = some items ∧ X ∈ items.outgoing g ∧ X ≠ .endOfInput ∧
      m.state? t = some (items.goto g a X) := by
  rw [← mem_edgesOf_iff (canonical.edges_nodup s)]
  constructor
  · intro edge
    have bound : s < m.states.length := by
      rw [← canonical.rows]
      by_contra outside
      rw [edgesOf, List.getElem?_eq_none (by omega)] at edge
      cases edge
    have found : m.state? s = some m.states[s] := List.getElem?_eq_getElem bound
    have listed : X ∈ (m.edgesOf s).map (·.1) := List.mem_map_of_mem edge
    rw [canonical.symbols s _ found, List.mem_filter] at listed
    exact ⟨_, found, listed.1, by simpa using listed.2, canonical.target s _ X t found edge⟩
  · rintro ⟨items, found, outgoing, inner, there⟩
    obtain ⟨u, edge⟩ := canonical.exists_edge found outgoing inner
    have same := canonical.target s items X u found edge
    -- states are different item sets, so the edge leads to `t` itself
    have bound := (List.getElem?_eq_some_iff.mp there).1
    cases (List.getElem?_inj bound canonical.distinct).mp (there.trans same.symm)
    exact edge

/-- The canonical automaton holds exactly the reached items. -/
theorem Canonical.reached {s : Nat} {items : ItemSet} (path : m.Path γ s)
    (chosen : g.accept = some accept) (found : m.state? s = some items) :
    ∀ item ∈ items, Reached g a γ item := by
  induction path generalizing items with
  | start =>
    cases canonical.start.symm.trans found
    -- closing adds nothing but what reached items call for
    apply ItemSet.closure_induction
    · intro item member
      rw [List.mem_singleton.mp member]
      exact .start chosen
    · exact fun item reached added called => .expand reached called
  | step _ edge ih =>
    obtain ⟨before, found', -, inner, there⟩ := canonical.target?_iff.mp edge
    cases there.symm.trans found
    apply ItemSet.closure_induction
    · intro item moved
      obtain ⟨item, member, next, rfl⟩ := ItemSet.mem_kernel.mp moved
      exact .advance (ih found' item member) next inner
    · exact fun item reached added called => .expand reached called

theorem Canonical.tracks (wf : g.WellFormed) (chosen : g.accept = some accept) : m.Tracks g a where
  start n same := by
    cases chosen.symm.trans same
    exact ⟨_, canonical.start, ItemSet.mem_closure_of_mem wf (List.mem_singleton.mpr rfl)⟩
  expand s items found := (canonical.complete items (List.mem_of_getElem? found)).closed
  advance s items item X found member next inner := by
    have outgoing : X ∈ items.outgoing g := ItemSet.mem_outgoing.mpr ⟨item, member, next⟩
    obtain ⟨t, edge⟩ := canonical.exists_edge found outgoing inner
    exact ⟨t, _, (mem_edgesOf_iff (canonical.edges_nodup s)).mp edge,
      canonical.target s items X t found edge, ItemSet.advance_mem_goto wf member next⟩
  edge s X t edge := by
    obtain ⟨items, found, outgoing, inner, -⟩ := canonical.target?_iff.mp edge
    obtain ⟨item, member, next⟩ := ItemSet.mem_outgoing.mp outgoing
    exact ⟨inner, items, found, item, member, next⟩
  reached γ s items item path found member :=
    ⟨item.lookahead, canonical.reached path chosen found item member⟩
  terminal s items item found :=
    (canonical.complete items (List.mem_of_getElem? found)).terminal item
  distinct := canonical.edges_nodup

end Canonical

end Automaton

end ShiftReduce
