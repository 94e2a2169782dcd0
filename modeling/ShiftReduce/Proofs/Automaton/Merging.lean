import Mathlib.Data.List.Basic
import ShiftReduce.Automaton.Merging
import ShiftReduce.Proofs.Automaton.Paths

/-!
# Merged states

States that share a core agree on where their edges lead, up to the cores of the targets. So every
path of the merged automaton is one of the canonical automaton, and merging keeps track of reached
items, their lookaheads aside.
-/
namespace ShiftReduce

variable {g : Grammar} {a : Analysis}

/-! ## Cores -/

namespace ItemSet

/-- Every place of `items` is a place of `others`. -/
def Within (items others : ItemSet) : Prop := ∀ item ∈ items, ∃ x, (⟨item.place, x⟩ : Item) ∈ others

theorem within_of_core {items others : ItemSet} (same : items.core = others.core) :
    items.Within others := by
  intro item member
  have place : item.place ∈ others.core := same ▸ mem_core.mpr ⟨item, member, rfl⟩
  obtain ⟨other, there, equal⟩ := mem_core.mp place
  exact ⟨other.lookahead, equal ▸ there⟩

theorem core_of_within {items others : ItemSet} (first : items.Within others)
    (second : others.Within items) : items.core = others.core := by
  apply OrderedSet.ext
  intro place
  rw [mem_core, mem_core]
  constructor
  · rintro ⟨item, member, rfl⟩
    obtain ⟨x, there⟩ := first item member
    exact ⟨_, there, rfl⟩
  · rintro ⟨item, member, rfl⟩
    obtain ⟨x, there⟩ := second item member
    exact ⟨_, there, rfl⟩

/-- Which initial items an item calls for depends on its lookahead only as far as theirs do. -/
theorem expansions_within (wf : g.WellFormed) {item added : Item}
    (called : added ∈ item.expansions g a) (x : Symbol) :
    ∃ y, (⟨added.place, y⟩ : Item) ∈ (⟨item.place, x⟩ : Item).expansions g a := by
  obtain ⟨s, p, c, next, nonterminal, member, lhs, begins, rfl⟩ :=
    (Item.mem_expansions wf).mp called
  have next' : (⟨item.place, x⟩ : Item).next? g = some s := next
  -- what follows the symbol is the same; if it can be empty, `x` is ahead of the new item
  rcases Begins.mem_beginnings_some.mp begins with first | ⟨nullable, -⟩
  · exact ⟨c, (Item.mem_expansions wf).mpr ⟨s, p, c, next', nonterminal, member, lhs,
      Begins.mem_beginnings_some.mpr (Or.inl first), rfl⟩⟩
  · exact ⟨x, (Item.mem_expansions wf).mpr ⟨s, p, x, next', nonterminal, member, lhs,
      Begins.mem_beginnings_some.mpr (Or.inr ⟨nullable, rfl⟩), rfl⟩⟩

theorem Within.goto (wf : g.WellFormed) {items others : ItemSet} (within : items.Within others)
    (s : Symbol) : (items.goto g a s).Within (others.goto g a s) := by
  apply closure_induction
  · intro item moved
    obtain ⟨before, member, next, rfl⟩ := mem_kernel.mp moved
    obtain ⟨x, there⟩ := within before member
    exact ⟨x, advance_mem_goto wf there next⟩
  · rintro item ⟨x, there⟩ added called
    obtain ⟨y, called⟩ := expansions_within wf called x
    exact ⟨y, closure_closed wf a _ _ there _ called⟩

theorem core_goto (wf : g.WellFormed) {items others : ItemSet} (same : items.core = others.core)
    (s : Symbol) : (items.goto g a s).core = (others.goto g a s).core :=
  core_of_within ((within_of_core same).goto wf s) ((within_of_core same.symm).goto wf s)

theorem Within.outgoing {items others : ItemSet} (within : items.Within others) {s : Symbol}
    (leads : s ∈ items.outgoing g) : s ∈ others.outgoing g := by
  obtain ⟨item, member, next⟩ := mem_outgoing.mp leads
  obtain ⟨x, there⟩ := within item member
  exact mem_outgoing.mpr ⟨_, there, next⟩

end ItemSet

namespace Automaton

/-! ## Members of the merged automaton -/

/-- The canonical state `s` went into the merged state `k`. -/
def Joins (m : Automaton) (s k : Nat) : Prop := (coreNumbers m.states)[s]? = some k

variable {m : Automaton} {s t k : Nat} {items others : ItemSet}

theorem joins_iff : m.Joins s k ↔
    ∃ items, m.state? s = some items ∧ (cores m.states).idxOf items.core = k := by
  simp [Joins, coreNumbers, state?]

theorem core_mem_cores (found : m.state? s = some items) : items.core ∈ cores m.states :=
  List.mem_eraseDups.mpr (List.mem_map_of_mem (List.mem_of_getElem? found))

theorem Joins.same_core (first : m.Joins s k) (second : m.Joins t k)
    (foundS : m.state? s = some items) (foundT : m.state? t = some others) :
    items.core = others.core := by
  obtain ⟨_, atS, rfl⟩ := joins_iff.mp first
  obtain ⟨_, atT, equal⟩ := joins_iff.mp second
  cases foundS.symm.trans atS
  cases foundT.symm.trans atT
  exact (List.idxOf_inj (core_mem_cores foundS)).mp equal.symm

theorem Joins.of_core (first : m.Joins s k) (foundS : m.state? s = some items)
    (foundT : m.state? t = some others) (same : items.core = others.core) : m.Joins t k := by
  obtain ⟨_, atS, rfl⟩ := joins_iff.mp first
  cases foundS.symm.trans atS
  exact joins_iff.mpr ⟨others, foundT, by rw [same]⟩

theorem Joins.lt (joins : m.Joins s k) : k < (cores m.states).length := by
  obtain ⟨items, found, rfl⟩ := joins_iff.mp joins
  exact List.idxOf_lt_length_iff.mpr (core_mem_cores found)

theorem exists_joins (found : m.state? s = some items) : ∃ k, m.Joins s k :=
  ⟨_, joins_iff.mpr ⟨items, found, rfl⟩⟩

theorem joins_zero (found : m.state? 0 = some items) : m.Joins 0 0 := by
  refine joins_iff.mpr ⟨items, found, ?_⟩
  obtain ⟨rest, states⟩ : ∃ rest, m.states = items :: rest := by
    rw [state?] at found
    cases listed : m.states with
    | nil => simp [listed] at found
    | cons first rest => exact ⟨rest, by simpa [listed] using found⟩
  rw [states, cores, List.map_cons, List.eraseDups_cons, List.idxOf_cons_self]

theorem mem_numbered {α : Type} {x : α} {members : List α} {numbers : List Nat} :
    x ∈ numbered members numbers k ↔ ∃ i : Nat, members[i]? = some x ∧ numbers[i]? = some k := by
  simp only [numbered, List.mem_map, List.mem_filter, decide_eq_true_eq]
  constructor
  · rintro ⟨⟨_, _⟩, ⟨member, rfl⟩, rfl⟩
    obtain ⟨i, found⟩ := List.getElem?_of_mem member
    exact ⟨i, List.getElem?_zip_eq_some.mp found⟩
  · rintro ⟨i, found⟩
    exact ⟨(x, k), ⟨List.mem_of_getElem? (List.getElem?_zip_eq_some.mpr found), rfl⟩, rfl⟩

theorem mem_unite {states : List ItemSet} {item : Item} :
    item ∈ unite states ↔ ∃ items ∈ states, item ∈ items := by
  -- the fold starts from any set, so that the induction goes through
  have gathered (states : List ItemSet) (known : ItemSet) :
      item ∈ states.foldl (· ∪ ·) known ↔ item ∈ known ∨ ∃ items ∈ states, item ∈ items := by
    induction states generalizing known with
    | nil => simp
    | cons first rest ih => rw [List.foldl_cons, ih]; simp [or_assoc]
  rw [unite, gathered]
  simp

theorem merge_state? : m.merge.state? k = if k < (cores m.states).length then
    some (unite (numbered m.states (coreNumbers m.states) k)) else none := by
  simp only [merge, state?, List.getElem?_map]
  split <;> simp_all

/-- A merged state holds the items of the states that went into it. -/
theorem mem_merge {united : ItemSet} (found : m.merge.state? k = some united) {item : Item} :
    item ∈ united ↔ ∃ s items, m.Joins s k ∧ m.state? s = some items ∧ item ∈ items := by
  rw [merge_state?] at found
  split at found
  · cases found
    rw [mem_unite]
    simp only [mem_numbered]
    constructor
    · rintro ⟨items, ⟨s, found, number⟩, member⟩
      exact ⟨s, items, number, found, member⟩
    · rintro ⟨s, items, number, found, member⟩
      exact ⟨items, ⟨s, found, number⟩, member⟩
  · cases found

theorem Joins.merge_state? (joins : m.Joins s k) : ∃ united, m.merge.state? k = some united :=
  ⟨_, by rw [Automaton.merge_state?, if_pos joins.lt]⟩

/-! ## Edges of the merged automaton -/

theorem merge_edgesOf (bound : k < (cores m.states).length) : m.merge.edgesOf k =
    uniteEdges (coreNumbers m.states) (numbered m.edges (coreNumbers m.states) k) := by
  simp [merge, edgesOf, bound]

theorem merge_edgesOf_of_le (outside : (cores m.states).length ≤ k) : m.merge.edgesOf k = [] := by
  simp [merge, edgesOf, outside]

theorem uniteEdges_nodup (numbers : List Nat) (rows : List (List (Symbol × Nat))) :
    ((uniteEdges numbers rows).map (·.1)).Nodup := by
  -- each symbol gives at most one edge, over itself
  have sublist (symbols : List Symbol) (edge : Symbol → Option (Symbol × Nat))
      (keeps : ∀ s e, edge s = some e → e.1 = s) :
      ((symbols.filterMap edge).map (·.1)).Sublist symbols := by
    induction symbols with
    | nil => exact .slnil
    | cons s rest ih =>
      cases found : edge s with
      | none => rw [List.filterMap_cons_none found]; exact ih.cons _
      | some e =>
        rw [List.filterMap_cons_some found, List.map_cons, keeps s e found]
        exact ih.cons_cons _
  refine (OrderedSet.nodup _).sublist (sublist _ _ fun s e found => ?_)
  obtain ⟨target, -, found⟩ := Option.bind_eq_some_iff.mp found
  obtain ⟨_, -, rfl⟩ := Option.map_eq_some_iff.mp found
  rfl

theorem merge_edges_nodup (k : Nat) : ((m.merge.edgesOf k).map (·.1)).Nodup := by
  by_cases bound : k < (cores m.states).length
  · rw [merge_edgesOf bound]
    exact uniteEdges_nodup _ _
  · rw [merge_edgesOf_of_le (Nat.le_of_not_lt bound)]
    exact List.nodup_nil

theorem mem_of_lookup {row : List (Symbol × Nat)} {X : Symbol} (found : row.lookup X = some t) :
    (X, t) ∈ row := by
  obtain ⟨before, after, rfl, -⟩ := List.lookup_eq_some_iff.mp found
  simp

theorem mem_uniteEdges {numbers : List Nat} {rows : List (List (Symbol × Nat))} {X : Symbol} :
    (X, t) ∈ uniteEdges numbers rows ↔
      ∃ target, rows.flatten.lookup X = some target ∧ numbers[target]? = some t := by
  simp only [uniteEdges, List.mem_filterMap, ← OrderedSet.mem_def, OrderedSet.mem_ofList,
    Option.bind_eq_some_iff, Option.map_eq_some_iff]
  constructor
  · rintro ⟨_, -, target, found, _, number, ⟨⟩⟩
    exact ⟨target, found, number⟩
  · rintro ⟨target, found, number⟩
    refine ⟨X, ?_, target, found, t, number, rfl⟩
    exact List.mem_map_of_mem (mem_of_lookup found)

/-! ## Merging the canonical automaton -/

section Canonical

variable {accept : Nat} (canonical : m.Canonical g a accept) (wf : g.WellFormed)

include canonical

theorem Canonical.mem_rows {X : Symbol} :
    (X, t) ∈ (numbered m.edges (coreNumbers m.states) k).flatten ↔
      ∃ s, m.Joins s k ∧ m.target? s X = some t := by
  rw [List.mem_flatten]
  simp only [mem_numbered]
  constructor
  · rintro ⟨row, ⟨s, found, joins⟩, edge⟩
    refine ⟨s, joins, (mem_edgesOf_iff (canonical.edges_nodup s)).mp ?_⟩
    rwa [edgesOf, found]
  · rintro ⟨s, joins, edge⟩
    have edge := (mem_edgesOf_iff (canonical.edges_nodup s)).mpr edge
    rw [edgesOf] at edge
    cases found : m.edges[s]? with
    | none => simp [found] at edge
    | some row => exact ⟨row, ⟨s, found, joins⟩, by simpa [found] using edge⟩

/-- States that join have edges over the same symbols. -/
theorem Canonical.joins_edge {s' : Nat} {X : Symbol} (first : m.Joins s k) (second : m.Joins s' k)
    (edge : m.target? s X = some t) : ∃ t', m.target? s' X = some t' := by
  obtain ⟨items, found, outgoing, inner, -⟩ := canonical.target?_iff.mp edge
  obtain ⟨others, found', -⟩ := joins_iff.mp second
  have same := first.same_core second found found'
  have leads : X ∈ others.outgoing g := (ItemSet.within_of_core same).outgoing outgoing
  obtain ⟨t', edge'⟩ := canonical.exists_edge found' leads inner
  exact ⟨t', (mem_edgesOf_iff (canonical.edges_nodup s')).mp edge'⟩

theorem Canonical.merge_target {X : Symbol} (edge : m.merge.target? k X = some t) :
    ∃ s t', m.Joins s k ∧ m.target? s X = some t' ∧ m.Joins t' t := by
  have listed := (mem_edgesOf_iff (merge_edges_nodup k)).mpr edge
  by_cases bound : k < (cores m.states).length
  · rw [merge_edgesOf bound] at listed
    obtain ⟨target, found, joins⟩ := mem_uniteEdges.mp listed
    obtain ⟨s, joinsS, edge⟩ := canonical.mem_rows.mp (mem_of_lookup found)
    exact ⟨s, target, joinsS, edge, joins⟩
  · rw [merge_edgesOf_of_le (Nat.le_of_not_lt bound)] at listed
    cases listed

include wf

/-- Edges from states with the same core lead to states with the same core. -/
theorem Canonical.joins_target {s' t' k' : Nat} {X : Symbol} (first : m.Joins s k)
    (second : m.Joins s' k) (edge : m.target? s X = some t) (edge' : m.target? s' X = some t')
    (joins : m.Joins t k') : m.Joins t' k' := by
  obtain ⟨items, found, -, -, target⟩ := canonical.target?_iff.mp edge
  obtain ⟨others, found', -, -, target'⟩ := canonical.target?_iff.mp edge'
  exact joins.of_core target target' (ItemSet.core_goto wf (first.same_core second found found') X)

theorem Canonical.target_merge {X : Symbol} (joins : m.Joins s k) (edge : m.target? s X = some t) :
    ∃ t', m.Joins t t' ∧ m.merge.target? k X = some t' := by
  have listed := canonical.mem_rows.mpr ⟨s, joins, edge⟩
  cases found : (numbered m.edges (coreNumbers m.states) k).flatten.lookup X with
  | none =>
    rw [List.lookup_eq_none_iff] at found
    simpa using found _ listed
  | some target =>
    -- the edge kept may be that of another state with the same core
    obtain ⟨s', joins', edge'⟩ := canonical.mem_rows.mp (mem_of_lookup found)
    obtain ⟨_, -, -, -, there⟩ := canonical.target?_iff.mp edge
    obtain ⟨t', joinsT⟩ := exists_joins there
    refine ⟨t', joinsT, (mem_edgesOf_iff (merge_edges_nodup k)).mp ?_⟩
    rw [merge_edgesOf joins.lt]
    exact mem_uniteEdges.mpr ⟨target, found, canonical.joins_target wf joins joins' edge edge' joinsT⟩

/-- Every path of the merged automaton is one of the canonical automaton. -/
theorem Canonical.path_of_merge {γ : List Symbol} (path : m.merge.Path γ k) :
    ∃ s, m.Path γ s ∧ m.Joins s k := by
  induction path with
  | start => exact ⟨0, .start, joins_zero canonical.start⟩
  | step _ edge ih =>
    obtain ⟨s, path, joins⟩ := ih
    -- the merged edge comes from some state of the same core as the one on the path
    obtain ⟨s', t', joins', edge', joinsT⟩ := canonical.merge_target edge
    obtain ⟨t, edge⟩ := canonical.joins_edge joins' joins edge'
    exact ⟨t, path.step edge, canonical.joins_target wf joins' joins edge' edge joinsT⟩

theorem Canonical.tracks_merge (chosen : g.accept = some accept) : m.merge.Tracks g a := by
  have tracks := canonical.tracks wf chosen
  refine ⟨?start, ?expand, ?advance, ?edge, ?reached, ?terminal, merge_edges_nodup⟩
  case start =>
    intro n same
    obtain ⟨items, found, member⟩ := tracks.start n same
    have joins := joins_zero found
    obtain ⟨united, there⟩ := joins.merge_state?
    exact ⟨united, there, (mem_merge there).mpr ⟨0, items, joins, found, member⟩⟩
  case expand =>
    intro k united there item member added called
    obtain ⟨s, items, joins, found, member⟩ := (mem_merge there).mp member
    exact (mem_merge there).mpr
      ⟨s, items, joins, found, tracks.expand s items found item member added called⟩
  case advance =>
    intro k united item X there member next inner
    obtain ⟨s, items, joins, found, member⟩ := (mem_merge there).mp member
    obtain ⟨t, after, edge, found', moved⟩ := tracks.advance s items item X found member next inner
    obtain ⟨t', joinsT, edge'⟩ := canonical.target_merge wf joins edge
    obtain ⟨united', there'⟩ := joinsT.merge_state?
    exact ⟨t', united', edge', there', (mem_merge there').mpr ⟨t, after, joinsT, found', moved⟩⟩
  case edge =>
    intro k X t edge
    obtain ⟨s, t', joins, edge', -⟩ := canonical.merge_target edge
    obtain ⟨inner, items, found, item, member, next⟩ := tracks.edge s X t' edge'
    obtain ⟨united, there⟩ := joins.merge_state?
    exact ⟨inner, united, there, item, (mem_merge there).mpr ⟨s, items, joins, found, member⟩, next⟩
  case reached =>
    intro γ k united item path there member
    obtain ⟨s, path, joins⟩ := canonical.path_of_merge wf path
    -- the item may come from another state than the path, but both have its place
    obtain ⟨s', items, joins', found, member⟩ := (mem_merge there).mp member
    obtain ⟨others, found', -⟩ := joins_iff.mp joins
    obtain ⟨x, here⟩ :=
      ItemSet.within_of_core (joins'.same_core joins found found') item member
    exact ⟨x, canonical.reached path chosen found' _ here⟩
  case terminal =>
    intro k united item there member
    obtain ⟨s, items, -, found, member⟩ := (mem_merge there).mp member
    exact tracks.terminal s items item found member

end Canonical

/-! ## The automata of a grammar -/

/-- No dot is beyond the end of its right-hand side. -/
def Dotted (m : Automaton) (g : Grammar) : Prop :=
  ∀ n items item p, m.state? n = some items → item ∈ items → item.production? g = some p →
    item.place.dot ≤ p.length

theorem Canonical.dotted {accept : Nat} (canonical : m.Canonical g a accept) (wf : g.WellFormed) :
    m.Dotted g := by
  intro n items item p found member production
  have complete := canonical.complete items (List.mem_of_getElem? found)
  obtain ⟨q, production', dot⟩ := complete.exists_production wf member
  cases production'.symm.trans production
  exact dot

theorem Dotted.merge (dotted : m.Dotted g) : m.merge.Dotted g := by
  intro n united item p there member production
  obtain ⟨s, items, -, found, member⟩ := (mem_merge there).mp member
  exact dotted s items item p found member production

theorem ofGrammar_spec (wf : g.WellFormed) {accept : Nat} (chosen : g.accept = some accept)
    (lalr : Bool) : ∃ m, ofGrammar g g.analysis lalr = .ok m ∧ m.Tracks g g.analysis ∧ m.Dotted g := by
  have canonical := canonical_spec wf (Begins.analysis_closed wf) chosen
  refine ⟨_, by rw [ofGrammar, chosen], ?_⟩
  split
  · exact ⟨canonical.tracks_merge wf chosen, (canonical.dotted wf).merge⟩
  · exact ⟨canonical.tracks wf chosen, canonical.dotted wf⟩

end Automaton

end ShiftReduce
