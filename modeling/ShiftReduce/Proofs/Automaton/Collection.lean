import ShiftReduce.Proofs.Automaton.Paths
import ShiftReduce.Proofs.Grammar.Augmentation

/-!
# The collection is complete and minimal

Exploration ends when every state has been looked at. A state is added for an edge from the state
being looked at, which is an older one, so there is a path to each state and none is empty.
-/
namespace ShiftReduce

namespace Automaton

variable {g : Grammar} {a : Analysis} {states : List ItemSet} {edges : List (List (Symbol × Nat))}

/-- Exploring to the end: the states are looked at in order, until there is none without its edges.
States that are new among the targets go behind the others. -/
inductive Explores (g : Grammar) (a : Analysis) : List ItemSet → List (List (Symbol × Nat)) →
    List ItemSet → List (List (Symbol × Nat)) → Prop
  | done {states : List ItemSet} {edges : List (List (Symbol × Nat))}
      (finished : states.length ≤ edges.length) : Explores g a states edges states edges
  | look {states more found : List ItemSet} {edges known : List (List (Symbol × Nat))}
      {items : ItemSet} {row : List (Symbol × Nat)} (next : states[edges.length]? = some items)
      (connected : connect (successors g a items) states = (row, more))
      (later : Explores g a more (edges ++ [row]) found known) :
      Explores g a states edges found known

/-- If exploration within a budget leaves no state without its edges, it came to an end. -/
theorem explores_explore (budget : Nat) (full : (explore g a budget states edges).1.length ≤
    (explore g a budget states edges).2.length) : Explores g a states edges
      (explore g a budget states edges).1 (explore g a budget states edges).2 := by
  induction budget generalizing states edges with
  | zero => exact .done full
  | succ budget ih =>
    rw [explore] at full ⊢
    split at full
    next finished => exact .done (List.getElem?_eq_none_iff.mp finished)
    next items next => exact .look next rfl (ih full)

/-! ## How states are entered -/

/-- Every state but the first has an edge from an older one. -/
def Entered (states : List ItemSet) (edges : List (List (Symbol × Nat))) : Prop :=
  ∀ t, 0 < t → t < states.length → ∃ s row X, s < t ∧ edges[s]? = some row ∧ (X, t) ∈ row

theorem locate_of_new {items : ItemSet} {t : Nat} (new : states.length ≤ t)
    (bound : t < (locate states items).2.length) : (locate states items).1 = t := by
  unfold locate at bound ⊢
  split at bound
  · dsimp only at bound
    omega
  · simp only [List.length_append, List.length_singleton] at bound
    dsimp only
    omega

/-- A state that one row adds has an edge in this row. -/
theorem exists_edge_of_new (targets : List (Symbol × ItemSet)) {t : Nat} (new : states.length ≤ t)
    (bound : t < (connect targets states).2.length) : ∃ X, (X, t) ∈ (connect targets states).1 := by
  induction targets generalizing states with
  | nil => exact absurd bound (Nat.not_lt.mpr new)
  | cons target rest ih =>
    obtain ⟨X, items⟩ := target
    by_cases first : t < (locate states items).2.length
    · have edge : (X, t) ∈ (connect ((X, items) :: rest) states).1 := by
        rw [← locate_of_new new first]
        exact List.mem_cons_self
      exact ⟨X, edge⟩
    · obtain ⟨Y, edge⟩ := ih (Nat.le_of_not_lt first) bound
      exact ⟨Y, List.mem_cons_of_mem _ edge⟩

theorem Explores.entered {found : List ItemSet} {known : List (List (Symbol × Nat))}
    (explores : Explores g a states edges found known) (entered : Entered states edges) :
    Entered found known := by
  induction explores with
  | done => exact entered
  | @look states more _ edges _ items row next connected _ ih =>
    refine ih fun t positive bound => ?_
    by_cases old : t < states.length
    · obtain ⟨s, row, X, less, here, edge⟩ := entered t positive old
      exact ⟨s, row, X, less, by
        rw [List.getElem?_append_left (List.getElem?_eq_some_iff.mp here).1, here], edge⟩
    · -- a new state is behind the one that is looked at
      have looked := (List.getElem?_eq_some_iff.mp next).1
      obtain ⟨X, edge⟩ := exists_edge_of_new (successors g a items) (Nat.le_of_not_lt old)
        (by rw [connected]; exact bound)
      rw [connected] at edge
      exact ⟨edges.length, row, X, by omega, by simp, edge⟩

variable {m : Automaton} {accept : Nat}

/-- Following such edges back leads to state 0. -/
theorem exists_path (entered : Entered m.states m.edges)
    (single : ∀ s, ((m.edgesOf s).map (·.1)).Nodup) (t : Nat) (bound : t < m.size) :
    ∃ γ, m.Path γ t := by
  induction t using Nat.strongRecOn with
  | ind t ih =>
    rcases Nat.eq_zero_or_pos t with rfl | positive
    · exact ⟨[], .start⟩
    · obtain ⟨s, row, X, less, here, edge⟩ := entered t positive bound
      obtain ⟨γ, path⟩ := ih s less (Nat.lt_trans less bound)
      have listed : (X, t) ∈ m.edgesOf s := by rwa [edgesOf, here]
      exact ⟨X :: γ, path.step ((mem_edgesOf_iff (single s)).mp listed)⟩

/-! ## The collection -/

/-- The states of `m` are the item sets that the initial one leads to, each of them once. -/
structure IsCollection (m : Automaton) (g : Grammar) (a : Analysis) (accept : Nat) : Prop where
  start : m.state? 0 = some (.closure g a [.of accept 0 .endOfInput])
  distinct : m.states.Nodup
  inhabited : ∀ items ∈ m.states, ∃ item, item ∈ items
  /-- For every symbol behind a dot, but for the end of the input, there is one edge, to the item set
  one step further. -/
  step : ∀ s items X, m.state? s = some items → X ≠ .endOfInput →
    (∃ item ∈ items, item.next? g = some X) →
      ∃ t, m.state? t = some (items.goto g a X) ∧ ∀ u, (X, u) ∈ m.edgesOf s ↔ u = t
  /-- There are no other edges. -/
  edge : ∀ s X t, (X, t) ∈ m.edgesOf s → X ≠ .endOfInput ∧
    ∃ items, m.state? s = some items ∧ ∃ item ∈ items, item.next? g = some X
  /-- Each of them is listed once. -/
  single : ∀ s, ((m.edgesOf s).map (·.1)).Nodup
  rows : m.edges.length = m.size
  reachable : ∀ s < m.size, ∃ γ, m.Path γ s
  dotted : ∀ items ∈ m.states, ∀ item ∈ items,
    ∃ p, item.production? g = some p ∧ item.place.dot ≤ p.length

theorem Canonical.isCollection (canonical : m.Canonical g a accept) (wf : g.WellFormed)
    (chosen : g.accept = some accept) (entered : Entered m.states m.edges) :
    m.IsCollection g a accept := by
  have tracks := canonical.tracks wf chosen
  have reachable := exists_path entered canonical.edges_nodup
  refine ⟨canonical.start, canonical.distinct, ?inhabited, ?step, ?edge, canonical.edges_nodup,
    canonical.rows, reachable, ?dotted⟩
  case inhabited =>
    intro items member
    obtain ⟨s, bound, rfl⟩ := List.getElem_of_mem member
    obtain ⟨γ, path⟩ := reachable s bound
    obtain ⟨items, found, inhabited⟩ := tracks.inhabited chosen path
    cases found.symm.trans (List.getElem?_eq_getElem bound)
    exact inhabited
  case step =>
    intro s items X found inner moves
    obtain ⟨t, edge⟩ := canonical.exists_edge found (ItemSet.mem_outgoing.mpr moves) inner
    refine ⟨t, canonical.target s items X t found edge, fun u => ?_⟩
    rw [tracks.mem_edgesOf_iff] at edge ⊢
    rw [edge, Option.some.injEq, eq_comm]
  case edge => exact fun s X t edge => tracks.edge s X t (tracks.mem_edgesOf_iff.mp edge)
  case dotted =>
    exact fun items member item => (canonical.complete items member).exists_production wf

/-- Exploration ends with the canonical automaton, whose states but the first are entered from older
ones. -/
theorem explores_canonical (wf : g.WellFormed) (closed : a.Closed g) (chosen : g.accept = some accept) :
    Explores g a [initialState g a accept] [] (canonical g a accept).states
      (canonical g a accept).edges ∧
    Entered (canonical g a accept).states (canonical g a accept).edges := by
  have rows := (canonical_spec wf closed chosen).rows
  rw [canonical_eq] at rows ⊢
  have explores := explores_explore (stateBudget g) (Nat.le_of_eq rows.symm)
  refine ⟨explores, explores.entered fun t positive bound => ?_⟩
  rw [List.length_singleton] at bound
  omega

end Automaton

/-- The canonical collection: exploring an augmented grammar comes to an end, and so do the closures
that it takes. The states found are different item sets with items in them, each has one edge for
every symbol behind a dot but the end of the input, to the item set one step further, and no other,
and there is a path to each of them. -/
theorem Grammar.Built.canonical_complete {g : Grammar} (built : g.Built) {accept : Nat}
    (chosen : g.accept = some accept) :
    Automaton.Explores g g.analysis [.closure g g.analysis [.of accept 0 .endOfInput]] []
      (Automaton.canonical g g.analysis accept).states
      (Automaton.canonical g g.analysis accept).edges ∧
    (∀ seed, ItemSet.Saturates g g.analysis (OrderedSet.ofList seed : ItemSet).toList
      (OrderedSet.ofList seed) (.closure g g.analysis seed)) ∧
    (Automaton.canonical g g.analysis accept).IsCollection g g.analysis accept := by
  have wf := built.wellFormed
  have closed := Begins.analysis_closed wf
  obtain ⟨explores, entered⟩ := Automaton.explores_canonical wf closed chosen
  exact ⟨explores, ItemSet.saturates_closure wf g.analysis,
    (Automaton.canonical_spec wf closed chosen).isCollection wf chosen entered⟩

/-- The grammar `S -> S S | a`, augmented, has four states, and a path to each. -/
theorem Grammar.doubled_canonical_complete : doubled.augment.2.Built ∧
    doubled.augment.2.accept = some 2 ∧
    (Automaton.canonical doubled.augment.2 doubled.augment.2.analysis 2).size = 4 ∧
    ∀ s < 4, ∃ γ, (Automaton.canonical doubled.augment.2 doubled.augment.2.analysis 2).Path γ s := by
  have chosen : doubled.augment.2.accept = some 2 := by decide +kernel
  obtain ⟨-, -, collection⟩ := doubled_built.augment.canonical_complete chosen
  have size : (Automaton.canonical doubled.augment.2 doubled.augment.2.analysis 2).size = 4 := by
    decide +kernel
  refine ⟨doubled_built.augment, chosen, size, fun s bound => collection.reachable s ?_⟩
  rwa [size]

end ShiftReduce
