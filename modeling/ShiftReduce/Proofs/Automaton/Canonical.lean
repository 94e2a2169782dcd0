import Mathlib.Data.Finset.Powerset
import ShiftReduce.Automaton.Canonical
import ShiftReduce.Proofs.Automaton.Closure

/-!
# The canonical collection

Exploration ends with a row of edges for every state, because states are different sets of the same
finitely many items. Each edge leads to the item set one step further.
-/
namespace ShiftReduce.Automaton

variable {g : Grammar} {a : Analysis} {states : List ItemSet} {items : ItemSet}

/-! ## One row of edges -/

/-- The edges of `row` lead, one by one, to the states listed in `targets`. -/
def Describes (states : List ItemSet) (row : List (Symbol × Nat))
    (targets : List (Symbol × ItemSet)) : Prop :=
  List.Forall₂ (fun edge target => edge.1 = target.1 ∧ states[edge.2]? = some target.2) row targets

theorem Describes.append {row : List (Symbol × Nat)} {targets : List (Symbol × ItemSet)}
    (described : Describes states row targets) (new : List ItemSet) :
    Describes (states ++ new) row targets := by
  refine described.imp fun edge target ⟨symbol, found⟩ => ⟨symbol, ?_⟩
  rw [List.getElem?_append_left (List.getElem?_eq_some_iff.mp found).1, found]

theorem Describes.symbols {row : List (Symbol × Nat)} {targets : List (Symbol × ItemSet)}
    (described : Describes states row targets) : row.map (·.1) = targets.map (·.1) := by
  induction described with
  | nil => rfl
  | cons first _ ih => rw [List.map_cons, List.map_cons, first.1, ih]

theorem Describes.target {row : List (Symbol × Nat)} {targets : List (Symbol × ItemSet)}
    (described : Describes states row targets) {s : Symbol} {t : Nat} (edge : (s, t) ∈ row) :
    ∃ next, (s, next) ∈ targets ∧ states[t]? = some next := by
  induction described with
  | nil => cases edge
  | @cons e target _ _ first _ ih =>
    rcases List.mem_cons.mp edge with rfl | edge
    · obtain ⟨rfl, found⟩ := first
      exact ⟨target.2, List.mem_cons_self, found⟩
    · obtain ⟨next, member, found⟩ := ih edge
      exact ⟨next, List.mem_cons_of_mem _ member, found⟩

theorem locate_spec (distinct : states.Nodup) (items : ItemSet) :
    ∃ new, (locate states items).2 = states ++ new ∧ (states ++ new).Nodup ∧
      (∀ next ∈ new, next = items) ∧ (states ++ new)[(locate states items).1]? = some items := by
  unfold locate
  split
  next number found =>
    obtain ⟨bound, same, -⟩ := List.findIdx?_eq_some_iff_getElem.mp found
    have same : states[number] = items := by simpa using same
    exact ⟨[], by simp, by simpa using distinct, by simp, by
      simp [List.getElem?_eq_getElem bound, same]⟩
  next absent =>
    rw [List.findIdx?_eq_none_iff] at absent
    have fresh : items ∉ states := fun member => by simpa using absent items member
    refine ⟨[items], rfl, ?_, by simp, by simp⟩
    exact List.Nodup.append distinct (List.nodup_singleton _) (by simpa using fresh)

theorem connect_spec (targets : List (Symbol × ItemSet)) (distinct : states.Nodup) :
    ∃ new, (connect targets states).2 = states ++ new ∧ (states ++ new).Nodup ∧
      (∀ next ∈ new, ∃ s, (s, next) ∈ targets) ∧
      Describes (states ++ new) (connect targets states).1 targets := by
  induction targets generalizing states with
  | nil => exact ⟨[], by simp [connect], by simpa using distinct, by simp, .nil⟩
  | cons target rest ih =>
    obtain ⟨s, items⟩ := target
    obtain ⟨one, located, distinct, only, here⟩ := locate_spec distinct items
    obtain ⟨others, connected, distinct, from', there⟩ := ih distinct
    rw [← located] at connected distinct there
    -- the rest only adds states behind, where the first edge does not lead
    refine ⟨one ++ others, ?_, ?_, fun next member => ?_, ?_⟩
    · rw [connect, ← List.append_assoc, ← located]
      exact connected
    · rw [← List.append_assoc, ← located]
      exact distinct
    · rcases List.mem_append.mp member with new | later
      · exact ⟨s, by rw [only next new]; exact List.mem_cons_self⟩
      · obtain ⟨t, listed⟩ := from' next later
        exact ⟨t, List.mem_cons_of_mem _ listed⟩
    · rw [← List.append_assoc, ← located]
      refine .cons ⟨rfl, ?_⟩ there
      rw [located]
      exact (List.getElem?_append_left (List.getElem?_eq_some_iff.mp here).1).trans here

/-! ## The items of a grammar -/

/-- All items over a grammar: a production, a dot and a lookahead. -/
def allItems (g : Grammar) : List Item :=
  g.productions.flatMap fun p =>
    (List.range (p.length + 1)).flatMap fun dot => g.symbols.map (Item.of p.index dot)

theorem length_allItems (g : Grammar) :
    (allItems g).length = numPlaces g * g.numSymbols := by
  unfold allItems numPlaces
  induction g.productions with
  | nil => simp
  | cons p ps ih =>
    rw [List.flatMap_cons, List.length_append, ih, List.foldr_cons, Nat.add_mul _ (List.foldr ..)]
    simp [Grammar.symbols, List.length_flatMap]

theorem mem_allItems {item : Item} : item ∈ allItems g ↔ ∃ p ∈ g.productions,
    p.index = item.place.production ∧ item.place.dot ≤ p.length ∧
      item.lookahead.index < g.numSymbols := by
  simp only [allItems, Grammar.symbols, List.mem_flatMap, List.mem_map, List.mem_range]
  constructor
  · rintro ⟨p, member, dot, bound, _, ⟨i, known, rfl⟩, rfl⟩
    exact ⟨p, member, rfl, Nat.lt_succ_iff.mp bound, known⟩
  · rintro ⟨p, member, index, dot, known⟩
    refine ⟨p, member, item.place.dot, Nat.lt_succ_iff.mpr dot, item.lookahead,
      ⟨item.lookahead.index, known, rfl⟩, ?_⟩
    rw [Item.of, index]

/-- A state: items over the grammar with terminals ahead, and all that they call for. -/
structure Complete (g : Grammar) (a : Analysis) (items : ItemSet) : Prop where
  listed : ∀ item ∈ items, item ∈ allItems g
  terminal : ∀ item ∈ items, g.isTerminal item.lookahead
  closed : items.Closed g a

theorem complete_closure (wf : g.WellFormed) (closed : a.Closed g) {seed : List Item}
    (start : ∀ item ∈ seed, item ∈ allItems g ∧ g.isTerminal item.lookahead) :
    Complete g a (.closure g a seed) := by
  have each : ∀ item ∈ ItemSet.closure g a seed,
      item ∈ allItems g ∧ g.isTerminal item.lookahead := by
    refine ItemSet.closure_induction start fun item ⟨_, terminal⟩ added expansion => ?_
    obtain ⟨s, p, c, -, -, production, -, begins, rfl⟩ := (Item.mem_expansions wf).mp expansion
    have ahead : g.isTerminal c := by
      rcases Begins.terminal_of_beginnings closed.members begins with first | same
      · exact first
      · exact Option.some.inj same ▸ terminal
    exact ⟨mem_allItems.mpr ⟨p, production, rfl, Nat.zero_le _,
      Grammar.index_lt_of_isTerminal ahead⟩, ahead⟩
  exact ⟨fun item member => (each item member).1, fun item member => (each item member).2,
    ItemSet.closure_closed wf a seed⟩

/-- Each item of a state is one of a production, with the dot in its right-hand side or at the end. -/
theorem Complete.exists_production (complete : Complete g a items) (wf : g.WellFormed) {item : Item}
    (member : item ∈ items) : ∃ p, item.production? g = some p ∧ item.place.dot ≤ p.length := by
  obtain ⟨p, production, index, dot, -⟩ := mem_allItems.mp (complete.listed item member)
  refine ⟨p, ?_, dot⟩
  rw [Item.production?, ← index]
  exact wf.production?_index production

theorem Complete.goto (wf : g.WellFormed) (closed : a.Closed g) (complete : Complete g a items)
    (s : Symbol) : Complete g a (items.goto g a s) := by
  apply complete_closure wf closed
  intro item moved
  obtain ⟨before, member, next, rfl⟩ := ItemSet.mem_kernel.mp moved
  obtain ⟨p, production, index, -, known⟩ := mem_allItems.mp (complete.listed before member)
  have found : before.production? g = some p := by
    rw [Item.production?, ← index]
    exact wf.production?_index production
  have symbol : p.rhs[before.place.dot]? = some s := by simpa [Item.next?, found] using next
  exact ⟨mem_allItems.mpr ⟨p, production, index, (List.getElem?_eq_some_iff.mp symbol).1, known⟩,
    complete.terminal before member⟩

/-- Different sets of the same items: there are no more than subsets. -/
theorem length_states_le (distinct : states.Nodup) (complete : ∀ items ∈ states, Complete g a items) :
    states.length ≤ 2 ^ (numPlaces g * g.numSymbols) := by
  have subset : ∀ items ∈ states.toFinset,
      items.toList.toFinset ∈ (allItems g).toFinset.powerset := by
    intro items member
    refine Finset.mem_powerset.mpr fun item listed => List.mem_toFinset.mpr ?_
    exact (complete items (List.mem_toFinset.mp member)).listed item (List.mem_toFinset.mp listed)
  -- sets are told apart by their members, however these are listed
  have injective : Set.InjOn (fun items : ItemSet => items.toList.toFinset) states.toFinset := by
    intro s _ t _ same
    apply OrderedSet.ext
    intro item
    have listed := Finset.ext_iff.mp same item
    simpa only [List.mem_toFinset, ← OrderedSet.mem_def] using listed
  have bound := Finset.card_le_card_of_injOn _ subset injective
  rw [List.toFinset_card_of_nodup distinct, Finset.card_powerset] at bound
  refine bound.trans (Nat.pow_le_pow_right (by decide) ?_)
  rw [← length_allItems]
  exact List.toFinset_card_le _

/-! ## Exploring -/

/-- A collection under way: the states are different sets of items, the initial one first, and
those that have been looked at have their edges. -/
structure Underway (g : Grammar) (a : Analysis) (accept : Nat) (states : List ItemSet)
    (edges : List (List (Symbol × Nat))) : Prop where
  start : states[0]? = some (initialState g a accept)
  distinct : states.Nodup
  complete : ∀ items ∈ states, Complete g a items
  origin : ∀ items ∈ states, items = initialState g a accept ∨
    ∃ (before : ItemSet) (s : Symbol), items = before.goto g a s
  covered : edges.length ≤ states.length
  described : ∀ (i : Nat) row, edges[i]? = some row → ∃ items, states[i]? = some items ∧
    Describes states row (successors g a items)

variable {accept : Nat} {edges : List (List (Symbol × Nat))}

theorem Underway.initial (wf : g.WellFormed) (closed : a.Closed g)
    (chosen : g.accept = some accept) : Underway g a accept [initialState g a accept] [] where
  start := rfl
  distinct := List.nodup_singleton _
  complete items member := by
    obtain ⟨p, _, found, -⟩ := wf.accepting accept chosen
    rw [List.mem_singleton.mp member]
    apply complete_closure wf closed
    intro item listed
    rw [List.mem_singleton.mp listed]
    exact ⟨mem_allItems.mpr ⟨p, Grammar.mem_of_production? found, wf.indexed _ p found,
      Nat.zero_le _, Grammar.index_lt_of_isTerminal wf.isTerminal_endOfInput⟩,
      wf.isTerminal_endOfInput⟩
  origin items member := Or.inl (List.mem_singleton.mp member)
  covered := Nat.zero_le _
  described i row found := by simp at found

/-- Looking at one more state. -/
theorem Underway.next (wf : g.WellFormed) (closed : a.Closed g)
    (underway : Underway g a accept states edges) (found : states[edges.length]? = some items) :
    Underway g a accept (connect (successors g a items) states).2
      (edges ++ [(connect (successors g a items) states).1]) := by
  obtain ⟨new, connected, distinct, from', described⟩ :=
    connect_spec (successors g a items) underway.distinct
  have bound := (List.getElem?_eq_some_iff.mp found).1
  rw [connected]
  -- a new state is one step from the state looked at
  have step (next : ItemSet) (added : next ∈ new) : ∃ s, next = items.goto g a s := by
    obtain ⟨s, listed⟩ := from' next added
    obtain ⟨t, -, same⟩ := List.mem_map.mp listed
    cases same
    exact ⟨s, rfl⟩
  refine ⟨?_, distinct, fun next member => ?_, fun next member => ?_, ?_, fun i row at' => ?_⟩
  · rw [List.getElem?_append_left (Nat.lt_of_le_of_lt (Nat.zero_le _) bound), underway.start]
  · rcases List.mem_append.mp member with old | added
    · exact underway.complete next old
    · obtain ⟨s, rfl⟩ := step next added
      exact (underway.complete items (List.mem_of_getElem? found)).goto wf closed s
  · rcases List.mem_append.mp member with old | added
    · exact underway.origin next old
    · exact Or.inr ⟨items, step next added⟩
  · rw [List.length_append, List.length_append, List.length_singleton]
    omega
  · -- older rows still lead where they led, and the new one is for the state looked at
    rw [List.getElem?_append] at at'
    split at at'
    · obtain ⟨items, there, old⟩ := underway.described i row at'
      refine ⟨items, ?_, old.append new⟩
      rw [List.getElem?_append_left (List.getElem?_eq_some_iff.mp there).1, there]
    next last =>
      obtain ⟨low, rfl⟩ := List.getElem?_eq_some_iff.mp at'
      have low : i - edges.length < 1 := low
      obtain rfl : i = edges.length := by omega
      refine ⟨items, ?_, by simpa using described⟩
      rw [List.getElem?_append_left bound, found]

/-- With a round for every state there can be, exploration leaves no state without its edges. -/
theorem explore_spec (wf : g.WellFormed) (closed : a.Closed g) (budget : Nat)
    (underway : Underway g a accept states edges)
    (enough : 2 ^ (numPlaces g * g.numSymbols) < edges.length + budget) :
    Underway g a accept (explore g a budget states edges).1 (explore g a budget states edges).2 ∧
      (explore g a budget states edges).2.length = (explore g a budget states edges).1.length := by
  induction budget generalizing states edges with
  | zero =>
    -- no round is left: there would be more states than sets of items
    have bound := length_states_le underway.distinct underway.complete
    have covered := underway.covered
    omega
  | succ budget ih =>
    rw [explore]
    split
    next finished =>
      exact ⟨underway, Nat.le_antisymm underway.covered (List.getElem?_eq_none_iff.mp finished)⟩
    next items found =>
      apply ih (underway.next wf closed found)
      rw [List.length_append, List.length_singleton]
      omega

/-! ## The collection -/

/-- What the canonical automaton is: all item sets that the initial one leads to. -/
structure Canonical (m : Automaton) (g : Grammar) (a : Analysis) (accept : Nat) : Prop where
  start : m.state? 0 = some (initialState g a accept)
  distinct : m.states.Nodup
  complete : ∀ items ∈ m.states, Complete g a items
  origin : ∀ items ∈ m.states, items = initialState g a accept ∨
    ∃ (before : ItemSet) (s : Symbol), items = before.goto g a s
  rows : m.edges.length = m.states.length
  symbols : ∀ (s : Nat) items, m.state? s = some items →
    (m.edgesOf s).map (·.1) = (items.outgoing g).toList.filter (· ≠ Symbol.endOfInput)
  target : ∀ s items X t, m.state? s = some items → (X, t) ∈ m.edgesOf s →
    m.state? t = some (items.goto g a X)

theorem canonical_eq (g : Grammar) (a : Analysis) (accept : Nat) : canonical g a accept =
    ⟨(explore g a (stateBudget g) [initialState g a accept] []).1,
      (explore g a (stateBudget g) [initialState g a accept] []).2,
      (explore g a (stateBudget g) [initialState g a accept] []).1.length, false⟩ := by
  unfold canonical
  generalize explore g a (stateBudget g) [initialState g a accept] [] = found
  rfl

theorem canonical_of_underway {edges : List (List (Symbol × Nat))} {merged : Bool}
    (underway : Underway g a accept states edges) (full : edges.length = states.length) :
    Canonical ⟨states, edges, states.length, merged⟩ g a accept := by
  have described (s : Nat) (items : ItemSet) (found : states[s]? = some items) :
      Describes states (edges[s]?.getD []) (successors g a items) := by
    have bound := (List.getElem?_eq_some_iff.mp found).1
    obtain ⟨row, at'⟩ : ∃ row, edges[s]? = some row :=
      ⟨_, List.getElem?_eq_getElem (Nat.lt_of_lt_of_eq bound full.symm)⟩
    obtain ⟨items', there, described⟩ := underway.described s row at'
    cases there.symm.trans found
    rw [at']
    exact described
  refine ⟨underway.start, underway.distinct, underway.complete, underway.origin, full,
    fun s items found => ?_, fun s items X t found edge => ?_⟩
  · refine (described s items found).symbols.trans ?_
    rw [successors, List.map_map]
    exact List.map_id _
  · obtain ⟨next, listed, there⟩ := (described s items found).target edge
    obtain ⟨Y, -, same⟩ := List.mem_map.mp listed
    cases same
    exact there

theorem canonical_spec (wf : g.WellFormed) (closed : a.Closed g) (chosen : g.accept = some accept) :
    (canonical g a accept).Canonical g a accept := by
  obtain ⟨underway, full⟩ := explore_spec wf closed (stateBudget g) (.initial wf closed chosen)
    (by rw [stateBudget, List.length_nil, Nat.pow_eq]; omega)
  rw [canonical_eq]
  exact canonical_of_underway underway full

end ShiftReduce.Automaton
