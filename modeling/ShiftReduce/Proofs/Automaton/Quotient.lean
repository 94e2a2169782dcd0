import Mathlib.Data.List.Destutter
import ShiftReduce.Proofs.Automaton.Merging
import ShiftReduce.Proofs.Grammar.Augmentation

/-!
# The merged automaton as a quotient

Merging divides the canonical automaton by the cores of its states. What an edge of a united state
leads to does not depend on the state that it comes from, so the quotient is well defined, and every
state of it is found again by its core.
-/
namespace ShiftReduce

variable {g : Grammar} {a : Analysis}

/-! ## Lists without repetitions -/

theorem nodup_eraseDups {α : Type} [BEq α] [LawfulBEq α] (l : List α) : l.eraseDups.Nodup := by
  match l with
  | [] => simp
  | x :: rest =>
    rw [List.eraseDups_cons, List.nodup_cons]
    refine ⟨fun again => ?_, nodup_eraseDups _⟩
    simpa using List.mem_eraseDups.mp again
termination_by l.length
decreasing_by exact Nat.lt_succ_of_le (List.length_filter_le _ _)

/-- Where no two members agree in `f`, one of them is found by what `f` gives for it. -/
theorem findIdx?_of_nodup {α β : Type} [DecidableEq β] {l : List α} {f : α → β}
    (distinct : (l.map f).Nodup) {i : Nat} {x : α} (found : l[i]? = some x) :
    l.findIdx? (fun y => decide (f y = f x)) = some i := by
  obtain ⟨bound, rfl⟩ := List.getElem?_eq_some_iff.mp found
  refine List.findIdx?_eq_some_iff_getElem.mpr ⟨bound, by simp, fun j before => ?_⟩
  have here : i < (l.map f).length := by simpa using bound
  have there : j < (l.map f).length := Nat.lt_trans before here
  have other : (l.map f)[j] ≠ (l.map f)[i] := fun same =>
    Nat.ne_of_lt before (distinct.getElem_inj_iff.mp same)
  simpa using other

instance : Std.Antisymm fun p q : Place => (compare p q).isLE := ⟨fun p q low high => by
  cases order : compare p q with
  | eq => exact Std.LawfulEqOrd.eq_of_compare order
  | gt => simp [order] at low
  | lt => simp [Std.OrientedCmp.gt_iff_lt.mpr order] at high⟩

/-- Items are listed by place first, so that their core comes of leaving out a place that is there
already just before. -/
theorem ItemSet.core_toList (items : ItemSet) :
    items.core.toList = (items.toList.map Item.place).destutter (· ≠ ·) := by
  have sorted : (items.toList.map Item.place).Pairwise fun p q => (compare p q).isLE :=
    List.pairwise_map.mpr (items.increasing.imp Item.place_le)
  rw [sorted.destutter_eq_dedup]
  refine OrderedSet.eq_of_increasing _ _ items.core.increasing ?_ fun place => ?_
  · have distinct := List.nodup_dedup (items.toList.map Item.place)
    refine ((sorted.sublist (List.dedup_sublist _)).and distinct).imp fun {p q} ⟨low, other⟩ => ?_
    exact (Ordering.isLE_iff_eq_lt_or_eq_eq.mp low).resolve_right fun same =>
      other (Std.LawfulEqOrd.eq_of_compare same)
  · rw [List.mem_dedup, ← OrderedSet.mem_def, core, OrderedSet.mem_ofList]

namespace Automaton

/-! ## States by number -/

variable {c m : Automaton} {s t k : Nat} {items united : ItemSet}

/-- A merged state has the core of the states that went into it. -/
theorem Joins.core_merge (joins : c.Joins s k) (found : c.state? s = some items)
    (there : c.merge.state? k = some united) : united.core = items.core := by
  apply ItemSet.core_of_within
  · intro item member
    obtain ⟨t, others, joins', found', member⟩ := (mem_merge there).mp member
    exact ItemSet.within_of_core (joins'.same_core joins found' found) item member
  · intro item member
    exact ⟨item.lookahead, (mem_merge there).mpr ⟨s, items, joins, found, member⟩⟩

/-- Some state went into each merged state. -/
theorem exists_joins_of_lt (bound : k < (cores c.states).length) :
    ∃ s items, c.Joins s k ∧ c.state? s = some items ∧ (cores c.states)[k] = items.core := by
  obtain ⟨items, listed, same⟩ := List.mem_map.mp (List.mem_eraseDups.mp (List.getElem_mem bound))
  obtain ⟨s, found⟩ := List.getElem?_of_mem listed
  refine ⟨s, items, joins_iff.mpr ⟨items, found, ?_⟩, found, same.symm⟩
  rw [same]
  exact (nodup_eraseDups _).idxOf_getElem k bound

/-- The merged states have the cores of the others, each once, in the order of their first
appearance. -/
theorem merge_cores (c : Automaton) : c.merge.states.map (·.core) = cores c.states := by
  have size : c.merge.states.length = (cores c.states).length := by simp [merge]
  refine List.ext_getElem (by simpa using size) fun k bound bound' => ?_
  obtain ⟨s, items, joins, found, same⟩ := exists_joins_of_lt bound'
  rw [List.getElem_map, same]
  exact joins.core_merge found (List.getElem?_eq_getElem _)

/-- A merged state is found by the core of any state that went into it. -/
theorem stateOf?_merge (there : c.merge.state? k = some united) (same : united.core = items.core) :
    c.merge.stateOf? items = some k := by
  have distinct : (c.merge.states.map (·.core)).Nodup := by
    rw [merge_cores]
    exact nodup_eraseDups _
  rw [stateOf?, ← same]
  exact findIdx?_of_nodup distinct there

/-- The canonical state `s` belongs to the state `q` of the quotient, which is found by its items. -/
def Maps (c m : Automaton) (s q : Nat) : Prop :=
  ∃ items, c.state? s = some items ∧ m.stateOf? items = some q

/-- The automaton `m` is `c` divided by the cores of its states. -/
structure IsQuotient (m c : Automaton) (g : Grammar) (a : Analysis) : Prop where
  /-- The core of a state is its places in order, but for those that are there just before. -/
  places : ∀ s items, c.state? s = some items →
    items.core.toList = (items.toList.map Item.place).destutter (· ≠ ·)
  /-- There is a state for each core, numbered by first appearance. -/
  cores : m.states.map (·.core) = (c.states.map (·.core)).eraseDups
  distinct : (m.states.map (·.core)).Nodup
  /-- It has the items of all states with that core. -/
  union : ∀ q items, m.state? q = some items → ∀ item, item ∈ items ↔
    ∃ s others, c.state? s = some others ∧ others.core = items.core ∧ item ∈ others
  /-- Each state of `c` maps to the one with its core. -/
  image : ∀ s items, c.state? s = some items → ∃ q united, c.Maps m s q ∧
    m.state? q = some united ∧ united.core = items.core
  target : ∀ s q X t, c.Maps m s q → c.target? s X = some t →
    ∃ r, c.Maps m t r ∧ m.target? q X = some r
  /-- There are no other edges. -/
  origin : ∀ q X r, m.target? q X = some r →
    ∃ s t, c.Maps m s q ∧ c.target? s X = some t ∧ c.Maps m t r
  /-- There is an edge for every symbol behind a dot but the end of the input. -/
  edge : ∀ q items X, m.state? q = some items → ((∃ r, m.target? q X = some r) ↔
    X ≠ .endOfInput ∧ ∃ item ∈ items, item.next? g = some X)
  /-- It leads to a state with the core and the items of the item set one step further. -/
  step : ∀ q items X r, m.state? q = some items → m.target? q X = some r →
    ∃ next, m.state? r = some next ∧ next.core = (items.goto g a X).core ∧
      ∀ item ∈ items.goto g a X, item ∈ next
  self : ∀ q items, m.state? q = some items → m.stateOf? items = some q
  canonicalSelf : ∀ s items, c.state? s = some items → c.stateOf? items = some s

theorem maps_merge_iff {q : Nat} : c.Maps c.merge s q ↔ c.Joins s q := by
  constructor
  · rintro ⟨items, found, numbered⟩
    obtain ⟨k, joins⟩ := exists_joins found
    obtain ⟨united, there⟩ := joins.merge_state?
    have same := stateOf?_merge there (joins.core_merge found there)
    cases same.symm.trans numbered
    exact joins
  · intro joins
    obtain ⟨items, found, -⟩ := joins_iff.mp joins
    obtain ⟨united, there⟩ := joins.merge_state?
    exact ⟨items, found, stateOf?_merge there (joins.core_merge found there)⟩

/-- What moves over a symbol from a state that keeps track of its items is in the state that the edge
leads to, and so is what that calls for. -/
theorem Tracks.goto_subset (tracks : m.Tracks g a) {X : Symbol} (found : m.state? s = some items)
    (edge : m.target? s X = some t) : ∃ next, m.state? t = some next ∧
      ∀ item ∈ items.goto g a X, item ∈ next := by
  obtain ⟨inner, others, found', item, member, moves⟩ := tracks.edge s X t edge
  cases found.symm.trans found'
  obtain ⟨t', next, edge', there, -⟩ := tracks.advance s items item X found member moves inner
  cases edge.symm.trans edge'
  refine ⟨next, there, ItemSet.closure_induction (fun item moved => ?_) fun item member added called =>
    tracks.expand t next there item member added called⟩
  obtain ⟨before, member, moves, rfl⟩ := ItemSet.mem_kernel.mp moved
  obtain ⟨t', next', edge', there', moved⟩ := tracks.advance s items before X found member moves inner
  cases edge.symm.trans edge'
  cases there.symm.trans there'
  exact moved

theorem Canonical.isQuotient_merge {accept : Nat} (canonical : c.Canonical g a accept)
    (wf : g.WellFormed) (chosen : g.accept = some accept) (unmerged : c.merged = false) :
    c.merge.IsQuotient c g a := by
  have tracks := canonical.tracks_merge wf chosen
  constructor
  case places => exact fun s items _ => items.core_toList
  case cores => exact merge_cores c
  case distinct =>
    rw [merge_cores]
    exact nodup_eraseDups _
  case union =>
    intro q united there item
    rw [mem_merge there]
    constructor
    · rintro ⟨s, items, joins, found, member⟩
      exact ⟨s, items, found, (joins.core_merge found there).symm, member⟩
    · rintro ⟨s, items, found, same, member⟩
      have numbered := stateOf?_merge there same.symm
      exact ⟨s, items, maps_merge_iff.mp ⟨items, found, numbered⟩, found, member⟩
  case image =>
    intro s items found
    obtain ⟨k, joins⟩ := exists_joins found
    obtain ⟨united, there⟩ := joins.merge_state?
    exact ⟨k, united, maps_merge_iff.mpr joins, there, joins.core_merge found there⟩
  case target =>
    intro s q X t maps edge
    obtain ⟨r, joins, edge⟩ := canonical.target_merge wf (maps_merge_iff.mp maps) edge
    exact ⟨r, maps_merge_iff.mpr joins, edge⟩
  case origin =>
    intro q X r edge
    obtain ⟨s, t, joins, edge, joinsT⟩ := canonical.merge_target edge
    exact ⟨s, t, maps_merge_iff.mpr joins, edge, maps_merge_iff.mpr joinsT⟩
  case edge =>
    intro q items X found
    constructor
    · rintro ⟨r, edge⟩
      obtain ⟨inner, others, found', leads⟩ := tracks.edge q X r edge
      cases found.symm.trans found'
      exact ⟨inner, leads⟩
    · rintro ⟨inner, item, member, next⟩
      obtain ⟨r, -, edge, -⟩ := tracks.advance q items item X found member next inner
      exact ⟨r, edge⟩
  case step =>
    intro q united X r there edge
    obtain ⟨next, there', moved⟩ := tracks.goto_subset there edge
    -- some state that went into the first has such an edge, and its target has this core
    obtain ⟨s, t, joins, edge, joinsT⟩ := canonical.merge_target edge
    obtain ⟨items, found, -, -, found'⟩ := canonical.target?_iff.mp edge
    refine ⟨next, there', ?_, moved⟩
    rw [joinsT.core_merge found' there']
    exact ItemSet.core_goto wf (joins.core_merge found there).symm X
  case self => exact fun q items there => stateOf?_merge there rfl
  case canonicalSelf =>
    intro s items found
    have here : c.states.findIdx? (· = items) = some s :=
      findIdx?_of_nodup (f := id) (by simpa using canonical.distinct) found
    simp [stateOf?, unmerged, here]

end Automaton

/-- Merging: the LALR(1) automaton of an augmented grammar is the canonical one divided by the cores
of its states. It has a state for each core, with the items of all states with this core, and its
edges are those of the canonical automaton, whichever of the states with a core they come from. -/
theorem Grammar.Built.merged_isQuotient (built : g.Built) (set : g.accept.isSome) : ∃ c m,
    Automaton.ofGrammar g g.analysis false = .ok c ∧
    Automaton.ofGrammar g g.analysis true = .ok m ∧ m.IsQuotient c g g.analysis := by
  have wf := built.wellFormed
  obtain ⟨accept, chosen⟩ := Option.isSome_iff_exists.mp set
  have canonical := Automaton.canonical_spec wf (Begins.analysis_closed wf) chosen
  refine ⟨Automaton.canonical g g.analysis accept, (Automaton.canonical g g.analysis accept).merge,
    by simp [Automaton.ofGrammar, chosen], by simp [Automaton.ofGrammar, chosen], ?_⟩
  exact canonical.isQuotient_merge wf chosen (by rw [Automaton.canonical_eq])

/-- The grammar `S -> C C`, `C -> c C | d`. -/
def Grammar.paired : Grammar :=
  let pairs := (empty.addAuthored "S" ["C", "C"]).2
  (((pairs.addAuthored "C" ["c", "C"]).2.addAuthored "C" ["d"]).2.startFrom "S").2

/-- Augmented, it has ten canonical states, three of which are united with others. -/
theorem Grammar.paired_merged_isQuotient : ∃ c m,
    Automaton.ofGrammar paired.augment.2 paired.augment.2.analysis false = .ok c ∧
    Automaton.ofGrammar paired.augment.2 paired.augment.2.analysis true = .ok m ∧
    m.IsQuotient c paired.augment.2 paired.augment.2.analysis ∧ c.size = 10 ∧ m.size = 7 := by
  have built : paired.Built :=
    .startFrom _ (.addAuthored _ _ (.addAuthored _ _ (.addAuthored _ _ .empty)))
  obtain ⟨c, m, done, done', quotient⟩ := built.augment.merged_isQuotient (by decide +kernel)
  have sizes (lalr : Bool) : (Automaton.ofGrammar paired.augment.2 paired.augment.2.analysis
      lalr).toOption.map (·.size) = some (if lalr then 7 else 10) := by
    cases lalr <;> decide +kernel
  have size := sizes false
  have size' := sizes true
  rw [done] at size
  rw [done'] at size'
  exact ⟨c, m, done, done', quotient, Option.some.inj size, Option.some.inj size'⟩

end ShiftReduce
