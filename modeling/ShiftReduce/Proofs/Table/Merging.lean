import ShiftReduce.Proofs.Automaton.Quotient
import ShiftReduce.Proofs.Table.Conflicts

/-!
# Conflicts of a merged table

States that are merged have the same edges and accept alike, as both come from the places of their
items. Only their lookaheads differ, so that a cell of the merged table gets no shift that it did not
have before, but it can get reductions that were in the cells of different states.
-/
namespace ShiftReduce

variable {g : Grammar} {a : Analysis} {m : Automaton} {n p : Nat} {X : Symbol}
  {kind : Conflict.Kind}

namespace Table

/-! ## Records by kind -/

/-- A conflict of this kind is on record in which the reduction of `p` lost the cell. -/
def Rejects (t : Table) (kind : Conflict.Kind) (n : Nat) (X : Symbol) (p : Nat) : Prop :=
  ∃ c ∈ t.conflicts, c.kind = kind ∧ c.state = n ∧ c.symbol = X ∧ c.rejected = .reduce p

/-- Among the candidates for the cell is one that wins conflicts of this kind. -/
def Wins (g : Grammar) (m : Automaton) (n : Nat) (X : Symbol) (kind : Conflict.Kind) : Prop :=
  ∃ act, Candidate g m n X act ∧ .wonBy act = kind

namespace Exact

variable {t : Table} (exact : t.Exact g m)

include exact

theorem rejects_iff : t.Rejects kind n X p ↔ ∃ act, t.cell? n X = some act ∧ .wonBy act = kind ∧
    Candidate g m n X (.reduce p) ∧ .reduce p ≠ act := by
  constructor
  · rintro ⟨conflict, listed, rfl, rfl, rfl, rejected⟩
    obtain ⟨n, X, act, c, rfl, held, candidate, other⟩ := (exact.recorded conflict).mp listed
    obtain rfl : c = .reduce p := rejected
    exact ⟨act, held, rfl, candidate, other⟩
  · rintro ⟨act, held, rfl, candidate, other⟩
    have listed := (exact.recorded _).mpr ⟨n, X, act, _, rfl, held, candidate, other⟩
    exact ⟨_, listed, rfl, rfl, rfl, rfl⟩

/-- Only reductions lose. -/
theorem exists_rejected {conflict : Conflict} (listed : conflict ∈ t.conflicts) :
    ∃ p, conflict.rejected = .reduce p := by
  obtain ⟨n, X, act, c, rfl, held, candidate, other⟩ := (exact.recorded conflict).mp listed
  obtain ⟨p, rfl, -⟩ := ((exact.held n X act held).2 c candidate other).reduce
  exact ⟨p, rfl⟩

/-- An edge or accepting gets the cell. -/
theorem cell_of_wins (wins : Wins g m n X kind) (other : kind ≠ .reduceReduce) :
    ∃ act, t.cell? n X = some act ∧ .wonBy act = kind := by
  obtain ⟨act, candidate, rfl⟩ := wins
  refine ⟨act, exact.granted n X act candidate ?_, rfl⟩
  rintro p rfl
  exact other rfl

/-- An edge or accepting wins against every reduction. -/
theorem rejects_iff_wins (other : kind ≠ .reduceReduce) : t.Rejects kind n X p ↔
    Wins g m n X kind ∧ Candidate g m n X (.reduce p) := by
  rw [exact.rejects_iff]
  constructor
  · rintro ⟨act, held, won, candidate, -⟩
    exact ⟨⟨act, (exact.held n X act held).1, won⟩, candidate⟩
  · rintro ⟨wins, candidate⟩
    obtain ⟨act, held, won⟩ := exact.cell_of_wins wins other
    refine ⟨act, held, won, candidate, ?_⟩
    rintro rfl
    exact other won.symm

/-- A reduction wins against those of higher productions, if it has to do with reductions only. -/
theorem rejects_reduce_iff : t.Rejects .reduceReduce n X p ↔
    (∀ kind ≠ .reduceReduce, ¬ Wins g m n X kind) ∧
      Candidate g m n X (.reduce p) ∧ ∃ q < p, Candidate g m n X (.reduce q) := by
  rw [exact.rejects_iff]
  constructor
  · rintro ⟨act, held, won, candidate, other⟩
    obtain ⟨own, first⟩ := exact.held n X act held
    refine ⟨fun kind differs wins => ?_, candidate, ?_⟩
    · obtain ⟨act', held', won'⟩ := exact.cell_of_wins wins differs
      cases held.symm.trans held'
      exact differs (won'.symm.trans won)
    · cases first _ candidate other with
      | shift => cases won
      | accept => cases won
      | lower less => exact ⟨_, less, own⟩
  · rintro ⟨alone, candidate, q, less, lower⟩
    obtain ⟨act, held⟩ := Option.ne_none_iff_exists'.mp fun vacant =>
      (exact.vacant n X).mp vacant _ candidate
    obtain ⟨own, first⟩ := exact.held n X act held
    refine ⟨act, held, ?_, candidate, ?_⟩
    · by_contra differs
      exact alone _ differs ⟨act, own, rfl⟩
    · -- the reduction of `q` would be outranked by one of a higher production
      rintro rfl
      obtain ⟨_, ⟨⟩, above⟩ := (first _ lower (by simpa using Nat.ne_of_lt less)).reduce
      exact Nat.lt_asymm less (above p rfl)

end Exact

end Table

/-! ## Candidates of merged states -/

namespace Automaton

open Table

variable {c : Automaton} {accept s k : Nat}

/-- A merged state has the reductions of all states that went into it. -/
theorem candidate_reduce_merge : Candidate g c.merge k X (.reduce p) ↔
    ∃ s, c.Joins s k ∧ Candidate g c s X (.reduce p) := by
  constructor
  · intro candidate
    cases candidate with
    | reduce there member production complete inner =>
      obtain ⟨s, items, joins, found, member⟩ := (mem_merge there).mp member
      exact ⟨s, joins, .reduce found member production complete inner⟩
  · rintro ⟨s, joins, candidate⟩
    cases candidate with
    | @reduce items _ _ found member production complete inner =>
      obtain ⟨united, there⟩ := joins.merge_state?
      have member := (mem_merge there).mpr ⟨s, items, joins, found, member⟩
      exact .reduce there member production complete inner

/-- It has an edge over a symbol, or accepts, if each of them does. -/
theorem Canonical.wins_merge (canonical : c.Canonical g a accept) (wf : g.WellFormed)
    (joins : c.Joins s k) (other : kind ≠ .reduceReduce) :
    Wins g c.merge k X kind ↔ Wins g c s X kind := by
  constructor
  · rintro ⟨act, candidate, rfl⟩
    cases candidate with
    | shift edge terminal =>
      obtain ⟨s', t', joins', edge', -⟩ := canonical.merge_target edge
      obtain ⟨t, edge⟩ := canonical.joins_edge joins' joins edge'
      exact ⟨_, .shift edge terminal, rfl⟩
    | accept there member accepting =>
      obtain ⟨s', items, joins', found', member⟩ := (mem_merge there).mp member
      obtain ⟨others, found, -⟩ := joins_iff.mp joins
      -- the item that accepts is in `s` as well, with a lookahead that does not matter
      obtain ⟨x, here⟩ := ItemSet.within_of_core (joins'.same_core joins found' found) _ member
      exact ⟨_, .accept found here accepting, rfl⟩
    | goto => exact absurd rfl other
    | reduce => exact absurd rfl other
  · rintro ⟨act, candidate, rfl⟩
    cases candidate with
    | shift edge terminal =>
      obtain ⟨t, -, edge⟩ := canonical.target_merge wf joins edge
      exact ⟨_, .shift edge terminal, rfl⟩
    | @accept items item found member accepting =>
      obtain ⟨united, there⟩ := joins.merge_state?
      have member := (mem_merge there).mpr ⟨s, items, joins, found, member⟩
      exact ⟨_, .accept there member accepting, rfl⟩
    | goto => exact absurd rfl other
    | reduce => exact absurd rfl other

/-! ## The map of states -/

/-- A state belongs to the merged state that has its core. -/
theorem maps_merge_iff_core {q : Nat} : c.Maps c.merge s q ↔ ∃ items united,
    c.state? s = some items ∧ c.merge.state? q = some united ∧ united.core = items.core := by
  constructor
  · intro maps
    have joins := maps_merge_iff.mp maps
    obtain ⟨items, found, -⟩ := maps
    obtain ⟨united, there⟩ := joins.merge_state?
    exact ⟨items, united, found, there, joins.core_merge found there⟩
  · rintro ⟨items, united, found, there, same⟩
    exact ⟨items, found, stateOf?_merge there same⟩

theorem existsUnique_maps_merge (bound : s < c.size) : ∃! q, c.Maps c.merge s q := by
  obtain ⟨q, joins⟩ := exists_joins (List.getElem?_eq_getElem bound)
  refine ⟨q, maps_merge_iff.mpr joins, fun r maps => ?_⟩
  have joins' := maps_merge_iff.mp maps
  exact Option.some.inj (joins'.symm.trans joins)

/-! ## Records of both tables -/

section Records

variable {old new : Table} (before : old.Exact g c) (after : new.Exact g c.merge)
  (canonical : c.Canonical g a accept) (wf : g.WellFormed)

include before after canonical wf

/-- An edge or accepting loses no rivals by merging, and gets no rivals but those of the states. -/
theorem rejects_merge (other : kind ≠ .reduceReduce) :
    new.Rejects kind k X p ↔ ∃ s, c.Joins s k ∧ old.Rejects kind s X p := by
  rw [after.rejects_iff_wins other, candidate_reduce_merge]
  constructor
  · rintro ⟨wins, s, joins, candidate⟩
    have wins := (canonical.wins_merge wf joins other).mp wins
    exact ⟨s, joins, (before.rejects_iff_wins other).mpr ⟨wins, candidate⟩⟩
  · rintro ⟨s, joins, rejects⟩
    obtain ⟨wins, candidate⟩ := (before.rejects_iff_wins other).mp rejects
    exact ⟨(canonical.wins_merge wf joins other).mpr wins, s, joins, candidate⟩

/-- A reduction that lost to another one loses in the merged state too, though it can be to a
third one. -/
theorem rejects_reduce_merge (joins : c.Joins s k) (rejects : old.Rejects .reduceReduce s X p) :
    new.Rejects .reduceReduce k X p := by
  obtain ⟨alone, candidate, q, less, lower⟩ := before.rejects_reduce_iff.mp rejects
  refine after.rejects_reduce_iff.mpr ⟨fun kind differs wins => ?_,
    candidate_reduce_merge.mpr ⟨s, joins, candidate⟩, q, less,
    candidate_reduce_merge.mpr ⟨s, joins, lower⟩⟩
  exact alone kind differs ((canonical.wins_merge wf joins differs).mp wins)

end Records

end Automaton

/-- Merging and conflicts: of the conflicts that are not between reductions, the merged table of an
augmented grammar has those of the canonical one, each in the state that has the core of its own. It
has the conflicts between reductions as well, so the only new ones it can have are of this kind. In
each of them a reduction lost. -/
theorem Grammar.Built.merged_conflicts (built : g.Built) (set : g.accept.isSome) : ∃ c m,
    Automaton.ofGrammar g g.analysis false = .ok c ∧
    Automaton.ofGrammar g g.analysis true = .ok m ∧
    (∀ s q, c.Maps m s q ↔ ∃ items united, c.state? s = some items ∧ m.state? q = some united ∧
      united.core = items.core) ∧
    (∀ s < c.size, ∃! q, c.Maps m s q) ∧
    (∀ kind ≠ .reduceReduce, ∀ q X p, (Table.ofAutomaton g m).Rejects kind q X p ↔
      ∃ s, c.Maps m s q ∧ (Table.ofAutomaton g c).Rejects kind s X p) ∧
    (∀ s q X p, c.Maps m s q → (Table.ofAutomaton g c).Rejects .reduceReduce s X p →
      (Table.ofAutomaton g m).Rejects .reduceReduce q X p) ∧
    ∀ conflict ∈ (Table.ofAutomaton g m).conflicts, ∃ p, conflict.rejected = .reduce p := by
  have wf := built.wellFormed
  obtain ⟨accept, chosen⟩ := Option.isSome_iff_exists.mp set
  have canonical := Automaton.canonical_spec wf (Begins.analysis_closed wf) chosen
  have before := Table.exact_ofAutomaton wf (canonical.tracks wf chosen) (canonical.dotted wf)
  have after := Table.exact_ofAutomaton wf (canonical.tracks_merge wf chosen)
    (canonical.dotted wf).merge
  refine ⟨Automaton.canonical g g.analysis accept, (Automaton.canonical g g.analysis accept).merge,
    by simp [Automaton.ofGrammar, chosen], by simp [Automaton.ofGrammar, chosen],
    fun s q => Automaton.maps_merge_iff_core, fun s => Automaton.existsUnique_maps_merge, ?others,
    ?reductions, fun conflict => after.exists_rejected⟩
  case others =>
    intro kind other q X p
    simp only [Automaton.maps_merge_iff]
    exact Automaton.rejects_merge before after canonical wf other
  case reductions =>
    intro s q X p maps
    exact Automaton.rejects_reduce_merge before after canonical wf (Automaton.maps_merge_iff.mp maps)

/-- The grammar `S -> a A d | b B d | a B e | b A e`, `A -> c`, `B -> c`. -/
def Grammar.crossed : Grammar :=
  let first := ((empty.addAuthored "S" ["a", "A", "d"]).2.addAuthored "S" ["b", "B", "d"]).2
  let second := ((first.addAuthored "S" ["a", "B", "e"]).2.addAuthored "S" ["b", "A", "e"]).2
  (((second.addAuthored "A" ["c"]).2.addAuthored "B" ["c"]).2.startFrom "S").2

/-- Its canonical table has no conflicts, and all those of its merged table are between reductions. -/
theorem Grammar.crossed_merged_conflicts : ∃ c m,
    Automaton.ofGrammar crossed.augment.2 crossed.augment.2.analysis false = .ok c ∧
    Automaton.ofGrammar crossed.augment.2 crossed.augment.2.analysis true = .ok m ∧
    (Table.ofAutomaton crossed.augment.2 c).conflicts = [] ∧
    (Table.ofAutomaton crossed.augment.2 m).conflicts ≠ [] ∧
    ∀ conflict ∈ (Table.ofAutomaton crossed.augment.2 m).conflicts, conflict.kind = .reduceReduce := by
  have built : crossed.Built :=
    .startFrom _ (.addAuthored _ _ (.addAuthored _ _ (.addAuthored _ _ (.addAuthored _ _
      (.addAuthored _ _ (.addAuthored _ _ .empty))))))
  obtain ⟨c, m, done, done', -, -, others, -, lost⟩ :=
    built.augment.merged_conflicts (by decide +kernel)
  have contested (lalr : Bool) : (Automaton.ofGrammar crossed.augment.2
      crossed.augment.2.analysis lalr).toOption.any fun m =>
        (Table.filled crossed.augment.2 m).isContested = lalr := by
    cases lalr <;> decide +kernel
  have before := contested false
  have after := contested true
  rw [done, Except.toOption, Option.any_some, decide_eq_true_eq] at before
  rw [done', Except.toOption, Option.any_some, decide_eq_true_eq] at after
  rw [← Table.isContested_ofAutomaton, Table.isContested] at before after
  have none : (Table.ofAutomaton crossed.augment.2 c).conflicts = [] := by simpa using before
  refine ⟨c, m, done, done', none, ?_, fun conflict listed => ?_⟩
  · simpa using after
  · by_contra other
    obtain ⟨p, rejected⟩ := lost conflict listed
    obtain ⟨s, -, source, listed', -⟩ := (others conflict.kind other conflict.state conflict.symbol
      p).mp ⟨conflict, listed, rfl, rfl, rfl, rejected⟩
    rw [none] at listed'
    cases listed'

end ShiftReduce
