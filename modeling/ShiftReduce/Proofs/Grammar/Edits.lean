import ShiftReduce.Proofs.Grammar.Augmentation

/-!
# Sequences of edits

A grammar is made by edits one after the other, some of which fail and leave part of their work
behind. Whatever they are, the parts of the grammar fit together after each of them, and symbols
that are settled stay what they are.
-/
namespace ShiftReduce

/-- One call on a grammar. -/
inductive Edit where
  | addTerminal (name : String)
  | addNonterminal (name : String)
  | addAuthored (name : String) (rhs : List String)
  | addGenerated (name : String) (rhs : List String)
  | startFrom (name : String)
  | augment
deriving DecidableEq, Repr

namespace Grammar

/-- An edit, its answer dropped unless it is a fault. -/
def perform (g : Grammar) : Edit → Edited Unit
  | .addTerminal name => (g.addTerminal name).map (·.map fun _ => ()) id
  | .addNonterminal name => (g.addNonterminal name).map (·.map fun _ => ()) id
  | .addAuthored name rhs => (g.addAuthored name rhs).map (·.map fun _ => ()) id
  | .addGenerated name rhs => (g.addGenerated name rhs).map (·.map fun _ => ()) id
  | .startFrom name => g.startFrom name
  | .augment => g.augment

/-- The grammar after some edits, whether they succeed or not. -/
def run (g : Grammar) (edits : List Edit) : Grammar :=
  edits.foldl (fun g edit => (g.perform edit).2) g

variable {g h : Grammar} {s : Symbol}

@[simp] theorem run_nil (g : Grammar) : g.run [] = g := rfl

@[simp] theorem run_cons (g : Grammar) (edit : Edit) (edits : List Edit) :
    g.run (edit :: edits) = (g.perform edit).2.run edits := rfl

theorem run_append (g : Grammar) (edits later : List Edit) :
    g.run (edits ++ later) = (g.run edits).run later := List.foldl_append

theorem Built.perform (built : g.Built) (edit : Edit) : (g.perform edit).2.Built := by
  cases edit with
  | addTerminal name => exact .addTerminal name built
  | addNonterminal name => exact .addNonterminal name built
  | addAuthored name rhs => exact .addAuthored name rhs built
  | addGenerated name rhs => exact .addGenerated name rhs built
  | startFrom name => exact .startFrom name built
  | augment => exact .augment built

theorem Built.run (built : g.Built) (edits : List Edit) : (g.run edits).Built := by
  induction edits generalizing g with
  | nil => exact built
  | cons edit edits ih => exact ih (built.perform edit)

/-! ## What edits keep -/

theorem WellFormed.grows_append (wf : g.WellFormed) (name : String) (rhs : List String)
    (generated allowEnd : Bool) : g.Grows (g.append name rhs generated allowEnd).2 := by
  obtain ⟨h, keeps, ⟨e, same⟩ | ⟨lhs, symbols, -, -, -, same⟩⟩ :=
    wf.append_cases name rhs generated allowEnd <;> rw [same]
  · exact keeps.grows
  · exact keeps.grows.trans (.of_tables rfl rfl)

theorem grows_startFrom (g : Grammar) (name : String) : g.Grows (g.startFrom name).2 := by
  unfold startFrom
  split
  · split <;> exact .refl g
  · exact .of_tables rfl rfl

theorem WellFormed.grows_augment (wf : g.WellFormed) : g.Grows g.augment.2 := by
  obtain ⟨-, same⟩ | ⟨e, h, keeps, same⟩ | ⟨h, p, s, start, added⟩ := wf.augment_cases
  · exact same ▸ .refl g
  · exact same ▸ keeps.grows
  · rw [added.result]
    exact added.keeps.grows.trans (.of_tables rfl rfl)

theorem WellFormed.grows_perform (wf : g.WellFormed) (edit : Edit) : g.Grows (g.perform edit).2 := by
  cases edit with
  | addTerminal name => exact (wf.addTerminal name).grows
  | addNonterminal name => exact (wf.addNonterminal name).1.grows
  | addAuthored name rhs => exact wf.grows_append name rhs false false
  | addGenerated name rhs => exact wf.grows_append name rhs true false
  | startFrom name => exact g.grows_startFrom name
  | augment => exact wf.grows_augment

/-- What is recorded about symbols stays true whatever edits follow. -/
theorem Built.grows_run (built : g.Built) (edits : List Edit) : g.Grows (g.run edits) := by
  induction edits generalizing g with
  | nil => exact .refl g
  | cons edit edits ih =>
    exact (built.wellFormed.grows_perform edit).trans (ih (built.perform edit))

/-! ## How the parts fit together -/

/-- The parts of a grammar fit together: names and symbols stand for each other, both tables have one
row for each symbol, productions are found by their index and by their left-hand side, and the end of
the input is a declared terminal that only the accept production has in it, as its last symbol. -/
structure Consistent (g : Grammar) : Prop where
  numbered : ∀ name s, g.symbol? name = some s ↔ s.index < g.names.length ∧ g.name s = name
  kinds : g.kinds.length = g.names.length
  byLhs : g.byLhs.length = g.names.length
  ending : g.symbol? endName = some ⟨0⟩ ∧ g.kind? ⟨0⟩ = some .declared
  indexed : ∀ i p, g.production? i = some p → p.index = i
  left : ∀ p ∈ g.productions, g.isNonterminal p.lhs ∧ g.name p.lhs = p.name
  right : ∀ p ∈ g.productions,
    (∀ s ∈ p.rhs, s.index < g.names.length) ∧ p.rhsNames = p.rhs.map g.name
  increasing : ∀ s, (g.productionsOf s).Pairwise (· < ·)
  listed : ∀ s i, i ∈ g.productionsOf s ↔ ∃ p, g.production? i = some p ∧ p.lhs = s
  terminals : ∀ s, g.isTerminal s ∨ g.names.length ≤ s.index → g.productionsOf s = []
  ends : ∀ p ∈ g.productions, .endOfInput ∈ p.rhs →
    g.acceptProduction? = some p ∧ ∃ s, s ≠ .endOfInput ∧ p.rhs = [s, .endOfInput]

theorem named_iff (aligned : g.Aligned) {name : String} :
    g.Named s name ↔ s.index < g.names.length ∧ g.name s = name := by
  refine ⟨fun named => ⟨aligned.kinds ▸ named.index_lt, named.name_eq⟩, ?_⟩
  rintro ⟨bound, rfl⟩
  have inside : s.index < g.kinds.length := aligned.kinds ▸ bound
  refine ⟨g.kinds[s.index], entry?_eq_some_iff.mpr ⟨?_, List.getElem?_eq_getElem inside⟩⟩
  simp [name, List.getElem?_eq_getElem bound]

theorem WellFormed.consistent (wf : g.WellFormed) : g.Consistent where
  numbered name s := wf.symbol?_iff.trans (named_iff wf.aligned)
  kinds := wf.aligned.kinds
  byLhs := wf.aligned.byLhs
  ending := ⟨wf.symbol?_eq_endOfInput_iff.mpr rfl, kind?_of_entry wf.ending⟩
  indexed := wf.indexed
  left p member := ⟨wf.isNonterminal_lhs member,
    Named.name_eq ⟨_, wf.left p member⟩⟩
  right p member := by
    have named := wf.right p member
    refine ⟨fun s occurs => ?_, ?_⟩
    · rw [← wf.aligned.kinds]
      obtain ⟨i, bound, rfl⟩ := List.mem_iff_getElem.mp occurs
      have each := List.forall₂_iff_get.mp named
      exact (each.2 i bound (each.1 ▸ bound)).index_lt
    · rw [← List.forall₂_eq_eq_eq, List.forall₂_map_right_iff]
      exact named.flip.imp fun _ _ (named : g.Named _ _) => named.name_eq.symm
  increasing := wf.productionsOf_pairwise
  listed s i := by
    rw [wf.mem_productionsOf_iff]
    constructor
    · rintro ⟨p, member, lhs, rfl⟩
      exact ⟨p, wf.production?_index member, lhs⟩
    · rintro ⟨p, found, lhs⟩
      exact ⟨p, mem_of_production? found, lhs, wf.indexed i p found⟩
  terminals s other := by
    refine List.eq_nil_iff_forall_not_mem.mpr fun i listed => ?_
    obtain ⟨p, member, rfl, -⟩ := wf.mem_productionsOf_iff.mp listed
    rcases other with terminal | outside
    · exact not_isTerminal_of_isNonterminal (wf.isNonterminal_lhs member) terminal
    · rw [← wf.aligned.kinds] at outside
      exact absurd (Named.index_lt ⟨_, wf.left p member⟩) (Nat.not_lt.mpr outside)
  ends p member occurs := by
    have chosen := wf.ends p member occurs
    obtain ⟨q, s, found, rhs, nonterminal⟩ := wf.accepting _ chosen
    cases found.symm.trans (wf.production?_index member)
    exact ⟨by simp [acceptProduction?, chosen, found], s, wf.ne_endOfInput nonterminal, rhs⟩

/-- Consistency: after any edits, failed ones included, the parts of a grammar fit together, and
whatever edits follow, nonterminals stay nonterminals and declared terminals stay declared. -/
theorem run_consistent (edits later : List Edit) : (empty.run edits).Consistent ∧ ∀ s,
    ((empty.run edits).isNonterminal s → ((empty.run edits).run later).isNonterminal s) ∧
    ((empty.run edits).kind? s = some .declared →
      ((empty.run edits).run later).kind? s = some .declared) := by
  have built : (empty.run edits).Built := Built.empty.run edits
  have grows := built.grows_run later
  refine ⟨built.wellFormed.consistent, fun s => ⟨fun nonterminal => ?_, fun declared => ?_⟩⟩
  · obtain ⟨name, entry⟩ := (isNonterminal_iff built.wellFormed.aligned).mp nonterminal
    have after := (built.run later).wellFormed.aligned
    exact (isNonterminal_iff after).mpr ⟨name, grows.entry?_of_ne (by decide) entry⟩
  · obtain ⟨name, entry⟩ := (exists_entry_iff built.wellFormed.aligned).mpr declared
    exact kind?_of_entry (grows.entry?_of_ne (by decide) entry)

end Grammar

end ShiftReduce
