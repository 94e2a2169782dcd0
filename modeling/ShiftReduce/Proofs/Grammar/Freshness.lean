import ShiftReduce.Proofs.Grammar.Edits

/-!
# Edits of augmented grammars

Augmentation gives the accept production a left-hand side of its own. Later edits leave the accept
production and the start name as they are, but nothing keeps them from naming that left-hand side:
it stays fresh just as long as no production is added that mentions it.
-/
namespace ShiftReduce

/-- The names on the two sides of the production that an edit asks for. -/
def Edit.rule? : Edit → Option (String × List String)
  | addAuthored name rhs | addGenerated name rhs => some (name, rhs)
  | _ => none

/-- The names on the two sides of a production. -/
def Production.rule (p : Production) : String × List String := (p.name, p.rhsNames)

namespace Grammar

variable {g h k : Grammar}

/-- What edits add to a grammar: the rules asked for by those that succeed. -/
def contributions (g : Grammar) : List Edit → List (String × List String)
  | [] => []
  | edit :: later =>
    (if (g.perform edit).1.isOk then edit.rule?.toList else []) ++
      (g.perform edit).2.contributions later

/-! ## What edits add -/

/-- The grammar `h` is `g` with more productions, and perhaps more symbols. -/
structure Enlarges (g h : Grammar) (rules : List (String × List String)) : Prop where
  wellFormed : h.WellFormed
  grows : g.Grows h
  accept : h.accept = g.accept
  start : h.start = g.start
  productions : ∃ new, h.productions = g.productions ++ new ∧ new.map Production.rule = rules

variable {rules others : List (String × List String)}

theorem Keeps.enlarges (keeps : g.Keeps h) : g.Enlarges h [] :=
  ⟨keeps.wellFormed, keeps.grows, keeps.accept, keeps.start, [], by simp [keeps.productions], rfl⟩

theorem Enlarges.trans (first : g.Enlarges h rules) (second : h.Enlarges k others) :
    g.Enlarges k (rules ++ others) where
  wellFormed := second.wellFormed
  grows := first.grows.trans second.grows
  accept := second.accept.trans first.accept
  start := second.start.trans first.start
  productions := by
    obtain ⟨new, productions, rfl⟩ := first.productions
    obtain ⟨more, productions', rfl⟩ := second.productions
    exact ⟨new ++ more, by rw [productions', productions, List.append_assoc], List.map_append⟩

theorem WellFormed.enlarges_append (wf : g.WellFormed) (name : String) (rhs : List String)
    (generated : Bool) : g.Enlarges (g.append name rhs generated false).2
      (if (g.append name rhs generated false).1.isOk then [(name, rhs)] else []) := by
  have after := wf.append name rhs generated
  obtain ⟨h, keeps, ⟨e, same⟩ | ⟨lhs, symbols, -, -, -, same⟩⟩ :=
    wf.append_cases name rhs generated false
  · rw [same]
    exact keeps.enlarges
  · rw [same] at after ⊢
    exact ⟨after, keeps.grows.trans (.of_tables rfl rfl), keeps.accept, keeps.start,
      [⟨h.productions.length, lhs, name, symbols, rhs, generated⟩],
      by rw [← keeps.productions]; rfl, rfl⟩

/-- An edit of an augmented grammar that asks for no rule only meets names. -/
theorem WellFormed.keeps_perform (wf : g.WellFormed) (accept : g.accept.isSome)
    (start : g.start.isSome) {edit : Edit} (unasked : edit.rule? = none) :
    g.Keeps (g.perform edit).2 := by
  cases edit with
  | addTerminal name => exact wf.addTerminal name
  | addNonterminal name => exact (wf.addNonterminal name).1
  | addAuthored name rhs => cases unasked
  | addGenerated name rhs => cases unasked
  | startFrom name =>
    obtain ⟨current, chosen⟩ := Option.isSome_iff_exists.mp start
    have same : (g.startFrom name).2 = g := by
      unfold Grammar.startFrom
      rw [chosen]
      dsimp only
      split <;> rfl
    rw [perform, same]
    exact .refl wf
  | augment =>
    rw [perform, augment_of_isAugmented accept]
    exact .refl wf

/-- A grammar that is augmented only gets more productions. -/
theorem WellFormed.enlarges_perform (wf : g.WellFormed) (accept : g.accept.isSome)
    (start : g.start.isSome) (edit : Edit) : g.Enlarges (g.perform edit).2
      (if (g.perform edit).1.isOk then edit.rule?.toList else []) := by
  have ok {α : Type} (result : Except Fault α) :
      (result.map fun _ => ()).isOk = result.isOk := by cases result <;> rfl
  cases asked : edit.rule? with
  | none =>
    rw [Option.toList_none, ite_self]
    exact (wf.keeps_perform accept start asked).enlarges
  | some rule =>
    cases edit with
    | addAuthored name rhs =>
      cases asked
      have added := wf.enlarges_append name rhs false
      rw [← ok] at added
      exact added
    | addGenerated name rhs =>
      cases asked
      have added := wf.enlarges_append name rhs true
      rw [← ok] at added
      exact added
    | addTerminal | addNonterminal | startFrom | augment => cases asked

theorem WellFormed.enlarges_run (wf : g.WellFormed) (accept : g.accept.isSome)
    (start : g.start.isSome) (edits : List Edit) :
    g.Enlarges (g.run edits) (g.contributions edits) := by
  induction edits generalizing g with
  | nil => exact (Keeps.refl wf).enlarges
  | cons edit later ih =>
    have first := wf.enlarges_perform accept start edit
    exact first.trans (ih first.wellFormed (first.accept ▸ accept) (first.start ▸ start))

/-- What is chosen to enter a grammar by stays chosen as it gets more productions. -/
theorem Enlarges.enters (more : g.Enlarges h rules) {p : Production}
    (accept : g.acceptProduction? = some p) (start : g.start = some p.name) :
    h.acceptProduction? = some p ∧ h.startSymbol? = some p.lhs := by
  obtain ⟨i, chosen, found⟩ := Option.bind_eq_some_iff.mp accept
  obtain ⟨new, productions, -⟩ := more.productions
  have found' : h.production? i = some p := by
    rw [production?, productions]
    exact (List.getElem?_append_left (List.getElem?_eq_some_iff.mp found).1).trans found
  constructor
  · rw [acceptProduction?, more.accept, chosen]
    exact found'
  · rw [startSymbol?, more.start, start]
    exact more.wellFormed.symbol?_iff.mpr ⟨_, more.wellFormed.left p (mem_of_production? found')⟩

/-! ## Mentions -/

/-- Symbols occur where their names do. -/
theorem WellFormed.mem_rhs_iff (wf : g.WellFormed) {p q : Production} (inP : p ∈ g.productions)
    (inQ : q ∈ g.productions) : p.lhs ∈ q.rhs ↔ p.name ∈ q.rhsNames := by
  have named : g.Named p.lhs p.name := ⟨_, wf.left p inP⟩
  have each := List.forall₂_iff_get.mp (wf.right q inQ)
  constructor
  · intro occurs
    obtain ⟨i, bound, same⟩ := List.mem_iff_getElem.mp occurs
    have here : g.Named p.lhs q.rhsNames[i] := same ▸ each.2 i bound (each.1 ▸ bound)
    rw [← named.name_eq, here.name_eq]
    exact List.getElem_mem _
  · intro occurs
    obtain ⟨i, bound, same⟩ := List.mem_iff_getElem.mp occurs
    have here : g.Named q.rhs[i] p.name := same ▸ each.2 i (each.1 ▸ bound) bound
    rw [named.unique wf.distinct here]
    exact List.getElem_mem _

theorem WellFormed.lhs_eq_iff (wf : g.WellFormed) {p q : Production} (inP : p ∈ g.productions)
    (inQ : q ∈ g.productions) : q.lhs = p.lhs ↔ q.name = p.name := by
  have namedP : g.Named p.lhs p.name := ⟨_, wf.left p inP⟩
  have namedQ : g.Named q.lhs q.name := ⟨_, wf.left q inQ⟩
  constructor
  · intro same
    rw [← namedP.name_eq, ← namedQ.name_eq, same]
  · intro same
    exact namedQ.unique wf.distinct (same ▸ namedP)

/-- A production that stands alone and unmentioned in a grammar does so in a larger one just as long
as the rules added do not name it. -/
theorem Enlarges.alone_iff (more : g.Enlarges h rules) {p : Production} (member : p ∈ g.productions)
    (alone : ∀ q ∈ g.productions, q.lhs = p.lhs → q = p) :
    (∀ q ∈ h.productions, q.lhs = p.lhs → q = p) ↔ ∀ rule ∈ rules, rule.1 ≠ p.name := by
  obtain ⟨new, productions, rfl⟩ := more.productions
  have inside : p ∈ h.productions := productions ▸ List.mem_append_left _ member
  constructor
  · rintro alone rule listed same
    obtain ⟨q, added, rfl⟩ := List.mem_map.mp listed
    have inQ : q ∈ h.productions := productions ▸ List.mem_append_right _ added
    have equal := alone q inQ ((more.wellFormed.lhs_eq_iff inside inQ).mpr same)
    -- the production would be listed twice
    have distinct := productions ▸ more.wellFormed.productions_nodup
    exact (List.nodup_append.mp distinct).2.2 p member q added equal.symm
  · intro unnamed q inQ same
    rcases List.mem_append.mp (productions ▸ inQ) with old | added
    · exact alone q old same
    · exact absurd ((more.wellFormed.lhs_eq_iff inside inQ).mp same)
        (unnamed _ (List.mem_map_of_mem added))

theorem Enlarges.unmentioned_iff (more : g.Enlarges h rules) {p : Production}
    (member : p ∈ g.productions) (unmentioned : ∀ q ∈ g.productions, p.lhs ∉ q.rhs) :
    (∀ q ∈ h.productions, p.lhs ∉ q.rhs) ↔ ∀ rule ∈ rules, p.name ∉ rule.2 := by
  obtain ⟨new, productions, rfl⟩ := more.productions
  have inside : p ∈ h.productions := productions ▸ List.mem_append_left _ member
  constructor
  · intro unmentioned rule listed occurs
    obtain ⟨q, added, rfl⟩ := List.mem_map.mp listed
    have inQ : q ∈ h.productions := productions ▸ List.mem_append_right _ added
    exact unmentioned q inQ ((more.wellFormed.mem_rhs_iff inside inQ).mpr occurs)
  · intro unnamed q inQ occurs
    rcases List.mem_append.mp (productions ▸ inQ) with old | added
    · exact unmentioned q old occurs
    · exact unnamed _ (List.mem_map_of_mem added)
        ((more.wellFormed.mem_rhs_iff inside inQ).mp occurs)

/-! ## Augmentation -/

/-- A new accept production is the only one of its left-hand side. -/
theorem WellFormed.augment_alone (wf : g.WellFormed) (unset : g.accept = none)
    (done : g.augment.1 = .ok ()) : ∃ p, g.augment.2.acceptProduction? = some p ∧
      g.augment.2.start = some p.name ∧
      ∀ q ∈ g.augment.2.productions, q.lhs = p.lhs → q = p := by
  obtain ⟨h, p, s, start, added⟩ := wf.augments unset done
  rw [added.result]
  refine ⟨p, accepting_acceptProduction? added.index, rfl, fun q member lhs => ?_⟩
  rcases List.mem_append.mp member with old | new
  · rw [added.keeps.productions] at old
    exact absurd lhs.symm
      (added.keeps.ne_of_unknown wf added.left added.unknown ⟨_, wf.left q old⟩)
  · exact List.mem_singleton.mp new

/-- Only an augmentation that succeeds chooses an accept production, and only the first one. -/
theorem WellFormed.accept_perform (wf : g.WellFormed) (edit : Edit) :
    (g.perform edit).2.accept = g.accept ∨
      g.accept = none ∧ edit = .augment ∧ (g.perform edit).1 = .ok () := by
  cases edit with
  | addTerminal name => exact Or.inl (wf.addTerminal name).accept
  | addNonterminal name => exact Or.inl (wf.addNonterminal name).1.accept
  | addAuthored name rhs => exact Or.inl (wf.enlarges_append name rhs false).accept
  | addGenerated name rhs => exact Or.inl (wf.enlarges_append name rhs true).accept
  | startFrom name =>
    left
    simp only [perform, Grammar.startFrom]
    split
    · split <;> rfl
    · rfl
  | augment =>
    obtain ⟨-, same⟩ | ⟨e, h, keeps, same⟩ | ⟨h, p, s, start, added⟩ := wf.augment_cases
    · exact Or.inl (by rw [perform, same])
    · exact Or.inl (by rw [perform, same]; exact keeps.accept)
    · exact Or.inr ⟨added.unset, rfl, by rw [perform, added.result]⟩

/-- An accept production, once chosen, is there to stay. -/
theorem Built.accept_run (built : g.Built) (set : g.accept.isSome) (edits : List Edit) :
    (g.run edits).accept = g.accept := by
  induction edits generalizing g with
  | nil => rfl
  | cons edit later ih =>
    rcases built.wellFormed.accept_perform edit with same | ⟨unset, -⟩
    · rw [run_cons, ih (built.perform edit) (same ▸ set), same]
    · rw [unset] at set
      cases set

theorem WellFormed.isSome_accept_augment (wf : g.WellFormed) (done : g.augment.1 = .ok ()) :
    g.augment.2.accept.isSome := by
  obtain ⟨set, same⟩ | ⟨e, h, -, same⟩ | ⟨h, p, s, start, added⟩ := wf.augment_cases
  · exact same ▸ set
  · simp [same] at done
  · rw [added.result]
    rfl

/-- Edits that lead to an accept production have a first augmentation that succeeds. -/
theorem Built.exists_augment (built : g.Built) (unset : g.accept = none) {edits : List Edit}
    (set : (g.run edits).accept.isSome) : ∃ before later, edits = before ++ .augment :: later ∧
      (g.run before).accept = none ∧ (g.run before).augment.1 = .ok () := by
  induction edits generalizing g with
  | nil =>
    rw [run_nil, unset] at set
    cases set
  | cons edit edits ih =>
    rcases built.wellFormed.accept_perform edit with same | ⟨-, rfl, done⟩
    · obtain ⟨before, later, rfl, found⟩ := ih (built.perform edit) (same.trans unset) set
      exact ⟨edit :: before, later, rfl, found⟩
    · exact ⟨[], edits, rfl, unset, done⟩

/-- A grammar that edits lead to is that of a sequence of edits. -/
theorem Built.exists_run (built : g.Built) : ∃ edits, g = Grammar.empty.run edits := by
  have next (edit : Edit) {g : Grammar} (before : ∃ edits, g = Grammar.empty.run edits) :
      ∃ edits, (g.perform edit).2 = Grammar.empty.run edits := by
    obtain ⟨edits, rfl⟩ := before
    exact ⟨edits ++ [edit], by rw [run_append, run_cons, run_nil]⟩
  induction built with
  | empty => exact ⟨[], rfl⟩
  | addTerminal name _ ih => exact next (.addTerminal name) ih
  | addNonterminal name _ ih => exact next (.addNonterminal name) ih
  | addAuthored name rhs _ ih => exact next (.addAuthored name rhs) ih
  | addGenerated name rhs _ ih => exact next (.addGenerated name rhs) ih
  | startFrom name _ ih => exact next (.startFrom name) ih
  | augment _ ih => exact next .augment ih

/-- A grammar with an accept production starts from its left-hand side. -/
theorem Built.accept_start (built : g.Built) (set : g.accept.isSome) :
    ∃ p, g.acceptProduction? = some p ∧ g.startSymbol? = some p.lhs := by
  obtain ⟨edits, rfl⟩ := built.exists_run
  obtain ⟨before, later, rfl, unset, done⟩ := Built.empty.exists_augment rfl set
  have wf := (Built.empty.run before).wellFormed
  obtain ⟨p, accept, start, -⟩ := wf.augment_alone unset done
  have more := wf.augment.enlarges_run (wf.isSome_accept_augment done) (by simp [start]) later
  rw [run_append, run_cons]
  exact ⟨p, more.enters accept start⟩

end Grammar

end ShiftReduce
