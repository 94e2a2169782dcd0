import ShiftReduce.Proofs.Grammar.Rightmost

/-!
# Handles

A handle is a right-hand side with the form around it, at the place where a rightmost derivation puts
it in. An automaton is built from the accept production, so the derivations that matter to it begin
with that production. They are all there are from its left-hand side as long as the left-hand side
has no other production.
-/
namespace ShiftReduce.Grammar

/-- A rightmost derivation from `root` comes to the left-hand side of `p`, behind `before` and in
front of the terminals `after`. -/
structure Handle (g : Grammar) (root before : List Symbol) (p : Production)
    (after : List Symbol) : Prop where
  member : p ∈ g.productions
  terminals : ∀ c ∈ after, g.isTerminal c
  derives : g.DerivesRightmost root (before ++ p.lhs :: after)

/-- Handles of the rightmost derivations from the left-hand side of the accept production. -/
def FromStart (g : Grammar) (before : List Symbol) (p : Production) (after : List Symbol) : Prop :=
  ∃ q, g.acceptProduction? = some q ∧ g.Handle [q.lhs] before p after

/-- Handles of those that begin with the accept production: its own, and all that come later. -/
def ByAccept (g : Grammar) (before : List Symbol) (p : Production) (after : List Symbol) : Prop :=
  ∃ q, g.acceptProduction? = some q ∧
    (before = [] ∧ p = q ∧ after = [] ∨ g.Handle q.rhs before p after)

/-- The accept production is the only one of its left-hand side. -/
def AcceptAlone (g : Grammar) : Prop :=
  ∀ q, g.acceptProduction? = some q → ∀ p ∈ g.productions, p.lhs = q.lhs → p = q

variable {g : Grammar} {φ before after : List Symbol} {p q : Production}

theorem WellFormed.acceptProduction?_spec (wf : g.WellFormed) (accepts : g.acceptProduction? = some q) :
    g.accept = some q.index ∧ q ∈ g.productions ∧
      ∃ s, q.rhs = [s, .endOfInput] ∧ g.isNonterminal s := by
  obtain ⟨i, chosen, found⟩ := Option.bind_eq_some_iff.mp accepts
  obtain ⟨_, s, found', rhs, nonterminal⟩ := wf.accepting i chosen
  cases found.symm.trans found'
  exact ⟨by rw [chosen, wf.indexed i q found], mem_of_production? found, s, rhs, nonterminal⟩

/-- A derivation from the left-hand side of the accept production begins with that production, if
there is no other for it. -/
theorem fromStart_iff_byAccept (wf : g.WellFormed) (alone : g.AcceptAlone) :
    g.FromStart before p after ↔ g.ByAccept before p after := by
  refine exists_congr fun q => and_congr_right fun accepts => ?_
  have first : g.RewritesRightmost [q.lhs] q.rhs := by
    have none : ∀ c ∈ ([] : List Symbol), g.isTerminal c := by simp
    simpa using RewritesRightmost.replace [] (wf.acceptProduction?_spec accepts).2.1 none
  constructor
  · intro handle
    rcases Relation.ReflTransGen.cases_head handle.derives with same | ⟨φ, step, later⟩
    · obtain ⟨rfl, lhs, rfl⟩ := split_singleton same
      exact Or.inl ⟨rfl, alone q accepts p handle.member lhs, rfl⟩
    · generalize root : [q.lhs] = word at step
      cases step with
      | @replace front back r member =>
        obtain ⟨rfl, lhs, rfl⟩ := split_singleton root
        obtain rfl := alone q accepts r member lhs
        have later : g.DerivesRightmost _ _ := later
        exact Or.inr ⟨handle.member, handle.terminals, by simpa using later⟩
  · rintro (⟨rfl, rfl, rfl⟩ | handle)
    · exact ⟨(wf.acceptProduction?_spec accepts).2.1, by simp, .refl⟩
    · exact ⟨handle.member, handle.terminals, handle.derives.head first⟩

/-- What derives from the right-hand side of the accept production ends with the end of the input,
and has it nowhere else. -/
theorem DerivesRightmost.ends (wf : g.WellFormed) (fresh : g.AcceptFresh)
    (accepts : g.acceptProduction? = some q) (derives : g.DerivesRightmost q.rhs φ) :
    ∃ ψ, φ = ψ ++ [.endOfInput] ∧ .endOfInput ∉ ψ ∧ q.lhs ∉ ψ := by
  obtain ⟨chosen, member, s, rhs, nonterminal⟩ := wf.acceptProduction?_spec accepts
  induction derives with
  | refl =>
    have other : q.lhs ≠ s := fun same => fresh q accepts q member (by simp [same, rhs])
    exact ⟨[s], by simp [rhs], by simpa using (wf.ne_endOfInput nonterminal).symm, by simpa using other⟩
  | tail _ step ih =>
    obtain ⟨ψ, form, inner, absent⟩ := ih
    generalize form' : ψ ++ [.endOfInput] = φ at form
    subst form
    cases step with
    | @replace before after p inP terminals =>
      rcases split_append form' with ⟨rest, rfl, rfl⟩ | ⟨rest, tail, -⟩
      · -- neither symbol is in the right-hand side: the production is not the accept production
        have ends : .endOfInput ∉ p.rhs := by
          intro occurs
          have same := wf.ends p inP occurs
          rw [chosen, Option.some.injEq] at same
          obtain rfl := wf.index_injective member inP same
          exact absent (by simp)
        have lhs := fresh q accepts p inP
        simp only [List.mem_append, List.mem_cons, not_or] at inner absent
        refine ⟨before ++ (p.rhs ++ rest), by simp, ?_, ?_⟩ <;>
          simp_all [List.mem_append]
      · obtain ⟨-, lhs, -⟩ := split_singleton tail
        exact absurd lhs (wf.ne_endOfInput (wf.isNonterminal_lhs inP))

/-- In such a form a nonterminal has no end of the input in front of it, and something behind it.
It is not the left-hand side of the accept production. -/
theorem DerivesRightmost.around (wf : g.WellFormed) (fresh : g.AcceptFresh)
    (accepts : g.acceptProduction? = some q) {s : Symbol} (nonterminal : g.isNonterminal s)
    (derives : g.DerivesRightmost q.rhs (before ++ s :: after)) :
    .endOfInput ∉ before ∧ after ≠ [] ∧ s ≠ q.lhs := by
  obtain ⟨ψ, form, inner, absent⟩ := derives.ends wf fresh accepts
  rcases split_append form.symm with ⟨rest, rfl, rfl⟩ | ⟨rest, last, -⟩
  · exact ⟨fun occurs => inner (List.mem_append_left _ occurs), by simp,
      fun same => absent (by simp [same])⟩
  · obtain ⟨-, same, -⟩ := split_singleton last
    exact absurd same (wf.ne_endOfInput nonterminal)

/-- Whichever production brings a handle in, what comes of it derives from the accept production. -/
theorem ByAccept.replaced (wf : g.WellFormed) (accepts : g.acceptProduction? = some q)
    (handle : g.ByAccept before p after) : p ∈ g.productions ∧ (∀ c ∈ after, g.isTerminal c) ∧
      g.DerivesRightmost q.rhs (before ++ (p.rhs ++ after)) := by
  obtain ⟨_, accepts', ⟨rfl, rfl, rfl⟩ | handle⟩ := handle <;> cases accepts'.symm.trans accepts
  · have start : g.DerivesRightmost p.rhs p.rhs := .refl
    exact ⟨(wf.acceptProduction?_spec accepts).2.1, by simp, by simpa using start⟩
  · exact ⟨handle.member, handle.terminals,
      handle.derives.tail (.replace before handle.member handle.terminals)⟩

/-- The accept production is a handle with nothing around it only. -/
theorem ByAccept.alone (wf : g.WellFormed) (fresh : g.AcceptFresh)
    (accepts : g.acceptProduction? = some q) (handle : g.ByAccept before q after) :
    before = [] ∧ after = [] := by
  obtain ⟨_, accepts', ⟨rfl, -, rfl⟩ | handle⟩ := handle
  · exact ⟨rfl, rfl⟩
  · cases accepts'.symm.trans accepts
    have lhs := wf.isNonterminal_lhs handle.member
    exact absurd rfl (handle.derives.around wf fresh accepts lhs).2.2

end ShiftReduce.Grammar
