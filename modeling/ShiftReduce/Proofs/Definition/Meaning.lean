import ShiftReduce.Definition.Basic
import ShiftReduce.Proofs.Definition.Flattening
import ShiftReduce.Proofs.Lexer.Reading

/-!
# The meaning of definitions

The productions of a rule, with the helpers in them unfolded, are the words that its body denotes. So
the languages of the rules are the least that satisfy their bodies.
-/
namespace ShiftReduce

namespace Flattening

open Grammar

variable {d : Declared} {s s' : Flattening} {name : String}

/-! ## Rules -/

theorem addAlternatives_faithful {alternatives : List Body} (ready : Ready d s)
    (listed : name ∈ d.rules) (done : s.addAlternatives d name alternatives = .ok s') :
    ∃ bodies, FaithfulAny d name alternatives s s' bodies := by
  induction alternatives generalizing s with
  | nil =>
    cases done
    exact ⟨[], .nil ready name⟩
  | cons e rest ih =>
    rw [addAlternatives] at done
    obtain ⟨⟨symbols, s₁⟩, first, done⟩ := bind_eq_ok_iff.mp done
    obtain ⟨⟨index, s₂⟩, edited, later⟩ := bind_eq_ok_iff.mp done
    have front := flattens d name e s symbols s₁ ready first
    obtain ⟨ready₂, gains⟩ := front.ready.append edited (by simpa using listed)
    obtain ⟨bodies, faithful⟩ := ih ready₂ later
    exact ⟨_, .cons (ready.rules name listed).mentions front gains faithful⟩

theorem languageOfAny_alternatives (X : String → Language String) (body : Body) :
    Body.languageOfAny X (alternatives body) = body.language X := by
  unfold alternatives
  split
  · rw [Body.language_choice]
  · simp [Body.languageOfAny]

/-- What the bodies of a rule stand for in the finished grammar. -/
def Means (d : Declared) (g : Grammar) (rule : String × Body) : Prop :=
  ∀ f ps ρ X, Interprets d.rules f ps ρ X → g.Extends f →
    ((f.bodiesOf rule.1).map (reading ps ρ)).sum = rule.2.language X

theorem addRules_means {rules : List (String × Body)} (ready : Ready d s)
    (listed : ∀ rule ∈ rules, rule.1 ∈ d.rules) (distinct : (rules.map (·.1)).Nodup)
    (none : ∀ rule ∈ rules, s.grammar.bodiesOf rule.1 = [])
    (done : s.addRules d rules = .ok s') :
    Ready d s' ∧ s.grammar.Grows s'.grammar ∧
      (∀ name, s.grammar.Mentions name → name ∉ rules.map (·.1) →
        s'.grammar.bodiesOf name = s.grammar.bodiesOf name) ∧
      ∀ rule ∈ rules, Means d s'.grammar rule := by
  induction rules generalizing s with
  | nil =>
    cases done
    exact ⟨ready, .refl _, fun _ _ _ => rfl, by simp⟩
  | cons rule rest ih =>
    obtain ⟨name, body⟩ := rule
    rw [addRules] at done
    obtain ⟨s₁, first, later⟩ := bind_eq_ok_iff.mp done
    obtain ⟨here, others⟩ := List.forall_mem_cons.mp listed
    obtain ⟨noneHere, noneLater⟩ := List.forall_mem_cons.mp none
    rw [List.map_cons, List.nodup_cons] at distinct
    obtain ⟨bodies, faithful⟩ := addAlternatives_faithful ready here first
    have gains := faithful.gains
    have noneLater : ∀ rule ∈ rest, s₁.grammar.bodiesOf rule.1 = [] := by
      intro rule member
      have ne : rule.1 ≠ name := fun same => distinct.1 (List.mem_map.mpr ⟨rule, member, same⟩)
      rw [gains.others rule.1 (ready.rules _ (others rule member)).mentions ne]
      exact noneLater rule member
    obtain ⟨ready', grows, same, means⟩ := ih faithful.ready others distinct.2 noneLater later
    refine ⟨ready', gains.grows.trans grows, fun other known absent => ?_, ?_⟩
    · rw [List.map_cons, List.mem_cons, not_or] at absent
      rw [same other (gains.grows.mentions known) absent.2, gains.others other known absent.1]
    · refine List.forall_mem_cons.mpr ⟨fun f ps ρ X reads finished => ?_, means⟩
      -- helpers of this rule are none of the rules that come later
      have settled : Settled s.grammar s₁.grammar f := by
        refine ⟨grows.trans finished.grows, fun other known new => ?_⟩
        rw [finished.bodies other (grows.mentions known), same other known]
        intro later
        obtain ⟨rule, inside, rfl⟩ := List.mem_map.mp later
        exact new (ready.rules _ (others rule inside)).mentions
      have known := gains.grows.mentions (ready.rules name here).mentions
      have own : f.bodiesOf name = bodies := by
        rw [finished.bodies name (grows.mentions known), same name known distinct.1, gains.own]
        exact congrArg (· ++ bodies) noneHere
      change ((f.bodiesOf name).map (reading ps ρ)).sum = _
      rw [own, faithful.means f ps ρ X reads settled, languageOfAny_alternatives]

end Flattening

namespace Definition

open Grammar Flattening

variable {d : Definition} {g h : Grammar}

/-! ## Declarations -/

theorem addTokens_spec {names : List String} (built : g.Built) (done : addTokens g names = .ok h) :
    h.Built ∧ g.Keeps h ∧ ∀ name ∈ names, h.Marks name .declared := by
  induction names generalizing g with
  | nil =>
    cases done
    exact ⟨built, .refl built.wellFormed, by simp⟩
  | cons name rest ih =>
    rw [addTokens] at done
    split at done
    next same =>
      obtain ⟨built', keeps, marks⟩ := ih built done
      -- the end of the input is a terminal of every grammar
      exact ⟨built', keeps, List.forall_mem_cons.mpr ⟨⟨_, same ▸ built'.wellFormed.ending⟩, marks⟩⟩
    next =>
      split at done
      next t g' added =>
        have first := built.wellFormed.addTerminal name
        have builtFirst := built.addTerminal name
        have entry := entry?_addTerminal built.wellFormed.aligned (congrArg Prod.fst added)
        rw [added] at first builtFirst entry
        obtain ⟨built', keeps, marks⟩ := ih builtFirst done
        have here : h.Marks name .declared := keeps.grows.marks (by decide) ⟨t, entry⟩
        exact ⟨built', first.trans keeps, List.forall_mem_cons.mpr ⟨here, marks⟩⟩
      next => cases done

theorem declareRules_spec {tokens seen names : List String} (built : g.Built)
    (done : declareRules tokens g seen names = .ok h) :
    h.Built ∧ g.Keeps h ∧ (∀ name ∈ names, h.Marks name .nonterminal ∧ name ∉ seen) ∧
      names.Nodup := by
  induction names generalizing g seen with
  | nil =>
    cases done
    exact ⟨built, .refl built.wellFormed, by simp, List.nodup_nil⟩
  | cons name rest ih =>
    rw [declareRules] at done
    split at done
    next => cases done
    next =>
      split at done
      next => cases done
      next unseen =>
        split at done
        next t g' added =>
          obtain ⟨first, entry⟩ := built.wellFormed.addNonterminal name
          have builtFirst := built.addNonterminal name
          rw [added] at first entry builtFirst
          obtain ⟨built', keeps, each, distinct⟩ := ih builtFirst done
          have here : h.Marks name .nonterminal := keeps.grows.marks (by decide) ⟨t, entry t rfl⟩
          refine ⟨built', first.trans keeps, List.forall_mem_cons.mpr ⟨⟨here, unseen⟩, ?_⟩, ?_⟩
          · exact fun other member => ⟨(each other member).1,
              fun listed => (each other member).2 (List.mem_cons_of_mem _ listed)⟩
          · exact List.nodup_cons.mpr
              ⟨fun member => (each name member).2 List.mem_cons_self, distinct⟩
        next => cases done

/-- Choosing a start changes nothing else. -/
theorem startFrom_eq {name : String} (done : g.startFrom name = (.ok (), h)) :
    h = { g with start := some name } := by
  unfold Grammar.startFrom at done
  split at done
  next current chosen =>
    split at done
    next same =>
      cases done
      rw [← same, ← chosen]
    next => cases done
  next =>
    cases done
    rfl

/-- What flattening makes of a definition. -/
structure Lowers (d : Definition) (g : Grammar) : Prop where
  built : g.Built
  unset : g.accept = none
  start : ∃ name ∈ d.declared.rules, d.start = some name ∧ g.start = some name
  rules : ∀ name ∈ d.declared.rules, g.Marks name .nonterminal
  generated : ∀ p ∈ g.productions, p.generated ↔ p.name ∉ d.declared.rules
  means : ∀ rule ∈ d.rules, ∀ ps ρ X, Interprets d.declared.rules g ps ρ X →
    ((g.bodiesOf rule.1).map (reading ps ρ)).sum = rule.2.language X

theorem lowers_of_flattened {s : Flattening} (done : d.flattened = .ok s) : d.Lowers s.grammar := by
  unfold flattened at done
  split at done
  next => cases done
  next start chosen =>
    obtain ⟨g, tokens, done⟩ := bind_eq_ok_iff.mp done
    obtain ⟨h, declared, done⟩ := bind_eq_ok_iff.mp done
    dsimp only at done
    split at done
    next => cases done
    next listed =>
      obtain ⟨s₁, flattened, done⟩ := bind_eq_ok_iff.mp done
      obtain ⟨⟨_, s₂⟩, started, same⟩ := bind_eq_ok_iff.mp done
      cases same
      have listed : start ∈ d.declared.rules := by simpa using listed
      obtain ⟨builtTokens, keepsTokens, terminals⟩ := addTokens_spec .empty tokens
      obtain ⟨built, keeps, rules, distinct⟩ := declareRules_spec builtTokens declared
      -- there are no productions before the rules are flattened
      have empty : h.productions = [] := (keepsTokens.trans keeps).productions
      have ready : Ready d.declared ⟨h, []⟩ :=
        ⟨built, (keepsTokens.trans keeps).accept,
          fun name member => keeps.grows.marks (by decide) (terminals name member), by simp,
          fun name member => (rules name member).1, by simp [empty]⟩
      obtain ⟨ready, -, -, means⟩ := addRules_means ready
        (fun rule member => List.mem_map_of_mem member) distinct
        (fun rule _ => by simp [bodiesOf, empty]) flattened
      obtain ⟨edited, -⟩ := edit_eq_ok_iff.mp started
      have after := startFrom_eq edited
      have grows : s₁.grammar.Grows s₂.grammar := .of_tables (by rw [after]) (by rw [after])
      have productions : s₂.grammar.productions = s₁.grammar.productions := by rw [after]
      refine ⟨?_, ?_, ⟨start, listed, chosen, by rw [after]⟩,
        fun name member => grows.marks (by decide) (ready.rules name member),
        fun p member => ready.generated p (productions ▸ member),
        fun rule member ps ρ X reads => means rule member _ ps ρ X reads ⟨grows, fun _ _ => ?_⟩⟩
      · rw [show s₂.grammar = (s₁.grammar.startFrom start).2 by rw [edited]]
        exact .startFrom start ready.built
      · rw [after]
        exact ready.unset
      · rw [bodiesOf, productions, bodiesOf]

end Definition

end ShiftReduce
