import ShiftReduce.Proofs.Definition.Acceptance
import ShiftReduce.Proofs.Definition.Meaning
import ShiftReduce.Proofs.Lexer.Admission

/-!
# Definitions that can be built

A definition that is built is well-formed, and one that is well-formed is built unless a literal in
it has the name of a helper. Names are looked at first, then the bodies of the rules, and the lexer
has the last word.
-/
namespace ShiftReduce

namespace Definition

open Grammar Flattening

variable {engine : Regex.Engine} {d : Definition} {g h : Grammar}

/-! ## Declarations -/

/-- Tokens are always added where there are no nonterminals yet. -/
theorem exists_addTokens (names : List String) (built : g.Built)
    (none : ∀ name, ¬ g.Marks name .nonterminal) : ∃ h, addTokens g names = .ok h ∧
      ∀ name kind, h.Marks name kind → g.Marks name kind ∨ name ∈ names ∧ kind = .declared := by
  induction names generalizing g with
  | nil => exact ⟨g, rfl, fun _ _ => Or.inl⟩
  | cons name rest ih =>
    rw [addTokens]
    by_cases reserved : name = endName
    · rw [if_pos reserved]
      obtain ⟨h, done, marks⟩ := ih built none
      refine ⟨h, done, fun other kind after => (marks other kind after).imp_right fun new => ?_⟩
      exact ⟨List.mem_cons_of_mem _ new.1, new.2⟩
    rw [if_neg reserved]
    obtain ⟨ending, -⟩ | ⟨nonterminal, -⟩ | ⟨-, -, s, after, added⟩ :=
      built.wellFormed.addTerminal_cases name
    · exact absurd ending reserved
    · exact absurd nonterminal (none name)
    have more {other kind} (marks : (g.addTerminal name).2.Marks other kind) :=
      marks_addTerminal built.wellFormed.aligned marks
    have built := built.addTerminal name
    rw [added] at more built ⊢
    dsimp only at more built ⊢
    obtain ⟨h, done, marks⟩ := ih built fun other nonterminal => by
      rcases more nonterminal with old | ⟨-, kind⟩
      · exact none other old
      · cases kind
    refine ⟨h, done, fun other kind after => ?_⟩
    rcases marks other kind after with old | new
    · rcases more old with older | ⟨rfl, kind⟩
      · exact Or.inl older
      · exact Or.inr ⟨List.mem_cons_self, kind⟩
    · exact Or.inr ⟨List.mem_cons_of_mem _ new.1, new.2⟩

/-- Which rules can be declared where only the tokens are declared terminals. -/
theorem exists_declareRules {tokens seen names : List String} (built : g.Built)
    (terminals : ∀ name, g.Marks name .declared → name ∈ tokens ∨ name = endName) :
    (∃ h, declareRules tokens g seen names = .ok h) ↔
      names.Nodup ∧ ∀ name ∈ names, name ≠ endName ∧ name ∉ tokens ∧ name ∉ seen := by
  induction names generalizing g seen with
  | nil => simp [declareRules]
  | cons name rest ih =>
    rw [declareRules]
    by_cases token : name ∈ tokens
    · simp [token]
    by_cases known : name ∈ seen
    · simp [token, known]
    rw [if_neg token, if_neg known]
    obtain ⟨declared, e, refused⟩ | ⟨undeclared, s, h, added, -⟩ :=
      built.wellFormed.addNonterminal_cases name
    · have reserved : name = endName := (terminals name declared).resolve_left token
      rw [refused]
      simp [reserved]
    have proper : name ≠ endName := by
      rintro rfl
      exact undeclared built.wellFormed.marks_endName
    have more {other kind} (marks : (g.addNonterminal name).2.Marks other kind) :=
      marks_addNonterminal built.wellFormed.aligned marks
    have built := built.addNonterminal name
    rw [added] at more built ⊢
    dsimp only at more built ⊢
    rw [ih built fun other declared => by
      rcases more declared with old | ⟨-, kind⟩
      · exact terminals other old
      · cases kind]
    rw [List.nodup_cons, List.forall_mem_cons]
    simp only [List.mem_cons, not_or]
    grind

theorem marks_declareRules {tokens seen names : List String} {kind : Symbol.Kind} {name : String}
    (built : g.Built) (done : declareRules tokens g seen names = .ok h)
    (marks : h.Marks name kind) :
    g.Marks name kind ∨ name ∈ names ∧ kind = .nonterminal := by
  induction names generalizing g seen with
  | nil =>
    cases done
    exact Or.inl marks
  | cons first rest ih =>
    rw [declareRules] at done
    split at done
    next => cases done
    split at done
    next => cases done
    split at done
    next s after added =>
      have builtFirst := built.addNonterminal first
      rw [added] at builtFirst
      rcases ih builtFirst done with old | new
      · have old : (g.addNonterminal first).2.Marks name kind := by rwa [added]
        rcases marks_addNonterminal built.wellFormed.aligned old with older | ⟨rfl, kind⟩
        · exact Or.inl older
        · exact Or.inr ⟨List.mem_cons_self, kind⟩
      · exact Or.inr ⟨List.mem_cons_of_mem _ new.1, new.2⟩
    next => cases done

/-- The tokens of a definition can always be declared. -/
theorem exists_tokensDeclared (d : Definition) : ∃ g, addTokens .empty d.tokenNames = .ok g ∧
    ∀ name kind, g.Marks name kind → (name ∈ d.tokenNames ∨ name = endName) ∧ kind = .declared := by
  have ending {name kind} (marks : Grammar.empty.Marks name kind) :
      name = endName ∧ kind = .declared := by
    simpa [marks_iff, entries, Grammar.empty] using marks
  obtain ⟨g, done, marks⟩ := exists_addTokens d.tokenNames .empty fun name marks => by
    cases (ending marks).2
  refine ⟨g, done, fun name kind known => ?_⟩
  rcases marks name kind known with old | new
  · exact (ending old).imp_left Or.inr
  · exact new.imp_left Or.inl

/-- What flattening asks of the names of a definition. -/
def ProperNames (d : Definition) : Prop :=
  (∃ name ∈ d.declared.rules, d.start = some name) ∧ d.declared.rules.Nodup ∧
    ∀ name ∈ d.declared.rules, name ≠ endName ∧ name ∉ d.tokenNames

theorem properNames_of_flattened {s : Flattening} (done : d.flattened = .ok s) :
    d.ProperNames := by
  obtain ⟨name, listed, chosen, -⟩ := (lowers_of_flattened done).start
  obtain ⟨g, tokens, marks⟩ := d.exists_tokensDeclared
  unfold flattened at done
  rw [chosen] at done
  obtain ⟨g', same, done⟩ := bind_eq_ok_iff.mp done
  cases tokens.symm.trans same
  obtain ⟨h, declared, -⟩ := bind_eq_ok_iff.mp done
  have rules := (exists_declareRules (addTokens_spec .empty tokens).1
    fun name known => (marks name _ known).1).mp ⟨h, declared⟩
  exact ⟨⟨name, listed, chosen⟩, rules.1, fun name member =>
    ⟨(rules.2 name member).1, (rules.2 name member).2.1⟩⟩

/-- Where the names are right, it is for the bodies to decide. The literals that are collected are
fit to become rules of the lexer. -/
theorem ProperNames.flattened_verdict (names : d.ProperNames) (proper : endName ∉ d.tokenNames) :
    Verdict d.declared (d.rules.flatMap (·.2.parts))
      (fun s => s.literals.Nodup ∧
        ∀ text ∈ s.literals, text ≠ "" ∧ text ∉ d.tokenNames ∧ text ≠ endName) d.flattened := by
  obtain ⟨⟨start, listed, chosen⟩, distinct, allowed⟩ := names
  obtain ⟨g, tokens, marks⟩ := d.exists_tokensDeclared
  obtain ⟨builtTokens, keepsTokens, terminals⟩ := addTokens_spec .empty tokens
  obtain ⟨h, declared⟩ : ∃ h, declareRules d.tokenNames g [] d.declared.rules = .ok h :=
    (exists_declareRules builtTokens fun name known => (marks name _ known).1).mpr
      ⟨distinct, by simpa using allowed⟩
  obtain ⟨built, keeps, rules, -⟩ := declareRules_spec builtTokens declared
  have same := keepsTokens.trans keeps
  have empty : h.productions = [] := same.productions
  have tidy : Tidy d.declared ⟨h, []⟩ := by
    refine ⟨⟨built, same.accept, ?_, by simp, fun name member => (rules name member).1,
      by simp [empty]⟩, same.start, fun name known => Or.inl ?_, List.nodup_nil, by simp⟩
    · exact fun name member => keeps.grows.marks (by decide) (terminals name member)
    · rcases marks_declareRules builtTokens declared known with old | new
      · cases (marks name _ old).2
      · exact new.1
  have verdict := addRules_verdict proper
    (fun rule member => List.mem_map_of_mem (f := Prod.fst) member) tidy
  unfold flattened
  rw [chosen]
  dsimp only
  rw [tokens]
  change Verdict _ _ _ (declareRules d.tokenNames g [] d.declared.rules >>= _)
  rw [declared]
  change Verdict _ _ _ (if start ∉ d.declared.rules then _ else _)
  rw [if_neg (not_not.mpr listed)]
  refine verdict.finish fun s advances => ?_
  have unchosen := advances.tidy.unchosen
  refine ⟨{ s with grammar := { s.grammar with start := some start } }, ?_,
    advances.tidy.distinct, advances.tidy.apart⟩
  simp [edit, Grammar.startFrom, unchosen, bind, Except.bind, pure, Except.pure]

/-! ## Building -/

/-- What the lexer asks of the tokens of a definition. -/
theorem WellFormed.exists_lexer (wf : d.WellFormed engine) :
    ∃ l, Lexer.ofRules engine d.preference d.tokens = .ok l :=
  Lexer.exists_ofRules.mpr ⟨⟨wf.tokens.1, fun rule member ending =>
    wf.tokens.2 (List.mem_map.mpr ⟨rule, member, ending⟩)⟩, wf.modes, wf.patterns⟩

theorem WellFormed.properNames (wf : d.WellFormed engine) : d.ProperNames :=
  ⟨wf.start, wf.rules⟩

/-- Only well-formed definitions are built. -/
theorem wellFormed_of_frontend {f : Frontend} (built : d.frontend engine = .ok f) :
    d.WellFormed engine := by
  obtain ⟨s, flattened, later⟩ := bind_eq_ok_iff.mp built
  obtain ⟨l, accepted, -⟩ := bind_eq_ok_iff.mp later
  have names := properNames_of_flattened flattened
  obtain ⟨lexer, -⟩ := Lexer.exists_ofRules_literals.mp ⟨l, accepted⟩
  obtain ⟨⟨distinct, unreserved⟩, modes, patterns⟩ := Lexer.exists_ofRules.mp lexer
  have proper : endName ∉ d.tokenNames := by
    intro member
    obtain ⟨rule, listed, ending⟩ := List.mem_map.mp member
    exact unreserved rule listed ending
  have verdict := names.flattened_verdict proper
  rw [flattened] at verdict
  cases verdict with
  | accepted all =>
    exact ⟨names.1, ⟨distinct, proper⟩, patterns, modes, names.2, fun rule member e part =>
      all e (List.mem_flatMap.mpr ⟨rule, member, part⟩)⟩

/-- A well-formed definition is built, unless a literal in it is called like a helper. -/
theorem WellFormed.frontend_cases (wf : d.WellFormed engine) : (∃ f, d.frontend engine = .ok f) ∨
    ∃ text, d.frontend engine = .error (.nameConflict text) ∧ d.HasLiteral text ∧
      text ∉ d.tokenNames ∧ d.declared.Invents text := by
  have verdict := wf.properNames.flattened_verdict wf.tokens.2
  unfold frontend
  generalize d.flattened = flattened at verdict
  cases verdict with
  | accepted all literals =>
    left
    obtain ⟨l, accepted⟩ := Lexer.exists_ofRules_literals.mpr ⟨wf.exists_lexer, literals⟩
    exact ⟨_, bind_eq_ok_iff.mpr ⟨_, rfl, bind_eq_ok_iff.mpr ⟨l, accepted, rfl⟩⟩⟩
  | refused part wrong =>
    obtain ⟨rule, member, inside⟩ := List.mem_flatMap.mp part
    exact absurd (wf.bodies rule member _ inside) wrong
  | taken part foreign invented =>
    obtain ⟨rule, member, inside⟩ := List.mem_flatMap.mp part
    exact Or.inr ⟨_, rfl, ⟨rule, member, inside⟩, foreign, invented⟩

/-- No literal can be mistaken for a helper. -/
def Unambiguous (d : Definition) : Prop :=
  ∀ text, d.HasLiteral text → text ∉ d.tokenNames → ¬ d.declared.Invents text

theorem Unambiguous.exists_frontend_iff (clear : d.Unambiguous) :
    (∃ f, d.frontend engine = .ok f) ↔ d.WellFormed engine := by
  constructor
  · rintro ⟨f, built⟩
    exact wellFormed_of_frontend built
  · intro wf
    obtain built | ⟨text, -, literal, foreign, invented⟩ := wf.frontend_cases
    · exact built
    · exact absurd invented (clear text literal foreign)

theorem Unambiguous.perm {rules : List (String × Body)} (clear : d.Unambiguous)
    (perm : d.rules.Perm rules) : { d with rules }.Unambiguous := by
  rintro text ⟨rule, member, part⟩ foreign ⟨owner, listed, helper⟩
  have names : d.declared.rules.Perm (rules.map (·.1)) := List.Perm.map Prod.fst perm
  exact clear text ⟨rule, perm.mem_iff.mpr member, part⟩ foreign
    ⟨owner, names.mem_iff.mpr listed, helper⟩

/-- A definition that is built is well-formed. One that is well-formed is built, unless some literal
in it that is no token has a name that a helper can have: then that literal may be refused as a name
conflict. Without such literals being built is the same as being well-formed, in any order of the
rules. -/
theorem frontend_admits (d : Definition) :
    ((∃ f, d.frontend engine = .ok f) → d.WellFormed engine) ∧
    (d.WellFormed engine → (∃ f, d.frontend engine = .ok f) ∨
      ∃ text, d.frontend engine = .error (.nameConflict text) ∧ d.HasLiteral text ∧
        text ∉ d.tokenNames ∧ d.declared.Invents text) ∧
    (d.Unambiguous → ((∃ f, d.frontend engine = .ok f) ↔ d.WellFormed engine) ∧
      ∀ rules, d.rules.Perm rules →
        ((∃ f, { d with rules }.frontend engine = .ok f) ↔ ∃ f, d.frontend engine = .ok f)) := by
  refine ⟨fun ⟨f, built⟩ => wellFormed_of_frontend built, WellFormed.frontend_cases,
    fun clear => ⟨clear.exists_frontend_iff, fun rules perm => ?_⟩⟩
  rw [clear.exists_frontend_iff, (clear.perm perm).exists_frontend_iff]
  exact ⟨fun wf => wf.perm perm.symm, fun wf => wf.perm perm⟩

/-- The rules `S -> "a"? T` and `T -> text`, in this order. -/
def optionThen (text : String) : Definition where
  tokens := []
  rules := [("S", .seq [.opt (.literal "a"), .rule "T"]), ("T", .literal text)]
  start := some "S"
  preference := .longest

/-- With a semicolon in `T` the rules may stand in any order. -/
theorem frontend_admits_reversed : (optionThen ";").Unambiguous ∧ ∃ f,
    { optionThen ";" with rules := (optionThen ";").rules.reverse }.frontend .builtIn = .ok f := by
  have clear : (optionThen ";").Unambiguous := by
    rintro text ⟨rule, member, part⟩ - invented
    have short : ∀ rule ∈ (optionThen ";").rules, ∀ text, .literal text ∈ rule.2.parts →
        text.length = 1 := by
      simpa [optionThen, Body.parts, Body.partsOfAll] using by decide
    have long := Declared.Invents.length_le invented
    rw [short rule member text part] at long
    contradiction
  have wf : (optionThen ";").WellFormed .builtIn :=
    ⟨by decide, by decide, by simp [optionThen], by simp [optionThen], by decide, by decide⟩
  obtain ⟨built, reordered⟩ := (frontend_admits (optionThen ";")).2.2 clear
  exact ⟨clear, (reordered _ (List.reverse_perm _).symm).mpr (built.mpr wf)⟩

/-- The same rules with the name of a helper as a literal are well-formed but refused, where the
option comes first. Where it comes later, they are built. -/
theorem optionThen_refused : (optionThen "S_optional").WellFormed .builtIn ∧
    (optionThen "S_optional").frontend .builtIn = .error (.nameConflict "S_optional") ∧
    ∃ f, { optionThen "S_optional" with
      rules := (optionThen "S_optional").rules.reverse }.frontend .builtIn = .ok f := by
  refine ⟨?wellFormed, rfl, _, rfl⟩
  exact ⟨by decide, by decide, by simp [optionThen], by simp [optionThen], by decide, by decide⟩

end Definition

end ShiftReduce
