import ShiftReduce.Proofs.Definition.Solution
import ShiftReduce.Proofs.Grammar.Conservativity
import ShiftReduce.Proofs.Parser.Completeness
import ShiftReduce.Proofs.Tree.Splicing

/-!
# The shape of finished trees

Once generated nodes are spliced out, what stands below a node of a rule is a word of the body of the
rule. The trees that take the place of a tree spell what its symbol unfolds to by the productions of
helpers, and a rule's own production unfolds to the words of its body.
-/
namespace ShiftReduce.Definition

open Grammar

variable {engine : Regex.Engine} {d : Definition} {g : Grammar} {f : Frontend} {s : Symbol}
  {t : Tree}

/-- All nodes of a tree are nodes of rules, and the names below a node are a word of the rule's
body. -/
def Shaped (d : Definition) (t : Tree) : Prop :=
  ∀ q cs, .node q cs ∈ t.preorder → q.generated = false ∧
    ∃ rule ∈ d.rules, q.name = rule.1 ∧ cs.map Tree.name ∈ rule.2.words

/-- What names unfold to when helpers are rewritten. -/
def spelled (d : Definition) (g : Grammar) (names : List String) : Language String :=
  reading g.helping.productions (g.valued d.declared.rules fun name => {[name]}) names

namespace Lowers

variable (lowers : d.Lowers g)

include lowers

theorem shaped_node {p : Production} {cs : List Tree} (member : p ∈ g.productions)
    (authored : p.generated = false) (each : ∀ c ∈ cs, d.Shaped c)
    (spells : cs.map Tree.name ∈ d.spelled g p.rhsNames) : d.Shaped (.node p cs) := by
  intro q ds inside
  rw [Tree.preorder_node, List.mem_cons, List.mem_flatMap] at inside
  rcases inside with same | ⟨c, child, inside⟩
  · cases same
    obtain ⟨rule, listed, name⟩ := List.mem_map.mp ((lowers.authored_iff member).mp authored)
    exact ⟨authored, rule, listed, name.symm, (lowers.mem_language_iff
      (lowers.interprets_helping _) listed).mpr ⟨p, member, name.symm, spells⟩⟩
  · exact each c child q ds inside

omit lowers in
theorem spells_forest {α : List Symbol} {ts : List Tree}
    (each : List.Forall₂ (fun s t => t.splice.map Tree.name ∈ d.spelled g [g.name s] ∧
      ∀ u ∈ t.splice, d.Shaped u) α ts) :
    (Tree.spliceEach ts).map Tree.name ∈ d.spelled g (α.map g.name) ∧
      ∀ u ∈ Tree.spliceEach ts, d.Shaped u := by
  induction each with
  | nil => exact ⟨.nil, by simp [Tree.spliceEach]⟩
  | cons first _ ih =>
    rw [Tree.spliceEach, List.map_append, List.map_cons, spelled, reading_cons]
    refine ⟨Language.append_mem_mul first.1 ih.1, fun u member => ?_⟩
    rcases List.mem_append.mp member with front | behind
    · exact first.2 u front
    · exact ih.2 u behind

/-- What takes the place of a tree spells its symbol, and has the shape of the rules. -/
theorem spells (derivation : g.Derivation s t) :
    t.splice.map Tree.name ∈ d.spelled g [g.name s] ∧ ∀ u ∈ t.splice, d.Shaped u := by
  refine derivation.induct ?leaf ?node
  case leaf =>
    intro s token terminal named
    have own : [g.name s] ∈ g.kept (g.isTerminal ·) (g.name s) :=
      ⟨rfl, s, lowers.built.wellFormed.named_of_isTerminal terminal, terminal⟩
    refine ⟨mem_reading_singleton.mpr (Or.inl (Or.inl ?_)), ?_⟩
    · simpa [Tree.splice, Tree.name, named] using own
    · simp [Tree.splice, Shaped]
  case node =>
    intro p cs member _ each
    have wf := lowers.built.wellFormed
    obtain ⟨spelled, shaped⟩ := spells_forest each
    rw [wf.names_rhs member] at spelled
    rw [Tree.splice, wf.name_lhs member]
    split
    next generated =>
      -- the children stand where the helper stood
      have helping : p ∈ g.helping.productions := List.mem_filter.mpr ⟨member, generated⟩
      exact ⟨mem_reading_singleton.mpr (Or.inr ⟨p, helping, rfl, spelled⟩), shaped⟩
    next authored =>
      have authored : p.generated = false := by simpa using authored
      have node := lowers.shaped_node member authored shaped spelled
      have role := (lowers.authored_iff member).mp authored
      exact ⟨mem_reading_singleton.mpr (Or.inl (Or.inr ⟨role, rfl⟩)), by simpa using node⟩

/-- The root of a tree of a rule is its own node, so it stays one. -/
theorem shaped_spliced (derivation : g.Derivation s t) {start : String} (named : g.Named s start)
    (listed : start ∈ d.declared.rules) :
    d.Shaped t.spliced ∧ ∃ q cs, t.spliced = .node q cs ∧ q.name = start := by
  have wf := lowers.built.wellFormed
  obtain ⟨s', entry⟩ := lowers.rules start listed
  obtain rfl := named.unique wf.distinct ⟨_, entry⟩
  obtain ⟨q, cs, rfl, rfl, member, -⟩ :=
    derivation.node_of_isNonterminal ((isNonterminal_iff wf.aligned).mpr ⟨start, entry⟩)
  have name : q.name = start := (wf.name_lhs member).symm.trans named.name_eq
  have authored := (lowers.authored_iff member).mpr (name ▸ listed)
  have shaped := (lowers.spells derivation).2
  rw [Tree.splice, if_neg (by simp [authored]), List.forall_mem_singleton,
    ← Tree.spliced_node] at shaped
  exact ⟨shaped, q, Tree.spliceEach cs, Tree.spliced_node q cs, name⟩

end Lowers

/-! ## Parsers of definitions -/

section Parsers

variable {settings : Settings} {p : Parser} {X : String → Language String}

theorem lexer_built (done : d.frontend engine = .ok f) : f.lexer.Built := by
  obtain ⟨s, -, done⟩ := bind_eq_ok_iff.mp done
  obtain ⟨l, rules, done⟩ := bind_eq_ok_iff.mp done
  cases done
  exact .ofRules rules

/-- The start rule is the goal of the parser. -/
theorem Lowers.goal (lowers : d.Lowers f.grammar) (made : f.parser engine settings = .ok p) :
    ∃ start s, start ∈ d.declared.rules ∧ d.start = some start ∧ f.grammar.Named s start ∧
      p.grammar.goal? = some s ∧ p.grammar.AcceptFresh ∧
      ∀ t, p.grammar.Derivation s t ↔ f.grammar.Derivation s t := by
  have wf := lowers.built.wellFormed
  obtain ⟨start, listed, chosen, starts⟩ := lowers.start
  obtain ⟨s, entry⟩ := lowers.rules start listed
  have named : f.grammar.Named s start := ⟨_, entry⟩
  obtain ⟨augmented, same⟩ := Parser.grammar_of_ofGrammar made
  refine ⟨start, s, listed, chosen, named, ?_, ?_, fun t => ?_⟩
  · rw [same, wf.goal?_augment lowers.unset augmented, startSymbol?, starts]
    exact wf.symbol?_iff.mpr named
  · rw [same]
    exact wf.acceptFresh_augment lowers.unset augmented
  · rw [same]
    exact wf.derivation_augment_iff lowers.unset augmented ⟨start, named⟩

/-- Parsers of a definition do what its rules say. A tree is a node of the start rule with the shape
of the rules all over; and without conflicts every text with the names of a word of the start rule
has a tree. -/
theorem parser_follows_rules (done : d.frontend engine = .ok f)
    (made : f.parser engine settings = .ok p)
    (splicing : settings.splice = true) :
    (∀ text tree, p.treeOf text = .ok tree → d.Shaped tree ∧
      ∃ start q cs, d.start = some start ∧ tree = .node q cs ∧ q.name = start) ∧
    (p.table.isContested = false → ∀ X, d.LeastSolution X → ∀ start, d.start = some start →
      ∀ text ts last, p.lexer.tokens text = .ok (ts ++ [last]) → last.isEnd →
        ts.map (·.name) ∈ X start → ∃ tree, p.treeOf text = .ok tree) := by
  have lowers := lowers_of_frontend done
  have wf := lowers.built.wellFormed
  have built := Parser.wellBuilt_of_ofGrammar lowers.built made
  obtain ⟨start, s, listed, chosen, named, goal, fresh, derivations⟩ := lowers.goal made
  constructor
  · intro text tree answered
    have unreserved := (Parser.built_lexer_of_ofGrammar (lexer_built done) made).unreserved
    obtain ⟨whole, c, ended, finished⟩ := Parser.treeOf_eq_ok_iff.mp answered
    obtain ⟨s', last, goal', -, derivation, -⟩ :=
      built.tree_of_accepted fresh unreserved ended
    cases goal.symm.trans goal'
    have splices : p.settings.splice = true := Parser.settings_of_ofGrammar made ▸ splicing
    rw [Parser.finished, if_pos splices] at finished
    subst finished
    obtain ⟨shaped, q, cs, node, name⟩ :=
      lowers.shaped_spliced ((derivations whole).mp derivation) named listed
    exact ⟨shaped, start, q, cs, chosen, node, name⟩
  · intro quiet X solution start' chosen' text ts last tokens isEnd member
    cases chosen.symm.trans chosen'
    obtain ⟨rule, inside, rfl⟩ := List.mem_map.mp listed
    -- the least solution is what the grammar derives
    rw [solution.unique lowers.leastSolution rule inside] at member
    obtain ⟨s', found, member⟩ := member
    cases (wf.symbol?_iff.mpr named).symm.trans found
    obtain ⟨tree, derivation, leaves⟩ := exists_tree_of_mem_sentences member
    obtain ⟨c, ended⟩ := built.accepts_of_derivation quiet fresh goal
      ((derivations tree).mpr derivation) isEnd (leaves ▸ (Lexer.tokens_eq_ok_iff.mp tokens).2)
    exact ⟨p.finished tree, Parser.treeOf_eq_ok_iff.mpr ⟨tree, c, ended, rfl⟩⟩

/-- The text `a,a` has a tree, in which the helpers for repetition do not show. -/
theorem parser_follows_rules_listing : ∃ f p tree q cs, listing.frontend .builtIn = .ok f ∧
    f.parser .builtIn .standard = .ok p ∧ p.treeOf "a,a" = .ok tree ∧ listing.Shaped tree ∧
      tree = .node q cs ∧ q.name = "list" := by
  obtain ⟨f, done, passed⟩ := Parser.exists_of_check (listing.frontend .builtIn)
    (fun f => (f.parser .builtIn .standard).toOption.any fun p => !p.table.isContested &&
      (p.lexer.tokens "a,a").toOption.any (·.map (fun token => (token.name, token.isEnd)) =
        [("a", false), (",", false), ("a", false), (endName, true)])) (by decide +kernel)
  obtain ⟨p, made, passed⟩ := Parser.exists_of_check (f.parser .builtIn .standard) _ passed
  obtain ⟨quiet, read⟩ := Bool.and_eq_true_iff.mp passed
  obtain ⟨tokens, tokenized, listed⟩ := Parser.exists_of_check _ _ read
  obtain ⟨ts, last, rfl, names, isEnd⟩ : ∃ ts last, tokens = ts ++ [last] ∧
      ts.map (·.name) = ["a", ",", "a"] ∧ last.isEnd := by
    rcases tokens with _ | ⟨first, _ | ⟨comma, _ | ⟨second, _ | ⟨last, _ | ⟨other, rest⟩⟩⟩⟩⟩
    all_goals simp at listed
    exact ⟨[first, comma, second], last, rfl, by simp [listed], listed.2.2.2.2⟩
  have solution := (lowers_of_frontend done).leastSolution
  have rule : ("list", .separatedBy (.literal "a") (.literal ",")) ∈ listing.rules :=
    List.mem_singleton_self _
  have member : ["a", ",", "a"] ∈ f.grammar.languageOf "list" := by
    have once : ({[","]} * {["a"]} : Language String) ≤ KStar.kstar ({[","]} * {["a"]}) := le_kstar
    have more := once (Language.append_mem_mul (Set.mem_singleton _) (Set.mem_singleton _))
    rw [solution.solves _ rule, Body.language_separatedBy, Body.language, Body.language]
    exact Language.append_mem_mul (Set.mem_singleton _) more
  obtain ⟨shape, complete⟩ := parser_follows_rules done made rfl
  obtain ⟨tree, answered⟩ := complete (by simpa using quiet) _ solution "list" rfl "a,a" ts last
    tokenized isEnd (names ▸ member)
  obtain ⟨shaped, start, q, cs, chosen, node, name⟩ := shape "a,a" tree answered
  cases chosen
  exact ⟨f, p, tree, q, cs, done, made, answered, shaped, node, name⟩

end Parsers

end ShiftReduce.Definition
