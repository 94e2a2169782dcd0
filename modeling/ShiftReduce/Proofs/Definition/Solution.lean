import Mathlib.Order.CompletePartialOrder
import ShiftReduce.Proofs.Definition.Meaning
import ShiftReduce.Proofs.Parser.Decisions

/-!
# Rules and their languages

Flattening keeps what a rule says: its own productions, with helpers rewritten, give the words of its
body. So what the rules derive solves the system of their bodies, and it is the least solution, as
nothing derives but by productions.
-/
namespace ShiftReduce

namespace Grammar

variable {g : Grammar} {rules : List String} {X : String → Language String}

/-- The words of terminals that derive from the symbol called `name`. -/
def languageOf (g : Grammar) (name : String) : Language String :=
  {word | ∃ s, g.symbol? name = some s ∧ word ∈ g.sentences s}

/-- The grammar with none but the productions of helpers. -/
def helping (g : Grammar) : Grammar :=
  { g with productions := g.productions.filter (·.generated) }

/-- What the own productions of `name` give once helpers are rewritten, and only terminals and
`rules` are left. -/
def expansions (g : Grammar) (rules : List String) (name : String) : Language String :=
  {word | ∃ p ∈ g.productions, p.name = name ∧ p.generated = false ∧ ∃ symbols,
    g.helping.Derives p.rhs symbols ∧ (∀ c ∈ symbols, g.isTerminal c ∨ g.name c ∈ rules) ∧
      symbols.map g.name = word}

/-- Terminals stand for themselves, and `rules` for what `X` gives them. -/
def valued (g : Grammar) (rules : List String) (X : String → Language String) (name : String) :
    Language String :=
  {word | word ∈ g.kept (g.isTerminal ·) name ∨ name ∈ rules ∧ word ∈ X name}

theorem valued_nil : g.valued [] X = g.kept (g.isTerminal ·) := by
  funext name
  ext word
  exact or_iff_left fun inside => List.not_mem_nil inside.1

theorem helping_subset (g : Grammar) : g.helping.productions ⊆ g.productions :=
  fun _ member => (List.mem_filter.mp member).1

theorem valued_self (known : ∀ name ∈ rules, g.Mentions name) :
    g.valued rules (fun name => {[name]}) = g.kept fun c => g.isTerminal c ∨ g.name c ∈ rules := by
  funext name
  ext word
  constructor
  · rintro (⟨same, c, named, terminal⟩ | ⟨listed, same⟩)
    · exact ⟨same, c, named, Or.inl terminal⟩
    · obtain ⟨c, named⟩ := known name listed
      exact ⟨same, c, named, Or.inr (named.name_eq.symm ▸ listed)⟩
  · rintro ⟨same, c, named, terminal | listed⟩
    · exact Or.inl ⟨same, c, named, terminal⟩
    · exact Or.inr ⟨named.name_eq ▸ listed, same⟩

theorem Marks.not_kept (wf : g.WellFormed) {name : String} (marks : g.Marks name .nonterminal)
    (word : List String) : word ∉ g.kept (g.isTerminal ·) name := by
  rintro ⟨-, c, named, terminal⟩
  obtain ⟨s, entry⟩ := marks
  obtain rfl := named.unique wf.distinct ⟨_, entry⟩
  exact not_isTerminal_of_isNonterminal ((isNonterminal_iff wf.aligned).mpr ⟨name, entry⟩) terminal

/-- The terminals that a symbol comes to are read off by unfolding its name. -/
theorem WellFormed.languageOf_eq (wf : g.WellFormed) {name : String} (known : g.Mentions name) :
    g.languageOf name = reading g.productions (g.kept (g.isTerminal ·)) [name] := by
  obtain ⟨s, named⟩ := known
  ext word
  have single : [name] = [s].map g.name := by rw [List.map_singleton, named.name_eq]
  rw [single, wf.mem_reading_iff (fun _ member => member) (by simpa using ⟨name, named⟩)]
  constructor
  · rintro ⟨t, found, member⟩
    cases (wf.symbol?_iff.mpr named).symm.trans found
    exact member
  · exact fun member => ⟨s, wf.symbol?_iff.mpr named, member⟩

end Grammar

namespace Definition

open Grammar

variable {engine : Regex.Engine} {d : Definition} {g : Grammar} {f : Frontend}
  {ps : List Production}
  {X Y : String → Language String}

/-- Every rule stands for what its body says. -/
def Solves (d : Definition) (X : String → Language String) : Prop :=
  ∀ rule ∈ d.rules, X rule.1 = rule.2.language X

/-- The rules stand for what their bodies say, and for no more than they have to. -/
structure LeastSolution (d : Definition) (X : String → Language String) : Prop where
  solves : d.Solves X
  least : ∀ Y, d.Solves Y → ∀ rule ∈ d.rules, X rule.1 ≤ Y rule.1

theorem LeastSolution.unique (first : d.LeastSolution X) (second : d.LeastSolution Y) :
    ∀ rule ∈ d.rules, X rule.1 = Y rule.1 := fun rule member =>
  le_antisymm (first.least Y second.solves rule member) (second.least X first.solves rule member)

theorem lowers_of_frontend (done : d.frontend engine = .ok f) : d.Lowers f.grammar := by
  obtain ⟨s, flattened, done⟩ := bind_eq_ok_iff.mp done
  obtain ⟨l, -, done⟩ := bind_eq_ok_iff.mp done
  cases done
  exact lowers_of_flattened flattened

namespace Lowers

variable (lowers : d.Lowers g) {rule : String × Body}

include lowers

theorem authored_iff {p : Production} (member : p ∈ g.productions) :
    p.generated = false ↔ p.name ∈ d.declared.rules := by
  rw [← Bool.not_eq_true, lowers.generated p member, not_not]

theorem interprets {held : List String} (within : held ⊆ d.declared.rules)
    (listed : ps ⊆ g.productions) (complete : ∀ p ∈ g.productions, p.generated → p ∈ ps)
    (reads : ∀ name ∈ d.declared.rules, reading ps (g.valued held X) [name] = Y name) :
    Interprets d.declared.rules g ps (g.valued held X) Y where
  wellFormed := lowers.built.wellFormed
  listed := listed
  complete p member helper := complete p member ((lowers.generated p member).mpr helper)
  terminal name declared := by
    ext word
    constructor
    · rintro (⟨same, -⟩ | ⟨inside, -⟩)
      · exact same
      -- no name is both a terminal and a rule
      · have kinds := declared.unique lowers.built.wellFormed (lowers.rules name (within inside))
        cases kinds
    · rintro same
      obtain ⟨s, entry⟩ := declared
      have terminal : g.isTerminal s :=
        (isTerminal_iff lowers.built.wellFormed.aligned).mpr ⟨name, _, entry, by decide⟩
      exact Or.inl ⟨same, s, ⟨_, entry⟩, terminal⟩
  helper name marks unlisted := by
    ext word
    constructor
    · rintro (own | ⟨inside, -⟩)
      · exact absurd own (marks.not_kept lowers.built.wellFormed word)
      · exact absurd (within inside) unlisted
    · exact fun none => absurd none (Language.notMem_zero word)
  rule := reads

/-- The productions of helpers leave the rules alone. -/
theorem interprets_helping (X : String → Language String) :
    Interprets d.declared.rules g g.helping.productions (g.valued d.declared.rules X) X := by
  refine lowers.interprets (fun _ member => member) g.helping_subset
    (fun p member generated => List.mem_filter.mpr ⟨member, generated⟩) fun name listed => ?_
  ext word
  rw [mem_reading_singleton]
  constructor
  · rintro ((own | ⟨-, member⟩) | ⟨p, member, rfl, -⟩)
    · exact absurd own ((lowers.rules name listed).not_kept lowers.built.wellFormed word)
    · exact member
    · obtain ⟨member, generated⟩ := List.mem_filter.mp member
      exact absurd listed ((lowers.generated p member).mp generated)
  · exact fun member => Or.inl (Or.inr ⟨listed, member⟩)

theorem interprets_productions :
    Interprets d.declared.rules g g.productions (g.valued [] g.languageOf) g.languageOf := by
  refine lowers.interprets (List.nil_subset _) (fun _ member => member)
    (fun p member _ => member) fun name listed => ?_
  rw [valued_nil]
  exact (lowers.built.wellFormed.languageOf_eq (lowers.rules name listed).mentions).symm

theorem mem_language_iff {ρ : String → Language String}
    (reads : Interprets d.declared.rules g ps ρ X) (listed : rule ∈ d.rules) {word : List String} :
    word ∈ rule.2.language X ↔
      ∃ p ∈ g.productions, p.name = rule.1 ∧ word ∈ reading ps ρ p.rhsNames := by
  rw [← lowers.means rule listed _ _ X reads, Body.mem_sum]
  simp only [List.mem_map]
  constructor
  · rintro ⟨_, ⟨body, member, rfl⟩, unfolds⟩
    obtain ⟨p, inside, name, rfl⟩ := mem_bodiesOf.mp member
    exact ⟨p, inside, name, unfolds⟩
  · rintro ⟨p, member, name, unfolds⟩
    exact ⟨_, ⟨_, mem_bodiesOf.mpr ⟨p, member, name, rfl⟩, rfl⟩, unfolds⟩

theorem expansions_eq (listed : rule ∈ d.rules) :
    g.expansions d.declared.rules rule.1 = rule.2.words := by
  have wf := lowers.built.wellFormed
  ext word
  rw [Body.words, lowers.mem_language_iff (lowers.interprets_helping _) listed,
    valued_self fun name member => (lowers.rules name member).mentions]
  constructor
  · rintro ⟨p, member, name, -, derives⟩
    refine ⟨p, member, name, ?_⟩
    rw [← wf.names_rhs member]
    exact (wf.mem_reading_iff g.helping_subset
      fun _ occurs => wf.named_of_mem member occurs).mpr derives
  · rintro ⟨p, member, name, unfolds⟩
    rw [← wf.names_rhs member] at unfolds
    have authored := (lowers.authored_iff member).mpr (name ▸ List.mem_map_of_mem listed)
    exact ⟨p, member, name, authored, (wf.mem_reading_iff g.helping_subset
      fun _ occurs => wf.named_of_mem member occurs).mp unfolds⟩

theorem solves_languageOf : d.Solves g.languageOf := by
  intro rule listed
  have reads := lowers.interprets_productions
  have own := List.mem_map_of_mem (f := Prod.fst) listed
  ext word
  have derived : word ∉ g.valued [] g.languageOf rule.1 := by
    rw [valued_nil]
    exact (lowers.rules rule.1 own).not_kept lowers.built.wellFormed word
  rw [lowers.mem_language_iff reads listed, ← reads.rule rule.1 own, mem_reading_singleton]
  exact or_iff_right derived

/-- What a rule derives is in every system of languages that its bodies do not lead out of. -/
theorem languageOf_le (closed : ∀ rule ∈ d.rules, rule.2.language Y ≤ Y rule.1)
    (listed : rule ∈ d.rules) : g.languageOf rule.1 ≤ Y rule.1 := by
  have reads := lowers.interprets_helping Y
  have own := List.mem_map_of_mem (f := Prod.fst) listed
  -- a rule that is unfolded stands for no more than `Y` gives it, so unfolding can stop there
  have stops {names word : List String}
      (unfolds : Unfolds g.productions (g.kept (g.isTerminal ·)) names word) :
      Unfolds g.helping.productions (g.valued d.declared.rules Y) names word := by
    induction unfolds with
    | nil => exact .nil
    | keep terminal _ ih => exact .keep (Or.inl terminal) ih
    | @expand p names u v member _ _ inner rest =>
      by_cases role : p.name ∈ d.declared.rules
      · obtain ⟨other, inside, name⟩ := List.mem_map.mp role
        refine .keep (Or.inr ⟨role, ?_⟩) rest
        rw [← name]
        apply closed other inside
        exact (lowers.mem_language_iff reads inside).mpr ⟨p, member, name.symm, inner⟩
      · have generated := (lowers.generated p member).mpr role
        exact .expand (List.mem_filter.mpr ⟨member, generated⟩) inner rest
  rw [lowers.built.wellFormed.languageOf_eq (lowers.rules rule.1 own).mentions,
    ← reads.rule rule.1 own]
  exact fun word unfolds => stops unfolds

theorem leastSolution : d.LeastSolution g.languageOf where
  solves := lowers.solves_languageOf
  least _ solves _ listed :=
    lowers.languageOf_le (fun rule inside => (solves rule inside).ge) listed

end Lowers

/-- The rules of a frontend mean what their bodies say. Their own productions give the words of the
bodies once helpers are rewritten, and their languages are the least solution of the bodies. -/
theorem frontend_denotes (done : d.frontend engine = .ok f) :
    (∀ rule ∈ d.rules,
      f.grammar.expansions (d.rules.map (·.1)) rule.1 = rule.2.words) ∧
    d.LeastSolution f.grammar.languageOf :=
  have lowers := lowers_of_frontend done
  ⟨fun _ listed => lowers.expansions_eq listed, lowers.leastSolution⟩

/-- One rule: at least one `a`, with commas between them. -/
def listing : Definition where
  tokens := []
  rules := [("list", .separatedBy (.literal "a") (.literal ","))]
  start := some "list"
  preference := .longest

theorem frontend_denotes_listing : ∃ f, listing.frontend .builtIn = .ok f ∧
    f.grammar.expansions ["list"] "list" = {["a"]} * KStar.kstar ({[","]} * {["a"]}) ∧
    f.grammar.languageOf "list" = {["a"]} * KStar.kstar ({[","]} * {["a"]}) := by
  obtain ⟨f, done, -⟩ :=
    Parser.exists_of_check (listing.frontend .builtIn) (fun _ => true) (by decide +kernel)
  obtain ⟨expansions, solution⟩ := frontend_denotes done
  have rule : ("list", .separatedBy (.literal "a") (.literal ",")) ∈ listing.rules :=
    List.mem_singleton_self _
  refine ⟨f, done, (expansions _ rule).trans ?_, (solution.solves _ rule).trans ?_⟩
  · simp [Body.words, Body.language_separatedBy, Body.language]
  · simp [Body.language_separatedBy, Body.language]

end Definition

end ShiftReduce
