import ShiftReduce.Parser.Run
import ShiftReduce.Proofs.Automaton.Merging
import ShiftReduce.Proofs.Grammar.Augmentation
import ShiftReduce.Proofs.Lexer.Reading
import ShiftReduce.Proofs.Table.Cells

/-!
# What a parser decides

A parser shifts over an edge and reduces a complete item, whatever conflicts its table had. Without
conflicts it does so wherever there is an edge or a complete item.
-/
namespace ShiftReduce.Parser

/-! ## Built parsers -/

/-- The automaton that settings choose. -/
def automatonFor (g : Grammar) (accept : Nat) (lalr : Bool) : Automaton :=
  if lalr then (Automaton.canonical g g.analysis accept).merge
  else Automaton.canonical g g.analysis accept

/-- The parser of a grammar with accept production `accept` and a finished lexer. -/
def assembled (g : Grammar) (lexer : Lexer) (accept : Nat) (settings : Settings) : Parser where
  grammar := g
  lexer
  analysis := g.analysis
  automaton := automatonFor g accept settings.lalr
  table := .ofAutomaton g (automatonFor g accept settings.lalr)
  settings

variable {engine : Regex.Engine} {g : Grammar} {l : Lexer} {settings : Settings} {p : Parser}

theorem ofGrammar_eq_ok_iff : ofGrammar engine g l settings = .ok p ↔ g.augment.1 = .ok () ∧
    ∃ lexer accept, extendAll engine l (missingTerminals g.augment.2 l) = .ok lexer ∧
      g.augment.2.accept = some accept ∧ p = assembled g.augment.2 lexer accept settings ∧
      ¬(settings.refuseConflicts ∧ p.table.isContested) := by
  unfold ofGrammar ofAugmented
  rcases g.augment with ⟨result, augmented⟩
  cases result with
  | error e => simp
  | ok done =>
    cases extended : extendAll engine l (missingTerminals augmented l) with
    | error e => simp [extended, bind, Except.bind]
    | ok lexer =>
      cases chosen : augmented.accept with
      | none => simp [extended, chosen, Automaton.ofGrammar, bind, Except.bind]
      | some accept =>
        have automaton : Automaton.ofGrammar augmented augmented.analysis settings.lalr =
            .ok (automatonFor augmented accept settings.lalr) := by
          simp [Automaton.ofGrammar, chosen, automatonFor]
        simp only [extended, automaton, bind, Except.bind, pure, Except.pure]
        constructor
        · intro done
          split at done
          · cases done
          next accepted =>
            cases done
            exact ⟨trivial, lexer, accept, rfl, rfl, rfl, accepted⟩
        · rintro ⟨-, _, _, ⟨⟩, ⟨⟩, rfl, accepted⟩
          rw [assembled] at accepted ⊢
          rw [if_neg accepted]

theorem grammar_of_ofGrammar (done : ofGrammar engine g l settings = .ok p) :
    g.augment.1 = .ok () ∧ p.grammar = g.augment.2 := by
  obtain ⟨augmented, _, _, -, -, rfl, -⟩ := ofGrammar_eq_ok_iff.mp done
  exact ⟨augmented, rfl⟩

theorem settings_of_ofGrammar (done : ofGrammar engine g l settings = .ok p) :
    p.settings = settings := by
  obtain ⟨-, _, _, -, -, rfl, -⟩ := ofGrammar_eq_ok_iff.mp done
  rfl

/-- What was built, and a check that it passes. -/
theorem exists_of_check {ε α : Type} (result : Except ε α) (check : α → Bool)
    (passed : result.toOption.any check) : ∃ a, result = .ok a ∧ check a := by
  cases result with
  | error e => cases passed
  | ok a => exact ⟨a, rfl, passed⟩

/-- What every parser built from a grammar has in common. -/
structure WellBuilt (p : Parser) : Prop where
  wellFormed : p.grammar.WellFormed
  closed : p.analysis.Closed p.grammar
  accept : ∃ n, p.grammar.accept = some n
  tracks : p.automaton.Tracks p.grammar p.analysis
  table : p.table = .ofAutomaton p.grammar p.automaton

theorem wellBuilt_assembled (wf : g.WellFormed) {lexer : Lexer} {accept : Nat}
    (chosen : g.accept = some accept) : (assembled g lexer accept settings).WellBuilt where
  wellFormed := wf
  closed := Begins.analysis_closed wf
  accept := ⟨accept, chosen⟩
  tracks := by
    have canonical := Automaton.canonical_spec wf (Begins.analysis_closed wf) chosen
    change (automatonFor g accept settings.lalr).Tracks g g.analysis
    unfold automatonFor
    -- both automata keep track of reached items
    split
    · exact canonical.tracks_merge wf chosen
    · exact canonical.tracks wf chosen
  table := rfl

theorem wellBuilt_of_ofGrammar (built : g.Built) (done : ofGrammar engine g l settings = .ok p) :
    p.WellBuilt := by
  obtain ⟨-, lexer, accept, -, chosen, rfl, -⟩ := ofGrammar_eq_ok_iff.mp done
  exact wellBuilt_assembled built.wellFormed.augment chosen

theorem built_extendAll {names : List String} {extended : Lexer} (built : l.Built)
    (done : extendAll engine l names = .ok extended) : extended.Built := by
  induction names generalizing l with
  | nil =>
    cases done
    exact built
  | cons name rest ih =>
    rw [extendAll, List.foldlM_cons] at done
    cases first : l.extend engine (.ofLiteral name) with
    | error e => simp [first, bind, Except.bind] at done
    | ok longer =>
      rw [first] at done
      exact ih (built.extend first) done

theorem built_lexer_of_ofGrammar (built : l.Built) (done : ofGrammar engine g l settings = .ok p) :
    p.lexer.Built := by
  obtain ⟨-, lexer, accept, extended, -, rfl, -⟩ := ofGrammar_eq_ok_iff.mp done
  exact built_extendAll built extended

/-! ## What an action rests on -/

namespace WellBuilt

variable (built : p.WellBuilt) {n t k : Nat} {X : Symbol} {token : Token}

theorem action_eq {act : Action} (meaningful : act ≠ .error) (decided : p.action n token = act) :
    ∃ X, p.grammar.symbol? token.name = some X ∧ p.grammar.isTerminal X ∧
      p.table.cell? n X = some act := by
  subst decided
  unfold action at meaningful ⊢
  split
  next X known =>
    rw [known] at meaningful
    split
    next terminal =>
      refine ⟨X, known, terminal, ?_⟩
      simp only [terminal, if_true, Table.action] at meaningful ⊢
      cases held : p.table.cell? n X with
      | none => simp [held] at meaningful
      | some act => rfl
    next other => simp [other] at meaningful
  next unknown => simp [unknown] at meaningful

include built

/-- An action that does something was requested. -/
theorem requested_of_action {act : Action} (meaningful : act ≠ .error)
    (decided : p.action n token = act) : ∃ X items, p.grammar.symbol? token.name = some X ∧
      p.grammar.isTerminal X ∧ p.automaton.state? n = some items ∧
      Table.Requested p.grammar p.automaton n items X act := by
  obtain ⟨X, known, terminal, held⟩ := action_eq meaningful decided
  rw [built.table] at held
  obtain ⟨items, found, requested⟩ := Table.requested_of_cell? held
  exact ⟨X, items, known, terminal, found, requested⟩

theorem action_shift (decided : p.action n token = .shift t) : ∃ X,
    p.grammar.symbol? token.name = some X ∧ p.grammar.isTerminal X ∧
      p.automaton.target? n X = some t := by
  obtain ⟨X, items, known, terminal, -, requested⟩ := built.requested_of_action (by simp) decided
  cases requested with
  | shift edge => exact ⟨X, known, terminal, built.tracks.mem_edgesOf_iff.mp edge⟩

theorem action_reduce (decided : p.action n token = .reduce k) : ∃ items item q,
    p.automaton.state? n = some items ∧ item ∈ items ∧ item.completed? p.grammar = some q ∧
      q.index = k ∧ p.grammar.accept ≠ some k ∧
      p.grammar.symbol? token.name = some item.lookahead := by
  obtain ⟨X, items, known, -, found, requested⟩ := built.requested_of_action (by simp) decided
  cases requested with
  | reduce member completed inner => exact ⟨items, _, _, found, member, completed, rfl, inner, known⟩

theorem action_accept (decided : p.action n token = .accept) : ∃ items,
    p.automaton.state? n = some items ∧ items.isAccepting p.grammar ∧
      p.grammar.symbol? token.name = some .endOfInput := by
  obtain ⟨X, items, known, -, found, requested⟩ := built.requested_of_action (by simp) decided
  cases requested with
  | accept accepting => exact ⟨items, found, accepting, known⟩

theorem goto?_iff (nonterminal : ¬ p.grammar.isTerminal X) :
    p.table.goto? n X = some t ↔ p.automaton.target? n X = some t := by
  have goto_of_cell : p.table.goto? n X = some t ↔ p.table.cell? n X = some (.goto t) := by
    unfold Table.goto?
    split <;> simp_all
  rw [goto_of_cell, built.table]
  constructor
  · intro held
    obtain ⟨items, -, requested⟩ := Table.requested_of_cell? held
    cases requested with
    | goto edge => exact built.tracks.mem_edgesOf_iff.mp edge
  · intro edge
    obtain ⟨-, items, found, -⟩ := built.tracks.edge n X t edge
    -- an edge over a nonterminal is requested, and nothing else is for a nonterminal
    have requested : Table.Requested p.grammar p.automaton n items X (.goto t) :=
      .goto (built.tracks.mem_edgesOf_iff.mpr edge) nonterminal
    refine Table.cell?_of_unrivalled found
      (requested.known built.wellFormed built.tracks found) requested fun c other => ?_
    apply other.same_of_contest built.tracks found requested
    cases other with
    | shift _ terminal => exact absurd terminal nonterminal
    | goto => rfl
    | accept => rfl
    | reduce member => exact absurd (built.tracks.terminal n items _ found member) nonterminal

/-! ## Tables without conflicts -/

variable (quiet : p.table.isContested = false)

include quiet

theorem action_of_requested {items : ItemSet} {act : Action}
    (found : p.automaton.state? n = some items) (known : p.grammar.symbol? token.name = some X)
    (terminal : p.grammar.isTerminal X)
    (requested : Table.Requested p.grammar p.automaton n items X act) : p.action n token = act := by
  have held : p.table.cell? n X = some act := by
    rw [built.table] at quiet ⊢
    exact Table.cell?_of_requested built.wellFormed built.tracks quiet found requested
  simp [action, known, terminal, Table.action, held]

theorem action_of_target (edge : p.automaton.target? n X = some t)
    (terminal : p.grammar.isTerminal X) (known : p.grammar.symbol? token.name = some X) :
    p.action n token = .shift t := by
  obtain ⟨-, items, found, -⟩ := built.tracks.edge n X t edge
  exact built.action_of_requested quiet found known terminal
    (.shift (built.tracks.mem_edgesOf_iff.mpr edge) terminal)

theorem action_of_complete {items : ItemSet} {item : Item} {q : Production}
    (found : p.automaton.state? n = some items) (member : item ∈ items)
    (completed : item.completed? p.grammar = some q) (inner : p.grammar.accept ≠ some q.index)
    (known : p.grammar.symbol? token.name = some item.lookahead) :
    p.action n token = .reduce q.index :=
  built.action_of_requested quiet found known (built.tracks.terminal n items item found member)
    (.reduce member completed inner)

theorem action_of_accepting {items : ItemSet} (found : p.automaton.state? n = some items)
    (accepting : items.isAccepting p.grammar)
    (known : p.grammar.symbol? token.name = some .endOfInput) : p.action n token = .accept :=
  built.action_of_requested quiet found known built.wellFormed.isTerminal_endOfInput
    (.accept accepting)

end WellBuilt

end ShiftReduce.Parser
