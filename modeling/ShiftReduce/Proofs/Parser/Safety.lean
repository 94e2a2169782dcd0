import ShiftReduce.Proofs.Parser.Soundness

/-!
# Reductions that cannot go astray

The states on the stack lie on a path of the automaton, whatever was chosen where a table had
conflicts. So a reduction finds its right-hand side on the stack and an edge below it, and the errors
for reductions that do not are never answered.
-/
namespace ShiftReduce.Parser

variable {engine : Regex.Engine} {p : Parser} {γ : List Symbol} {c d : Configuration}

/-- What the table asks for, the stack provides: a production to reduce has all its trees above the
start state and an edge of the state below them, and there is a tree to accept. -/
structure Grounded (p : Parser) (stack : List StackEntry) : Prop where
  reduces : ∀ token k, p.action (topState stack) token = .reduce k → ∃ q t,
    p.grammar.production? k = some q ∧ q.length ≤ stack.length ∧
      p.table.goto? (topState (stack.drop q.length)) q.lhs = some t
  accepts : ∀ token, p.action (topState stack) token = .accept → stack ≠ []

theorem Supported.grounded (built : p.WellBuilt) {stack : List StackEntry}
    (supported : p.Supported γ stack) : p.Grounded stack where
  reduces token k decided := by
    obtain ⟨items, item, q, found, member, completed, rfl, inner, -⟩ := built.action_reduce decided
    obtain ⟨-, -, known, -⟩ := built.production_of_completed completed
    obtain ⟨-, t, -, enough, goes, -⟩ := supported.reduction built found member completed inner
    exact ⟨q, t, built.wellFormed.production?_index known, enough, goes⟩
  accepts token decided := by
    rintro rfl
    obtain ⟨items, found, accepts, -⟩ := built.action_accept decided
    obtain ⟨item, member, accepting⟩ := List.any_eq_true.mp accepts
    obtain ⟨q, s, -, rhs, -, -, production, dot⟩ := built.accepting_spec accepting
    obtain ⟨x, reached⟩ := built.tracks.reached γ _ items item supported.path found member
    obtain ⟨q', δ, production', -, whole, -⟩ := reached.origin built.wellFormed
    cases production.symm.trans production'
    -- the dot has moved over one symbol, but nothing leads to an empty stack
    cases supported
    rw [dot, rhs] at whole
    cases whole

/-- Whatever an edge is over, it is a terminal's to shift and never to go to. -/
theorem WellBuilt.not_goto (built : p.WellBuilt) {n t : Nat} {X : Symbol}
    (terminal : p.grammar.isTerminal X) : p.table.cell? n X ≠ some (.goto t) := by
  intro held
  rw [built.table] at held
  obtain ⟨items, -, requested⟩ := Table.requested_of_cell? held
  cases requested with
  | goto _ nonterminal => exact nonterminal terminal

/-! ## Steps -/

theorem lookahead_stack (c : Configuration) : (lookahead c).2.stack = c.stack := by
  unfold lookahead
  split
  · rfl
  · dsimp only
    split <;> rfl

@[simp] theorem unexpected_ne_strayReduction {n m : Nat} {token : Token} {scanner : Scanner}
    {s : String} : p.unexpected n token scanner ≠ .strayReduction m s := by
  unfold unexpected
  dsimp only
  split <;> simp

/-- A configuration acts like a situation with its stack. -/
theorem move_of_act {token : Token} (acts : p.act c token = .next d) :
    ∃ tokens, p.move ⟨c.stack, [token]⟩ = some ⟨d.stack, tokens⟩ := by
  have top : c.state = topState c.stack := rfl
  unfold act at acts
  rw [top] at acts
  split at acts
  next t decided =>
    cases acts
    exact ⟨[], move_of_shift decided⟩
  next k decided =>
    simp only [move, decided]
    cases reduced : p.reduced? k c.stack with
    | none =>
      obtain ⟨e, f, fails, -⟩ := reduce_of_stray reduced
      cases fails.symm.trans acts
    | some stack =>
      obtain ⟨counts, -, reduces⟩ := reduce_of_reduced reduced
      cases reduces.symm.trans acts
      exact ⟨[token], rfl⟩
  next => split at acts <;> cases acts
  next => cases acts
  next => cases acts

section Steps

variable (built : p.WellBuilt)

include built

theorem Supported.step (supported : p.Supported γ c.stack) (steps : p.step c = .next d) :
    ∃ δ, p.Supported δ d.stack := by
  have kept := lookahead_stack c
  unfold Parser.step at steps
  split at steps
  next => cases steps
  next token c' looked =>
    rw [looked] at kept
    obtain ⟨tokens, moves⟩ := move_of_act steps
    exact Supported.move built (x := ⟨c'.stack, [token]⟩) (kept ▸ supported) moves

/-- A step over a supported stack does not fail by reducing. -/
theorem Supported.not_failed (supported : p.Supported γ c.stack) {n : Nat} {s : String} :
    p.step c ≠ .done (.failed (.strayReduction n s) d) := by
  intro fails
  have kept := lookahead_stack c
  unfold Parser.step at fails
  split at fails
  next => cases fails
  next token c' looked =>
    rw [looked] at kept
    have supported : p.Supported γ c'.stack := kept ▸ supported
    unfold act at fails
    split at fails
    next => cases fails
    next k decided =>
      cases reduced : p.reduced? k c'.stack with
      | none => exact supported.not_stray built decided reduced
      | some stack =>
        obtain ⟨counts, -, reduces⟩ := reduce_of_reduced reduced
        cases reduces.symm.trans fails
    -- every other error is that of an unexpected token
    next => split at fails <;> simp [Progress.failed, Progress.accepted] at fails
    next => simp [Progress.failed] at fails
    next => simp [Progress.failed] at fails

/-! ## Runs -/

theorem Supported.reaches (supported : p.Supported γ c.stack) (reaches : p.Reaches c d) :
    ∃ δ, p.Supported δ d.stack := by
  induction reaches with
  | refl => exact ⟨γ, supported⟩
  | tail _ steps ih =>
    obtain ⟨δ, supported⟩ := ih
    exact supported.step built steps

theorem Supported.run_ne_stray (supported : p.Supported γ c.stack) (budget n : Nat) (s : String) :
    p.run budget c ≠ some (.failed (.strayReduction n s) d) := by
  intro ended
  induction budget generalizing γ c with
  | zero => cases ended
  | succ budget ih =>
    unfold run at ended
    split at ended
    next c' steps =>
      obtain ⟨δ, supported⟩ := supported.step built steps
      exact ih supported ended
    next outcome steps =>
      cases ended
      exact supported.not_failed built steps

end Steps

/-- Safety: whatever the grammar, the settings and the tokens, each configuration that a run passes
through provides what any token ahead may ask of it, no cell of a terminal holds an edge to go to,
and so no reduction goes astray. -/
theorem reductions_grounded {g : Grammar} {l : Lexer} {settings : Settings} (grammar : g.Built)
    (done : ofGrammar engine g l settings = .ok p) :
    (∀ scanner c, p.Reaches (.start scanner) c → p.Grounded c.stack) ∧
    (∀ n X t, p.grammar.isTerminal X → p.table.cell? n X ≠ some (.goto t)) ∧
    (∀ scanner budget n s c, p.run budget (.start scanner) ≠ some (.failed (.strayReduction n s) c)) ∧
    (∀ scanner n s, p.parseFrom scanner ≠ .error (.refused (.strayReduction n s)) ∧
      ∀ report, p.parseFrom scanner = .ok report → .strayReduction n s ∉ report.errors) ∧
    ∀ text n s, p.treeOf text ≠ .error (.refused (.strayReduction n s)) := by
  have built := wellBuilt_of_ofGrammar grammar done
  have supported (scanner : Scanner) : p.Supported [] (Configuration.start scanner).stack := .nil
  have runs (scanner : Scanner) (budget n : Nat) (s : String) (c : Configuration) :
      p.run budget (.start scanner) ≠ some (.failed (.strayReduction n s) c) :=
    (supported scanner).run_ne_stray built budget n s
  have other {scanner : Scanner} {e : Refusal} {c : Configuration}
      (ended : p.runOver scanner = some (.failed e c)) (n : Nat) (s : String) :
      e ≠ .strayReduction n s := by
    rintro rfl
    exact runs scanner _ n s c ended
  refine ⟨?configurations, fun n X t terminal => built.not_goto terminal, runs, ?reports, ?trees⟩
  case configurations =>
    intro scanner c reaches
    obtain ⟨δ, supported⟩ := (supported scanner).reaches built reaches
    exact supported.grounded built
  case reports =>
    intro scanner n s
    unfold parseFrom
    split
    next tree c ended =>
      refine ⟨by simp, fun report answered => ?_⟩
      cases answered
      simp
    next e c ended =>
      -- the error is answered, alone or with the trees built so far
      split
      · refine ⟨by simp, fun report answered => ?_⟩
        cases answered
        simpa [partialReport] using (other ended n s).symm
      · exact ⟨by simpa using other ended n s, by simp⟩
    next => simp
  case trees =>
    intro text n s
    unfold treeOf
    split
    next => simp
    next e c ended => simpa using other ended n s
    next => simp

/-- The table of `S -> S S | a` has conflicts, and its parser is safe none the less. -/
theorem reductions_grounded_doubled : ∃ p, ofGrammar .builtIn .doubled .empty .standard = .ok p ∧
    p.table.isContested ∧ ∀ c, p.Reaches (.start (p.lexer.scan "aaa")) c → p.Grounded c.stack := by
  obtain ⟨p, done, contested⟩ := exists_of_check (ofGrammar .builtIn .doubled .empty .standard)
    (fun p => p.table.isContested) (by decide +kernel)
  exact ⟨p, done, contested, (reductions_grounded Grammar.doubled_built done).1 _⟩

end ShiftReduce.Parser
