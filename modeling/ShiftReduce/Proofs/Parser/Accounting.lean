import ShiftReduce.Proofs.Parser.Budget
import ShiftReduce.Proofs.Parser.Safety

/-!
# Accounts of a run

A run counts what it does, and its stack holds what it made. The two agree at every step, so the
counts of a result can be read off its trees: as many leaves as tokens were shifted, as many nodes
as were created, and an inner node for each reduction.
-/
namespace ShiftReduce

/-! ## Counting trees -/

namespace Counts

/-- The leaves, the nodes and the inner nodes of some trees. -/
def ofTrees (ts : List Tree) : Counts where
  tokens := (Tree.fringe ts).length
  nodes := (ts.map Tree.size).sum
  reductions := (ts.flatMap Tree.productions).length

theorem ofTrees_balanced (ts : List Tree) :
    (ofTrees ts).tokens + (ofTrees ts).reductions = (ofTrees ts).nodes := by
  simp only [ofTrees]
  induction ts with
  | nil => rfl
  | cons t ts ih =>
    have here := t.size_eq
    simp only [Tree.fringe_cons, List.flatMap_cons, List.length_append, List.map_cons,
      List.sum_cons]
    omega

theorem ofTrees_leaf (ts : List Tree) (token : Token) :
    ofTrees (ts ++ [.leaf token]) = { ofTrees ts with
      tokens := (ofTrees ts).tokens + 1, nodes := (ofTrees ts).nodes + 1 } := by
  simp [ofTrees]

/-- Some trees are put below a new node. -/
theorem ofTrees_node (ts cs : List Tree) (q : Production) :
    ofTrees (ts ++ [.node q cs]) = { ofTrees (ts ++ cs) with
      nodes := (ofTrees (ts ++ cs)).nodes + 1
      reductions := (ofTrees (ts ++ cs)).reductions + 1 } := by
  simp [ofTrees, Nat.add_assoc]

end Counts

namespace Parser

variable {engine : Regex.Engine} {p : Parser} {c d : Configuration} {outcome : Outcome}

/-! ## Steps -/

theorem lookahead_counts (c : Configuration) : (lookahead c).2.counts = c.counts := by
  unfold lookahead
  split
  · rfl
  · dsimp only
    split <;> rfl

/-- What looking ahead leaves as it is, whatever comes of it. -/
theorem kept_of_lookahead {result : Except Unmatched Token} (looked : lookahead c = (result, d)) :
    d.stack = c.stack ∧ d.counts = c.counts := by
  have stack := lookahead_stack c
  have counts := lookahead_counts c
  rw [looked] at stack counts
  exact ⟨stack, counts⟩

/-- A reduction either puts the trees of a right-hand side below a new node, or it goes astray. -/
theorem reduce_cases (p : Parser) (c : Configuration) (k : Nat) :
    (∃ t q d, p.reduce c k = .next d ∧
      d.stack = ⟨t, .node q (treesOf (c.stack.take q.length))⟩ :: c.stack.drop q.length ∧
      d.counts = { c.counts with
        nodes := c.counts.nodes + 1, reductions := c.counts.reductions + 1 }) ∨
    ∃ n s d, p.reduce c k = .failed (.strayReduction n s) d ∧ d.counts = c.counts := by
  unfold reduce
  split
  next => exact Or.inr ⟨_, _, c, rfl, rfl⟩
  next q found =>
    dsimp only
    split
    next => exact Or.inr ⟨_, _, c, rfl, rfl⟩
    next =>
      split
      next => exact Or.inr ⟨_, _, _, rfl, rfl⟩
      next t goes => exact Or.inl ⟨t, q, _, rfl, rfl, rfl⟩

/-- What a step does to the stack and to the counts, if the run goes on. -/
theorem step_cases (steps : p.step c = .next d) :
    (∃ t token, d.stack = ⟨t, .leaf token⟩ :: c.stack ∧ d.counts = { c.counts with
      tokens := c.counts.tokens + 1, nodes := c.counts.nodes + 1 }) ∨
    ∃ t q, d.stack = ⟨t, .node q (treesOf (c.stack.take q.length))⟩ :: c.stack.drop q.length ∧
      d.counts = { c.counts with
        nodes := c.counts.nodes + 1, reductions := c.counts.reductions + 1 } := by
  unfold Parser.step at steps
  split at steps
  next => cases steps
  next token c' looked =>
    obtain ⟨stack, counts⟩ := kept_of_lookahead looked
    rw [← stack, ← counts]
    unfold act at steps
    split at steps
    next t decided =>
      cases steps
      exact Or.inl ⟨t, token, rfl, rfl⟩
    next k decided =>
      rcases p.reduce_cases c' k with ⟨t, q, d', reduces, made⟩ | ⟨n, s, d', fails, -⟩
      · cases reduces.symm.trans steps
        exact Or.inr ⟨t, q, made⟩
      · cases fails.symm.trans steps
    next => split at steps <;> cases steps
    next => cases steps
    next => cases steps

/-- What the last step leaves: the counts, and the trees unless it takes the accepted one or is a
reduction gone astray. -/
theorem done_cases (ends : p.step c = .done outcome) : outcome.last.counts = c.counts ∧
    ((∃ token entry d, outcome = .accepted entry.tree d ∧ c.stack = entry :: d.stack ∧
      p.action (topState c.stack) token = .accept) ∨
    (∃ e d, outcome = .failed e d ∧ d.stack = c.stack) ∨
    ∃ n s d, outcome = .failed (.strayReduction n s) d) := by
  unfold Parser.step at ends
  split at ends
  next e c' looked =>
    obtain ⟨stack, counts⟩ := kept_of_lookahead looked
    cases ends
    exact ⟨counts, Or.inr (Or.inl ⟨_, c', rfl, stack⟩)⟩
  next token c' looked =>
    obtain ⟨stack, counts⟩ := kept_of_lookahead looked
    rw [← stack, ← counts]
    unfold act at ends
    split at ends
    next => cases ends
    next k decided =>
      rcases p.reduce_cases c' k with ⟨t, q, d', reduces, -⟩ | ⟨n, s, d', fails, same⟩
      · cases reduces.symm.trans ends
      · cases fails.symm.trans ends
        exact ⟨same, Or.inr (Or.inr ⟨n, s, d', rfl⟩)⟩
    next decided =>
      split at ends
      next entry below held =>
        cases ends
        exact ⟨rfl, Or.inl ⟨token, entry, _, rfl, held, decided⟩⟩
      next =>
        cases ends
        exact ⟨rfl, Or.inr (Or.inl ⟨_, c', rfl, rfl⟩)⟩
    all_goals
      cases ends
      exact ⟨rfl, Or.inr (Or.inl ⟨_, c', rfl, rfl⟩)⟩

/-- The counts of a configuration are those of its trees. -/
def Tallied (c : Configuration) : Prop := c.counts = .ofTrees c.trees

theorem tallied_start (scanner : Scanner) : Tallied (.start scanner) := rfl

theorem Tallied.step (tallied : Tallied c) (steps : p.step c = .next d) : Tallied d := by
  have before : c.counts = .ofTrees (treesOf c.stack) := tallied
  change d.counts = .ofTrees (treesOf d.stack)
  rcases step_cases steps with ⟨t, token, stack, counts⟩ | ⟨t, q, stack, counts⟩
  · rw [stack, counts, before, treesOf_cons, Counts.ofTrees_leaf]
  · rw [stack, counts, before, treesOf_cons, Counts.ofTrees_node, treesOf_split]

/-! ## Runs -/

theorem Tallied.reaches (tallied : Tallied c) (reaches : p.Reaches c d) : Tallied d := by
  induction reaches with
  | refl => exact tallied
  | tail _ steps ih => exact ih.step steps

/-- A run that ends does so with the last step from a configuration that it passes through. -/
theorem reaches_of_run {budget : Nat} (ended : p.run budget c = some outcome) :
    ∃ d, p.Reaches c d ∧ p.step d = .done outcome := by
  induction budget generalizing c with
  | zero => cases ended
  | succ budget ih =>
    unfold run at ended
    split at ended
    next c' steps =>
      obtain ⟨d, reaches, ends⟩ := ih ended
      exact ⟨d, reaches.head steps, ends⟩
    next outcome' ends =>
      cases ended
      exact ⟨c, .refl, ends⟩

/-- What the trees of a result and its counts say of the tokens of a text. -/
structure Accounts (tokens : List Token) (counts : Counts) (ts : List Tree) : Prop where
  within : counts.tokens ≤ tokens.length
  leaves : Tree.fringe ts = tokens.take counts.tokens
  nodes : (ts.map Tree.size).sum = counts.nodes
  inner : (ts.flatMap Tree.productions).length = counts.reductions

theorem accounts_of_append {tokens rest : List Token} {ts : List Tree}
    (text : Tree.fringe ts ++ rest = tokens) : Accounts tokens (.ofTrees ts) ts where
  within := by simp [← text, Counts.ofTrees]
  leaves := by simp [← text, Counts.ofTrees]
  nodes := rfl
  inner := rfl

/-- Whatever a run over a text passes through has the accounts of its trees. -/
theorem WellBuilt.accounts (built : p.WellBuilt) {text : String}
    (reaches : p.Reaches (.start (p.lexer.scan text)) c) :
    Accounts (p.lexer.tokenization text).tokens c.counts c.trees := by
  obtain ⟨n, y, moves, stands, -⟩ := built.moves_of_reaches (stands_start p.lexer text) reaches
  have tallied : c.counts = .ofTrees c.trees := (tallied_start _).reaches reaches
  have trees : c.trees = treesOf y.stack := congrArg treesOf stands.stack
  rw [tallied, trees]
  exact accounts_of_append moves.text

/-! ## Results -/

theorem Supported.derivation_of_mem {γ : List Symbol} {stack : List StackEntry}
    (supported : p.Supported γ stack) :
    ∀ entry ∈ stack, ∃ s, p.grammar.Derivation s entry.tree := by
  induction supported with
  | nil => simp
  | cons _ _ derivation ih => simpa using ⟨⟨_, derivation⟩, ih⟩

/-- A run that is refused leaves the trees of the configuration it could not step from, for it did
not fail by reducing. -/
theorem WellBuilt.accounts_of_failed (built : p.WellBuilt) {text : String} {budget : Nat}
    {e : Refusal} (ended : p.run budget (.start (p.lexer.scan text)) = some (.failed e c)) :
    Accounts (p.lexer.tokenization text).tokens c.counts c.trees ∧
      ∀ t ∈ c.trees, ∃ s, p.grammar.symbol? t.name = some s ∧ p.grammar.Derivation s t := by
  obtain ⟨d, reaches, ends⟩ := reaches_of_run ended
  have start : p.Supported [] (Configuration.start (p.lexer.scan text)).stack := .nil
  obtain ⟨γ, supported⟩ := start.reaches built reaches
  obtain ⟨counts, ⟨_, _, _, ⟨⟩, -⟩ | ⟨_, _, ⟨⟩, stack⟩ | ⟨n, s, _, ⟨⟩⟩⟩ := done_cases ends
  · have trees : c.trees = d.trees := congrArg treesOf stack
    have counts : c.counts = d.counts := counts
    rw [trees, counts]
    refine ⟨built.accounts reaches, fun t member => ?_⟩
    obtain ⟨entry, held, rfl⟩ : ∃ entry ∈ d.stack, entry.tree = t := by
      simpa [Configuration.trees] using member
    obtain ⟨s, derivation⟩ := supported.derivation_of_mem entry held
    exact ⟨s, derivation.symbol?_name built.wellFormed, derivation⟩
  · exact absurd ends (supported.not_failed built)

/-- An accepted run takes the one tree of its stack, if nothing calls for the accept production. -/
theorem WellBuilt.accounts_of_accepted (built : p.WellBuilt) (fresh : p.grammar.AcceptFresh)
    {text : String} {budget : Nat} {tree : Tree}
    (ended : p.run budget (.start (p.lexer.scan text)) = some (.accepted tree c)) :
    Accounts (p.lexer.tokenization text).tokens c.counts [tree] := by
  obtain ⟨d, reaches, ends⟩ := reaches_of_run ended
  have start : p.Supported [] (Configuration.start (p.lexer.scan text)).stack := .nil
  obtain ⟨γ, supported⟩ := start.reaches built reaches
  obtain ⟨counts, ⟨token, entry, _, ⟨⟩, stack, decided⟩ | ⟨_, _, ⟨⟩, -⟩ | ⟨_, _, _, ⟨⟩⟩⟩ :=
    done_cases ends
  obtain ⟨s, entry', -, alone, -⟩ := supported.accepted built fresh decided
  obtain ⟨rfl, -⟩ := List.cons.inj (stack.symm.trans alone)
  have trees : d.trees = [entry.tree] := congrArg treesOf alone
  have counts : c.counts = d.counts := counts
  rw [counts, ← trees]
  exact built.accounts reaches

/-- What is counted, whatever the run ends with. -/
theorem counts_balanced {scanner : Scanner} {budget : Nat}
    (ended : p.run budget (.start scanner) = some outcome) :
    outcome.last.counts.tokens + outcome.last.counts.reductions = outcome.last.counts.nodes := by
  obtain ⟨d, reaches, ends⟩ := reaches_of_run ended
  have tallied : d.counts = .ofTrees d.trees := (tallied_start scanner).reaches reaches
  rw [(done_cases ends).1, tallied]
  exact Counts.ofTrees_balanced d.trees

/-- Accounts: whatever the grammar, the settings and the text, a run that ends has created a node for
each token it shifted and for each reduction. If it is refused, the trees that are kept are derivation
trees of their labels with the tokens that were shifted as their leaves, and the counts are theirs. If
it is accepted, the same holds of its one tree, as long as nothing calls for the accept production. -/
theorem results_account_for_tokens {g : Grammar} {l : Lexer} {settings : Settings}
    (grammar : g.Built) (done : ofGrammar engine g l settings = .ok p) (text : String) {budget : Nat}
    (ended : p.run budget (.start (p.lexer.scan text)) = some outcome) :
    (outcome.last.counts.tokens + outcome.last.counts.reductions = outcome.last.counts.nodes ∧
      ∀ report, p.parse text = .ok report → report.counts = outcome.last.counts) ∧
    (∀ e c, outcome = .failed e c → settings.keepPartial → ∃ report, p.parse text = .ok report ∧
      report.root = none ∧ report.errors = [e] ∧ report.warnings.length = 1 ∧
      Accounts (p.lexer.tokenization text).tokens report.counts report.partialTrees ∧
      ∀ t ∈ report.partialTrees, ∃ s, p.grammar.symbol? t.name = some s ∧ p.grammar.Derivation s t) ∧
    (∀ tree c, outcome = .accepted tree c → settings.splice = false → p.grammar.AcceptFresh →
      ∃ report, p.parse text = .ok report ∧ report.root = some tree ∧
        Accounts (p.lexer.tokenization text).tokens report.counts [tree]) := by
  have built := wellBuilt_of_ofGrammar grammar done
  have settled := settings_of_ofGrammar done
  -- the budget of the parser is as good as any other
  have budgeted : p.runOver (p.lexer.scan text) = some outcome :=
    built.runOver_eq_some_iff.mpr ⟨budget, ended⟩
  refine ⟨⟨counts_balanced ended, ?reports⟩, ?failed, ?accepted⟩
  case reports =>
    intro report answered
    unfold parse parseFrom at answered
    rw [budgeted] at answered
    cases outcome with
    | accepted tree c =>
      cases answered
      rfl
    | failed e c =>
      dsimp only at answered
      split at answered
      · cases answered
        rfl
      · cases answered
  case failed =>
    rintro e c rfl keeps
    obtain ⟨accounts, derivations⟩ := built.accounts_of_failed ended
    have answered : p.parse text = .ok (partialReport e c) := by
      simp [parse, parseFrom, budgeted, settled, keeps]
    exact ⟨_, answered, rfl, rfl, rfl, accounts, derivations⟩
  case accepted =>
    rintro tree c rfl whole fresh
    have answered : p.parse text = .ok ⟨some tree, [], [], [], c.counts⟩ := by
      simp [parse, parseFrom, budgeted, finished, settled, whole]
    exact ⟨_, answered, rfl, built.accounts_of_accepted fresh ended⟩

/-- The grammar `S -> S S | a` over `aab` leaves a tree and a leaf, and over `aa` one tree. -/
theorem results_account_for_tokens_doubled : ∃ p,
    ofGrammar .builtIn .doubled .empty ⟨true, true, false, false⟩ = .ok p ∧
    (∃ report, p.parse "aab" = .ok report ∧ report.root = none ∧ report.counts = ⟨2, 3, 1⟩ ∧
      Accounts (p.lexer.tokenization "aab").tokens report.counts report.partialTrees) ∧
    ∃ report tree, p.parse "aa" = .ok report ∧ report.root = some tree ∧
      Accounts (p.lexer.tokenization "aa").tokens report.counts [tree] := by
  obtain ⟨p, done, passed⟩ := exists_of_check
    (ofGrammar .builtIn .doubled .empty ⟨true, true, false, false⟩)
    (fun p => ((p.runOver (p.lexer.scan "aab")).any fun outcome =>
        outcome.error?.isSome ∧ outcome.last.counts = ⟨2, 3, 1⟩) ∧
      (p.runOver (p.lexer.scan "aa")).any (·.tree?.isSome)) (by decide +kernel)
  obtain ⟨refused, accepted⟩ := of_decide_eq_true passed
  obtain ⟨outcome, ended, fails⟩ := (Option.any_eq_true _ _).mp refused
  obtain ⟨outcome', ended', accepts⟩ := (Option.any_eq_true _ _).mp accepted
  obtain ⟨error, counts⟩ := of_decide_eq_true fails
  obtain ⟨e, given⟩ := Option.isSome_iff_exists.mp error
  obtain ⟨tree, given'⟩ := Option.isSome_iff_exists.mp accepts
  obtain ⟨augmented, same⟩ := grammar_of_ofGrammar done
  have fresh : p.grammar.AcceptFresh :=
    same ▸ Grammar.doubled_built.wellFormed.acceptFresh_augment rfl augmented
  have failing := results_account_for_tokens Grammar.doubled_built done "aab" ended
  have accepting := results_account_for_tokens Grammar.doubled_built done "aa" ended'
  obtain ⟨report, answered, root, -, -, accounts, -⟩ :=
    failing.2.1 e _ (outcome.eq_failed given) rfl
  obtain ⟨report', answered', root', accounts'⟩ :=
    accepting.2.2 tree _ (outcome'.eq_accepted given') rfl fresh
  refine ⟨p, done, ⟨report, answered, root, ?_, accounts⟩, report', tree, answered', root', accounts'⟩
  rw [failing.1.2 report answered, counts]

end Parser

end ShiftReduce
