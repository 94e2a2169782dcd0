import Mathlib.Tactic.SplitIfs
import ShiftReduce.Lexer.Scanner
import ShiftReduce.Regex.BuiltIn

/-!
# Reading a text

Asked again and again, a scanner yields tokens of its rules until it finishes with the end of the
text or an error. A text has no more tokens than characters, so draining a scanner reads all of it.
-/
namespace ShiftReduce

namespace Lexer

/-! ## Matches -/

variable {l : Lexer} {rest : List Char} {mode : String}

theorem mem_of_longest {matched : List (LexRule × Nat)} {best : LexRule × Nat}
    (chosen : longest matched = some best) : best ∈ matched := by
  induction matched generalizing best with
  | nil => cases chosen
  | cons first matched ih =>
    rw [longest] at chosen
    -- the best of the others is taken, or the first
    split at chosen
    next later found =>
      split at chosen <;> cases chosen
      · exact List.mem_cons_of_mem _ (ih found)
      · exact List.mem_cons_self
    next =>
      cases chosen
      exact List.mem_cons_self

theorem mem_candidates_of_choose {best : LexRule × Nat} (chosen : l.choose rest mode = some best) :
    best ∈ l.candidates rest mode := by
  unfold choose at chosen
  split at chosen
  · exact mem_of_longest chosen
  · exact List.mem_of_head? chosen

/-- What is chosen is a rule of the lexer, and its match is not empty. -/
theorem choose_spec {rule : LexRule} {length : Nat}
    (chosen : l.choose rest mode = some (rule, length)) : rule ∈ l.ruleList ∧ 0 < length := by
  have member := mem_candidates_of_choose chosen
  obtain ⟨r, known, found⟩ := List.mem_filterMap.mp member
  split at found
  next =>
    obtain ⟨_, reached, same⟩ := Option.map_eq_some_iff.mp found
    cases same
    obtain ⟨recogniser, -, reached⟩ := List.exists_of_findSome?_eq_some reached
    exact ⟨List.mem_map_of_mem known, by simpa using (Option.filter_eq_some_iff.mp reached).2⟩
  next => cases found

end Lexer

namespace Scanner

/-! ## One token -/

theorem ahead?_spec {s : Scanner} {m : RuleMatch} (found : s.ahead? = some m)
    (unread : s.rest ≠ []) : m.rule ∈ s.lexer.ruleList ∧ 0 < m.text.length := by
  obtain ⟨⟨rule, length⟩, chosen, rfl⟩ := Option.map_eq_some_iff.mp found
  obtain ⟨known, positive⟩ := Lexer.choose_spec chosen
  -- the text of a match is cut from the rest, so it is not empty either
  have more := List.length_pos_iff.mpr unread
  exact ⟨known, by rw [List.length_take]; omega⟩

/-- Applying a match drops its text, and the token that it completes has the name of its rule. -/
theorem consume_spec (s : Scanner) (m : RuleMatch) :
    (s.consume m).2.rest = s.rest.drop m.text.length ∧ (s.consume m).2.lexer = s.lexer ∧
      (s.consume m).2.source = s.source ∧ (s.consume m).2.finished = s.finished ∧
      ∀ token, (s.consume m).1 = some token → token.name = m.rule.name := by
  unfold consume
  dsimp only
  split_ifs <;> exact ⟨rfl, rfl, rfl, rfl, by simp⟩

/-- What asking `s` for a token leads to. -/
inductive Yields (s : Scanner) : Advance → Prop
  | ended {step : Advance} {token : Token} (outcome : step.outcome = some (.ok token))
      (last : token.isEnd) (finished : step.scanner.finished) : Yields s step
  | failed {step : Advance} {e : Unmatched} (outcome : step.outcome = some (.error e)) :
      Yields s step
  | token {step : Advance} {token : Token} {rule : LexRule}
      (outcome : step.outcome = some (.ok token)) (known : rule ∈ s.lexer.ruleList)
      (named : token.name = rule.name) (unfinished : step.scanner.finished = false)
      (shorter : step.scanner.rest.length < s.rest.length) : Yields s step

theorem advance_spec (budget : List Char) (matched : List RuleMatch) (s : Scanner)
    (unfinished : s.finished = false) : s.Yields (advance budget matched s) ∧
      (advance budget matched s).scanner.lexer = s.lexer ∧
      (advance budget matched s).scanner.source = s.source := by
  -- at the end of the text the token for it is handed out
  have closed (s : Scanner) (matched : List RuleMatch) : s.Yields (s.close matched) ∧
      (s.close matched).scanner.lexer = s.lexer ∧ (s.close matched).scanner.source = s.source :=
    ⟨.ended rfl (by simp [Token.isEnd, Token.endAt]) rfl, rfl, rfl⟩
  fun_induction advance budget matched s with
  | case1 => exact closed _ _
  | case2 => exact closed _ _
  | case3 => exact ⟨.failed rfl, rfl, rfl⟩
  | case4 _ _ matched s unread m found token after consumed =>
    obtain ⟨known, positive⟩ := ahead?_spec found unread
    obtain ⟨rest, lexer, source, finished, named⟩ := s.consume_spec m
    rw [consumed] at rest lexer source finished named
    have more := List.length_pos_iff.mpr unread
    refine ⟨.token rfl known (named token rfl) (finished.trans unfinished) ?_, lexer, source⟩
    change after.rest.length < s.rest.length
    rw [rest, List.length_drop]
    omega
  | case5 _ _ matched s unread m found after consumed ih =>
    obtain ⟨rest, lexer, source, finished, -⟩ := s.consume_spec m
    rw [consumed] at rest lexer source finished
    obtain ⟨yields, lexer', source'⟩ := ih (finished.trans unfinished)
    -- the match made no token: what follows comes from a shorter rest
    refine ⟨?_, lexer'.trans lexer, source'.trans source⟩
    cases yields with
    | ended outcome last finished => exact .ended outcome last finished
    | failed outcome => exact .failed outcome
    | token outcome known named unfinished shorter =>
      refine .token outcome (lexer ▸ known) named unfinished ?_
      rw [rest, List.length_drop] at shorter
      omega

theorem next_spec {s : Scanner} (unfinished : s.finished = false) :
    s.Yields s.next ∧ s.next.scanner.lexer = s.lexer ∧ s.next.scanner.source = s.source := by
  rw [next, if_neg (by simp [unfinished])]
  exact advance_spec _ _ s unfinished

/-! ## All tokens -/

/-- The tokens that a scanner goes on to yield, the end of the text included, and the error that
ends it early. -/
inductive Reads : Scanner → List Token → Option Unmatched → Prop
  | ended {s : Scanner} {token : Token} (outcome : s.next.outcome = some (.ok token))
      (last : token.isEnd) (finished : s.next.scanner.finished) : Reads s [token] none
  | failed {s : Scanner} {e : Unmatched} (outcome : s.next.outcome = some (.error e)) :
      Reads s [] (some e)
  | token {s : Scanner} {token : Token} {tokens : List Token} {failure : Option Unmatched}
      {rule : LexRule} (outcome : s.next.outcome = some (.ok token))
      (known : rule ∈ s.lexer.ruleList) (named : token.name = rule.name)
      (unfinished : s.next.scanner.finished = false)
      (later : Reads s.next.scanner tokens failure) : Reads s (token :: tokens) failure

theorem reads_drain (budget : Nat) (before : List Token) (matched : List RuleMatch) (s : Scanner)
    (unfinished : s.finished = false) (enough : s.rest.length < budget) :
    ∃ tokens, (drain budget before matched s).tokens = before.reverse ++ tokens ∧
      s.Reads tokens (drain budget before matched s).failure ∧
      tokens.length ≤ s.rest.length + 1 := by
  induction budget generalizing before matched s with
  | zero => omega
  | succ budget ih =>
    obtain ⟨yields, lexer, source⟩ := next_spec unfinished
    unfold drain
    cases yields with
    | @ended token outcome last finished =>
      refine ⟨[token], by simp [outcome, finished], ?_, by simp⟩
      simp only [outcome, finished, if_true]
      exact .ended outcome last finished
    | failed outcome =>
      refine ⟨[], by simp [outcome], ?_, by simp⟩
      simp only [outcome]
      exact .failed outcome
    | @token token rule outcome known named open' shorter =>
      -- a token takes at least one character, which pays for its round
      obtain ⟨tokens, listed, reads, bound⟩ := ih (token :: before)
        (s.next.matched.reverse ++ matched) s.next.scanner open' (by omega)
      refine ⟨token :: tokens, ?_, ?_, ?_⟩
      · simp [outcome, open', listed]
      · simp only [outcome, open']
        exact .token outcome known named open' reads
      · rw [List.length_cons]
        omega

/-- Only the last token can be the end of the text, if no rule has its name. -/
theorem Reads.last_of_isEnd {s : Scanner} {tokens : List Token} {failure : Option Unmatched}
    (reads : s.Reads tokens failure) (unfinished : s.finished = false)
    (unreserved : ∀ rule ∈ s.lexer.ruleList, rule.name ≠ endName) {before after : List Token}
    {token : Token} (split : tokens = before ++ token :: after) (last : token.isEnd) :
    after = [] ∧ failure = none := by
  induction reads generalizing before with
  | ended =>
    rcases before with _ | ⟨first, before⟩
    · cases split
      exact ⟨rfl, rfl⟩
    · simp at split
  | failed => simp at split
  | token outcome known named open' _ ih =>
    rcases before with _ | ⟨first, before⟩
    · cases split
      -- a token of a rule has the name of the rule
      exact absurd (by simpa [Token.isEnd] using last) (named ▸ unreserved _ known)
    · cases split
      have lexer := (next_spec unfinished).2.1
      exact ih open' (fun rule member => unreserved rule (lexer ▸ member)) rfl

end Scanner

namespace Lexer

/-- Tokenizing a text reads it to its end. -/
theorem reads_scan (l : Lexer) (text : String) :
    (l.scan text).Reads (l.tokenization text).tokens (l.tokenization text).failure ∧
      (l.tokenization text).tokens.length ≤ text.length + 1 := by
  have length : text.toList.length = text.length := String.length_toList
  obtain ⟨tokens, listed, reads, bound⟩ :=
    Scanner.reads_drain (text.length + 1) [] [] (l.scan text) rfl (by simp [Lexer.scan, length])
  have listed : (l.tokenization text).tokens = tokens := listed
  rw [listed]
  exact ⟨reads, by simpa [Lexer.scan, length] using bound⟩

theorem tokens_eq_ok_iff {l : Lexer} {text : String} {tokens : List Token} :
    l.tokens text = .ok tokens ↔
      (l.tokenization text).failure = none ∧ (l.tokenization text).tokens = tokens := by
  unfold Lexer.tokens
  cases ended : (l.tokenization text).failure <;> simp [ended]

/-! ## Names of rules -/

/-- The lexers that can be built. -/
inductive Built : Lexer → Prop
  | ofRules {engine : Regex.Engine} {preference : Preference} {rules : List LexRule} {l : Lexer}
      (done : Lexer.ofRules engine preference rules = .ok l) : Built l
  | extend {engine : Regex.Engine} {l extended : Lexer} {rule : LexRule} (before : Built l)
      (done : l.extend engine rule = .ok extended) : Built extended
  | without {l : Lexer} (name : String) (before : Built l) : Built (l.without name)

/-- A lexer without rules of its own. -/
def empty : Lexer := ⟨[], .longest⟩

theorem empty_built : empty.Built :=
  .ofRules (show Lexer.ofRules .builtIn .longest [] = .ok empty from rfl)

variable {engine : Regex.Engine}

theorem checkNames_ok {seen : List String} {rules : List LexRule}
    (done : checkNames seen rules = .ok ()) : ∀ rule ∈ rules, rule.name ≠ endName := by
  induction rules generalizing seen with
  | nil => simp
  | cons first rest ih =>
    rw [checkNames] at done
    split at done
    · cases done
    next free =>
      split at done
      · cases done
      · exact List.forall_mem_cons.mpr ⟨free, ih done⟩

theorem ofRule_rule {rule : LexRule} {ready : ReadyRule}
    (done : ReadyRule.ofRule engine rule = .ok ready) : ready.rule = rule := by
  unfold ReadyRule.ofRule at done
  cases made : rule.patterns.mapM (Recogniser.ofPattern engine rule.name rule.insensitive) with
  | error e => simp [made, Except.map] at done
  | ok recognisers =>
    simp only [made, Except.map, Except.ok.injEq] at done
    exact done ▸ rfl

theorem ruleList_of_mapM {rules : List LexRule} {ready : List ReadyRule}
    (done : rules.mapM (ReadyRule.ofRule engine) = .ok ready) : ready.map (·.rule) = rules := by
  induction rules generalizing ready with
  | nil =>
    cases done
    rfl
  | cons rule rest ih =>
    rw [List.mapM_cons] at done
    cases first : ReadyRule.ofRule engine rule with
    | error e => simp [first, bind, Except.bind] at done
    | ok r =>
      cases later : rest.mapM (ReadyRule.ofRule engine) with
      | error e => simp [first, later, bind, Except.bind] at done
      | ok rs =>
        simp only [first, later, bind, Except.bind, pure, Except.pure, Except.ok.injEq] at done
        subst done
        rw [List.map_cons, ofRule_rule first, ih later]

/-- What a list of rules has been found to be like. -/
theorem ofRules_spec {preference : Preference} {rules : List LexRule} {l : Lexer}
    (built : ofRules engine preference rules = .ok l) :
    checkNames [] rules = .ok () ∧
      checkModes (initialMode :: rules.map (·.mode)) rules = .ok () ∧
      ∃ ready, rules.mapM (ReadyRule.ofRule engine) = .ok ready ∧ l = ⟨ready, preference⟩ := by
  unfold ofRules at built
  cases names : checkNames [] rules with
  | error e => simp [names, bind, Except.bind] at built
  | ok _ =>
    cases modes : checkModes (initialMode :: rules.map (·.mode)) rules with
    | error e => simp [names, modes, bind, Except.bind] at built
    | ok _ =>
      cases made : rules.mapM (ReadyRule.ofRule engine) with
      | error e => simp [names, modes, made, bind, Except.bind] at built
      | ok ready =>
        simp only [names, modes, made, bind, Except.bind, pure, Except.pure,
          Except.ok.injEq] at built
        exact ⟨rfl, rfl, ready, rfl, built.symm⟩

/-- What a rule that is appended has been found to be like. Any other leaves the lexer as it was. -/
theorem addRule_cases (engine : Regex.Engine) (l : Lexer) (rule : LexRule) :
    (∃ fault, l.addRule engine rule = (.error fault, l)) ∨
      rule.name ≠ endName ∧ l.rule? rule.name = none ∧ l.unknownMode? rule = none ∧
        ∃ ready, ReadyRule.ofRule engine rule = .ok ready ∧
          l.addRule engine rule = (.ok (), { l with rules := l.rules ++ [ready] }) := by
  unfold addRule
  by_cases reserved : rule.name = endName
  · exact Or.inl ⟨_, if_pos reserved⟩
  by_cases taken : (l.rule? rule.name).isSome
  · exact Or.inl ⟨_, by rw [if_neg reserved, if_pos taken]⟩
  rw [if_neg reserved, if_neg taken]
  cases known : l.unknownMode? rule with
  | some mode => exact Or.inl ⟨_, rfl⟩
  | none =>
    cases made : ReadyRule.ofRule engine rule with
    | error e => exact Or.inl ⟨_, rfl⟩
    | ok ready => exact Or.inr ⟨reserved, by simpa using taken, rfl, ready, rfl, rfl⟩

theorem extend_spec {l extended : Lexer} {rule : LexRule}
    (done : l.extend engine rule = .ok extended) :
    rule.name ≠ endName ∧ l.rule? rule.name = none ∧ l.unknownMode? rule = none ∧
      ∃ ready, ReadyRule.ofRule engine rule = .ok ready ∧
        extended = { l with rules := l.rules ++ [ready] } := by
  unfold extend at done
  rcases addRule_cases engine l rule with
    ⟨fault, refused⟩ | ⟨proper, fresh, known, ready, made, added⟩
  · rw [refused] at done
    cases done
  · rw [added] at done
    exact ⟨proper, fresh, known, ready, made, (Except.ok.inj done).symm⟩

theorem extend_ruleList {l extended : Lexer} {rule : LexRule}
    (done : l.extend engine rule = .ok extended) :
    extended.ruleList = l.ruleList ++ [rule] ∧ rule.name ≠ endName := by
  obtain ⟨proper, -, -, ready, made, rfl⟩ := extend_spec done
  exact ⟨by simp [ruleList, ofRule_rule made], proper⟩

/-- No rule has the name of the end of the input. -/
theorem Built.unreserved {l : Lexer} (built : l.Built) :
    ∀ rule ∈ l.ruleList, rule.name ≠ endName := by
  induction built with
  | @ofRules engine preference rules l done =>
    obtain ⟨names, -, ready, made, rfl⟩ := ofRules_spec done
    rw [ruleList, ruleList_of_mapM made]
    exact checkNames_ok names
  | extend _ done ih =>
    obtain ⟨rules, free⟩ := extend_ruleList done
    intro rule member
    rw [rules] at member
    rcases List.mem_append.mp member with old | new
    · exact ih rule old
    · exact List.mem_singleton.mp new ▸ free
  | without name _ ih =>
    intro rule member
    obtain ⟨ready, kept, rfl⟩ := List.mem_map.mp member
    exact ih ready.rule (List.mem_map_of_mem ((List.mem_filter.mp kept).1))

end Lexer

end ShiftReduce
