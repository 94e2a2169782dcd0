import ShiftReduce.Proofs.Lexer.Admission
import ShiftReduce.Proofs.Lexer.Reading

/-!
# Appending a rule to a lexer

A rule that is appended to a lexer goes through checks of its own. Main statement: they let through
what the checks of a list of rules let through at its end, and refuse the rest for the same reasons.
-/
namespace ShiftReduce.Lexer

variable {engine : Regex.Engine} {rules : List LexRule} {rule : LexRule}

/-! ## The last rule of a list -/

theorem checkNames_concat {seen : List String} (passed : checkNames seen rules = .ok ()) :
    checkNames seen (rules ++ [rule]) =
      if rule.name = endName then .error (.reservedName rule.name)
      else if rule.name ∈ seen ∨ rule.name ∈ rules.map (·.name) then
        .error (.duplicateToken rule.name)
      else .ok () := by
  induction rules generalizing seen with
  | nil => simp [checkNames]
  | cons first rest ih =>
    rw [checkNames] at passed
    split at passed
    · cases passed
    next proper =>
      split at passed
      · cases passed
      next fresh =>
        rw [List.cons_append, checkNames, if_neg proper, if_neg fresh, ih passed]
        simp only [List.map_cons, List.mem_cons, or_assoc, or_left_comm]

theorem checkModes_concat {modes : List String} (passed : checkModes modes rules = .ok ()) :
    checkModes modes (rules ++ [rule]) =
      match (rule.change.bind (·.target?)).filter (· ∉ modes) with
      | some mode => .error (.unknownMode rule.name mode)
      | none => .ok () := by
  induction rules with
  | nil =>
    rw [List.nil_append, checkModes]
    cases target : rule.change.bind (·.target?) with
    | none => rfl
    | some mode => by_cases known : mode ∈ modes <;> simp [known, checkModes, Option.filter]
  | cons first rest ih =>
    rw [checkModes] at passed
    rw [List.cons_append, checkModes]
    split at passed
    next mode named =>
      split at passed
      next known =>
        rw [if_pos known]
        exact ih passed
      · cases passed
    next unnamed => exact ih passed

theorem mapM_ofRule_concat {ready : List ReadyRule}
    (made : rules.mapM (ReadyRule.ofRule engine) = .ok ready) :
    (rules ++ [rule]).mapM (ReadyRule.ofRule engine) =
      (ReadyRule.ofRule engine rule).map fun last => ready ++ [last] := by
  rw [List.mapM_append, made]
  cases last : ReadyRule.ofRule engine rule <;>
    simp [last, bind, Except.bind, pure, Except.pure, Except.map]

/-! ## Two ways to the same lexer -/

/-- More modes make no change of mode wrong. -/
theorem checkModes_mono {modes more : List String} (passed : checkModes modes rules = .ok ())
    (subset : modes ⊆ more) : checkModes more rules = .ok () :=
  checkModes_eq_ok_iff.mpr fun rule member change changes mode named =>
    subset (checkModes_eq_ok_iff.mp passed rule member change changes mode named)

theorem extend_eq_ofRules {preference : Preference} {l : Lexer}
    (built : ofRules engine preference rules = .ok l) (rule : LexRule) :
    l.extend engine rule = ofRules engine preference (rules ++ [rule]) := by
  obtain ⟨names, modes, ready, made, rfl⟩ := ofRules_spec built
  have listed : ruleList ⟨ready, preference⟩ = rules := ruleList_of_mapM made
  have taken : (rule? ⟨ready, preference⟩ rule.name).isSome ↔ rule.name ∈ rules.map (·.name) := by
    simp [rule?, listed]
  have unknown : unknownMode? ⟨ready, preference⟩ rule = (rule.change.bind (·.target?)).filter
      (· ∉ initialMode :: (rules ++ [rule]).map (·.mode)) := by
    unfold unknownMode?
    rw [listed]
    congr 1
    funext mode
    rw [Bool.eq_iff_iff]
    simp only [Bool.and_eq_true, decide_eq_true_eq, List.all_eq_true, List.mem_cons, List.map_append,
      List.mem_append, List.mem_map, not_or, not_exists, not_and, List.map_cons, List.map_nil]
    grind
  have modes : checkModes (initialMode :: (rules ++ [rule]).map (·.mode)) rules = .ok () :=
    checkModes_mono modes (by simp)
  unfold extend addRule ofRules
  rw [checkNames_concat names, checkModes_concat modes, mapM_ofRule_concat made, ← unknown]
  by_cases reserved : rule.name = endName
  · rw [if_pos reserved, if_pos reserved]
    rfl
  by_cases known : rule.name ∈ rules.map (·.name)
  · rw [if_neg reserved, if_neg reserved, if_pos (taken.mpr known), if_pos (Or.inr known)]
    rfl
  rw [if_neg reserved, if_neg reserved, if_neg (mt taken.mp known), if_neg (by simpa using known)]
  cases unknownMode? ⟨ready, preference⟩ rule with
  | some mode => rfl
  | none => cases ReadyRule.ofRule engine rule <;> rfl

/-- A rule that is offered is appended, or it is refused and leaves the lexer as it was. -/
theorem extend_cases (engine : Regex.Engine) (l : Lexer) (rule : LexRule) :
    (∃ fault, l.extend engine rule = .error fault ∧ l.addRule engine rule = (.error fault, l)) ∨
      l.extend engine rule = .ok (l.offered engine rule) := by
  unfold extend offered
  rcases addRule_cases engine l rule with ⟨fault, same⟩ | ⟨-, -, -, ready, -, added⟩
  · exact Or.inl ⟨fault, by rw [same], same⟩
  · exact Or.inr (by rw [added])

/-- Appending a rule agrees with building a lexer from the longer list: either both are refused, for
the same fault, or both give lexers of the same rules, which read every text alike. -/
theorem extend_agrees_with_ofRules {preference : Preference} {l : Lexer}
    (built : ofRules engine preference rules = .ok l) (rule : LexRule) :
    ((∃ extended, l.extend engine rule = .ok extended) ↔
      ∃ whole, ofRules engine preference (rules ++ [rule]) = .ok whole) ∧
    (∀ fault whole, l.extend engine rule = .error fault →
      ofRules engine preference (rules ++ [rule]) = .error whole →
        fault = whole ∧ l.addRule engine rule = (.error fault, l) ∧
          (l.offered engine rule).ruleList = rules) ∧
    ∀ extended whole, l.extend engine rule = .ok extended →
      ofRules engine preference (rules ++ [rule]) = .ok whole →
        extended.ruleList = rules ++ [rule] ∧ whole.ruleList = rules ++ [rule] ∧
        ∀ text, extended.tokenization text = whole.tokenization text ∧
          extended.tokens text = whole.tokens text := by
  have same := extend_eq_ofRules built rule
  have listed : l.ruleList = rules := by
    obtain ⟨-, -, ready, made, rfl⟩ := ofRules_spec built
    exact ruleList_of_mapM made
  refine ⟨by rw [same], ?refused, ?accepted⟩
  case refused =>
    intro fault whole refused refused'
    rcases extend_cases engine l rule with ⟨fault', refused'', kept⟩ | accepted
    · obtain rfl : fault' = fault := Except.error.inj (refused''.symm.trans refused)
      refine ⟨?_, kept, ?_⟩
      · rw [same, refused'] at refused
        exact Except.error.inj refused.symm
      · rw [offered, kept]
        exact listed
    · cases refused.symm.trans accepted
  case accepted =>
    intro extended whole accepted accepted'
    have longer := (extend_ruleList accepted).1
    rw [listed] at longer
    rw [same, accepted'] at accepted
    obtain rfl := Except.ok.inj accepted
    exact ⟨longer, longer, fun text => ⟨rfl, rfl⟩⟩

/-- A rule may enter a mode of its own. One with three faults is refused for the first of them. -/
theorem extend_agrees_with_ofRules_tag :
    let word : LexRule := .plain "A" (.literal "a")
    let tag : LexRule := { LexRule.plain "TAG" (.literal "<") with
      mode := "tag", change := some (.enter "tag") }
    let faulty : LexRule := { LexRule.plain "A" (.literal "") with change := some (.enter "tag") }
    ∃ l, ofRules .builtIn .longest [word] = .ok l ∧
      (∃ extended whole, l.extend .builtIn tag = .ok extended ∧
        ofRules .builtIn .longest ([word] ++ [tag]) = .ok whole ∧
        extended.ruleList = [word, tag] ∧ whole.ruleList = [word, tag]) ∧
      l.extend .builtIn faulty = .error (.duplicateToken "A") ∧
      ofRules .builtIn .longest ([word] ++ [faulty]) = .error (.duplicateToken "A") ∧
      (l.offered .builtIn faulty).ruleList = [word] := by
  intro word tag faulty
  have built : ofRules .builtIn .longest [word] = .ok ⟨[⟨word, [.literal ['a']]⟩], .longest⟩ := rfl
  refine ⟨_, built, ⟨_, _, rfl, rfl, ?_⟩, rfl, rfl, ?_⟩
  · obtain ⟨longer, longer', -⟩ := (extend_agrees_with_ofRules built tag).2.2 _ _ rfl rfl
    exact ⟨longer, longer'⟩
  · exact ((extend_agrees_with_ofRules built faulty).2.1 _ _ rfl rfl).2.2

end ShiftReduce.Lexer
