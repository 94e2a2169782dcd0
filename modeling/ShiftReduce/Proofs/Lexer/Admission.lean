import Mathlib.Data.List.Forall2
import ShiftReduce.Proofs.Definition.WellFormed

/-!
# Lists of rules that make a lexer

A list of token rules is refused for a name that is reserved or occurs twice, for a change to a mode
that is not there, and for a pattern that is empty or no regular expression. For nothing else.
-/
namespace ShiftReduce

variable {engine : Regex.Engine} {rules : List LexRule} {rule : LexRule}

theorem exists_ok_bind {ε α β : Type} {x : Except ε α} {f : α → Except ε β} :
    (∃ b, x >>= f = .ok b) ↔ ∃ a, x = .ok a ∧ ∃ b, f a = .ok b := by
  cases x <;> simp [bind, Except.bind]

theorem exists_ok_mapM {ε α β : Type} {f : α → Except ε β} {xs : List α} :
    (∃ ys, xs.mapM f = .ok ys) ↔ ∀ x ∈ xs, ∃ y, f x = .ok y := by
  induction xs with
  | nil => simp [pure, Except.pure]
  | cons x xs ih =>
    rw [List.mapM_cons, exists_ok_bind, List.forall_mem_cons, ← ih]
    constructor
    · rintro ⟨y, first, later⟩
      obtain ⟨ys, rest, -⟩ := exists_ok_bind.mp later
      exact ⟨⟨y, first⟩, ys, rest⟩
    · rintro ⟨⟨y, first⟩, ys, rest⟩
      exact ⟨y, first, exists_ok_bind.mpr ⟨ys, rest, y :: ys, rfl⟩⟩

/-- Each result is that of the element at its place. -/
theorem forall₂_of_mapM {ε α β : Type} {f : α → Except ε β} {xs : List α} {ys : List β}
    (done : xs.mapM f = .ok ys) : List.Forall₂ (fun x y => f x = .ok y) xs ys := by
  induction xs generalizing ys with
  | nil =>
    cases done
    exact .nil
  | cons x xs ih =>
    rw [List.mapM_cons] at done
    cases first : f x with
    | error e =>
      rw [first] at done
      cases done
    | ok y =>
      cases later : xs.mapM f with
      | error e =>
        rw [first, later] at done
        cases done
      | ok zs =>
        rw [first, later] at done
        cases done
        exact .cons first (ih later)

theorem Recogniser.exists_ofPattern {token : String} {insensitive : Bool} {p : Pattern} :
    (∃ r, ofPattern engine token insensitive p = .ok r) ↔
      p ≠ .literal "" ∧ p.Compiles engine insensitive := by
  unfold ofPattern Pattern.Compiles
  by_cases none : p = .literal ""
  · simp [none]
  rw [if_neg none]
  split
  next text => simpa using none
  next other =>
    -- nothing but a literal that is read as it stands goes without an expression
    have literal : ¬ ∃ text, p = .literal text ∧ insensitive = false := by
      rintro ⟨text, rfl, rfl⟩
      exact other text rfl rfl
    simp only [none, literal, false_or, ne_eq, not_false_eq_true, true_and]
    split
    next m compiled => simp [compiled]
    next e failed => simp [failed]

theorem ReadyRule.exists_ofRule : (∃ r, ofRule engine rule = .ok r) ↔
    ∀ p ∈ rule.patterns, p ≠ .literal "" ∧ p.Compiles engine rule.insensitive := by
  have each :
      (∃ rs, rule.patterns.mapM (Recogniser.ofPattern engine rule.name rule.insensitive) = .ok rs) ↔
        ∀ p ∈ rule.patterns, p ≠ .literal "" ∧ p.Compiles engine rule.insensitive := by
    simp only [exists_ok_mapM, Recogniser.exists_ofPattern]
  rw [← each, ofRule]
  cases rule.patterns.mapM (Recogniser.ofPattern engine rule.name rule.insensitive) <;> simp [Except.map]

/-- A rule that is made ready has a recogniser for each of its patterns. -/
theorem ReadyRule.forall₂_ofRule {ready : ReadyRule} (made : ofRule engine rule = .ok ready) :
    List.Forall₂ (fun p m => Recogniser.ofPattern engine rule.name rule.insensitive p = .ok m)
      rule.patterns ready.recognisers := by
  unfold ofRule at made
  cases done : rule.patterns.mapM (Recogniser.ofPattern engine rule.name rule.insensitive) with
  | error e =>
    rw [done] at made
    cases made
  | ok recognisers =>
    rw [done] at made
    cases made
    exact forall₂_of_mapM done

namespace Lexer

theorem checkNames_eq_ok_iff {seen : List String} : checkNames seen rules = .ok () ↔
    (rules.map (·.name)).Nodup ∧ ∀ rule ∈ rules, rule.name ≠ endName ∧ rule.name ∉ seen := by
  induction rules generalizing seen with
  | nil => simp [checkNames]
  | cons rule rest ih =>
    rw [checkNames]
    by_cases reserved : rule.name = endName
    · simp [reserved]
    by_cases known : rule.name ∈ seen
    · simp [reserved, known]
    rw [if_neg reserved, if_neg known, ih, List.map_cons, List.nodup_cons, List.forall_mem_cons]
    simp only [List.mem_cons, not_or, List.mem_map]
    grind

theorem checkModes_eq_ok_iff {modes : List String} : checkModes modes rules = .ok () ↔
    ∀ rule ∈ rules, ∀ change ∈ rule.change, ∀ mode ∈ change.target?, mode ∈ modes := by
  induction rules with
  | nil => simp [checkModes]
  | cons rule rest ih =>
    rw [checkModes, List.forall_mem_cons, ← ih]
    split
    next mode named =>
      obtain ⟨change, same, target⟩ := Option.bind_eq_some_iff.mp named
      by_cases known : mode ∈ modes <;> simp [same, target, known]
    next unnamed =>
      cases same : rule.change with
      | none => simp
      | some change =>
        rw [same] at unnamed
        have target : change.target? = none := unnamed
        simp [target]

/-- What token rules have to be like to make a lexer. -/
theorem exists_ofRules {preference : Preference} : (∃ l, ofRules engine preference rules = .ok l) ↔
    ((rules.map (·.name)).Nodup ∧ ∀ rule ∈ rules, rule.name ≠ endName) ∧
    (∀ rule ∈ rules, ∀ change ∈ rule.change, ∀ mode ∈ change.target?,
      mode = initialMode ∨ mode ∈ rules.map (·.mode)) ∧
    ∀ rule ∈ rules, ∀ p ∈ rule.patterns, p ≠ .literal "" ∧ p.Compiles engine rule.insensitive := by
  have names : checkNames [] rules = .ok () ↔
      (rules.map (·.name)).Nodup ∧ ∀ rule ∈ rules, rule.name ≠ endName := by
    simp [checkNames_eq_ok_iff]
  have modes : checkModes (initialMode :: rules.map (·.mode)) rules = .ok () ↔
      ∀ rule ∈ rules, ∀ change ∈ rule.change, ∀ mode ∈ change.target?,
        mode = initialMode ∨ mode ∈ rules.map (·.mode) := by
    simp only [checkModes_eq_ok_iff, List.mem_cons]
  have ready : (∃ ready, rules.mapM (ReadyRule.ofRule engine) = .ok ready) ↔
      ∀ rule ∈ rules, ∀ p ∈ rule.patterns, p ≠ .literal "" ∧ p.Compiles engine rule.insensitive := by
    simp only [exists_ok_mapM, ReadyRule.exists_ofRule]
  have checked (r : Except Fault Unit) : (∃ done, r = .ok done) ↔ r = .ok () :=
    ⟨fun ⟨(), done⟩ => done, fun done => ⟨(), done⟩⟩
  rw [← names, ← modes, ← ready, ← checked, ← checked]
  unfold ofRules
  simp [exists_ok_bind, pure, Except.pure]

/-- Rules for literals ask for nothing but names of their own. -/
theorem exists_ofRules_literals {preference : Preference} {literals : List String} :
    (∃ l, ofRules engine preference (rules ++ literals.map LexRule.ofLiteral) = .ok l) ↔
      (∃ l, ofRules engine preference rules = .ok l) ∧ literals.Nodup ∧
        ∀ text ∈ literals, text ≠ "" ∧ text ∉ rules.map (·.name) ∧ text ≠ endName := by
  have names : (literals.map LexRule.ofLiteral).map (·.name) = literals := by
    simp [Function.comp_def, LexRule.ofLiteral, LexRule.plain]
  have modes : ∀ mode, mode = initialMode ∨
      mode ∈ (rules ++ literals.map LexRule.ofLiteral).map (·.mode) ↔
      mode = initialMode ∨ mode ∈ rules.map (·.mode) := by
    intro mode
    have same : mode ∈ (literals.map LexRule.ofLiteral).map (·.mode) → mode = initialMode := by
      simp only [List.mem_map]
      rintro ⟨rule, ⟨text, -, rfl⟩, rfl⟩
      rfl
    rw [List.map_append, List.mem_append]
    exact ⟨fun known => known.elim Or.inl (·.elim Or.inr (Or.inl <| same ·)),
      Or.imp_right Or.inl⟩
  -- a literal is its own pattern, and changes no mode
  have unchanged : ∀ rule ∈ literals.map LexRule.ofLiteral, ∀ change ∈ rule.change,
      ∀ mode ∈ change.target?, mode = initialMode ∨ mode ∈ rules.map (·.mode) := by
    simp [LexRule.ofLiteral, LexRule.plain]
  have patterns : (∀ rule ∈ literals.map LexRule.ofLiteral, ∀ p ∈ rule.patterns,
      p ≠ .literal "" ∧ p.Compiles engine rule.insensitive) ↔ ∀ text ∈ literals, text ≠ "" := by
    simp [LexRule.ofLiteral, LexRule.plain, Pattern.Compiles]
  have proper : (∀ rule ∈ literals.map LexRule.ofLiteral, rule.name ≠ endName) ↔
      ∀ text ∈ literals, text ≠ endName := by
    simp [LexRule.ofLiteral, LexRule.plain]
  rw [exists_ofRules, exists_ofRules]
  simp only [modes]
  rw [List.map_append, names, List.nodup_append, List.forall_mem_append, List.forall_mem_append,
    List.forall_mem_append, patterns, proper]
  constructor
  · rintro ⟨⟨⟨nodup, distinct, apart⟩, named, ends⟩, ⟨changes, -⟩, compiled, nonempty⟩
    refine ⟨⟨⟨nodup, named⟩, changes, compiled⟩, distinct, fun text member => ?_⟩
    exact ⟨nonempty text member, fun token => apart text token text member rfl, ends text member⟩
  · rintro ⟨⟨⟨nodup, named⟩, changes, compiled⟩, distinct, fresh⟩
    refine ⟨⟨⟨nodup, distinct, ?_⟩, named, fun text member => (fresh text member).2.2⟩,
      ⟨changes, unchanged⟩, compiled, fun text member => (fresh text member).1⟩
    rintro name token text member rfl
    exact (fresh name member).2.1 token

end Lexer

end ShiftReduce
