import ShiftReduce.Definition.Basic

/-!
# Well-formed definitions

What the author of a definition has to get right, said of the definition alone: neither the names of
helpers nor the order of the rules has a part in it.
-/
namespace ShiftReduce

namespace Body

mutual

/-- The expression and all that it is made of, at every depth. -/
def parts : Body → List Body
  | empty => [empty]
  | literal text => [literal text]
  | token name => [token name]
  | rule name => [rule name]
  | seq items => seq items :: partsOfAll items
  | choice alternatives => choice alternatives :: partsOfAll alternatives
  | opt e => opt e :: e.parts
  | counted e min max => counted e min max :: e.parts

/-- All that some expressions are made of. -/
def partsOfAll : List Body → List Body
  | [] => []
  | e :: rest => e.parts ++ partsOfAll rest

end

end Body

/-- A literal that is read as it stands needs no regular expression; every other pattern has to be
one that the engine compiles. -/
def Pattern.Compiles (engine : Regex.Engine) (p : Pattern) (insensitive : Bool) : Prop :=
  (∃ text, p = .literal text ∧ insensitive = false) ∨
    ∃ m, engine.compile (Recogniser.regexSource insensitive p) = .ok m

namespace Declared

/-- What may stand in the body of a rule. -/
def Accepts (d : Declared) : Body → Prop
  | .token name => name ∈ d.tokens
  | .rule name => name ∈ d.rules
  | .literal text => text ≠ "" ∧ (text ∈ d.tokens ∨ text ≠ endName ∧ text ∉ d.rules)
  | .counted _ min max => ∀ m ∈ max, min ≤ m
  | _ => True

instance (d : Declared) : DecidablePred d.Accepts
  | .token name => inferInstanceAs (Decidable (name ∈ d.tokens))
  | .rule name => inferInstanceAs (Decidable (name ∈ d.rules))
  | .literal text =>
    inferInstanceAs (Decidable (text ≠ "" ∧ (text ∈ d.tokens ∨ text ≠ endName ∧ text ∉ d.rules)))
  | .counted _ min max => inferInstanceAs (Decidable (∀ m ∈ max, min ≤ m))
  | .empty | .seq _ | .choice _ | .opt _ => inferInstanceAs (Decidable True)

/-- Only which names are declared is of account, not their order. -/
theorem accepts_congr {d e : Declared} (tokens : d.tokens = e.tokens)
    (rules : ∀ name, name ∈ d.rules ↔ name ∈ e.rules) (body : Body) :
    d.Accepts body ↔ e.Accepts body := by
  cases body <;> simp [Accepts, tokens, rules]

/-- What the names of helpers end with, a number apart. -/
def suffixes : List String := ["alternation", "optional", "repeat", "group"]

/-- A helper of some rule may have this name. -/
def Invents (d : Declared) (name : String) : Prop :=
  ∃ rule ∈ d.rules, ∃ suffix ∈ suffixes,
    name = rule ++ "_" ++ suffix ∨ ∃ n : Nat, name = rule ++ "_" ++ suffix ++ toString (n + 1)

/-- The names of helpers are long, so a short literal is never one of them. -/
theorem Invents.length_le {d : Declared} {name : String} (invents : d.Invents name) :
    6 ≤ name.length := by
  obtain ⟨rule, -, suffix, ending, same⟩ := invents
  have long : ∀ suffix ∈ suffixes, 5 ≤ suffix.length := by decide
  have ends := long suffix ending
  have separator : "_".length = 1 := rfl
  rcases same with rfl | ⟨n, rfl⟩
  · rw [String.length_append, String.length_append]
    omega
  · rw [String.length_append, String.length_append, String.length_append]
    omega

end Declared

namespace Definition

/-- The definition has nothing in it that has to be refused, with the engine at hand. -/
structure WellFormed (engine : Regex.Engine) (d : Definition) : Prop where
  start : ∃ name ∈ d.declared.rules, d.start = some name
  tokens : d.tokenNames.Nodup ∧ endName ∉ d.tokenNames
  patterns : ∀ rule ∈ d.tokens, ∀ p ∈ rule.patterns,
    p ≠ .literal "" ∧ p.Compiles engine rule.insensitive
  modes : ∀ rule ∈ d.tokens, ∀ change ∈ rule.change, ∀ mode ∈ change.target?,
    mode = initialMode ∨ mode ∈ d.tokens.map (·.mode)
  rules : d.declared.rules.Nodup ∧
    ∀ name ∈ d.declared.rules, name ≠ endName ∧ name ∉ d.tokenNames
  bodies : ∀ rule ∈ d.rules, ∀ e ∈ rule.2.parts, d.declared.Accepts e

/-- The literal occurs in the body of some rule. -/
def HasLiteral (d : Definition) (text : String) : Prop :=
  ∃ rule ∈ d.rules, .literal text ∈ rule.2.parts

variable {engine : Regex.Engine} {d : Definition} {rules : List (String × Body)}

/-- The order of the rules is of no account. -/
theorem WellFormed.perm (wf : d.WellFormed engine) (perm : d.rules.Perm rules) :
    { d with rules }.WellFormed engine := by
  have names : d.declared.rules.Perm (rules.map (·.1)) := List.Perm.map Prod.fst perm
  obtain ⟨start, listed, chosen⟩ := wf.start
  refine ⟨⟨start, names.mem_iff.mp listed, chosen⟩, wf.tokens, wf.patterns, wf.modes,
    ⟨names.nodup_iff.mp wf.rules.1, fun name member => wf.rules.2 name (names.mem_iff.mpr member)⟩,
    fun rule member e part => ?_⟩
  have same : d.declared.Accepts e ↔ ({ d with rules } : Definition).declared.Accepts e := by
    apply Declared.accepts_congr
    · rfl
    · exact fun name => names.mem_iff
  exact same.mp (wf.bodies rule (perm.mem_iff.mpr member) e part)

end Definition

end ShiftReduce
