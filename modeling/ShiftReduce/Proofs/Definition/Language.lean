import Mathlib.Computability.Language
import ShiftReduce.Definition.Body

/-!
# Languages of rule bodies

A rule body denotes a set of words, given what each rule stands for: literals and tokens are words of
one symbol, sequences concatenate, choices unite, and repetition takes powers.
-/
namespace ShiftReduce.Body

/-- Words of between `min` and `max` parts, each from `L`. -/
def powers (L : Language String) (min : Nat) (max : Option Nat) : Language String :=
  {word | ∃ k, min ≤ k ∧ (∀ m ∈ max, k ≤ m) ∧ word ∈ L ^ k}

mutual

/-- What an expression denotes if each rule stands for the words that `ρ` gives it. -/
def language (ρ : String → Language String) : Body → Language String
  | empty => 1
  | literal text => {[text]}
  | token name => {[name]}
  | rule name => ρ name
  | seq items => languageOfAll ρ items
  | choice [] => 1
  | choice alternatives => languageOfAny ρ alternatives
  | opt e => e.language ρ + 1
  | counted e min max => powers (e.language ρ) min max

/-- Words of all the expressions, one behind the other. -/
def languageOfAll (ρ : String → Language String) : List Body → Language String
  | [] => 1
  | e :: rest => e.language ρ * languageOfAll ρ rest

/-- Words of any of the expressions. -/
def languageOfAny (ρ : String → Language String) : List Body → Language String
  | [] => 0
  | e :: rest => e.language ρ + languageOfAny ρ rest

end

/-- What an expression denotes over the names of terminals and rules: a rule is a word by itself. -/
def words (e : Body) : Language String := e.language fun name => {[name]}

/-- Induction on expressions, with the hypothesis for every item of a list. -/
@[elab_as_elim]
theorem induct {motive : Body → Prop} (e : Body) (empty : motive .empty)
    (literal : ∀ text, motive (.literal text)) (token : ∀ name, motive (.token name))
    (rule : ∀ name, motive (.rule name))
    (seq : ∀ items, (∀ e ∈ items, motive e) → motive (.seq items))
    (choice : ∀ alternatives, (∀ e ∈ alternatives, motive e) → motive (.choice alternatives))
    (opt : ∀ e, motive e → motive (.opt e))
    (counted : ∀ e min max, motive e → motive (.counted e min max)) : motive e :=
  Body.rec empty literal token rule seq choice opt counted (by simp)
    (fun _ _ first rest => List.forall_mem_cons.mpr ⟨first, rest⟩) e

theorem language_choice {ρ : String → Language String} (first : Body) (rest : List Body) :
    (choice (first :: rest)).language ρ = languageOfAny ρ (first :: rest) := by
  rw [language]
  exact List.cons_ne_nil _ _

/-! ## Unions and powers -/

variable {L : Language String} {word : List String} {min max : Nat}

theorem mem_sum {languages : List (Language String)} :
    word ∈ languages.sum ↔ ∃ L ∈ languages, word ∈ L := by
  induction languages with
  | nil => simp
  | cons L rest ih => simp [Language.mem_add, ih]

theorem powers_self (L : Language String) (n : Nat) : powers L n (some n) = L ^ n := by
  ext word
  constructor
  · rintro ⟨k, least, most, member⟩
    obtain rfl : k = n := Nat.le_antisymm (most n rfl) least
    exact member
  · intro member
    exact ⟨n, Nat.le_refl n, by simp, member⟩

theorem powers_none (L : Language String) (min : Nat) :
    powers L min none = L ^ min * KStar.kstar L := by
  ext word
  rw [Language.kstar_eq_iSup_pow, Language.mul_iSup, Language.mem_iSup]
  constructor
  · rintro ⟨k, least, -, member⟩
    refine ⟨k - min, ?_⟩
    rwa [← pow_add, Nat.add_sub_cancel' least]
  · rintro ⟨more, member⟩
    rw [← pow_add] at member
    exact ⟨min + more, Nat.le_add_right _ _, by simp, member⟩

theorem powers_some (L : Language String) (ordered : min ≤ max) : powers L min (some max) =
    L ^ min * ((List.range (max - min + 1)).map (L ^ ·)).sum := by
  ext word
  rw [Language.mem_mul]
  constructor
  · rintro ⟨k, least, most, member⟩
    have most : k ≤ max := most max rfl
    rw [← Nat.add_sub_cancel' least, pow_add] at member
    obtain ⟨front, inFront, behind, inBehind, rfl⟩ := Language.mem_mul.mp member
    refine ⟨front, inFront, behind, mem_sum.mpr ⟨_, List.mem_map_of_mem ?_, inBehind⟩, rfl⟩
    exact List.mem_range.mpr (by omega)
  · rintro ⟨front, inFront, behind, inBehind, rfl⟩
    obtain ⟨_, listed, inBehind⟩ := mem_sum.mp inBehind
    obtain ⟨more, within, rfl⟩ := List.mem_map.mp listed
    have within := List.mem_range.mp within
    refine ⟨min + more, Nat.le_add_right _ _, ?_, ?_⟩
    · rintro _ ⟨⟩
      omega
    · rw [pow_add]
      exact Language.append_mem_mul inFront inBehind

/-- Nothing, repeated, is nothing. -/
theorem powers_one {max : Option Nat} (ordered : ∀ m ∈ max, min ≤ m) : powers 1 min max = 1 := by
  ext word
  constructor
  · rintro ⟨k, -, -, member⟩
    rwa [one_pow] at member
  · intro member
    exact ⟨min, Nat.le_refl min, ordered, by rwa [one_pow]⟩

/-! ## Abbreviations -/

variable {ρ : String → Language String}

theorem language_star (e : Body) : e.star.language ρ = KStar.kstar (e.language ρ) := by
  rw [star, language, powers_none, pow_zero, one_mul]

theorem language_separatedBy (item separator : Body) :
    (separatedBy item separator).language ρ =
      item.language ρ * KStar.kstar (separator.language ρ * item.language ρ) := by
  simp only [separatedBy, sequence, language, languageOfAll, language_star, mul_one]

end ShiftReduce.Body
