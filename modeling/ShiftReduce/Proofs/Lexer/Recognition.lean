import ShiftReduce.Proofs.Lexer.Admission
import ShiftReduce.Proofs.Lexer.Patterns
import ShiftReduce.Proofs.Regex.BuiltIn
import ShiftReduce.Proofs.Regex.Unambiguous

/-!
# What patterns recognise

A pattern is written out as a regular expression, anchored to the place where a token begins, and
compiled. Main statement: with an engine that goes by the usual notation, a pattern made ready finds
one of its words wherever there is one, and nothing else. A literal is compared as it stands; its
written form would find the same.
-/
namespace ShiftReduce

open Regex

variable {engine : Engine}

namespace Pattern

variable {p : Pattern}

theorem regexSource_eq (p : Pattern) : Recogniser.regexSource false p =
    "\\A".toList ++ ("(?:".toList ++ (p.source ++ [')'])) := by
  simp [Recogniser.regexSource]

/-- A pattern that is compiled is one that can be written. -/
theorem isProper_of_compile {m : Matcher} (documented : engine.Documented) (plain : p.isPlain)
    (compiled : engine.compile (Recogniser.regexSource false p) = .ok m) : p.IsProper := by
  by_contra improper
  have inside : Malformed (p.source ++ [')']) :=
    malformed_source plain improper (List.forall_mem_singleton.mpr (by decide))
  obtain ⟨message, refused⟩ := documented.refuses (.inside inside)
  rw [regexSource_eq, refused] at compiled
  cases compiled

theorem recognises_of_compile {m : Matcher} (documented : engine.Documented) (plain : p.isPlain)
    (compiled : engine.compile (Recogniser.regexSource false p) = .ok m) :
    m.Recognises p.language := by
  have written := written_source plain (isProper_of_compile documented plain compiled)
  rw [regexSource_eq] at compiled
  exact documented.recognises (.group written) compiled

/-- A pattern that is not nested is compiled if it fits. -/
theorem exists_compile (documented : engine.Documented) (plain : p.isPlain) (proper : p.IsProper)
    (flat : p.depth = 0) (fits : engine.Fits (Recogniser.regexSource false p)) :
    ∃ m, engine.compile (Recogniser.regexSource false p) = .ok m := by
  have written := written_source plain proper
  rw [flat] at written
  rw [regexSource_eq] at fits ⊢
  exact documented.compiles (.group written) fits

end Pattern

/-! ## What a recogniser finds -/

/-- At the beginning of every text a word is found if there is one, and nothing else. -/
def Recogniser.Recognises (m : Recogniser) (L : Language Char) : Prop :=
  ∀ text, (∀ n, m.reach text = some n → n ≤ text.length ∧ text.take n ∈ L) ∧
    (m.reach text = none → ∀ n, text.take n ∉ L)

namespace Recogniser

variable {L : Language Char} {m m' : Recogniser}

theorem recognises_literal (word : List Char) : (literal word).Recognises {word} := by
  intro text
  have found : word.isPrefixOf text ↔ word <+: text := List.isPrefixOf_iff_prefix
  simp only [reach, found]
  split
  next front =>
    refine ⟨?_, by simp⟩
    rintro _ ⟨⟩
    exact ⟨front.length_le, List.prefix_iff_eq_take.mp front |>.symm⟩
  next other =>
    refine ⟨by simp, fun _ n same => other ?_⟩
    have same : text.take n = word := same
    exact same ▸ List.take_prefix n text

theorem recognises_regex {m : Matcher} (recognises : m.Recognises L) : (regex m).Recognises L := by
  intro text
  obtain ⟨sound, complete⟩ := recognises text
  exact ⟨fun n found => ⟨m.within text n found, sound n found⟩, complete⟩

theorem Recognises.reach_eq_length {word text : List Char} {n : Nat}
    (recognises : m.Recognises {word}) (found : m.reach text = some n) : n = word.length := by
  obtain ⟨within, same⟩ := (recognises text).1 n found
  have same : text.take n = word := same
  rw [← same, List.length_take_of_le within]

/-- Two recognisers of one word find the same. -/
theorem Recognises.reach_eq {word : List Char} (first : m.Recognises {word})
    (second : m'.Recognises {word}) (text : List Char) : m.reach text = m'.reach text := by
  -- the text either begins with the word for both or for neither of them
  cases found : m.reach text with
  | none =>
    cases found' : m'.reach text with
    | none => rfl
    | some n => exact absurd ((second text).1 n found').2 ((first text).2 found n)
  | some n =>
    cases found' : m'.reach text with
    | none => exact absurd ((first text).1 n found).2 ((second text).2 found' n)
    | some n' =>
      rw [first.reach_eq_length found, second.reach_eq_length found']

/-- What is made of a pattern that is no literal. -/
theorem ofPattern_eq_regex {token : String} {p : Pattern} (other : ∀ text, p ≠ .literal text)
    (accepted : ofPattern engine token false p = .ok m) :
    ∃ found, engine.compile (regexSource false p) = .ok found ∧ m = regex found := by
  unfold ofPattern at accepted
  rw [if_neg (other "")] at accepted
  split at accepted
  next text _ => exact absurd rfl (other text)
  next =>
    split at accepted
    next found compiled =>
      cases accepted
      exact ⟨found, compiled, rfl⟩
    next => cases accepted

theorem ofPattern_literal {token text : String}
    (accepted : ofPattern engine token false (.literal text) = .ok m) :
    m = literal text.toList := by
  unfold ofPattern at accepted
  split at accepted
  · cases accepted
  · exact (Except.ok.inj accepted).symm

/-- A plain pattern that is accepted is proper, and its words are recognised. -/
theorem recognises_ofPattern {token : String} {p : Pattern} (documented : engine.Documented)
    (plain : p.isPlain) (accepted : ofPattern engine token false p = .ok m) :
    p.IsProper ∧ m.Recognises p.language := by
  by_cases literal : ∃ text, p = .literal text
  · obtain ⟨text, rfl⟩ := literal
    obtain rfl := ofPattern_literal accepted
    exact ⟨trivial, recognises_literal text.toList⟩
  · obtain ⟨found, compiled, rfl⟩ :=
      ofPattern_eq_regex (fun text same => literal ⟨text, same⟩) accepted
    exact ⟨Pattern.isProper_of_compile documented plain compiled,
      recognises_regex (Pattern.recognises_of_compile documented plain compiled)⟩

end Recogniser

/-- The source of a plain pattern in a rule where case matters is an expression for the words of the
pattern, and for no others, and these are what is recognised. A literal and its written form
recognise the same, and a class is accepted if there are ranges and all of them are in order, unless
it is too big. -/
theorem Pattern.source_denotes (documented : engine.Documented) :
    (∀ rule ready, rule.insensitive = false → ReadyRule.ofRule engine rule = .ok ready →
      List.Forall₂ (fun p m => p.isPlain →
          Written p.depth p.source p.language ∧ (∀ n L, Written n p.source L → L = p.language) ∧
            m.Recognises p.language)
        rule.patterns ready.recognisers) ∧
    (∀ text, engine.Fits (Recogniser.regexSource false (.literal text)) →
      ∃ m, engine.compile (Recogniser.regexSource false (.literal text)) = .ok m ∧
        ∀ rest, m.find rest = (Recogniser.literal text.toList).reach rest) ∧
    ∀ token (s : CharRanges), engine.Fits (Recogniser.regexSource false (.oneOf s)) →
      ((∃ m, Recogniser.ofPattern engine token false (.oneOf s) = .ok m) ↔
        s.ranges ≠ [] ∧ ∀ r ∈ s.ranges, r.1 ≤ r.2) := by
  refine ⟨fun rule ready sensitive made => ?_, fun text fits => ?_, fun token s fits => ?_⟩
  · refine (ReadyRule.forall₂_ofRule made).imp fun p m accepted plain => ?_
    rw [sensitive] at accepted
    obtain ⟨proper, recognises⟩ := Recogniser.recognises_ofPattern documented plain accepted
    have written := written_source plain proper
    exact ⟨written, fun n L other => other.unique written, recognises⟩
  · obtain ⟨m, compiled⟩ := exists_compile (p := .literal text) documented rfl trivial rfl fits
    have recognises : m.Recognises {text.toList} :=
      recognises_of_compile (p := .literal text) documented rfl compiled
    exact ⟨m, compiled, fun rest => (Recogniser.recognises_regex recognises).reach_eq
      (Recogniser.recognises_literal text.toList) rest⟩
  · rw [Recogniser.exists_ofPattern]
    simp only [Compiles, reduceCtorEq, false_and, exists_false, false_or, ne_eq,
      not_false_eq_true, true_and]
    constructor
    · rintro ⟨m, compiled⟩
      exact isProper_of_compile (p := .oneOf s) documented rfl compiled
    · intro proper
      exact exists_compile (p := .oneOf s) documented rfl proper rfl fits

/-- The built-in engine compiles the class of digits, and finds one at the beginning of a text. -/
theorem Pattern.source_denotes_digits :
    ∃ m, Recogniser.ofPattern .builtIn "Digit" false (.oneOf .digits) = .ok m ∧
      m.reach ['7', 'a'] = some 1 := by
  have fits : Engine.builtIn.Fits (Recogniser.regexSource false (.oneOf .digits)) := by
    intro limit refused
    have compiled : (Engine.builtIn.compile
        (Recogniser.regexSource false (.oneOf .digits))).toOption.isSome := by
      decide +kernel
    rw [refused] at compiled
    cases compiled
  obtain ⟨patterns, -, classes⟩ := Pattern.source_denotes Engine.builtIn_documented
  obtain ⟨m, accepted⟩ := (classes "Digit" .digits fits).mpr (by decide)
  have made : ReadyRule.ofRule .builtIn (.plain "Digit" (.oneOf .digits)) =
      .ok ⟨.plain "Digit" (.oneOf .digits), [m]⟩ := by
    simp only [ReadyRule.ofRule, LexRule.plain, List.mapM_cons, List.mapM_nil, accepted]
    rfl
  obtain ⟨-, -, recognises⟩ := (List.forall₂_cons.mp (patterns _ _ rfl made)).1 rfl
  refine ⟨m, accepted, ?_⟩
  cases found : m.reach ['7', 'a'] with
  | none => exact absurd ⟨'7', by decide, rfl⟩ ((recognises _).2 found 1)
  | some n =>
    obtain ⟨within, c, -, word⟩ := (recognises _).1 n found
    have length := congrArg List.length word
    rw [List.length_take_of_le within] at length
    exact congrArg some length

end ShiftReduce
