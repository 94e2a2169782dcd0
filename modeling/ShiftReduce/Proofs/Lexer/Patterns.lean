import ShiftReduce.Lexer.Pattern
import ShiftReduce.Proofs.Regex.Written

/-!
# Written patterns

A pattern stands for a set of words. Main statement: what it is written as is an expression for these
words, since characters with a meaning of their own are escaped and groups keep apart what was apart.
A class without ranges or with one out of order, or bounds out of order, make no expression.
-/
namespace ShiftReduce

open Regex

/-- There are ranges, and all are in order. -/
def CharRanges.IsProper (s : CharRanges) : Prop := s.ranges ≠ [] ∧ ∀ r ∈ s.ranges, r.1 ≤ r.2

namespace Pattern

/-- Whether no regular expression was given in a pattern. -/
def isPlain : Pattern → Bool
  | regex _ => false
  | counted pattern _ _ => pattern.isPlain
  | _ => true

/-- Whether what a pattern holds can be written: proper classes and bounds in order. -/
def IsProper : Pattern → Prop
  | oneOf set => set.IsProper
  | counted pattern min max => pattern.IsProper ∧ ∀ m ∈ max, min ≤ m
  | _ => True

/-- The words that a pattern stands for. A regular expression of its own is left out. -/
def language : Pattern → Language Char
  | literal text => {text.toList}
  | oneOf set => characters (set.contains ·)
  | counted pattern min max => powers pattern.language min max
  | any => characters fun _ => True
  | regex _ => 0

/-- How deeply the groups and repetitions of a written pattern are nested. -/
def depth : Pattern → Nat
  | counted pattern _ _ => pattern.depth + 2
  | any => 1
  | _ => 0

variable {p : Pattern} {n : Nat} {tail : List Char}

/-! ## Characters and classes -/

theorem spelling_escapeChar (c : Char) : Spelling c (escapeChar c) := by
  unfold escapeChar
  split
  next special => exact .escaped special
  next plain => exact .bare plain

theorem rangeSpelling_rangeSource (first last : Char) :
    RangeSpelling (first, last) (rangeSource first last) := by
  unfold rangeSource
  split
  next same =>
    subst same
    exact .single (spelling_escapeChar first)
  next => exact .range (spelling_escapeChar first) (spelling_escapeChar last)

theorem rangesSpelling_flatMap (rs : List (Char × Char)) :
    RangesSpelling rs (rs.flatMap fun (first, last) => rangeSource first last) := by
  induction rs with
  | nil => exact .nil
  | cons r rs ih => exact .cons (rangeSpelling_rangeSource r.1 r.2) ih

theorem written_literal (text : List Char) : Written n (text.flatMap escapeChar) {text} := by
  induction text with
  | nil => exact .nil
  | cons c text ih =>
    have words : ({[c]} * {text} : Language Char) = {c :: text} := by
      ext w
      rw [Language.mem_mul]
      constructor
      · rintro ⟨_, rfl, _, rfl, rfl⟩
        rfl
      · rintro rfl
        exact ⟨[c], rfl, text, rfl, rfl⟩
    rw [← words]
    exact .append (.char (spelling_escapeChar c)) ih

/-! ## Patterns -/

theorem source_counted (p : Pattern) (min : Nat) (max : Option Nat) : source (.counted p min max) =
    "(?:".toList ++ (p.source ++ ([')'] ++ '\x7b' :: writtenBounds min max)) := by
  have lay (upper : List Char) :
      "(?:".toList ++ p.source ++ ")\x7b".toList ++ (toString min).toList ++ ',' :: upper ++
          ['\x7d'] =
        "(?:".toList ++ (p.source ++ ([')'] ++ '\x7b' ::
          ((toString min).toList ++ ',' :: (upper ++ ['\x7d'])))) := by
    have brace : ")\x7b".toList = [')', '\x7b'] := rfl
    simp only [brace, List.append_assoc, List.cons_append, List.nil_append]
  cases max with
  | none => exact lay []
  | some max => exact lay (toString max).toList

/-- A proper pattern is written as an expression for its words. -/
theorem written_source (plain : p.isPlain) (proper : p.IsProper) :
    Written p.depth p.source p.language := by
  induction p with
  | literal text => exact written_literal text.toList
  | oneOf s =>
    have members : (fun c => s.contains c = true) = fun c => ∃ r ∈ s.ranges, r.1 ≤ c ∧ c ≤ r.2 := by
      funext c
      simp [CharRanges.contains]
    rw [language, members]
    exact .set (rangesSpelling_flatMap s.ranges) proper.1 proper.2
  | counted p min max ih =>
    rw [source_counted]
    exact .counted (ih plain proper.1) proper.2
  | regex => cases plain
  | any => exact .any

/-! ## Patterns that cannot be written -/

/-- Characters that stand for themselves in a class. -/
def isInert (c : Char) : Bool := c ∉ "\\^[]&-~".toList

theorem isInert_of_isDigit {c : Char} (digit : c.isDigit) : isInert c := by
  have special : "\\^[]&-~".toList.all (! ·.isDigit) := by decide
  refine decide_eq_true fun listed => ?_
  simpa [digit] using List.all_eq_true.mp special c listed

theorem inert_writtenBounds (min : Nat) (max : Option Nat) :
    ∀ c ∈ writtenBounds min max, isInert c := by
  have number (n : Nat) : ∀ c ∈ (toString n).toList, isInert c := by
    rw [Nat.toString_eq_ofList_toDigits, String.toList_ofList]
    exact fun c member =>
      isInert_of_isDigit (Nat.isDigit_of_mem_toDigits (by decide) (by decide) member)
  have close : ∀ c ∈ ['\x7d'], isInert c := List.forall_mem_singleton.mpr (by decide)
  refine List.forall_mem_append.mpr ⟨number min, List.forall_mem_cons.mpr ⟨by decide, ?_⟩⟩
  cases max with
  | none => exact close
  | some max => exact List.forall_mem_append.mpr ⟨number max, close⟩

theorem malformed_class {s : CharRanges} (improper : ¬ s.IsProper) (inert : ∀ c ∈ tail, isInert c) :
    Malformed (source (.oneOf s) ++ tail) := by
  have spelled := rangesSpelling_flatMap s.ranges
  have written : source (.oneOf s) ++ tail =
      '[' :: (s.ranges.flatMap (fun (first, last) => rangeSource first last) ++ ']' :: tail) :=
    congrArg ('[' :: ·) (List.append_assoc _ [']'] tail)
  rw [written]
  by_cases empty : s.ranges = []
  · rw [empty]
    exact .unclosed fun c member => of_decide_eq_true (inert c member)
  · have reversed : ∃ r ∈ s.ranges, r.2 < r.1 := by
      by_contra none
      refine improper ⟨empty, fun r member => Char.not_lt.mp fun less => none ⟨r, member, less⟩⟩
    exact .disordered spelled reversed

/-- An improper pattern is written as no expression, whatever bounds stand behind it. -/
theorem malformed_source (plain : p.isPlain) (improper : ¬ p.IsProper)
    (inert : ∀ c ∈ tail, isInert c) : Malformed (p.source ++ tail) := by
  induction p generalizing tail with
  | literal | any => exact absurd trivial improper
  | oneOf s => exact malformed_class improper inert
  | regex => cases plain
  | counted p min max ih =>
    have plain : p.isPlain := plain
    rw [source_counted, List.append_assoc, List.append_assoc]
    by_cases proper : p.IsProper
    · have unordered : ∃ m, max = some m ∧ m < min := by
        by_contra none
        refine improper ⟨proper, fun m given => Nat.not_lt.mp fun less => none ⟨m, given, less⟩⟩
      obtain ⟨m, rfl, less⟩ := unordered
      rw [List.append_assoc, List.cons_append]
      exact .unordered (written_source plain proper) less
    · refine .inside (ih plain proper (List.forall_mem_append.mpr ⟨?_, inert⟩))
      exact List.forall_mem_cons.mpr ⟨by decide,
        List.forall_mem_cons.mpr ⟨by decide, inert_writtenBounds min max⟩⟩

end Pattern

end ShiftReduce
