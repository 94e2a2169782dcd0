import Mathlib.Data.List.TakeWhile
import ShiftReduce.Proofs.Regex.Written
import ShiftReduce.Regex.Assembly

/-!
# Written expressions and their lexemes

What a written expression is cut into can be told piece by piece: a piece is cut into its lexemes
whatever stands behind it.
-/
namespace ShiftReduce.Regex

/-- Some text is cut into some lexemes, whatever stands behind it. -/
def CutsInto (source : List Char) (ls : List Lexeme) : Prop :=
  ∀ tail budget found, (source ++ tail).length ≤ budget → ∃ left, tail.length ≤ left ∧
    lexemesWithin budget found (source ++ tail) = lexemesWithin left (ls.reverse ++ found) tail

/-- Some text cannot be cut into lexemes, whatever stands before it. -/
def Uncuttable (source : List Char) : Prop :=
  ∀ budget found, source.length ≤ budget → ∃ e, lexemesWithin budget found source = .error e

variable {source front behind tail rest : List Char} {ls ks : List Lexeme} {l : Lexeme} {c : Char}

namespace CutsInto

theorem nil : CutsInto [] [] := fun _ budget _ enough => ⟨budget, enough, rfl⟩

theorem append (first : CutsInto front ls) (second : CutsInto behind ks) :
    CutsInto (front ++ behind) (ls ++ ks) := by
  intro tail budget found enough
  rw [List.append_assoc] at enough
  obtain ⟨middle, enough, cut⟩ := first (behind ++ tail) budget found enough
  obtain ⟨left, enough, cut'⟩ := second tail middle (ls.reverse ++ found) enough
  refine ⟨left, enough, ?_⟩
  rw [List.append_assoc, cut, cut', List.reverse_append, List.append_assoc]

/-- A piece that is one lexeme. -/
theorem single (cut : ∀ tail budget, (source ++ tail).length ≤ budget →
    lexeme budget c (source ++ tail) = .ok (l, tail)) : CutsInto (c :: source) [l] := by
  intro tail budget found enough
  obtain ⟨budget, rfl⟩ : ∃ n, budget = n + 1 := Nat.exists_eq_add_of_le' (by simp at enough; omega)
  have enough : (source ++ tail).length ≤ budget := by simpa using enough
  refine ⟨budget, ?_, ?_⟩
  · rw [List.length_append] at enough
    omega
  · rw [List.cons_append, lexemesWithin, cut tail budget enough]
    rfl

/-- The lexemes of a text. -/
theorem lexemes_eq (cuts : CutsInto source ls) : lexemes source = .ok ls := by
  obtain ⟨left, -, cut⟩ := cuts [] source.length [] (by simp)
  rw [List.append_nil, List.append_nil] at cut
  rw [lexemes, cut, lexemesWithin, List.reverse_reverse]

/-- What cannot be cut cannot be cut behind something that can. -/
theorem uncuttable (cuts : CutsInto front ls) (fails : Uncuttable behind) :
    Uncuttable (front ++ behind) := by
  intro budget found enough
  obtain ⟨left, enough, cut⟩ := cuts behind budget found enough
  rw [cut]
  exact fails left _ enough

end CutsInto

/-- A text whose first lexeme cannot be read. -/
theorem Uncuttable.of_lexeme (fails : ∀ budget, rest.length ≤ budget →
    ∃ e, lexeme budget c rest = .error e) : Uncuttable (c :: rest) := by
  intro budget found enough
  obtain ⟨budget, rfl⟩ : ∃ n, budget = n + 1 := Nat.exists_eq_add_of_le' (by simp at enough; omega)
  obtain ⟨e, failed⟩ := fails budget (by simpa using enough)
  exact ⟨e, by rw [lexemesWithin, failed]⟩

theorem Uncuttable.lexemes_eq (fails : Uncuttable source) : ∃ e, lexemes source = .error e :=
  fails source.length [] (Nat.le_refl _)

/-! ## Groups -/

theorem cuts_close : CutsInto [')'] [.close] := .single fun _ _ _ => rfl

theorem cuts_dot : CutsInto ['.'] [.dot] := .single fun _ _ _ => rfl

theorem cuts_open : CutsInto "(?:".toList [.open (.plain .keep)] := .single fun _ _ _ => rfl

/-- The opening of a group in which a dot stands for every character. -/
theorem cuts_openDotAll :
    CutsInto "(?s:".toList [.open (.plain { FlagChange.keep with dotAll := some true })] :=
  .single fun _ _ _ => rfl

theorem cuts_textStart : CutsInto "\\A".toList [.holds .textStart] := .single fun _ _ _ => rfl

/-! ## Bounds of repetitions -/

theorem not_isBlank_of_isDigit (digit : c.isDigit) : ¬ Text.isBlank c := by
  have bounds : 48 ≤ c.toNat ∧ c.toNat ≤ 57 := by
    simpa [Char.isDigit, UInt32.le_iff_toNat_le] using digit
  have outside : Text.isBlank c = false := by
    simp only [Text.isBlank, Text.blankRanges, Text.inRanges]
    grind
  simp [outside]

/-- A number is read back, unless it is too large. -/
theorem decimal_toString {n : Nat} (stop : ¬ c.isDigit) (bare : ¬ Text.isBlank c) :
    decimal ((toString n).toList ++ c :: rest) =
      if n < UInt32.size then .ok (n, c :: rest) else .error .badRepetition := by
  rw [toList_toString]
  have digits : ∀ d ∈ Nat.toDigits 10 n, d.isDigit := fun d member =>
    Nat.isDigit_of_mem_toDigits (by decide) (by decide) member
  have value : (Nat.toDigits 10 n).foldl (fun n d => 10 * n + (d.toNat - '0'.toNat)) 0 = n := by
    rw [← Nat.ofDigitChars_eq_foldl, Nat.ofDigitChars_ten_toDigits]
  have some_digit : Nat.toDigits 10 n ≠ [] := Nat.toDigits_ne_nil
  generalize Nat.toDigits 10 n = ds at digits value some_digit
  have front : (ds ++ c :: rest).dropWhile Text.isBlank = ds ++ c :: rest := by
    obtain ⟨d, ds, rfl⟩ := List.exists_cons_of_ne_nil some_digit
    exact List.dropWhile_cons_of_neg (not_isBlank_of_isDigit (digits d (List.mem_cons_self ..)))
  have back : (c :: rest).dropWhile Text.isBlank = c :: rest := List.dropWhile_cons_of_neg bare
  unfold decimal
  dsimp only
  rw [front, List.takeWhile_append_of_pos digits, List.dropWhile_append_of_pos digits,
    List.takeWhile_cons_of_neg stop, List.dropWhile_cons_of_neg stop, List.append_nil, back, value]
  simp [some_digit]

/-- Whether bounds can be written: in order and not too large. -/
def Bounded (min : Nat) (max : Option Nat) : Prop :=
  min < UInt32.size ∧ ∀ m ∈ max, m < UInt32.size ∧ min ≤ m

/-- Bounds are read back if they are in order and not too large, and refused if not. -/
theorem bounds_writtenBounds (min : Nat) (max : Option Nat) (tail : List Char) :
    (Bounded min max → bounds (writtenBounds min max ++ tail) = .ok ((min, max), tail)) ∧
      (¬ Bounded min max → bounds (writtenBounds min max ++ tail) = .error .badRepetition) := by
  unfold Bounded bounds writtenBounds
  rw [List.append_assoc, List.cons_append, decimal_toString (by decide) (by decide)]
  by_cases small : min < UInt32.size
  case neg => simp [small]
  rw [if_pos small]
  cases max with
  | none => simp [small]
  | some max =>
    obtain ⟨d, ds, written, proper⟩ := exists_digit max
    have most : decimal (d :: (ds ++ ['\x7d'] ++ tail)) =
        if max < UInt32.size then .ok (max, '\x7d' :: tail) else .error .badRepetition := by
      rw [← decimal_toString (by decide) (by decide), written]
      simp
    simp only [written, List.cons_append]
    split
    next failed => cases failed
    next same => cases same
    next same =>
      cases same
      exact absurd rfl proper
    next behind _ same =>
      cases same
      rw [most]
      by_cases smallToo : max < UInt32.size
      · by_cases ordered : min ≤ max <;> simp [small, smallToo, ordered]
      · simp [smallToo]
    next other same =>
      cases same
      exact absurd rfl (other min _)

theorem cuts_repetition {min : Nat} {max : Option Nat} (bounded : Bounded min max) :
    CutsInto ('\x7b' :: writtenBounds min max) [.repetition min max] :=
  .single fun tail budget _ => by
    change (bounds (writtenBounds min max ++ tail)).map _ = _
    rw [(bounds_writtenBounds min max tail).1 bounded]
    rfl

theorem uncuttable_repetition {min : Nat} {max : Option Nat} (unbounded : ¬ Bounded min max) :
    Uncuttable ('\x7b' :: (writtenBounds min max ++ tail)) :=
  .of_lexeme fun budget _ => by
    refine ⟨.badRepetition, ?_⟩
    change (bounds (writtenBounds min max ++ tail)).map _ = _
    rw [(bounds_writtenBounds min max tail).2 unbounded]
    rfl

end ShiftReduce.Regex
