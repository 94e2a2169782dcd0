import ShiftReduce.Proofs.Regex.Written

/-!
# The notation is unambiguous

An expression is written sign by sign, and no sign is the beginning of another one. Going through the
signs with a stack for the groups that are open gives the words of the expression. So what is written
stands for one set of words only.
-/
namespace ShiftReduce.Regex

variable {c d : Char} {r r' : Char × Char} {rs rs' : List (Char × Char)} {n m : Nat}
  {text front behind rest rest' : List Char} {L K : Language Char}

/-! ## Parts of signs -/

theorem Spelling.unique (first : Spelling c front) (second : Spelling d behind)
    (same : front ++ rest = behind ++ rest') : c = d ∧ rest = rest' := by
  cases first with
  | bare plain =>
    cases second with
    | bare =>
      cases same
      exact ⟨rfl, rfl⟩
    | escaped =>
      cases same
      exact absurd (by decide) plain
  | escaped =>
    cases second with
    | bare plain =>
      cases same
      exact absurd (by decide) plain
    | escaped =>
      cases same
      exact ⟨rfl, rfl⟩

/-- A range that no hyphen follows. -/
theorem RangeSpelling.unique (first : RangeSpelling r front) (second : RangeSpelling r' behind)
    (apart : rest.head? ≠ some '-') (apart' : rest'.head? ≠ some '-')
    (same : front ++ rest = behind ++ rest') : r = r' ∧ rest = rest' := by
  cases first with
  | single spelled =>
    cases second with
    | single spelled' =>
      obtain ⟨rfl, rfl⟩ := spelled.unique spelled' same
      exact ⟨rfl, rfl⟩
    | range start stop =>
      -- the hyphen of the range would follow the single character
      rw [List.append_assoc] at same
      obtain ⟨-, rfl⟩ := spelled.unique start same
      exact absurd rfl apart
  | range start stop =>
    rw [List.append_assoc] at same
    cases second with
    | single spelled =>
      obtain ⟨-, rfl⟩ := start.unique spelled same
      exact absurd rfl apart'
    | range start' stop' =>
      rw [List.append_assoc] at same
      obtain ⟨rfl, same⟩ := start.unique start' same
      obtain ⟨rfl, rfl⟩ := stop.unique stop' (List.cons.inj same).2
      exact ⟨rfl, rfl⟩

theorem RangesSpelling.unique (first : RangesSpelling rs front) (second : RangesSpelling rs' behind)
    (same : front ++ ']' :: rest = behind ++ ']' :: rest') : rs = rs' ∧ rest = rest' := by
  induction first generalizing rs' behind with
  | nil =>
    cases second with
    | nil => exact ⟨rfl, (List.cons.inj same).2⟩
    | cons first others =>
      -- no range begins with the closing bracket
      obtain ⟨d, _, begins, -, -, proper⟩ := (RangesSpelling.cons first others).head rest'
      rw [begins] at same
      exact absurd (List.cons.inj same).1.symm (proper (List.cons_ne_nil _ _))
  | cons first others ih =>
    cases second with
    | nil =>
      obtain ⟨d, _, begins, -, -, proper⟩ := (RangesSpelling.cons first others).head rest
      rw [begins] at same
      exact absurd (List.cons.inj same).1 (proper (List.cons_ne_nil _ _))
    | cons first' others' =>
      obtain ⟨d, later, begins, apart, -, -⟩ := others.head rest
      obtain ⟨d', later', begins', apart', -, -⟩ := others'.head rest'
      rw [List.append_assoc, List.append_assoc] at same
      obtain ⟨rfl, same⟩ := first.unique first' (by simpa [begins] using apart)
        (by simpa [begins'] using apart') same
      obtain ⟨rfl, rfl⟩ := ih others' same
      exact ⟨rfl, rfl⟩

/-- A number ends where the digits end. -/
theorem number_unique (stop : ¬ c.isDigit) (stop' : ¬ d.isDigit)
    (same : (toString m).toList ++ c :: rest = (toString n).toList ++ d :: rest') :
    m = n ∧ c :: rest = d :: rest' := by
  have digits (n : Nat) : ∀ e ∈ (toString n).toList, e.isDigit := by
    rw [toList_toString]
    exact fun e member => Nat.isDigit_of_mem_toDigits (by decide) (by decide) member
  -- both texts have the same digits in front
  have number := congrArg (List.takeWhile Char.isDigit) same
  rw [List.takeWhile_append_of_pos (digits m), List.takeWhile_append_of_pos (digits n),
    List.takeWhile_cons_of_neg stop, List.takeWhile_cons_of_neg stop', List.append_nil,
    List.append_nil] at number
  rw [number] at same
  rw [toList_toString, toList_toString] at number
  refine ⟨?_, List.append_cancel_left same⟩
  rw [← @Nat.ofDigitChars_ten_toDigits m, number, Nat.ofDigitChars_ten_toDigits]

/-- Bounds end with the closing brace. -/
theorem writtenBounds_unique {min min' : Nat} {max max' : Option Nat}
    (same : writtenBounds min max ++ rest = writtenBounds min' max' ++ rest') :
    min = min' ∧ max = max' ∧ rest = rest' := by
  unfold writtenBounds at same
  simp only [List.append_assoc, List.cons_append, List.nil_append] at same
  obtain ⟨rfl, behind⟩ := number_unique (by decide) (by decide) same
  have upper := (List.cons.inj behind).2
  cases max with
  | none =>
    cases max' with
    | none => exact ⟨rfl, rfl, (List.cons.inj upper).2⟩
    | some n =>
      obtain ⟨d, ds, written, proper⟩ := exists_digit n
      dsimp only at upper
      rw [written] at upper
      exact absurd (List.cons.inj upper).1.symm proper
  | some n =>
    cases max' with
    | none =>
      obtain ⟨d, ds, written, proper⟩ := exists_digit n
      dsimp only at upper
      rw [written] at upper
      exact absurd (List.cons.inj upper).1 proper
    | some n' =>
      obtain ⟨rfl, ends⟩ := number_unique (by decide) (by decide) upper
      exact ⟨rfl, rfl, (List.cons.inj ends).2⟩

/-! ## Signs -/

/-- What the parts of an expression are written with. -/
inductive Sign where
  | char (c : Char)
  | set (rs : List (Char × Char))
  | any
  | opening
  | closing
  | repeated (min : Nat) (max : Option Nat)

namespace Sign

inductive Spelled : Sign → List Char → Prop
  | char {c : Char} {text : List Char} (spelled : Spelling c text) : Spelled (char c) text
  | set {rs : List (Char × Char)} {text : List Char} (spelled : RangesSpelling rs text) :
      Spelled (set rs) ('[' :: (text ++ [']']))
  | any : Spelled any "(?s:.)".toList
  | opening : Spelled opening "(?:".toList
  | closing : Spelled closing [')']
  | repeated {min : Nat} {max : Option Nat} :
      Spelled (repeated min max) ('\x7b' :: writtenBounds min max)

/-- The constructors by number. -/
def kind : Sign → Nat
  | char _ => 0
  | set _ => 1
  | any => 2
  | opening => 3
  | closing => 4
  | repeated _ _ => 5

/-- The kind of the sign that a text begins with, told by its first characters. -/
def kindAt : List Char → Nat
  | '[' :: _ => 1
  | '(' :: '?' :: 's' :: _ => 2
  | '(' :: _ => 3
  | ')' :: _ => 4
  | '\x7b' :: _ => 5
  | _ => 0

variable {s s' : Sign} {ss ss' : List Sign}

theorem Spelled.kindAt_eq (spelled : s.Spelled text) (rest : List Char) :
    kindAt (text ++ rest) = s.kind := by
  cases spelled with
  | char spelled =>
    cases spelled with
    | bare plain =>
      rw [List.singleton_append]
      unfold kindAt
      split
      case h_6 => rfl
      all_goals
        rename_i same
        cases same
        exact absurd (by decide) plain
    | escaped => rfl
  | set | any | opening | closing | repeated => rfl

/-- No sign is the beginning of another one. -/
theorem Spelled.unique (first : s.Spelled front) (second : s'.Spelled behind)
    (same : front ++ rest = behind ++ rest') : s = s' ∧ rest = rest' := by
  have kinds : s.kind = s'.kind := by rw [← first.kindAt_eq rest, same, second.kindAt_eq]
  cases first with
  | char spelled =>
    cases second with
    | char spelled' =>
      obtain ⟨rfl, rfl⟩ := spelled.unique spelled' same
      exact ⟨rfl, rfl⟩
    | _ => cases kinds
  | set spelled =>
    cases second with
    | set spelled' =>
      simp only [List.cons_append, List.append_assoc, List.nil_append] at same
      obtain ⟨rfl, rfl⟩ := spelled.unique spelled' (List.cons.inj same).2
      exact ⟨rfl, rfl⟩
    | _ => cases kinds
  | any =>
    cases second with
    | any => exact ⟨rfl, List.append_cancel_left same⟩
    | _ => cases kinds
  | opening =>
    cases second with
    | opening => exact ⟨rfl, List.append_cancel_left same⟩
    | _ => cases kinds
  | closing =>
    cases second with
    | closing => exact ⟨rfl, List.append_cancel_left same⟩
    | _ => cases kinds
  | repeated =>
    cases second with
    | repeated =>
      obtain ⟨rfl, rfl, rfl⟩ := writtenBounds_unique (List.cons.inj same).2
      exact ⟨rfl, rfl⟩
    | _ => cases kinds

theorem Spelled.ne_nil (spelled : s.Spelled text) : text ≠ [] := by
  cases spelled with
  | char spelled => cases spelled <;> exact List.cons_ne_nil _ _
  | set | any | opening | closing | repeated => exact List.cons_ne_nil _ _

/-- Signs one behind the other. -/
inductive SpelledInOrder : List Sign → List Char → Prop
  | nil : SpelledInOrder [] []
  | cons {s : Sign} {ss : List Sign} {front behind : List Char} (first : s.Spelled front)
      (others : SpelledInOrder ss behind) : SpelledInOrder (s :: ss) (front ++ behind)

theorem Spelled.alone (spelled : s.Spelled text) : SpelledInOrder [s] text :=
  List.append_nil text ▸ .cons spelled .nil

theorem SpelledInOrder.append (first : SpelledInOrder ss front)
    (second : SpelledInOrder ss' behind) : SpelledInOrder (ss ++ ss') (front ++ behind) := by
  induction first with
  | nil => exact second
  | cons spelled _ ih =>
    rw [List.append_assoc]
    exact .cons spelled ih

theorem SpelledInOrder.unique (first : SpelledInOrder ss text)
    (second : SpelledInOrder ss' text) : ss = ss' := by
  -- every sign takes a character, so neither list of signs ends before the other
  induction first generalizing ss' with
  | nil =>
    generalize same : [] = whole at second
    cases second with
    | nil => rfl
    | cons spelled => exact absurd (List.append_eq_nil_iff.mp same.symm).1 spelled.ne_nil
  | @cons s ss front behind spelled _ ih =>
    generalize same : front ++ behind = whole at second
    cases second with
    | nil => exact absurd (List.append_eq_nil_iff.mp same).1 spelled.ne_nil
    | cons spelled' others =>
      obtain ⟨rfl, rfl⟩ := spelled.unique spelled' same
      rw [ih others]

end Sign

/-! ## Going through the signs -/

/-- An open group: the words of its last part, which a repetition applies to, and those of what is
before it. -/
structure OpenGroup where
  before : Language Char
  last : Language Char

namespace OpenGroup

def fresh : OpenGroup := ⟨1, 1⟩

/-- The words of all parts so far. -/
def words (g : OpenGroup) : Language Char := g.before * g.last

/-- The group with one more part. -/
def add (g : OpenGroup) (L : Language Char) : OpenGroup := ⟨g.words, L⟩

/-- What a sign does to the open groups, the innermost of which comes first. -/
def take : List OpenGroup → Sign → List OpenGroup
  | g :: gs, .char c => g.add {[c]} :: gs
  | g :: gs, .set rs => g.add (characters fun c => ∃ r ∈ rs, r.1 ≤ c ∧ c ≤ r.2) :: gs
  | g :: gs, .any => g.add (characters fun _ => True) :: gs
  | gs, .opening => fresh :: gs
  | g :: around :: gs, .closing => around.add g.words :: gs
  | g :: gs, .repeated min max => ⟨g.before, powers g.last min max⟩ :: gs
  | gs, _ => gs

theorem words_add (g : OpenGroup) (L : Language Char) : (g.add L).words = g.words * L := rfl

theorem words_fresh : fresh.words = 1 := mul_one 1

/-- The signs of a group add what its inside comes to. -/
theorem foldl_group {ss : List Sign} (g : OpenGroup) (gs : List OpenGroup)
    (adds : ∀ g gs, ∃ g' : OpenGroup, ss.foldl take (g :: gs) = g' :: gs ∧ g'.words = g.words * L) :
    ([Sign.opening] ++ (ss ++ [Sign.closing])).foldl take (g :: gs) = g.add L :: gs := by
  obtain ⟨inner, inside, words⟩ := adds .fresh (g :: gs)
  rw [words_fresh, one_mul] at words
  rw [List.foldl_append, List.foldl_append]
  subst words
  exact congrArg (take · .closing) inside

end OpenGroup

/-- The signs of an expression add its words to the innermost group. -/
theorem Written.signs (written : Written n text L) : ∃ ss, Sign.SpelledInOrder ss text ∧
    ∀ g gs, ∃ g' : OpenGroup, ss.foldl OpenGroup.take (g :: gs) = g' :: gs ∧
      g'.words = g.words * L := by
  induction written with
  | nil => exact ⟨[], .nil, fun g gs => ⟨g, rfl, (mul_one _).symm⟩⟩
  | char spelled =>
    exact ⟨_, (Sign.Spelled.char spelled).alone, fun g gs => ⟨_, rfl, g.words_add _⟩⟩
  | set spelled =>
    exact ⟨_, (Sign.Spelled.set spelled).alone, fun g gs => ⟨_, rfl, g.words_add _⟩⟩
  | any => exact ⟨_, Sign.Spelled.any.alone, fun g gs => ⟨_, rfl, g.words_add _⟩⟩
  | @group n text L _ ih =>
    obtain ⟨ss, spelled, adds⟩ := ih
    exact ⟨_, Sign.Spelled.opening.alone.append (spelled.append Sign.Spelled.closing.alone),
      fun g gs => ⟨_, OpenGroup.foldl_group g gs adds, g.words_add L⟩⟩
  | @counted n min max text L _ _ ih =>
    -- the group is its last part by then, so the repetition applies to all of it
    obtain ⟨ss, spelled, adds⟩ := ih
    refine ⟨_, Sign.Spelled.opening.alone.append (spelled.append
      (Sign.Spelled.closing.alone.append (@Sign.Spelled.repeated min max).alone)),
      fun g gs => ⟨⟨g.words, powers L min max⟩, ?_, rfl⟩⟩
    rw [← List.append_assoc ss, ← List.append_assoc, List.foldl_append,
      OpenGroup.foldl_group g gs adds]
    rfl
  | append _ _ ih ih' =>
    obtain ⟨ss, spelled, adds⟩ := ih
    obtain ⟨ss', spelled', adds'⟩ := ih'
    refine ⟨_, spelled.append spelled', fun g gs => ?_⟩
    obtain ⟨middle, first, words⟩ := adds g gs
    obtain ⟨g', second, words'⟩ := adds' middle gs
    exact ⟨g', by rw [List.foldl_append, first, second], by rw [words', words, mul_assoc]⟩

/-- An expression stands for one set of words. -/
theorem Written.unique (first : Written n text L) (second : Written m text K) : L = K := by
  obtain ⟨ss, spelled, adds⟩ := first.signs
  obtain ⟨ss', spelled', adds'⟩ := second.signs
  obtain rfl := spelled.unique spelled'
  obtain ⟨g, through, words⟩ := adds .fresh []
  obtain ⟨g', through', words'⟩ := adds' .fresh []
  cases through.symm.trans through'
  rw [OpenGroup.words_fresh, one_mul] at words words'
  exact words.symm.trans words'

end ShiftReduce.Regex
