import Mathlib.Data.List.Perm.Subperm
import ShiftReduce.Text.LineTable

/-!
# Positions in a text

The line of a place is the number of line breaks that end before it, and its column the number of
characters since the last of them. Main statement: looking up an offset in a line table gives just
that, so positions are in the order of the places in the text.
-/
namespace ShiftReduce.Text

/-! ## Line breaks -/

/-- A line break ends between two parts of a text. A carriage return and the line feed behind it are
one break, which ends with the line feed. -/
def EndsBreak (before after : List Char) : Prop :=
  before.getLast? = some '\n' ∨ before.getLast? = some '\r' ∧ after.head? ≠ some '\n'

instance (before after : List Char) : Decidable (EndsBreak before after) :=
  inferInstanceAs (Decidable (_ ∨ _))

/-- Behind how many characters of a text its line breaks end. -/
def breaks (text : List Char) : List Nat :=
  (List.range (text.length + 1)).filter fun n => EndsBreak (text.take n) (text.drop n)

/-- The breaks that end within the first `n` characters. -/
def breaksWithin (text : List Char) (n : Nat) : List Nat := (breaks text).filter (· ≤ n)

theorem not_endsBreak_nil (after : List Char) : ¬ EndsBreak [] after := by simp [EndsBreak]

theorem endsBreak_singleton {c : Char} {after : List Char} :
    EndsBreak [c] after ↔ c = '\n' ∨ c = '\r' ∧ after.head? ≠ some '\n' := by simp [EndsBreak]

theorem endsBreak_cons {c : Char} {before after : List Char} (more : before ≠ []) :
    EndsBreak (c :: before) after ↔ EndsBreak before after := by
  obtain ⟨d, rest, rfl⟩ := List.exists_cons_of_ne_nil more
  simp [EndsBreak]

variable {text : List Char} {m n : Nat}

theorem mem_breaks_bounds (member : n ∈ breaks text) : 0 < n ∧ n ≤ text.length := by
  obtain ⟨within, ends⟩ := List.mem_filter.mp member
  refine ⟨Nat.pos_of_ne_zero ?_, Nat.le_of_lt_succ (List.mem_range.mp within)⟩
  rintro rfl
  exact not_endsBreak_nil _ (of_decide_eq_true ends)

/-- The beginnings of the lines are in order. -/
theorem breaks_increasing (text : List Char) : (0 :: breaks text).Pairwise (· < ·) :=
  List.pairwise_cons.mpr
    ⟨fun _ member => (mem_breaks_bounds member).1, List.pairwise_lt_range.filter _⟩

/-- Whether a break ends behind the first character is told by it and the next one. -/
theorem breaks_cons (c : Char) (rest : List Char) :
    breaks (c :: rest) =
      (if EndsBreak [c] rest then [1] else []) ++ (breaks rest).map (· + 1) := by
  have behind : (List.range rest.length).filter
        (fun n => EndsBreak (c :: rest.take (n + 1)) (rest.drop (n + 1))) =
      (List.range rest.length).filter
        (fun n => EndsBreak (rest.take (n + 1)) (rest.drop (n + 1))) := by
    refine List.filter_congr fun n member => ?_
    have more : rest.take (n + 1) ≠ [] := by
      have within := List.mem_range.mp member
      rw [← List.length_pos_iff, List.length_take]
      omega
    rw [decide_eq_decide]
    exact endsBreak_cons more
  unfold breaks
  rw [List.length_cons, List.range_succ_eq_map, List.range_succ_eq_map]
  simp only [List.filter_cons, List.filter_map, List.map_cons, List.take_zero, List.drop_zero,
    not_endsBreak_nil, Function.comp_def, Nat.succ_eq_add_one, List.take_succ_cons,
    List.drop_succ_cons]
  by_cases ends : EndsBreak [c] rest <;> simp [ends, behind]

/-! ## The scan of the bytes -/

/-- A byte below 128 stands for the character with this code. -/
theorem toNat_eq_of_mem_utf8EncodeChar {c : Char} {b : UInt8} (member : b ∈ String.utf8EncodeChar c)
    (ascii : b.toNat < 128) : c.toNat = b.toNat := by
  have code : c.toNat = c.val.toNat := rfl
  unfold String.utf8EncodeChar at member
  dsimp only at member
  split_ifs at member <;> simp only [List.mem_cons, List.not_mem_nil, or_false] at member
  · subst member
    rw [UInt8.toNat_ofNat']
    omega
  all_goals
    -- the bytes of a longer form are all 128 or more
    rcases member with rfl | rfl | rfl | rfl <;> rw [UInt8.toNat_ofNat'] at ascii <;> omega

theorem eq_of_mem_utf8EncodeChar {c d : Char} {b : UInt8} (member : b ∈ String.utf8EncodeChar c)
    (ascii : d.toNat < 128) (same : b.toNat = d.toNat) : c = d :=
  Char.ext (UInt32.toNat_inj.mp ((toNat_eq_of_mem_utf8EncodeChar member (same ▸ ascii)).trans same))

theorem bytes_cons (c : Char) (rest : List Char) :
    bytes (c :: rest) = String.utf8EncodeChar c ++ bytes rest := rfl

theorem head?_eq_of_head?_bytes (feed : (bytes text).head? = some 10) :
    text.head? = some '\n' := by
  cases text with
  | nil => cases feed
  | cons c rest =>
    rw [bytes_cons, List.head?_append_of_ne_nil _ String.utf8EncodeChar_ne_nil] at feed
    exact congrArg some (eq_of_mem_utf8EncodeChar (List.mem_of_head? feed) (by decide) rfl)

/-- Bytes other than the two are passed over. -/
theorem startsAfter_append {front : List UInt8} (plain : ∀ b ∈ front, b ≠ 10 ∧ b ≠ 13)
    (place : Nat) (rest : List UInt8) :
    startsAfter place (front ++ rest) = startsAfter (place + front.length) rest := by
  induction front generalizing place with
  | nil => rfl
  | cons b front ih =>
    obtain ⟨⟨feed, ret⟩, others⟩ := List.forall_mem_cons.mp plain
    rw [List.cons_append, startsAfter, if_neg (by simp [feed, ret]), ih others, List.length_cons,
      Nat.add_assoc, Nat.add_comm 1]
    exact fun _ same => absurd same ret

/-- Whether a line begins behind the first character is told by it and the next one. -/
theorem startsAfter_cons (place : Nat) (c : Char) (rest : List Char) :
    startsAfter place (bytes (c :: rest)) =
      (if EndsBreak [c] rest then [offset (place + c.utf8Size)] else []) ++
        startsAfter (place + c.utf8Size) (bytes rest) := by
  by_cases feed : c = '\n'
  · subst feed
    rfl
  · by_cases ret : c = '\r'
    · subst ret
      have size : '\r'.utf8Size = 1 := rfl
      by_cases pair : rest.head? = some '\n'
      · -- both are taken at once, and the break ends behind the second one
        obtain ⟨later, rfl⟩ := List.head?_eq_some_iff.mp pair
        rw [if_neg (by simp [endsBreak_singleton])]
        rfl
      · rw [if_pos (endsBreak_singleton.mpr (Or.inr ⟨rfl, pair⟩)), size]
        change startsAfter place (13 :: bytes rest) = _
        rw [startsAfter, if_pos (Or.inr rfl)]
        · rfl
        · intro later _ same
          exact pair (head?_eq_of_head?_bytes (by rw [same]; rfl))
    · have plain : ∀ b ∈ String.utf8EncodeChar c, b ≠ 10 ∧ b ≠ 13 := by
        refine fun b member => ⟨?_, ?_⟩
        · rintro rfl
          exact feed (eq_of_mem_utf8EncodeChar member (by decide) rfl)
        · rintro rfl
          exact ret (eq_of_mem_utf8EncodeChar member (by decide) rfl)
      rw [bytes_cons, startsAfter_append plain, String.length_utf8EncodeChar,
        if_neg (by simp [endsBreak_singleton, feed, ret])]
      rfl

/-- The lines begin behind the breaks. -/
theorem startsAfter_eq (place : Nat) (text : List Char) : startsAfter place (bytes text) =
    (breaks text).map fun n => offset (place + byteLength (text.take n)) := by
  induction text generalizing place with
  | nil => rfl
  | cons c rest ih =>
    rw [startsAfter_cons, ih, breaks_cons]
    split <;> simp [Function.comp_def, Nat.add_assoc]

/-! ## Lookup -/

/-- Every number is greater than those before it. -/
def Increasing (numbers : Array Nat) : Prop :=
  ∀ i j (early : i < numbers.size) (late : j < numbers.size), i < j → numbers[i] < numbers[j]

section Search

variable {numbers : Array Nat} (key : Nat) (increasing : Increasing numbers)

include increasing

/-- Halving finds the last number that is at most the key, unless there is none. -/
theorem narrow_spec {base size : Nat} (some_number : 0 < size)
    (within : base + size ≤ numbers.size) (first : 0 < base → numbers[base] ≤ key)
    (behind : ∀ i (inside : i < numbers.size), base + size ≤ i → key < numbers[i]) :
    ∃ inside : narrow numbers key base size < numbers.size,
      (0 < narrow numbers key base size → numbers[narrow numbers key base size] ≤ key) ∧
      ∀ i (late : i < numbers.size), narrow numbers key base size < i → key < numbers[i] := by
  fun_induction narrow numbers key base size with
  | case1 base size small =>
    exact ⟨by omega, first, fun i late later => behind i late (by omega)⟩
  | case2 base size large half inSecond ih =>
    have halved : half < size ∧ 0 < half ∧ half ≤ size - half := by omega
    have middle : inSecond = decide (numbers[base + half] ≤ key) := by
      simp [inSecond, show base + half < numbers.size by omega]
    rw [middle] at ih ⊢
    by_cases second : numbers[base + half] ≤ key
    · simp only [second, decide_true, ↓reduceIte, ↓reduceDIte] at ih ⊢
      exact ih (by omega) (by omega) (fun _ => trivial)
        fun i late beyond => behind i late (by omega)
    · simp only [second, decide_false, Bool.false_eq_true, ↓reduceIte, ↓reduceDIte] at ih ⊢
      refine ih (by omega) (by omega) first fun i late beyond => ?_
      rcases Nat.eq_or_lt_of_le (show base + half ≤ i by omega) with rfl | later
      · omega
      · have more := increasing (base + half) i (by omega) late later
        omega

/-- A number that is found stands there, and one that is missed belongs between its neighbours. -/
theorem search_spec (some_number : 0 < numbers.size) :
    (∀ i, search numbers key = .ok i → numbers[i]? = some key) ∧
    ∀ i, search numbers key = .error i → i ≤ numbers.size ∧
      ∀ j (inside : j < numbers.size),
        (j < i → numbers[j] < key) ∧ (i ≤ j → key < numbers[j]) := by
  obtain ⟨inside, last, behind⟩ := narrow_spec key increasing some_number
    (show 0 + numbers.size ≤ numbers.size by omega)
    (fun positive => absurd positive (Nat.lt_irrefl 0))
    (fun i early late => absurd late (by omega))
  unfold search
  dsimp only
  rw [Array.getElem?_eq_getElem inside]
  dsimp only
  generalize narrow numbers key 0 numbers.size = base at inside last behind
  split
  next same =>
    refine ⟨?_, by rintro _ ⟨⟩⟩
    rintro _ ⟨⟩
    rw [Array.getElem?_eq_getElem inside, same]
  next other =>
    refine ⟨by rintro _ ⟨⟩, ?_⟩
    rintro _ ⟨⟩
    split
    next less =>
      refine ⟨inside, fun j within => ⟨fun before => ?_, fun beyond => behind j within beyond⟩⟩
      rcases Nat.eq_or_lt_of_le (Nat.le_of_lt_succ before) with rfl | before
      · exact less
      · exact Nat.lt_trans (increasing j base within inside before) less
    next more =>
      -- only the first number can be greater
      obtain rfl : base = 0 := by
        by_contra positive
        have le := last (by omega)
        omega
      refine ⟨Nat.zero_le _, fun j within => ⟨fun before => absurd before (by omega), fun _ => ?_⟩⟩
      rcases Nat.eq_zero_or_pos j with rfl | positive
      · omega
      · exact behind j within positive

end Search

/-- In a table in order, the line of an offset is the last one that begins at or before it. -/
theorem LineTable.lineAt_spec {table : LineTable} {place : Nat}
    (increasing : Increasing table.starts) (some_line : 0 < table.starts.size)
    (first : table.starts[0] ≤ place) :
    table.lineAt place < table.starts.size ∧
    ∀ i (inside : i < table.starts.size), table.starts[i] ≤ place ↔ i ≤ table.lineAt place := by
  obtain ⟨hit, miss⟩ := search_spec place increasing some_line
  unfold lineAt
  cases found : search table.starts place with
  | ok line =>
    dsimp only
    obtain ⟨bound, here⟩ := Array.getElem?_eq_some_iff.mp (hit line found)
    refine ⟨bound, fun i inside => ⟨fun before => ?_, fun before => ?_⟩⟩
    · by_contra later
      have more := increasing line i bound inside (by omega)
      omega
    · rcases Nat.eq_or_lt_of_le before with rfl | less
      · exact Nat.le_of_eq here
      · have more := increasing i line inside bound less
        omega
  | error next =>
    dsimp only
    obtain ⟨bound, sides⟩ := miss next found
    have positive : 0 < next := by
      by_contra none
      have beyond := (sides 0 some_line).2 (by omega)
      omega
    refine ⟨by omega, fun i inside => ⟨fun before => ?_, fun before => ?_⟩⟩
    · by_contra later
      have beyond := (sides i inside).2 (by omega)
      omega
    · exact Nat.le_of_lt ((sides i inside).1 (by omega))

/-- What holds of just the first elements of a list selects them. -/
theorem filter_eq_take {p : Nat → Bool} {ns : List Nat} {r : Nat}
    (front : ∀ i (inside : i < ns.length), p ns[i] ↔ i < r) : ns.filter p = ns.take r := by
  have first : ∀ n ∈ ns.take r, p n := by
    intro n member
    obtain ⟨i, inside, rfl⟩ := List.getElem_of_mem member
    rw [List.length_take] at inside
    rw [List.getElem_take]
    exact (front i (by omega)).mpr (by omega)
  have others : ∀ n ∈ ns.drop r, ¬ p n := by
    intro n member
    obtain ⟨i, inside, rfl⟩ := List.getElem_of_mem member
    rw [List.length_drop] at inside
    rw [List.getElem_drop, front (r + i) (by omega)]
    omega
  calc ns.filter p
      = (ns.take r).filter p ++ (ns.drop r).filter p := by
        rw [← List.filter_append, List.take_append_drop]
    _ = ns.take r := by
        rw [List.filter_eq_self.mpr first, List.filter_eq_nil_iff.mpr others, List.append_nil]

/-- A text falls into three parts at two places. -/
theorem take_append_between (order : m ≤ n) (text : List Char) :
    text.take m ++ (text.take n).drop m = text.take n := by
  have whole := List.take_append_drop m (text.take n)
  rwa [List.take_take, Nat.min_eq_left order] at whole

theorem byteLength_take_le (text : List Char) (n : Nat) :
    byteLength (text.take n) ≤ byteLength text := by
  conv_rhs => rw [← List.take_append_drop n text, byteLength_append]
  exact Nat.le_add_right _ _

/-- Later places have larger offsets. -/
theorem byteLength_take_lt (less : m < n) (inside : n ≤ text.length) :
    byteLength (text.take m) < byteLength (text.take n) := by
  obtain ⟨c, rest, found⟩ : ∃ c rest, (text.take n).drop m = c :: rest :=
    List.exists_cons_of_ne_nil (by simp [List.drop_eq_nil_iff]; omega)
  have size := c.utf8Size_pos
  rw [← take_append_between (Nat.le_of_lt less), found, byteLength_append, byteLength_cons]
  omega

theorem byteLength_take_le_iff (within : m ≤ text.length) (inside : n ≤ text.length) :
    byteLength (text.take m) ≤ byteLength (text.take n) ↔ m ≤ n := by
  constructor
  · intro le
    by_contra more
    have less := byteLength_take_lt (Nat.lt_of_not_le more) within
    omega
  · intro le
    rcases Nat.eq_or_lt_of_le le with rfl | less
    · exact Nat.le_refl _
    · exact Nat.le_of_lt (byteLength_take_lt less inside)

/-- Going over the bytes of some characters takes just these. -/
theorem skip_byteLength (c : Char) (cs : List Char) :
    ∃ bytes, byteLength (c :: cs) = bytes + 1 ∧ c.utf8Size ≤ bytes + 1 ∧
      bytes + 1 - c.utf8Size = byteLength cs := by
  have size := c.utf8Size_pos
  exact ⟨c.utf8Size + byteLength cs - 1, by rw [byteLength_cons]; omega, by omega, by omega⟩

theorem behind?_byteLength (cs rest : List Char) :
    behind? (byteLength cs) (cs ++ rest) = some rest := by
  induction cs with
  | nil => rw [byteLength_nil, List.nil_append, behind?]
  | cons c cs ih =>
    obtain ⟨bytes, size, fits, left⟩ := skip_byteLength c cs
    rw [size, List.cons_append, behind?, if_pos fits, left, ih]

theorem charsIn_byteLength (cs rest : List Char) :
    charsIn (byteLength cs) (cs ++ rest) = some cs.length := by
  induction cs with
  | nil => rw [byteLength_nil, charsIn, List.length_nil]
  | cons c cs ih =>
    obtain ⟨bytes, size, fits, left⟩ := skip_byteLength c cs
    rw [size, List.cons_append, charsIn, if_pos fits, left, ih]
    rfl

/-! ## Positions -/

/-- The line and the column of the place behind `n` characters, by the line breaks before it. -/
def positionBehind (text : List Char) (n : Nat) : Position where
  line := (breaksWithin text n).length
  column := n - (breaksWithin text n).getLast?.getD 0

/-- The order of positions in a text. -/
def Position.Before (p q : Position) : Prop :=
  p.line < q.line ∨ p.line = q.line ∧ p.column < q.column

/-- Behind how many characters the lines of a text begin. -/
theorem starts_ofChars (text : List Char) : (LineTable.ofChars text).starts =
    ((0 :: breaks text).map fun n => offset (byteLength (text.take n))).toArray := by
  simp [LineTable.ofChars, startsAfter_eq, offset]

theorem startOf?_ofChars (text : List Char) (line : Nat) : (LineTable.ofChars text).startOf? line =
    ((0 :: breaks text)[line]?).map fun n => offset (byteLength (text.take n)) := by
  rw [LineTable.startOf?, starts_ofChars, List.getElem?_toArray, List.getElem?_map]

/-- The distance from the beginning of a line is measured in characters. -/
theorem charsIn_between (order : m ≤ n) :
    charsIn (byteLength (text.take n) - byteLength (text.take m)) (text.drop m) =
      some (min n text.length - m) := by
  have back : (text.take n).drop m ++ text.drop n = text.drop m := by
    rw [List.drop_take]
    have whole := List.take_append_drop (n - m) (text.drop m)
    rwa [List.drop_drop, Nat.add_sub_cancel' order] at whole
  rw [← take_append_between order, byteLength_append, Nat.add_sub_cancel_left, ← back,
    charsIn_byteLength]
  simp

theorem le_of_begins (begins : n ∈ 0 :: breaks text) : n ≤ text.length := by
  rcases List.mem_cons.mp begins with rfl | member
  · exact Nat.zero_le _
  · exact (mem_breaks_bounds member).2

/-- Lines begin one behind the other. -/
theorem startOf?_increasing (small : byteLength text ≤ maxOffset) {i j a b : Nat} (order : i < j)
    (first : (LineTable.ofChars text).startOf? i = some a)
    (second : (LineTable.ofChars text).startOf? j = some b) : a < b := by
  rw [startOf?_ofChars] at first second
  obtain ⟨m, early, rfl⟩ := Option.map_eq_some_iff.mp first
  obtain ⟨n, late, rfl⟩ := Option.map_eq_some_iff.mp second
  obtain ⟨inside, rfl⟩ := List.getElem?_eq_some_iff.mp early
  obtain ⟨inside', rfl⟩ := List.getElem?_eq_some_iff.mp late
  have less := List.pairwise_iff_getElem.mp (breaks_increasing text) i j inside inside' order
  have bound := le_of_begins (List.getElem_mem inside')
  have shorter := byteLength_take_lt less bound
  have total := byteLength_take_le text (0 :: breaks text)[j]
  rw [offset_of_le (by omega), offset_of_le (by omega)]
  omega

/-- The lines up to the one found are those that begin within the first `n` characters. -/
theorem begins_lineAt (small : byteLength text ≤ maxOffset) (inside : n ≤ text.length) :
    let found := (LineTable.ofChars text).lineAt (byteLength (text.take n))
    found < (0 :: breaks text).length ∧
      0 :: breaksWithin text n = (0 :: breaks text).take (found + 1) := by
  intro found
  set table := LineTable.ofChars text
  have begins (i : Nat) (early : i < (0 :: breaks text).length) :
      (0 :: breaks text)[i] ≤ text.length := le_of_begins (List.getElem_mem early)
  have size : table.starts.size = (0 :: breaks text).length := by simp [table, starts_ofChars]
  have start (i : Nat) (early : i < table.starts.size) (known : i < (0 :: breaks text).length) :
      table.starts[i] = byteLength (text.take (0 :: breaks text)[i]) := by
    simp only [table, starts_ofChars, List.getElem_toArray, List.getElem_map]
    exact offset_of_le (Nat.le_trans (byteLength_take_le _ _) small)
  have increasing : Increasing table.starts := by
    intro i j early late less
    rw [start i early (size ▸ early), start j late (size ▸ late)]
    exact byteLength_take_lt (List.pairwise_iff_getElem.mp (breaks_increasing text) i j _ _ less)
      (begins j _)
  have some_line : 0 < table.starts.size := by simp [size]
  have first : table.starts[0] ≤ byteLength (text.take n) := by
    rw [start 0 some_line (by simp)]
    simp
  obtain ⟨bound, last⟩ := LineTable.lineAt_spec increasing some_line first
  refine ⟨size ▸ bound, ?_⟩
  have selected : (0 :: breaks text).filter (· ≤ n) = (0 :: breaks text).take (found + 1) := by
    refine filter_eq_take fun i early => ?_
    rw [decide_eq_true_iff, ← byteLength_take_le_iff (begins i early) inside,
      ← start i (size ▸ early) early, last i (size ▸ early), Nat.lt_succ_iff]
  simpa [breaksWithin] using selected

/-- A line table gives the position of every place between two characters. -/
theorem position_eq (small : byteLength text ≤ maxOffset) (inside : n ≤ text.length) :
    positionIn text (byteLength (text.take n)) = positionBehind text n := by
  obtain ⟨bound, begins⟩ := begins_lineAt small inside
  unfold positionIn LineTable.position
  dsimp only
  have within : min (byteLength (text.take n)) (offset (LineTable.ofChars text).length) =
      byteLength (text.take n) := by
    rw [offset_of_le (show (LineTable.ofChars text).length ≤ maxOffset from small)]
    exact Nat.min_eq_left (byteLength_take_le _ _)
  rw [within]
  set found := (LineTable.ofChars text).lineAt (byteLength (text.take n))
  have line : (breaksWithin text n).length = found := by
    have length := congrArg List.length begins
    rw [List.length_take, Nat.min_eq_left bound] at length
    simpa using length
  have last : (breaksWithin text n).getLast?.getD 0 = (0 :: breaks text)[found] := by
    have ends := congrArg List.getLast? begins
    rw [List.take_add_one, List.getElem?_eq_getElem bound, Option.toList_some, List.getLast?_concat,
      List.getLast?_cons] at ends
    exact Option.some.inj ends
  have order : (0 :: breaks text)[found] ≤ n := by
    have member : (0 :: breaks text)[found] ∈ 0 :: breaksWithin text n := by
      rw [begins]
      exact List.mem_take_iff_getElem.mpr ⟨found, by omega, rfl⟩
    rcases List.mem_cons.mp member with first | member
    · omega
    · exact of_decide_eq_true (List.mem_filter.mp member).2
  have start : (LineTable.ofChars text).startOf? found =
      some (byteLength (text.take (0 :: breaks text)[found])) := by
    rw [startOf?_ofChars, List.getElem?_eq_getElem bound, Option.map_some,
      offset_of_le (Nat.le_trans (byteLength_take_le _ _) small)]
  have rest : behind? (byteLength (text.take (0 :: breaks text)[found])) text =
      some (text.drop (0 :: breaks text)[found]) := by
    have split := behind?_byteLength (text.take (0 :: breaks text)[found])
      (text.drop (0 :: breaks text)[found])
    rwa [List.take_append_drop] at split
  have source : (LineTable.ofChars text).text = text := rfl
  rw [start, Option.getD_some, source, rest, Option.bind_some, charsIn_between order,
    Option.getD_some, positionBehind, line, last, Nat.min_eq_left inside]

theorem position_beyond {place : Nat} (beyond : byteLength text ≤ place) :
    positionIn text place = positionIn text (byteLength text) := by
  have held : offset (byteLength text) ≤ byteLength text := Nat.min_le_left _ _
  have length : (LineTable.ofChars text).length = byteLength text := rfl
  rw [positionIn, positionIn, LineTable.position, LineTable.position, length,
    Nat.min_eq_right (Nat.le_trans held beyond), Nat.min_eq_right held]

/-! ## Order -/

theorem last_le (text : List Char) (n : Nat) : (breaksWithin text n).getLast?.getD 0 ≤ n := by
  cases last : (breaksWithin text n).getLast? with
  | none => exact Nat.zero_le n
  | some k =>
    have member := List.mem_of_getLast? last
    exact of_decide_eq_true (List.mem_filter.mp member).2

/-- Of numbers in order the smaller ones stand in front. -/
theorem filter_le_prefix {ns : List Nat} (ordered : ns.Pairwise (· < ·)) (le : m ≤ n) :
    ns.filter (· ≤ m) <+: ns.filter (· ≤ n) := by
  induction ns with
  | nil => exact List.nil_prefix
  | cons k ns ih =>
    obtain ⟨larger, ordered⟩ := List.pairwise_cons.mp ordered
    by_cases small : k ≤ m
    · rw [List.filter_cons_of_pos (by simpa using small),
        List.filter_cons_of_pos (by simpa using Nat.le_trans small le)]
      exact (List.prefix_cons_inj k).mpr (ih ordered)
    · have none : (k :: ns).filter (· ≤ m) = [] := by
        refine List.filter_eq_nil_iff.mpr fun j member => ?_
        rcases List.mem_cons.mp member with rfl | later
        · simpa using small
        · have more := larger j later
          simp
          omega
      rw [none]
      exact List.nil_prefix

theorem positionBehind_before (text : List Char) (less : m < n) :
    (positionBehind text m).Before (positionBehind text n) := by
  have ordered := (List.pairwise_cons.mp (breaks_increasing text)).2
  obtain ⟨more, same⟩ : breaksWithin text m <+: breaksWithin text n :=
    filter_le_prefix ordered (Nat.le_of_lt less)
  cases more with
  | nil =>
    -- no break ends between the two places, so both columns count from the same one
    rw [List.append_nil] at same
    have last := last_le text m
    refine Or.inr ⟨congrArg List.length same, ?_⟩
    rw [positionBehind, positionBehind, ← same]
    dsimp only
    omega
  | cons k more =>
    refine Or.inl ?_
    rw [positionBehind, positionBehind, ← same, List.length_append, List.length_cons]
    dsimp only
    omega

theorem Position.Before.ne {p q : Position} (before : p.Before q) : p ≠ q := by
  rintro rfl
  rcases before with less | ⟨-, less⟩ <;> omega

/-- Every line break takes a character. -/
theorem length_breaksWithin_le (text : List Char) (n : Nat) : (breaksWithin text n).length ≤ n := by
  have distinct : (0 :: breaksWithin text n).Nodup := by
    refine List.Nodup.sublist ?_ ((breaks_increasing text).imp Nat.ne_of_lt)
    exact List.filter_sublist.cons_cons 0
  have subset : 0 :: breaksWithin text n ⊆ List.range (n + 1) := by
    refine List.cons_subset.mpr ⟨by simp, fun k member => List.mem_range.mpr ?_⟩
    exact Nat.lt_succ_of_le (of_decide_eq_true (List.mem_filter.mp member).2)
  have bound := (distinct.subperm subset).length_le
  simpa using bound

theorem length_le_byteLength (text : List Char) : text.length ≤ byteLength text := by
  induction text with
  | nil => simp
  | cons c rest ih =>
    have size := c.utf8Size_pos
    rw [List.length_cons, byteLength_cons]
    omega

/-! ## All positions of a text -/

/-- Exactness of positions: the line between two characters is the number of line breaks before it,
and the column the number of characters since the last of these. Beyond the end all positions are
that of the end. So positions are in the order of the places that they tell, and different for
different places, as the lines in the table begin at increasing offsets. No number exceeds 32 bits. -/
theorem positions_exact (text : String) (small : byteLength text.toList < UInt32.size) :
    (∀ n ≤ text.length, positionIn text.toList (byteLength (text.toList.take n)) =
      ⟨(breaksWithin text.toList n).length, n - (breaksWithin text.toList n).getLast?.getD 0⟩) ∧
    (∀ place, byteLength text.toList ≤ place →
      positionIn text.toList place = positionIn text.toList (byteLength text.toList)) ∧
    (∀ m n, m < n → n ≤ text.length →
      (positionIn text.toList (byteLength (text.toList.take m))).Before
        (positionIn text.toList (byteLength (text.toList.take n)))) ∧
    (∀ m n, m ≤ text.length → n ≤ text.length →
      positionIn text.toList (byteLength (text.toList.take m)) =
        positionIn text.toList (byteLength (text.toList.take n)) → m = n) ∧
    (∀ n ≤ text.length,
      (positionIn text.toList (byteLength (text.toList.take n))).line < UInt32.size ∧
      (positionIn text.toList (byteLength (text.toList.take n))).column < UInt32.size) ∧
    ∀ i j a b, i < j → (LineTable.ofString text).startOf? i = some a →
      (LineTable.ofString text).startOf? j = some b → a < b := by
  have chars : text.toList.length = text.length := String.length_toList
  have small : byteLength text.toList ≤ maxOffset := Nat.le_pred_of_lt small
  have before (m n : Nat) (less : m < n) (inside : n ≤ text.length) :
      (positionIn text.toList (byteLength (text.toList.take m))).Before
        (positionIn text.toList (byteLength (text.toList.take n))) := by
    rw [position_eq small (by omega), position_eq small (by omega)]
    exact positionBehind_before text.toList less
  refine ⟨?exact, ?beyond, before, ?distinct, ?fits, ?starts⟩
  case exact => exact fun n inside => position_eq small (by omega)
  case beyond => exact fun place => position_beyond
  case distinct =>
    intro m n inside inside' same
    rcases Nat.lt_trichotomy m n with less | rfl | more
    · exact absurd same (before m n less inside').ne
    · rfl
    · exact absurd same.symm (before n m more inside).ne
  case fits =>
    intro n inside
    have lines := length_breaksWithin_le text.toList n
    have bytes := length_le_byteLength text.toList
    rw [position_eq small (by omega), positionBehind]
    exact ⟨by dsimp only; omega, by dsimp only; omega⟩
  case starts =>
    intro i j a b order
    exact startOf?_increasing small order

/-- All three kinds of line breaks in one text, and a character of two bytes. -/
theorem positions_exact_mixed : byteLength "é\r\nb\rc\n".toList < UInt32.size ∧
    (List.range 8).map (fun n => positionIn "é\r\nb\rc\n".toList
        (byteLength ("é\r\nb\rc\n".toList.take n))) =
      [⟨0, 0⟩, ⟨0, 1⟩, ⟨0, 2⟩, ⟨1, 0⟩, ⟨1, 1⟩, ⟨2, 0⟩, ⟨2, 1⟩, ⟨3, 0⟩] := by
  have small : byteLength "é\r\nb\rc\n".toList < UInt32.size := by decide +kernel
  refine ⟨small, ?_⟩
  have each := (positions_exact "é\r\nb\rc\n" small).1
  have inside : ∀ n ∈ List.range 8, n ≤ "é\r\nb\rc\n".length := by decide +kernel
  rw [List.map_congr_left fun n member => each n (inside n member)]
  decide +kernel

end ShiftReduce.Text
