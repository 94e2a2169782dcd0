import ShiftReduce.Proofs.Regex.Assembling
import ShiftReduce.Proofs.Regex.Classes
import ShiftReduce.Proofs.Regex.Matching
import ShiftReduce.Proofs.Text.CharSets
import ShiftReduce.Regex.BuiltIn

/-!
# What the built-in engine does

An expression is cut into lexemes, and these add pieces that match its words. Main statement: the
built-in engine is documented. It finds words of an expression at the start of a text, refuses what
is no expression, and compiles what is one unless that gets too big or is nested.
-/
namespace ShiftReduce.Regex

variable {n : Nat} {c : Char} {rs : List (Char × Char)} {text : List Char} {L : Language Char}
  {flags : Flags} {pieces : List Piece} {ls : List Lexeme} {r : NestedRegex}

/-! ## Pieces of characters -/

theorem spells_ofSet {s : Text.CharSet} (inhabited : ∃ c, s.contains c) :
    Spells (ofSet s) (characters (s.contains ·)) := by
  unfold ofSet
  split
  next d only =>
    have same : characters (s.contains ·) = {[d]} := by
      obtain ⟨c, member⟩ := inhabited
      obtain rfl := Text.CharSet.eq_of_member? only member
      ext w
      constructor
      · rintro ⟨e, other, rfl⟩
        exact congrArg (fun c => [c]) (Text.CharSet.eq_of_member? only other)
      · rintro rfl
        exact ⟨c, member, rfl⟩
    rw [same]
    exact spells_literal [d]
  next =>
    intro p q
    rw [Matches]
    constructor
    · rintro ⟨c, member, reads⟩
      exact ⟨[c], ⟨c, member, rfl⟩, reads⟩
    · rintro ⟨_, ⟨c, member, rfl⟩, reads⟩
      exact ⟨c, member, reads⟩

theorem isDecided_ofSet (s : Text.CharSet) : (ofSet s).isDecided := by
  unfold ofSet
  split <;> rfl

/-- A piece that is a character of a set. -/
def setPiece (flags : Flags) (c : CharClass) (depth : Nat) : Piece :=
  .whole ⟨ofSet (c.set flags.ignoreCase), depth⟩

theorem spelledBy_setPiece {a : CharClass} {depth : Nat} {holds : Char → Prop}
    (members : ∀ c, (a.set flags.ignoreCase).contains c ↔ holds c) (inhabited : ∃ c, holds c) :
    SpelledBy [setPiece flags a depth] (characters holds) := by
  have spells := spells_ofSet (inhabited.imp fun c => (members c).mpr)
  simp only [members] at spells
  exact .single (isDecided_ofSet _) spells

/-- The members of a class of ranges where case matters. -/
theorem contains_ranges (sensitive : flags.ignoreCase = false) (ordered : ∀ r ∈ rs, r.1 ≤ r.2) :
    ((CharClass.ranges rs).set flags.ignoreCase).contains c ↔ ∃ r ∈ rs, r.1 ≤ c ∧ c ≤ r.2 := by
  rw [sensitive]
  exact Text.CharSet.contains_ofPoints ordered

theorem spelledBy_char (sensitive : flags.ignoreCase = false) (c : Char) :
    SpelledBy [setPiece flags (.single c) 0] {[c]} := by
  have one : characters (· = c) = {[c]} := by
    ext w
    exact ⟨fun ⟨_, same, written⟩ => same ▸ written, fun written => ⟨c, rfl, written⟩⟩
  rw [← one]
  refine spelledBy_setPiece (fun d => ?_) ⟨c, rfl⟩
  rw [CharClass.single, contains_ranges sensitive (by simp)]
  simp only [List.mem_singleton, exists_eq_left]
  exact ⟨fun both => Char.le_antisymm both.2 both.1, by rintro rfl; simp⟩

theorem spelledBy_class {depth : Nat} (sensitive : flags.ignoreCase = false) (inhabited : rs ≠ [])
    (ordered : ∀ r ∈ rs, r.1 ≤ r.2) : SpelledBy [setPiece flags (.ranges rs.reverse) depth]
      (characters fun c => ∃ r ∈ rs, r.1 ≤ c ∧ c ≤ r.2) := by
  refine spelledBy_setPiece (fun c => ?_) ?_
  · rw [contains_ranges sensitive fun r member => ordered r (List.mem_reverse.mp member)]
    simp
  · obtain ⟨r, rest, rfl⟩ := List.exists_cons_of_ne_nil inhabited
    have first := List.mem_cons_self (a := r) (l := rest)
    exact ⟨r.1, r, first, Char.le_refl _, ordered r first⟩

theorem feeds_dot (dotAll : flags.dotAll = true) :
    Feeds [.dot] flags (.ok [setPiece flags .everything 0]) :=
  .single fun a same => by
    subst same
    simp only [Assembly.feed, dotAll, if_true]
    rfl

theorem spelledBy_dot : SpelledBy [setPiece flags .everything 0] (characters fun _ => True) := by
  refine spelledBy_setPiece (fun c => iff_of_true ?_ trivial) ⟨'a', trivial⟩
  have nothing : CharClass.points flags.ignoreCase [] = [] := by
    cases flags.ignoreCase <;> rfl
  simp only [CharClass.everything, CharClass.set, nothing]
  exact Text.CharSet.contains_complement_empty c

/-! ## How deeply pieces are nested -/

theorem join_depth_le {build : List Regex → Regex} {parts : List NestedRegex}
    (shallow : ∀ r ∈ parts, r.depth ≤ n) : (NestedRegex.join build parts).depth ≤ n + 1 := by
  have greatest : ∀ m ≤ n, (parts.map (·.depth)).foldl max m ≤ n := by
    induction parts with
    | nil => simp
    | cons r rest ih =>
      intro m least
      exact ih (fun s member => shallow s (List.mem_cons_of_mem r member)) _
        (Nat.max_le.mpr ⟨least, shallow r (List.mem_cons_self ..)⟩)
  have within := greatest 0 (Nat.zero_le n)
  simp only [NestedRegex.join]
  split <;> omega

theorem inside_depth_le (shallow : ∀ piece ∈ pieces, piece.regex.depth ≤ n) :
    (Group.holding flags pieces).inside.depth ≤ n + 1 := by
  have branch : (Group.holding flags pieces).branch.depth ≤ n + 1 := by
    refine join_depth_le fun r member => ?_
    obtain ⟨piece, known, rfl⟩ := List.mem_map.mp member
    exact shallow piece (List.mem_reverse.mp known)
  -- a group of one branch is nested no more deeply than the branch
  have alone : (Group.holding flags pieces).inside.depth =
      (Group.holding flags pieces).branch.depth := by
    simp [Group.inside, Group.holding, Group.fresh, NestedRegex.join]
  omega

/-! ## Reading an expression -/

/-- How an expression is read: the lexemes that it is cut into, and what these add to a group where
case matters, unless it is nested too deeply. -/
structure ReadAs (n : Nat) (text : List Char) (L : Language Char) (ls : List Lexeme) : Prop where
  cuts : CutsInto text ls
  unnamed : groupNames ls = []
  feeds : ∀ flags : Flags, flags.ignoreCase = false → ∃ result, Feeds ls flags result ∧
    (∀ pieces, result = .ok pieces → SpelledBy pieces L) ∧
    (n ≤ 1 → ∃ pieces, result = .ok pieces ∧ ∀ piece ∈ pieces, piece.regex.depth ≤ 2 * n + 2)

namespace ReadAs

variable {front behind : List Char} {K : Language Char} {ks : List Lexeme} {min : Nat}
  {max : Option Nat}

theorem nil : ReadAs n [] 1 [] where
  cuts := .nil
  unnamed := rfl
  feeds flags _ := by
    refine ⟨_, Feeds.nil, ?_, fun _ => ⟨_, rfl, by simp⟩⟩
    rintro _ ⟨⟩
    exact .nil

/-- One lexeme that is a character of a set. -/
theorem single {l : Lexeme} {a : CharClass} {depth : Nat} (cuts : CutsInto text [l])
    (unnamed : groupNames [l] = []) (shallow : depth ≤ 2)
    (adds : ∀ b : Assembly, b.feed l = .ok (b.push [setPiece b.current.flags a depth]))
    (spelled : ∀ flags : Flags, flags.ignoreCase = false → SpelledBy [setPiece flags a depth] L) :
    ReadAs n text L [l] where
  cuts := cuts
  unnamed := unnamed
  feeds flags sensitive := by
    refine ⟨_, Feeds.single fun b same => same ▸ adds b, ?_, fun _ => ⟨_, rfl, ?_⟩⟩
    · rintro _ ⟨⟩
      exact spelled flags sensitive
    · intro piece member
      obtain rfl := List.mem_singleton.mp member
      change depth ≤ _
      omega

theorem append (first : ReadAs n front L ls) (second : ReadAs n behind K ks) :
    ReadAs n (front ++ behind) (L * K) (ls ++ ks) where
  cuts := first.cuts.append second.cuts
  unnamed := by rw [groupNames_append, first.unnamed, second.unnamed, List.append_nil]
  feeds flags sensitive := by
    obtain ⟨result, feeds, spelled, shallow⟩ := first.feeds flags sensitive
    obtain ⟨result', feeds', spelled', shallow'⟩ := second.feeds flags sensitive
    cases result with
    | error e =>
      refine ⟨_, feeds.append_error ks, by simp, fun flat => ?_⟩
      obtain ⟨pieces, added, -⟩ := shallow flat
      cases added
    | ok pieces =>
      refine ⟨_, feeds.append feeds', fun more added => ?_, fun flat => ?_⟩
      · cases result' with
        | error e => cases added
        | ok pieces' =>
          cases added
          exact (spelled pieces rfl).append (spelled' pieces' rfl)
      · obtain ⟨_, ⟨⟩, low⟩ := shallow flat
        obtain ⟨pieces', rfl, low'⟩ := shallow' flat
        refine ⟨_, rfl, fun piece member => ?_⟩
        exact (List.mem_append.mp member).elim (low' piece) (low piece)

/-- Any character, in a group of its own. -/
theorem any : ReadAs (n + 1) "(?s:.)".toList (characters fun _ => True)
    [.open (.plain { FlagChange.keep with dotAll := some true }), .dot, .close] where
  cuts := cuts_openDotAll.append (cuts_dot.append cuts_close)
  unnamed := rfl
  feeds flags _ := by
    refine ⟨_, (feeds_dot rfl).group, ?_, fun _ => ⟨_, rfl, fun piece member => ?_⟩⟩
    · rintro _ ⟨⟩
      obtain ⟨decided, spells⟩ := spelledBy_dot.closed { flags with dotAll := true }
      exact .single decided spells
    · obtain rfl := List.mem_singleton.mp member
      change 0 + 1 ≤ _
      omega

/-- The lexemes of a group add it as one piece. -/
theorem feeds_group (reads : ReadAs n text L ls) (flags : Flags)
    (sensitive : flags.ignoreCase = false) : ∃ result : Except SyntaxError NestedRegex,
      Feeds (.open (.plain .keep) :: ls ++ [.close]) flags (result.map fun r => [.whole r]) ∧
      (∀ r, result = .ok r → r.regex.isDecided ∧ Spells r.regex L) ∧
      (n = 0 → ∃ r, result = .ok r ∧ r.depth ≤ 4) := by
  obtain ⟨result, feeds, spelled, shallow⟩ := reads.feeds flags sensitive
  -- the group changes no flags
  have inner : Feeds ls (flags.changed .keep) result := feeds
  refine ⟨_, inner.group, fun r closed => ?_, fun flat => ?_⟩
  · cases result with
    | error e => cases closed
    | ok pieces =>
      cases closed
      exact (spelled pieces rfl).closed _
  · subst flat
    obtain ⟨pieces, rfl, low⟩ := shallow (Nat.zero_le 1)
    refine ⟨_, rfl, ?_⟩
    have inside : (Group.holding (flags.changed .keep) pieces).inside.depth ≤ _ :=
      inside_depth_le low
    change (Group.holding _ pieces).inside.depth + 1 ≤ 4
    omega

theorem group (reads : ReadAs n text L ls) : ReadAs (n + 1) ("(?:".toList ++ (text ++ [')'])) L
    (.open (.plain .keep) :: ls ++ [.close]) where
  cuts := cuts_open.append (reads.cuts.append cuts_close)
  unnamed := by
    rw [List.cons_append, ← List.singleton_append, groupNames_append, groupNames_append,
      reads.unnamed]
    rfl
  feeds flags sensitive := by
    obtain ⟨result, feeds, decided, shallow⟩ := reads.feeds_group flags sensitive
    refine ⟨_, feeds, fun pieces added => ?_, fun flat => ?_⟩
    · cases result with
      | error e => cases added
      | ok r =>
        cases added
        obtain ⟨decided, spells⟩ := decided r rfl
        exact .single decided spells
    · obtain rfl : n = 0 := by omega
      obtain ⟨r, rfl, low⟩ := shallow rfl
      exact ⟨_, rfl, fun piece member => List.mem_singleton.mp member ▸ low⟩

theorem counted (reads : ReadAs n text L ls) (ordered : ∀ m ∈ max, min ≤ m)
    (bounded : Bounded min max) :
    ReadAs (n + 2) ("(?:".toList ++ (text ++ ([')'] ++ '\x7b' :: writtenBounds min max)))
      (powers L min max) (.open (.plain .keep) :: ls ++ [.close] ++ [.repetition min max]) where
  cuts := by
    rw [List.append_assoc]
    exact cuts_open.append (reads.cuts.append (cuts_close.append (cuts_repetition bounded)))
  unnamed := by
    rw [groupNames_append, reads.group.unnamed]
    rfl
  feeds flags sensitive := by
    obtain ⟨result, feeds, decided, -⟩ := reads.feeds_group flags sensitive
    refine ⟨_, feeds.repeated min max, fun pieces added => ?_, fun flat => by omega⟩
    cases result with
    | error e => cases added
    | ok r =>
      obtain ⟨decided, spells⟩ := decided r rfl
      simp only [Except.bind] at added
      split at added
      · cases added
        exact .single (isDecided_times decided) (spells.times ordered)
      · cases added

end ReadAs

/-- What cannot be cut cannot be cut inside a group. -/
theorem uncuttable_inside (fails : ∀ tail, Uncuttable (text ++ tail)) (behind tail : List Char) :
    Uncuttable ("(?:".toList ++ (text ++ behind) ++ tail) := by
  rw [List.append_assoc, List.append_assoc]
  exact cuts_open.uncuttable (fails _)

/-- An expression is read, unless there are bounds in it that are too large. -/
theorem Written.readAs (written : Written n text L) :
    (∃ ls, ReadAs n text L ls) ∨ 2 ≤ n ∧ ∀ tail, Uncuttable (text ++ tail) := by
  induction written with
  | nil => exact Or.inl ⟨_, .nil⟩
  | @char n c text spelled =>
    exact Or.inl ⟨_, .single spelled.cuts rfl (Nat.zero_le 2) (fun _ => rfl)
      fun _ sensitive => spelledBy_char sensitive c⟩
  | @set n rs text spelled inhabited ordered =>
    refine Or.inl ⟨_, .single (cuts_class spelled inhabited ordered) rfl ?_ (fun _ => rfl)
      fun _ sensitive => spelledBy_class sensitive inhabited ordered⟩
    split <;> omega
  | any => exact Or.inl ⟨_, .any⟩
  | group _ ih =>
    rcases ih with ⟨ls, reads⟩ | ⟨deep, fails⟩
    · exact Or.inl ⟨_, reads.group⟩
    · exact Or.inr ⟨by omega, uncuttable_inside fails _⟩
  | @counted n min max text L _ ordered ih =>
    rcases ih with ⟨ls, reads⟩ | ⟨deep, fails⟩
    · by_cases bounded : Bounded min max
      · exact Or.inl ⟨_, reads.counted ordered bounded⟩
      · refine Or.inr ⟨by omega, fun tail => ?_⟩
        simp only [List.append_assoc, List.cons_append]
        exact cuts_open.uncuttable
          (reads.cuts.uncuttable (cuts_close.uncuttable (uncuttable_repetition bounded)))
    · exact Or.inr ⟨by omega, uncuttable_inside fails _⟩
  | append _ _ ih ih' =>
    rcases ih with ⟨ls, reads⟩ | ⟨deep, fails⟩
    · rcases ih' with ⟨ks, reads'⟩ | ⟨deep, fails⟩
      · exact Or.inl ⟨_, reads.append reads'⟩
      · refine Or.inr ⟨deep, fun tail => ?_⟩
        rw [List.append_assoc]
        exact reads.cuts.uncuttable (fails tail)
    · refine Or.inr ⟨deep, fun tail => ?_⟩
      rw [List.append_assoc]
      exact fails _

/-! ## The start of a text -/

/-- An expression behind the sign for the start of a text. -/
theorem beginsWith_textStart (rs : List Regex) :
    (inOrder (.holds .textStart :: rs)).beginsWith .textStart := by
  have front : ((.holds .textStart :: rs).flatMap factors).foldr prepend [] =
      .holds .textStart :: (rs.flatMap factors).foldr prepend [] := by
    simp [factors, prepend]
  rw [inOrder, front]
  split
  next s single =>
    obtain rfl : .holds .textStart = s := (List.cons.inj single).1
    rfl
  next => rfl

theorem recognises_ofRegex {r : Regex} (begins : r.beginsWith .textStart)
    (spelled : ∀ text q, r.Matches ⟨none, text⟩ q ↔ ∃ w ∈ L, Place.Reads ⟨none, text⟩ w q) :
    (Program.ofRegex r).matcher.Recognises L := by
  intro text
  obtain ⟨sound, complete⟩ := matchEnd_spec begins text
  constructor
  · intro n found
    obtain ⟨q, w, matched, reads, rfl⟩ := sound n found
    obtain ⟨v, word, reads'⟩ := (spelled text q).mp matched
    have split : text = w ++ q.rest := reads.rest_eq
    have same : w = v := List.append_cancel_right (split.symm.trans reads'.rest_eq)
    rw [split, List.take_left', same]
    · exact word
    · rfl
  · intro unmatched n word
    obtain ⟨before, reads⟩ := Place.exists_reads (p := ⟨none, text⟩)
      (List.take_append_drop n text).symm
    exact complete unmatched _ ((spelled text _).mpr ⟨_, word, reads⟩)

/-- The sign for the start of a text, put in front of pieces that are listed last first. -/
def atStart (pieces : List Piece) : Group :=
  .holding .plain (pieces ++ [.whole ⟨.holds .textStart, 0⟩])

theorem recognises_atStart (spelled : SpelledBy pieces L) :
    (Program.ofRegex (atStart pieces).inside.regex).matcher.Recognises L := by
  have decided : ∀ piece ∈ (atStart pieces).pieces, piece.regex.regex.isDecided := by
    refine List.forall_mem_append.mpr ⟨spelled.decided, List.forall_mem_singleton.mpr ?_⟩
    rfl
  obtain ⟨inside, -⟩ := inside_eq_inOrder rfl decided
  have parts : (atStart pieces).pieces.reverse.map (fun piece => piece.regex.regex) =
      .holds .textStart :: pieces.reverse.map fun piece => piece.regex.regex := by
    rw [atStart, Group.holding, List.reverse_append, List.map_append]
    rfl
  rw [inside, parts]
  refine recognises_ofRegex (beginsWith_textStart _) fun text q => ?_
  rw [matches_inOrder, ← spelled.spells]
  simp [MatchesInOrder, Matches, Assertion.test]

/-- How an expression behind the sign for the start of a text is read. -/
theorem ReadAs.describes (reads : ReadAs n text L ls) :
    ∃ result : Except SyntaxError (List Piece), (∀ r, Describes ("\\A".toList ++ text) r ↔
        ∃ pieces, result = .ok pieces ∧ (atStart pieces).inside = r) ∧
      (∀ pieces, result = .ok pieces → SpelledBy pieces L) ∧
      (n ≤ 1 → ∃ pieces, result = .ok pieces ∧ ∀ piece ∈ pieces, piece.regex.depth ≤ 2 * n + 2) := by
  obtain ⟨result, feeds, spelled, shallow⟩ := reads.feeds .plain rfl
  have start : Feeds [.holds .textStart] .plain (.ok [.whole ⟨.holds .textStart, 0⟩]) :=
    .single fun _ _ => rfl
  have distinct : (groupNames ([.holds .textStart] ++ ls)).Nodup := by
    rw [groupNames_append, reads.unnamed]
    exact .nil
  refine ⟨result, fun r => ?_, spelled, shallow⟩
  rw [describes_iff (cuts_textStart.append reads.cuts) (start.append feeds) distinct]
  cases result <;> simp [Except.map, atStart]

/-! ## The engine -/

theorem Malformed.uncuttable (malformed : Malformed text) : Uncuttable text := by
  induction malformed with
  | unclosed inert => exact uncuttable_unclosed inert
  | disordered spelled reversed => exact uncuttable_disordered spelled reversed
  | inside _ ih => exact cuts_open.uncuttable ih
  | @unordered n min max text tail L inside reversed =>
    have unbounded : ¬ Bounded min (some max) := fun bounded =>
      Nat.not_le.mpr reversed (bounded.2 max rfl).2
    refine cuts_open.uncuttable ?_
    rcases inside.readAs with ⟨ls, reads⟩ | ⟨-, fails⟩
    · exact reads.cuts.uncuttable (cuts_close.uncuttable (uncuttable_repetition unbounded))
    · exact fails _

theorem Uncuttable.compile_eq (fails : Uncuttable text) :
    ∃ message, Engine.builtIn.compile ("\\A".toList ++ text) = .error (.malformed message) := by
  obtain ⟨e, failed⟩ := (cuts_textStart.uncuttable fails).lexemes_eq
  refine ⟨e.message, ?_⟩
  simp only [Engine.builtIn, parse, failed]
  rfl

/-- The built-in engine is documented. -/
theorem Engine.builtIn_documented : Engine.builtIn.Documented where
  recognises {n text L m} written compiled := by
    rcases written.readAs with ⟨ls, reads⟩ | ⟨-, fails⟩
    case inr =>
      have fails := fails []
      rw [List.append_nil] at fails
      obtain ⟨message, failed⟩ := fails.compile_eq
      cases compiled.symm.trans failed
    obtain ⟨result, described, spelled, -⟩ := reads.describes
    simp only [Engine.builtIn] at compiled
    split at compiled
    next r accepted =>
      split at compiled
      next =>
        cases compiled
        obtain ⟨depth, describes⟩ := exists_describes accepted
        obtain ⟨pieces, done, same⟩ := (described _).mp describes
        have recognises := recognises_atStart (spelled pieces done)
        rw [same] at recognises
        exact recognises
      next => cases compiled
    next => cases compiled
  refuses malformed := malformed.uncuttable.compile_eq
  compiles {text L} written fits := by
    rcases written.readAs with ⟨ls, reads⟩ | ⟨deep, -⟩
    case inr => omega
    obtain ⟨result, described, -, shallow⟩ := reads.describes
    obtain ⟨pieces, done, low⟩ := shallow (Nat.le_refl 1)
    have describes := (described _).mpr ⟨pieces, done, rfl⟩
    have depth : (atStart pieces).inside.depth ≤ 4 + 1 := by
      refine inside_depth_le (List.forall_mem_append.mpr ⟨low, ?_⟩)
      exact List.forall_mem_singleton.mpr (Nat.zero_le _)
    have accepted : parse ("\\A".toList ++ text) = .ok (atStart pieces).inside.regex := by
      rw [describes.parse_eq, if_neg]
      rw [depthLimit]
      omega
    have fits := fits weightLimit
    simp only [Engine.builtIn, accepted] at fits ⊢
    split at fits
    next light => exact ⟨_, if_pos light⟩
    next => exact absurd rfl fits

end ShiftReduce.Regex
