import Mathlib.Data.List.Basic
import Mathlib.Order.Lattice
import ShiftReduce.Text.CharSet

/-!
# Members of sets of characters

A set that is built from ranges of characters has the characters of the ranges as its members.
-/
namespace ShiftReduce.Text

/-! ## Ranks -/

/-- Ranks are in the order of characters. -/
theorem rank_le_rank {a b : Char} : rank a.toNat ≤ rank b.toNat ↔ a ≤ b := by
  have left : a.toNat < 0xD800 ∨ 0xDFFF < a.toNat ∧ a.toNat < 0x110000 := a.valid
  have right : b.toNat < 0xD800 ∨ 0xDFFF < b.toNat ∧ b.toNat < 0x110000 := b.valid
  have order : a ≤ b ↔ a.toNat ≤ b.toNat := by
    rw [Char.le_def, UInt32.le_iff_toNat_le]
    rfl
  rw [order]
  unfold rank
  split_ifs <;> omega

theorem rank_lt (c : Char) : rank c.toNat < characterCount := by
  have valid : c.toNat < 0xD800 ∨ 0xDFFF < c.toNat ∧ c.toNat < 0x110000 := c.valid
  unfold rank characterCount
  split_ifs <;> omega

theorem ofNat_unrank_rank (c : Char) : Char.ofNat (unrank (rank c.toNat)) = c := by
  have valid : c.toNat < 0xD800 ∨ 0xDFFF < c.toNat ∧ c.toNat < 0x110000 := c.valid
  have same : unrank (rank c.toNat) = c.toNat := by
    unfold rank unrank
    split_ifs <;> omega
  rw [same, Char.ofNat_toNat]

namespace CharSet

variable {rank place : Nat} {inside : Bool} {bounds : List Nat} {c d : Char} {s : CharSet}

/-! ## Bounds -/

theorem side_append_of_le (passed : ∀ bound ∈ bounds, bound ≤ rank) (more : List Nat) :
    side inside rank (bounds ++ more) = side (side inside rank bounds) rank more := by
  induction bounds generalizing inside with
  | nil => rfl
  | cons bound rest ih =>
    obtain ⟨first, others⟩ := List.forall_mem_cons.mp passed
    rw [List.cons_append, side, if_neg (Nat.not_lt.mpr first), ih others, side,
      if_neg (Nat.not_lt.mpr first)]

theorem side_append_of_lt (ahead : ∃ bound ∈ bounds, rank < bound) (more : List Nat) :
    side inside rank (bounds ++ more) = side inside rank bounds := by
  induction bounds generalizing inside with
  | nil => simp at ahead
  | cons bound rest ih =>
    rw [List.cons_append, side, side]
    split
    · rfl
    next passed =>
      obtain ⟨later, member, lt⟩ := ahead
      refine ih ⟨later, ?_, lt⟩
      rcases List.mem_cons.mp member with rfl | member
      · exact absurd lt passed
      · exact member

/-- A bound beyond a rank does not matter to it. -/
theorem side_concat_of_lt {bound : Nat} (beyond : rank < bound) :
    side inside rank (bounds ++ [bound]) = side inside rank bounds := by
  by_cases ahead : ∃ bound ∈ bounds, rank < bound
  · exact side_append_of_lt ahead [bound]
  · have passed : ∀ bound ∈ bounds, bound ≤ rank := by simpa using ahead
    rw [side_append_of_le passed, side, if_pos beyond]

/-- Nor do several of them. -/
theorem side_dropWhile {limit : Nat} (within : rank < limit) :
    side inside rank (bounds.dropWhile (limit ≤ ·)).reverse = side inside rank bounds.reverse := by
  induction bounds with
  | nil => rfl
  | cons bound rest ih =>
    rw [List.dropWhile_cons]
    split
    next beyond =>
      have beyond : rank < bound := Nat.lt_of_lt_of_le within (by simpa using beyond)
      rw [ih, List.reverse_cons, side_concat_of_lt beyond]
    next => rfl

/-! ## Ranges -/

/-- The bounds of some ranges, last first. -/
def boundsOf (ranges : List (Nat × Nat)) : List Nat := ranges.flatMap fun r => [r.2, r.1]

/-- Each range is in order and begins where the next in the list has ended already. -/
def Descending (ranges : List (Nat × Nat)) : Prop :=
  (∀ r ∈ ranges, r.1 ≤ r.2) ∧ ranges.Pairwise fun later earlier => earlier.2 ≤ later.1

theorem side_boundsOf {ranges : List (Nat × Nat)} (descending : Descending ranges) :
    side false rank (boundsOf ranges).reverse ↔ ∃ r ∈ ranges, r.1 ≤ rank ∧ rank < r.2 := by
  induction ranges with
  | nil => simp [boundsOf, side]
  | cons r rest ih =>
    obtain ⟨ordered, apart⟩ := descending
    obtain ⟨first, others⟩ := List.forall_mem_cons.mp ordered
    obtain ⟨before, apart⟩ := List.pairwise_cons.mp apart
    have earlier : ∀ bound ∈ (boundsOf rest).reverse, bound ≤ r.1 := by
      intro bound member
      obtain ⟨q, known, member⟩ := List.mem_flatMap.mp (List.mem_reverse.mp member)
      have le := before q known
      have order := others q known
      rcases List.mem_pair.mp member with rfl | rfl <;> omega
    have split : (boundsOf (r :: rest)).reverse = (boundsOf rest).reverse ++ [r.1, r.2] := by
      simp [boundsOf]
    have ih := ih ⟨others, apart⟩
    rw [split, List.exists_mem_cons_iff, ← ih]
    by_cases ahead : ∃ bound ∈ (boundsOf rest).reverse, rank < bound
    · have not_here : ¬ (r.1 ≤ rank ∧ rank < r.2) := by
        obtain ⟨bound, member, lt⟩ := ahead
        have le := earlier bound member
        omega
      rw [side_append_of_lt ahead, or_iff_right not_here]
    · have passed : ∀ bound ∈ (boundsOf rest).reverse, bound ≤ rank := by simpa using ahead
      have not_earlier : ¬ side false rank (boundsOf rest).reverse := by
        rw [ih]
        rintro ⟨q, known, -, lt⟩
        have inBounds : q.2 ∈ boundsOf rest := List.mem_flatMap.mpr ⟨q, known, by simp⟩
        exact absurd lt (Nat.not_lt.mpr (passed q.2 (List.mem_reverse.mpr inBounds)))
      rw [side_append_of_le passed, or_iff_left not_earlier, Bool.eq_false_iff.mpr not_earlier]
      simp only [side]
      split_ifs <;> simp <;> omega

/-- What the bounds that were found cover: the ranges gone through. -/
def Covers (covered : List Nat) (ranges : List (Nat × Nat)) : Prop :=
  ∃ found, covered = boundsOf found ∧ Descending found ∧
    (∀ r ∈ found, ∃ q ∈ ranges, q.1 = r.1) ∧
    ∀ rank, (∃ r ∈ found, r.1 ≤ rank ∧ rank < r.2) ↔ ∃ r ∈ ranges, r.1 ≤ rank ∧ rank < r.2

theorem Covers.cover {covered : List Nat} {ranges : List (Nat × Nat)} {range : Nat × Nat}
    (covers : Covers covered ranges) (ordered : range.1 ≤ range.2)
    (latest : ∀ r ∈ ranges, r.1 ≤ range.1) : Covers (cover covered range) (ranges ++ [range]) := by
  obtain ⟨found, rfl, ⟨inOrder, apart⟩, starts, same⟩ := covers
  have whole (rank : Nat) : (∃ r ∈ ranges ++ [range], r.1 ≤ rank ∧ rank < r.2) ↔
      (∃ r ∈ found, r.1 ≤ rank ∧ rank < r.2) ∨ range.1 ≤ rank ∧ rank < range.2 := by
    rw [same]
    simp only [List.mem_append, List.mem_singleton, or_and_right, exists_or, exists_eq_left]
  have starts' : ∀ r ∈ found, ∃ q ∈ ranges ++ [range], q.1 = r.1 := fun r member =>
    (starts r member).imp fun q known => ⟨List.mem_append_left _ known.1, known.2⟩
  cases found with
  | nil =>
    refine ⟨[range], rfl, ⟨by simpa using ordered, List.pairwise_singleton _ _⟩, by simp,
      fun rank => ?_⟩
    rw [whole]
    simp
  | cons last rest =>
    obtain ⟨first, others⟩ := List.forall_mem_cons.mp inOrder
    obtain ⟨before, apart⟩ := List.pairwise_cons.mp apart
    have start : last.1 ≤ range.1 := by
      obtain ⟨q, known, same⟩ := starts last (List.mem_cons_self ..)
      exact same ▸ latest q known
    by_cases joined : range.1 ≤ last.2
    · refine ⟨(last.1, max last.2 range.2) :: rest, if_pos joined, ⟨?_, ?_⟩, ?_, fun rank => ?_⟩
      · exact List.forall_mem_cons.mpr ⟨Nat.le_trans first (Nat.le_max_left _ _), others⟩
      · exact List.pairwise_cons.mpr ⟨before, apart⟩
      · exact List.forall_mem_cons.mpr (List.forall_mem_cons.mp starts')
      · rw [whole, List.exists_mem_cons_iff, List.exists_mem_cons_iff]
        grind
    · refine ⟨range :: last :: rest, if_neg joined, ⟨?_, ?_⟩, ?_, fun rank => ?_⟩
      · exact List.forall_mem_cons.mpr ⟨ordered, inOrder⟩
      · have behind : last.2 ≤ range.1 := Nat.le_of_lt (Nat.not_le.mp joined)
        refine List.pairwise_cons.mpr ⟨List.forall_mem_cons.mpr ⟨behind, fun q known => ?_⟩,
          List.pairwise_cons.mpr ⟨before, apart⟩⟩
        exact Nat.le_trans (before q known) start
      · exact List.forall_mem_cons.mpr ⟨⟨range, by simp, rfl⟩, starts'⟩
      · rw [whole, List.exists_mem_cons_iff, or_comm]

theorem Covers.foldl {covered : List Nat} {ranges more : List (Nat × Nat)}
    (covers : Covers covered ranges) (ordered : ∀ r ∈ more, r.1 ≤ r.2)
    (sorted : (ranges ++ more).Pairwise fun a b => a.1 ≤ b.1) :
    Covers (more.foldl CharSet.cover covered) (ranges ++ more) := by
  induction more generalizing covered ranges with
  | nil => rwa [List.append_nil]
  | cons range more ih =>
    obtain ⟨first, others⟩ := List.forall_mem_cons.mp ordered
    have latest : ∀ r ∈ ranges, r.1 ≤ range.1 := fun r known =>
      (List.pairwise_append.mp sorted).2.2 r known range (List.mem_cons_self ..)
    rw [List.append_cons] at sorted ⊢
    exact ih (covers.cover first latest) others sorted

theorem side_ofRanks {ranges : List (Nat × Nat)} (ordered : ∀ r ∈ ranges, r.1 ≤ r.2)
    (within : rank < characterCount) :
    side false rank (ofRanks ranges).bounds ↔ ∃ r ∈ ranges, r.1 ≤ rank ∧ rank < r.2 := by
  have none : Covers [] [] := ⟨[], rfl, ⟨by simp, .nil⟩, by simp, by simp⟩
  have sorted : (ranges.mergeSort fun a b => decide (a.1 ≤ b.1)).Pairwise
      fun a b => decide (a.1 ≤ b.1) :=
    List.pairwise_mergeSort (by simpa using fun _ _ _ => Nat.le_trans)
      (by simpa using Nat.le_total) ranges
  obtain ⟨found, covered, descending, -, same⟩ := none.foldl
    (fun r member => ordered r (List.mem_mergeSort.mp member)) (by simpa using sorted)
  rw [ofRanks, side_dropWhile within]
  simp only [List.nil_append] at same
  rw [covered, side_boundsOf descending, same]
  simp only [List.mem_mergeSort]

/-! ## Characters -/

/-- A set built from ranges holds the characters of the ranges. -/
theorem contains_ofPoints {ranges : List (Char × Char)} (ordered : ∀ r ∈ ranges, r.1 ≤ r.2) :
    (ofPoints (ranges.map fun (first, last) => (first.toNat, last.toNat))).contains c ↔
      ∃ r ∈ ranges, r.1 ≤ c ∧ c ≤ r.2 := by
  unfold contains ofPoints
  rw [side_ofRanks _ (rank_lt c)]
  · simp only [List.mem_map, exists_exists_and_eq_and, Nat.lt_succ_iff, rank_le_rank]
  · simp only [List.map_map, List.forall_mem_map]
    intro r member
    exact Nat.le_succ_of_le (rank_le_rank.mpr (ordered r member))

theorem contains_single : (single c).contains d ↔ d = c := by
  have members := contains_ofPoints (c := d)
    (List.forall_mem_singleton.mpr (Char.le_refl c) : ∀ r ∈ [(c, c)], r.1 ≤ r.2)
  refine members.trans ⟨?_, ?_⟩
  · rintro ⟨_, member, least, most⟩
    obtain rfl := List.mem_singleton.mp member
    exact Char.le_antisymm most least
  · rintro rfl
    exact ⟨(d, d), List.mem_singleton_self _, Char.le_refl d, Char.le_refl d⟩

/-- What is read off as the only member of a set is the only one it may have. -/
theorem eq_of_member? (only : s.member? = some d) (member : s.contains c) : c = d := by
  have bound := rank_lt c
  have first_eq : ∃ first, d = Char.ofNat (unrank first) ∧ Text.rank c.toNat = first := by
    unfold member? at only
    unfold contains at member
    split at only
    next first last bounds =>
      simp only [bounds, side] at member
      grind
    next first bounds =>
      simp only [bounds, side] at member
      grind
    next => cases only
  obtain ⟨_, rfl, rfl⟩ := first_eq
  exact (ofNat_unrank_rank c).symm

/-- The complement of nothing. -/
theorem contains_complement_empty (c : Char) : (complement (ofPoints [])).contains c := by
  have members := contains_ofPoints (c := c) (List.forall_mem_nil fun r : Char × Char => r.1 ≤ r.2)
  rw [contains_complement]
  simpa using members

end CharSet

end ShiftReduce.Text
