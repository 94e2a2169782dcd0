/-!
# Ordered sets

A finite set kept as a strictly increasing list. Members are listed in order, and two sets with the
same members are equal (`OrderedSet.ext`), so equality of sets can be decided.
-/
namespace ShiftReduce

/-- A finite set, listed in strictly increasing order. -/
structure OrderedSet (α : Type) [Ord α] where
  toList : List α
  increasing : toList.Pairwise fun a b => compare a b = .lt

namespace OrderedSet

variable {α : Type} [Ord α]

instance [DecidableEq α] : DecidableEq (OrderedSet α) := fun s t =>
  decidable_of_iff (s.toList = t.toList) (by cases s; cases t; simp)

instance : Membership α (OrderedSet α) := ⟨fun s a => a ∈ s.toList⟩

instance [DecidableEq α] (a : α) (s : OrderedSet α) : Decidable (a ∈ s) :=
  inferInstanceAs (Decidable (a ∈ s.toList))

theorem mem_def {a : α} {s : OrderedSet α} : a ∈ s ↔ a ∈ s.toList := Iff.rfl

/-- Put `a` at its place in an increasing list, once. -/
def insertInto (a : α) : List α → List α
  | [] => [a]
  | b :: rest =>
    match compare a b with
    | .lt => a :: b :: rest
    | .eq => b :: rest
    | .gt => b :: insertInto a rest

theorem mem_insertInto [Std.LawfulEqOrd α] (x a : α) (l : List α) :
    x ∈ insertInto a l ↔ x = a ∨ x ∈ l := by
  induction l with
  | nil => simp [insertInto]
  | cons b rest ih =>
    unfold insertInto
    split
    · simp
    · next equal =>
      have : a = b := Std.LawfulEqOrd.eq_of_compare equal
      simp [this]
    · simp only [List.mem_cons, ih]
      grind

theorem pairwise_insertInto [Std.TransOrd α] [Std.LawfulEqOrd α] (a : α) (l : List α)
    (increasing : l.Pairwise fun x y => compare x y = .lt) :
    (insertInto a l).Pairwise fun x y => compare x y = .lt := by
  induction l with
  | nil => simp [insertInto]
  | cons b rest ih =>
    obtain ⟨above, tail⟩ := List.pairwise_cons.1 increasing
    unfold insertInto
    split
    · next less =>
      refine List.pairwise_cons.2 ⟨fun y member => ?_, increasing⟩
      rcases List.mem_cons.1 member with rfl | member
      · exact less
      · exact Std.TransCmp.lt_trans less (above y member)
    · exact increasing
    · next greater =>
      refine List.pairwise_cons.2 ⟨fun y member => ?_, ih tail⟩
      rcases (mem_insertInto y a rest).1 member with rfl | member
      · exact Std.OrientedCmp.gt_iff_lt.1 greater
      · exact above y member

/-- The empty set. -/
def empty : OrderedSet α := ⟨[], .nil⟩

instance : EmptyCollection (OrderedSet α) := ⟨empty⟩

instance : Inhabited (OrderedSet α) := ⟨empty⟩

@[simp] theorem not_mem_empty (a : α) : a ∉ (∅ : OrderedSet α) := List.not_mem_nil

def size (s : OrderedSet α) : Nat := s.toList.length

def isEmpty (s : OrderedSet α) : Bool := s.toList.isEmpty

def contains [DecidableEq α] (s : OrderedSet α) (a : α) : Bool := decide (a ∈ s)

@[simp] theorem contains_iff [DecidableEq α] {s : OrderedSet α} {a : α} :
    s.contains a = true ↔ a ∈ s := by
  simp [contains]

variable [Std.TransOrd α] [Std.LawfulEqOrd α]

def insert (s : OrderedSet α) (a : α) : OrderedSet α :=
  ⟨insertInto a s.toList, pairwise_insertInto a s.toList s.increasing⟩

@[simp] theorem mem_insert {x a : α} {s : OrderedSet α} : x ∈ s.insert a ↔ x = a ∨ x ∈ s :=
  mem_insertInto x a s.toList

/-- Add every member of a list. -/
def insertAll (s : OrderedSet α) (members : List α) : OrderedSet α := members.foldl insert s

@[simp] theorem mem_insertAll {x : α} {s : OrderedSet α} {members : List α} :
    x ∈ s.insertAll members ↔ x ∈ s ∨ x ∈ members := by
  induction members generalizing s with
  | nil => simp [insertAll]
  | cons a rest ih =>
    have step : s.insertAll (a :: rest) = (s.insert a).insertAll rest := rfl
    rw [step, ih, mem_insert]
    grind

def ofList (members : List α) : OrderedSet α := empty.insertAll members

@[simp] theorem mem_ofList {x : α} {members : List α} : x ∈ ofList members ↔ x ∈ members := by
  simp only [ofList, mem_insertAll]
  exact or_iff_right List.not_mem_nil

def union (s t : OrderedSet α) : OrderedSet α := s.insertAll t.toList

instance : Union (OrderedSet α) := ⟨union⟩

@[simp] theorem mem_union {x : α} {s t : OrderedSet α} : x ∈ s ∪ t ↔ x ∈ s ∨ x ∈ t :=
  mem_insertAll

/-- Two strictly increasing lists with the same members are equal. -/
theorem eq_of_increasing (l m : List α) (hl : l.Pairwise fun x y => compare x y = .lt)
    (hm : m.Pairwise fun x y => compare x y = .lt) (same : ∀ x, x ∈ l ↔ x ∈ m) : l = m := by
  induction l generalizing m with
  | nil =>
    cases m with
    | nil => rfl
    | cons b m => exact absurd ((same b).2 (by simp)) (by simp)
  | cons a l ih =>
    cases m with
    | nil => exact absurd ((same a).1 (by simp)) (by simp)
    | cons b m =>
      obtain ⟨aboveA, tailA⟩ := List.pairwise_cons.1 hl
      obtain ⟨aboveB, tailB⟩ := List.pairwise_cons.1 hm
      have irreflexive (x : α) : compare x x ≠ .lt := by simp
      have heads : a = b := by
        rcases List.mem_cons.1 ((same a).1 (by simp)) with h | inM
        · exact h
        rcases List.mem_cons.1 ((same b).2 (by simp)) with h | inL
        · exact h.symm
        · exact absurd (Std.TransCmp.lt_trans (aboveB a inM) (aboveA b inL)) (irreflexive b)
      subst heads
      rw [ih m tailA tailB fun x => ?_]
      constructor
      · intro member
        rcases List.mem_cons.1 ((same x).1 (List.mem_cons_of_mem _ member)) with rfl | h
        · exact absurd (aboveA x member) (irreflexive x)
        · exact h
      · intro member
        rcases List.mem_cons.1 ((same x).2 (List.mem_cons_of_mem _ member)) with rfl | h
        · exact absurd (aboveB x member) (irreflexive x)
        · exact h

@[ext] theorem ext {s t : OrderedSet α} (same : ∀ x, x ∈ s ↔ x ∈ t) : s = t := by
  have lists := eq_of_increasing s.toList t.toList s.increasing t.increasing same
  cases s
  cases t
  simp_all

end OrderedSet

end ShiftReduce
