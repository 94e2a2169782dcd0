import Mathlib.Data.List.Nodup
import Mathlib.Data.List.Perm.Subperm
import ShiftReduce.OrderedSet

/-!
# Sizes of ordered sets

A set lists each member once, so its size is bounded by that of any list of its members, and grows
with every new one.
-/
namespace ShiftReduce.OrderedSet

variable {α : Type} [Ord α]

@[simp] theorem contains_eq_false_iff [DecidableEq α] {s : OrderedSet α} {a : α} :
    s.contains a = false ↔ a ∉ s := by
  simp [contains]

variable [Std.LawfulEqOrd α]

theorem nodup (s : OrderedSet α) : s.toList.Nodup := by
  apply s.increasing.imp
  intro a b less same
  subst same
  simp at less

theorem size_le_of_subset {s : OrderedSet α} {members : List α} (subset : ∀ a ∈ s, a ∈ members) :
    s.size ≤ members.length :=
  (s.nodup.subperm subset).length_le

variable [Std.TransOrd α]

theorem toList_insertAll_perm {s : OrderedSet α} {members : List α} (distinct : members.Nodup)
    (new : ∀ a ∈ members, a ∉ s) : (s.insertAll members).toList.Perm (s.toList ++ members) := by
  have disjoint : s.toList.Disjoint members := fun a old member => new a member old
  apply (List.perm_ext_iff_of_nodup (nodup _) (List.Nodup.append s.nodup distinct disjoint)).mpr
  intro a
  rw [List.mem_append]
  exact mem_insertAll

theorem size_insertAll {s : OrderedSet α} {members : List α} (distinct : members.Nodup)
    (new : ∀ a ∈ members, a ∉ s) : (s.insertAll members).size = s.size + members.length := by
  rw [size, (toList_insertAll_perm distinct new).length_eq, List.length_append, size]

end ShiftReduce.OrderedSet
