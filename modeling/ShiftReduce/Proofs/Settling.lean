import Mathlib.Data.Nat.Basic

/-!
# Rounds that settle

A loop repeats a round until it changes nothing. It ends if every busy round adds to a measure that
is bounded, and what each round keeps up holds of the result.
-/
namespace ShiftReduce

variable {α : Type} {round : α → α} {a b : α} {n : Nat}

/-- Repeated until nothing changes, a round leads from one value to another. The number counts the
rounds, the last and idle one included. -/
inductive Settles (round : α → α) : α → Nat → α → Prop
  | idle {a : α} (same : round a = a) : Settles round a 1 a
  | busy {a b : α} {n : Nat} (changed : round a ≠ a) (later : Settles round (round a) n b) :
      Settles round a (n + 1) b

namespace Settles

/-- The result is one that a round does not change. -/
theorem fixed (settles : Settles round a n b) : round b = b := by
  induction settles with
  | idle same => exact same
  | busy _ _ ih => exact ih

/-- What every round keeps up holds in the end. -/
theorem keeps (settles : Settles round a n b) {motive : α → Prop} (start : motive a)
    (step : ∀ c, motive c → motive (round c)) : motive b := by
  induction settles with
  | idle => exact start
  | busy _ _ ih => exact ih (step _ start)

end Settles

/-- A round of steps that only add, one for each member of a list, changes nothing only if none of
its steps does. -/
theorem idle_of_foldl {β : Type} {step : α → β → α} {Below : α → α → Prop} (refl : ∀ a, Below a a)
    (trans : ∀ {a b c}, Below a b → Below b c → Below a c)
    (antisymm : ∀ {a b}, Below a b → Below b a → a = b) (adds : ∀ a x, Below a (step a x))
    {members : List β} (idle : members.foldl step a = a) {x : β} (member : x ∈ members) :
    step a x = a := by
  have below (members : List β) (a : α) : Below a (members.foldl step a) := by
    induction members generalizing a with
    | nil => exact refl a
    | cons y rest ih => exact trans (adds a y) (ih (step a y))
  induction members with
  | nil => cases member
  | cons y rest ih =>
    -- the rest of the round only adds to what the first step leaves
    have later : Below (step a y) a := by
      have whole := below rest (step a y)
      rwa [← List.foldl_cons, idle] at whole
    have same : step a y = a := antisymm later (adds a y)
    rcases List.mem_cons.mp member with rfl | member
    · exact same
    · rw [List.foldl_cons, same] at idle
      exact ih idle member

/-- A loop ends if its busy rounds add to a bounded measure, after no more rounds than there is to
add and an idle one. -/
theorem exists_settles {motive : α → Prop} (measure : α → Nat) {bound : Nat}
    (step : ∀ c, motive c → motive (round c))
    (grows : ∀ c, motive c → round c ≠ c → measure c < measure (round c))
    (bounded : ∀ c, motive c → measure c ≤ bound) (start : motive a) :
    ∃ n b, Settles round a n b ∧ n ≤ bound - measure a + 1 := by
  induction missing : bound - measure a using Nat.strongRecOn generalizing a with
  | ind missing ih =>
    by_cases same : round a = a
    · exact ⟨1, a, .idle same, Nat.le_add_left 1 _⟩
    · have less := grows a start same
      have most := bounded (round a) (step a start)
      obtain ⟨n, b, settles, count⟩ := ih (bound - measure (round a)) (by omega) (step a start) rfl
      exact ⟨n + 1, b, .busy same settles, by omega⟩

end ShiftReduce
