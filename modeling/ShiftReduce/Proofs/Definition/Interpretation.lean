import ShiftReduce.Proofs.Definition.Language
import ShiftReduce.Proofs.Grammar.Unfolding

/-!
# Reading the names of a flattened grammar

While rules are flattened the grammar only gets larger, and a complete helper gets no more
productions. So what a helper stands for in the finished grammar can be said as soon as it is
complete, whatever the rules stand for.
-/
namespace ShiftReduce

namespace Grammar

variable {g h k f : Grammar} {name other : String}

/-- The right-hand sides of the productions of `name`, in order. -/
def bodiesOf (g : Grammar) (name : String) : List (List String) :=
  (g.productions.filter (·.name = name)).map (·.rhsNames)

theorem mem_bodiesOf {body : List String} :
    body ∈ g.bodiesOf name ↔ ∃ p ∈ g.productions, p.name = name ∧ p.rhsNames = body := by
  simp [bodiesOf, and_assoc]

/-- A name that nobody mentions has no productions. -/
theorem WellFormed.bodiesOf_eq_nil (wf : g.WellFormed) (unknown : ¬ g.Mentions name) :
    g.bodiesOf name = [] := by
  rw [List.eq_nil_iff_forall_not_mem]
  intro body member
  obtain ⟨p, listed, rfl, -⟩ := mem_bodiesOf.mp member
  exact unknown (wf.marks_of_mem listed).mentions

/-! ## Growing grammars -/

/-- The names of `g` have the same productions in `h`. -/
structure Extends (g h : Grammar) : Prop where
  grows : g.Grows h
  bodies : ∀ name, g.Mentions name → h.bodiesOf name = g.bodiesOf name

/-- The same, but `name` gets some more productions. -/
structure Gains (name : String) (bodies : List (List String)) (g h : Grammar) : Prop where
  grows : g.Grows h
  own : h.bodiesOf name = g.bodiesOf name ++ bodies
  others : ∀ other, g.Mentions other → other ≠ name → h.bodiesOf other = g.bodiesOf other

theorem Extends.refl (g : Grammar) : g.Extends g := ⟨.refl g, fun _ _ => rfl⟩

theorem Extends.trans (first : g.Extends h) (second : h.Extends k) : g.Extends k where
  grows := first.grows.trans second.grows
  bodies name known :=
    (second.bodies name (first.grows.mentions known)).trans (first.bodies name known)

theorem Gains.refl (name : String) (g : Grammar) : Gains name [] g g :=
  ⟨.refl g, (List.append_nil _).symm, fun _ _ _ => rfl⟩

theorem Gains.trans {bodies more : List (List String)} (first : Gains name bodies g h)
    (second : Gains name more h k) : Gains name (bodies ++ more) g k where
  grows := first.grows.trans second.grows
  own := by rw [second.own, first.own, List.append_assoc]
  others other known ne :=
    (second.others other (first.grows.mentions known) ne).trans (first.others other known ne)

theorem Extends.gains (first : g.Extends h) (known : g.Mentions name) {bodies : List (List String)}
    (second : Gains name bodies h k) : Gains name bodies g k where
  grows := first.grows.trans second.grows
  own := by rw [second.own, first.bodies name known]
  others other known ne :=
    (second.others other (first.grows.mentions known) ne).trans (first.bodies other known)

/-- Nothing is known of a new name. -/
theorem Extends.of_gains (first : g.Extends h) (new : ¬ g.Mentions name)
    {bodies : List (List String)} (second : Gains name bodies h k) : g.Extends k where
  grows := first.grows.trans second.grows
  bodies other known := by
    have ne : other ≠ name := by
      rintro rfl
      exact new known
    rw [second.others other (first.grows.mentions known) ne, first.bodies other known]

/-- In the finished grammar `f` the names that `h` has and `g` has not got are complete. -/
structure Settled (g h f : Grammar) : Prop where
  grows : h.Grows f
  bodies : ∀ name, h.Mentions name → ¬ g.Mentions name → f.bodiesOf name = h.bodiesOf name

theorem Settled.after (settled : Settled g k f) (grows : g.Grows h) : Settled h k f where
  grows := settled.grows
  bodies name known new := settled.bodies name known (mt grows.mentions new)

theorem Settled.before (settled : Settled g k f) (later : h.Extends k) : Settled g h f where
  grows := later.grows.trans settled.grows
  bodies name known new :=
    (settled.bodies name (later.grows.mentions known) new).trans (later.bodies name known)

theorem Settled.before_gains (settled : Settled g k f) {bodies : List (List String)}
    (later : Gains name bodies h k) (old : g.Mentions name) : Settled g h f where
  grows := later.grows.trans settled.grows
  bodies other known new := by
    have ne : other ≠ name := by
      rintro rfl
      exact new old
    exact (settled.bodies other (later.grows.mentions known) new).trans (later.others other known ne)

/-! ## Interpretations -/

/-- A way to read the names of the grammar `f` in which the rules stand for `X`: terminals are
themselves, and what is no rule is read by all of its productions. -/
structure Interprets (rules : List String) (f : Grammar) (ps : List Production)
    (ρ X : String → Language String) : Prop where
  wellFormed : f.WellFormed
  listed : ps ⊆ f.productions
  complete : ∀ p ∈ f.productions, p.name ∉ rules → p ∈ ps
  terminal : ∀ name, f.Marks name .declared → ρ name = {[name]}
  helper : ∀ name, f.Marks name .nonterminal → name ∉ rules → ρ name = 0
  rule : ∀ name ∈ rules, reading ps ρ [name] = X name

/-- A complete helper and its productions. -/
structure Helper (rules : List String) (f : Grammar) (name : String) (bodies : List (List String)) :
    Prop where
  marks : f.Marks name .nonterminal
  unlisted : name ∉ rules
  bodies : f.bodiesOf name = bodies

namespace Interprets

variable {rules : List String} {ps : List Production} {ρ X : String → Language String}
  (reads : Interprets rules f ps ρ X) {bodies : List (List String)} {item : String}

include reads

theorem reading_terminal (declared : f.Marks name .declared) : reading ps ρ [name] = {[name]} := by
  ext word
  rw [mem_reading_singleton, reads.terminal name declared]
  constructor
  · rintro (own | ⟨p, member, rfl, -⟩)
    · exact own
    -- a terminal has no productions
    · have kinds := declared.unique reads.wellFormed
        (reads.wellFormed.marks_of_mem (reads.listed member))
      cases kinds
  · exact Or.inl

theorem mem_reading_helper (helper : Helper rules f name bodies) {word : List String} :
    word ∈ reading ps ρ [name] ↔ ∃ body ∈ bodies, word ∈ reading ps ρ body := by
  rw [mem_reading_singleton, reads.helper name helper.marks helper.unlisted, ← helper.bodies]
  constructor
  · rintro (none | ⟨p, member, same, inner⟩)
    · exact absurd none (Language.notMem_zero word)
    · exact ⟨_, mem_bodiesOf.mpr ⟨p, reads.listed member, same, rfl⟩, inner⟩
  · rintro ⟨body, member, inner⟩
    obtain ⟨p, listed, rfl, rfl⟩ := mem_bodiesOf.mp member
    exact Or.inr ⟨p, reads.complete p listed helper.unlisted, rfl, inner⟩

theorem reading_helper (helper : Helper rules f name bodies) :
    reading ps ρ [name] = (bodies.map (reading ps ρ)).sum := by
  ext word
  rw [reads.mem_reading_helper helper, Body.mem_sum]
  simp

/-- A helper that is an item and itself again, or nothing, stands for any number of items. -/
theorem reading_star (helper : Helper rules f name [[item, name], []]) :
    reading ps ρ [name] = KStar.kstar (reading ps ρ [item]) := by
  have unrolled : reading ps ρ [name] =
      reading ps ρ [item] * reading ps ρ [name] + 1 := by
    refine (reads.reading_helper helper).trans ?_
    simp only [List.map_cons, List.map_nil, List.sum_cons, List.sum_nil, reading_nil, add_zero,
      reading_cons item [name]]
  apply le_antisymm
  · intro word unfolds
    have unlisted := reads.helper name helper.marks helper.unlisted
    -- by induction on the unfolding: whatever is in front, the helper gives items behind it
    have behind {names word : List String} (unfolds : Unfolds ps ρ names word) (front : List String)
        (same : names = front ++ [name]) :
        word ∈ reading ps ρ front * KStar.kstar (reading ps ρ [item]) := by
      induction unfolds generalizing front with
      | nil => simp at same
      | @keep first names u v own rest ih =>
        rcases front with _ | ⟨_, front⟩
        · cases same
          rw [unlisted] at own
          exact absurd own (Language.notMem_zero u)
        · cases same
          obtain ⟨x, inFront, y, items, rfl⟩ := Language.mem_mul.mp (ih front rfl)
          rw [← List.append_assoc]
          exact Language.append_mem_mul (.keep own inFront) items
      | @expand p names u v member inner rest ihInner ih =>
        rcases front with _ | ⟨_, front⟩
        · obtain ⟨lhs, rfl⟩ := List.cons_eq_cons.mp same
          cases rest
          have listed : p.rhsNames ∈ f.bodiesOf name :=
            mem_bodiesOf.mpr ⟨p, reads.listed member, lhs, rfl⟩
          rw [helper.bodies, List.mem_cons, List.mem_singleton] at listed
          rw [reading_nil, one_mul, List.append_nil]
          rcases listed with again | none
          · have items : reading ps ρ [item] * KStar.kstar (reading ps ρ [item]) ≤
                KStar.kstar (reading ps ρ [item]) := mul_kstar_le_kstar
            exact items (ihInner [item] again)
          · rw [none] at inner
            cases inner
            exact Language.nil_mem_kstar _
        · cases same
          obtain ⟨x, inFront, y, items, rfl⟩ := Language.mem_mul.mp (ih front rfl)
          rw [← List.append_assoc]
          exact Language.append_mem_mul (.expand member inner inFront) items
    have whole := behind unfolds [] rfl
    rwa [reading_nil, one_mul] at whole
  · apply kstar_le_of_mul_le_right
    · exact unrolled ▸ le_add_self
    · nth_rewrite 2 [unrolled]
      exact le_self_add

end Interprets

end Grammar

end ShiftReduce
