import ShiftReduce.Definition.Flattening
import ShiftReduce.Proofs.Definition.Interpretation

/-!
# Flattening keeps the meaning of expressions

The names that an expression is flattened to stand for what the expression denotes, in every grammar
that leaves the helpers made for it alone. Helpers have names that were not known before, so whatever
is flattened later does so.
-/
namespace ShiftReduce

theorem bind_eq_ok_iff {ε α β : Type} {x : Except ε α} {f : α → Except ε β} {b : β} :
    x >>= f = .ok b ↔ ∃ a, x = .ok a ∧ f a = .ok b := by
  cases x <;> simp [bind, Except.bind]

theorem map_eq_ok_iff {ε α β : Type} {x : Except ε α} {f : α → β} {b : β} :
    x.map f = .ok b ↔ ∃ a, x = .ok a ∧ f a = b := by
  cases x <;> simp [Except.map]

namespace Flattening

open Grammar

/-- What is declared is in the grammar, and the productions of helpers are the generated ones. -/
structure Ready (d : Declared) (s : Flattening) : Prop where
  built : s.grammar.Built
  unset : s.grammar.accept = none
  tokens : ∀ name ∈ d.tokens, s.grammar.Marks name .declared
  literals : ∀ name ∈ s.literals, s.grammar.Marks name .declared
  rules : ∀ name ∈ d.rules, s.grammar.Marks name .nonterminal
  generated : ∀ p ∈ s.grammar.productions, p.generated ↔ p.name ∉ d.rules

variable {d : Declared} {s s' s₁ s₂ s₃ : Flattening} {rule suffix name : String}
  {symbols names : List String} {bodies : List (List String)}

/-! ## Edits -/

theorem edit_eq_ok_iff {α : Type} {edit : Grammar → Edited α} {a : α} :
    s.edit edit = .ok (a, s') ↔ edit s.grammar = (.ok a, s'.grammar) ∧ s'.literals = s.literals := by
  unfold Flattening.edit
  rcases edit s.grammar with ⟨_ | value, g⟩
  · simp
  · cases s'
    simp [and_assoc, eq_comm]

theorem Ready.grow (ready : Ready d s) (built : s'.grammar.Built)
    (unset : s'.grammar.accept = s.grammar.accept) (grows : s.grammar.Grows s'.grammar)
    (literals : ∀ name ∈ s'.literals, name ∈ s.literals ∨ s'.grammar.Marks name .declared)
    (generated : ∀ p ∈ s'.grammar.productions, p ∈ s.grammar.productions ∨
      (p.generated ↔ p.name ∉ d.rules)) : Ready d s' where
  built := built
  unset := unset.trans ready.unset
  tokens name member := grows.marks (by decide) (ready.tokens name member)
  literals name member := by
    rcases literals name member with old | new
    · exact grows.marks (by decide) (ready.literals name old)
    · exact new
  rules name member := grows.marks (by decide) (ready.rules name member)
  generated p member := (generated p member).elim (ready.generated p) id

/-- One more production. -/
theorem Ready.append (ready : Ready d s) {generated : Bool} {index : Nat}
    (done : s.edit (·.append name symbols generated false) = .ok (index, s'))
    (role : generated ↔ name ∉ d.rules) :
    Ready d s' ∧ Gains name [symbols] s.grammar s'.grammar := by
  obtain ⟨done, literals⟩ := edit_eq_ok_iff.mp done
  have built : s'.grammar.Built := by
    have after : (s.grammar.append name symbols generated false).2 = s'.grammar :=
      congrArg Prod.snd done
    rw [← after]
    cases generated
    · exact .addAuthored name symbols ready.built
    · exact .addGenerated name symbols ready.built
  obtain ⟨h, keeps, ⟨e, same⟩ | ⟨lhs, rhs, -, -, -, same⟩⟩ :=
    ready.built.wellFormed.append_cases name symbols generated false
  · cases same.symm.trans done
  have grammar := congrArg Prod.snd (done.symm.trans same)
  dsimp only at grammar
  have productions : s'.grammar.productions =
      s.grammar.productions ++ [⟨h.productions.length, lhs, name, rhs, symbols, generated⟩] := by
    rw [grammar, ← keeps.productions]
    rfl
  have grows : s.grammar.Grows s'.grammar := by
    rw [grammar]
    exact keeps.grows.trans (.of_tables rfl rfl)
  refine ⟨ready.grow built (grammar ▸ keeps.accept) grows (fun n member => Or.inl (literals ▸ member))
    fun p member => ?_, grows, ?_, fun other _ ne => ?_⟩
  · rw [productions] at member
    rcases List.mem_append.mp member with old | new
    · exact Or.inl old
    · cases List.mem_singleton.mp new
      exact Or.inr role
  · simp [bodiesOf, productions]
  · simp [bodiesOf, productions, ne.symm]

theorem Ready.generateAll (ready : Ready d s) (unlisted : name ∉ d.rules)
    (done : s.generateAll name bodies = .ok s') :
    Ready d s' ∧ Gains name bodies s.grammar s'.grammar := by
  induction bodies generalizing s with
  | nil =>
    cases done
    exact ⟨ready, .refl name _⟩
  | cons symbols rest ih =>
    rw [Flattening.generateAll, List.foldlM_cons] at done
    obtain ⟨s₁, first, later⟩ := bind_eq_ok_iff.mp done
    obtain ⟨⟨index, _⟩, edited, rfl⟩ := map_eq_ok_iff.mp first
    obtain ⟨ready₁, gains⟩ := ready.append edited (by simpa using unlisted)
    obtain ⟨ready', others⟩ := ih ready₁ later
    exact ⟨ready', gains.trans others⟩

theorem generateAll_singleton (s : Flattening) (name : String) (symbols : List String) :
    s.generateAll name [symbols] = s.generate name symbols := by
  simp [Flattening.generateAll]

/-! ## Helpers -/

/-- A helper that is new, and has no productions yet. -/
structure Introduces (d : Declared) (name : String) (s s' : Flattening) : Prop where
  ready : Ready d s'
  grown : s.grammar.Extends s'.grammar
  new : ¬ s.grammar.Mentions name
  marks : s'.grammar.Marks name .nonterminal
  unlisted : name ∉ d.rules
  none : s'.grammar.bodiesOf name = []

theorem Ready.helper (ready : Ready d s) (named : s.helper rule suffix = .ok (name, s')) :
    Introduces d name s s' := by
  obtain ⟨⟨t, _⟩, edited, same⟩ := map_eq_ok_iff.mp named
  cases same
  obtain ⟨added, literals⟩ := edit_eq_ok_iff.mp edited
  have wf := ready.built.wellFormed
  obtain ⟨keeps, entry⟩ := wf.addNonterminal (s.grammar.unusedName (rule ++ "_" ++ suffix))
  have built := ready.built.addNonterminal (s.grammar.unusedName (rule ++ "_" ++ suffix))
  rw [added] at keeps entry built
  have new : ¬ s.grammar.Mentions (s.grammar.unusedName (rule ++ "_" ++ suffix)) := by
    intro known
    have fresh := s.grammar.knows_unusedName (rule ++ "_" ++ suffix)
    rw [wf.knows_iff.mpr known] at fresh
    cases fresh
  refine ⟨ready.grow built keeps.accept keeps.grows (fun n member => Or.inl (literals ▸ member))
    fun p member => Or.inl (keeps.productions ▸ member), ⟨keeps.grows, fun other _ => ?_⟩, new,
    ⟨t, entry t rfl⟩, ?_, ?_⟩
  · rw [bodiesOf, keeps.productions, bodiesOf]
  -- every rule has been declared
  · exact fun listed => new (ready.rules _ listed).mentions
  · rw [bodiesOf, keeps.productions]
    exact wf.bodiesOf_eq_nil new

/-- A helper that gets some productions and is left alone afterwards. -/
theorem Introduces.complete (introduces : Introduces d name s s₁)
    (filled : Gains name bodies s₁.grammar s₂.grammar) :
    s.grammar.Extends s₂.grammar ∧
      ∀ f, Settled s.grammar s₂.grammar f → Helper d.rules f name bodies := by
  refine ⟨introduces.grown.of_gains introduces.new filled, fun f settled => ?_⟩
  have marks := filled.grows.marks (by decide) introduces.marks
  refine ⟨settled.grows.marks (by decide) marks, introduces.unlisted, ?_⟩
  rw [settled.bodies name marks.mentions introduces.new, filled.own, introduces.none,
    List.nil_append]

/-! ## Names that stand for a language -/

/-- The names stand for a language that depends on what the rules stand for. -/
structure Faithful (d : Declared) (language : (String → Language String) → Language String)
    (s s' : Flattening) (names : List String) : Prop where
  ready : Ready d s'
  grown : s.grammar.Extends s'.grammar
  means : ∀ f ps ρ X, Interprets d.rules f ps ρ X → Settled s.grammar s'.grammar f →
    reading ps ρ names = language X

variable {language language' : (String → Language String) → Language String}

theorem Faithful.empty (ready : Ready d s) : Faithful d (fun _ => 1) s s [] :=
  ⟨ready, .refl _, fun _ _ _ _ _ _ => reading_nil⟩

theorem Faithful.append (first : Faithful d language s s₁ symbols)
    (second : Faithful d language' s₁ s₂ names) :
    Faithful d (fun ρ => language ρ * language' ρ) s s₂ (symbols ++ names) where
  ready := second.ready
  grown := first.grown.trans second.grown
  means f ps ρ X reads settled := by
    rw [reading_append, first.means f ps ρ X reads (settled.before second.grown),
      second.means f ps ρ X reads (settled.after first.grown.grows)]

theorem Faithful.declared (ready : Ready d s) (marks : s.grammar.Marks name .declared) :
    Faithful d (fun _ => {[name]}) s s [name] where
  ready := ready
  grown := .refl _
  means f ps ρ X reads settled :=
    reads.reading_terminal (settled.grows.marks (by decide) marks)

/-- Names with a helper made for what has been flattened before. -/
theorem Faithful.wrap (inner : Faithful d language s s₁ symbols)
    (named : s₁.helper rule suffix = .ok (name, s₂))
    (filled : s₂.generateAll name bodies = .ok s₃)
    (means : ∀ f ps ρ X, Interprets d.rules f ps ρ X → Helper d.rules f name bodies →
      reading ps ρ symbols = language X →
      reading ps ρ names = language' X) :
    Faithful d language' s s₃ names := by
  have introduces := inner.ready.helper named
  obtain ⟨ready₃, gains⟩ := introduces.ready.generateAll introduces.unlisted filled
  obtain ⟨grown, complete⟩ := introduces.complete gains
  refine ⟨ready₃, inner.grown.trans grown, fun f ps ρ X reads settled => ?_⟩
  exact means f ps ρ X reads (complete f (settled.after inner.grown.grows))
    (inner.means f ps ρ X reads (settled.before grown))

theorem Ready.literal (ready : Ready d s) {text : String}
    (done : s.literal d rule text = .ok (names, s')) : Faithful d (fun _ => {[text]}) s s' names := by
  unfold Flattening.literal at done
  split at done
  next => cases done
  next =>
    split at done
    next known =>
      cases done
      exact .declared ready (known.elim (ready.tokens text) (ready.literals text))
    next =>
      obtain ⟨⟨t, s₁⟩, edited, same⟩ := map_eq_ok_iff.mp done
      cases same
      obtain ⟨added, literals⟩ := edit_eq_ok_iff.mp edited
      have keeps := ready.built.wellFormed.addTerminal text
      have built := ready.built.addTerminal text
      have entry := entry?_addTerminal ready.built.wellFormed.aligned (congrArg Prod.fst added)
      rw [added] at keeps built entry
      have marks : s₁.grammar.Marks text .declared := ⟨t, entry⟩
      have grown : s.grammar.Extends s₁.grammar :=
        ⟨keeps.grows, fun other _ => by rw [bodiesOf, keeps.productions, bodiesOf]⟩
      refine ⟨ready.grow built keeps.accept keeps.grows (fun name member => ?_)
        fun p member => Or.inl (keeps.productions ▸ member), grown, fun f ps ρ X reads settled =>
        reads.reading_terminal (settled.grows.marks (by decide) marks)⟩
      rcases List.mem_append.mp member with old | new
      · exact Or.inl (literals ▸ old)
      · rw [List.mem_singleton.mp new]
        exact Or.inr marks

/-- A single name for what some symbols stand for. -/
theorem Faithful.grouped (inner : Faithful d language s s₁ symbols) {item : String}
    (done : s₁.grouped rule symbols = .ok (item, s₂)) : Faithful d language s s₂ [item] := by
  unfold Flattening.grouped at done
  split at done
  next =>
    cases done
    exact inner
  next =>
    obtain ⟨⟨group, _⟩, named, done⟩ := bind_eq_ok_iff.mp done
    obtain ⟨_, filled, done⟩ := bind_eq_ok_iff.mp done
    cases done
    rw [← generateAll_singleton] at filled
    refine inner.wrap named filled fun f ps ρ X reads helper same => ?_
    rw [reads.reading_helper helper]
    simpa using same

/-- Repetition of what a single name stands for. -/
theorem Faithful.repeated {item : String} (inner : Faithful d language s s₁ [item]) {min : Nat}
    {max : Option Nat} (ordered : ∀ m ∈ max, min ≤ m)
    (done : s₁.repeated rule item min max = .ok (names, s₂)) :
    Faithful d (fun ρ => Body.powers (language ρ) min max) s s₂ names := by
  unfold Flattening.repeated at done
  dsimp only at done
  split at done
  next exactly =>
    cases done
    refine ⟨inner.ready, inner.grown, fun f ps ρ X reads settled => ?_⟩
    rw [reading_replicate, exactly, Body.powers_self, inner.means f ps ρ X reads settled]
  next =>
    obtain ⟨⟨more, _⟩, named, done⟩ := bind_eq_ok_iff.mp done
    obtain ⟨_, filled, done⟩ := bind_eq_ok_iff.mp done
    cases done
    refine inner.wrap named filled fun f ps ρ X reads helper same => ?_
    rw [reading_append, reading_replicate, same]
    cases max with
    | none => rw [reads.reading_star helper, same, Body.powers_none]
    | some max =>
      rw [reads.reading_helper helper, Body.powers_some _ (ordered max rfl), List.map_map]
      simp [Function.comp_def, reading_replicate, same]

theorem Faithful.counted (inner : Faithful d language s s₁ symbols) {min : Nat} {max : Option Nat}
    (ordered : ∀ m ∈ max, min ≤ m) (done : s₁.counted rule symbols min max = .ok (names, s₂)) :
    Faithful d (fun ρ => Body.powers (language ρ) min max) s s₂ names := by
  unfold Flattening.counted at done
  split at done
  next none =>
    cases done
    subst none
    refine ⟨inner.ready, inner.grown, fun f ps ρ X reads settled => ?_⟩
    rw [← inner.means f ps ρ X reads settled, reading_nil, Body.powers_one ordered]
  next =>
    obtain ⟨⟨item, s₃⟩, grouped, done⟩ := bind_eq_ok_iff.mp done
    exact (inner.grouped grouped).repeated ordered done

/-! ## Alternatives -/

/-- The bodies that `name` gets stand for some alternatives. -/
structure FaithfulAny (d : Declared) (name : String) (alternatives : List Body)
    (s s' : Flattening) (bodies : List (List String)) : Prop where
  ready : Ready d s'
  gains : Gains name bodies s.grammar s'.grammar
  means : ∀ f ps ρ X, Interprets d.rules f ps ρ X → Settled s.grammar s'.grammar f →
    (bodies.map (reading ps ρ)).sum = Body.languageOfAny X alternatives

theorem FaithfulAny.nil (ready : Ready d s) (name : String) : FaithfulAny d name [] s s [] :=
  ⟨ready, .refl name _, fun _ _ _ _ _ _ => rfl⟩

theorem FaithfulAny.cons {e : Body} {rest : List Body} (known : s.grammar.Mentions name)
    (first : Faithful d e.language s s₁ symbols) (added : Gains name [symbols] s₁.grammar s₂.grammar)
    (later : FaithfulAny d name rest s₂ s₃ bodies) :
    FaithfulAny d name (e :: rest) s s₃ (symbols :: bodies) where
  ready := later.ready
  gains := first.grown.gains known (added.trans later.gains)
  means f ps ρ X reads settled := by
    have grows := first.grown.grows.trans added.grows
    rw [List.map_cons, List.sum_cons, Body.languageOfAny,
      first.means f ps ρ X reads (settled.before_gains (added.trans later.gains) known),
      later.means f ps ρ X reads (settled.after grows)]

/-! ## Expressions -/

variable {alternatives : List Body}

/-- What flattening has to do for an expression, wherever it occurs. -/
def Flattens (d : Declared) (rule : String) (e : Body) : Prop :=
  ∀ s names s', Ready d s → s.flatten d rule e = .ok (names, s') → Faithful d e.language s s' names

theorem flattenSeq_faithful {items : List Body} (each : ∀ e ∈ items, Flattens d rule e)
    (ready : Ready d s) (done : s.flattenSeq d rule items = .ok (names, s')) :
    Faithful d (fun ρ => Body.languageOfAll ρ items) s s' names := by
  induction items generalizing s names with
  | nil =>
    cases done
    exact .empty ready
  | cons e rest ih =>
    obtain ⟨here, others⟩ := List.forall_mem_cons.mp each
    rw [flattenSeq] at done
    obtain ⟨⟨symbols, s₁⟩, first, done⟩ := bind_eq_ok_iff.mp done
    obtain ⟨⟨more, s₂⟩, later, done⟩ := bind_eq_ok_iff.mp done
    cases done
    have front := here s symbols s₁ ready first
    exact front.append (ih others front.ready later)

theorem flattenAlternatives_faithful (each : ∀ e ∈ alternatives, Flattens d rule e)
    (ready : Ready d s) (known : s.grammar.Mentions name) (unlisted : name ∉ d.rules)
    (done : s.flattenAlternatives d rule name alternatives = .ok s') :
    ∃ bodies, FaithfulAny d name alternatives s s' bodies := by
  induction alternatives generalizing s with
  | nil =>
    cases done
    exact ⟨[], .nil ready name⟩
  | cons e rest ih =>
    obtain ⟨here, others⟩ := List.forall_mem_cons.mp each
    rw [flattenAlternatives] at done
    obtain ⟨⟨symbols, s₁⟩, first, done⟩ := bind_eq_ok_iff.mp done
    obtain ⟨s₂, added, later⟩ := bind_eq_ok_iff.mp done
    have front := here s symbols s₁ ready first
    obtain ⟨⟨index, _⟩, edited, rfl⟩ := map_eq_ok_iff.mp added
    obtain ⟨ready₂, gains⟩ := front.ready.append edited (by simpa using unlisted)
    have known₂ := gains.grows.mentions (front.grown.grows.mentions known)
    obtain ⟨bodies, faithful⟩ := ih others ready₂ known₂ later
    exact ⟨_, .cons known front gains faithful⟩

theorem flatten_choice (s : Flattening) (d : Declared) (rule : String) (first second : Body)
    (rest : List Body) : s.flatten d rule (.choice (first :: second :: rest)) = (do
      let (name, s) ← s.helper rule "alternation"
      let s ← s.flattenAlternatives d rule name (first :: second :: rest)
      return ([name], s)) := by
  rw [flatten] <;> simp

theorem flattens (d : Declared) (rule : String) (e : Body) : Flattens d rule e := by
  refine Body.induct e ?empty ?literal ?token ?rule ?seq ?choice ?opt ?counted
  case empty =>
    intro s names s' ready done
    rw [flatten] at done
    cases done
    exact .empty ready
  case literal =>
    intro text s names s' ready done
    rw [flatten] at done
    exact ready.literal done
  case token =>
    intro name s names s' ready done
    rw [flatten] at done
    split at done
    next listed =>
      cases done
      exact .declared ready (ready.tokens name listed)
    next => cases done
  case rule =>
    intro name s names s' ready done
    rw [flatten] at done
    split at done
    next listed =>
      cases done
      refine ⟨ready, .refl _, fun f ps ρ X reads _ => ?_⟩
      rw [reads.rule name listed, Body.language]
    next => cases done
  case seq =>
    intro items each s names s' ready done
    rw [flatten] at done
    exact flattenSeq_faithful each ready done
  case choice =>
    intro alternatives each s names s' ready done
    rcases alternatives with _ | ⟨first, _ | ⟨second, rest⟩⟩
    case nil =>
      rw [flatten] at done
      cases done
      exact .empty ready
    case cons.nil =>
      rw [flatten] at done
      have faithful := each first (by simp) s names s' ready done
      refine ⟨faithful.ready, faithful.grown, fun f ps ρ X reads settled => ?_⟩
      rw [faithful.means f ps ρ X reads settled, Body.language_choice]
      simp [Body.languageOfAny]
    case cons.cons =>
      rw [flatten_choice] at done
      obtain ⟨⟨name, s₁⟩, named, done⟩ := bind_eq_ok_iff.mp done
      obtain ⟨s₂, filled, done⟩ := bind_eq_ok_iff.mp done
      cases done
      have introduces := ready.helper named
      obtain ⟨bodies, faithful⟩ := flattenAlternatives_faithful each introduces.ready
        introduces.marks.mentions introduces.unlisted filled
      obtain ⟨grown, complete⟩ := introduces.complete faithful.gains
      refine ⟨faithful.ready, grown, fun f ps ρ X reads settled => ?_⟩
      rw [reads.reading_helper (complete f settled), Body.language_choice]
      exact faithful.means f ps ρ X reads (settled.after introduces.grown.grows)
  case opt =>
    intro e here s names s' ready done
    rw [flatten] at done
    obtain ⟨⟨symbols, s₁⟩, first, done⟩ := bind_eq_ok_iff.mp done
    obtain ⟨⟨name, s₂⟩, named, done⟩ := bind_eq_ok_iff.mp done
    obtain ⟨s₃, filled, done⟩ := bind_eq_ok_iff.mp done
    cases done
    refine (here s symbols s₁ ready first).wrap named filled fun f ps ρ X reads helper same => ?_
    rw [reads.reading_helper helper, Body.language]
    simp [same]
  case counted =>
    intro e min max here s names s' ready done
    rw [flatten] at done
    split at done
    next => cases done
    next ordered =>
      obtain ⟨⟨symbols, s₁⟩, first, done⟩ := bind_eq_ok_iff.mp done
      have ordered : ∀ m ∈ max, min ≤ m := by
        rintro m ⟨⟩
        simpa using ordered
      have faithful := (here s symbols s₁ ready first).counted ordered done
      refine ⟨faithful.ready, faithful.grown, fun f ps ρ X reads settled => ?_⟩
      rw [faithful.means f ps ρ X reads settled, Body.language]

end Flattening

end ShiftReduce
