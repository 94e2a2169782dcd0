import ShiftReduce.Proofs.Definition.Flattening
import ShiftReduce.Proofs.Definition.WellFormed
import ShiftReduce.Proofs.Grammar.Freshness
import ShiftReduce.Proofs.Grammar.Kinds

/-!
# What flattening accepts

Flattening refuses an expression for what is wrong in it, and for little else: making helpers and
adding productions always succeeds. Only a literal can still meet the name of a helper that was made
before it.
-/
namespace ShiftReduce

theorem Grammar.unusedName_cases (g : Grammar) (base : String) :
    g.unusedName base = base ∨ ∃ n : Nat, g.unusedName base = base ++ toString (n + 1) := by
  unfold unusedName
  split
  next =>
    obtain ⟨n, same, ⟨positive, -⟩, -⟩ := g.exists_firstFree (numbered_injective base) base
    exact Or.inr ⟨n - 1, by rw [Nat.sub_add_cancel positive]; exact same⟩
  next => exact Or.inl rfl

namespace Flattening

open Grammar

variable {d : Declared} {s s' s₁ s₂ : Flattening} {rule suffix name : String}
  {symbols : List String} {bodies : List (List String)}

/-- All nonterminals are rules or helpers, the literals that were added are terminals of their own,
and there is no start yet. -/
structure Tidy (d : Declared) (s : Flattening) : Prop extends Ready d s where
  unchosen : s.grammar.start = none
  invented : ∀ name, s.grammar.Marks name .nonterminal → name ∈ d.rules ∨ d.Invents name
  distinct : s.literals.Nodup
  apart : ∀ text ∈ s.literals, text ≠ "" ∧ text ∉ d.tokens ∧ text ≠ endName

/-- Flattening has gone on from one state to another. -/
structure Advances (d : Declared) (s s' : Flattening) : Prop where
  tidy : Tidy d s'
  grows : s.grammar.Grows s'.grammar

theorem Advances.refl (tidy : Tidy d s) : Advances d s s := ⟨tidy, .refl _⟩

theorem Advances.trans (first : Advances d s s₁) (second : Advances d s₁ s₂) : Advances d s s₂ :=
  ⟨second.tidy, first.grows.trans second.grows⟩

/-- The reserved name is no rule. -/
theorem Ready.endName_not_mem (ready : Ready d s) : endName ∉ d.rules := by
  intro listed
  cases Marks.unique ready.built.wellFormed ready.built.wellFormed.marks_endName
    (ready.rules _ listed)

/-- What an edit has to leave, if all is to stay tidy: it chooses no start, and it makes no
nonterminals but rules and helpers. -/
theorem Tidy.edited {α : Type} {edited : Edited α} {a : α} {after : Grammar} (tidy : Tidy d s)
    (done : edited = (.ok a, after)) (start : edited.2.start = s.grammar.start)
    (marks : ∀ name, edited.2.Marks name .nonterminal →
      s.grammar.Marks name .nonterminal ∨ name ∈ d.rules ∨ d.Invents name) :
    after.start = none ∧ ∀ name, after.Marks name .nonterminal → name ∈ d.rules ∨ d.Invents name := by
  subst done
  refine ⟨start.trans tidy.unchosen, fun name known => ?_⟩
  rcases marks name known with old | new
  · exact tidy.invented name old
  · exact new

/-! ## What always succeeds -/

theorem Tidy.append (tidy : Tidy d s) (marks : s.grammar.Marks name .nonterminal)
    (proper : endName ∉ symbols) (generated : Bool) (role : generated ↔ name ∉ d.rules) :
    ∃ index s', s.edit (·.append name symbols generated false) = .ok (index, s') ∧
      Advances d s s' := by
  have wf := tidy.built.wellFormed
  have undeclared : ¬ s.grammar.Marks name .declared := by
    intro declared
    cases Marks.unique wf marks declared
  have accepted := (wf.isOk_append name symbols generated false).mpr ⟨undeclared, Or.inr proper⟩
  cases added : s.grammar.append name symbols generated false with
  | mk result after =>
    cases result with
    | error e => simp [added, Except.isOk, Except.toBool] at accepted
    | ok index =>
      have done : s.edit (·.append name symbols generated false) =
          .ok (index, { s with grammar := after }) := by
        rw [edit_eq_ok_iff]
        exact ⟨added, rfl⟩
      obtain ⟨ready, gains⟩ := tidy.toReady.append done role
      have start := (wf.enlarges_append name symbols generated).start
      obtain ⟨unchosen, invented⟩ := tidy.edited added start fun other known => by
        rcases marks_append wf known with old | ⟨rfl, -⟩ | implicit
        · exact Or.inl old
        · exact Or.inl marks
        · cases implicit
      exact ⟨index, _, done, ⟨ready, unchosen, invented, tidy.distinct, tidy.apart⟩, gains.grows⟩

theorem Tidy.generate (tidy : Tidy d s) (marks : s.grammar.Marks name .nonterminal)
    (unlisted : name ∉ d.rules) (proper : endName ∉ symbols) :
    ∃ s', s.generate name symbols = .ok s' ∧ Advances d s s' := by
  obtain ⟨index, s', done, advances⟩ := tidy.append marks proper true
    (by simpa using unlisted)
  exact ⟨s', map_eq_ok_iff.mpr ⟨(index, s'), done, rfl⟩, advances⟩

theorem Tidy.generateAll (tidy : Tidy d s) (marks : s.grammar.Marks name .nonterminal)
    (unlisted : name ∉ d.rules) (proper : ∀ symbols ∈ bodies, endName ∉ symbols) :
    ∃ s', s.generateAll name bodies = .ok s' ∧ Advances d s s' := by
  induction bodies generalizing s with
  | nil => exact ⟨s, rfl, .refl tidy⟩
  | cons symbols rest ih =>
    obtain ⟨here, others⟩ := List.forall_mem_cons.mp proper
    obtain ⟨s₁, first, advances⟩ := tidy.generate marks unlisted here
    obtain ⟨s₂, later, more⟩ :=
      ih advances.tidy (advances.grows.marks (by decide) marks) others
    refine ⟨s₂, ?_, advances.trans more⟩
    rw [Flattening.generateAll, List.foldlM_cons]
    exact bind_eq_ok_iff.mpr ⟨s₁, first, later⟩

/-- A helper can always be made. -/
theorem Tidy.helper (tidy : Tidy d s) (listed : rule ∈ d.rules)
    (ending : suffix ∈ Declared.suffixes) :
    ∃ name s', s.helper rule suffix = .ok (name, s') ∧ Advances d s s' ∧
      s'.grammar.Marks name .nonterminal ∧ name ∉ d.rules ∧ name ≠ endName := by
  have wf := tidy.built.wellFormed
  have unknown := s.grammar.knows_unusedName (rule ++ "_" ++ suffix)
  obtain ⟨declared, -⟩ | ⟨-, t, after, added, -⟩ :=
    wf.addNonterminal_cases (s.grammar.unusedName (rule ++ "_" ++ suffix))
  · exact absurd declared (not_marks_of_unknown (by simpa [knows] using unknown))
  have done : s.helper rule suffix =
      .ok (s.grammar.unusedName (rule ++ "_" ++ suffix), { s with grammar := after }) := by
    unfold Flattening.helper
    dsimp only
    rw [map_eq_ok_iff]
    exact ⟨(t, { s with grammar := after }), edit_eq_ok_iff.mpr ⟨added, rfl⟩, rfl⟩
  have introduces := tidy.toReady.helper done
  have start := (wf.addNonterminal (s.grammar.unusedName (rule ++ "_" ++ suffix))).1.start
  obtain ⟨unchosen, invented⟩ := tidy.edited added start fun other known => by
    rcases marks_addNonterminal wf.aligned known with old | ⟨rfl, -⟩
    · exact Or.inl old
    · exact Or.inr (Or.inr ⟨rule, listed, suffix, ending, s.grammar.unusedName_cases _⟩)
  have ne : s.grammar.unusedName (rule ++ "_" ++ suffix) ≠ endName := by
    intro same
    exact introduces.new (same ▸ wf.marks_endName.mentions)
  exact ⟨_, _, done, ⟨⟨introduces.ready, unchosen, invented, tidy.distinct, tidy.apart⟩,
    introduces.grown.grows⟩, introduces.marks, introduces.unlisted, ne⟩

theorem Tidy.grouped (tidy : Tidy d s) (listed : rule ∈ d.rules) (proper : endName ∉ symbols) :
    ∃ item s', s.grouped rule symbols = .ok (item, s') ∧ Advances d s s' ∧ item ≠ endName := by
  unfold Flattening.grouped
  split
  next single => exact ⟨single, s, rfl, .refl tidy, by simpa using Ne.symm (by simpa using proper)⟩
  next =>
    obtain ⟨group, s₁, named, advances, marks, unlisted, ne⟩ :=
      tidy.helper listed (show "group" ∈ Declared.suffixes by decide)
    obtain ⟨s₂, filled, more⟩ := advances.tidy.generate marks unlisted proper
    refine ⟨group, s₂, ?_, advances.trans more, ne⟩
    exact bind_eq_ok_iff.mpr ⟨_, named, bind_eq_ok_iff.mpr ⟨s₂, filled, rfl⟩⟩

theorem Tidy.repeated (tidy : Tidy d s) (listed : rule ∈ d.rules) {item : String}
    (ne : item ≠ endName) (min : Nat) (max : Option Nat) :
    ∃ names s', s.repeated rule item min max = .ok (names, s') ∧ Advances d s s' ∧
      endName ∉ names := by
  have copies (n : Nat) : endName ∉ List.replicate n item := by
    intro member
    exact ne (List.eq_of_mem_replicate member).symm
  unfold Flattening.repeated
  dsimp only
  split
  next => exact ⟨_, s, rfl, .refl tidy, copies min⟩
  next =>
    obtain ⟨more, s₁, named, advances, marks, unlisted, other⟩ :=
      tidy.helper listed (show "repeat" ∈ Declared.suffixes by decide)
    have free : endName ∉ List.replicate min item ++ [more] := by
      simpa [copies min] using other.symm
    cases max with
    | none =>
      have proper : ∀ symbols ∈ [[item, more], []], endName ∉ symbols := by
        simp [ne.symm, other.symm]
      obtain ⟨s₂, filled, later⟩ := advances.tidy.generateAll marks unlisted proper
      refine ⟨_, s₂, ?_, advances.trans later, free⟩
      exact bind_eq_ok_iff.mpr ⟨_, named, bind_eq_ok_iff.mpr ⟨s₂, filled, rfl⟩⟩
    | some max =>
      have proper : ∀ symbols ∈ (List.range (max - min + 1)).map (List.replicate · item),
          endName ∉ symbols := by
        intro symbols member
        obtain ⟨n, -, rfl⟩ := List.mem_map.mp member
        exact copies n
      obtain ⟨s₂, filled, later⟩ := advances.tidy.generateAll marks unlisted proper
      refine ⟨_, s₂, ?_, advances.trans later, free⟩
      exact bind_eq_ok_iff.mpr ⟨_, named, bind_eq_ok_iff.mpr ⟨s₂, filled, rfl⟩⟩

theorem Tidy.counted (tidy : Tidy d s) (listed : rule ∈ d.rules) (proper : endName ∉ symbols)
    (min : Nat) (max : Option Nat) :
    ∃ names s', s.counted rule symbols min max = .ok (names, s') ∧ Advances d s s' ∧
      endName ∉ names := by
  unfold Flattening.counted
  split
  next => exact ⟨[], s, rfl, .refl tidy, by simp⟩
  next =>
    obtain ⟨item, s₁, grouped, advances, ne⟩ := tidy.grouped listed proper
    obtain ⟨names, s₂, repeated, more, free⟩ := advances.tidy.repeated listed ne min max
    refine ⟨names, s₂, ?_, advances.trans more, free⟩
    exact bind_eq_ok_iff.mpr ⟨_, grouped, repeated⟩

/-! ## What can be refused -/

/-- What becomes of `parts`: they are accepted, or one of them is wrong, or one is a literal with the
name of a helper. -/
inductive Verdict (d : Declared) (parts : List Body) {α : Type} (good : α → Prop) :
    Except Fault α → Prop
  | accepted {a : α} (all : ∀ e ∈ parts, d.Accepts e) (holds : good a) :
      Verdict d parts good (.ok a)
  | refused {fault : Fault} {e : Body} (part : e ∈ parts) (wrong : ¬ d.Accepts e) :
      Verdict d parts good (.error fault)
  | taken {text : String} (part : .literal text ∈ parts) (foreign : text ∉ d.tokens)
      (invented : d.Invents text) : Verdict d parts good (.error (.nameConflict text))

namespace Verdict

variable {α β : Type} {parts more : List Body} {good : α → Prop} {better : β → Prop}
  {x : Except Fault α}

theorem bind {f : α → Except Fault β} (first : Verdict d parts good x)
    (later : ∀ a, good a → Verdict d more better (f a)) :
    Verdict d (parts ++ more) better (x >>= f) := by
  cases first with
  | @accepted a all holds =>
    have second := later a holds
    change Verdict d (parts ++ more) better (f a)
    generalize f a = y at second ⊢
    cases second with
    | accepted others fine =>
      exact .accepted (List.forall_mem_append.mpr ⟨all, others⟩) fine
    | refused part wrong => exact .refused (List.mem_append_right _ part) wrong
    | taken part foreign invented => exact .taken (List.mem_append_right _ part) foreign invented
  | refused part wrong => exact .refused (List.mem_append_left _ part) wrong
  | taken part foreign invented => exact .taken (List.mem_append_left _ part) foreign invented

/-- What follows without anything to refuse. -/
theorem finish {f : α → Except Fault β} (first : Verdict d parts good x)
    (later : ∀ a, good a → ∃ b, f a = .ok b ∧ better b) : Verdict d parts better (x >>= f) := by
  have whole : Verdict d (parts ++ []) better (x >>= f) := first.bind fun a holds => by
    obtain ⟨b, done, fine⟩ := later a holds
    rw [done]
    exact .accepted (by simp) fine
  simpa using whole

/-- One more part that is accepted. -/
theorem cons {e : Body} (fine : d.Accepts e) (verdict : Verdict d parts good x) :
    Verdict d (e :: parts) good x := by
  cases verdict with
  | accepted all holds => exact .accepted (List.forall_mem_cons.mpr ⟨fine, all⟩) holds
  | refused part wrong => exact .refused (List.mem_cons_of_mem _ part) wrong
  | taken part foreign invented => exact .taken (List.mem_cons_of_mem _ part) foreign invented

theorem mono {other : α → Prop} (verdict : Verdict d parts good x) (le : ∀ a, good a → other a) :
    Verdict d parts other x := by
  cases verdict with
  | accepted all holds => exact .accepted all (le _ holds)
  | refused part wrong => exact .refused part wrong
  | taken part foreign invented => exact .taken part foreign invented

end Verdict

/-- The symbols that something is flattened to, and the state afterwards. -/
def Yields (d : Declared) (s : Flattening) (result : List String × Flattening) : Prop :=
  endName ∉ result.1 ∧ Advances d s result.2

theorem Tidy.literal (tidy : Tidy d s) (proper : endName ∉ d.tokens) (text : String) :
    Verdict d [.literal text] (Yields d s) (s.literal d rule text) := by
  have wf := tidy.built.wellFormed
  by_cases empty : text = ""
  · have done : s.literal d rule text = .error (.emptyPattern rule) := by
      simp [Flattening.literal, empty]
    rw [done]
    exact .refused (List.mem_singleton.mpr rfl) fun accepts => accepts.1 empty
  by_cases known : text ∈ d.tokens ∨ text ∈ s.literals
  · have done : s.literal d rule text = .ok ([text], s) := by
      simp [Flattening.literal, empty, known]
    have accepts : d.Accepts (.literal text) := by
      refine ⟨empty, known.imp_right fun added => ⟨(tidy.apart text added).2.2, fun listed => ?_⟩⟩
      cases Marks.unique wf (tidy.literals text added) (tidy.rules text listed)
    have ne : endName ≠ text := by
      rintro rfl
      exact known.elim proper fun added => (tidy.apart _ added).2.2 rfl
    rw [done]
    exact .accepted (by simpa using accepts) ⟨by simpa using ne, .refl tidy⟩
  have unknown := not_or.mp known
  -- the literal is new, and has to be made a terminal
  obtain ⟨reserved, refused⟩ | ⟨marks, refused⟩ | ⟨ne, free, t, after, added⟩ :=
    wf.addTerminal_cases text
  · have done : s.literal d rule text = .error (.reservedName text) := by
      simp [Flattening.literal, Flattening.edit, Except.map, empty, known, refused]
    rw [done]
    refine .refused (List.mem_singleton.mpr rfl) fun accepts => ?_
    exact accepts.2.elim unknown.1 fun other => other.1 reserved
  · have done : s.literal d rule text = .error (.nameConflict text) := by
      simp [Flattening.literal, Flattening.edit, Except.map, empty, known, refused]
    rw [done]
    -- a nonterminal of that name is a rule, unless it is a helper
    rcases tidy.invented text marks with listed | invented
    · refine .refused (List.mem_singleton.mpr rfl) fun accepts => ?_
      exact accepts.2.elim unknown.1 fun other => other.2 listed
    · exact .taken (List.mem_singleton.mpr rfl) unknown.1 invented
  · have done : s.literal d rule text =
        .ok ([text], { grammar := after, literals := s.literals ++ [text] }) := by
      simp [Flattening.literal, Flattening.edit, Except.map, empty, known, added]
    have faithful := tidy.toReady.literal done
    have unlisted : text ∉ d.rules := fun listed => free (tidy.rules text listed)
    have all : ∀ e ∈ [Body.literal text], d.Accepts e := by
      simpa [Declared.Accepts] using ⟨empty, Or.inr ⟨ne, unlisted⟩⟩
    obtain ⟨unchosen, invented⟩ := tidy.edited added (wf.addTerminal text).start fun other known => by
      rcases marks_addTerminal wf.aligned known with old | ⟨-, kind⟩
      · exact Or.inl old
      · cases kind
    rw [done]
    refine .accepted all ⟨by simpa using ne.symm,
      ⟨faithful.ready, unchosen, invented, ?_, ?_⟩, faithful.grown.grows⟩
    · exact List.Nodup.append tidy.distinct (List.nodup_singleton text) (by simpa using unknown.2)
    · exact List.forall_mem_append.mpr ⟨tidy.apart, by simpa using ⟨empty, unknown.1, ne⟩⟩

/-! ## Expressions -/

/-- What flattening makes of an expression in the body of `rule`, wherever it occurs. -/
def Judges (d : Declared) (rule : String) (e : Body) : Prop :=
  ∀ s, Tidy d s → Verdict d e.parts (Yields d s) (s.flatten d rule e)

theorem flattenSeq_verdict {items : List Body} (each : ∀ e ∈ items, Judges d rule e)
    (tidy : Tidy d s) :
    Verdict d (Body.partsOfAll items) (Yields d s) (s.flattenSeq d rule items) := by
  induction items generalizing s with
  | nil =>
    rw [flattenSeq]
    exact .accepted (by simp [Body.partsOfAll]) ⟨by simp, .refl tidy⟩
  | cons e rest ih =>
    obtain ⟨here, others⟩ := List.forall_mem_cons.mp each
    rw [flattenSeq, Body.partsOfAll]
    apply (here s tidy).bind
    rintro ⟨symbols, s₁⟩ ⟨proper, first⟩
    apply (ih others first.tidy).finish
    rintro ⟨more, s₂⟩ ⟨proper', later⟩
    exact ⟨_, rfl, by simpa using ⟨proper, proper'⟩, first.trans later⟩

theorem flattenAlternatives_verdict {alternatives : List Body}
    (each : ∀ e ∈ alternatives, Judges d rule e) (tidy : Tidy d s)
    (marks : s.grammar.Marks name .nonterminal) (unlisted : name ∉ d.rules) :
    Verdict d (Body.partsOfAll alternatives) (Advances d s)
      (s.flattenAlternatives d rule name alternatives) := by
  induction alternatives generalizing s with
  | nil =>
    rw [flattenAlternatives]
    exact .accepted (by simp [Body.partsOfAll]) (.refl tidy)
  | cons e rest ih =>
    obtain ⟨here, others⟩ := List.forall_mem_cons.mp each
    rw [flattenAlternatives, Body.partsOfAll]
    apply (here s tidy).bind
    rintro ⟨symbols, s₁⟩ ⟨proper, first⟩
    obtain ⟨s₂, added, second⟩ :=
      first.tidy.generate (first.grows.marks (by decide) marks) unlisted proper
    have advances := first.trans second
    dsimp only at added ⊢
    rw [added]
    exact (ih others second.tidy (advances.grows.marks (by decide) marks)).mono
      fun s₃ later => advances.trans later

/-- An expression is flattened unless something in it is wrong or a literal has the name of a
helper. -/
theorem judges (proper : endName ∉ d.tokens) (listed : rule ∈ d.rules) (e : Body) :
    Judges d rule e := by
  refine Body.induct e ?empty ?literal ?token ?rule ?seq ?choice ?opt ?counted
  case empty =>
    intro s tidy
    rw [flatten]
    exact .accepted (by simp [Body.parts, Declared.Accepts]) ⟨by simp, .refl tidy⟩
  case literal =>
    intro text s tidy
    rw [flatten, Body.parts]
    exact tidy.literal proper text
  case token =>
    intro name s tidy
    rw [flatten, Body.parts]
    by_cases known : name ∈ d.tokens
    · rw [if_pos known]
      have ne : endName ≠ name := fun same => proper (same ▸ known)
      exact .accepted (by simpa [Declared.Accepts] using known) ⟨by simpa using ne, .refl tidy⟩
    · rw [if_neg known]
      exact .refused (List.mem_singleton.mpr rfl) known
  case rule =>
    intro name s tidy
    rw [flatten, Body.parts]
    by_cases known : name ∈ d.rules
    · rw [if_pos known]
      have ne : endName ≠ name := fun same => tidy.endName_not_mem (same ▸ known)
      exact .accepted (by simpa [Declared.Accepts] using known) ⟨by simpa using ne, .refl tidy⟩
    · rw [if_neg known]
      exact .refused (List.mem_singleton.mpr rfl) known
  case seq =>
    intro items each s tidy
    rw [flatten, Body.parts]
    exact (flattenSeq_verdict each tidy).cons trivial
  case choice =>
    intro alternatives each s tidy
    rw [Body.parts]
    apply Verdict.cons (e := .choice alternatives) trivial
    rcases alternatives with _ | ⟨first, _ | ⟨second, rest⟩⟩
    case nil =>
      rw [flatten]
      exact .accepted (by simp [Body.partsOfAll]) ⟨by simp, .refl tidy⟩
    case cons.nil =>
      rw [flatten]
      simpa [Body.partsOfAll] using each first (by simp) s tidy
    case cons.cons =>
      obtain ⟨name, s₁, named, advances, marks, unlisted, ne⟩ :=
        tidy.helper listed (show "alternation" ∈ Declared.suffixes by decide)
      rw [flatten_choice, named]
      have filled := flattenAlternatives_verdict each advances.tidy marks unlisted
      exact filled.finish fun s₂ later =>
        ⟨_, rfl, by simpa using ne.symm, advances.trans later⟩
  case opt =>
    intro e here s tidy
    rw [flatten, Body.parts]
    apply Verdict.cons (e := .opt e) trivial
    apply (here s tidy).finish
    rintro ⟨symbols, s₁⟩ ⟨free, first⟩
    obtain ⟨name, s₂, named, second, marks, unlisted, ne⟩ :=
      first.tidy.helper listed (show "optional" ∈ Declared.suffixes by decide)
    have proper : ∀ body ∈ [symbols, []], endName ∉ body := by simpa using free
    obtain ⟨s₃, filled, third⟩ := second.tidy.generateAll marks unlisted proper
    refine ⟨([name], s₃), ?_, by simpa using ne.symm, (first.trans second).trans third⟩
    exact bind_eq_ok_iff.mpr ⟨_, named, bind_eq_ok_iff.mpr ⟨s₃, filled, rfl⟩⟩
  case counted =>
    intro e min max here s tidy
    rw [flatten, Body.parts]
    by_cases crossed : max.any (· < min)
    · rw [if_pos crossed]
      refine .refused List.mem_cons_self fun ordered => ?_
      obtain ⟨m, given, less⟩ := (Option.any_eq_true _ _).mp crossed
      have le : min ≤ m := ordered m given
      simp at less
      omega
    · rw [if_neg crossed]
      have ordered : d.Accepts (.counted e min max) := by
        rintro m ⟨⟩
        simpa using crossed
      apply Verdict.cons ordered
      apply (here s tidy).finish
      rintro ⟨symbols, s₁⟩ ⟨free, first⟩
      obtain ⟨names, s₂, done, more, free'⟩ := first.tidy.counted listed free min max
      exact ⟨_, done, free', first.trans more⟩

/-! ## Rules -/

theorem addAlternatives_verdict (proper : endName ∉ d.tokens) (listed : name ∈ d.rules)
    {alternatives : List Body} (tidy : Tidy d s) :
    Verdict d (Body.partsOfAll alternatives) (Advances d s)
      (s.addAlternatives d name alternatives) := by
  induction alternatives generalizing s with
  | nil =>
    rw [addAlternatives]
    exact .accepted (by simp [Body.partsOfAll]) (.refl tidy)
  | cons e rest ih =>
    rw [addAlternatives, Body.partsOfAll]
    apply (judges proper listed e s tidy).bind
    rintro ⟨symbols, s₁⟩ ⟨free, first⟩
    obtain ⟨index, s₂, added, second⟩ := first.tidy.append (first.tidy.rules name listed) free
      false (by simpa using listed)
    have added : s₁.edit (·.addAuthored name symbols) = .ok (index, s₂) := added
    dsimp only
    rw [added]
    exact (ih second.tidy).mono fun s₃ later => (first.trans second).trans later

/-- The alternatives of a rule have the same parts as its body, the choice itself apart. -/
theorem Verdict.of_alternatives {α : Type} {good : α → Prop} {x : Except Fault α} {body : Body}
    (verdict : Verdict d (Body.partsOfAll (alternatives body)) good x) :
    Verdict d body.parts good x := by
  unfold alternatives at verdict
  split at verdict
  next first rest =>
    rw [Body.parts]
    exact verdict.cons trivial
  next => simpa [Body.partsOfAll] using verdict

theorem addRules_verdict (proper : endName ∉ d.tokens) {rules : List (String × Body)}
    (listed : ∀ rule ∈ rules, rule.1 ∈ d.rules) (tidy : Tidy d s) :
    Verdict d (rules.flatMap (·.2.parts)) (Advances d s) (s.addRules d rules) := by
  induction rules generalizing s with
  | nil =>
    rw [addRules]
    exact .accepted (by simp) (.refl tidy)
  | cons rule rest ih =>
    obtain ⟨name, body⟩ := rule
    obtain ⟨here, others⟩ := List.forall_mem_cons.mp listed
    rw [addRules, List.flatMap_cons]
    refine (addAlternatives_verdict proper here tidy).of_alternatives.bind fun s₁ first => ?_
    exact (ih others first.tidy).mono fun s₂ later => first.trans later

end Flattening

end ShiftReduce
