import ShiftReduce.Proofs.Grammar.Sentences

/-!
# Unfolding names

What a list of names stands for: each name is read as some words of its own, or gives way to one of
its right-hand sides. This is what derivations come to when symbols are told apart by their names, and
it works part by part, so it can be compared with the meaning of expressions.
-/
namespace ShiftReduce.Grammar

/-- The words that names unfold to, by the productions `ps` and the words `ρ name` for each name. -/
inductive Unfolds (ps : List Production) (ρ : String → Language String) :
    List String → List String → Prop
  | nil : Unfolds ps ρ [] []
  | keep {name : String} {names u v : List String} (own : u ∈ ρ name)
      (rest : Unfolds ps ρ names v) : Unfolds ps ρ (name :: names) (u ++ v)
  | expand {p : Production} {names u v : List String} (member : p ∈ ps)
      (inner : Unfolds ps ρ p.rhsNames u) (rest : Unfolds ps ρ names v) :
      Unfolds ps ρ (p.name :: names) (u ++ v)

/-- All words that names unfold to. -/
def reading (ps : List Production) (ρ : String → Language String) (names : List String) :
    Language String :=
  {word | Unfolds ps ρ names word}

variable {ps : List Production} {ρ : String → Language String} {name : String}
  {names word : List String}

@[simp] theorem reading_nil : reading ps ρ [] = 1 := by
  ext word
  constructor
  · rintro ⟨⟩
    rfl
  · rintro rfl
    exact .nil

theorem mem_reading_singleton : word ∈ reading ps ρ [name] ↔
    word ∈ ρ name ∨ ∃ p ∈ ps, p.name = name ∧ word ∈ reading ps ρ p.rhsNames := by
  constructor
  · rintro (_ | ⟨own, ⟨⟩⟩ | ⟨member, inner, ⟨⟩⟩)
    · exact Or.inl (by rwa [List.append_nil])
    · exact Or.inr ⟨_, member, rfl, by rwa [List.append_nil]⟩
  · rintro (own | ⟨p, member, rfl, inner⟩)
    · exact List.append_nil word ▸ .keep own .nil
    · exact List.append_nil word ▸ .expand member inner .nil

theorem reading_cons (name : String) (names : List String) :
    reading ps ρ (name :: names) = reading ps ρ [name] * reading ps ρ names := by
  ext word
  rw [Language.mem_mul]
  constructor
  · rintro (_ | ⟨own, rest⟩ | ⟨member, inner, rest⟩)
    · exact ⟨_, mem_reading_singleton.mpr (Or.inl own), _, rest, rfl⟩
    · exact ⟨_, mem_reading_singleton.mpr (Or.inr ⟨_, member, rfl, inner⟩), _, rest, rfl⟩
  · rintro ⟨u, first, v, rest, rfl⟩
    rcases mem_reading_singleton.mp first with own | ⟨p, member, rfl, inner⟩
    · exact .keep own rest
    · exact .expand member inner rest

theorem reading_append (names more : List String) :
    reading ps ρ (names ++ more) = reading ps ρ names * reading ps ρ more := by
  induction names with
  | nil => simp
  | cons name names ih => rw [List.cons_append, reading_cons, reading_cons name names, ih, mul_assoc]

theorem reading_replicate (name : String) (n : Nat) :
    reading ps ρ (List.replicate n name) = reading ps ρ [name] ^ n := by
  induction n with
  | zero => simp
  | succ n ih => rw [List.replicate_succ, reading_cons, ih, pow_succ']

/-! ## Derivations -/

/-- Every symbol of a certain kind is read as its name. -/
def kept (g : Grammar) (keep : Symbol → Prop) (name : String) : Language String :=
  {word | word = [name] ∧ ∃ c, g.Named c name ∧ keep c}

variable {g : Grammar} {keep : Symbol → Prop} {α : List Symbol}

theorem WellFormed.name_lhs (wf : g.WellFormed) {p : Production} (member : p ∈ g.productions) :
    g.name p.lhs = p.name := Named.name_eq ⟨_, wf.left p member⟩

theorem WellFormed.names_rhs (wf : g.WellFormed) {p : Production} (member : p ∈ g.productions) :
    p.rhs.map g.name = p.rhsNames := by
  have named := wf.right p member
  generalize p.rhs = symbols at named
  generalize p.rhsNames = names at named
  induction named with
  | nil => rfl
  | cons first _ ih => rw [List.map_cons, first.name_eq, ih]

theorem derives_of_unfolds (wf : g.WellFormed) (listed : ps ⊆ g.productions)
    (known : ∀ s ∈ α, ∃ name, g.Named s name)
    (unfolds : Unfolds ps (g.kept keep) (α.map g.name) word) :
    ∃ symbols, Derives { g with productions := ps } α symbols ∧ (∀ c ∈ symbols, keep c) ∧
      symbols.map g.name = word := by
  generalize same : α.map g.name = names at unfolds
  induction unfolds generalizing α with
  | nil =>
    obtain rfl := List.map_eq_nil_iff.mp same
    exact ⟨[], .refl, by simp, rfl⟩
  | keep own _ ih =>
    obtain ⟨s, α, rfl, rfl, rfl⟩ := List.map_eq_cons_iff.mp same
    obtain ⟨rfl, c, named, keeps⟩ := own
    obtain ⟨name, known'⟩ := known s List.mem_cons_self
    -- a name stands for one symbol
    obtain rfl := named.unique wf.distinct (known'.name_eq.symm ▸ known')
    obtain ⟨symbols, derives, all, rfl⟩ :=
      ih (fun t member => known t (List.mem_cons_of_mem _ member)) rfl
    exact ⟨c :: symbols, derives.append_left [c], List.forall_mem_cons.mpr ⟨keeps, all⟩, rfl⟩
  | @expand p _ _ _ member _ _ inner ih =>
    obtain ⟨s, α, rfl, lhs, rfl⟩ := List.map_eq_cons_iff.mp same
    have member' := listed member
    obtain ⟨name, known'⟩ := known s List.mem_cons_self
    obtain rfl : s = p.lhs := by
      have named : g.Named s p.name := lhs ▸ (known'.name_eq.symm ▸ known')
      exact named.unique wf.distinct ⟨_, wf.left p member'⟩
    obtain ⟨first, derives, all, rfl⟩ :=
      inner (fun t occurs => wf.named_of_mem member' occurs) (wf.names_rhs member')
    obtain ⟨rest, derives', all', rfl⟩ :=
      ih (fun t member => known t (List.mem_cons_of_mem _ member)) rfl
    have whole : Derives { g with productions := ps } [p.lhs] first :=
      (derives_of_mem member).trans derives
    refine ⟨first ++ rest, whole.append derives', fun c occurs => ?_, by simp⟩
    exact (List.mem_append.mp occurs).elim (all c) (all' c)

theorem unfolds_of_derives (wf : g.WellFormed) (listed : ps ⊆ g.productions)
    (known : ∀ s ∈ α, ∃ name, g.Named s name) {symbols : List Symbol}
    (derives : Derives { g with productions := ps } α symbols) (all : ∀ c ∈ symbols, keep c) :
    symbols.map g.name ∈ reading ps (g.kept keep) (α.map g.name) := by
  induction derives using Relation.ReflTransGen.head_induction_on with
  | refl =>
    induction symbols with
    | nil => exact .nil
    | cons c rest ih =>
      obtain ⟨name, named⟩ := known c List.mem_cons_self
      have own : [g.name c] ∈ g.kept keep (g.name c) :=
        ⟨rfl, c, named.name_eq.symm ▸ named, all c List.mem_cons_self⟩
      exact .keep own (ih (fun t member => all t (List.mem_cons_of_mem _ member))
        fun t member => known t (List.mem_cons_of_mem _ member))
  | head step _ ih =>
    cases step with
    | @replace before after p member =>
      have member' := listed member
      -- the right-hand side is one of the readings of the left-hand side
      have inner : reading ps (g.kept keep) p.rhsNames ≤ reading ps (g.kept keep) [p.name] :=
        fun word unfolds => mem_reading_singleton.mpr (Or.inr ⟨p, member, rfl, unfolds⟩)
      have later := ih fun s occurs => by
        simp only [List.mem_append, List.mem_cons] at known occurs
        rcases occurs with front | inside | behind
        · exact known s (Or.inl front)
        · exact wf.named_of_mem member' inside
        · exact known s (Or.inr (Or.inr behind))
      rw [List.map_append, List.map_append, wf.names_rhs member', reading_append,
        reading_append] at later
      rw [List.map_append, List.map_cons, wf.name_lhs member', reading_append, reading_cons]
      exact mul_le_mul_right (mul_le_mul_left inner _) _ later

/-- What names unfold to is what their symbols derive. -/
theorem WellFormed.mem_reading_iff (wf : g.WellFormed) (listed : ps ⊆ g.productions)
    (known : ∀ s ∈ α, ∃ name, g.Named s name) :
    word ∈ reading ps (g.kept keep) (α.map g.name) ↔
      ∃ symbols, Derives { g with productions := ps } α symbols ∧ (∀ c ∈ symbols, keep c) ∧
        symbols.map g.name = word := by
  constructor
  · exact derives_of_unfolds wf listed known
  · rintro ⟨symbols, derives, all, rfl⟩
    exact unfolds_of_derives wf listed known derives all

end ShiftReduce.Grammar
