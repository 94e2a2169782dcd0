import Mathlib.Data.List.Perm.Subperm
import Mathlib.Order.Bounds.Basic
import ShiftReduce.Proofs.Grammar.WellFormed

/-!
# Augmented grammars

The accept production is the only one with the end of the input in it. Its left-hand side gets a
name that the grammar did not know, so it occurs in no right-hand side.
-/
namespace ShiftReduce.Grammar

variable {g h : Grammar}

/-- The symbol that texts derive from: the start symbol as it was before augmentation. -/
def goal? (g : Grammar) : Option Symbol := g.acceptProduction?.bind (·.rhs.head?)

/-- The left-hand side of the accept production occurs in no right-hand side. -/
def AcceptFresh (g : Grammar) : Prop :=
  ∀ p, g.acceptProduction? = some p → ∀ q ∈ g.productions, p.lhs ∉ q.rhs

/-! ## Free names -/

theorem mem_names_of_knows {name : String} (known : g.knows name) : name ∈ g.names := by
  obtain ⟨s, found⟩ := Option.isSome_iff_exists.mp known
  exact List.mem_of_getElem? (name?_of_symbol? found)

/-- Distinct names that a grammar knows are no more than its names. -/
theorem length_le_names {names : List String} (nodup : names.Nodup)
    (known : ∀ name ∈ names, g.knows name) : names.length ≤ g.names.length := by
  have subset : names ⊆ g.names := fun name member => mem_names_of_knows (known name member)
  exact (nodup.subperm subset).length_le

/-- Among more candidates than there are names one is free, and the first of them is taken. -/
theorem exists_firstFree (g : Grammar) {candidate : Nat → String} (distinct : candidate.Injective)
    (otherwise : String) : ∃ n, g.firstFree candidate otherwise = candidate n ∧
      IsLeast {n | 1 ≤ n ∧ g.knows (candidate n) = false} n := by
  unfold firstFree
  rw [List.find?_map]
  cases found : (List.range (g.names.length + 1)).find?
      ((!g.knows ·) ∘ fun i => candidate (i + 1)) with
  | some i =>
    obtain ⟨free, -, before⟩ := List.find?_range_eq_some.mp found
    refine ⟨i + 1, rfl, ⟨Nat.succ_pos i, by simpa using free⟩, fun m ⟨positive, unused⟩ => ?_⟩
    by_contra less
    -- all candidates before the one that was found are known
    have known := before (m - 1) (by omega)
    rw [Function.comp_apply, Nat.sub_add_cancel positive, unused] at known
    cases known
  | none =>
    exfalso
    -- distinct candidates that are all known would be more names than there are
    have known := List.find?_eq_none.mp found
    have nodup : ((List.range (g.names.length + 1)).map fun i => candidate (i + 1)).Nodup :=
      List.nodup_range.map fun i j same => by simpa using distinct same
    have bound := length_le_names nodup (by simpa using known)
    rw [List.length_map, List.length_range] at bound
    omega

theorem knows_firstFree {candidate : Nat → String} (distinct : candidate.Injective)
    (otherwise : String) : g.knows (g.firstFree candidate otherwise) = false := by
  obtain ⟨n, same, ⟨-, free⟩, -⟩ := g.exists_firstFree distinct otherwise
  rw [same]
  exact free

/-- A name with some apostrophes behind it. -/
def primed (start : String) (n : Nat) : String := start ++ String.ofList (List.replicate n '\'')

theorem primed_injective (start : String) : (primed start).Injective := by
  intro m n same
  have lengths := congrArg String.length same
  simpa [primed, String.length_append, String.length_ofList] using lengths

/-- A name with the digits of a number behind it. -/
def numbered (base : String) (n : Nat) : String := base ++ toString n

theorem numbered_injective (base : String) : (numbered base).Injective := by
  intro m n same
  -- the digits of a number tell it
  have digits : Nat.toDigits 10 m = Nat.toDigits 10 n := by
    have numerals : m.repr = n.repr := (String.append_right_inj base).mp same
    simpa [Nat.repr] using congrArg String.toList numerals
  rw [← @Nat.ofDigitChars_ten_toDigits m, digits, Nat.ofDigitChars_ten_toDigits]

theorem knows_primedName (g : Grammar) (start : String) :
    g.knows (g.primedName start) = false := knows_firstFree (primed_injective start) start

theorem knows_unusedName (g : Grammar) (base : String) : g.knows (g.unusedName base) = false := by
  unfold unusedName
  split
  next => exact knows_firstFree (numbered_injective base) base
  next free => exact Bool.eq_false_iff.mpr free

/-! ## Augmenting -/

theorem augment_of_isAugmented (done : g.isAugmented) : g.augment = (.ok (), g) := if_pos done

/-- The grammar that `augment` leaves when it adds the accept production. -/
def accepting (g : Grammar) (p : Production) : Grammar :=
  { g.extended p with start := some p.name, accept := some p.index }

/-- Augmentation of `g` adds the accept production `p`, for the start symbol `s` and its name, to the
grammar `h` that has met the names of `p`. -/
structure Augments (g h : Grammar) (p : Production) (s : Symbol) (start : String) : Prop where
  unset : g.accept = none
  chosen : g.start = some start
  found : g.symbol? start = some s
  nonterminal : g.isNonterminal s
  keeps : g.Keeps h
  index : p.index = h.productions.length
  left : h.entry? p.lhs = some ⟨p.name, .nonterminal⟩
  unknown : g.knows p.name = false
  rhs : p.rhs = [s, .endOfInput]
  names : p.rhsNames = [start, endName]
  result : g.augment = (.ok (), h.accepting p)

theorem WellFormed.augment_cases (wf : g.WellFormed) :
    (g.accept.isSome ∧ g.augment = (.ok (), g)) ∨
    (∃ e h, g.Keeps h ∧ g.augment = (.error e, h)) ∨
    ∃ h p s start, g.Augments h p s start := by
  unfold Grammar.augment
  split
  next done => exact Or.inl ⟨done, rfl⟩
  next unset =>
    have unset : g.accept = none := by simpa [isAugmented] using unset
    right
    split
    · exact Or.inl ⟨_, g, .refl wf, rfl⟩
    next start chosen =>
      split
      next derives =>
        obtain ⟨s, found, nonempty⟩ := (Option.any_eq_true _ _).mp derives
        -- the start symbol has a production, so it is a nonterminal
        have nonterminal : g.isNonterminal s := by
          cases listed : g.productionsOf s with
          | nil => simp [listed] at nonempty
          | cons index rest =>
            have member : index ∈ g.productionsOf s := by simp [listed]
            obtain ⟨q, inside, rfl, -⟩ := wf.mem_productionsOf_iff.mp member
            exact wf.isNonterminal_lhs inside
        obtain ⟨h, keeps, ⟨e, same⟩ | ⟨lhs, symbols, left, right, -, same⟩⟩ :=
          wf.append_cases (g.primedName start) [start, endName] true true
        · exact Or.inl ⟨e, h, keeps, by dsimp only; rw [same]⟩
        · have rhs : symbols = [s, .endOfInput] := by
            -- names are unique: the symbols found are the start symbol and the end of the input
            obtain ⟨t, rest, atT, atRest, rfl⟩ := List.forall₂_cons_right_iff.mp right
            obtain ⟨u, rest, atU, atNil, rfl⟩ := List.forall₂_cons_right_iff.mp atRest
            obtain rfl := List.forall₂_nil_right_iff.mp atNil
            have distinct := keeps.wellFormed.distinct
            rw [atT.unique distinct (keeps.grows.named (wf.symbol?_iff.mp found)),
              atU.unique distinct ⟨_, keeps.wellFormed.ending⟩]
          refine Or.inr ⟨h, ⟨h.productions.length, lhs, g.primedName start, symbols,
            [start, endName], true⟩, s, start, ⟨unset, chosen, found, nonterminal, keeps, rfl, left,
            g.knows_primedName start, rhs, rfl, ?_⟩⟩
          unfold Grammar.augment
          rw [if_neg (by simp [isAugmented, unset]), chosen]
          dsimp only
          rw [if_pos derives, same]
          rfl
      next => exact Or.inl ⟨_, g, .refl wf, rfl⟩

/-- The first augmentation that succeeds adds an accept production. -/
theorem WellFormed.augments (wf : g.WellFormed) (unset : g.accept = none)
    (done : g.augment.1 = .ok ()) : ∃ h p s start, g.Augments h p s start := by
  obtain ⟨set, -⟩ | ⟨e, h, -, same⟩ | added := wf.augment_cases
  · simp [unset] at set
  · simp [same] at done
  · exact added

theorem accepting_acceptProduction? {p : Production} (index : p.index = h.productions.length) :
    (h.accepting p).acceptProduction? = some p := by
  simp [acceptProduction?, production?, accepting, extended, index]

theorem WellFormed.augment (wf : g.WellFormed) : g.augment.2.WellFormed := by
  obtain ⟨-, same⟩ | ⟨e, h, keeps, same⟩ | ⟨h, p, s, start, added⟩ := wf.augment_cases
  · exact same ▸ wf
  · exact same ▸ keeps.wellFormed
  · have keeps := added.keeps
    rw [added.result]
    apply keeps.wellFormed.extended added.index added.left
    · rw [added.rhs, added.names]
      exact .cons (keeps.grows.named (wf.symbol?_iff.mp added.found))
        (.cons ⟨_, keeps.wellFormed.ending⟩ .nil)
    · intro q member occurs
      rcases List.mem_append.mp member with old | new
      · have accept := keeps.wellFormed.ends q old occurs
        rw [keeps.accept, added.unset] at accept
        cases accept
      · rw [List.mem_singleton.mp new]
    · rintro i ⟨⟩
      obtain ⟨name, entry⟩ := (isNonterminal_iff wf.aligned).mp added.nonterminal
      have after := keeps.wellFormed.aligned
      exact ⟨p, s, by simp [production?, Grammar.extended, added.index], added.rhs,
        (isNonterminal_iff after).mpr ⟨name, keeps.grows.entry?_of_ne (by decide) entry⟩⟩

theorem wellFormed_empty : empty.WellFormed where
  aligned := ⟨rfl, rfl⟩
  distinct := List.nodup_singleton _
  ending := rfl
  indexed i p found := by simp [empty, production?] at found
  left p member := by simp [empty] at member
  right p member := by simp [empty] at member
  listed s := by
    -- the only row is that of the end of the input
    rcases s with ⟨_ | i⟩ <;> rfl
  ends p member := by simp [empty] at member
  accepting i chosen := by cases chosen

theorem Built.wellFormed (built : g.Built) : g.WellFormed := by
  induction built with
  | empty => exact wellFormed_empty
  | addTerminal name _ ih => exact (ih.addTerminal name).wellFormed
  | addNonterminal name _ ih => exact (ih.addNonterminal name).1.wellFormed
  | addAuthored name rhs _ ih => exact ih.append name rhs false
  | addGenerated name rhs _ ih => exact ih.append name rhs true
  | startFrom name _ ih => exact ih.startFrom name
  | augment _ ih => exact ih.augment

/-- A symbol with a name that was unknown is not one of the older symbols. -/
theorem Keeps.ne_of_unknown (keeps : g.Keeps h) (wf : g.WellFormed) {s t : Symbol}
    {name other : String} {kind : Symbol.Kind} (left : h.entry? s = some ⟨name, kind⟩)
    (unknown : g.knows name = false) (named : g.Named t other) : s ≠ t := by
  rintro rfl
  obtain ⟨_, entry⟩ := keeps.grows.named named
  rw [left] at entry
  cases entry
  rw [knows, wf.symbol?_iff.mpr named] at unknown
  cases unknown

/-- The left-hand side of a new accept production occurs nowhere else. -/
theorem WellFormed.acceptFresh_augment (wf : g.WellFormed) (unset : g.accept = none)
    (done : g.augment.1 = .ok ()) : g.augment.2.AcceptFresh := by
  obtain ⟨h, p, s, start, added⟩ := wf.augments unset done
  rw [added.result]
  have elsewhere {t : Symbol} {name : String} (named : g.Named t name) : p.lhs ≠ t :=
    added.keeps.ne_of_unknown wf added.left added.unknown named
  intro q chosen r member
  rw [accepting_acceptProduction? added.index] at chosen
  cases chosen
  rcases List.mem_append.mp member with old | new
  · rw [added.keeps.productions] at old
    intro occurs
    obtain ⟨i, bound, same⟩ := List.mem_iff_getElem.mp occurs
    have named := List.forall₂_iff_get.mp (wf.right r old)
    exact elsewhere (named.2 i bound (named.1 ▸ bound)) (by simpa using same.symm)
  · rw [List.mem_singleton.mp new, added.rhs]
    simp only [List.mem_cons, List.not_mem_nil, or_false, not_or]
    exact ⟨elsewhere (wf.symbol?_iff.mp added.found), elsewhere ⟨_, wf.ending⟩⟩

/-- Augmentation keeps the start symbol as the one that texts derive from. -/
theorem WellFormed.goal?_augment (wf : g.WellFormed) (unset : g.accept = none)
    (done : g.augment.1 = .ok ()) : g.augment.2.goal? = g.startSymbol? := by
  obtain ⟨h, p, s, start, added⟩ := wf.augments unset done
  rw [added.result]
  dsimp only
  rw [goal?, accepting_acceptProduction? added.index]
  simp [added.rhs, startSymbol?, added.chosen, added.found]

/-- A grammar with an accept production has a goal, which is a nonterminal. -/
theorem WellFormed.goal (wf : g.WellFormed) {i : Nat} (accept : g.accept = some i) :
    ∃ p s, g.production? i = some p ∧ p.rhs = [s, .endOfInput] ∧ g.isNonterminal s ∧
      g.goal? = some s := by
  obtain ⟨p, s, found, rhs, nonterminal⟩ := wf.accepting i accept
  exact ⟨p, s, found, rhs, nonterminal, by simp [goal?, acceptProduction?, accept, found, rhs]⟩

/-! ## Examples -/

/-- The grammar `S -> a S | b`. -/
def chain : Grammar :=
  (((empty.addAuthored "S" ["a", "S"]).2.addAuthored "S" ["b"]).2.startFrom "S").2

theorem chain_built : chain.Built := .startFrom _ (.addAuthored _ _ (.addAuthored _ _ .empty))

/-- The grammar `S -> S S | a`, which is ambiguous. -/
def doubled : Grammar :=
  (((empty.addAuthored "S" ["S", "S"]).2.addAuthored "S" ["a"]).2.startFrom "S").2

theorem doubled_built : doubled.Built := .startFrom _ (.addAuthored _ _ (.addAuthored _ _ .empty))

end ShiftReduce.Grammar
