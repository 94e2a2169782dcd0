import ShiftReduce.Proofs.Grammar.Sentences

/-!
# Rightmost derivations

A rightmost derivation rewrites the last nonterminal each time. It can reach every word of terminals
that derives at all: what comes from the symbols in the front can wait until the rest is done. So
where every nonterminal is productive, a terminal that can begin some symbols begins a word that they
derive rightmost.
-/
namespace ShiftReduce

namespace Grammar

/-- The last nonterminal gives way to the right-hand side of one of its productions. -/
inductive RewritesRightmost (g : Grammar) : List Symbol → List Symbol → Prop
  | replace (before : List Symbol) {after : List Symbol} {p : Production}
      (member : p ∈ g.productions) (terminals : ∀ c ∈ after, g.isTerminal c) :
      RewritesRightmost g (before ++ p.lhs :: after) (before ++ (p.rhs ++ after))

/-- Rewriting the last nonterminal any number of times. -/
def DerivesRightmost (g : Grammar) : List Symbol → List Symbol → Prop :=
  Relation.ReflTransGen g.RewritesRightmost

variable {g : Grammar} {α β γ δ word : List Symbol} {s c : Symbol}

theorem DerivesRightmost.append_left (derives : g.DerivesRightmost α β) (δ : List Symbol) :
    g.DerivesRightmost (δ ++ α) (δ ++ β) := by
  induction derives with
  | refl => exact .refl
  | tail _ step ih =>
    apply ih.tail
    cases step with
    | replace before member terminals =>
      simpa using RewritesRightmost.replace (δ ++ before) member terminals

/-- Terminals behind are never rewritten. -/
theorem DerivesRightmost.append_terminals (derives : g.DerivesRightmost α β)
    (terminals : ∀ c ∈ word, g.isTerminal c) : g.DerivesRightmost (α ++ word) (β ++ word) := by
  induction derives with
  | refl => exact .refl
  | tail _ step ih =>
    apply ih.tail
    cases step with
    | @replace before after p member inner =>
      have behind : ∀ c ∈ after ++ word, g.isTerminal c := fun c occurs =>
        (List.mem_append.mp occurs).elim (inner c) (terminals c)
      simpa using RewritesRightmost.replace before member behind

/-- What derives from two words in a row derives from each of them. -/
theorem DerivesRightmost.split (derives : g.DerivesRightmost (α ++ β) word) :
    ∃ u v, word = u ++ v ∧ g.DerivesRightmost α u ∧ g.DerivesRightmost β v := by
  generalize whole : α ++ β = γ at derives
  induction derives using Relation.ReflTransGen.head_induction_on generalizing α β with
  | refl => exact ⟨α, β, whole.symm, .refl, .refl⟩
  | head step _ ih =>
    cases step with
    | @replace before after p member terminals =>
      rcases split_append whole with ⟨rest, rfl, rfl⟩ | ⟨rest, rfl, rfl⟩
      -- the symbol replaced is in the first word, or in the second
      · obtain ⟨u, v, rfl, first, second⟩ := @ih (before ++ (p.rhs ++ rest)) β (by simp)
        have inner : ∀ c ∈ rest, g.isTerminal c := fun c occurs =>
          terminals c (List.mem_append_left _ occurs)
        exact ⟨u, v, rfl, first.head (.replace before member inner), second⟩
      · obtain ⟨u, v, rfl, first, second⟩ := @ih α (rest ++ (p.rhs ++ after)) (by simp)
        exact ⟨u, v, rfl, first, second.head (.replace rest member terminals)⟩

/-- A word of terminals that derives at all derives rightmost. -/
theorem Derives.rightmost (derives : g.Derives α word) (terminals : ∀ c ∈ word, g.isTerminal c) :
    g.DerivesRightmost α word := by
  induction derives using Relation.ReflTransGen.head_induction_on with
  | refl => exact .refl
  | head step _ ih =>
    cases step with
    | @replace before after p member =>
      obtain ⟨u, rest, rfl, front, derives⟩ := ih.split
      obtain ⟨v, w, rfl, inside, behind⟩ := derives.split
      have inW : ∀ c ∈ w, g.isTerminal c := fun c occurs => terminals c (by simp [occurs])
      have inRest : ∀ c ∈ v ++ w, g.isTerminal c := fun c occurs =>
        terminals c (List.mem_append_right _ occurs)
      -- first what is behind the symbol, then the symbol, and in the end what is in front of it
      have first : g.DerivesRightmost (before ++ p.lhs :: after) (before ++ p.lhs :: w) := by
        simpa using (behind.append_left [p.lhs]).append_left before
      have second : g.DerivesRightmost (before ++ (p.rhs ++ w)) (before ++ (v ++ w)) :=
        (inside.append_terminals inW).append_left before
      have third : g.DerivesRightmost (before ++ (v ++ w)) (u ++ (v ++ w)) :=
        front.append_terminals inRest
      exact ((first.tail (.replace before member inW)).trans second).trans third

/-- Where every nonterminal is productive, known symbols derive a word of terminals. -/
theorem exists_word (productive : ∀ s, g.isNonterminal s → g.Productive s)
    (known : ∀ s ∈ β, ∃ name, g.Named s name) :
    ∃ word, g.Derives β word ∧ ∀ c ∈ word, g.isTerminal c := by
  obtain ⟨ts, ds⟩ := exists_trees productive known
  obtain ⟨word, derives, terminals, -⟩ := derives_fringe (ds.imp fun _ _ d => d.mem_sentences)
  exact ⟨word, derives, terminals⟩

end Grammar

/-- Where every nonterminal is productive, what can begin some symbols in front of a terminal begins
a word that they derive rightmost, with the terminal behind it. -/
theorem Begins.Sound.rightmost {b : Begins} {g : Grammar} (sound : b.Sound g) (wf : g.WellFormed)
    (productive : ∀ s, g.isNonterminal s → g.Productive s) {β : List Symbol}
    (known : ∀ s ∈ β, ∃ name, g.Named s name) {c x : Symbol} (terminal : g.isTerminal c)
    (begins : c ∈ b.beginnings β (some x)) :
    ∃ word, g.DerivesRightmost β word ∧ (∀ t ∈ word, g.isTerminal t) ∧
      (word ++ [x]).head? = some c := by
  rcases sound.beginnings begins with ⟨δ, derives⟩ | ⟨vanishes, same⟩
  · obtain ⟨word, later, terminals⟩ := Grammar.exists_word productive fun s occurs =>
      derives.named wf known s (List.mem_cons_of_mem _ occurs)
    have all : ∀ t ∈ c :: word, g.isTerminal t := List.forall_mem_cons.mpr ⟨terminal, terminals⟩
    have whole : g.Derives β (c :: word) := derives.trans (later.append_left [c])
    exact ⟨c :: word, whole.rightmost all, all, rfl⟩
  · exact ⟨[], vanishes.rightmost (by simp), by simp, by simpa using same⟩

end ShiftReduce
