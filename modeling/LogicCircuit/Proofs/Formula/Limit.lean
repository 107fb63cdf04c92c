import LogicCircuit.Proofs.Formula.Reading

/-!
# What the limit refuses

The limit bounds two numbers, the parentheses and negations that are open at once and the height of
the formula. Chains of operators nest nothing but grow in height with every operand, so it bounds
them as well.

Results:
* `isGreatest_depth`: the depth of a phrase is the greatest number of parentheses and negations that
  are open around one of its tokens.
* `ofLexemes_mono`: a higher limit accepts the same formulas.
* `exists_chain`, `leaves_le_sq_height`: chains do not nest, but long ones are high.
* `ofLexemes_limited`: which token sequences a limit refuses.
-/

namespace LogicCircuit.Formula

namespace Phrase

variable {tier : Tier}

/-! ## Nesting -/

/-- For each token, how many parentheses and negations are open around it. -/
def enclosures : {tier : Tier} → Phrase tier → List Nat
  | _, letter _ => [0]
  | _, group inner => 0 :: (inner.enclosures.map (· + 1) ++ [0])
  | _, ofPrimary atom => atom.enclosures
  | _, not operand => 0 :: operand.enclosures.map (· + 1)
  | _, ofUnary factor => factor.enclosures
  | _, product left _ _ right => left.enclosures ++ 0 :: right.enclosures
  | _, ofProduct term => term.enclosures
  | _, sum left _ _ right => left.enclosures ++ 0 :: right.enclosures

theorem le_depth (t : Phrase tier) : ∀ n ∈ t.enclosures, n ≤ t.depth := by
  induction t with
  | letter c => simp [enclosures, depth]
  | ofPrimary atom ih => exact ih
  | ofUnary factor ih => exact ih
  | ofProduct term ih => exact ih
  | group inner ih =>
    intro n hn
    simp only [enclosures, List.mem_cons, List.mem_append, List.mem_map, List.not_mem_nil,
      or_false] at hn
    rw [depth]
    rcases hn with rfl | ⟨m, hm, rfl⟩ | rfl
    · omega
    · have := ih m hm
      omega
    · omega
  | not operand ih =>
    intro n hn
    simp only [enclosures, List.mem_cons, List.mem_map] at hn
    rw [depth]
    rcases hn with rfl | ⟨m, hm, rfl⟩
    · omega
    · have := ih m hm
      omega
  | product left op _ right ihl ihr | sum left op _ right ihl ihr =>
    intro n hn
    simp only [enclosures, List.mem_append, List.mem_cons] at hn
    rw [depth]
    rcases hn with hn | rfl | hn
    · have := ihl n hn
      omega
    · omega
    · have := ihr n hn
      omega

theorem depth_mem (t : Phrase tier) : t.depth ∈ t.enclosures := by
  induction t with
  | letter c => exact List.mem_singleton_self 0
  | ofPrimary atom ih => exact ih
  | ofUnary factor ih => exact ih
  | ofProduct term ih => exact ih
  | group inner ih =>
    exact List.mem_cons_of_mem _ (List.mem_append_left _ (List.mem_map_of_mem ih))
  | not operand ih => exact List.mem_cons_of_mem _ (List.mem_map_of_mem ih)
  | product left op _ right ihl ihr | sum left op _ right ihl ihr =>
    rw [enclosures, depth, List.mem_append]
    rcases max_choice left.depth right.depth with h | h
    · rw [h]
      exact .inl ihl
    · rw [h]
      exact .inr (List.mem_cons_of_mem _ ihr)

/-- The depth is the greatest number of parentheses and negations that are open around a token. -/
theorem isGreatest_depth (t : Phrase tier) : IsGreatest {n | n ∈ t.enclosures} t.depth :=
  ⟨t.depth_mem, t.le_depth⟩

/-! ## Chains -/

/-- A phrase without parentheses and negations consists of variables. -/
theorem flat_unary (t : Phrase .unary) (h : t.depth = 0) :
    t.formula.height = 1 ∧ t.formula.leaves.length = 1 := by
  cases t with
  | ofPrimary atom =>
    cases atom with
    | letter c => exact ⟨rfl, rfl⟩
    | group inner => exact absurd h (Nat.succ_ne_zero _)
  | not operand => exact absurd h (Nat.succ_ne_zero _)

/-- A chain of tight operators is as high as it has variables. -/
theorem flat_product : ∀ t : Phrase .product, t.depth = 0 →
    t.formula.leaves.length = t.formula.height
  | ofUnary factor, h => by
    obtain ⟨hheight, hleaves⟩ := flat_unary factor h
    exact hleaves.trans hheight.symm
  | product left op _ right, h => by
    rw [depth] at h
    obtain ⟨hheight, hleaves⟩ := flat_unary right (by omega)
    have ih := flat_product left (by omega)
    have hpos := left.formula.height_pos
    rw [formula, leaves, List.length_append, height]
    omega

/-- A phrase without parentheses and negations has at most as many variables as the square of its
height. -/
theorem leaves_le_sq_height : ∀ t : Phrase .sum, t.depth = 0 →
    t.formula.leaves.length ≤ t.formula.height ^ 2
  | ofProduct term, h => by
    have hterm : term.formula.leaves.length = term.formula.height := flat_product term h
    have hpos := term.formula.height_pos
    rw [formula, hterm]
    nlinarith
  | sum left op _ right, h => by
    rw [depth] at h
    have ihl := leaves_le_sq_height left (by omega)
    have hright := flat_product right (by omega)
    rw [formula, leaves, List.length_append, height, hright]
    have hl := le_max_left left.formula.height right.formula.height
    have hr := le_max_right left.formula.height right.formula.height
    nlinarith

/-- A single variable. -/
def single (c : Char) : Phrase .unary := .ofPrimary (.letter c)

end Phrase

/-- The tokens of variables with operators between them. -/
def chain (c : Char) (rest : List (Operator × Char)) : List Token :=
  .var c :: rest.flatMap fun p => [.op p.1, .var p.2]

theorem chain_snoc (c : Char) (rest : List (Operator × Char)) (p : Operator × Char) :
    chain c (rest ++ [p]) = chain c rest ++ .op p.1 :: (Phrase.single p.2).tokens := by
  simp [chain, Phrase.single, Phrase.tokens]

theorem length_leaves_chain {tier : Tier} {t : Phrase tier} {c : Char}
    {rest : List (Operator × Char)} (h : t.tokens = chain c rest) :
    t.formula.leaves.length = rest.length + 1 := by
  have hletters : ∀ l : List (Operator × Char), ((l.flatMap fun p =>
      [Token.op p.1, Token.var p.2]).filterMap Token.letter?).length = l.length := by
    intro l
    induction l with
    | nil => rfl
    | cons p l ih => simp [Token.letter?, List.filterMap_cons, ih]
  rw [t.leaves_formula, h, List.length_map, chain, List.filterMap_cons]
  simpa [Token.letter?] using hletters rest

/-- Any chain is a formula, and none of its tokens is in parentheses or under a negation. -/
theorem exists_chain (c : Char) (rest : List (Operator × Char)) :
    ∃ t : Phrase .sum, t.tokens = chain c rest ∧ t.depth = 0 := by
  induction rest using List.reverseRecOn with
  | nil => exact ⟨.ofProduct (.ofUnary (.single c)), rfl, rfl⟩
  | append_singleton rest p ih =>
    obtain ⟨t, ht, hd⟩ := ih
    rw [chain_snoc, ← ht]
    by_cases hp : p.1.isProduct = true
    · -- A tight operator continues the last product of the chain.
      cases t with
      | ofProduct term =>
        exact ⟨.ofProduct (.product term p.1 hp (.single p.2)), rfl, (max_eq_left hd.ge).trans hd⟩
      | sum left op hop right =>
        refine ⟨.sum left op hop (.product right p.1 hp (.single p.2)), ?_, ?_⟩
        · simp [Phrase.tokens]
        · simpa [Phrase.depth, Phrase.single] using hd
    · refine ⟨.sum t p.1 (Bool.eq_false_iff.mpr hp) (.ofUnary (.single p.2)), rfl, ?_⟩
      simpa [Phrase.depth, Phrase.single] using hd

theorem exists_tight_chain (c : Char) {rest : List (Operator × Char)}
    (h : ∀ p ∈ rest, p.1.isProduct = true) :
    ∃ t : Phrase .product, t.tokens = chain c rest ∧ t.depth = 0 := by
  induction rest using List.reverseRecOn with
  | nil => exact ⟨.ofUnary (.single c), rfl, rfl⟩
  | append_singleton rest p ih =>
    obtain ⟨t, ht, hd⟩ := ih fun q hq => h q (List.mem_append_left _ hq)
    have hp := h p (List.mem_append_right _ (List.mem_singleton_self p))
    rw [chain_snoc, ← ht]
    exact ⟨.product t p.1 hp (.single p.2), rfl, (max_eq_left hd.ge).trans hd⟩

theorem exists_loose_chain (c : Char) {rest : List (Operator × Char)}
    (h : ∀ p ∈ rest, p.1.isProduct = false) :
    ∃ t : Phrase .sum, t.tokens = chain c rest ∧ t.formula.height = rest.length + 1 := by
  induction rest using List.reverseRecOn with
  | nil => exact ⟨.ofProduct (.ofUnary (.single c)), rfl, rfl⟩
  | append_singleton rest p ih =>
    obtain ⟨t, ht, hheight⟩ := ih fun q hq => h q (List.mem_append_left _ hq)
    have hp := h p (List.mem_append_right _ (List.mem_singleton_self p))
    rw [chain_snoc, ← ht]
    refine ⟨.sum t p.1 hp (.ofUnary (.single p.2)), rfl, ?_⟩
    have hsingle : (Phrase.ofUnary (.single p.2)).formula.height = 1 := rfl
    rw [Phrase.formula, height, hheight, hsingle, List.length_append, List.length_singleton]
    omega

/-- A chain of operators of one strength is as high as it has variables. -/
theorem height_chain {c : Char} {rest : List (Operator × Char)} {strength : Bool}
    (h : ∀ p ∈ rest, p.1.isProduct = strength) {t : Phrase .sum} (ht : t.tokens = chain c rest) :
    t.formula.height = rest.length + 1 := by
  cases strength with
  | true =>
    obtain ⟨u, hu, hd⟩ := exists_tight_chain c h
    obtain rfl : t = .ofProduct u := Phrase.tokens_injective (ht.trans hu.symm)
    have hflat : u.formula.leaves.length = u.formula.height := Phrase.flat_product u hd
    exact hflat.symm.trans (length_leaves_chain hu)
  | false =>
    obtain ⟨u, hu, hheight⟩ := exists_loose_chain c h
    obtain rfl : t = u := Phrase.tokens_injective (ht.trans hu.symm)
    exact hheight

/-! ## What a limit refuses -/

theorem Phrase.fits_iff {tier : Tier} {limit : Nat} (hpos : 1 ≤ limit) {t : Phrase tier} :
    t.Fits limit 0 ↔ t.depth ≤ limit ∧ t.formula.height ≤ limit := by
  unfold Fits
  rw [Nat.zero_add, max_eq_left hpos]

theorem ofLexemes_of_phrase {lexemes : List Lexeme} {limits : Limits} (hpos : 1 ≤ limits.depth)
    {t : Phrase .sum} (ht : t.tokens = lexemes.map Lexeme.token) :
    ofLexemes lexemes limits =
      if t.depth ≤ limits.depth ∧ t.formula.height ≤ limits.depth then .ok t.formula
      else .error (.tooDeep limits.depth) := by
  rw [ofLexemes_phrase t limits ht.symm]
  simp only [Phrase.fits_iff hpos]

/-- A higher limit accepts the same formulas, and more. -/
theorem ofLexemes_mono {lexemes : List Lexeme} {limits limits' : Limits}
    (hle : limits.depth ≤ limits'.depth) {f : Formula} (h : ofLexemes lexemes limits = .ok f) :
    ofLexemes lexemes limits' = .ok f := by
  obtain ⟨t, ht, rfl⟩ := exists_phrase h
  rw [ofLexemes_phrase t limits ht.symm] at h
  by_cases hfits : t.Fits limits.depth 0
  · have hfits' : t.Fits limits'.depth 0 := by
      unfold Phrase.Fits at hfits ⊢
      omega
    rw [ofLexemes_phrase t limits' ht.symm, if_pos hfits']
  · rw [if_neg hfits] at h
    cases h

/-- What becomes of a chain under a limit. -/
structure CutChain (c : Char) (rest : List (Operator × Char)) (limit : Nat)
    (verdict : Except SyntaxError Formula) : Prop where
  /-- The chain is a formula without any nesting. -/
  flat : ∃ t : Phrase .sum, t.tokens = chain c rest ∧ ∀ n ∈ t.enclosures, n = 0
  /-- It is refused if it has more variables than the square of the limit. -/
  long : limit ^ 2 < rest.length + 1 → verdict = .error (.tooDeep limit)
  /-- With operators of one strength it is refused exactly if it has more variables than the
  limit. -/
  even : ∀ strength, (∀ p ∈ rest, p.1.isProduct = strength) →
    (verdict = .error (.tooDeep limit) ↔ limit < rest.length + 1)

theorem cutChain {c : Char} {rest : List (Operator × Char)} {lexemes : List Lexeme}
    {limits : Limits} (hpos : 1 ≤ limits.depth)
    (h : lexemes.map Lexeme.token = chain c rest) :
    CutChain c rest limits.depth (ofLexemes lexemes limits) := by
  obtain ⟨t, ht, hd⟩ := exists_chain c rest
  have hverdict := ofLexemes_of_phrase hpos (ht.trans h.symm)
  rw [hd] at hverdict
  refine ⟨⟨t, ht, fun n hn => ?_⟩, fun hlong => ?_, fun strength hstrength => ?_⟩
  · exact Nat.le_zero.mp (hd ▸ t.le_depth n hn)
  · have hleaves := Phrase.leaves_le_sq_height t hd
    rw [length_leaves_chain ht] at hleaves
    rw [hverdict, if_neg]
    rintro ⟨-, hheight⟩
    have hsq := Nat.pow_le_pow_left hheight 2
    omega
  · rw [hverdict, height_chain hstrength ht]
    split_ifs with hfits
    · exact iff_of_false nofun (by omega)
    · exact iff_of_true rfl (by omega)

/-- A limit refuses exactly the formulas that nest deeper or are higher than it says, and what is no
formula is refused under every limit. So a higher limit loses no formula and changes none. Chains of
operators do not nest, but are refused for their height once they are long. -/
theorem ofLexemes_limited :
    (∀ (lexemes : List Lexeme) (limits : Limits), 1 ≤ limits.depth →
      ∀ t : Phrase .sum, t.tokens = lexemes.map Lexeme.token →
      ∀ n, IsGreatest {m | m ∈ t.enclosures} n →
        ofLexemes lexemes limits =
          if n ≤ limits.depth ∧ t.formula.height ≤ limits.depth then .ok t.formula
          else .error (.tooDeep limits.depth)) ∧
    (∀ lexemes : List Lexeme, (¬ ∃ t : Phrase .sum, t.tokens = lexemes.map Lexeme.token) →
      ∀ limits, ∃ e, ofLexemes lexemes limits = .error e) ∧
    (∀ (lexemes : List Lexeme) (limits limits' : Limits) (f : Formula),
      limits.depth ≤ limits'.depth → ofLexemes lexemes limits = .ok f →
        ofLexemes lexemes limits' = .ok f) ∧
    ∀ (c : Char) (rest : List (Operator × Char)) (lexemes : List Lexeme) (limits : Limits),
      1 ≤ limits.depth → lexemes.map Lexeme.token = chain c rest →
        CutChain c rest limits.depth (ofLexemes lexemes limits) := by
  refine ⟨fun lexemes limits hpos t ht n hn => ?_, fun lexemes hno limits => ?_,
    fun _ _ _ _ hle h => ofLexemes_mono hle h, fun _ _ _ _ hpos h => cutChain hpos h⟩
  · rw [hn.unique t.isGreatest_depth]
    exact ofLexemes_of_phrase hpos ht
  · cases h : ofLexemes lexemes limits with
    | error e => exact ⟨e, rfl⟩
    | ok f =>
      obtain ⟨t, ht, -⟩ := exists_phrase h
      exact absurd ⟨t, ht⟩ hno

/-- A negated group nests twice, and its formula is of height three; a group that is not opened is
no formula; and a loose chain of three variables is of height three as well. -/
theorem ofLexemes_limited_group :
    let lexemes : List Lexeme := [⟨.not, 4⟩, ⟨.lparen, 0⟩, ⟨.var 'a', 1⟩, ⟨.op .and, 2⟩,
      ⟨.var 'B', 3⟩, ⟨.rparen, 5⟩]
    let loose : List Lexeme := [⟨.var 'a', 0⟩, ⟨.op .xor, 1⟩, ⟨.var 'b', 2⟩, ⟨.op .nor, 3⟩,
      ⟨.var 'c', 4⟩]
    (∃ t : Phrase .sum, t.tokens = lexemes.map Lexeme.token ∧
      IsGreatest {m | m ∈ t.enclosures} 2 ∧
      ofLexemes lexemes ⟨2, 0⟩ = .error (.tooDeep 2) ∧
      ofLexemes lexemes ⟨3, 0⟩ = .ok (.not (.binary .and (.var 'A') (.var 'B')))) ∧
    (∃ e, ofLexemes [⟨.rparen, 0⟩] ⟨0, 0⟩ = .error e) ∧
    ofLexemes lexemes ⟨9, 0⟩ = .ok (.not (.binary .and (.var 'A') (.var 'B'))) ∧
    loose.map Lexeme.token = chain 'a' [(.xor, 'b'), (.nor, 'c')] ∧
      CutChain 'a' [(.xor, 'b'), (.nor, 'c')] 2 (ofLexemes loose ⟨2, 0⟩) ∧
      ofLexemes loose ⟨2, 0⟩ = .error (.tooDeep 2) := by
  intro lexemes loose
  obtain ⟨hexact, hno, hmono, hchain⟩ := ofLexemes_limited
  let t : Phrase .sum := .ofProduct (.ofUnary (.not (.ofPrimary (.group (.ofProduct
    (.product (.ofUnary (.single 'a')) .and rfl (.single 'B')))))))
  have ht : t.tokens = lexemes.map Lexeme.token := rfl
  have hdepth : IsGreatest {m | m ∈ t.enclosures} 2 := t.isGreatest_depth
  have h3 := hexact lexemes ⟨3, 0⟩ (by decide) t ht 2 hdepth
  have hrparen : ¬ ∃ u : Phrase .sum, u.tokens = [⟨.rparen, 0⟩].map Lexeme.token := by
    rintro ⟨u, hu⟩
    have hone : [Lexeme.mk .rparen 0].length ≤ (⟨1, 0⟩ : Limits).depth := le_rfl
    cases (ofLexemes_eq_ok_iff hone).mpr ⟨u, hu, rfl⟩
  have hcut := hchain 'a' [(.xor, 'b'), (.nor, 'c')] loose ⟨2, 0⟩ (by decide) rfl
  exact ⟨⟨t, ht, hdepth, hexact lexemes ⟨2, 0⟩ (by decide) t ht 2 hdepth, h3⟩,
    hno _ hrparen ⟨0, 0⟩, hmono lexemes ⟨3, 0⟩ ⟨9, 0⟩ _ (by decide) h3, rfl, hcut,
    (hcut.even false (by decide)).mpr (by decide)⟩

end LogicCircuit.Formula
