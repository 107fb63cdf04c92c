import LogicCircuit.Proofs.Except
import LogicCircuit.Proofs.Formula.Unambiguous

/-!
# The parser reads the grammar

The parser goes through the tokens once. A phrase that it meets where one is awaited is read as a
whole, unless the limit stops it; and whatever it has read, what it remembers spells the tokens so
far.

Results:
* `reads_phrase`, `ofLexemes_phrase`: what the tokens of a phrase do to the reader, under any limit.
* `Reader.Spells.step`, `exists_phrase`: what the reader remembers spells the tokens, so that no
  formula is returned that they do not derive.
* `ofLexemes_grammar`: the parser accepts exactly the grammar.
-/

namespace LogicCircuit.Formula

/-! ## Phrases are read as a whole -/

/-- Whether a limit lets a phrase pass that stands in some depth. A letter passes under any limit,
as its height is not looked at. -/
def Phrase.Fits {tier : Tier} (t : Phrase tier) (limit depth : Nat) : Prop :=
  depth + t.depth ≤ limit ∧ t.formula.height ≤ max limit 1

instance {tier : Tier} (t : Phrase tier) (limit depth : Nat) : Decidable (t.Fits limit depth) :=
  inferInstanceAs (Decidable (_ ∧ _))

/-- What reading the tokens of a phrase comes to. An operand completes a product, a product is
completed as it is, and a formula is complete but for its last node, which has not been built. -/
def Phrase.ReadsAs (limit : Nat) : {tier : Tier} → Phrase tier → Prop
  | .primary, t | .unary, t => ∀ (ls : List Lexeme) p outer, ls.map Lexeme.token = t.tokens →
      nesting p outer ≤ limit → ls.foldlM (Reader.step limit) (.awaiting p outer) =
        if t.Fits limit (nesting p outer) then
          do return .complete p.sum (← p.product? limit t.formula) outer
        else .error (.tooDeep limit)
  | .product, t => ∀ (ls : List Lexeme) sum outer, ls.map Lexeme.token = t.tokens →
      nesting {} outer ≤ limit → ls.foldlM (Reader.step limit) (.awaiting { sum } outer) =
        if t.Fits limit (nesting {} outer) then .ok (.complete sum t.formula outer)
        else .error (.tooDeep limit)
  | .sum, t => ∀ (ls : List Lexeme) outer, ls.map Lexeme.token = t.tokens →
      nesting {} outer ≤ limit →
      (¬ t.Fits limit (nesting {} outer) ∧
        ls.foldlM (Reader.step limit) (.awaiting {} outer) = .error (.tooDeep limit)) ∨
      ∃ chain last, ls.foldlM (Reader.step limit) (.awaiting {} outer) =
          .ok (.complete chain last outer) ∧
        continued limit chain last =
          if t.Fits limit (nesting {} outer) then .ok t.formula else .error (.tooDeep limit)

theorem nesting_eq (p : Pending) (outer : List Enclosing) :
    nesting p outer = nesting {} outer + p.negations := by
  induction outer with
  | nil => exact (Nat.zero_add _).symm
  | cons e outer ih =>
    unfold nesting at ih ⊢
    rw [List.foldr_cons, List.foldr_cons, ih]
    exact (Nat.add_assoc _ _ _).symm

theorem nesting_enclosed (p : Pending) (start : Nat) (outer : List Enclosing) :
    nesting {} (⟨start, p⟩ :: outer) = nesting p outer + 1 := by
  have h : nesting {} (⟨start, p⟩ :: outer) = 1 + p.negations + nesting {} outer := rfl
  rw [h, nesting_eq p]
  omega

theorem nesting_negated (p : Pending) (outer : List Enclosing) :
    nesting { p with negations := p.negations + 1 } outer = nesting p outer + 1 := by
  rw [nesting_eq, nesting_eq p]
  exact (Nat.add_assoc _ _ _).symm

namespace Phrase

variable {limit depth : Nat}

theorem fits_group {inner : Phrase .sum} :
    (group inner).Fits limit depth ↔ inner.Fits limit (depth + 1) := by
  unfold Fits
  simp only [Phrase.depth, formula]
  omega

theorem fits_not {operand : Phrase .unary} : (not operand).Fits limit depth ↔
    operand.Fits limit (depth + 1) ∧ operand.formula.not.height ≤ limit := by
  have hpos := operand.formula.height_pos
  unfold Fits
  simp only [Phrase.depth, formula, height]
  omega

/-- A chain passes if its operands do and its last node is not too high. -/
theorem fits_chain {tier tier₁ tier₂ : Tier} {t : Phrase tier} {left : Phrase tier₁}
    {right : Phrase tier₂} {op : Operator} (hd : t.depth = max left.depth right.depth)
    (hf : t.formula = .binary op left.formula right.formula) : t.Fits limit depth ↔
      left.Fits limit depth ∧ right.Fits limit depth ∧ t.formula.height ≤ limit := by
  have hpos := left.formula.height_pos
  unfold Fits
  rw [hd, hf, height]
  omega

theorem fits_product {left : Phrase .product} {op : Operator} {h : op.isProduct = true}
    {right : Phrase .unary} : (product left op h right).Fits limit depth ↔
      left.Fits limit depth ∧ right.Fits limit depth ∧
        (binary op left.formula right.formula).height ≤ limit :=
  fits_chain rfl rfl

theorem fits_sum {left : Phrase .sum} {op : Operator} {h : op.isProduct = false}
    {right : Phrase .product} : (sum left op h right).Fits limit depth ↔
      left.Fits limit depth ∧ right.Fits limit depth ∧
        (binary op left.formula right.formula).height ≤ limit :=
  fits_chain rfl rfl

end Phrase

/-! ## Single tokens -/

theorem step_lparen (limit pos : Nat) (p : Pending) (outer : List Enclosing) :
    Reader.step limit (.awaiting p outer) ⟨.lparen, pos⟩ =
      if nesting p outer + 1 ≤ limit then .ok (.awaiting {} (⟨pos, p⟩ :: outer))
      else .error (.tooDeep limit) := by
  rw [← nesting_enclosed p pos outer]
  rfl

theorem step_not (limit pos : Nat) (p : Pending) (outer : List Enclosing) :
    Reader.step limit (.awaiting p outer) ⟨.not, pos⟩ =
      if nesting p outer + 1 ≤ limit then
        .ok (.awaiting { p with negations := p.negations + 1 } outer)
      else .error (.tooDeep limit) := by
  rw [← nesting_negated p outer]
  rfl

theorem step_product {op : Operator} (h : op.isProduct = true) (limit pos : Nat)
    (sum : Option (Formula × Operator)) (f : Formula) (outer : List Enclosing) :
    Reader.step limit (.complete sum f outer) ⟨.op op, pos⟩ =
      .ok (.awaiting { sum, product := some (f, op) } outer) := if_pos h

theorem step_sum {op : Operator} (h : op.isProduct = false) (limit pos : Nat)
    (sum : Option (Formula × Operator)) (f : Formula) (outer : List Enclosing) :
    Reader.step limit (.complete sum f outer) ⟨.op op, pos⟩ =
      (continued limit sum f >>= fun f => .ok (.awaiting { sum := some (f, op) } outer)) :=
  if_neg (ne_true_of_eq_false h)

/-- A negation in front of an operand is built before the others and before the product. -/
theorem product?_negated (limit : Nat) (p : Pending) (f : Formula) :
    Pending.product? limit { p with negations := p.negations + 1 } f =
      if f.not.height ≤ limit then p.product? limit f.not else .error (.tooDeep limit) := by
  unfold Pending.product?
  rw [negated, bounded]
  split_ifs <;> rfl

theorem reads_phrase (limit : Nat) {tier : Tier} (t : Phrase tier) : t.ReadsAs limit := by
  induction t with
  | letter c =>
    intro ls p outer hls hn
    obtain ⟨pos, rfl⟩ := map_token_eq_singleton.mp hls
    rw [if_pos ⟨hn, le_max_right limit 1⟩, List.foldlM_cons]
    simp only [Reader.step, Phrase.formula]
    cases p.product? limit (.var c.toUpper) <;> rfl
  | ofPrimary atom ih => exact ih
  | group inner ih =>
    intro ls p outer hls hn
    obtain ⟨pos, rest, rfl, hrest⟩ := map_token_eq_cons.mp hls
    obtain ⟨mid, last, rfl, hmid, hlast⟩ := List.map_eq_append_iff.mp hrest
    obtain ⟨pos', rfl⟩ := map_token_eq_singleton.mp hlast
    rw [List.foldlM_cons, step_lparen]
    simp only [Phrase.fits_group]
    by_cases hin : nesting p outer + 1 ≤ limit
    · have hmid' := ih mid (⟨pos, p⟩ :: outer) hmid
      rw [nesting_enclosed] at hmid'
      rw [if_pos hin, ok_bind, List.foldlM_append]
      rcases hmid' hin with ⟨hno, herr⟩ | ⟨chain, last, hok, hcont⟩
      · rw [herr, if_neg hno, error_bind]
      · rw [hok, ok_bind, List.foldlM_cons]
        simp only [Reader.step, hcont]
        split_ifs with hfit
        · rw [ok_bind]
          simp only [Phrase.formula]
          cases p.product? limit inner.formula <;> rfl
        · rfl
    · rw [if_neg hin, if_neg fun hfit => hin (le_trans (Nat.le_add_right _ _) hfit.1), error_bind]
  | not operand ih =>
    intro ls p outer hls hn
    obtain ⟨pos, rest, rfl, hrest⟩ := map_token_eq_cons.mp hls
    rw [List.foldlM_cons, step_not]
    simp only [Phrase.fits_not]
    by_cases hin : nesting p outer + 1 ≤ limit
    · have hrest' := ih rest { p with negations := p.negations + 1 } outer hrest
      rw [nesting_negated] at hrest'
      rw [if_pos hin, ok_bind, hrest' hin, product?_negated]
      by_cases hfit : operand.Fits limit (nesting p outer + 1)
      · rw [if_pos hfit]
        by_cases hheight : operand.formula.not.height ≤ limit
        · rw [if_pos hheight, if_pos ⟨hfit, hheight⟩]
          rfl
        · rw [if_neg hheight, if_neg fun hboth => hheight hboth.2, error_bind]
      · rw [if_neg hfit, if_neg fun hboth => hfit hboth.1]
    · rw [if_neg hin, if_neg fun hboth => hin (le_trans (Nat.le_add_right _ _) hboth.1.1),
        error_bind]
  | ofUnary factor ih =>
    intro ls sum outer hls hn
    exact ih ls { sum } outer hls hn
  | product left op h right ihl ihr =>
    intro ls sum outer hls hn
    obtain ⟨a, rest, rfl, ha, hrest⟩ := List.map_eq_append_iff.mp hls
    obtain ⟨pos, b, rfl, hb⟩ := map_token_eq_cons.mp hrest
    have hright : b.foldlM (Reader.step limit)
        (.awaiting { sum, product := some (left.formula, op) } outer) =
          if right.Fits limit (nesting {} outer) then
            bounded limit (.binary op left.formula right.formula) >>= fun f =>
              .ok (.complete sum f outer)
          else .error (.tooDeep limit) :=
      ihr b { sum, product := some (left.formula, op) } outer hb hn
    rw [List.foldlM_append, ihl a sum outer ha hn]
    simp only [Phrase.fits_product]
    by_cases hl : left.Fits limit (nesting {} outer)
    · rw [if_pos hl, ok_bind, List.foldlM_cons, step_product h, ok_bind, hright]
      by_cases hr : right.Fits limit (nesting {} outer)
      · rw [if_pos hr, bounded]
        by_cases hheight : (binary op left.formula right.formula).height ≤ limit
        · rw [if_pos hheight, if_pos ⟨hl, hr, hheight⟩, ok_bind]
          rfl
        · rw [if_neg hheight, if_neg fun hall => hheight hall.2.2, error_bind]
      · rw [if_neg hr, if_neg fun hall => hr hall.2.1]
    · rw [if_neg hl, if_neg fun hall => hl hall.1, error_bind]
  | ofProduct term ih =>
    intro ls outer hls hn
    by_cases hfit : term.Fits limit (nesting {} outer)
    · refine Or.inr ⟨none, term.formula, ?_, (if_pos hfit).symm⟩
      exact (ih ls none outer hls hn).trans (if_pos hfit)
    · exact Or.inl ⟨hfit, (ih ls none outer hls hn).trans (if_neg hfit)⟩
  | sum left op h right ihl ihr =>
    intro ls outer hls hn
    obtain ⟨a, rest, rfl, ha, hrest⟩ := List.map_eq_append_iff.mp hls
    obtain ⟨pos, b, rfl, hb⟩ := map_token_eq_cons.mp hrest
    rw [List.foldlM_append]
    simp only [Phrase.fits_sum]
    rcases ihl a outer ha hn with ⟨hno, herr⟩ | ⟨chain, last, hok, hcont⟩
    · exact Or.inl ⟨fun hall => hno hall.1, by rw [herr, error_bind]⟩
    · rw [hok, ok_bind, List.foldlM_cons, step_sum h, hcont]
      by_cases hl : left.Fits limit (nesting {} outer)
      · rw [if_pos hl, ok_bind, ok_bind]
        have hright : b.foldlM (Reader.step limit)
            (.awaiting { sum := some (left.formula, op) } outer) =
              if right.Fits limit (nesting {} outer) then
                .ok (.complete (some (left.formula, op)) right.formula outer)
              else .error (.tooDeep limit) := ihr b _ outer hb hn
        by_cases hr : right.Fits limit (nesting {} outer)
        · refine Or.inr ⟨some (left.formula, op), right.formula, ?_, ?_⟩
          · rw [hright, if_pos hr]
          · simp only [continued, bounded, hl, hr, true_and]
            rfl
        · refine Or.inl ⟨fun hall => hr hall.2.1, ?_⟩
          rw [hright, if_neg hr]
      · refine Or.inl ⟨fun hall => hl hall.1, ?_⟩
        rw [if_neg hl]
        rfl

/-- The parser on the tokens of a formula: the formula is returned unless the limit is too low. -/
theorem ofLexemes_phrase (t : Phrase .sum) {lexemes : List Lexeme} (limits : Limits)
    (h : lexemes.map Lexeme.token = t.tokens) :
    ofLexemes lexemes limits =
      if t.Fits limits.depth 0 then .ok t.formula else .error (.tooDeep limits.depth) := by
  unfold ofLexemes Reader.start
  rcases reads_phrase limits.depth t lexemes [] h (Nat.zero_le _) with
    ⟨hno, herr⟩ | ⟨chain, last, hok, hcont⟩
  · rw [herr, error_bind]
    exact (if_neg hno).symm
  · rw [hok, ok_bind]
    simp only [Reader.result, hcont]
    split_ifs with hfit hfit' hfit'
    · rfl
    · exact absurd hfit hfit'
    · exact absurd hfit' hfit
    · rfl

/-! ## What has been read -/

/-- The tokens of a chain that ends with an operator; the chain may be missing. -/
inductive ChainSpells (tier : Tier) (strength : Bool) :
    Option (Formula × Operator) → List Token → Prop where
  | none : ChainSpells tier strength none []
  | some (t : Phrase tier) (op : Operator) (h : op.isProduct = strength) :
      ChainSpells tier strength (some (t.formula, op)) (t.tokens ++ [.op op])

/-- The tokens that stand in a group in front of the operand that is awaited. -/
def Pending.Spells (p : Pending) (ts : List Token) : Prop :=
  ∃ a b, ChainSpells .sum false p.sum a ∧ ChainSpells .product true p.product b ∧
    ts = a ++ b ++ List.replicate p.negations .not

/-- The tokens up to the parenthesis that opens the innermost group. -/
inductive OuterSpells : List Enclosing → List Token → Prop where
  | nil : OuterSpells [] []
  | cons {outer : List Enclosing} {e : Enclosing} {a b : List Token} (ho : OuterSpells outer a)
      (hp : e.pending.Spells b) : OuterSpells (e :: outer) (a ++ b ++ [.lparen])

/-- The tokens that have been read. -/
def Reader.Spells : Reader → List Token → Prop
  | .awaiting p outer, ts => ∃ a b, OuterSpells outer a ∧ p.Spells b ∧ ts = a ++ b
  | .complete sum f outer, ts => ∃ a b, ∃ t : Phrase .product, OuterSpells outer a ∧
      ChainSpells .sum false sum b ∧ t.formula = f ∧ ts = a ++ b ++ t.tokens

theorem Pending.Spells.empty : Pending.Spells {} [] := ⟨[], [], .none, .none, rfl⟩

theorem Reader.spells_start : Reader.start.Spells [] :=
  ⟨[], [], .nil, .empty, rfl⟩

theorem bounded_eq_ok {limit : Nat} {f g : Formula} (h : bounded limit f = .ok g) : g = f := by
  unfold bounded at h
  split_ifs at h
  cases h
  rfl

/-- A chain with its last operand is a formula. -/
theorem ChainSpells.exists_sum {limit : Nat} {chain : Option (Formula × Operator)} {ts : List Token}
    (hc : ChainSpells .sum false chain ts) (t : Phrase .product) {f : Formula}
    (h : continued limit chain t.formula = .ok f) :
    ∃ u : Phrase .sum, u.tokens = ts ++ t.tokens ∧ u.formula = f := by
  cases hc with
  | none =>
    cases h
    exact ⟨.ofProduct t, rfl, rfl⟩
  | some left op hop =>
    obtain rfl := bounded_eq_ok h
    exact ⟨.sum left op hop t, by simp [Phrase.tokens], rfl⟩

theorem ChainSpells.exists_product {limit : Nat} {chain : Option (Formula × Operator)}
    {ts : List Token} (hc : ChainSpells .product true chain ts) (t : Phrase .unary) {f : Formula}
    (h : continued limit chain t.formula = .ok f) :
    ∃ u : Phrase .product, u.tokens = ts ++ t.tokens ∧ u.formula = f := by
  cases hc with
  | none =>
    cases h
    exact ⟨.ofUnary t, rfl, rfl⟩
  | some left op hop =>
    obtain rfl := bounded_eq_ok h
    exact ⟨.product left op hop t, by simp [Phrase.tokens], rfl⟩

/-- An operand under negations is an operand. -/
theorem exists_unary {limit n : Nat} (t : Phrase .unary) {f : Formula}
    (h : negated limit n t.formula = .ok f) :
    ∃ u : Phrase .unary, u.tokens = List.replicate n .not ++ t.tokens ∧ u.formula = f := by
  induction n generalizing t with
  | zero =>
    cases h
    exact ⟨t, rfl, rfl⟩
  | succ n ih =>
    rw [negated, bind_eq_ok] at h
    obtain ⟨g, hb, hn⟩ := h
    obtain rfl := bounded_eq_ok hb
    obtain ⟨u, hu, rfl⟩ := ih (.not t) hn
    refine ⟨u, ?_, rfl⟩
    rw [hu, Phrase.tokens, List.replicate_succ', List.append_assoc]
    rfl

/-- An operand completes the product in front of which it stands. -/
theorem Pending.Spells.exists_product {limit : Nat} {p : Pending} {ts : List Token}
    (hp : p.Spells ts) (t : Phrase .unary) {f : Formula}
    (h : p.product? limit t.formula = .ok f) :
    ∃ a, ∃ u : Phrase .product, ChainSpells .sum false p.sum a ∧ u.formula = f ∧
      ts ++ t.tokens = a ++ u.tokens := by
  obtain ⟨a, b, ha, hb, rfl⟩ := hp
  obtain ⟨g, hneg, hcont⟩ := bind_eq_ok.mp h
  obtain ⟨v, hv, rfl⟩ := exists_unary t hneg
  obtain ⟨u, hu, rfl⟩ := hb.exists_product v hcont
  refine ⟨a, u, ha, rfl, ?_⟩
  rw [hu, hv, List.append_assoc, List.append_assoc]

theorem Pending.Spells.negated {p : Pending} {ts : List Token} (hp : p.Spells ts) :
    Pending.Spells { p with negations := p.negations + 1 } (ts ++ [.not]) := by
  obtain ⟨a, b, ha, hb, rfl⟩ := hp
  refine ⟨a, b, ha, hb, ?_⟩
  rw [List.replicate_succ', List.append_assoc]

/-- What the reader remembers goes on spelling the tokens. -/
theorem Reader.Spells.step {limit : Nat} {r r' : Reader} {ts : List Token} (hr : r.Spells ts)
    {l : Lexeme} (h : r.step limit l = .ok r') : r'.Spells (ts ++ [l.token]) := by
  obtain ⟨token, pos⟩ := l
  cases r with
  | awaiting p outer =>
    obtain ⟨a, b, ha, hb, rfl⟩ := hr
    cases token with
    | var c =>
      obtain ⟨f, hf, he⟩ := bind_eq_ok.mp h
      cases he
      obtain ⟨d, u, hd, rfl, hu⟩ := hb.exists_product (.ofPrimary (.letter c)) hf
      exact ⟨a, d, u, ha, hd, rfl, by rw [List.append_assoc, List.append_assoc, ← hu]; rfl⟩
    | not =>
      rw [step_not] at h
      split_ifs at h
      cases h
      exact ⟨a, b ++ [.not], ha, hb.negated, List.append_assoc _ _ _⟩
    | lparen =>
      rw [step_lparen] at h
      split_ifs at h
      cases h
      exact ⟨a ++ b ++ [.lparen], [], .cons ha hb, .empty, (List.append_nil _).symm⟩
    | rparen => cases h
    | op o => cases h
  | complete sum f outer =>
    obtain ⟨a, b, t, ha, hb, rfl, rfl⟩ := hr
    cases token with
    | op o =>
      by_cases ho : o.isProduct = true
      · rw [step_product ho] at h
        cases h
        refine ⟨a, b ++ (t.tokens ++ [.op o]), ha, ⟨b, _, hb, .some t o ho, ?_⟩, by simp⟩
        simp
      · rw [Bool.not_eq_true] at ho
        rw [step_sum ho] at h
        obtain ⟨f, hf, he⟩ := bind_eq_ok.mp h
        cases he
        obtain ⟨u, hu, rfl⟩ := hb.exists_sum t hf
        refine ⟨a, u.tokens ++ [.op o], ha, ⟨_, [], .some u o ho, .none, ?_⟩, by simp [hu]⟩
        simp
    | rparen =>
      obtain ⟨f, hf, he⟩ := bind_eq_ok.mp h
      obtain ⟨u, hu, rfl⟩ := hb.exists_sum t hf
      cases ha with
      | nil => cases he
      | @cons outer e a' b' ho hp =>
        obtain ⟨g, hg, hr'⟩ := bind_eq_ok.mp he
        cases hr'
        obtain ⟨d, v, hd, rfl, hv⟩ := hp.exists_product (.ofPrimary (.group u)) hg
        refine ⟨a', d, v, ho, hd, rfl, ?_⟩
        rw [List.append_assoc a' d, ← hv]
        simp [Phrase.tokens, hu]
    | var c | not | lparen =>
      obtain ⟨f, -, he⟩ := bind_eq_ok.mp h
      cases outer with
      | nil => cases he
      | cons e outer => cases he

theorem Reader.Spells.foldlM {limit : Nat} {r r' : Reader} {ts : List Token} (hr : r.Spells ts)
    {ls : List Lexeme} (h : ls.foldlM (Reader.step limit) r = .ok r') :
    r'.Spells (ts ++ ls.map Lexeme.token) := by
  induction ls generalizing r ts with
  | nil =>
    cases h
    simpa using hr
  | cons l ls ih =>
    rw [List.foldlM_cons, bind_eq_ok] at h
    obtain ⟨r₁, h₁, h⟩ := h
    simpa using ih (hr.step h₁) h

/-- Where the parser returns a formula, the tokens derive it. -/
theorem exists_phrase {lexemes : List Lexeme} {limits : Limits} {f : Formula}
    (h : ofLexemes lexemes limits = .ok f) :
    ∃ t : Phrase .sum, t.tokens = lexemes.map Lexeme.token ∧ t.formula = f := by
  obtain ⟨r, hread, hresult⟩ := bind_eq_ok.mp h
  have hspells := Reader.spells_start.foldlM hread
  rw [List.nil_append] at hspells
  cases r with
  | awaiting p outer => cases hresult
  | complete sum f outer =>
    obtain ⟨g, hg, he⟩ := bind_eq_ok.mp hresult
    obtain ⟨a, b, t, ha, hb, rfl, htokens⟩ := hspells
    cases ha with
    | cons ho hp => cases he
    | nil =>
      cases he
      obtain ⟨u, hu, rfl⟩ := hb.exists_sum t hg
      exact ⟨u, by rw [hu, htokens, List.nil_append], rfl⟩

/-! ## The language of the parser -/

theorem ofLexemes_eq_ok_iff {lexemes : List Lexeme} {limits : Limits}
    (h : lexemes.length ≤ limits.depth) {f : Formula} : ofLexemes lexemes limits = .ok f ↔
      ∃ t : Phrase .sum, t.tokens = lexemes.map Lexeme.token ∧ t.formula = f := by
  refine ⟨exists_phrase, ?_⟩
  rintro ⟨t, ht, rfl⟩
  have hlength : t.tokens.length ≤ limits.depth := by rwa [ht, List.length_map]
  have hdepth := t.depth_le_length
  have hheight := t.height_le_length
  have hfits : t.Fits limits.depth 0 := by
    unfold Phrase.Fits
    omega
  rw [ofLexemes_phrase t limits ht.symm, if_pos hfits]

/-- Under a limit that no phrase of their number can reach, the parser accepts exactly the tokens
that the grammar derives, and returns the formula that they derive. The grammar is unambiguous,
even as to how a formula is derived, and a formula has the variables among its tokens for leaves. -/
theorem ofLexemes_grammar :
    (∀ (lexemes : List Lexeme) (limits : Limits), lexemes.length ≤ limits.depth → ∀ f,
      (ofLexemes lexemes limits = .ok f ↔
        ∃ t : Phrase .sum, t.tokens = lexemes.map Lexeme.token ∧ t.formula = f)) ∧
    (∀ t u : Phrase .sum, t.tokens = u.tokens → t = u) ∧
    ∀ (lexemes : List Lexeme) (limits : Limits) (f : Formula), ofLexemes lexemes limits = .ok f →
      f.leaves = (lexemes.filterMap (·.token.letter?)).map Char.toUpper := by
  refine ⟨fun _ _ h _ => ofLexemes_eq_ok_iff h, fun _ _ => Phrase.tokens_injective, ?_⟩
  intro lexemes limits f h
  obtain ⟨t, ht, rfl⟩ := exists_phrase h
  rw [t.leaves_formula, ht, List.filterMap_map]
  rfl

/-- The tight operator is taken first, and chains lean to the left. -/
theorem ofLexemes_grammar_chain :
    ofLexemes [⟨.var 'a', 7⟩, ⟨.op .or, 7⟩, ⟨.not, 0⟩, ⟨.var 'B', 2⟩, ⟨.op .nand, 1⟩, ⟨.var 'a', 3⟩,
      ⟨.op .xor, 4⟩, ⟨.var 'é', 5⟩] ⟨8, 0⟩ =
    .ok (.binary .xor (.binary .or (.var 'A') (.binary .nand (.not (.var 'B')) (.var 'A')))
      (.var 'é')) :=
  (ofLexemes_grammar.1 _ ⟨8, 0⟩ (by decide) _).mpr
    ⟨.sum (.sum (.ofProduct (.ofUnary (.ofPrimary (.letter 'a')))) .or rfl
      (.product (.ofUnary (.not (.ofPrimary (.letter 'B')))) .nand rfl (.ofPrimary (.letter 'a'))))
      .xor rfl (.ofUnary (.ofPrimary (.letter 'é'))), rfl, rfl⟩

end LogicCircuit.Formula
