import LogicCircuit.Proofs.Formula.Reading

/-!
# What decides whether tokens are accepted

Which tokens may follow, and which error is reported where they do not, only depends on whether an
operand is awaited and on the groups that are open. `Outline` keeps just that of a reader. The
formulas that the reader builds matter for their heights alone, so under a limit that is not less
than the number of tokens the outline decides everything.

Results:
* `Reader.Spells.outline_step`: a token does to the outline what it does to the reader.
* `ofLexemes_outline`: the outline decides whether a token sequence is accepted, and which error is
  reported otherwise.
-/

namespace LogicCircuit.Formula

/-! ## Outlines -/

/-- Whether an operand is awaited, and the positions of the parentheses that are open, the innermost
first. -/
structure Outline where
  awaiting : Bool
  groups : List Nat
  deriving DecidableEq, Repr

/-- What of a reader decides which tokens may follow. -/
def Reader.outline : Reader → Outline
  | awaiting _ outer => ⟨true, outer.map (·.start)⟩
  | complete _ _ outer => ⟨false, outer.map (·.start)⟩

namespace Outline

/-- Before the first token. -/
def start : Outline := ⟨true, []⟩

/-- The effect of one token. -/
def step : Outline → Lexeme → Except SyntaxError Outline
  | ⟨true, groups⟩, ⟨token, pos⟩ =>
    match token with
    | .var _ => .ok ⟨false, groups⟩
    | .not => .ok ⟨true, groups⟩
    | .lparen => .ok ⟨true, pos :: groups⟩
    | .rparen | .op _ => .error (.unexpectedToken token pos)
  | ⟨false, groups⟩, ⟨token, pos⟩ =>
    match token, groups with
    | .op _, groups => .ok ⟨true, groups⟩
    | token, [] => .error (.trailingToken token pos)
    | .rparen, _ :: outer => .ok ⟨false, outer⟩
    | _, group :: _ => .error (.unclosedGroup group)

/-- Whether the tokens may end. -/
def result : Outline → Except SyntaxError Unit
  | ⟨true, _⟩ => .error .incomplete
  | ⟨false, group :: _⟩ => .error (.unclosedGroup group)
  | ⟨false, []⟩ => .ok ()

end Outline

/-! ## Limits that are not less than the number of tokens -/

section Generous

variable (limit : Nat) {ts : List Token}

theorem bounded_phrase {tier : Tier} (t : Phrase tier) (h : t.tokens.length ≤ limit) :
    bounded limit t.formula = .ok t.formula :=
  if_pos (t.height_le_length.trans h)

theorem exists_negated (n : Nat) (t : Phrase .unary) (h : n + t.tokens.length ≤ limit) :
    ∃ f, negated limit n t.formula = .ok f := by
  induction n generalizing t with
  | zero => exact ⟨t.formula, rfl⟩
  | succ n ih =>
    have hlength : (Phrase.not t).tokens.length = t.tokens.length + 1 := rfl
    obtain ⟨f, hf⟩ := ih (.not t) (by omega)
    refine ⟨f, ?_⟩
    have hb : bounded limit t.formula.not = .ok t.formula.not :=
      bounded_phrase limit (.not t) (by omega)
    rw [negated, hb]
    exact hf

theorem ChainSpells.exists_continued {tier tier' : Tier} {strength : Bool}
    {chain : Option (Formula × Operator)} (hc : ChainSpells tier strength chain ts)
    (t : Phrase tier') (h : ts.length + t.tokens.length ≤ limit) :
    ∃ f, continued limit chain t.formula = .ok f := by
  cases hc with
  | none => exact ⟨t.formula, rfl⟩
  | some left op hop =>
    have hleft := left.height_le_length
    have hright := t.height_le_length
    rw [List.length_append, List.length_singleton] at h
    refine ⟨_, if_pos ?_⟩
    rw [height]
    omega

/-- An operand can be completed to a product. -/
theorem Pending.Spells.exists_completed {p : Pending} (hp : p.Spells ts) (t : Phrase .unary)
    (h : ts.length + t.tokens.length ≤ limit) : ∃ f, p.product? limit t.formula = .ok f := by
  obtain ⟨a, b, ha, hb, rfl⟩ := hp
  rw [List.length_append, List.length_append, List.length_replicate] at h
  obtain ⟨f, hf⟩ := exists_negated limit p.negations t (by omega)
  obtain ⟨u, hu, rfl⟩ := exists_unary t hf
  have hlength : u.tokens.length = p.negations + t.tokens.length := by
    rw [hu, List.length_append, List.length_replicate]
  obtain ⟨g, hg⟩ := hb.exists_continued limit u (by omega)
  exact ⟨g, bind_eq_ok.mpr ⟨u.formula, hf, hg⟩⟩

theorem Pending.Spells.negations_le {p : Pending} (hp : p.Spells ts) : p.negations ≤ ts.length := by
  obtain ⟨a, b, -, -, rfl⟩ := hp
  rw [List.length_append, List.length_replicate]
  omega

/-- Every parenthesis and negation that is open is one of the tokens. -/
theorem OuterSpells.nesting_le {outer : List Enclosing} (ho : OuterSpells outer ts) :
    nesting {} outer ≤ ts.length := by
  induction ho with
  | nil => exact le_rfl
  | @cons outer e a b _ hp ih =>
    have hneg := hp.negations_le
    have hnest : nesting {} (e :: outer) = nesting e.pending outer + 1 :=
      nesting_enclosed e.pending e.start outer
    rw [hnest, nesting_eq, List.length_append, List.length_append, List.length_singleton]
    omega

/-- A token does to the outline what it does to the reader. -/
theorem Reader.Spells.outline_step {r : Reader} (hr : r.Spells ts) (h : ts.length < limit)
    (l : Lexeme) : r.outline.step l = (r.step limit l).map Reader.outline := by
  obtain ⟨token, pos⟩ := l
  cases r with
  | awaiting p outer =>
    obtain ⟨a, b, ha, hb, rfl⟩ := hr
    rw [List.length_append] at h
    have hnest : nesting p outer + 1 ≤ limit := by
      have hn := ha.nesting_le
      have hb' := hb.negations_le
      rw [nesting_eq]
      omega
    cases token with
    | var c =>
      have hletter : (Phrase.ofPrimary (.letter c)).tokens.length = 1 := rfl
      obtain ⟨f, hf⟩ := hb.exists_completed limit (.ofPrimary (.letter c)) (by omega)
      have hf' : p.product? limit (.var c.toUpper) = .ok f := hf
      simp only [Reader.step, hf']
      rfl
    | not =>
      rw [step_not, if_pos hnest]
      rfl
    | lparen =>
      rw [step_lparen, if_pos hnest]
      rfl
    | rparen => rfl
    | op o => rfl
  | complete sum f outer =>
    obtain ⟨a, b, t, ha, hb, rfl, rfl⟩ := hr
    rw [List.length_append, List.length_append] at h
    obtain ⟨f, hf⟩ := hb.exists_continued limit t (by omega)
    cases token with
    | op o =>
      by_cases ho : o.isProduct = true
      · rw [step_product ho]
        rfl
      · rw [step_sum (Bool.eq_false_iff.mpr ho), hf]
        rfl
    | rparen =>
      simp only [Reader.step, hf]
      cases ha with
      | nil => rfl
      | @cons outer e a' b' ho hp =>
        obtain ⟨u, hu, rfl⟩ := hb.exists_sum t hf
        have hgroup : (Phrase.ofPrimary (.group u)).tokens.length = u.tokens.length + 2 := by
          simp [Phrase.tokens]
        rw [hu, List.length_append] at hgroup
        rw [List.length_append, List.length_append, List.length_singleton] at h
        obtain ⟨g, hg⟩ := hp.exists_completed limit (.ofPrimary (.group u)) (by omega)
        have hg' : e.pending.product? limit u.formula = .ok g := hg
        simp only [ok_bind, hg']
        rfl
    | var c | not | lparen =>
      simp only [Reader.step, hf]
      cases outer <;> rfl

theorem Reader.Spells.outline_result {r : Reader} (hr : r.Spells ts) (h : ts.length ≤ limit) :
    r.outline.result = (r.result limit).map fun _ => () := by
  cases r with
  | awaiting p outer => rfl
  | complete sum f outer =>
    obtain ⟨a, b, t, ha, hb, rfl, rfl⟩ := hr
    rw [List.length_append, List.length_append] at h
    obtain ⟨f, hf⟩ := hb.exists_continued limit t (by omega)
    simp only [Reader.result, hf]
    cases outer <;> rfl

theorem Reader.Spells.outline_foldlM {r : Reader} (hr : r.Spells ts) (ls : List Lexeme)
    (h : ts.length + ls.length ≤ limit) : ls.foldlM Outline.step r.outline =
      (ls.foldlM (Reader.step limit) r).map Reader.outline := by
  induction ls generalizing r ts with
  | nil => rfl
  | cons l ls ih =>
    rw [List.length_cons] at h
    rw [List.foldlM_cons, List.foldlM_cons, hr.outline_step limit (by omega) l]
    cases hl : r.step limit l with
    | error e => rfl
    | ok r' =>
      refine ih (hr.step hl) ?_
      rw [List.length_append, List.length_singleton]
      omega

end Generous

/-- The outline decides whether a token sequence is accepted, and which error is reported. -/
theorem ofLexemes_outline {lexemes : List Lexeme} {limits : Limits}
    (h : lexemes.length ≤ limits.depth) : (ofLexemes lexemes limits).map (fun _ => ()) =
      lexemes.foldlM Outline.step .start >>= Outline.result := by
  have hrun := Reader.spells_start.outline_foldlM limits.depth lexemes (by simpa using h)
  have hstart : Reader.start.outline = .start := rfl
  unfold ofLexemes
  rw [← hstart, hrun]
  cases hr : lexemes.foldlM (Reader.step limits.depth) Reader.start with
  | error e => rfl
  | ok r =>
    have hspells := Reader.spells_start.foldlM hr
    exact (hspells.outline_result limits.depth (by simpa using h)).symm

end LogicCircuit.Formula
