import LogicCircuit.Proofs.Formula.Grammar

/-!
# The grammar is unambiguous

Read from the right, every phrase closes at least as many parentheses as it opens, and closes one
more in front of an operator that its tier does not have. So the last operator of a chain is the
one behind which as many parentheses are opened as closed, and the tokens determine the phrase.

Results:
* `excess_drop_nonneg`: no phrase ends with more opening than closing parentheses.
* `Phrase.tokens_injective`: a phrase is determined by its tokens.
-/

namespace LogicCircuit.Formula

/-- How many more parentheses are closed than opened. -/
def excess (ts : List Token) : Int := ts.count .rparen - ts.count .lparen

theorem excess_append (a b : List Token) : excess (a ++ b) = excess a + excess b := by
  unfold excess
  rw [List.count_append, List.count_append]
  omega

theorem excess_cons_lparen (ts : List Token) : excess (.lparen :: ts) = excess ts - 1 := by
  unfold excess
  rw [List.count_cons_self, List.count_cons_of_ne (by decide)]
  omega

theorem excess_cons_of_ne {token : Token} (ts : List Token) (hl : token ≠ .lparen)
    (hr : token ≠ .rparen) : excess (token :: ts) = excess ts := by
  unfold excess
  rw [List.count_cons_of_ne hl, List.count_cons_of_ne hr]

@[simp] theorem excess_cons_op (op : Operator) (ts : List Token) :
    excess (.op op :: ts) = excess ts :=
  excess_cons_of_ne ts (by simp) (by simp)

theorem exists_excess_drop (a b : List Token) (op : Operator) (k : Nat) :
    ∃ j, excess ((a ++ .op op :: b).drop k) = excess (a.drop k) + excess (b.drop j) := by
  rw [List.drop_append, excess_append]
  cases k - a.length with
  | zero => exact ⟨0, by rw [List.drop_zero, excess_cons_op, List.drop_zero]⟩
  | succ j => exact ⟨j, rfl⟩

theorem excess_drop_rparen (k : Nat) : 0 ≤ excess ([.rparen].drop k) := by
  cases k with
  | zero => decide
  | succ k => simp [excess]

namespace Phrase

variable {tier : Tier}

/-! ## Parentheses in phrases -/

theorem excess_tokens (t : Phrase tier) : excess t.tokens = 0 := by
  induction t with
  | letter c => rfl
  | ofPrimary atom ih => exact ih
  | ofUnary factor ih => exact ih
  | ofProduct term ih => exact ih
  | group inner ih =>
    rw [tokens, excess_cons_lparen, excess_append, ih]
    rfl
  | not operand ih =>
    rw [tokens, excess_cons_of_ne _ (by decide) (by decide), ih]
  | product left op _ right ihl ihr | sum left op _ right ihl ihr =>
    rw [tokens, excess_append, excess_cons_op, ihl, ihr]
    rfl

/-- No phrase ends with more opening than closing parentheses. -/
theorem excess_drop_nonneg (t : Phrase tier) (k : Nat) : 0 ≤ excess (t.tokens.drop k) := by
  induction t generalizing k with
  | letter c =>
    cases k with
    | zero => exact le_rfl
    | succ k => simp [tokens, excess]
  | ofPrimary atom ih => exact ih k
  | ofUnary factor ih => exact ih k
  | ofProduct term ih => exact ih k
  | group inner ih =>
    cases k with
    | zero => exact (excess_tokens (group inner)).ge
    | succ k =>
      rw [tokens, List.drop_succ_cons, List.drop_append, excess_append]
      exact add_nonneg (ih k) (excess_drop_rparen _)
  | not operand ih =>
    cases k with
    | zero => exact (excess_tokens (not operand)).ge
    | succ k => exact ih k
  | product left op _ right ihl ihr | sum left op _ right ihl ihr =>
    obtain ⟨j, hj⟩ := exists_excess_drop left.tokens right.tokens op k
    rw [tokens, hj]
    exact add_nonneg (ihl k) (ihr j)

/-- The operators that a phrase of the tier holds in parentheses only. -/
def Encloses (op : Operator) : Tier → Prop
  | .sum => False
  | .product => op.isProduct = false
  | .unary | .primary => True

/-- Behind an operator that a phrase holds in parentheses only, one of them is closed. -/
theorem excess_drop_pos (t : Phrase tier) {op : Operator} (ho : Encloses op tier) {k : Nat}
    (hk : t.tokens[k]? = some (.op op)) : 0 < excess (t.tokens.drop (k + 1)) := by
  induction t generalizing k with
  | letter c =>
    cases k with
    | zero => cases hk
    | succ k => cases hk
  | ofPrimary atom ih => exact ih ho hk
  | ofUnary factor ih => exact ih trivial hk
  | ofProduct term ih => cases ho
  | sum left op' _ right ihl ihr => cases ho
  | not operand ih =>
    cases k with
    | zero => cases hk
    | succ k => exact ih ho hk
  | group inner ih =>
    cases k with
    | zero => cases hk
    | succ k =>
      rw [tokens, List.getElem?_cons_succ] at hk
      rw [tokens, List.drop_succ_cons, List.drop_append, excess_append]
      have hinner := inner.excess_drop_nonneg (k + 1)
      rcases Nat.lt_or_ge k inner.tokens.length with hlt | hge
      · rw [Nat.sub_eq_zero_of_le hlt]
        exact add_pos_of_nonneg_of_pos hinner (by decide)
      · rw [List.getElem?_append_right hge] at hk
        cases hj : k - inner.tokens.length with
        | zero => rw [hj] at hk; cases hk
        | succ j => rw [hj] at hk; cases hk
  | product left op' h right ihl ihr =>
    rw [tokens] at hk ⊢
    rw [List.drop_append, excess_append]
    rcases Nat.lt_or_ge k left.tokens.length with hlt | hge
    · rw [List.getElem?_append_left hlt] at hk
      rw [Nat.sub_eq_zero_of_le hlt, List.drop_zero, excess_cons_op, right.excess_tokens]
      exact add_pos_of_pos_of_nonneg (ihl ho hk) le_rfl
    · rw [List.getElem?_append_right hge] at hk
      rw [List.drop_eq_nil_of_le (Nat.le_succ_of_le hge), Nat.sub_add_comm hge, List.drop_succ_cons]
      cases hj : k - left.tokens.length with
      | zero =>
        rw [hj, List.getElem?_cons_zero] at hk
        cases hk
        exact absurd (h.symm.trans ho) (by decide)
      | succ j =>
        rw [hj, List.getElem?_cons_succ] at hk
        exact add_pos_of_nonneg_of_pos le_rfl (ihr trivial hk)

/-! ## Phrases and their tokens -/

/-- A phrase is not a chain whose last operator it would have to enclose. -/
theorem ne_chain (t last : Phrase tier) {op : Operator} (ho : Encloses op tier) {a : List Token} :
    t.tokens ≠ a ++ .op op :: last.tokens := by
  intro h
  have hop : t.tokens[a.length]? = some (.op op) := by
    rw [h, List.getElem?_append_right le_rfl, Nat.sub_self]
    rfl
  have hpos := t.excess_drop_pos ho hop
  rw [h, List.drop_append, List.drop_eq_nil_of_le (Nat.le_succ _), Nat.add_sub_cancel_left] at hpos
  exact absurd last.excess_tokens hpos.ne'

/-- The tokens of a chain tell its last operator apart from the others, which are enclosed. -/
theorem eq_nil_of_chain (last other : Phrase tier) {op op' : Operator} (ho : Encloses op' tier)
    {c : List Token} (h : .op op :: last.tokens = c ++ .op op' :: other.tokens) : c = [] := by
  cases c with
  | nil => rfl
  | cons x c =>
    rw [List.cons_append] at h
    exact absurd (List.cons.inj h).2 (ne_chain last other ho)

theorem chain_inj {a a' : List Token} (last last' : Phrase tier) {op op' : Operator}
    (ho : Encloses op tier) (ho' : Encloses op' tier)
    (h : a ++ .op op :: last.tokens = a' ++ .op op' :: last'.tokens) :
    a = a' ∧ op = op' ∧ last.tokens = last'.tokens := by
  have heq : a = a' := by
    rcases List.append_eq_append_iff.mp h with ⟨c, rfl, hc⟩ | ⟨c, rfl, hc⟩
    · rw [eq_nil_of_chain last last' ho' hc, List.append_nil]
    · rw [eq_nil_of_chain last' last ho hc, List.append_nil]
  subst heq
  obtain ⟨hop, hlast⟩ := List.cons.inj (List.append_cancel_left h)
  exact ⟨rfl, Token.op.inj hop, hlast⟩

/-- A phrase is determined by its tokens. -/
theorem tokens_injective {t u : Phrase tier} (h : t.tokens = u.tokens) : t = u := by
  induction t with
  | letter c =>
    cases u with
    | letter c' =>
      cases h
      rfl
    | group inner => cases h
  | group inner ih =>
    cases u with
    | letter c => cases h
    | group inner' =>
      obtain ⟨-, h⟩ := List.cons.inj h
      rw [ih (List.append_cancel_right h)]
  | ofPrimary atom ih =>
    cases u with
    | ofPrimary atom' => rw [ih h]
    | not operand =>
      cases atom with
      | letter c => cases h
      | group inner => cases h
  | not operand ih =>
    cases u with
    | ofPrimary atom =>
      cases atom with
      | letter c => cases h
      | group inner => cases h
    | not operand' => rw [ih (List.cons.inj h).2]
  | ofUnary factor ih =>
    cases u with
    | ofUnary factor' => rw [ih h]
    | product left op _ right => exact absurd h (ne_chain factor right trivial)
  | product left op _ right ihl ihr =>
    cases u with
    | ofUnary factor => exact absurd h.symm (ne_chain factor right trivial)
    | product left' op' _ right' =>
      obtain ⟨hl, rfl, hr⟩ := chain_inj right right' trivial trivial h
      rw [ihl hl, ihr hr]
  | ofProduct term ih =>
    cases u with
    | ofProduct term' => rw [ih h]
    | sum left op ho right => exact absurd h (ne_chain term right ho)
  | sum left op ho right ihl ihr =>
    cases u with
    | ofProduct term => exact absurd h.symm (ne_chain term right ho)
    | sum left' op' ho' right' =>
      obtain ⟨hl, rfl, hr⟩ := chain_inj right right' ho ho' h
      rw [ihl hl, ihr hr]

end Phrase

end LogicCircuit.Formula
