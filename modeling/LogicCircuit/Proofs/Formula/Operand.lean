import LogicCircuit.Proofs.Formula.Scanning
import LogicCircuit.Proofs.Formula.Viable

/-!
# The operand that a mark belongs to

A mark of negation behind its operand is moved in front of it. If the operand is a group, its
beginning is looked for from the last token on, and a counter tells how many groups are to be opened
yet. The tokens in front of a mark need not be balanced, so it takes a proof that the counter never
falls below zero. What carries it is that the tokens passed over close as many groups that they do
not open as the counter says, and at least one wherever the search has come by.

Results:
* `groupStart?_spec`: the search comes to an end, with the last parenthesis that opens a group which
  reaches to the last token.
* `exists_operandFrom`: a mark is put in front of the operand, and all else stays.
* `negation_exact`: this is what the scanner does, whatever the tokens, and its counter never falls
  below zero, whatever the text.
-/

namespace LogicCircuit.Formula

variable {tokens : List Lexeme} {i k : Nat}

/-! ## Moving a mark by counting -/

/-- Look among the first tokens, from the last of them on, for the parenthesis that opens the last
of so many groups. There is an answer if the tokens begin before it is found. Counting below zero is
a failure. -/
def groupStart? (tokens : List Lexeme) : Nat → Nat → Option (Option Nat)
  | 0, _ => some none
  | i + 1, depth => do
    let l ← tokens[i]?
    match l.token with
    | .rparen => groupStart? tokens i (depth + 1)
    | .lparen =>
      if depth = 0 then none
      else if depth = 1 then some (some i)
      else groupStart? tokens i (depth - 1)
    | _ => groupStart? tokens i depth

/-- Put a token in front of the one with the given number. A number beyond the end is a failure. -/
def insertAt? (tokens : List Lexeme) (k : Nat) (l : Lexeme) : Option (List Lexeme) :=
  if k ≤ tokens.length then some (tokens.take k ++ l :: tokens.drop k) else none

/-- The last token. -/
def lastToken? (tokens : List Lexeme) : Option Token := tokens.getLast?.map Lexeme.token

/-- Negate the operand that the tokens end with. -/
def moveNegation? (pos : Nat) (tokens : List Lexeme) : Option (List Lexeme) :=
  match lastToken? tokens with
  | some (.var _) => insertAt? tokens (tokens.length - 1) ⟨.not, pos⟩
  | some .rparen => do
    match ← groupStart? tokens tokens.length 0 with
    | some k => insertAt? tokens k ⟨.not, pos⟩
    | none => some (tokens ++ [⟨.not, pos⟩])
  | _ => some (tokens ++ [⟨.not, pos⟩])

/-- Read the symbols on, behind tokens that are listed first token first. -/
def scanForward? (symbols : List Symbol) (tokens : List Lexeme) :
    Option (Except SyntaxError (List Lexeme)) :=
  match symbols with
  | [] => some (.ok tokens)
  | s :: rest =>
    if Text.isBlank s.char then scanForward? rest tokens
    else
      match keyword? (s :: rest) with
      | some op => scanForward? (rest.drop (op.letters.length - 1)) (tokens ++ [⟨.op op, s.pos⟩])
      | none =>
        if isCapital s.char then scanForward? rest (tokens ++ [⟨.var s.char, s.pos⟩])
        else if s.char = '(' then scanForward? rest (tokens ++ [⟨.lparen, s.pos⟩])
        else if s.char = ')' then scanForward? rest (tokens ++ [⟨.rparen, s.pos⟩])
        else if s.char = '!' then scanForward? rest (tokens ++ [⟨.not, s.pos⟩])
        else if s.char = Symbol.prime then
          match moveNegation? s.pos tokens with
          | some tokens' => scanForward? rest tokens'
          | none => none
        else some (.error (.invalidCharacter s.char s.pos))
termination_by symbols.length
decreasing_by all_goals simp +arith

/-! ## Operands -/

/-- The token opens a group, and from it on the tokens are balanced. -/
def GroupFrom (tokens : List Lexeme) (k : Nat) : Prop :=
  tokens[k]?.map Lexeme.token = some .lparen ∧ Balanced ((tokens.drop k).map Lexeme.token)

/-- The number of the token that a mark behind the tokens belongs in front of. -/
inductive OperandFrom (tokens : List Lexeme) : Nat → Prop
  /-- The tokens end with a letter. -/
  | letter {c : Char} (h : lastToken? tokens = some (.var c)) :
      OperandFrom tokens (tokens.length - 1)
  /-- The tokens end with a group. It is opened by the last parenthesis from which on they are
  balanced. -/
  | group {k : Nat} (h : lastToken? tokens = some .rparen) (hk : GroupFrom tokens k)
      (hlast : ∀ j, k < j → ¬ GroupFrom tokens j) : OperandFrom tokens k
  /-- The tokens end with no operand. -/
  | none (hl : ∀ c, lastToken? tokens ≠ some (.var c))
      (hg : lastToken? tokens = some .rparen → ∀ j, ¬ GroupFrom tokens j) :
      OperandFrom tokens tokens.length

theorem OperandFrom.unique {j : Nat} (hj : OperandFrom tokens j) (hk : OperandFrom tokens k) :
    j = k := by
  cases hj with
  | letter h =>
    cases hk with
    | letter _ => rfl
    | group h' _ _ => cases h.symm.trans h'
    | none hl _ => exact absurd h (hl _)
  | group h hj hlast =>
    cases hk with
    | letter h' => cases h.symm.trans h'
    | group _ hk hlast' =>
      rcases lt_trichotomy j k with hlt | rfl | hlt
      · exact absurd hk (hlast k hlt)
      · rfl
      · exact absurd hj (hlast' j hlt)
    | none _ hg => exact absurd hj (hg h j)
  | none hl hg =>
    cases hk with
    | letter h => exact absurd h (hl _)
    | group h hk _ => exact absurd hk (hg h k)
    | none _ _ => rfl

/-! ## Groups that are closed and not opened -/

/-- The tokens close so many groups that they do not open. -/
inductive Closes : Nat → List Token → Prop
  | none {ts : List Token} (h : Balanced ts) : Closes 0 ts
  | some {depth : Nat} {a ts : List Token} (ha : Balanced a) (h : Closes depth ts) :
      Closes (depth + 1) (a ++ .rparen :: ts)

theorem Balanced.excess {ts : List Token} (h : Balanced ts) : excess ts = 0 := by
  induction h with
  | nil => rfl
  | other hl hr => exact excess_cons_of_ne [] hl hr
  | append _ _ iha ihb => rw [excess_append, iha, ihb, add_zero]
  | group _ ih =>
    rw [excess_cons_lparen, excess_append, ih]
    rfl

namespace Closes

variable {depth : Nat} {ts : List Token}

theorem append {a : List Token} (ha : Balanced a) (h : Closes depth ts) :
    Closes depth (a ++ ts) := by
  cases h with
  | none h => exact .none (ha.append h)
  | some hb h =>
    rw [← List.append_assoc]
    exact .some (ha.append hb) h

theorem close (h : Closes depth ts) : Closes (depth + 1) (.rparen :: ts) := .some .nil h

theorem opened (h : Closes (depth + 1) ts) : Closes depth (.lparen :: ts) := by
  cases h with
  | @some _ a ts ha h =>
    have hgroup : Token.lparen :: (a ++ .rparen :: ts) = .lparen :: (a ++ [.rparen]) ++ ts := by
      simp
    rw [hgroup]
    exact h.append ha.group

theorem excess (h : Closes depth ts) : excess ts = depth := by
  induction h with
  | none h => exact h.excess
  | @some depth a ts ha _ ih =>
    have hcons : Formula.excess (.rparen :: ts) = Formula.excess ts + 1 := by
      unfold Formula.excess
      rw [List.count_cons_self, List.count_cons_of_ne (by decide)]
      omega
    rw [excess_append, ha.excess, hcons, ih]
    omega

end Closes

/-! ## The search for the beginning of a group -/

theorem lastToken?_eq {l : Lexeme} {rest : List Lexeme} (h : tokens.drop i = l :: rest)
    (hi : tokens.length = i + 1) : lastToken? tokens = some l.token := by
  have hlast : tokens.getLast? = (tokens.drop i).getLast? := by
    rw [List.getLast?_drop, if_neg (by omega)]
  have hrest : rest = [] := by
    have hlength := congrArg List.length h
    rw [List.length_drop, List.length_cons] at hlength
    exact List.eq_nil_of_length_eq_zero (by omega)
  rw [lastToken?, hlast, h, hrest]
  rfl

theorem not_groupFrom_of_excess (h : 0 < excess ((tokens.drop k).map Lexeme.token)) :
    ¬ GroupFrom tokens k := by
  rintro ⟨-, hb⟩
  exact h.ne' hb.excess

theorem not_groupFrom_of_length_le (h : tokens.length ≤ k) : ¬ GroupFrom tokens k := by
  rintro ⟨hopen, -⟩
  rw [List.getElem?_eq_none h] at hopen
  cases hopen

/-- The tokens from the number on have been passed over without finding the beginning of a group. -/
structure PassedFrom (tokens : List Lexeme) (i depth : Nat) : Prop where
  le_length : i ≤ tokens.length
  closes : Closes depth ((tokens.drop i).map Lexeme.token)
  positive : ∀ j, i ≤ j → j < tokens.length → 0 < excess ((tokens.drop j).map Lexeme.token)

namespace PassedFrom

variable {depth : Nat}

theorem start (tokens : List Lexeme) : PassedFrom tokens tokens.length 0 where
  le_length := le_rfl
  closes := by
    rw [List.drop_length]
    exact .none .nil
  positive j hj hlt := absurd hlt (Nat.not_lt.mpr hj)

theorem not_groupFrom (h : PassedFrom tokens i depth) {j : Nat} (hj : i ≤ j) :
    ¬ GroupFrom tokens j := by
  rcases Nat.lt_or_ge j tokens.length with hlt | hge
  · exact not_groupFrom_of_excess (h.positive j hj hlt)
  · exact not_groupFrom_of_length_le hge

/-- Where the counter is zero nothing has been passed over. -/
theorem length_eq (h : PassedFrom tokens i 0) : tokens.length = i := by
  by_contra hne
  have hlt : i < tokens.length := Nat.lt_of_le_of_ne h.le_length (Ne.symm hne)
  exact (h.positive i le_rfl hlt).ne' h.closes.excess

/-- One more token is passed over. -/
theorem step {l : Lexeme} {depth' : Nat} (h : PassedFrom tokens (i + 1) depth)
    (hl : tokens.drop i = l :: tokens.drop (i + 1)) (hpos : 0 < depth')
    (hc : Closes depth' (l.token :: (tokens.drop (i + 1)).map Lexeme.token)) :
    PassedFrom tokens i depth' where
  le_length := (Nat.le_succ i).trans h.le_length
  closes := by rwa [hl, List.map_cons]
  positive j hj hlt := by
    rcases Nat.eq_or_lt_of_le hj with rfl | hj
    · rw [hl, List.map_cons, hc.excess]
      exact_mod_cast hpos
    · exact h.positive j hj hlt

end PassedFrom

/-- The last token that begins a group which reaches to the end of the tokens, if there is one. -/
def LastGroup (tokens : List Lexeme) : Option Nat → Prop
  | some k => GroupFrom tokens k ∧ ∀ j, k < j → ¬ GroupFrom tokens j
  | none => ∀ j, ¬ GroupFrom tokens j

/-- The search comes to an end without counting below zero. -/
theorem groupStart?_spec (hlast : lastToken? tokens = some .rparen) {depth : Nat}
    (h : PassedFrom tokens i depth) :
    ∃ r, groupStart? tokens i depth = some r ∧ LastGroup tokens r := by
  induction i generalizing depth with
  | zero => exact ⟨none, rfl, fun j => h.not_groupFrom (Nat.zero_le j)⟩
  | succ i ih =>
    have hlt : i < tokens.length := h.le_length
    obtain ⟨⟨token, pos⟩, hl⟩ : ∃ l, tokens[i]? = some l := ⟨_, List.getElem?_eq_getElem hlt⟩
    have hdrop : tokens.drop i = ⟨token, pos⟩ :: tokens.drop (i + 1) := by
      have hget := (List.getElem?_eq_getElem hlt).symm.trans hl
      rw [List.drop_eq_getElem_cons hlt, Option.some.inj hget]
    -- the first token is a closing parenthesis, so behind any other one the counter is positive
    have hpos : token ≠ .rparen → 0 < depth := by
      intro hne
      by_contra hzero
      obtain rfl : depth = 0 := by omega
      have := lastToken?_eq hdrop h.length_eq
      exact hne (Option.some.inj (this.symm.trans hlast))
    rw [groupStart?, hl]
    simp only [Option.bind_eq_bind, Option.bind_some]
    cases token with
    | rparen => exact ih (h.step hdrop (Nat.succ_pos _) h.closes.close)
    | lparen =>
      have hdepth := hpos (by simp)
      by_cases hone : depth = 1
      · subst hone
        refine ⟨some i, rfl, ⟨?_, ?_⟩, fun j hj => h.not_groupFrom hj⟩
        · rw [hl]
          rfl
        · rw [hdrop, List.map_cons]
          cases h.closes.opened with
          | none hb => exact hb
      · obtain ⟨n, rfl⟩ : ∃ n, depth = n + 2 := ⟨depth - 2, by omega⟩
        simp only
        rw [if_neg (by omega), if_neg (by omega)]
        exact ih (h.step hdrop (Nat.succ_pos _) h.closes.opened)
    | var c | not | op o =>
      refine ih (h.step hdrop (hpos (by simp)) ?_)
      exact h.closes.append (.other (by simp) (by simp))

/-! ## Where a mark is put -/

/-- The tokens with a mark in front of the one with the given number. -/
def markAt (tokens : List Lexeme) (k pos : Nat) : List Lexeme :=
  tokens.take k ++ ⟨.not, pos⟩ :: tokens.drop k

theorem insertAt?_of_le (h : k ≤ tokens.length) (pos : Nat) :
    insertAt? tokens k ⟨.not, pos⟩ = some (markAt tokens k pos) := if_pos h

theorem markAt_length (tokens : List Lexeme) (pos : Nat) :
    markAt tokens tokens.length pos = tokens ++ [⟨.not, pos⟩] := by
  rw [markAt, List.take_length, List.drop_length]

theorem GroupFrom.lt_length (h : GroupFrom tokens k) : k < tokens.length := by
  by_contra hge
  exact not_groupFrom_of_length_le (Nat.not_lt.mp hge) h

theorem exists_operandFrom_rparen (hlast : lastToken? tokens = some .rparen) (pos : Nat) :
    ∃ k, OperandFrom tokens k ∧ moveNegation? pos tokens = some (markAt tokens k pos) := by
  obtain ⟨r, hr, hgroup⟩ := groupStart?_spec hlast (.start tokens)
  cases r with
  | none =>
    refine ⟨tokens.length, .none (fun c => by rw [hlast]; simp) fun _ => hgroup, ?_⟩
    rw [moveNegation?, hlast, markAt_length]
    simp only [hr]
    rfl
  | some k =>
    refine ⟨k, .group hlast hgroup.1 hgroup.2, ?_⟩
    rw [moveNegation?, hlast]
    simp only [hr]
    exact insertAt?_of_le hgroup.1.lt_length.le pos

/-- A mark is put in front of the operand, and all else stays. -/
theorem exists_operandFrom (tokens : List Lexeme) (pos : Nat) :
    ∃ k, OperandFrom tokens k ∧ moveNegation? pos tokens = some (markAt tokens k pos) := by
  have hend : (∀ c, lastToken? tokens ≠ some (.var c)) → lastToken? tokens ≠ some .rparen →
      moveNegation? pos tokens = some (tokens ++ [⟨.not, pos⟩]) →
      ∃ k, OperandFrom tokens k ∧ moveNegation? pos tokens = some (markAt tokens k pos) :=
    fun hl hg hmove =>
      ⟨tokens.length, .none hl fun h => absurd h hg, hmove.trans (by rw [markAt_length])⟩
  cases hlast : lastToken? tokens with
  | none => exact hend (by simp [hlast]) (by simp [hlast]) (by rw [moveNegation?, hlast])
  | some token =>
    cases token with
    | var c =>
      refine ⟨tokens.length - 1, .letter hlast, ?_⟩
      rw [moveNegation?, hlast]
      exact insertAt?_of_le (Nat.sub_le _ _) pos
    | rparen => exact exists_operandFrom_rparen hlast pos
    | lparen | not | op o =>
      exact hend (by simp [hlast]) (by simp [hlast]) (by rw [moveNegation?, hlast])

/-! ## The scanner -/

theorem groupStart?_lt {depth : Nat} (h : groupStart? tokens i depth = some (some k)) : k < i := by
  induction i generalizing depth with
  | zero => cases h
  | succ i ih =>
    rw [groupStart?] at h
    obtain ⟨l, -, h⟩ := Option.bind_eq_some_iff.mp h
    split at h
    · exact Nat.lt_succ_of_lt (ih h)
    · split_ifs at h
      · cases h
        exact Nat.lt_succ_self k
      · exact Nat.lt_succ_of_lt (ih h)
    · exact Nat.lt_succ_of_lt (ih h)

/-- The search in the tokens that are listed last token first. -/
theorem negateGroup?_reverse {pos depth : Nat} {front : List Lexeme} (back : List Lexeme)
    {r : Option Nat} (h : groupStart? (front ++ back) front.length depth = some r) :
    negateGroup? ⟨.not, pos⟩ depth front.reverse = r.map fun k => (markAt front k pos).reverse := by
  induction front using List.reverseRecOn generalizing depth back with
  | nil =>
    cases h
    rfl
  | append_singleton front l ih =>
    -- a token that is passed over stands behind the mark
    have hpass : ∀ {depth' : Nat},
        groupStart? (front ++ l :: back) front.length depth' = some r →
        (negateGroup? ⟨.not, pos⟩ depth' front.reverse).map (l :: ·) =
          r.map fun k => (markAt (front ++ [l]) k pos).reverse := by
      intro depth' h'
      rw [ih _ h']
      cases r with
      | none => rfl
      | some k =>
        have hk : k ≤ front.length := (groupStart?_lt h').le
        simp only [Option.map_some, markAt, List.take_append_of_le_length hk,
          List.drop_append_of_le_length hk, List.reverse_append, List.reverse_cons,
          List.append_assoc, List.reverse_nil, List.nil_append, List.cons_append]
    have hl : (front ++ l :: back)[front.length]? = some l := by simp
    rw [List.append_assoc, List.singleton_append, List.length_append, List.length_singleton,
      groupStart?, hl] at h
    simp only [Option.bind_eq_bind, Option.bind_some] at h
    rw [List.reverse_append, List.reverse_singleton, List.singleton_append, negateGroup?]
    cases htoken : l.token with
    | rparen =>
      rw [htoken] at h
      exact hpass h
    | lparen =>
      rw [htoken] at h
      simp only at h ⊢
      split_ifs at h with hzero hone
      · cases h
        rw [if_pos hone.le, Option.map_some, markAt]
        simp
      · rw [if_neg (by omega)]
        exact hpass h
    | var c | not | op o =>
      rw [htoken] at h
      exact hpass h

/-- Moving a mark in the tokens that are listed last token first. -/
theorem moveNegation?_eq (pos : Nat) (tokens : List Lexeme) :
    moveNegation? pos tokens = some (negateOperand pos tokens.reverse).reverse := by
  obtain rfl | ⟨front, l, rfl⟩ := tokens.eq_nil_or_concat
  · rfl
  · have hlast : lastToken? (front ++ [l]) = some l.token := by simp [lastToken?]
    rw [List.concat_eq_append, moveNegation?, hlast, List.reverse_append, List.reverse_singleton,
      List.singleton_append, negateOperand]
    cases htoken : l.token with
    | var c => simp [insertAt?]
    | rparen =>
      rw [htoken] at hlast
      obtain ⟨r, hr, -⟩ := groupStart?_spec hlast (.start (front ++ [l]))
      have hsearch : negateGroup? ⟨.not, pos⟩ 0 (front ++ [l]).reverse =
          r.map fun k => (markAt (front ++ [l]) k pos).reverse :=
        negateGroup?_reverse [] (by rwa [List.append_nil])
      rw [List.reverse_append, List.reverse_singleton, List.singleton_append] at hsearch
      simp only [hr, hsearch]
      cases r with
      | none => simp
      | some k =>
        have hk : k ≤ (front ++ [l]).length := (groupStart?_lt hr).le
        simp only [Option.bind_eq_bind, Option.bind_some, Option.map_some, Option.getD_some,
          List.reverse_reverse]
        exact insertAt?_of_le hk pos
    | lparen | not | op o => simp

/-- Counting below zero never stops the scanner. -/
theorem scanForward?_eq (symbols : List Symbol) (tokens : List Lexeme) :
    scanForward? symbols tokens = some ((scan symbols tokens.reverse).map List.reverse) := by
  induction hn : symbols.length using Nat.strong_induction_on generalizing symbols tokens with
  | _ n ih =>
    cases symbols with
    | nil => rw [scanForward?, scan, Except.map, List.reverse_reverse]
    | cons s rest =>
      rw [List.length_cons] at hn
      have hpush : ∀ (rest' : List Symbol) (l : Lexeme), rest'.length ≤ rest.length →
          scanForward? rest' (tokens ++ [l]) =
            some ((scan rest' (l :: tokens.reverse)).map List.reverse) := by
        intro rest' l hle
        rw [ih rest'.length (by omega) rest' (tokens ++ [l]) rfl, List.reverse_append,
          List.reverse_singleton, List.singleton_append]
      rw [scanForward?, scan]
      by_cases hblank : Text.isBlank s.char = true
      · rw [if_pos hblank, if_pos hblank]
        exact ih rest.length (by omega) rest tokens rfl
      · rw [if_neg hblank, if_neg hblank]
        cases keyword? (s :: rest) with
        | some op => exact hpush _ _ (by rw [List.length_drop]; exact Nat.sub_le _ _)
        | none =>
          simp only [moveNegation?_eq]
          split_ifs
          · exact hpush rest _ le_rfl
          · exact hpush rest _ le_rfl
          · exact hpush rest _ le_rfl
          · exact hpush rest _ le_rfl
          · rw [ih rest.length (by omega) rest _ rfl, List.reverse_reverse]
          · rfl

/-! ## Marks behind operands -/

/-- Whatever the tokens, a mark behind them is put in front of their operand, and all else stays;
and whatever the text, its marks are put there by a scanner that counts without failing. -/
theorem negation_exact :
    (∀ (tokens : List Lexeme) (pos : Nat), ∃ k, OperandFrom tokens k ∧
      (∀ j, OperandFrom tokens j → j = k) ∧
      moveNegation? pos tokens = some (markAt tokens k pos) ∧
      (negateOperand pos tokens.reverse).reverse = markAt tokens k pos) ∧
    ∀ text : List Char, scanForward? (Symbol.ofText text) [] = some (tokenize text) := by
  refine ⟨fun tokens pos => ?_, fun text => scanForward?_eq (Symbol.ofText text) []⟩
  obtain ⟨k, hk, hmove⟩ := exists_operandFrom tokens pos
  refine ⟨k, hk, fun j hj => hj.unique hk, hmove, ?_⟩
  exact Option.some.inj ((moveNegation?_eq pos tokens).symm.trans hmove)

/-- Of two groups the last one is negated, also behind a parenthesis that is not open. -/
example : moveNegation? 9 [⟨.rparen, 0⟩, ⟨.lparen, 1⟩, ⟨.var 'A', 2⟩, ⟨.rparen, 3⟩, ⟨.lparen, 4⟩,
      ⟨.lparen, 5⟩, ⟨.var 'B', 6⟩, ⟨.rparen, 7⟩, ⟨.rparen, 8⟩] =
    some [⟨.rparen, 0⟩, ⟨.lparen, 1⟩, ⟨.var 'A', 2⟩, ⟨.rparen, 3⟩, ⟨.not, 9⟩, ⟨.lparen, 4⟩,
      ⟨.lparen, 5⟩, ⟨.var 'B', 6⟩, ⟨.rparen, 7⟩, ⟨.rparen, 8⟩] := by decide

end LogicCircuit.Formula
