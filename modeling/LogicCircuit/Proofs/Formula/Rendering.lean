import LogicCircuit.Proofs.Formula.Reading
import LogicCircuit.Proofs.Formula.Scanning

/-!
# Every notation of a formula is read as that formula

A formula over the capitals may be typed in many ways. All of them are scanned to the tokens of
one phrase, in which every negation stands in front of its operand: a mark behind an operand is
moved in front of it, past the letter or the whole group.

Results:
* `passed_phrase`, `negateOperand_phrase`: what a mark behind an operand does to the tokens of the
  operand.
* `Rendering.scansTo`: every rendering of a formula is scanned to the tokens of its phrase.
* `parse_rendering`: every rendering, and the written form in particular, is parsed.
-/

namespace LogicCircuit.Formula

/-- The ways to write a formula: letters in either case, marks of negation on either side,
operators by a glyph or by a keyword between blanks, and blanks around every piece. -/
inductive Rendering : Formula → List Char → Prop where
  | letter {c d : Char} (hc : isCapital c = true) (hd : d = c ∨ d = c.toLower) :
      Rendering (.var c) [d]
  | before {f : Formula} {w : List Char} {m : Char} (hm : m ∈ marksBefore) (hf : Rendering f w) :
      Rendering f.not (m :: w)
  | behind {f : Formula} {w : List Char} {m : Char} (hm : m ∈ marksBehind) (hf : Rendering f w) :
      Rendering f.not (w ++ [m])
  | glyph {op : Operator} {f g : Formula} {v w : List Char} {m : Char} (hm : m ∈ glyphs op)
      (hf : Rendering f v) (hg : Rendering g w) :
      Rendering (.binary op f g) ('(' :: (v ++ m :: (w ++ [')'])))
  | keyword {op : Operator} {f g : Formula} {v w k : List Char} {a b : Char}
      (hk : k.map Char.toUpper = op.letters) (ha : Text.isBlank a = true)
      (hb : Text.isBlank b = true) (hf : Rendering f v) (hg : Rendering g w) :
      Rendering (.binary op f g) ('(' :: (v ++ a :: (k ++ b :: (w ++ [')']))))
  | blankBefore {f : Formula} {w : List Char} {b : Char} (hb : Text.isBlank b = true)
      (hf : Rendering f w) : Rendering f (b :: w)
  | blankBehind {f : Formula} {w : List Char} {b : Char} (hb : Text.isBlank b = true)
      (hf : Rendering f w) : Rendering f (w ++ [b])

/-! ## The phrase of a formula -/

/-- Two operands and an operator between them. -/
def Phrase.joined (op : Operator) (left right : Phrase .unary) : Phrase .sum :=
  if h : op.isProduct = true then .ofProduct (.product (.ofUnary left) op h right)
  else .sum (.ofProduct (.ofUnary left)) op (Bool.not_eq_true _ ▸ h) (.ofUnary right)

/-- The phrase of a formula in which all negations stand in front of their operand, and every
binary operator stands in parentheses. -/
def phrase : Formula → Phrase .unary
  | var c => .ofPrimary (.letter c)
  | not f => .not f.phrase
  | binary op f g => .ofPrimary (.group (.joined op f.phrase g.phrase))

theorem Phrase.tokens_joined (op : Operator) (left right : Phrase .unary) :
    (joined op left right).tokens = left.tokens ++ .op op :: right.tokens := by
  unfold joined
  split_ifs <;> rfl

theorem Phrase.formula_joined (op : Operator) (left right : Phrase .unary) :
    (joined op left right).formula = .binary op left.formula right.formula := by
  unfold joined
  split_ifs <;> rfl

theorem Phrase.depth_joined (op : Operator) (left right : Phrase .unary) :
    (joined op left right).depth = max left.depth right.depth := by
  unfold joined
  split_ifs <;> rfl

theorem formula_phrase {f : Formula} (h : ∀ c ∈ f.leaves, isCapital c = true) :
    f.phrase.formula = f := by
  induction f with
  | var c =>
    rw [phrase, Phrase.formula, Phrase.formula, toUpper_of_isCapital (h c List.mem_cons_self)]
  | not f ih => rw [phrase, Phrase.formula, ih h]
  | binary op f g ihf ihg =>
    rw [leaves] at h
    rw [phrase, Phrase.formula, Phrase.formula, Phrase.formula_joined,
      ihf fun c hc => h c (List.mem_append_left _ hc),
      ihg fun c hc => h c (List.mem_append_right _ hc)]

theorem depth_phrase (f : Formula) : f.phrase.depth + 1 = f.height := by
  induction f with
  | var c => rfl
  | not f ih => rw [phrase, Phrase.depth, ih, height]
  | binary op f g ihf ihg =>
    rw [phrase, Phrase.depth, Phrase.depth, Phrase.depth_joined, height, ← ihf, ← ihg]
    omega

/-! ## Marks behind an operand -/

/-- The search for the beginning of a group passes over the tokens, listed last token first. -/
def Passed (mark : Lexeme) (ls : List Lexeme) : Prop :=
  ∀ depth rest, negateGroup? mark (depth + 1) (ls ++ rest) =
    (negateGroup? mark (depth + 1) rest).map (ls ++ ·)

namespace Passed

variable {mark : Lexeme} {a b : List Lexeme}

theorem singleton {token : Token} (hl : token ≠ .lparen) (hr : token ≠ .rparen) (pos : Nat) :
    Passed mark [⟨token, pos⟩] := by
  intro depth rest
  cases token with
  | lparen => exact absurd rfl hl
  | rparen => exact absurd rfl hr
  | var c => rfl
  | not => rfl
  | op o => rfl

theorem append (ha : Passed mark a) (hb : Passed mark b) : Passed mark (a ++ b) := by
  intro depth rest
  rw [List.append_assoc, ha, hb, Option.map_map]
  congr 1
  funext x
  exact (List.append_assoc a b x).symm

theorem enclosed (ha : Passed mark a) (first last : Nat) :
    Passed mark (⟨.rparen, last⟩ :: (a ++ [⟨.lparen, first⟩])) := by
  intro depth rest
  -- the closing parenthesis is counted, so the opening one is not the beginning looked for
  have hclose : negateGroup? mark (depth + 1) (⟨.rparen, last⟩ :: (a ++ ⟨.lparen, first⟩ :: rest)) =
      (negateGroup? mark (depth + 2) (a ++ ⟨.lparen, first⟩ :: rest)).map
        (⟨.rparen, last⟩ :: ·) := rfl
  have hopen : negateGroup? mark (depth + 2) (⟨.lparen, first⟩ :: rest) =
      (negateGroup? mark (depth + 1) rest).map (⟨.lparen, first⟩ :: ·) := by
    rw [negateGroup?]
    exact if_neg (by omega)
  rw [List.cons_append, List.append_assoc, List.singleton_append, hclose, ha, hopen,
    Option.map_map, Option.map_map]
  congr 1
  funext x
  simp

end Passed

theorem passed_phrase (mark : Lexeme) {tier : Tier} (t : Phrase tier) {ls : List Lexeme}
    (h : ls.map Lexeme.token = t.tokens.reverse) : Passed mark ls := by
  induction t generalizing ls with
  | letter c =>
    obtain ⟨pos, rfl⟩ := map_token_eq_singleton.mp h
    exact .singleton (by simp) (by simp) pos
  | ofPrimary atom ih => exact ih h
  | ofUnary factor ih => exact ih h
  | ofProduct term ih => exact ih h
  | group inner ih =>
    rw [Phrase.tokens, List.reverse_cons, List.reverse_append] at h
    obtain ⟨body, last, rfl, hbody, hlast⟩ := List.map_eq_append_iff.mp h
    obtain ⟨pos, mid, rfl, hmid⟩ := map_token_eq_cons.mp hbody
    obtain ⟨pos', rfl⟩ := map_token_eq_singleton.mp hlast
    exact (ih hmid).enclosed pos' pos
  | not operand ih =>
    rw [Phrase.tokens, List.reverse_cons] at h
    obtain ⟨a, last, rfl, ha, hlast⟩ := List.map_eq_append_iff.mp h
    obtain ⟨pos, rfl⟩ := map_token_eq_singleton.mp hlast
    exact (ih ha).append (.singleton (by simp) (by simp) pos)
  | product left op _ right ihl ihr | sum left op _ right ihl ihr =>
    rw [Phrase.tokens, List.reverse_append, List.reverse_cons] at h
    obtain ⟨body, a, rfl, hbody, ha⟩ := List.map_eq_append_iff.mp h
    obtain ⟨b, last, rfl, hb, hlast⟩ := List.map_eq_append_iff.mp hbody
    obtain ⟨pos, rfl⟩ := map_token_eq_singleton.mp hlast
    exact ((ihr hb).append (.singleton (by simp) (by simp) pos)).append (ihl ha)

theorem reverse_tokens_not (f : Formula) :
    f.not.phrase.tokens.reverse = f.phrase.tokens.reverse ++ [.not] := List.reverse_cons

/-- A mark behind an operand negates the whole operand. -/
theorem negateOperand_phrase (f : Formula) {ls : List Lexeme}
    (h : ls.map Lexeme.token = f.phrase.tokens.reverse) (pos : Nat) (rest : List Lexeme) :
    ∃ ls' : List Lexeme, negateOperand pos (ls ++ rest) = ls' ++ rest ∧
      ls'.map Lexeme.token = f.not.phrase.tokens.reverse := by
  induction f generalizing ls rest with
  | var c =>
    obtain ⟨pos', rfl⟩ := map_token_eq_singleton.mp h
    exact ⟨[⟨.var c, pos'⟩, ⟨.not, pos⟩], rfl, rfl⟩
  | not f ih =>
    -- the mark goes past the operand, and stands behind the negations in front of it
    rw [reverse_tokens_not] at h
    obtain ⟨a, last, rfl, ha, hlast⟩ := List.map_eq_append_iff.mp h
    obtain ⟨ls', hnegate, htokens⟩ := ih ha (last ++ rest)
    refine ⟨ls' ++ last, ?_, ?_⟩
    · rw [List.append_assoc, hnegate, List.append_assoc]
    · rw [List.map_append, htokens, hlast]
      exact (reverse_tokens_not f.not).symm
  | binary op f g =>
    rw [phrase, Phrase.tokens, Phrase.tokens, List.reverse_cons, List.reverse_append] at h
    obtain ⟨body, last, rfl, hbody, hlast⟩ := List.map_eq_append_iff.mp h
    obtain ⟨pos₁, mid, rfl, hmid⟩ := map_token_eq_cons.mp hbody
    obtain ⟨pos₂, rfl⟩ := map_token_eq_singleton.mp hlast
    refine ⟨⟨.rparen, pos₁⟩ :: mid ++ [⟨.lparen, pos₂⟩, ⟨.not, pos⟩], ?_, ?_⟩
    · have hgroup : negateGroup? ⟨.not, pos⟩ 0
          (⟨.rparen, pos₁⟩ :: (mid ++ ⟨.lparen, pos₂⟩ :: rest)) =
            some (⟨.rparen, pos₁⟩ :: (mid ++ ⟨.lparen, pos₂⟩ :: ⟨.not, pos⟩ :: rest)) := by
        have hclose : negateGroup? ⟨.not, pos⟩ 0
            (⟨.rparen, pos₁⟩ :: (mid ++ ⟨.lparen, pos₂⟩ :: rest)) =
              (negateGroup? ⟨.not, pos⟩ 1 (mid ++ ⟨.lparen, pos₂⟩ :: rest)).map
                (⟨.rparen, pos₁⟩ :: ·) := rfl
        rw [hclose, passed_phrase _ _ hmid]
        rfl
      rw [List.append_assoc, List.cons_append, List.singleton_append, List.append_assoc]
      show (negateGroup? _ 0 _).getD _ = _
      rw [hgroup]
      rfl
    · rw [reverse_tokens_not, phrase, Phrase.tokens, Phrase.tokens, List.reverse_cons,
        List.reverse_append, List.map_append, List.map_cons, hmid]
      simp

/-! ## Scanning a rendering -/

/-- A text is scanned to the tokens of the phrase of a formula, unless it is followed by a capital,
which might make a keyword of its last letter. -/
def ScansTo (w : List Char) (f : Formula) : Prop :=
  ∀ pos rest, (∀ s ∈ rest.head?, isCapital s.char = false) → ∀ tokens, ∃ ls : List Lexeme,
    scan (Symbol.ofTextFrom pos w ++ rest) tokens = scan rest (ls ++ tokens) ∧
      ls.map Lexeme.token = f.phrase.tokens.reverse

/-- A text is scanned to one operator, and does not begin with a capital. -/
def ScansToOp (u : List Char) (op : Operator) : Prop :=
  ∀ pos rest, (∀ s ∈ (Symbol.ofTextFrom pos u ++ rest).head?, isCapital s.char = false) ∧
    ∀ tokens, ∃ p, scan (Symbol.ofTextFrom pos u ++ rest) tokens = scan rest (⟨.op op, p⟩ :: tokens)

theorem scansToOp_glyph {op : Operator} {m : Char} (hm : m ∈ glyphs op) : ScansToOp [m] op := by
  intro pos rest
  have hsymbols : Symbol.ofTextFrom pos [m] =
      ⟨' ', pos⟩ :: (op.letters.map (⟨·, pos⟩) ++ [⟨' ', pos⟩]) := by
    rw [Symbol.ofTextFrom, spelling_glyph hm, Symbol.ofTextFrom]
    simp
  rw [hsymbols]
  refine ⟨by rintro s ⟨⟩; rfl, fun tokens => ?_⟩
  have hletters : (op.letters.map fun c => (⟨c, pos⟩ : Symbol)).map (·.char) = op.letters := by
    rw [List.map_map]
    exact List.map_id _
  obtain ⟨p, hscan⟩ := scan_keyword hletters (⟨' ', pos⟩ :: rest) tokens
  refine ⟨p, ?_⟩
  rw [List.cons_append, scan_blank (by decide), List.append_assoc, List.singleton_append, hscan,
    scan_blank (by decide)]

theorem scansToOp_keyword {op : Operator} {k : List Char} (hk : k.map Char.toUpper = op.letters)
    {a b : Char} (ha : Text.isBlank a = true) (hb : Text.isBlank b = true) :
    ScansToOp (a :: (k ++ [b])) op := by
  intro pos rest
  rw [Symbol.ofTextFrom_cons (spelling_blank ha), Symbol.ofTextFrom_snoc (spelling_blank hb)]
  refine ⟨by rintro s ⟨⟩; exact isCapital_eq_false ha, fun tokens => ?_⟩
  have hletters : (Symbol.ofTextFrom (pos + 1) k).map (·.char) = op.letters := by
    rw [Symbol.map_char_ofTextFrom, spelling_keyword hk]
  obtain ⟨p, hscan⟩ := scan_keyword hletters (⟨b, pos + 1 + k.length⟩ :: rest) tokens
  refine ⟨p, ?_⟩
  rw [List.cons_append, scan_blank ha, List.append_assoc, List.singleton_append, hscan,
    scan_blank hb]

theorem ScansTo.binary {op : Operator} {f g : Formula} {u v w : List Char} (hu : ScansToOp u op)
    (hv : ScansTo v f) (hw : ScansTo w g) :
    ScansTo ('(' :: (v ++ (u ++ (w ++ [')'])))) (.binary op f g) := by
  intro pos rest hrest tokens
  have hopen : Symbol.spelling '(' = ['('] := rfl
  have hclose : Symbol.spelling ')' = [')'] := rfl
  rw [Symbol.ofTextFrom_cons hopen, Symbol.ofTextFrom_append, Symbol.ofTextFrom_append,
    Symbol.ofTextFrom_append, Symbol.ofTextFrom_cons hclose, Symbol.ofTextFrom]
  generalize pos + 1 + v.length + u.length + w.length = last
  generalize pos + 1 + v.length + u.length = right
  generalize pos + 1 + v.length = mid
  obtain ⟨ls₁, hscan₁, hls₁⟩ := hv (pos + 1)
    (Symbol.ofTextFrom mid u ++ (Symbol.ofTextFrom right w ++ (⟨')', last⟩ :: rest)))
    (hu mid _).1 (⟨.lparen, pos⟩ :: tokens)
  obtain ⟨p, hscan⟩ := (hu mid (Symbol.ofTextFrom right w ++ (⟨')', last⟩ :: rest))).2
    (ls₁ ++ ⟨.lparen, pos⟩ :: tokens)
  obtain ⟨ls₂, hscan₂, hls₂⟩ := hw right (⟨')', last⟩ :: rest) (by rintro s ⟨⟩; rfl)
    (⟨.op op, p⟩ :: (ls₁ ++ ⟨.lparen, pos⟩ :: tokens))
  refine ⟨⟨.rparen, last⟩ :: (ls₂ ++ ⟨.op op, p⟩ :: (ls₁ ++ [⟨.lparen, pos⟩])), ?_, ?_⟩
  · simp only [List.cons_append, List.append_assoc, List.nil_append, scan_lparen]
    rw [hscan₁, hscan, hscan₂, scan_rparen]
  · rw [phrase, Phrase.tokens, Phrase.tokens, Phrase.tokens_joined]
    simp [hls₁, hls₂]

/-- Every rendering of a formula is scanned to the tokens of its phrase. -/
theorem Rendering.scansTo {f : Formula} {w : List Char} (h : Rendering f w) : ScansTo w f := by
  induction h with
  | @letter c d hc hd =>
    intro pos rest hrest tokens
    have hupper : d.toUpper = c := by
      rcases hd with rfl | rfl
      · exact toUpper_of_isCapital hc
      · rw [Char.toUpper_toLower_eq_toUpper, toUpper_of_isCapital hc]
    have hspelling : Symbol.spelling d = [c] := by
      rw [spelling_letter (hupper ▸ hc), hupper]
    refine ⟨[⟨.var c, pos⟩], ?_, rfl⟩
    rw [Symbol.ofTextFrom_cons hspelling, List.cons_append]
    exact scan_letter hc pos hrest tokens
  | before hm _ ih =>
    intro pos rest hrest tokens
    obtain ⟨ls, hscan, hls⟩ := ih (pos + 1) rest hrest (⟨.not, pos⟩ :: tokens)
    refine ⟨ls ++ [⟨.not, pos⟩], ?_, ?_⟩
    · rw [Symbol.ofTextFrom_cons (spelling_before hm), List.cons_append, scan_before, hscan,
        List.append_assoc]
      rfl
    · rw [List.map_append, hls, reverse_tokens_not]
      rfl
  | @behind f w m hm _ ih =>
    intro pos rest hrest tokens
    obtain ⟨ls, hscan, hls⟩ := ih pos (⟨Symbol.prime, pos + w.length⟩ :: rest)
      (by rintro s ⟨⟩; rfl) tokens
    obtain ⟨ls', hnegate, hls'⟩ := negateOperand_phrase f hls (pos + w.length) tokens
    refine ⟨ls', ?_, hls'⟩
    rw [Symbol.ofTextFrom_snoc (spelling_behind hm), List.append_assoc, List.singleton_append,
      hscan, scan_behind, hnegate]
  | glyph hm _ _ ihf ihg => exact .binary (scansToOp_glyph hm) ihf ihg
  | @keyword op f g v w k a b hk ha hb _ _ ihf ihg =>
    have h := ScansTo.binary (scansToOp_keyword hk ha hb) ihf ihg
    simpa using h
  | blankBefore hb _ ih =>
    intro pos rest hrest tokens
    obtain ⟨ls, hscan, hls⟩ := ih (pos + 1) rest hrest tokens
    refine ⟨ls, ?_, hls⟩
    rw [Symbol.ofTextFrom_cons (spelling_blank hb), List.cons_append, scan_blank hb, hscan]
  | @blankBehind f w b hb _ ih =>
    intro pos rest hrest tokens
    obtain ⟨ls, hscan, hls⟩ := ih pos (⟨b, pos + w.length⟩ :: rest)
      (by rintro s ⟨⟩; exact isCapital_eq_false hb) tokens
    refine ⟨ls, ?_, hls⟩
    rw [Symbol.ofTextFrom_snoc (spelling_blank hb), List.append_assoc, List.singleton_append,
      hscan, scan_blank hb]

/-! ## Parsing a rendering -/

theorem Rendering.capitals {f : Formula} {w : List Char} (h : Rendering f w) :
    ∀ c ∈ f.leaves, isCapital c = true := by
  induction h with
  | letter hc _ =>
    intro c' hmem
    obtain rfl := List.mem_singleton.mp hmem
    exact hc
  | before _ _ ih => exact ih
  | behind _ _ ih => exact ih
  | blankBefore _ _ ih => exact ih
  | blankBehind _ _ ih => exact ih
  | glyph _ _ _ ihf ihg =>
    intro c hmem
    exact (List.mem_append.mp hmem).elim (ihf c) (ihg c)
  | keyword _ _ _ _ _ ihf ihg =>
    intro c hmem
    exact (List.mem_append.mp hmem).elim (ihf c) (ihg c)

theorem parse_of_rendering {f : Formula} {limits : Limits} (hf : f.height ≤ limits.depth)
    {text : String} (h : Rendering f text.toList) : parse text limits = .ok f := by
  obtain ⟨ls, hscan, hls⟩ := h.scansTo 0 [] (by simp) []
  rw [List.append_nil, List.append_nil, scan] at hscan
  have htokenize : tokenize text.toList = .ok ls.reverse := by
    rw [tokenize, Symbol.ofText, hscan]
    rfl
  have htokens : ls.reverse.map Lexeme.token =
      (Phrase.ofProduct (.ofUnary f.phrase)).tokens := by
    rw [List.map_reverse, hls, List.reverse_reverse]
    rfl
  have hformula := formula_phrase h.capitals
  have hfits : (Phrase.ofProduct (.ofUnary f.phrase)).Fits limits.depth 0 := by
    have hdepth := f.depth_phrase
    unfold Phrase.Fits
    simp only [Phrase.depth, Phrase.formula, hformula]
    omega
  rw [parse, htokenize, ok_bind, ofLexemes_phrase _ limits htokens, if_pos hfits]
  exact congrArg _ hformula

/-- The written form is a rendering, with every operator by its keyword. -/
theorem rendering_text {f : Formula} (h : ∀ c ∈ f.leaves, isCapital c = true) :
    Rendering f f.text.toList := by
  induction f with
  | var c =>
    have htext : (Formula.var c).text.toList = [c] := by simp [text]
    rw [htext]
    exact .letter (h c List.mem_cons_self) (Or.inl rfl)
  | not f ih =>
    have htext : f.not.text.toList = '!' :: f.text.toList := by simp [text]
    rw [htext]
    exact .before (by decide) (ih h)
  | binary op f g ihf ihg =>
    have htext : (Formula.binary op f g).text.toList =
        '(' :: (f.text.toList ++ ' ' :: (op.letters ++ ' ' :: (g.text.toList ++ [')']))) := by
      simp [text, Operator.keyword]
    have hupper : op.letters.map Char.toUpper = op.letters := by cases op <;> rfl
    rw [htext]
    exact .keyword hupper (by decide) (by decide)
      (ihf fun c hc => h c (List.mem_append_left _ hc))
      (ihg fun c hc => h c (List.mem_append_right _ hc))

/-- Every rendering of a formula over the capitals is parsed to that formula, under every limit
that its height does not exceed; in particular its written form is. -/
theorem parse_rendering {f : Formula} {limits : Limits} (hf : f.height ≤ limits.depth) :
    (∀ text : String, Rendering f text.toList → parse text limits = .ok f) ∧
      ((∀ c ∈ f.leaves, isCapital c = true) → parse f.text limits = .ok f) :=
  ⟨fun _ h => parse_of_rendering hf h, fun h => parse_of_rendering hf (rendering_text h)⟩

/-- Marks on both sides of one operand, and a letter that begins a keyword beside a glyph. -/
theorem parse_rendering_marks :
    Formula.parse "~ ( n+ B )\u0304 '" ⟨5, 0⟩ =
      .ok (.not (.not (.not (.binary .or (.var 'N') (.var 'B'))))) ∧
    Formula.parse (Formula.not (.binary .nand (.var 'X') (.var 'O'))).text ⟨3, 0⟩ =
      .ok (.not (.binary .nand (.var 'X') (.var 'O'))) := by
  refine ⟨(parse_rendering (by decide)).1 _ ?_,
    (parse_rendering (by decide)).2 (List.all_eq_true.mp (by decide))⟩
  have hn : Rendering (.var 'N') [' ', 'n'] :=
    .blankBefore (by decide) (.letter (by decide) (Or.inr rfl))
  have hb : Rendering (.var 'B') (' ' :: (['B'] ++ [' '])) :=
    .blankBefore (by decide) (.blankBehind (by decide) (.letter (by decide) (Or.inl rfl)))
  have hor : Rendering (.binary .or (.var 'N') (.var 'B'))
      ('(' :: ([' ', 'n'] ++ '+' :: (' ' :: (['B'] ++ [' ']) ++ [')']))) :=
    .glyph (by decide) hn hb
  exact .behind (by decide) (.blankBehind (by decide) (.behind (by decide)
    (.before (by decide) (.blankBefore (by decide) hor))))

end LogicCircuit.Formula
