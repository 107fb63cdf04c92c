import LogicCircuit.Proofs.Except
import LogicCircuit.Proofs.Formula.Scanning

/-!
# Tokens cover the text

A glyph is spelled by several symbols of one position, a keyword is found among symbols of several
positions, and a mark behind an operand is moved in front of it. `ReadsFrom` tells the same in terms
of the text alone: the text is read from left to right, and each token takes the characters that it
is written in. The scanner puts the negations elsewhere, but all tokens keep their positions.

Results:
* `scan_blank_or_token`: what the scanner makes of the next characters of a text.
* `rearranged_negateOperand`: a mark that is moved leaves the other tokens in order.
* `exists_readsFrom`, `scan_invalid`: what it makes of the whole text, and of one that holds a
  character of no token.
* `tokenize_exact`: when the tokens of a text exist, and which characters they cover.
-/

namespace LogicCircuit.Formula

/-! ## Characters and tokens -/

/-- A blank, a letter of the alphabet, a parenthesis, or the glyph of an operator or a negation. -/
inductive Recognized (c : Char) : Prop
  | blank (h : Text.isBlank c = true)
  | letter (h : c.isAlpha = true)
  | lparen (h : c = '(')
  | rparen (h : c = ')')
  | glyph (op : Operator) (h : c ∈ glyphs op)
  | before (h : c ∈ marksBefore)
  | behind (h : c ∈ marksBehind)

/-- The ways to write a token: an operator by a glyph or by the letters of its keyword, letters in
either case. -/
def Token.WrittenAs : Token → List Char → Prop
  | .op o, v => (∃ g ∈ glyphs o, v = [g]) ∨ v.map Char.toUpper = o.letters
  | .not, v => ∃ m ∈ marksBefore ++ marksBehind, v = [m]
  | .lparen, v => v = ['(']
  | .rparen, v => v = [')']
  | .var letter, v => ∃ c, c.isAlpha = true ∧ c.toUpper = letter ∧ v = [c]

/-- How many characters of the text a token covers: a keyword that is typed in letters all of them,
and everything else one. -/
def Lexeme.width (text : List Char) (l : Lexeme) : Nat :=
  match l.token with
  | .op op => if (text[l.pos]?).any Char.isAlpha then op.letters.length else 1
  | _ => 1

theorem isAlpha_iff {c : Char} : c.isAlpha = true ↔ isCapital c.toUpper = true := by
  rw [← Char.isUpper_toUpper_eq_isAlpha]
  refine ⟨fun h => ?_, isUpper_of_isCapital⟩
  simp only [Char.isUpper, decide_eq_true_eq, ge_iff_le, UInt32.le_iff_toNat_le] at h
  exact isCapital_iff.mpr h

theorem mem_specials_of_mem_glyphs {c : Char} {op : Operator} (h : c ∈ glyphs op) :
    c ∈ specials := by
  simp only [specials, List.mem_append, List.mem_flatMap]
  exact Or.inl (Or.inl ⟨op, op.mem_all, h⟩)

theorem letters_length_pos (op : Operator) : 0 < op.letters.length := by cases op <;> decide

namespace Token.WrittenAs

variable {t : Token} {v : List Char}

/-- A token is a keyword that is typed in letters, or a single character. -/
theorem typed_or_single (h : t.WrittenAs v) :
    (∃ op, t = .op op ∧ v.map Char.toUpper = op.letters) ∨
      ∃ c, v = [c] ∧ Recognized c ∧ ∀ op, t = .op op → c.isAlpha = false := by
  cases t with
  | op op =>
    rcases h with ⟨g, hg, rfl⟩ | h
    · refine Or.inr ⟨g, rfl, .glyph op hg, fun _ _ => ?_⟩
      rw [Bool.eq_false_iff, Ne, isAlpha_iff,
        (not_of_mem_specials (mem_specials_of_mem_glyphs hg)).1]
      decide
    · exact Or.inl ⟨op, rfl, h⟩
  | not =>
    obtain ⟨m, hm, rfl⟩ := h
    exact Or.inr ⟨m, rfl, (List.mem_append.mp hm).elim .before .behind, nofun⟩
  | lparen =>
    obtain rfl : v = ['('] := h
    exact Or.inr ⟨_, rfl, .lparen rfl, nofun⟩
  | rparen =>
    obtain rfl : v = [')'] := h
    exact Or.inr ⟨_, rfl, .rparen rfl, nofun⟩
  | var letter =>
    obtain ⟨c, hc, -, rfl⟩ := h
    exact Or.inr ⟨c, rfl, .letter hc, nofun⟩

theorem recognized (h : t.WrittenAs v) : ∀ c ∈ v, Recognized c := by
  intro c hc
  rcases h.typed_or_single with ⟨op, -, htyped⟩ | ⟨d, rfl, hd, -⟩
  · have hmem : c.toUpper ∈ op.letters := htyped ▸ List.mem_map_of_mem hc
    exact .letter (isAlpha_iff.mpr (isCapital_of_mem_letters hmem))
  · obtain rfl := List.mem_singleton.mp hc
    exact hd

theorem length_pos (h : t.WrittenAs v) : 0 < v.length := by
  rcases h.typed_or_single with ⟨op, -, htyped⟩ | ⟨c, rfl, -, -⟩
  · rw [← List.length_map, htyped]
    exact letters_length_pos op
  · exact Nat.one_pos

/-- A token is as wide as it is written. -/
theorem width_eq (h : t.WrittenAs v) {text : List Char} {pos : Nat} (hv : v <+: text.drop pos) :
    (⟨t, pos⟩ : Lexeme).width text = v.length := by
  obtain ⟨c, more, rfl⟩ := List.exists_cons_of_length_pos h.length_pos
  have hfirst : text[pos]? = some c := by
    obtain ⟨w, hw⟩ := hv
    rw [← List.head?_drop, ← hw]
    rfl
  rcases h.typed_or_single with ⟨op, rfl, htyped⟩ | ⟨d, hsingle, -, hop⟩
  · have hmem : c.toUpper ∈ op.letters := htyped ▸ List.mem_map_of_mem List.mem_cons_self
    have halpha : c.isAlpha = true := isAlpha_iff.mpr (isCapital_of_mem_letters hmem)
    simp only [Lexeme.width, hfirst, Option.any_some, halpha, if_true, ← htyped, List.length_map]
  · obtain ⟨rfl, rfl⟩ := List.cons.inj hsingle
    cases t with
    | op op => simp [Lexeme.width, hfirst, hop op rfl]
    | not | lparen | rparen | var letter => rfl

end Token.WrittenAs

theorem Lexeme.width_pos (text : List Char) (l : Lexeme) : 0 < l.width text := by
  unfold Lexeme.width
  split
  · split_ifs
    · exact letters_length_pos _
    · exact Nat.one_pos
  · exact Nat.one_pos

/-! ## Reading a text from left to right -/

/-- From a position on, the text consists of blanks and of the given tokens, in this order. -/
inductive ReadsFrom (text : List Char) : Nat → List Lexeme → Prop
  | done {pos : Nat} (h : text.length ≤ pos) : ReadsFrom text pos []
  | blank {pos : Nat} {b : Char} {ls : List Lexeme} (hb : text[pos]? = some b)
      (h : Text.isBlank b = true) (hr : ReadsFrom text (pos + 1) ls) : ReadsFrom text pos ls
  | token {pos : Nat} {t : Token} {v : List Char} {ls : List Lexeme} (hv : v <+: text.drop pos)
      (h : t.WrittenAs v) (hr : ReadsFrom text (pos + v.length) ls) :
      ReadsFrom text pos (⟨t, pos⟩ :: ls)

namespace ReadsFrom

variable {text : List Char} {pos : Nat} {ls : List Lexeme}

theorem le_pos (h : ReadsFrom text pos ls) : ∀ l ∈ ls, pos ≤ l.pos := by
  induction h with
  | done => simp
  | blank _ _ _ ih => exact fun l hl => (Nat.le_succ _).trans (ih l hl)
  | token _ _ _ ih =>
    exact List.forall_mem_cons.mpr ⟨le_rfl, fun l hl => (Nat.le_add_right _ _).trans (ih l hl)⟩

/-- A token begins behind the end of the one before. -/
theorem apart (h : ReadsFrom text pos ls) :
    ls.Pairwise fun k l => k.pos + k.width text ≤ l.pos := by
  induction h with
  | done => exact .nil
  | blank _ _ _ ih => exact ih
  | token hv h hr ih => exact List.pairwise_cons.mpr ⟨h.width_eq hv ▸ hr.le_pos, ih⟩

theorem written (h : ReadsFrom text pos ls) :
    ∀ l ∈ ls, l.token.WrittenAs ((text.drop l.pos).take (l.width text)) := by
  induction h with
  | done => simp
  | blank _ _ _ ih => exact ih
  | token hv h _ ih =>
    refine List.forall_mem_cons.mpr ⟨?_, ih⟩
    rwa [h.width_eq hv, ← List.prefix_iff_eq_take.mp hv]

theorem covers (h : ReadsFrom text pos ls) {i : Nat} {c : Char} (hi : pos ≤ i)
    (hc : text[i]? = some c) (hb : Text.isBlank c = false) :
    ∃ l ∈ ls, l.pos ≤ i ∧ i < l.pos + l.width text := by
  induction h with
  | done h =>
    rw [List.getElem?_eq_none (h.trans hi)] at hc
    cases hc
  | @blank pos b _ hpos h _ ih =>
    refine ih (Nat.lt_of_le_of_ne hi ?_)
    rintro rfl
    obtain rfl : b = c := Option.some.inj (hpos.symm.trans hc)
    rw [h] at hb
    cases hb
  | @token pos t v _ hv h _ ih =>
    by_cases hlt : i < pos + v.length
    · exact ⟨_, List.mem_cons_self, hi, by rwa [h.width_eq hv]⟩
    · obtain ⟨l, hl, hcov⟩ := ih (Nat.not_lt.mp hlt)
      exact ⟨l, List.mem_cons_of_mem _ hl, hcov⟩

/-- No character belongs to two tokens. -/
theorem eq_of_covers (h : ReadsFrom text pos ls) {k l : Lexeme} (hk : k ∈ ls) (hl : l ∈ ls)
    {i : Nat} (hki : k.pos ≤ i ∧ i < k.pos + k.width text)
    (hli : l.pos ≤ i ∧ i < l.pos + l.width text) : k = l := by
  obtain ⟨a, ha, rfl⟩ := List.mem_iff_getElem.mp hk
  obtain ⟨b, hb, rfl⟩ := List.mem_iff_getElem.mp hl
  have happart := List.pairwise_iff_getElem.mp h.apart
  rcases lt_trichotomy a b with hab | rfl | hab
  · have := happart a b ha hb hab
    omega
  · rfl
  · have := happart b a hb ha hab
    omega

end ReadsFrom

/-! ## Moving negations -/

/-- The same tokens, all but the negations in the same order. -/
structure Rearranged (ts us : List Lexeme) : Prop where
  perm : ts.Perm us
  others : ts.filter (·.token ≠ .not) = us.filter (·.token ≠ .not)

namespace Rearranged

variable {ts us vs : List Lexeme}

theorem refl (ts : List Lexeme) : Rearranged ts ts := ⟨.refl ts, rfl⟩

theorem trans (h : Rearranged ts us) (h' : Rearranged us vs) : Rearranged ts vs :=
  ⟨h.perm.trans h'.perm, h.others.trans h'.others⟩

theorem cons (l : Lexeme) (h : Rearranged ts us) : Rearranged (l :: ts) (l :: us) :=
  ⟨h.perm.cons l, by rw [List.filter_cons, List.filter_cons, h.others]⟩

theorem append_left (ls : List Lexeme) (h : Rearranged ts us) : Rearranged (ls ++ ts) (ls ++ us) :=
  ⟨h.perm.append_left ls, by rw [List.filter_append, List.filter_append, h.others]⟩

theorem swap {mark : Lexeme} (hm : mark.token = .not) (l : Lexeme) (ts : List Lexeme) :
    Rearranged (l :: mark :: ts) (mark :: l :: ts) :=
  ⟨.swap mark l ts, by simp [List.filter_cons, hm]⟩

end Rearranged

theorem rearranged_negateGroup? {mark : Lexeme} (hm : mark.token = .not) {depth : Nat}
    {tokens ts : List Lexeme} (h : negateGroup? mark depth tokens = some ts) :
    Rearranged ts (mark :: tokens) := by
  -- a token that is passed over stands behind the mark before, and in front of it afterwards
  have hpass : ∀ {depth : Nat} {l : Lexeme} {rest ts : List Lexeme},
      (∀ {us : List Lexeme}, negateGroup? mark depth rest = some us →
        Rearranged us (mark :: rest)) →
      (negateGroup? mark depth rest).map (l :: ·) = some ts →
        Rearranged ts (mark :: l :: rest) := by
    intro depth l rest ts ih hmap
    obtain ⟨us, hus, rfl⟩ := Option.map_eq_some_iff.mp hmap
    exact ((ih hus).cons l).trans (.swap hm l rest)
  induction tokens generalizing depth ts with
  | nil => simp [negateGroup?] at h
  | cons l rest ih =>
    rw [negateGroup?] at h
    split at h
    · exact hpass ih h
    · split_ifs at h
      · cases h
        exact .swap hm l rest
      · exact hpass ih h
    · exact hpass ih h

/-- A mark that is moved leaves the other tokens in order. -/
theorem rearranged_negateOperand (pos : Nat) (tokens : List Lexeme) :
    Rearranged (negateOperand pos tokens) (⟨.not, pos⟩ :: tokens) := by
  cases tokens with
  | nil => exact .refl _
  | cons l rest =>
    rw [negateOperand]
    cases l.token with
    | var letter => exact .swap rfl l rest
    | rparen =>
      cases hgroup : negateGroup? ⟨.not, pos⟩ 0 (l :: rest) with
      | none => exact .refl _
      | some ts => exact rearranged_negateGroup? rfl hgroup
    | op _ | not | lparen => exact .refl _

/-! ## The next characters -/

/-- Capitals that the text is spelled with come from letters of the text. -/
theorem exists_letters_of_prefix {k w : List Char} (hk : ∀ c ∈ k, isCapital c = true)
    (h : k <+: w.flatMap Symbol.spelling) : ∃ v w', w = v ++ w' ∧ v.map Char.toUpper = k := by
  induction k generalizing w with
  | nil => exact ⟨[], w, rfl, rfl⟩
  | cons a k ih =>
    obtain ⟨ha, hk⟩ := List.forall_mem_cons.mp hk
    cases w with
    | nil => simp at h
    | cons c w =>
      have hc : c ∉ specials := by
        -- the spelling of a special character does not begin with a capital
        intro hmem
        have hall : specials.all (fun c => !((Symbol.spelling c).head?.any isCapital)) = true := by
          decide +kernel
        have hhead := List.all_eq_true.mp hall c hmem
        obtain ⟨d, more, hspell⟩ := List.exists_cons_of_length_pos (Symbol.length_spelling_pos c)
        rw [List.flatMap_cons, hspell, List.cons_append, List.cons_prefix_cons] at h
        simp [hspell, ← h.1, ha] at hhead
      rw [List.flatMap_cons, spelling_other hc, List.singleton_append,
        List.cons_prefix_cons] at h
      obtain ⟨v, w', rfl, rfl⟩ := ih hk h.2
      exact ⟨c :: v, w', rfl, by rw [List.map_cons, h.1]⟩

theorem scan_typed_keyword {v : List Char} {op : Operator} (h : v.map Char.toUpper = op.letters)
    (pos : Nat) (w : List Char) (tokens : List Lexeme) :
    scan (Symbol.ofTextFrom pos (v ++ w)) tokens =
      scan (Symbol.ofTextFrom (pos + v.length) w) (⟨.op op, pos⟩ :: tokens) := by
  have hchars := (Symbol.map_char_ofTextFrom pos v).trans (spelling_keyword h)
  rw [Symbol.ofTextFrom_append]
  cases v with
  | nil => exact absurd (congrArg List.length h) (letters_length_pos op).ne
  | cons c v =>
    have hmem : c.toUpper ∈ op.letters := h ▸ List.mem_map_of_mem List.mem_cons_self
    rw [Symbol.ofTextFrom_cons (spelling_letter (isCapital_of_mem_letters hmem))] at hchars ⊢
    exact scan_keyword_cons hchars _ tokens

theorem scan_glyph {g : Char} {op : Operator} (h : g ∈ glyphs op) (pos : Nat) (w : List Char)
    (tokens : List Lexeme) :
    scan (Symbol.ofTextFrom pos (g :: w)) tokens =
      scan (Symbol.ofTextFrom (pos + 1) w) (⟨.op op, pos⟩ :: tokens) := by
  have hblank : Text.isBlank ' ' = true := by decide
  obtain ⟨a, more, hletters⟩ := List.exists_cons_of_length_pos (letters_length_pos op)
  have hchars : (⟨a, pos⟩ :: more.map (⟨·, pos⟩) : List Symbol).map (·.char) = op.letters := by
    simp [hletters, Function.comp_def]
  have hsymbols : Symbol.ofTextFrom pos (g :: w) = ⟨' ', pos⟩ :: ((⟨a, pos⟩ ::
      more.map (⟨·, pos⟩)) ++ (⟨' ', pos⟩ :: Symbol.ofTextFrom (pos + 1) w)) := by
    simp [Symbol.ofTextFrom, spelling_glyph h, hletters]
  rw [hsymbols, scan_blank hblank, scan_keyword_cons hchars, scan_blank hblank]

/-- A letter stands for itself or begins a keyword. -/
theorem scan_alpha {c : Char} (h : c.isAlpha = true) (pos : Nat) (w : List Char) :
    ∃ t v w', c :: w = v ++ w' ∧ Token.WrittenAs t v ∧ ∀ tokens,
      scan (Symbol.ofTextFrom pos (c :: w)) tokens =
        scan (Symbol.ofTextFrom (pos + v.length) w') (⟨t, pos⟩ :: tokens) := by
  have hcapital := isAlpha_iff.mp h
  have hsymbols := Symbol.ofTextFrom_cons (spelling_letter hcapital) pos w
  cases hkey : keyword? (Symbol.ofTextFrom pos (c :: w)) with
  | none =>
    refine ⟨.var c.toUpper, [c], w, rfl, ⟨c, h, rfl, rfl⟩, fun tokens => ?_⟩
    rw [hsymbols] at hkey ⊢
    rw [scan, if_neg (by simp [isBlank_eq_false hcapital]), hkey]
    simp only
    rw [if_pos hcapital]
    rfl
  | some op =>
    rw [keyword?_eq, Symbol.map_char_ofTextFrom] at hkey
    have hprefix : op.letters <+: (c :: w).flatMap Symbol.spelling := by
      have hfound := List.find?_some hkey
      rw [List.isPrefixOf_iff_prefix] at hfound
      exact hfound.trans (List.take_prefix 4 _)
    obtain ⟨v, w', hw, hv⟩ :=
      exists_letters_of_prefix (fun _ => isCapital_of_mem_letters) hprefix
    exact ⟨.op op, v, w', hw, Or.inr hv, fun tokens => hw ▸ scan_typed_keyword hv pos w' tokens⟩

/-- What the scanner makes of the next characters: a blank is passed over, and everything else that
is recognized begins a token. -/
theorem scan_blank_or_token {c : Char} (h : Recognized c) (pos : Nat) (w : List Char) :
    (Text.isBlank c = true ∧ ∀ tokens, scan (Symbol.ofTextFrom pos (c :: w)) tokens =
      scan (Symbol.ofTextFrom (pos + 1) w) tokens) ∨
    ∃ t v w', c :: w = v ++ w' ∧ Token.WrittenAs t v ∧ ∀ tokens, ∃ ts,
      scan (Symbol.ofTextFrom pos (c :: w)) tokens =
        scan (Symbol.ofTextFrom (pos + v.length) w') ts ∧
      Rearranged ts (⟨t, pos⟩ :: tokens) := by
  cases h with
  | blank hb =>
    left
    refine ⟨hb, fun tokens => ?_⟩
    rw [Symbol.ofTextFrom_cons (spelling_blank hb), scan_blank hb]
  | letter ha =>
    obtain ⟨t, v, w', hw, hv, hscan⟩ := scan_alpha ha pos w
    exact Or.inr ⟨t, v, w', hw, hv, fun tokens => ⟨_, hscan tokens, .refl _⟩⟩
  | lparen hc =>
    subst hc
    exact Or.inr ⟨.lparen, ['('], w, rfl, rfl, fun _ => ⟨_, scan_lparen _ _ _, .refl _⟩⟩
  | rparen hc =>
    subst hc
    exact Or.inr ⟨.rparen, [')'], w, rfl, rfl, fun _ => ⟨_, scan_rparen _ _ _, .refl _⟩⟩
  | glyph op hg =>
    exact Or.inr ⟨.op op, [c], w, rfl, Or.inl ⟨c, hg, rfl⟩,
      fun tokens => ⟨_, scan_glyph hg pos w tokens, .refl _⟩⟩
  | before hm =>
    refine Or.inr ⟨.not, [c], w, rfl, ⟨c, List.mem_append_left _ hm, rfl⟩,
      fun tokens => ⟨_, ?_, .refl _⟩⟩
    rw [Symbol.ofTextFrom_cons (spelling_before hm), scan_before]
    rfl
  | behind hm =>
    refine Or.inr ⟨.not, [c], w, rfl, ⟨c, List.mem_append_right _ hm, rfl⟩,
      fun tokens => ⟨_, ?_, rearranged_negateOperand pos tokens⟩⟩
    rw [Symbol.ofTextFrom_cons (spelling_behind hm), scan_behind]
    rfl

/-- A character of no token is reported as it stands in the text. -/
theorem scan_unrecognized {c : Char} (h : ¬ Recognized c) (pos : Nat) (w : List Char)
    (tokens : List Lexeme) :
    scan (Symbol.ofTextFrom pos (c :: w)) tokens = .error (.invalidCharacter c pos) := by
  have hspecial : c ∉ specials := by
    simp only [specials, List.mem_append, List.mem_flatMap, not_or, not_exists, not_and]
    exact ⟨⟨fun op _ hg => h (.glyph op hg), mt .before h⟩, mt .behind h⟩
  have hblank : Text.isBlank c = false := Bool.eq_false_iff.mpr (mt .blank h)
  have hupper : c.toUpper = c := by
    refine Char.toUpper_eq_of_not_isLower fun hlower => h (.letter ?_)
    simp [Char.isAlpha, hlower]
  have hcapital : isCapital c = false := by
    rw [Bool.eq_false_iff, ← hupper]
    exact fun hc => h (.letter (isAlpha_iff.mpr hc))
  have hbang : c ≠ '!' := by
    rintro rfl
    exact h (.before (by decide))
  have hprime : c ≠ Symbol.prime := by
    rintro rfl
    exact h (.behind (by decide))
  rw [Symbol.ofTextFrom_cons (spelling_other hspecial), hupper, scan_other hblank hcapital,
    if_neg (mt .lparen h), if_neg (mt .rparen h), if_neg hbang, if_neg hprime]

/-! ## The whole text -/

/-- From any position on, a text of recognized characters is read to its end. -/
theorem exists_readsFrom {text : List Char} (h : ∀ c ∈ text, Recognized c) (pos : Nat)
    (tokens : List Lexeme) :
    ∃ ls ts, ReadsFrom text pos ls ∧
      scan (Symbol.ofTextFrom pos (text.drop pos)) tokens = .ok ts ∧
      Rearranged ts (ls.reverse ++ tokens) := by
  induction hn : (text.drop pos).length using Nat.strong_induction_on generalizing pos tokens with
  | _ n ih =>
    cases hw : text.drop pos with
    | nil =>
      refine ⟨[], tokens, .done (List.drop_eq_nil_iff.mp hw), ?_, .refl _⟩
      rw [Symbol.ofTextFrom, scan]
    | cons c w =>
      have hc : text[pos]? = some c := by rw [← List.head?_drop, hw, List.head?_cons]
      rcases scan_blank_or_token (h c (List.mem_of_getElem? hc)) pos w with
        ⟨hb, hscan⟩ | ⟨t, v, w', hsplit, hv, hscan⟩
      · have hrest : text.drop (pos + 1) = w := by rw [← List.drop_drop, hw, List.drop_one]; rfl
        obtain ⟨ls, ts, hr, hts, hre⟩ :=
          ih w.length (by rw [← hn, hw]; simp) (pos + 1) tokens (by rw [hrest])
        exact ⟨ls, ts, .blank hc hb hr, by rw [hscan, ← hrest, hts], hre⟩
      · have hrest : text.drop (pos + v.length) = w' := by
          rw [← List.drop_drop, hw, hsplit, List.drop_left]
        have hpos : 0 < v.length := hv.length_pos
        have hlength := congrArg List.length hsplit
        rw [List.length_append] at hlength
        obtain ⟨us, hus, hre⟩ := hscan tokens
        obtain ⟨ls, ts, hr, hts, hre'⟩ :=
          ih w'.length (by rw [← hn, hw, hlength]; omega) (pos + v.length) us (by rw [hrest])
        refine ⟨⟨t, pos⟩ :: ls, ts, .token ⟨w', by rw [hw, hsplit]⟩ hv hr, ?_, ?_⟩
        · rw [hus, ← hrest, hts]
        · rw [List.reverse_cons, List.append_assoc]
          exact hre'.trans (hre.append_left ls.reverse)

/-- Behind characters that are recognized the first one that is not is reported. -/
theorem scan_invalid {before after : List Char} {c : Char} (h : ∀ d ∈ before, Recognized d)
    (hc : ¬ Recognized c) (pos : Nat) (tokens : List Lexeme) :
    scan (Symbol.ofTextFrom pos (before ++ c :: after)) tokens =
      .error (.invalidCharacter c (pos + before.length)) := by
  induction hn : before.length using Nat.strong_induction_on generalizing before pos tokens with
  | _ n ih =>
    cases before with
    | nil =>
      obtain rfl : 0 = n := hn
      exact scan_unrecognized hc pos after tokens
    | cons d before =>
      rw [List.length_cons] at hn
      obtain ⟨hd, hbefore⟩ := List.forall_mem_cons.mp h
      rcases scan_blank_or_token hd pos (before ++ c :: after) with
        ⟨-, hscan⟩ | ⟨t, v, w', hsplit, hv, hscan⟩
      · rw [List.cons_append, hscan, ih before.length (by omega) hbefore (pos + 1) tokens rfl, ← hn]
        congr 2
        omega
      · -- a token takes recognized characters only, so that it ends before the one that is not
        obtain ⟨more, hmore, rfl⟩ : ∃ more, d :: before = v ++ more ∧ w' = more ++ c :: after := by
          rw [← List.cons_append, List.append_eq_append_iff] at hsplit
          rcases hsplit with ⟨_ | ⟨e, as⟩, hv', htail⟩ | hmore
          · exact ⟨[], by simpa using hv'.symm, by simpa using htail.symm⟩
          · rw [List.cons_append, List.cons.injEq] at htail
            refine absurd (hv.recognized c ?_) hc
            rw [hv', htail.1]
            exact List.mem_append_right _ List.mem_cons_self
          · exact hmore
        have hpos : 0 < v.length := hv.length_pos
        have hlength := congrArg List.length hmore
        rw [List.length_cons, List.length_append] at hlength
        obtain ⟨us, hus, -⟩ := hscan tokens
        have hrest : ∀ e ∈ more, Recognized e := fun e he =>
          h e (hmore ▸ List.mem_append_right v he)
        rw [List.cons_append, hus, ih more.length (by omega) hrest (pos + v.length) us rfl, ← hn]
        congr 2
        omega

/-! ## The tokens of a text -/

/-- The character has the position in the text, and is the first that is not recognized. -/
structure FirstUnrecognized (text : List Char) (c : Char) (pos : Nat) : Prop where
  here : text[pos]? = some c
  unrecognized : ¬ Recognized c
  before : ∀ (i : Nat) (d : Char), i < pos → text[i]? = some d → Recognized d

/-- The tokens cover all of a text but its blanks, and keep the positions that they have in it. -/
structure CoverText (text : List Char) (ls : List Lexeme) : Prop where
  /-- A token begins at its position, and is written there. -/
  written : ∀ l ∈ ls, l.token.WrittenAs ((text.drop l.pos).take (l.width text))
  /-- Every character that is not a blank belongs to one token. -/
  covered : ∀ (i : Nat) (c : Char), text[i]? = some c → Text.isBlank c = false →
    ∃! l, l ∈ ls ∧ l.pos ≤ i ∧ i < l.pos + l.width text
  distinct : (ls.map (·.pos)).Nodup
  /-- All tokens but negations are in the order of the text. -/
  ordered : ((ls.filter (·.token ≠ .not)).map (·.pos)).Pairwise (· < ·)

theorem ReadsFrom.coverText {text : List Char} {ls ts : List Lexeme} (h : ReadsFrom text 0 ls)
    (hp : ts.Perm ls) (ho : ts.filter (·.token ≠ .not) = ls.filter (·.token ≠ .not)) :
    CoverText text ts := by
  have hlt : (ls.map (·.pos)).Pairwise (· < ·) := by
    rw [List.pairwise_map]
    refine h.apart.imp fun {k l} hkl => ?_
    have := k.width_pos text
    omega
  refine ⟨fun l hl => h.written l (hp.mem_iff.mp hl), fun i c hc hb => ?_, ?_, ?_⟩
  · obtain ⟨l, hl, hcov⟩ := h.covers (Nat.zero_le i) hc hb
    refine ⟨l, ⟨hp.mem_iff.mpr hl, hcov⟩, fun k ⟨hk, hcov'⟩ => ?_⟩
    exact h.eq_of_covers (hp.mem_iff.mp hk) hl hcov' hcov
  · exact (hp.map _).nodup_iff.mpr (hlt.imp fun h => h.ne)
  · rw [ho]
    exact hlt.sublist (List.filter_sublist.map _)

theorem tokenize_of_recognized {text : List Char} (h : ∀ c ∈ text, Recognized c) :
    ∃ ls, tokenize text = .ok ls ∧ CoverText text ls := by
  obtain ⟨ls, ts, hr, hscan, hre⟩ := exists_readsFrom h 0 []
  rw [List.append_nil] at hre
  refine ⟨ts.reverse, ?_, hr.coverText ?_ ?_⟩
  · rw [tokenize, Symbol.ofText, ← text.drop_zero, hscan]
    rfl
  · exact ts.reverse_perm.trans (hre.perm.trans ls.reverse_perm)
  · rw [List.filter_reverse, hre.others, List.filter_reverse, List.reverse_reverse]

theorem exists_firstUnrecognized {text : List Char} (h : ∃ c ∈ text, ¬ Recognized c) :
    ∃ before c after, text = before ++ c :: after ∧ (∀ d ∈ before, Recognized d) ∧
      ¬ Recognized c := by
  classical
  obtain ⟨c, hc, hno⟩ := h
  have hsome : (text.find? fun d => ¬ Recognized d).isSome = true :=
    List.find?_isSome.mpr ⟨c, hc, decide_eq_true hno⟩
  obtain ⟨d, hfound⟩ := Option.isSome_iff_exists.mp hsome
  obtain ⟨hd, before, after, rfl, hbefore⟩ := List.find?_eq_some_iff_append.mp hfound
  exact ⟨before, d, after, rfl, fun e he => by simpa using hbefore e he, of_decide_eq_true hd⟩

theorem tokenize_of_unrecognized {text : List Char} (h : ∃ c ∈ text, ¬ Recognized c) :
    ∃ c pos, tokenize text = .error (.invalidCharacter c pos) ∧ FirstUnrecognized text c pos := by
  obtain ⟨before, c, after, rfl, hbefore, hc⟩ := exists_firstUnrecognized h
  refine ⟨c, before.length, ?_, by simp, hc, fun i d hi hd => ?_⟩
  · rw [tokenize, Symbol.ofText, scan_invalid hbefore hc, Nat.zero_add]
    rfl
  · rw [List.getElem?_append_left hi] at hd
    exact hbefore d (List.mem_of_getElem? hd)

/-- A text has tokens unless it holds a character of no token, and the first such character is
reported where it stands. The tokens cover all characters but the blanks, each of them once. -/
theorem tokenize_exact (text : List Char) :
    ((∃ e, tokenize text = .error e) ↔ ∃ c ∈ text, ¬ Recognized c) ∧
      (∀ e, tokenize text = .error e →
        ∃ c pos, e = .invalidCharacter c pos ∧ FirstUnrecognized text c pos) ∧
      ∀ ls, tokenize text = .ok ls → CoverText text ls := by
  by_cases h : ∃ c ∈ text, ¬ Recognized c
  · obtain ⟨c, pos, htokens, hfirst⟩ := tokenize_of_unrecognized h
    refine ⟨⟨fun _ => h, fun _ => ⟨_, htokens⟩⟩, fun e he => ?_, fun ls hls => ?_⟩
    · exact ⟨c, pos, Except.error.inj (he.symm.trans htokens), hfirst⟩
    · cases htokens.symm.trans hls
  · have hall : ∀ c ∈ text, Recognized c := fun c hc => by
      by_contra hno
      exact h ⟨c, hc, hno⟩
    obtain ⟨ls, htokens, hcover⟩ := tokenize_of_recognized hall
    refine ⟨⟨?_, fun hex => absurd hex h⟩, fun e he => ?_, fun ls' hls => ?_⟩
    · rintro ⟨e, he⟩
      cases htokens.symm.trans he
    · cases htokens.symm.trans he
    · exact Except.ok.inj (htokens.symm.trans hls) ▸ hcover

/-- A keyword between two letters, and a mark behind a group, whose token stands in front. -/
theorem tokenize_exact_moved :
    ∃ ls, tokenize "(anAndb)'+c".toList = .ok ls ∧ CoverText "(anAndb)'+c".toList ls ∧
      ls = [⟨.not, 8⟩, ⟨.lparen, 0⟩, ⟨.var 'A', 1⟩, ⟨.op .nand, 2⟩, ⟨.var 'B', 6⟩, ⟨.rparen, 7⟩,
        ⟨.op .or, 9⟩, ⟨.var 'C', 10⟩] := by
  have htokens : tokenize "(anAndb)'+c".toList =
      .ok [⟨.not, 8⟩, ⟨.lparen, 0⟩, ⟨.var 'A', 1⟩, ⟨.op .nand, 2⟩, ⟨.var 'B', 6⟩, ⟨.rparen, 7⟩,
        ⟨.op .or, 9⟩, ⟨.var 'C', 10⟩] := eq_ok_of_toOption (by decide +kernel)
  exact ⟨_, htokens, (tokenize_exact _).2.2 _ htokens, rfl⟩

end LogicCircuit.Formula
