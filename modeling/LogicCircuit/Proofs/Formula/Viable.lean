import LogicCircuit.Proofs.Formula.Outline

/-!
# Which syntax error is reported

A token sequence is viable if it can go on to a formula. The reader gets through viable sequences
and no others, so it stops at the first token that no formula has there, which is the one behind
the longest viable part. What the error says about that place can be seen from the part alone:
whether it ends with an operand, and which parenthesis, if any, it leaves open last.

Results:
* `viable_iff`: a sequence is viable exactly if the reader gets through it.
* `endsComplete_iff_of_run`, `innermostOpen_iff_of_run`: what the outline says about the tokens.
* `ofLexemes_blames`: the error that is reported for any sequence that is no formula.
-/

namespace LogicCircuit.Formula

/-! ## Viable sequences -/

/-- The tokens begin a formula. -/
def Viable (ts : List Token) : Prop := ∃ rest, ∃ t : Phrase .sum, t.tokens = ts ++ rest

theorem Viable.of_append {ts us : List Token} (h : Viable (ts ++ us)) : Viable ts := by
  obtain ⟨rest, t, ht⟩ := h
  exact ⟨us ++ rest, t, by rw [ht, List.append_assoc]⟩

theorem viable_nil : Viable [] :=
  ⟨_, .ofProduct (.ofUnary (.ofPrimary (.letter 'A'))), (List.nil_append _).symm⟩

theorem eq_complete_of_outline {r : Reader} {groups : List Nat}
    (h : r.outline = ⟨false, groups⟩) :
    ∃ sum f outer, r = .complete sum f outer ∧ outer.map (·.start) = groups := by
  cases r with
  | awaiting p outer => cases h
  | complete sum f outer =>
    cases h
    exact ⟨sum, f, outer, rfl, rfl⟩

/-- Where the outline gets through a token, so does the reader under a limit that is high enough. -/
theorem Reader.Spells.exists_step {r : Reader} {ts : List Token} (hr : r.Spells ts) {l : Lexeme}
    {o : Outline} (h : r.outline.step l = .ok o) :
    ∃ r' : Reader, r'.Spells (ts ++ [l.token]) ∧ r'.outline = o := by
  rw [hr.outline_step _ (Nat.lt_succ_self ts.length) l] at h
  obtain ⟨r', hstep, ho⟩ := map_eq_ok.mp h
  exact ⟨r', hr.step hstep, ho⟩

/-- A reader that has completed an operand can close the groups that are open, one after the
other. -/
theorem Reader.Spells.viable_of_complete {sum : Option (Formula × Operator)} {f : Formula}
    {outer : List Enclosing} {ts : List Token} (hr : (Reader.complete sum f outer).Spells ts) :
    Viable ts := by
  generalize hgroups : outer.map (·.start) = groups
  induction groups generalizing sum f outer ts with
  | nil =>
    obtain rfl := List.map_eq_nil_iff.mp hgroups
    obtain ⟨a, b, t, ha, hb, rfl, rfl⟩ := hr
    obtain ⟨f, hf⟩ := hb.exists_continued (b.length + t.tokens.length) t le_rfl
    obtain ⟨u, hu, -⟩ := hb.exists_sum t hf
    cases ha
    exact ⟨[], u, by rw [hu, List.nil_append, List.append_nil]⟩
  | cons group groups ih =>
    have hstep : (Reader.complete sum f outer).outline.step ⟨.rparen, 0⟩ = .ok ⟨false, groups⟩ := by
      rw [Reader.outline, hgroups]
      rfl
    obtain ⟨r', hr', ho⟩ := hr.exists_step hstep
    obtain ⟨sum', f', outer', rfl, hgroups'⟩ := eq_complete_of_outline ho
    exact (ih hr' hgroups').of_append

theorem Reader.Spells.viable {r : Reader} {ts : List Token} (hr : r.Spells ts) : Viable ts := by
  cases r with
  | awaiting p outer =>
    have hstep : (Reader.awaiting p outer).outline.step ⟨.var 'A', 0⟩ =
        .ok ⟨false, outer.map (·.start)⟩ := rfl
    obtain ⟨r', hr', ho⟩ := hr.exists_step hstep
    obtain ⟨sum, f, outer', rfl, -⟩ := eq_complete_of_outline ho
    exact hr'.viable_of_complete.of_append
  | complete sum f outer => exact hr.viable_of_complete

/-- The reader gets through every part that a formula begins with. -/
theorem exists_run_of_tokens {ls us : List Lexeme} {t : Phrase .sum}
    (h : (ls ++ us).map Lexeme.token = t.tokens) : ∃ o, ls.foldlM Outline.step .start = .ok o := by
  -- The limit is high enough for the whole formula.
  have hlimit : (ls ++ us).length ≤ (⟨(ls ++ us).length, 0⟩ : Limits).depth := le_rfl
  have hread := (ofLexemes_eq_ok_iff hlimit).mpr ⟨t, h.symm, rfl⟩
  have hrun := ofLexemes_outline hlimit
  rw [hread] at hrun
  obtain ⟨o, ho, -⟩ := bind_eq_ok.mp hrun.symm
  rw [List.foldlM_append] at ho
  obtain ⟨o', ho', -⟩ := bind_eq_ok.mp ho
  exact ⟨o', ho'⟩

/-- A sequence is viable exactly if the reader gets through it. -/
theorem viable_iff {ls : List Lexeme} : Viable (ls.map Lexeme.token) ↔
    ∃ o, ls.foldlM Outline.step .start = .ok o := by
  constructor
  · rintro ⟨rest, t, ht⟩
    have hall : (ls ++ rest.map (Lexeme.mk · 0)).map Lexeme.token = t.tokens := by
      rw [ht, List.map_append, List.map_map]
      exact congrArg _ (List.map_id rest)
    exact exists_run_of_tokens hall
  · rintro ⟨o, ho⟩
    have hrun := Reader.spells_start.outline_foldlM ls.length ls (by simp)
    obtain ⟨r, hr, -⟩ := map_eq_ok.mp (hrun.symm.trans ho)
    simpa using (Reader.spells_start.foldlM hr).viable

/-! ## What the outline says about the tokens -/

/-- Whether an operand may end with the token. -/
def Token.completes : Token → Bool
  | var _ | rparen => true
  | op _ | not | lparen => false

/-- The tokens end with a variable or with a closing parenthesis. -/
def EndsComplete (ls : List Lexeme) : Prop :=
  ∃ l, ls.getLast? = some l ∧ l.token.completes = true

/-- Every parenthesis among the tokens has its partner among them. -/
inductive Balanced : List Token → Prop
  | nil : Balanced []
  | other {token : Token} (hl : token ≠ .lparen) (hr : token ≠ .rparen) : Balanced [token]
  | append {a b : List Token} (ha : Balanced a) (hb : Balanced b) : Balanced (a ++ b)
  | group {b : List Token} (hb : Balanced b) : Balanced (.lparen :: (b ++ [.rparen]))

/-- The parenthesis at the position is opened and not closed, and so is none behind it. -/
def InnermostOpen (ls : List Lexeme) (pos : Nat) : Prop :=
  ∃ a b, ls = a ++ ⟨.lparen, pos⟩ :: b ∧ Balanced (b.map Lexeme.token)

/-- The parentheses at the positions, listed from the last one to the first one, are opened and not
closed, and so are no others. -/
inductive OpenAt : List Lexeme → List Nat → Prop
  | none {b : List Lexeme} (hb : Balanced (b.map Lexeme.token)) : OpenAt b []
  | some {a b : List Lexeme} {pos : Nat} {groups : List Nat} (ha : OpenAt a groups)
      (hb : Balanced (b.map Lexeme.token)) : OpenAt (a ++ ⟨.lparen, pos⟩ :: b) (pos :: groups)

theorem OpenAt.append {a b : List Lexeme} {groups : List Nat} (ha : OpenAt a groups)
    (hb : Balanced (b.map Lexeme.token)) : OpenAt (a ++ b) groups := by
  cases ha with
  | none ha =>
    refine .none ?_
    rw [List.map_append]
    exact ha.append hb
  | some ha hb' =>
    rw [List.append_assoc, List.cons_append]
    refine .some ha ?_
    rw [List.map_append]
    exact hb'.append hb

/-- Closing the last group that is open. -/
theorem OpenAt.close {ls : List Lexeme} {pos pos' : Nat} {groups : List Nat}
    (h : OpenAt ls (pos :: groups)) : OpenAt (ls ++ [⟨.rparen, pos'⟩]) groups := by
  cases h with
  | @some a b _ _ ha hb =>
    rw [List.append_assoc]
    refine ha.append ?_
    rw [List.cons_append, List.map_cons, List.map_append]
    exact hb.group

theorem awaiting_of_step {o o' : Outline} {l : Lexeme} (h : o.step l = .ok o') :
    o'.awaiting = !l.token.completes := by
  obtain ⟨awaiting, groups⟩ := o
  obtain ⟨token, pos⟩ := l
  cases awaiting with
  | true => cases token <;> cases h <;> rfl
  | false => cases token <;> cases groups <;> cases h <;> rfl

/-- What a token that is accepted does to the groups that are open. -/
theorem groups_of_step {o o' : Outline} {l : Lexeme} (h : o.step l = .ok o') :
    (l.token = .lparen ∧ o'.groups = l.pos :: o.groups) ∨
    (l.token = .rparen ∧ ∃ pos, o.groups = pos :: o'.groups) ∨
    (l.token ≠ .lparen ∧ l.token ≠ .rparen ∧ o'.groups = o.groups) := by
  obtain ⟨awaiting, groups⟩ := o
  obtain ⟨token, pos⟩ := l
  cases awaiting with
  | true => cases token <;> cases h <;> simp
  | false => cases token <;> cases groups <;> cases h <;> simp

theorem OpenAt.step {ls : List Lexeme} {o o' : Outline} {l : Lexeme} (ho : OpenAt ls o.groups)
    (h : o.step l = .ok o') : OpenAt (ls ++ [l]) o'.groups := by
  obtain ⟨token, pos⟩ := l
  rcases groups_of_step h with ⟨rfl, hgroups⟩ | ⟨rfl, pos', hgroups⟩ | ⟨hl, hr, hgroups⟩
  · rw [hgroups]
    exact .some ho .nil
  · rw [hgroups] at ho
    exact ho.close
  · rw [hgroups]
    exact ho.append (.other hl hr)

theorem openAt_of_run {before ls : List Lexeme} {o o' : Outline} (ho : OpenAt before o.groups)
    (h : ls.foldlM Outline.step o = .ok o') : OpenAt (before ++ ls) o'.groups := by
  induction ls generalizing before o with
  | nil =>
    cases h
    simpa using ho
  | cons l ls ih =>
    rw [List.foldlM_cons, bind_eq_ok] at h
    obtain ⟨o₁, hstep, h⟩ := h
    simpa using ih (ho.step hstep) h

/-- Balanced tokens open and close groups of their own only. -/
theorem groups_of_balanced {ts : List Token} (hts : Balanced ts) {ls : List Lexeme}
    (hls : ls.map Lexeme.token = ts) {o o' : Outline} (h : ls.foldlM Outline.step o = .ok o') :
    o'.groups = o.groups := by
  induction hts generalizing ls o o' with
  | nil =>
    obtain rfl := List.map_eq_nil_iff.mp hls
    cases h
    rfl
  | other hl hr =>
    obtain ⟨pos, rfl⟩ := map_token_eq_singleton.mp hls
    obtain ⟨o₁, hstep, hnil⟩ := bind_eq_ok.mp h
    cases hnil
    rcases groups_of_step hstep with ⟨he, -⟩ | ⟨he, -⟩ | ⟨-, -, hgroups⟩
    · exact absurd he hl
    · exact absurd he hr
    · exact hgroups
  | append _ _ iha ihb =>
    obtain ⟨a, b, rfl, ha, hb⟩ := List.map_eq_append_iff.mp hls
    rw [List.foldlM_append] at h
    obtain ⟨o₁, h₁, h₂⟩ := bind_eq_ok.mp h
    exact (ihb hb h₂).trans (iha ha h₁)
  | group _ ih =>
    obtain ⟨pos, rest, rfl, hrest⟩ := map_token_eq_cons.mp hls
    obtain ⟨b, last, rfl, hb, hlast⟩ := List.map_eq_append_iff.mp hrest
    obtain ⟨pos', rfl⟩ := map_token_eq_singleton.mp hlast
    rw [List.foldlM_cons] at h
    obtain ⟨o₁, hopen, h⟩ := bind_eq_ok.mp h
    rw [List.foldlM_append] at h
    obtain ⟨o₂, hinner, h⟩ := bind_eq_ok.mp h
    obtain ⟨o₃, hclose, hnil⟩ := bind_eq_ok.mp h
    cases hnil
    have hopened : o₁.groups = pos :: o.groups := by simpa using groups_of_step hopen
    have hclosed : ∃ group, o₂.groups = group :: o'.groups := by simpa using groups_of_step hclose
    obtain ⟨group, hclosed⟩ := hclosed
    rw [ih hb hinner, hopened] at hclosed
    exact (List.cons.inj hclosed).2.symm

theorem endsComplete_iff_of_run {ls : List Lexeme} {o : Outline}
    (h : ls.foldlM Outline.step .start = .ok o) : EndsComplete ls ↔ o.awaiting = false := by
  unfold EndsComplete
  rcases List.eq_nil_or_concat ls with rfl | ⟨init, l, rfl⟩
  · cases h
    simp [Outline.start]
  · rw [List.concat_eq_append, List.foldlM_append] at h
    obtain ⟨o₁, -, h⟩ := bind_eq_ok.mp h
    obtain ⟨o₂, hstep, hnil⟩ := bind_eq_ok.mp h
    cases hnil
    rw [awaiting_of_step hstep]
    simp

theorem not_endsComplete_of_run {ls : List Lexeme} {o : Outline}
    (h : ls.foldlM Outline.step .start = .ok o) (hw : o.awaiting = true) : ¬ EndsComplete ls := by
  rw [endsComplete_iff_of_run h, hw]
  decide

theorem innermostOpen_iff_of_run {ls : List Lexeme} {o : Outline}
    (h : ls.foldlM Outline.step .start = .ok o) {pos : Nat} :
    InnermostOpen ls pos ↔ o.groups.head? = some pos := by
  constructor
  · rintro ⟨a, b, rfl, hb⟩
    rw [List.foldlM_append] at h
    obtain ⟨o₁, -, h⟩ := bind_eq_ok.mp h
    rw [List.foldlM_cons] at h
    obtain ⟨o₂, hopen, h⟩ := bind_eq_ok.mp h
    have hopened : o₂.groups = pos :: o₁.groups := by simpa using groups_of_step hopen
    rw [groups_of_balanced hb rfl h, hopened]
    rfl
  · intro hhead
    have hstart : OpenAt [] Outline.start.groups := .none .nil
    have hopen : OpenAt ls o.groups := openAt_of_run hstart h
    generalize o.groups = groups at hopen hhead
    cases hopen with
    | none hb => cases hhead
    | some ha hb =>
      cases hhead
      exact ⟨_, _, rfl, hb⟩

/-! ## The error -/

/-- The tokens are parted behind the longest viable part they begin with. -/
structure LongestViable (lexemes before behind : List Lexeme) : Prop where
  split : lexemes = before ++ behind
  viable : Viable (before.map Lexeme.token)
  longest : ∀ part, part <+: lexemes → Viable (part.map Lexeme.token) →
    part.length ≤ before.length

theorem LongestViable.of_not_viable {before rest : List Lexeme} {l : Lexeme}
    (hv : Viable (before.map Lexeme.token)) (hno : ¬ Viable ((before ++ [l]).map Lexeme.token)) :
    LongestViable (before ++ l :: rest) before (l :: rest) := by
  refine ⟨rfl, hv, fun part hpart hv' => ?_⟩
  by_contra hlt
  have hnext : before ++ [l] <+: before ++ l :: rest := ⟨rest, by simp⟩
  obtain ⟨more, rfl⟩ := List.prefix_of_prefix_length_le hnext hpart (by
    rw [List.length_append, List.length_singleton]
    omega)
  rw [List.map_append] at hv'
  exact hno hv'.of_append

theorem exists_longestViable (lexemes : List Lexeme) :
    ∃ before behind, LongestViable lexemes before behind := by
  induction lexemes using List.reverseRecOn with
  | nil => exact ⟨[], [], rfl, viable_nil, fun part hpart _ => hpart.length_le⟩
  | append_singleton lexemes l ih =>
    by_cases hall : Viable ((lexemes ++ [l]).map Lexeme.token)
    · exact ⟨_, [], (List.append_nil _).symm, hall, fun part hpart _ => hpart.length_le⟩
    · obtain ⟨before, behind, rfl, hv, hlongest⟩ := ih
      refine ⟨before, behind ++ [l], List.append_assoc _ _ _, hv, fun part hpart hv' => ?_⟩
      rcases List.prefix_concat_iff.mp hpart with rfl | hpart
      · exact absurd hv' hall
      · exact hlongest part hpart hv'

/-- The parser blames the place behind the longest viable part. -/
structure Blames (before behind : List Lexeme) (verdict : Except SyntaxError Formula) : Prop where
  /-- An operand is awaited, but the tokens end. -/
  incomplete : ¬ EndsComplete before → behind = [] → verdict = .error .incomplete
  /-- An operand is awaited, but a token follows that begins none. -/
  unexpected : ¬ EndsComplete before → ∀ l rest, behind = l :: rest →
    (l.token = .rparen ∨ ∃ op, l.token = .op op) ∧
      verdict = .error (.unexpectedToken l.token l.pos)
  /-- A group is open, and neither continued nor closed. -/
  unclosed : EndsComplete before → ∀ pos, InnermostOpen before pos →
    verdict = .error (.unclosedGroup pos)
  /-- No group is open, so a formula is complete, but a token follows. -/
  trailing : EndsComplete before → (∀ pos, ¬ InnermostOpen before pos) →
    ∃ l rest, behind = l :: rest ∧ (∀ op, l.token ≠ .op op) ∧
      verdict = .error (.trailingToken l.token l.pos)

theorem error_of_step {o : Outline} {l : Lexeme} {e : SyntaxError} (h : o.step l = .error e) :
    (o.awaiting = true ∧ (l.token = .rparen ∨ ∃ op, l.token = .op op) ∧
      e = .unexpectedToken l.token l.pos) ∨
    (o.awaiting = false ∧ o.groups = [] ∧ (∀ op, l.token ≠ .op op) ∧
      e = .trailingToken l.token l.pos) ∨
    (o.awaiting = false ∧ ∃ pos outer, o.groups = pos :: outer ∧ e = .unclosedGroup pos) := by
  obtain ⟨awaiting, groups⟩ := o
  obtain ⟨token, pos⟩ := l
  cases awaiting with
  | true => cases token <;> cases h <;> simp
  | false => cases token <;> cases groups <;> cases h <;> simp

theorem error_of_result {o : Outline} {e : SyntaxError} (h : o.result = .error e) :
    (o.awaiting = true ∧ e = .incomplete) ∨
    (o.awaiting = false ∧ ∃ pos outer, o.groups = pos :: outer ∧ e = .unclosedGroup pos) := by
  obtain ⟨awaiting, groups⟩ := o
  cases awaiting with
  | true =>
    cases h
    simp
  | false =>
    cases groups with
    | nil => cases h
    | cons pos outer =>
      cases h
      simp

section Verdict

variable {before behind : List Lexeme} {o : Outline} {verdict : Except SyntaxError Formula}
  (hrun : before.foldlM Outline.step .start = .ok o)
include hrun

/-- An error that names the group opened last is the one for an open group. -/
theorem Blames.of_unclosed {pos : Nat} {outer : List Nat} (hw : o.awaiting = false)
    (hg : o.groups = pos :: outer) (hv : verdict = .error (.unclosedGroup pos)) :
    Blames before behind verdict := by
  have hends := (endsComplete_iff_of_run hrun).mpr hw
  have hopen : InnermostOpen before pos := (innermostOpen_iff_of_run hrun).mpr (by rw [hg]; rfl)
  refine ⟨fun h => absurd hends h, fun h => absurd hends h, fun _ pos' hpos' => ?_,
    fun _ h => absurd hopen (h pos)⟩
  rw [innermostOpen_iff_of_run hrun, hg] at hpos'
  obtain rfl : pos = pos' := Option.some.inj hpos'
  exact hv

/-- What is reported where the tokens end too early. -/
theorem Blames.of_result {e : SyntaxError} (h : o.result = .error e) (hv : verdict = .error e) :
    Blames before [] verdict := by
  rcases error_of_result h with ⟨hw, rfl⟩ | ⟨hw, pos, outer, hg, rfl⟩
  · have hends := not_endsComplete_of_run hrun hw
    exact ⟨fun _ _ => hv, fun _ _ _ h => (List.cons_ne_nil _ _ h.symm).elim,
      fun h => absurd h hends, fun h => absurd h hends⟩
  · exact .of_unclosed hrun hw hg hv

/-- What is reported at a token that may not follow. -/
theorem Blames.of_step {l : Lexeme} {rest : List Lexeme} {e : SyntaxError}
    (h : o.step l = .error e) (hv : verdict = .error e) : Blames before (l :: rest) verdict := by
  rcases error_of_step h with ⟨hw, htoken, rfl⟩ | ⟨hw, hg, htoken, rfl⟩ | ⟨hw, pos, outer, hg, rfl⟩
  · have hends := not_endsComplete_of_run hrun hw
    refine ⟨fun _ h => (List.cons_ne_nil _ _ h).elim, fun _ l' rest' he => ?_,
      fun h => absurd h hends, fun h => absurd h hends⟩
    cases he
    exact ⟨htoken, hv⟩
  · have hends := (endsComplete_iff_of_run hrun).mpr hw
    refine ⟨fun h => absurd hends h, fun h => absurd hends h, fun _ pos hpos => ?_,
      fun _ _ => ⟨l, rest, rfl, htoken, hv⟩⟩
    rw [innermostOpen_iff_of_run hrun, hg] at hpos
    cases hpos
  · exact .of_unclosed hrun hw hg hv

end Verdict

/-- Under a limit that is not less than the number of tokens, the error reported for a sequence that
is no formula is the one that its longest viable part dictates, together with the token behind. -/
theorem ofLexemes_blames :
    (∀ lexemes, ∃ before behind, LongestViable lexemes before behind) ∧
    ∀ (lexemes : List Lexeme) (limits : Limits), lexemes.length ≤ limits.depth →
      (¬ ∃ t : Phrase .sum, t.tokens = lexemes.map Lexeme.token) →
      ∀ before behind, LongestViable lexemes before behind →
        Blames before behind (ofLexemes lexemes limits) := by
  refine ⟨exists_longestViable, fun lexemes limits hlimit hno before behind h => ?_⟩
  obtain ⟨rfl, hv, hlongest⟩ := h
  obtain ⟨o, ho⟩ := viable_iff.mp hv
  have hverdict := ofLexemes_outline hlimit
  rw [List.foldlM_append, ho, ok_bind] at hverdict
  cases behind with
  | nil =>
    -- The part is viable, but no formula as it stands.
    cases hresult : o.result with
    | error e => exact .of_result ho hresult (eq_error_of_map (hverdict.trans hresult))
    | ok _ =>
      obtain ⟨f, hf, -⟩ := map_eq_ok.mp (hverdict.trans hresult)
      obtain ⟨t, ht, -⟩ := exists_phrase hf
      exact absurd ⟨t, ht⟩ hno
  | cons l rest =>
    cases hstep : o.step l with
    | error e =>
      rw [List.foldlM_cons, hstep] at hverdict
      exact .of_step ho hstep (eq_error_of_map hverdict)
    | ok o' =>
      -- With this token the part would still be viable.
      have hmore : (before ++ [l]).foldlM Outline.step .start = .ok o' := by
        rw [List.foldlM_append, ho, ok_bind, List.foldlM_cons, hstep]
        rfl
      have hle := hlongest (before ++ [l]) ⟨rest, by simp⟩ (viable_iff.mpr ⟨o', hmore⟩)
      rw [List.length_append, List.length_singleton] at hle
      omega

/-- A group is open, and behind an operand in it, which is a group that has been closed, stands a
variable. -/
theorem ofLexemes_blames_group :
    let before : List Lexeme := [⟨.lparen, 3⟩, ⟨.var 'a', 4⟩, ⟨.op .nand, 5⟩, ⟨.lparen, 9⟩,
      ⟨.not, 8⟩, ⟨.var 'B', 7⟩, ⟨.rparen, 6⟩]
    let behind : List Lexeme := [⟨.var 'c', 2⟩, ⟨.rparen, 1⟩]
    ((before ++ behind).length ≤ 9 ∧
      (¬ ∃ t : Phrase .sum, t.tokens = (before ++ behind).map Lexeme.token) ∧
      LongestViable (before ++ behind) before behind) ∧
    Blames before behind (ofLexemes (before ++ behind) ⟨9, 0⟩) ∧
    ofLexemes (before ++ behind) ⟨9, 0⟩ = .error (.unclosedGroup 3) := by
  intro before behind
  have hv : Viable (before.map Lexeme.token) := viable_iff.mpr ⟨⟨false, [3]⟩, rfl⟩
  have hnot : ¬ Viable ((before ++ [Lexeme.mk (.var 'c') 2]).map Lexeme.token) := by
    rw [viable_iff]
    rintro ⟨o, ho⟩
    cases ho
  have hno : ¬ ∃ t : Phrase .sum, t.tokens = (before ++ behind).map Lexeme.token := by
    rintro ⟨t, ht⟩
    have hall : Viable ((before ++ [Lexeme.mk (.var 'c') 2]).map Lexeme.token ++ [.rparen]) :=
      ⟨[], t, ht⟩
    exact hnot hall.of_append
  have hlongest : LongestViable (before ++ behind) before behind := .of_not_viable hv hnot
  have hblames := ofLexemes_blames.2 _ ⟨9, 0⟩ (le_refl 9) hno _ _ hlongest
  refine ⟨⟨le_rfl, hno, hlongest⟩, hblames, hblames.unclosed ⟨_, rfl, rfl⟩ 3 ?_⟩
  refine ⟨[], before.tail, rfl, ?_⟩
  exact (Balanced.other (by decide) (by decide)).append
    ((Balanced.other (by decide) (by decide)).append
      (.group ((Balanced.other (by decide) (by decide)).append
        (.other (by decide) (by decide)))))

end LogicCircuit.Formula
