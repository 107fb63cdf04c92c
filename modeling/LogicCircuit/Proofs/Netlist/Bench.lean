import LogicCircuit.Netlist
import LogicCircuit.Proofs.Except
import LogicCircuit.Proofs.Text.Lines

/-!
# What a netlist says

A reader of the `.bench` format of the ISCAS benchmarks that knows nothing of how netlists are
written here: a text of lines in any order, of which some are blank or comments, others declare
inputs and outputs, and the rest define one signal each. A valuation of the signals satisfies a
netlist if every definition holds under it.

Results:
* `line?_input`, `line?_output`, `line?_definition`: how the lines that say something are read.
* `Reads.read?`: a text is read if each of its lines is.
-/

namespace LogicCircuit

namespace Bench

/-! ## Meaning -/

/-- The functions of the format. -/
inductive Function where
  | buf | not | and | nand | or | nor | xor | xnor
  deriving DecidableEq, Repr

/-- The bit that a function gives for some arguments: one for `BUF` and `NOT`, any number for the
others. -/
def Function.apply? : Function → List Bool → Option Bool
  | buf, [a] => some a
  | not, [a] => some !a
  | buf, _ | not, _ => none
  | and, args => some (args.all id)
  | nand, args => some !(args.all id)
  | or, args => some (args.any id)
  | nor, args => some !(args.any id)
  | xor, args => some (args.foldl Bool.xor false)
  | xnor, args => some !(args.foldl Bool.xor false)

/-- What defines a signal. -/
inductive Source where
  | gnd
  | vdd
  | call (function : Function) (args : List String)
  deriving DecidableEq, Repr

/-- The signals that a definition uses. -/
def Source.args : Source → List String
  | gnd | vdd => []
  | call _ args => args

/-- The bit that a definition gives to its signal, given those of the other signals. -/
def Source.value? (v : String → Bool) : Source → Option Bool
  | gnd => some false
  | vdd => some true
  | call function args => function.apply? (args.map v)

/-- What one line says. -/
inductive Statement where
  | input (name : String)
  | output (name : String)
  | define (name : String) (source : Source)
  deriving DecidableEq, Repr

def Statement.input? : Statement → Option String
  | input name => some name
  | _ => none

def Statement.output? : Statement → Option String
  | output name => some name
  | _ => none

def Statement.definition? : Statement → Option (String × Source)
  | define name source => some (name, source)
  | _ => none

end Bench

/-- What a text in the format says. -/
structure Bench where
  inputs : List String
  outputs : List String
  definitions : List (String × Bench.Source)
  deriving DecidableEq, Repr

namespace Bench

/-- The signals that have a value: inputs and defined signals. -/
def signals (b : Bench) : List String := b.inputs ++ b.definitions.map (·.1)

/-- Every definition holds. -/
def SatisfiedBy (b : Bench) (v : String → Bool) : Prop :=
  ∀ d ∈ b.definitions, d.2.value? v = some (v d.1)

/-! ## Reading -/

/-- Whether the character may stand in a name. -/
def isNameChar (c : Char) : Bool := c.isAlphanum || c == '_'

/-- A name, which is not empty. -/
def name? (text : List Char) : Option String :=
  if text ≠ [] ∧ text.all isNameChar then some (String.ofList text) else none

/-- A name and the names that stand behind it, in brackets and between commas. -/
def call? (text : List Char) : Option (String × List String) :=
  match text.splitOn '(' with
  | [head, rest] => do
    if rest.getLast? = some ')' then
      return (← name? head, ← (rest.dropLast.splitOn ',').mapM name?)
    else none
  | _ => none

def function? : String → Option Function
  | "BUF" => some .buf
  | "NOT" => some .not
  | "AND" => some .and
  | "NAND" => some .nand
  | "OR" => some .or
  | "NOR" => some .nor
  | "XOR" => some .xor
  | "XNOR" => some .xnor
  | _ => none

/-- The right side of a definition. -/
def source? (text : List Char) : Option Source :=
  if text = ['g', 'n', 'd'] then some .gnd
  else if text = ['v', 'd', 'd'] then some .vdd
  else do
    let (head, args) ← call? text
    return .call (← function? head) args

def declaration? : String → List String → Option Statement
  | "INPUT", [name] => some (.input name)
  | "OUTPUT", [name] => some (.output name)
  | _, _ => none

/-- What a line says that is neither blank nor a comment, its blanks removed. -/
def statement? (text : List Char) : Option Statement :=
  match text.splitOn '=' with
  | [text] => do
    let (head, args) ← call? text
    declaration? head args
  | [target, source] => do return .define (← name? target) (← source? source)
  | _ => none

/-- A line without its blanks. -/
def compact (line : List Char) : List Char := line.filter (!·.isWhitespace)

/-- What a line says: nothing if it is blank or a comment, one statement otherwise. -/
def line? (line : List Char) : Option (List Statement) :=
  match compact line with
  | [] | '#' :: _ => some []
  | text => (statement? text).map fun statement => [statement]

/-- What some statements say together. -/
def ofStatements (statements : List Statement) : Bench where
  inputs := statements.filterMap Statement.input?
  outputs := statements.filterMap Statement.output?
  definitions := statements.filterMap Statement.definition?

/-- What a text says, if each of its lines can be read. -/
def read? (text : String) : Option Bench :=
  ((text.toList.splitOn '\n').mapM line?).map fun statements => ofStatements statements.flatten

example : read? "# one\nOUTPUT(y)\ny = NAND(A, z)\nz = gnd\n\nINPUT(A)" = some {
    inputs := ["A"]
    outputs := ["y"]
    definitions := [("y", .call .nand ["A", "z"]), ("z", .gnd)] } := by decide

/-! ## Names and calls -/

/-- The characters of a name. -/
structure IsName (text : List Char) : Prop where
  ne_nil : text ≠ []
  all : ∀ c ∈ text, isNameChar c = true

theorem IsName.of_all {text : List Char} (hne : text ≠ []) (h : text.all isNameChar = true) :
    IsName text := ⟨hne, List.all_eq_true.mp h⟩

theorem IsName.notMem {text : List Char} (h : IsName text) {c : Char}
    (hc : isNameChar c = false) : c ∉ text := by
  intro hmem
  rw [h.all c hmem] at hc
  cases hc

theorem name?_eq_some {text : List Char} (h : IsName text) :
    name? text = some (String.ofList text) :=
  if_pos ⟨h.ne_nil, List.all_eq_true.mpr h.all⟩

/-- A call whose arguments are separated in the given way. -/
def callText (separator head : List Char) (args : List (List Char)) : List Char :=
  head ++ '(' :: (separator.intercalate args ++ [')'])

/-- A call consists of names, separators and brackets. -/
theorem mem_callText {separator head : List Char} {args : List (List Char)} {c : Char}
    (h : c ∈ callText separator head args) (hh : IsName head) (ha : ∀ a ∈ args, IsName a) :
    isNameChar c = true ∨ c ∈ separator ∨ c = '(' ∨ c = ')' := by
  rcases List.mem_append.mp h with h | h
  · exact .inl (hh.all c h)
  · rcases List.mem_cons.mp h with h | h
    · exact .inr (.inr (.inl h))
    · rcases List.mem_append.mp h with h | h
      · rcases Text.mem_intercalate h with h | ⟨a, hmem, hc⟩
        · exact .inr (.inl h)
        · exact .inl ((ha a hmem).all c hc)
      · exact .inr (.inr (.inr (List.mem_singleton.mp h)))

theorem call?_callText {head : List Char} {args : List (List Char)} (hh : IsName head)
    (ha : ∀ a ∈ args, IsName a) (hne : args ≠ []) :
    call? (callText [','] head args) = some (String.ofList head, args.map String.ofList) := by
  have hargs : '(' ∉ [','].intercalate args ++ [')'] := by
    intro h
    rcases List.mem_append.mp h with h | h
    · rcases Text.mem_intercalate h with h | ⟨a, hmem, hc⟩
      · exact absurd h (by decide)
      · exact (ha a hmem).notMem (by decide) hc
    · exact absurd h (by decide)
  have hsplit :
      (callText [','] head args).splitOn '(' = [head, [','].intercalate args ++ [')']] := by
    rw [callText, List.splitOn_append_cons_self_of_not_mem (hh.notMem (by decide)),
      List.splitOn_eq_singleton hargs]
  have hnames : (args.map id).mapM name? = some (args.map String.ofList) :=
    mapM_map_eq_some fun a h => name?_eq_some (ha a h)
  rw [List.map_id] at hnames
  unfold call?
  rw [hsplit]
  simp only [List.getLast?_append, List.getLast?_singleton, Option.some_or, if_true,
    List.dropLast_concat, List.splitOn_intercalate ',' (fun a h => (ha a h).notMem (by decide)) hne,
    hnames, name?_eq_some hh]
  rfl

/-! ## Statements -/

theorem isNameChar_of_isWhitespace {c : Char} (h : c.isWhitespace = true) :
    isNameChar c = false := by
  simp only [Char.isWhitespace, Bool.or_eq_true, decide_eq_true_eq] at h
  rcases h with ((h | h) | h) | h <;> subst h <;> decide

/-- A name has no blanks. -/
theorem IsName.compact {text : List Char} (h : IsName text) : compact text = text := by
  refine List.filter_eq_self.mpr fun c hc => ?_
  rw [Bool.not_eq_true', ← Bool.not_eq_true]
  intro hblank
  have hname := h.all c hc
  rw [isNameChar_of_isWhitespace hblank] at hname
  cases hname

theorem compact_append (a b : List Char) : compact (a ++ b) = compact a ++ compact b :=
  List.filter_append ..

theorem compact_intercalate {args : List (List Char)} (ha : ∀ a ∈ args, IsName a) :
    compact ([',', ' '].intercalate args) = [','].intercalate args := by
  induction args with
  | nil => rfl
  | cons a args ih =>
    cases args with
    | nil => simpa using (ha a List.mem_cons_self).compact
    | cons b args =>
      rw [List.intercalate_cons_cons, List.intercalate_cons_cons, compact_append, compact_append,
        (ha a List.mem_cons_self).compact, ih fun a h => ha a (List.mem_cons_of_mem _ h)]
      rfl

theorem compact_callText {head : List Char} {args : List (List Char)} (hh : IsName head)
    (ha : ∀ a ∈ args, IsName a) :
    compact (callText [',', ' '] head args) = callText [','] head args := by
  have hrest : compact ('(' :: ([',', ' '].intercalate args ++ [')'])) =
      '(' :: (compact ([',', ' '].intercalate args) ++ [')']) := by
    show '(' :: compact ([',', ' '].intercalate args ++ [')']) = _
    rw [compact_append]
    rfl
  unfold callText
  rw [compact_append, hh.compact, hrest, compact_intercalate ha]

theorem notMem_callText {head : List Char} {args : List (List Char)} (hh : IsName head)
    (ha : ∀ a ∈ args, IsName a) : '=' ∉ callText [','] head args := by
  intro h
  rcases mem_callText h hh ha with h | h | h | h
  all_goals exact absurd h (by decide)

theorem source?_callText {head : List Char} {args : List (List Char)} {function : Function}
    (hh : IsName head) (hf : function? (String.ofList head) = some function)
    (ha : ∀ a ∈ args, IsName a) (hne : args ≠ []) :
    source? (callText [','] head args) = some (.call function (args.map String.ofList)) := by
  have hbracket : '(' ∈ callText [','] head args := List.mem_append_right _ List.mem_cons_self
  have hgnd : callText [','] head args ≠ ['g', 'n', 'd'] := by
    intro h
    rw [h] at hbracket
    exact absurd hbracket (by decide)
  have hvdd : callText [','] head args ≠ ['v', 'd', 'd'] := by
    intro h
    rw [h] at hbracket
    exact absurd hbracket (by decide)
  unfold source?
  rw [if_neg hgnd, if_neg hvdd, call?_callText hh ha hne]
  simp only [Option.bind_eq_bind, Option.bind_some, hf]
  rfl

theorem statement?_callText {head name : List Char} (hh : IsName head) (hn : IsName name) :
    statement? (callText [','] head [name]) =
      declaration? (String.ofList head) [String.ofList name] := by
  have hname : ∀ a ∈ [name], IsName a := fun a ha => List.mem_singleton.mp ha ▸ hn
  unfold statement?
  rw [List.splitOn_eq_singleton (notMem_callText hh hname)]
  simp only [call?_callText hh hname (List.cons_ne_nil _ _), Option.bind_eq_bind, Option.bind_some]
  rfl

theorem statement?_define {target text : List Char} {source : Source} (ht : IsName target)
    (hs : source? text = some source) (he : '=' ∉ text) :
    statement? (target ++ '=' :: text) = some (.define (String.ofList target) source) := by
  unfold statement?
  rw [List.splitOn_append_cons_self_of_not_mem (ht.notMem (by decide)),
    List.splitOn_eq_singleton he]
  simp only [name?_eq_some ht, hs]
  rfl

/-! ## Lines that say something -/

/-- A line that begins with a name is neither blank nor a comment. -/
theorem line?_eq {line name rest : List Char} (h : compact line = name ++ rest) (hn : IsName name) :
    line? line = (statement? (name ++ rest)).map fun statement => [statement] := by
  obtain ⟨c, name, rfl⟩ := List.exists_cons_of_ne_nil hn.ne_nil
  have hc : c ≠ '#' := by
    rintro rfl
    exact hn.notMem (by decide) List.mem_cons_self
  unfold line?
  rw [h]
  split
  · cases ‹_›
  · cases ‹_›
    exact absurd rfl hc
  · rfl

theorem line?_declaration {head name : List Char} {statement : Statement} (hh : IsName head)
    (hn : IsName name)
    (hd : declaration? (String.ofList head) [String.ofList name] = some statement) :
    line? (callText [',', ' '] head [name]) = some [statement] := by
  have hname : ∀ a ∈ [name], IsName a := fun a ha => List.mem_singleton.mp ha ▸ hn
  rw [line?_eq (compact_callText hh hname) hh]
  show (statement? (callText [','] head [name])).map _ = _
  rw [statement?_callText hh hn, hd]
  rfl

theorem line?_definition {target text : List Char} {source : Source} (ht : IsName target)
    (hs : source? (compact text) = some source) (he : '=' ∉ compact text) :
    line? (target ++ [' ', '=', ' '] ++ text) = some [.define (String.ofList target) source] := by
  have hcompact : compact (target ++ [' ', '=', ' '] ++ text) = target ++ '=' :: compact text := by
    rw [compact_append, compact_append, ht.compact, List.append_assoc]
    rfl
  rw [line?_eq hcompact ht, statement?_define ht hs he]
  rfl

/-! ## Texts -/

/-- What some lines say. -/
structure Reads (lines : List String) (statements : List Statement) : Prop where
  newline : ∀ l ∈ lines, '\n' ∉ l.toList
  parts : ∃ parts, (lines.map String.toList).mapM line? = some parts ∧ parts.flatten = statements

theorem Reads.append {l₁ l₂ : List String} {s₁ s₂ : List Statement} (h₁ : Reads l₁ s₁)
    (h₂ : Reads l₂ s₂) : Reads (l₁ ++ l₂) (s₁ ++ s₂) := by
  obtain ⟨p₁, hp₁, rfl⟩ := h₁.parts
  obtain ⟨p₂, hp₂, rfl⟩ := h₂.parts
  refine ⟨fun l hl => ?_, p₁ ++ p₂, ?_, List.flatten_append⟩
  · rcases List.mem_append.mp hl with hl | hl
    · exact h₁.newline l hl
    · exact h₂.newline l hl
  · rw [List.map_append, List.mapM_append, hp₁, hp₂]
    rfl

theorem Reads.map {α : Type} {write : α → String} {f : α → Statement} {l : List α}
    (h : ∀ a ∈ l, '\n' ∉ (write a).toList ∧ line? (write a).toList = some [f a]) :
    Reads (l.map write) (l.map f) := by
  refine ⟨fun line hline => ?_, l.map fun a => [f a], ?_, ?_⟩
  · obtain ⟨a, ha, rfl⟩ := List.mem_map.mp hline
    exact (h a ha).1
  · rw [List.map_map]
    exact mapM_map_eq_some fun a ha => (h a ha).2
  · rw [← List.flatMap_def, List.map_eq_flatMap]

/-- A text is read if each of its lines is. -/
theorem Reads.read? {lines : List String} {statements : List Statement}
    (h : Reads lines statements) : read? (Text.unlines lines) = some (ofStatements statements) := by
  obtain ⟨parts, hparts, rfl⟩ := h.parts
  unfold Bench.read?
  rw [Text.splitOn_unlines h.newline, List.mapM_append, hparts]
  show some (ofStatements (parts ++ [[]]).flatten) = _
  rw [List.flatten_append]
  simp

end Bench

end LogicCircuit
