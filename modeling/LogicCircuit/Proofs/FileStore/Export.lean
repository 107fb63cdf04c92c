import LogicCircuit.CommandLine.Run
import LogicCircuit.Proofs.Circuit.Sorting
import LogicCircuit.Proofs.FileStore.Put
import LogicCircuit.Proofs.Lowering.Height
import LogicCircuit.Proofs.Netlist.Writing

/-!
# Exports that are refused

A file that is written is created first, and thereby emptied, and its text is made after that. A
record can always be made, and an unknown extension is refused before anything is created. But a
circuit that is incomplete or has a loop has no netlist, and by the time that this is found out, the
file that stood at the destination has lost its contents. Tables are made before their file is.

Results:
* `outcome_writeText`: what comes of writing a text, and of the files.
* `refusal_iff`, `Refusal.refusedExport`: when an export is refused, and what it has done to the
  files by then.
* `outcome_sourceCircuit`: reading changes no files.
* `save_formula_keeps`, `table_keeps`: no files are lost when a formula cannot be saved, and none
  when there is no table.
* `refused_exports`: the same in one statement, for all files.
-/

namespace LogicCircuit

open FileStore

variable {s s' : FileStore} {path : String} {c : Circuit} {e : CircuitError} {α β : Type}

/-! ## Programs over files -/

/-- What comes of a program over files, and the files behind it. -/
def outcome (program : ExceptT Error Program α) (s : FileStore) : Except Error α × FileStore :=
  program.run s

theorem bind_apply (program : Program α) (f : α → Program β) (s : FileStore) :
    (program >>= f) s = f (program s).1 (program s).2 := rfl

theorem outcome_bind (program : ExceptT Error Program α) (f : α → ExceptT Error Program β)
    (s : FileStore) : outcome (program >>= f) s =
      match outcome program s with
      | (.ok a, s') => outcome (f a) s'
      | (.error e, s') => (.error e, s') := by
  have hbind : outcome (program >>= f) s =
      ExceptT.bindCont f (outcome program s).1 (outcome program s).2 := rfl
  rw [hbind]
  obtain ⟨r, s'⟩ := outcome program s
  cases r <;> rfl

theorem outcome_liftError {ε : Type} (f : ε → Error) (r : Except ε α) (s : FileStore) :
    outcome (liftError f r) s = (r.mapError f, s) := rfl

theorem outcome_read (path : String) (s : FileStore) :
    outcome (liftM (FileSystem.read path : Program _)) s = (.ok (s.read path), s) := rfl

theorem outcome_write (path : String) (bytes : List UInt8) (s : FileStore) :
    outcome (fileEffect (FileSystem.write path bytes)) s =
      match s.target path with
      | .ok place => (.ok (), s.put place bytes)
      | .error e => (.error (.file e), s) := by
  have hstore : outcome (fileEffect (FileSystem.write path bytes)) s =
      ((store path bytes s).1.mapError .file, (store path bytes s).2) := rfl
  rw [hstore, store]
  cases s.target path <;> rfl

theorem outcome_create (path : String) (s : FileStore) :
    outcome (fileEffect (FileSystem.create path)) s =
      match s.target path with
      | .ok place => (.ok (), s.put place [])
      | .error e => (.error (.file e), s) := outcome_write path [] s

/-! ## Writing -/

/-- The file at the destination is emptied, whatever becomes of the text. -/
theorem outcome_writeText (path : String) (text : Except CircuitError String) (s : FileStore) :
    outcome (writeText path text) s =
      match s.target path, text with
      | .error e, _ => (.error (.file e), s)
      | .ok place, .error e => (.error (.circuit e), s.put place [])
      | .ok place, .ok text => (.ok (), s.put place (Text.encode text)) := by
  rw [writeText, outcome_bind, outcome_create]
  cases htarget : s.target path with
  | error e => rfl
  | ok place =>
    simp only
    rw [outcome_bind, outcome_liftError]
    cases text with
    | error e => rfl
    | ok text =>
      simp only [Except.mapError]
      rw [outcome_write, target_put htarget]
      simp only [put_put]

/-- The ways in which an export is refused, and the files behind it. -/
inductive Refusal (s : FileStore) (path : String) (c : Circuit) : CircuitError → FileStore → Prop
  /-- The extension stands for no format. -/
  | unsupported (hjson : (Path.ofText path).extension? ≠ some "json")
      (hbench : (Path.ofText path).extension? ≠ some "bench") :
      Refusal s path c (.unsupportedExtension ((Path.ofText path).extension?.getD "")) s
  /-- The circuit has no netlist, and the file that was to hold it has been created. -/
  | noNetlist {e : CircuitError} {place : Place}
      (hbench : (Path.ofText path).extension? = some "bench") (hn : c.netlist = .error e)
      (ht : s.target path = .ok place) : Refusal s path c e (s.put place [])

theorem refusal_iff : outcome (writeCircuit path c) s = (.error (.circuit e), s') ↔
    Refusal s path c e s' := by
  constructor
  · intro h
    unfold writeCircuit at h
    split at h
    · rw [outcome_writeText] at h
      cases ht : s.target path <;> rw [ht] at h <;> cases h
    · rename_i hbench
      rw [outcome_writeText] at h
      cases ht : s.target path with
      | error e' =>
        rw [ht] at h
        cases h
      | ok place =>
        rw [ht] at h
        cases hn : c.netlist with
        | error e' =>
          rw [hn] at h
          cases h
          exact .noNetlist hbench hn ht
        | ok netlist =>
          rw [hn] at h
          cases h
    · rename_i hjson hbench
      cases h
      exact .unsupported hjson hbench
  · intro h
    cases h with
    | unsupported hjson hbench =>
      unfold writeCircuit
      split
      · exact absurd ‹_› hjson
      · exact absurd ‹_› hbench
      · rfl
    | noNetlist hbench hn ht =>
      rw [writeCircuit, hbench]
      simp only
      rw [outcome_writeText, ht, hn]
      rfl

/-- What an export that is refused has done to the files. -/
structure RefusedExport (s : FileStore) (path : String) (c : Circuit) (e : CircuitError)
    (s' : FileStore) : Prop where
  /-- If the extension is not that of netlists, nothing has changed. -/
  unsupported : (Path.ofText path).extension? ≠ some "bench" →
    e = .unsupportedExtension ((Path.ofText path).extension?.getD "") ∧ s' = s
  /-- If the circuit has no netlist, the file at the destination is empty, and all other files are
  as they were. -/
  emptied : (Path.ofText path).extension? = some "bench" →
    c.netlist = .error e ∧ ∃ place, s.target path = .ok place ∧ s'.content? place = some [] ∧
      ∀ q, q ≠ place → s'.content? q = s.content? q
  /-- So the contents of a file that stood at the destination of a netlist are lost. -/
  kept_iff : (∀ q, s'.content? q = s.content? q) ↔
    ((Path.ofText path).extension? = some "bench" →
      ∃ place, s.target path = .ok place ∧ s.content? place = some [])

theorem Refusal.refusedExport (h : Refusal s path c e s') : RefusedExport s path c e s' := by
  cases h with
  | unsupported hjson hbench =>
    exact ⟨fun _ => ⟨rfl, rfl⟩, fun h => absurd h hbench,
      fun _ h => absurd h hbench, fun _ _ => rfl⟩
  | @noNetlist _ place hbench hn ht =>
    refine ⟨fun h => absurd hbench h, fun _ => ⟨hn, place, ht, ?_, fun q hq => ?_⟩, ?_, ?_⟩
    · rw [content?_put, if_pos rfl]
    · rw [content?_put, if_neg hq]
    · intro hkept _
      refine ⟨place, ht, ?_⟩
      rw [← hkept place, content?_put, if_pos rfl]
    · intro hempty q
      obtain ⟨place', ht', hplace⟩ := hempty hbench
      obtain rfl : place = place' := Except.ok.inj (ht.symm.trans ht')
      rw [content?_put]
      split_ifs with hq
      · rw [hq, hplace]
      · rfl

/-- Nothing that is refused changes files if the circuit has a netlist. -/
theorem writeCircuit_keeps {e : Error} (hn : ∃ n, c.netlist = .ok n)
    (h : outcome (writeCircuit path c) s = (.error e, s')) : s' = s := by
  obtain ⟨n, hn⟩ := hn
  unfold writeCircuit at h
  split at h
  · rw [outcome_writeText] at h
    cases ht : s.target path <;> rw [ht] at h <;> cases h
    rfl
  · rw [hn, outcome_writeText] at h
    cases ht : s.target path <;> rw [ht] at h <;> cases h
    rfl
  · cases h
    rfl

/-- The circuit of a formula has a netlist. -/
theorem netlist_ofFormula {f : Formula} (h : f.size ≤ Circuit.idBound) :
    ∃ n, (Circuit.ofFormula f).netlist = .ok n := by
  have hframes := Circuit.frames_ofFormula h
  have hopen : (Circuit.ofFormula f).openSlot? = none := by
    rw [Circuit.openSlot?_eq_none]
    intro g hg hnone
    have hcomplete := List.all_eq_true.mp (Circuit.isComplete_of_frames hframes hg)
    exact absurd (hcomplete none hnone) (by decide)
  have hcheck := (Circuit.checkAcyclic_eq_ok (Circuit.wellFormed_ofFormula h)).mpr
    (Circuit.acyclic_of_frames hframes)
  exact ⟨_, by rw [Circuit.netlist, hopen, hcheck]⟩

/-! ## Commands -/

/-- Reading changes no files. -/
theorem outcome_sourceCircuit (limits : Limits) (source : Source) (s : FileStore) :
    ∃ r, outcome (source.circuit limits) s = (r, s) := by
  cases source with
  | formula text => exact ⟨_, rfl⟩
  | file path =>
    rw [Source.circuit, readCircuit]
    split
    · rw [outcome_bind, outcome_read]
      cases s.read path with
      | ok bytes => exact ⟨_, rfl⟩
      | error e => cases e <;> exact ⟨_, rfl⟩
    · exact ⟨_, rfl⟩

/-- What a command reports, and the files behind it. -/
def Command.report (command : Command) (s : FileStore) : Report × FileStore :=
  (command.run : Program Report) s

theorem Command.report_eq (command : Command) (s : FileStore) :
    command.report s =
      match outcome command.attempt s with
      | (.ok r, s') => (r, s')
      | (.error e, s') => (.failed [] e, s') := by
  rw [report, run, bind_apply, outcome]
  obtain ⟨r, s'⟩ := (command.attempt : ExceptT Error Program Report).run s
  cases r <;> rfl

theorem report_save (source : Source) (limits : Limits) (path : String) (s : FileStore) :
    (Command.save source limits path).report s =
      match outcome (source.circuit limits) s with
      | (.ok c, s₁) =>
        match outcome (writeCircuit path c) s₁ with
        | (.ok _, s') => ({}, s')
        | (.error e, s') => (.failed [] e, s')
      | (.error e, s₁) => (.failed [] e, s₁) := by
  rw [Command.report_eq, Command.attempt, outcome_bind]
  obtain ⟨found, s₁⟩ := outcome (source.circuit limits) s
  cases found with
  | error e => rfl
  | ok c =>
    simp only
    rw [outcome_bind]
    obtain ⟨r, s'⟩ := outcome (writeCircuit path c) s₁
    cases r <;> rfl

theorem eq_failed_of_save {source : Source} {limits : Limits} {r : Report} {e : Error}
    (h : (Command.save source limits path).report s = (r, s')) (he : r.error? = some e) :
    r = .failed [] e := by
  rw [report_save] at h
  split at h
  · split at h <;> cases h <;> cases he
    rfl
  · cases h
    cases he
    rfl

/-- A circuit is not saved if there is none, or if its export fails. -/
theorem save_failed_iff {source : Source} {limits : Limits} {e : Error} :
    (Command.save source limits path).report s = (.failed [] e, s') ↔
      outcome (source.circuit limits) s = (.error e, s) ∧ s' = s ∨
      ∃ c, outcome (source.circuit limits) s = (.ok c, s) ∧
        outcome (writeCircuit path c) s = (.error e, s') := by
  obtain ⟨found, hfound⟩ := outcome_sourceCircuit limits source s
  rw [report_save, hfound]
  constructor
  · intro h
    cases found with
    | error e' =>
      cases h
      exact .inl ⟨rfl, rfl⟩
    | ok c =>
      refine .inr ⟨c, rfl, ?_⟩
      simp only at h
      cases hw : outcome (writeCircuit path c) s with
      | mk w s₁ =>
        rw [hw] at h
        cases w <;> cases h
        rfl
  · rintro (⟨h, rfl⟩ | ⟨c, h, hw⟩)
    · cases h
      rfl
    · cases h
      simp only
      rw [hw]

/-- Saving a formula, of no more gates than there are identifiers, loses no files. -/
theorem save_formula_keeps {text : String} {limits : Limits} {r : Report}
    (hsize : ∀ f, Formula.parse text limits = .ok f → f.size ≤ Circuit.idBound)
    (h : (Command.save (.formula text) limits path).report s = (r, s')) (he : r.error? ≠ none) :
    s' = s := by
  obtain ⟨e, he⟩ := Option.ne_none_iff_exists'.mp he
  rw [eq_failed_of_save h he] at h
  rcases save_failed_iff.mp h with ⟨-, hs⟩ | ⟨c, hc, hw⟩
  · exact hs
  · have hcompiled : outcome (Source.circuit limits (.formula text)) s =
        (((Formula.parse text limits).map Circuit.ofFormula).mapError .formula, s) := rfl
    rw [hcompiled] at hc
    cases hparse : Formula.parse text limits with
    | error e' =>
      rw [hparse] at hc
      cases hc
    | ok f =>
      rw [hparse] at hc
      cases hc
      exact writeCircuit_keeps (netlist_ofFormula (hsize f hparse)) hw

/-- The table is made before its file is, and its text can always be made. -/
theorem outcome_tabulate (c : Circuit) (limits : Limits) (destination : Option String)
    (s : FileStore) : outcome (Command.tabulate c limits destination) s =
      match c.truthTable limits, destination with
      | .error e, _ => (.error (.ofTable e), s)
      | .ok t, none => (.ok { output := t.csv }, s)
      | .ok t, some path =>
        match s.target path with
        | .error e => (.error (.file e), s)
        | .ok place => (.ok {}, s.put place (Text.encode t.csv)) := by
  rw [Command.tabulate, outcome_bind, outcome_liftError]
  cases c.truthTable limits with
  | error e => rfl
  | ok t =>
    cases destination with
    | none => rfl
    | some path =>
      simp only [Except.mapError]
      rw [outcome_bind, writeTable, outcome_writeText]
      cases s.target path <;> rfl

/-- Nothing is lost when a table is not made or not written. -/
theorem table_keeps {source : Source} {limits : Limits} {destination : Option String} {r : Report}
    (h : (Command.table source limits destination).report s = (r, s')) (he : r.error? ≠ none) :
    s' = s := by
  obtain ⟨found, hfound⟩ := outcome_sourceCircuit limits source s
  rw [Command.report_eq, Command.attempt, outcome_bind, hfound] at h
  cases found with
  | error e =>
    cases h
    rfl
  | ok c =>
    simp only [outcome_tabulate] at h
    cases ht : c.truthTable limits with
    | error e =>
      rw [ht] at h
      cases h
      rfl
    | ok t =>
      rw [ht] at h
      cases destination with
      | none =>
        cases h
        exact absurd rfl he
      | some path =>
        simp only at h
        cases hp : s.target path <;> rw [hp] at h <;> cases h
        · rfl
        · exact absurd rfl he

/-! ## What is lost -/

/-- An export that is refused empties the destination of a netlist, and changes no other file. The
command that saves a circuit reads it first, and loses what the export loses, which is nothing if
the circuit is that of a formula; and no file is lost when there is no table. -/
theorem refused_exports (s : FileStore) :
    (∀ path c e s', outcome (writeCircuit path c) s = (.error (.circuit e), s') ↔
      Refusal s path c e s') ∧
    (∀ path c e s', Refusal s path c e s' → RefusedExport s path c e s') ∧
    (∀ source limits path r e s', (Command.save source limits path).report s = (r, s') →
      r.error? = some (.circuit e) →
        outcome (source.circuit limits) s = (.error (.circuit e), s) ∧ s' = s ∨
        ∃ c, outcome (source.circuit limits) s = (.ok c, s) ∧ Refusal s path c e s') ∧
    (∀ text limits path r s',
      (∀ f, Formula.parse text limits = .ok f → f.size ≤ Circuit.idBound) →
      (Command.save (.formula text) limits path).report s = (r, s') →
      r.error? ≠ none → s' = s) ∧
    ∀ source limits destination r s',
      (Command.table source limits destination).report s = (r, s') → r.error? ≠ none → s' = s := by
  refine ⟨fun _ _ _ _ => refusal_iff, fun _ _ _ _ h => h.refusedExport, ?_,
    fun _ _ _ _ _ hsize h he => save_formula_keeps hsize h he,
    fun _ _ _ _ _ h he => table_keeps h he⟩
  intro source limits path r e s' h he
  rw [eq_failed_of_save h he, save_failed_iff] at h
  exact h.imp_right fun ⟨c, hc, hw⟩ => ⟨c, hc, refusal_iff.mp hw⟩

/-- A negation of nothing. -/
def openNegation : Circuit := { gates := [.fresh 0 .not {}], nextId := 1 }

/-- A record of it. -/
def openRecord : String :=
  "\x7b\"gates\":[\x7b\"id\":0,\"kind\":\"NOT\",\"slots\":[null]\x7d],\"wires\":[]\x7d"

/-- A netlist of two bytes, and the record. -/
def netlistAndRecord : FileStore where
  files := [({ names := ["o.bench"] }, [104, 105]),
    ({ names := ["c.json"] }, Text.encode openRecord)]

/-- The netlist has lost its bytes. -/
def emptyAndRecord : FileStore := netlistAndRecord.put { names := ["o.bench"] } []

theorem load_openRecord :
    Circuit.load (Text.decode (Text.encode openRecord)) = .ok openNegation := by
  have hdecode : Text.decode (Text.encode openRecord) = Text.runes openRecord := by cbv
  rw [hdecode]
  exact eq_ok_of_toOption (by decide +kernel)

theorem outcome_openRecord : outcome (Source.circuit {} (.file "c.json")) netlistAndRecord =
    (.ok openNegation, netlistAndRecord) := by
  have haccept : Path.accept "c.json" = .ok ⟨false, ["c.json"], false⟩ := by cbv
  have hread : netlistAndRecord.read "c.json" = .ok (Text.encode openRecord) := by
    rw [FileStore.read, haccept]
    rfl
  have hextension : (Path.ofText "c.json").extension? = some "json" := by decide +kernel
  rw [Source.circuit, readCircuit, hextension]
  simp only
  rw [outcome_bind, outcome_read, hread]
  simp only
  rw [outcome_liftError, load_openRecord]
  rfl

theorem outcome_openNegation : outcome (writeCircuit "o.bench" openNegation) netlistAndRecord =
    (.error (.circuit (.openSlot 0 0)), emptyAndRecord) := by
  have haccept : Path.accept "o.bench" = .ok ⟨false, ["o.bench"], false⟩ := by cbv
  have htarget : netlistAndRecord.target "o.bench" = .ok { names := ["o.bench"] } := by
    rw [target, haccept]
    rfl
  have hextension : (Path.ofText "o.bench").extension? = some "bench" := by decide +kernel
  rw [writeCircuit, hextension]
  simp only
  rw [outcome_writeText, htarget]
  rfl

theorem refused_exports_openNegation :
    Refusal netlistAndRecord "o.bench" openNegation (.openSlot 0 0) emptyAndRecord ∧
    RefusedExport netlistAndRecord "o.bench" openNegation (.openSlot 0 0) emptyAndRecord ∧
    (∃ c, outcome (Source.circuit {} (.file "c.json")) netlistAndRecord =
        (.ok c, netlistAndRecord) ∧
      Refusal netlistAndRecord "o.bench" c (.openSlot 0 0) emptyAndRecord) ∧
    ((Command.save (.formula "A") {} "o.txt").report netlistAndRecord).2 = netlistAndRecord ∧
    ((Command.table (.formula "A") { tableLetters := 0 } (some "o.bench")).report
      netlistAndRecord).2 = netlistAndRecord := by
  obtain ⟨hexport, hlost, hsave, hformula, htable⟩ := refused_exports netlistAndRecord
  have hrefusal := (hexport _ _ _ _).mp outcome_openNegation
  have hfailed : (Command.save (.file "c.json") {} "o.bench").report netlistAndRecord =
      (.failed [] (.circuit (.openSlot 0 0)), emptyAndRecord) :=
    save_failed_iff.mpr (.inr ⟨_, outcome_openRecord, outcome_openNegation⟩)
  have hsize : ∀ f, Formula.parse "A" {} = .ok f → f.size ≤ Circuit.idBound := by
    intro f hf
    have hparse : Formula.parse "A" {} = .ok (.var 'A') := eq_ok_of_toOption (by decide +kernel)
    obtain rfl := Except.ok.inj (hf.symm.trans hparse)
    decide
  refine ⟨hrefusal, hlost _ _ _ _ hrefusal, ?_, hformula "A" {} "o.txt" _ _ hsize rfl ?_,
    htable (.formula "A") { tableLetters := 0 } (some "o.bench") _ _ rfl ?_⟩
  · refine (hsave _ _ _ _ _ _ hfailed rfl).resolve_left fun h => ?_
    rw [outcome_openRecord] at h
    cases h.1
  · decide +kernel
  · decide +kernel

/-- The netlist that is lost was there before. -/
theorem not_refused_export_keeps :
    ¬ ∀ s path c e s', outcome (writeCircuit path c) s = (.error (.circuit e), s') →
      ∀ q, s'.content? q = s.content? q := by
  intro h
  have hkept := h _ _ _ _ _ outcome_openNegation { names := ["o.bench"] }
  exact absurd hkept (by decide)

end LogicCircuit
