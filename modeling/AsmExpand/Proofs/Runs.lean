import AsmExpand.Proofs.Disks
import Mathlib.Algebra.GroupWithZero.Nat

/-!
# Runs in a world

On a system that is a value a run is a function of the world, and each of its parts has an
equation: an input is read from the disk, and then its listing is written
(`carryOut_runInput`). What reading the inputs in turn comes to is `Disk.Reads`, and the run
follows it: the inputs before the first that cannot be read are listed, and nothing is done
about the others (`carryOut_inputs`).

The program shows the diagnostics of a run behind it, and only if no input has ended it. So it
shows all that the listings have counted, or, if an input cannot be read, none of it
(`program_shows_counted`). The exit status tells which.
-/

namespace AsmExpand

/-- The text of a file. -/
def Disk.text (d : Disk) (path : String) : Except FileFault String :=
  match d.read path with
  | .error fault => .error fault
  | .ok bytes =>
    match Utf8.strict? bytes with
    | some text => .ok text
    | none => .error .notUtf8

/-- `d.Reads paths inputs stop`: reading the paths in turn gives the inputs, each with its text,
and ends early with a fault if there is one. -/
inductive Disk.Reads (d : Disk) :
    List String → List (String × String) → Option RunError → Prop where
  | done : Reads d [] [] none
  | fault {path : String} {paths : List String} {f : FileFault} :
      d.text path = .error f → Reads d (path :: paths) [] (some (.read path f))
  | next {path source : String} {paths : List String} {inputs : List (String × String)}
      {stop : Option RunError} :
      d.text path = .ok source → Reads d paths inputs stop →
      Reads d (path :: paths) ((path, source) :: inputs) stop

/-- The report on an input and its text. -/
def Config.reportOn (c : Config) (input : String × String) : Report :=
  (c.expand input.2).report input.1 input.2

/-- The listing of an input and its text. -/
def Config.listingOf (c : Config) (input : String × String) : String :=
  (c.expand input.2).listing input.1

/-- A configuration has the files of its options, and one input if there is a listing file. -/
theorem Options.files_of_validate {o : Options} {c : Config} (h : o.validate = .ok c) :
    c.infiles = o.infiles ∧ c.outfile = o.outfile ∧
      (c.outfile ≠ none → ∃ path, c.infiles = [path]) := by
  unfold validate at h
  split at h
  · cases h
  rename_i hsome
  split at h
  · cases h
  rename_i hshared
  split at h
  · cases h
  split at h
  · cases h
  split at h
  · cases h
  obtain rfl := Except.ok.inj h
  refine ⟨rfl, rfl, fun hout => ?_⟩
  match hfiles : o.infiles with
  | [] => simp [hfiles] at hsome
  | [path] => exact ⟨path, rfl⟩
  | _ :: _ :: _ => exact absurd ⟨Option.isSome_iff_ne_none.mpr hout, by simp [hfiles]⟩ hshared

/-! ## Carrying out -/

namespace World

variable {α β : Type}

/-- What comes of an action, and the world after it. -/
def perform (w : World) (action : StateM World α) : α × World := (action.run w).run

theorem perform_bind (w : World) (action : StateM World α) (next : α → StateM World β) :
    w.perform (action >>= next)
      = (w.perform action).2.perform (next (w.perform action).1) := rfl

/-- The same for an action that may end the run. -/
def carryOut (w : World) (action : ExceptT RunError (StateM World) α) : Except RunError α × World :=
  w.perform action.run

theorem carryOut_pure (w : World) (a : α) : w.carryOut (pure a) = (.ok a, w) := rfl

theorem carryOut_bind (w : World) (action : ExceptT RunError (StateM World) α)
    (next : α → ExceptT RunError (StateM World) β) :
    w.carryOut (action >>= next) =
      match w.carryOut action with
      | (.ok a, w') => w'.carryOut (next a)
      | (.error e, w') => (.error e, w') := by
  unfold carryOut
  rw [ExceptT.run_bind, perform_bind]
  generalize w.perform action.run = r
  obtain ⟨a | e, w'⟩ := r
  · rfl
  · rfl

/-- The world with something more printed. -/
def printed (w : World) (text : String) : World := { w with out := w.out ++ text }

/-! ## The parts of a run -/

variable (w : World) (c : Config)

theorem carryOut_onFile {α : Type} (failure : FileFault → RunError)
    (action : StateM World (Except FileFault α)) :
    w.carryOut (onFile failure action)
      = ((w.perform action).1.mapError failure, (w.perform action).2) := by
  have hlift : w.carryOut (action : ExceptT RunError (StateM World) (Except FileFault α))
      = (.ok (w.perform action).1, (w.perform action).2) := rfl
  rw [onFile, carryOut_bind, hlift]
  cases (w.perform action).1 with
  | ok a => rfl
  | error fault => rfl

theorem carryOut_readText (path : String) :
    w.carryOut (readText path) = ((w.disk.text path).mapError (.read path), w) := by
  have hread : w.perform (Host.read path) = (w.disk.read path, w) := rfl
  rw [readText, carryOut_bind, carryOut_onFile, hread, Disk.text]
  cases w.disk.read path with
  | error fault => rfl
  | ok bytes =>
    dsimp only [Except.mapError]
    cases Utf8.strict? bytes with
    | none => rfl
    | some text => rfl

/-- Without a listing file the listing is printed. -/
theorem carryOut_write (hout : c.outfile = none) (listing : String) :
    w.carryOut (c.write listing) = (.ok (), w.printed listing) := by
  rw [Config.write, hout]
  rfl

/-- An input is read, and then its listing is written. -/
theorem carryOut_runInput (path : String) :
    w.carryOut (c.runInput path) =
      match w.disk.text path with
      | .error fault => (.error (.read path fault), w)
      | .ok source =>
        match w.carryOut (c.write (c.listingOf (path, source))) with
        | (.ok _, w') => (.ok (c.reportOn (path, source)), w')
        | (.error e, w') => (.error e, w') := by
  rw [Config.runInput, carryOut_bind, carryOut_readText]
  cases w.disk.text path with
  | error fault => rfl
  | ok source =>
    dsimp only [Except.mapError]
    rw [carryOut_bind, Config.listingOf]
    generalize w.carryOut (c.write _) = r
    obtain ⟨a | e, w'⟩ := r
    · rfl
    · rfl

/-! ## Runs that print -/

/-- Without a listing file, the inputs that are read are listed, up to the first that cannot
be read. -/
theorem carryOut_inputs (hout : c.outfile = none) {paths : List String}
    {inputs : List (String × String)} {stop : Option RunError}
    (h : w.disk.Reads paths inputs stop) :
    w.carryOut (paths.mapM c.runInput) =
      (stop.elim (.ok (inputs.map c.reportOn)) .error,
        w.printed (String.join (inputs.map c.listingOf))) := by
  generalize hd : w.disk = d at h
  induction h generalizing w with
  | done =>
    rw [List.mapM_nil, carryOut_pure, printed]
    simp
  | fault hread =>
    rw [List.mapM_cons, carryOut_bind, carryOut_runInput, hd, hread, printed]
    simp
  | @next path source paths inputs stop hread h ih =>
    rw [List.mapM_cons, carryOut_bind, carryOut_runInput, hd, hread]
    dsimp only
    rw [carryOut_write w c hout]
    dsimp only
    rw [carryOut_bind, ih (w.printed (c.listingOf (path, source))) hd]
    have hprint : (w.printed (c.listingOf (path, source))).printed
        (String.join (inputs.map c.listingOf))
          = w.printed (String.join (((path, source) :: inputs).map c.listingOf)) := by
      simp [printed, String.append_assoc]
    rw [hprint]
    cases stop with
    | none => rfl
    | some e => rfl

/-- Without a listing file a run is the run of its inputs. -/
theorem carryOut_run (hout : c.outfile = none) :
    w.carryOut c.run = w.carryOut (c.infiles.mapM c.runInput) := by
  rw [Config.run, hout]

end World

/-- Reading comes to an end in one way or the other. -/
theorem Disk.exists_reads (d : Disk) (paths : List String) :
    ∃ inputs stop, d.Reads paths inputs stop := by
  induction paths with
  | nil => exact ⟨[], none, .done⟩
  | cons path paths ih =>
    cases hread : d.text path with
    | error f => exact ⟨[], _, .fault hread⟩
    | ok source =>
      obtain ⟨inputs, stop, h⟩ := ih
      exact ⟨_, stop, .next hread h⟩

/-! ## The program -/

/-- Texts are shown in turn, each on lines of its own. -/
theorem World.perform_showAll (texts : List String) (w : World) :
    w.perform (texts.forM fun text => Host.printError (text ++ "\n"))
      = ((), { w with err := w.err ++ String.join (texts.map (· ++ "\n")) }) := by
  induction texts generalizing w with
  | nil => simp [perform]
  | cons text texts ih =>
    have hfirst : w.perform (Host.printError (text ++ "\n"))
        = ((), { w with err := w.err ++ (text ++ "\n") }) := rfl
    change w.perform (Host.printError (text ++ "\n") >>= fun _ => texts.forM _) = _
    rw [perform_bind, hfirst, ih]
    simp [String.append_assoc]

/-- What the program makes of a run. -/
theorem World.perform_program (w : World) (colour : Bool) {arguments : List String} {o : Options}
    (h : Options.parse arguments = .ok o) :
    w.perform (program colour arguments) =
      match w.carryOut o.run with
      | (.error e, w') => (1, { w' with err := w'.err ++ (e.message ++ "\n") })
      | (.ok reports, w') =>
        let shown := reports.flatMap (Report.contexts colour)
        (if shown.isEmpty then 0 else 1,
          { w' with err := w'.err ++ String.join (shown.map (· ++ "\n")) }) := by
  rw [program, h]
  dsimp only
  rw [perform_bind, carryOut]
  generalize w.perform o.run.run = r
  obtain ⟨e | reports, w'⟩ := r
  · rfl
  · dsimp only
    rw [perform_bind, perform_showAll]
    rfl

/-- What the program does about inputs, of which some are read: it prints their listings, and
then shows their diagnostics, or the fault of the input that could not be read. -/
theorem World.perform_program_of_reads (w : World) (colour : Bool) {arguments : List String}
    {o : Options} {c : Config} (hparse : Options.parse arguments = .ok o)
    (hvalid : o.validate = .ok c) (hout : c.outfile = none) {inputs : List (String × String)}
    {stop : Option RunError} (hreads : w.disk.Reads c.infiles inputs stop) :
    let blocks := inputs.flatMap fun x => (c.reportOn x).contexts colour
    w.perform (program colour arguments) =
      (if blocks.length = 0 ∧ stop = none then 0 else 1,
        { w with
          out := w.out ++ String.join (inputs.map c.listingOf)
          err := w.err
            ++ stop.elim (String.join (blocks.map (· ++ "\n"))) (·.message ++ "\n") }) := by
  intro blocks
  rw [w.perform_program colour hparse, Options.run, hvalid]
  dsimp only
  rw [w.carryOut_run c hout, w.carryOut_inputs c hout hreads]
  cases stop with
  | some e => simp [printed]
  | none =>
    have hshown : (inputs.map c.reportOn).flatMap (Report.contexts colour) = blocks :=
      List.flatMap_map ..
    dsimp only [Option.elim]
    rw [hshown]
    simp only [List.isEmpty_iff_length_eq_zero, and_true]
    rfl

/-- **What is counted is shown if every input can be read**, and only then. Without a listing
file the program prints the listings of the inputs that it reads, with their counts. As many
diagnostics as these counts come to are shown if no input fails; but if one does, its fault is
shown in their place. The exit status is zero if there is neither. -/
theorem program_shows_counted (w : World) (colour : Bool) {arguments : List String} {o : Options}
    (hparse : Options.parse arguments = .ok o) (hout : o.outfile = none) :
    let r := w.perform (program colour arguments)
    match o.validate with
    | .error e => r = (1, { w with err := w.err ++ ((RunError.config e).message ++ "\n") })
    | .ok c =>
      ∃ inputs stop, w.disk.Reads c.infiles inputs stop ∧
        let counted := (inputs.map fun x => (c.expand x.2).diagnostics.size).sum
        let blocks := inputs.flatMap fun x => (c.reportOn x).contexts colour
        r.2.disk = w.disk ∧
        r.2.out = w.out ++ String.join (inputs.map fun x =>
          let e := c.expand x.2
          Listing.print x.1 e.lines e.lines.length e.diagnostics.size) ∧
        blocks.length = counted ∧
        r.2.err = w.err ++ stop.elim (String.join (blocks.map (· ++ "\n"))) (·.message ++ "\n") ∧
        r.1 = if counted = 0 ∧ stop = none then 0 else 1 := by
  intro r
  cases hvalid : o.validate with
  | error e =>
    have hr : r = _ := w.perform_program colour hparse
    rw [hr, Options.run, hvalid]
    rfl
  | ok c =>
    obtain ⟨inputs, stop, hreads⟩ := w.disk.exists_reads c.infiles
    have hout' : c.outfile = none := (Options.files_of_validate hvalid).2.1.trans hout
    have hr : r = _ := w.perform_program_of_reads colour hparse hvalid hout' hreads
    have hcount : (inputs.flatMap fun x => (c.reportOn x).contexts colour).length
        = (inputs.map fun x => (c.expand x.2).diagnostics.size).sum := by
      simp [List.length_flatMap, Report.contexts, Config.reportOn, Expansion.report]
    refine ⟨inputs, stop, hreads, ?_⟩
    dsimp only
    rw [hr, hcount]
    exact ⟨rfl, rfl, rfl, rfl, rfl⟩

/-- One input with a diagnostic. -/
theorem program_shows_counted_one :
    let w : World := { disk := { nodes := [(["a"], .file (Utf8.bytes ".concat(1)\n"))] } }
    let r := w.perform (program false ["-i", "a"])
    let c : Config := ⟨["a"], none, {}, false⟩
    Options.parse ["-i", "a"] = .ok { infiles := ["a"] } ∧
      ∃ inputs stop, w.disk.Reads ["a"] inputs stop ∧
        r.1 = if (inputs.map fun x => (c.expand x.2).diagnostics.size).sum = 0 ∧ stop = none
          then 0 else 1 := by
  intro w r c
  have hparse : Options.parse ["-i", "a"] = .ok { infiles := ["a"] } := rfl
  obtain ⟨inputs, stop, hreads, _, _, _, _, hstatus⟩ := program_shows_counted w false hparse rfl
  exact ⟨hparse, inputs, stop, hreads, hstatus⟩

/-- The diagnostic of the first input is counted, but the second input cannot be read, and only
that is shown. -/
theorem program_hides_counted :
    let w : World := { disk := { nodes := [(["a"], .file (Utf8.bytes ".concat(1)\n"))] } }
    let r := w.perform (program false ["-i", "a", "-i", "b"])
    r.2.out = "a\nLINE  M  SOURCE\n----  -  ------\n\nLines: 0  Errors: 1\n" ∧
      r.2.err = "Cannot read b: No such file or directory (os error 2)\n" := by
  intro w r
  have hparse : Options.parse ["-i", "a", "-i", "b"] = .ok { infiles := ["a", "b"] } := rfl
  have hvalid : ({ infiles := ["a", "b"] } : Options).validate
      = .ok ⟨["a", "b"], none, {}, false⟩ := rfl
  have hreads : w.disk.Reads ["a", "b"] [("a", ".concat(1)\n")] (some (.read "b" .notFound)) :=
    .next rfl (.fault rfl)
  have hr : r = _ := w.perform_program_of_reads false hparse hvalid rfl hreads
  rw [hr]
  exact ⟨by decide +kernel, by decide +kernel⟩

end AsmExpand
