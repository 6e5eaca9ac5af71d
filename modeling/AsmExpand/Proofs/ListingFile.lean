import AsmExpand.Proofs.Runs

/-!
# The listing file

A run with a listing file makes it before its input is read. So the input must not be at the
same place: `Config.ListsOver` says that it is. Then it is empty when it is read, and the run
succeeds with the listing of nothing in its place.

Otherwise the input is read as if the file had not been made, which is what `Disk.IsSite` is
about, and all that changes on the disk is what is at the place of the listing file.
-/

namespace AsmExpand

/-- Whether the listing file is made at the place that a path leads to. -/
def Config.ListsOver (c : Config) (d : Disk) (path : String) : Prop :=
  ∃ out place, c.outfile = some out ∧ d.target out = .ok place ∧ d.resolve path = .ok place

namespace Disk

variable {d : Disk} {path : String}

theorem text_eq_ok_iff {text : String} :
    d.text path = .ok text ↔ ∃ bytes, d.read path = .ok bytes ∧ Utf8.strict? bytes = some text := by
  rw [Disk.text]
  cases d.read path with
  | error fault => simp
  | ok bytes =>
    cases hs : Utf8.strict? bytes with
    | none => simp [hs]
    | some t => simp [hs]

theorem text_of_read_nil (h : d.read path = .ok []) : d.text path = .ok "" :=
  text_eq_ok_iff.mpr ⟨[], h, rfl⟩

end Disk

namespace World

variable (w : World) (c : Config) {path out : String} {place : Place}

/-! ## Runs with a listing file -/

/-- The world with something else at a place. -/
def holding (w : World) (place : Place) (content : List Byte) : World :=
  { w with disk := w.disk.put place (.file content) }

theorem perform_act (change : Disk → Except FileFault Disk) :
    w.perform (World.act change) =
      match change w.disk with
      | .ok disk => (.ok (), { w with disk := disk })
      | .error fault => (.error fault, w) := rfl

theorem carryOut_create (out : String) :
    w.carryOut (onFile (.write out) (Host.create out)) =
      match w.disk.target out with
      | .error fault => (.error (.write out fault), w)
      | .ok place => (.ok (), w.holding place []) := by
  have hcreate : w.perform (Host.create out) = _ := w.perform_act (·.create out)
  rw [carryOut_onFile, hcreate, Disk.create]
  cases w.disk.target out with
  | error fault => rfl
  | ok place => rfl

/-- What is written to the listing file goes behind what was put there. -/
theorem carryOut_write_holding (hout : c.outfile = some out) (ht : w.disk.target out = .ok place)
    (content : List Byte) (listing : String) :
    (w.holding place content).carryOut (c.write listing)
      = (.ok (), w.holding place (content ++ Utf8.bytes listing)) := by
  have happend : (w.holding place content).perform (Host.append out listing) = _ :=
    (w.holding place content).perform_act (·.append out listing)
  have hdisk : (w.holding place content).disk.append out listing = _ :=
    Disk.append_put ht content listing
  rw [Config.write, hout]
  dsimp only
  rw [carryOut_onFile, happend, hdisk]
  rfl

/-- With a listing file its one input is read once the file is made, and then listed there. -/
theorem carryOut_run_listing (hout : c.outfile = some out) (hin : c.infiles = [path]) :
    w.carryOut c.run =
      match w.disk.target out with
      | .error fault => (.error (.write out fault), w)
      | .ok place =>
        match (w.holding place []).disk.text path with
        | .error fault => (.error (.read path fault), w.holding place [])
        | .ok source =>
          (.ok [c.reportOn (path, source)],
            w.holding place (Utf8.bytes (c.listingOf (path, source)))) := by
  rw [Config.run, hout, hin]
  dsimp only
  rw [carryOut_bind, carryOut_create]
  cases ht : w.disk.target out with
  | error fault => rfl
  | ok place =>
    dsimp only
    rw [List.mapM_cons, carryOut_bind, carryOut_runInput]
    cases (w.holding place []).disk.text path with
    | error fault => rfl
    | ok source =>
      dsimp only
      rw [carryOut_write_holding w c hout ht]
      rfl

/-- **An input at the place of the listing file is empty when it is read.** -/
theorem carryOut_run_over (hout : c.outfile = some out) (hin : c.infiles = [path])
    (ht : w.disk.target out = .ok place) (hr : w.disk.resolve path = .ok place) :
    w.carryOut c.run
      = (.ok [c.reportOn (path, "")],
          w.holding place (Utf8.bytes (c.listingOf (path, "")))) := by
  have hread := (Disk.isSite_of_target ht).read_put_self [] hr
  have htext : (w.holding place []).disk.text path = .ok "" := Disk.text_of_read_nil hread
  rw [carryOut_run_listing w c hout hin, ht]
  dsimp only
  rw [htext]

/-- **A run that succeeds has read what was there before**, if no input is at the place of the
listing file. -/
theorem reads_of_carryOut_run (hfiles : c.outfile ≠ none → ∃ path, c.infiles = [path])
    (hover : ∀ path ∈ c.infiles, ¬c.ListsOver w.disk path) {reports : List Report}
    (h : (w.carryOut c.run).1 = .ok reports) :
    ∃ inputs, w.disk.Reads c.infiles inputs none ∧ reports = inputs.map c.reportOn ∧
      let listing := String.join (inputs.map c.listingOf)
      match c.outfile with
      | none => (w.carryOut c.run).2 = w.printed listing
      | some out => ∃ place, w.disk.target out = .ok place ∧
          (w.carryOut c.run).2 = w.holding place (Utf8.bytes listing) := by
  cases hout : c.outfile with
  | none =>
    obtain ⟨inputs, stop, hreads⟩ := w.disk.exists_reads c.infiles
    rw [carryOut_run w c hout, carryOut_inputs w c hout hreads] at h ⊢
    cases stop with
    | some e => cases h
    | none => exact ⟨inputs, hreads, (Except.ok.inj h).symm, rfl⟩
  | some out =>
    obtain ⟨path, hin⟩ := hfiles (by simp [hout])
    rw [carryOut_run_listing w c hout hin] at h ⊢
    cases ht : w.disk.target out with
    | error fault =>
      rw [ht] at h
      cases h
    | ok place =>
      rw [ht] at h
      dsimp only at h ⊢
      cases htext : (w.holding place []).disk.text path with
      | error fault =>
        rw [htext] at h
        cases h
      | ok source =>
        rw [htext] at h
        have hne : w.disk.resolve path ≠ .ok place := fun hr =>
          hover path (by simp [hin]) ⟨out, place, hout, ht, hr⟩
        have hbefore : w.disk.text path = .ok source := by
          obtain ⟨bytes, hread, hs⟩ := Disk.text_eq_ok_iff.mp htext
          refine Disk.text_eq_ok_iff.mpr ⟨bytes, ?_, hs⟩
          exact ((Disk.isSite_of_target ht).read_put_of_ne [] hne).mp hread
        refine ⟨[(path, source)], ?_, (Except.ok.inj h).symm, place, ht, ?_⟩
        · rw [hin]
          exact .next hbefore .done
        · simp

/-- **A run changes nothing on the disk but the listing file.** -/
theorem disk_carryOut_run (hfiles : c.outfile ≠ none → ∃ path, c.infiles = [path]) :
    (w.carryOut c.run).2.disk = w.disk ∨
      ∃ out place content, c.outfile = some out ∧ w.disk.target out = .ok place ∧
        (w.carryOut c.run).2.disk = w.disk.put place (.file content) := by
  cases hout : c.outfile with
  | none =>
    obtain ⟨inputs, stop, hreads⟩ := w.disk.exists_reads c.infiles
    rw [carryOut_run w c hout, carryOut_inputs w c hout hreads]
    exact Or.inl rfl
  | some out =>
    obtain ⟨path, hin⟩ := hfiles (by simp [hout])
    rw [carryOut_run_listing w c hout hin]
    cases ht : w.disk.target out with
    | error fault => exact Or.inl rfl
    | ok place =>
      refine Or.inr ⟨out, place, ?_⟩
      dsimp only
      cases (w.holding place []).disk.text path with
      | error fault => exact ⟨[], rfl, ht, rfl⟩
      | ok source => exact ⟨_, rfl, ht, rfl⟩

end World

/-- **Inputs are left alone unless the listing file is one of them.** Nothing is changed but what
is at the place of the listing file. If no input is there, all that could be read before has
the same contents, and a run that succeeds reports and lists the texts that the inputs had
before it. But an input at that place is listed over: what is reported and listed is the empty
text, and its contents are that listing. -/
theorem run_keeps_inputs (w : World) {o : Options} {c : Config} (h : o.validate = .ok c) :
    let r := w.carryOut o.run
    (∀ place, (∀ out, c.outfile = some out → w.disk.target out ≠ .ok place) →
      r.2.disk.find? place = w.disk.find? place) ∧
    (∀ path ∈ c.infiles, ¬c.ListsOver w.disk path → ∀ bytes, w.disk.read path = .ok bytes →
      r.2.disk.read path = .ok bytes) ∧
    (∀ path ∈ c.infiles, c.ListsOver w.disk path →
      r.1 = .ok [c.reportOn (path, "")] ∧
        r.2.disk.read path = .ok (Utf8.bytes (c.listingOf (path, "")))) ∧
    ∀ reports, r.1 = .ok reports → (∀ path ∈ c.infiles, ¬c.ListsOver w.disk path) →
      ∃ inputs, w.disk.Reads c.infiles inputs none ∧ reports = inputs.map c.reportOn ∧
        let listing := String.join (inputs.map c.listingOf)
        match c.outfile with
        | none => r.2 = w.printed listing
        | some out =>
          ∃ place, w.disk.target out = .ok place ∧ r.2 = w.holding place (Utf8.bytes listing) := by
  intro r
  have hrun : r = w.carryOut c.run := by
    rw [show r = w.carryOut o.run from rfl, Options.run, h]
  obtain ⟨_, _, hfiles⟩ := Options.files_of_validate h
  have hdisk := w.disk_carryOut_run c hfiles
  rw [← hrun] at hdisk
  refine ⟨fun place hplace => ?_, fun path hpath hover bytes hread => ?_,
    fun path hpath hover => ?_, fun reports hreports hover => ?_⟩
  · rcases hdisk with hd | ⟨out, place', content, hout, ht, hd⟩
    · rw [hd]
    · rw [hd, (Disk.isSite_of_target ht).find?_put_of_ne]
      rintro rfl
      exact hplace out hout ht
  · rcases hdisk with hd | ⟨out, place, content, hout, ht, hd⟩
    · rw [hd, hread]
    · rw [hd]
      exact ((Disk.isSite_of_target ht).read_put_of_ne content
        fun hr => hover ⟨out, place, hout, ht, hr⟩).mpr hread
  · obtain ⟨out, place, hout, ht, hr⟩ := hover
    obtain ⟨path', hin⟩ := hfiles (by simp [hout])
    obtain rfl : path = path' := by simpa [hin] using hpath
    rw [hrun, w.carryOut_run_over c hout hin ht hr]
    exact ⟨rfl, (Disk.isSite_of_target ht).read_put_self _ hr⟩
  · rw [hrun] at hreports ⊢
    exact w.reads_of_carryOut_run c hfiles hover hreports

/-- A listing file beside the input. -/
theorem run_keeps_inputs_beside :
    let w : World := { disk := { nodes := [(["a"], .file (Utf8.bytes "nop\n"))] } }
    let o : Options := { infiles := ["a"], outfile := some "b" }
    let c : Config := ⟨["a"], some "b", {}, false⟩
    o.validate = .ok c ∧ ¬c.ListsOver w.disk "a" ∧
      (w.carryOut o.run).2.disk.read "a" = .ok (Utf8.bytes "nop\n") := by
  intro w o c
  have hvalid : o.validate = .ok c := rfl
  have hover : ¬c.ListsOver w.disk "a" := by
    rintro ⟨out, place, hout, ht, hr⟩
    obtain rfl := Option.some.inj hout
    have hb : w.disk.target "b" = .ok ["b"] := rfl
    have ha : w.disk.resolve "a" = .ok ["a"] := rfl
    rw [hb] at ht
    rw [ha] at hr
    exact absurd ((Except.ok.inj ht).trans (Except.ok.inj hr).symm) (by decide)
  have hread : w.disk.read "a" = .ok (Utf8.bytes "nop\n") := rfl
  exact ⟨hvalid, hover, (run_keeps_inputs w hvalid).2.1 "a" (by simp [c]) hover _ hread⟩

/-- An input named as its own listing file. It ends up as the listing of no line, without an
error. -/
theorem run_empties_input :
    let w : World := { disk := { nodes := [(["a"], .file (Utf8.bytes "nop\n"))] } }
    let o : Options := { infiles := ["a"], outfile := some "a" }
    let r := w.carryOut o.run
    w.disk.read "a" = .ok (Utf8.bytes "nop\n") ∧ r.1 = .ok [⟨"a", [], []⟩] ∧
      r.2.disk.read "a"
        = .ok (Utf8.bytes "a\nLINE  M  SOURCE\n----  -  ------\n\nLines: 0  Errors: 0\n") := by
  intro w o r
  let c : Config := ⟨["a"], some "a", {}, false⟩
  have ht : w.disk.target "a" = .ok ["a"] := rfl
  have hr : w.disk.resolve "a" = .ok ["a"] := rfl
  have hrun : r = (.ok [c.reportOn ("a", "")],
      w.holding ["a"] (Utf8.bytes (c.listingOf ("a", "")))) :=
    w.carryOut_run_over c rfl rfl ht hr
  have hread := (Disk.isSite_of_target ht).read_put_self (Utf8.bytes (c.listingOf ("a", ""))) hr
  refine ⟨rfl, ?_, ?_⟩
  · rw [hrun]
    exact congrArg (fun x => Except.ok [x]) (by decide +kernel)
  · rw [hrun]
    exact hread.trans (congrArg Except.ok (by decide +kernel))

end AsmExpand
