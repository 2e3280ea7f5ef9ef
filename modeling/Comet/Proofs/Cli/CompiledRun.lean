import Comet.Cli.Session
import Comet.Proofs.Cli.Directory
import Comet.Proofs.Image.ObjectFile

/-!
# Running what has been compiled

Compiling a source file and running the object file does what running the source file does. Only the
lines that name the file differ.

* `Outcome.ofRun`: the outcome of a run, with these lines apart from everything else.
* `perform_runImage`: what running an image prints depends on the file by its last line alone.
* `execute_cas`, `execute_com`, `execute_compile`: the command lines, for a source file that
  assembles and an object file that can be read.
* `execute_compiled`: the three together.
-/

namespace Comet

open Text (Appearance Style)

variable {here : List String}

/-- The text of a line on the progress of a request. -/
def Script.statusLine (look : Appearance) (style : Style) (word text : String) : String :=
  look.paint style (Text.padLeft 12 word) ++ " " ++ text ++ "\n"

/-- The text of a line on what is being done to a file. -/
def Script.fileLine (look : Appearance) (word path : String) : String :=
  statusLine look .green word ("target " ++ path)

/-- The outcome of running a file: a line on how it was loaded, what the program did, and a line on
its completion unless that failed. -/
def Outcome.ofRun (look : Appearance) (word path : String) (code : Nat) (body trace : String)
    (d : Directory here) : Outcome here where
  code := code
  output := Script.fileLine look word path ++ body ++
    if code = 0 then Script.fileLine look "Completed" path else ""
  trace := trace
  directory := d

namespace Script

theorem perform_map_printTrace (o : Outcome here) (look : Appearance) (entries : List TraceEntry)
    (rest : List Action) :
    o.perform (entries.map (fun e => .printTrace (e.printed look)) ++ rest) =
      { o with
        trace := o.trace ++ String.join (entries.map (TraceEntry.printed look)) }.perform rest := by
  induction entries generalizing o with
  | nil => simp
  | cons e entries ih =>
    rw [List.map_cons, List.cons_append, Outcome.perform, ih]
    simp [String.append_assoc]

/-- What a run prints before its outcome: how the file was loaded, that the program runs, the trace
and the registers. -/
theorem perform_report (look : Appearance) (word path registers : String) (d : Directory here)
    (entries : List TraceEntry) (rest : List Action) :
    Outcome.perform { directory := d } (fileStatus look word path ::
        status look .green "Running" "emitted binary" ::
          entries.map (fun e => .printTrace (e.printed look)) ++ .print registers :: rest) =
      Outcome.perform
        { output := fileLine look word path ++
            (statusLine look .green "Running" "emitted binary" ++ registers)
          trace := String.join (entries.map (TraceEntry.printed look))
          directory := d } rest := by
  simp only [fileStatus, status, Outcome.perform, List.cons_append]
  rw [perform_map_printTrace]
  simp [Outcome.perform, fileLine, statusLine, String.append_assoc]

/-- **Running an image** depends on the name of its file by the last line alone. -/
theorem perform_runImage (around : Surroundings) (options : RunOptions) (image : Image) :
    ∃ code body trace, ∀ (word path : String) (d : Directory here),
      Outcome.perform { directory := d }
          (fileStatus ⟨options.minimal, around.color⟩ word path ::
            runImage around path options image) =
        .ofRun ⟨options.minimal, around.color⟩ word path code body trace d := by
  generalize hlook : (⟨options.minimal, around.color⟩ : Appearance) = look
  simp only [runImage, hlook]
  generalize (machine around options image).run .idle (stepLimit around options) = outcome
  let m := Machine.finalState outcome
  let report := statusLine look .green "Running" "emitted binary" ++ m.registerText look
  let trace := String.join (m.entries.toList.map (TraceEntry.printed look))
  cases outcome with
  | ok halted =>
    let count := Nat.repr halted.steps
    let last := statusLine look .green "Halted" ("after " ++ count ++ " instructions")
    refine ⟨0, report ++ last, trace, fun word path d => ?_⟩
    refine (perform_report look word path _ d m.entries.toList _).trans ?_
    simp [Outcome.perform, Outcome.ofRun, status, fileStatus, fileLine, statusLine, report, last,
      count, trace, m, String.append_assoc]
  | error stopped =>
    let last := statusLine look .red "Faulted" "execution stopped"
    refine ⟨1, report ++ last, trace, fun word path d => ?_⟩
    refine (perform_report look word path _ d m.entries.toList _).trans ?_
    simp [Outcome.perform, Outcome.ofRun, status, fileLine, statusLine, report, last, trace, m,
      String.append_assoc]

/-- An object file that is not loaded fails its script with a message. -/
theorem loadObject_eq_error {path : String} {contents : Option (List UInt8)} {action : Action}
    (h : loadObject path contents = .error action) : ∃ message, action = .fail message := by
  unfold loadObject at h
  split at h
  · cases h; exact ⟨_, rfl⟩
  · split at h <;> cases h
    exact ⟨_, rfl⟩

/-- A source file that does not assemble fails its script with a message. -/
theorem assemble_eq_error {path : String} {contents : Option (List UInt8)} {action : Action}
    (h : assemble path contents = .error action) : ∃ message, action = .fail message := by
  unfold assemble at h
  split at h
  · cases h; exact ⟨_, rfl⟩
  · split at h
    · cases h; exact ⟨_, rfl⟩
    · split at h <;> cases h
      exact ⟨_, rfl⟩

end Script

/-! ## Command lines -/

namespace Directory

/-- The file holds the source text of a program, which assembles. -/
def Assembles (d : Directory here) (path : String) (a : Assembly) : Prop :=
  ∃ bytes source, d.read? path = some bytes ∧ textOfBytes? bytes = some source ∧
    Assembly.ofSource? source = .ok a

variable {d d' : Directory here} {environment : String → Option String} {path target : String}
  {arguments : List String} {options : RunOptions} {a : Assembly}

theorem Assembles.assemble_eq (h : d.Assembles path a) :
    Script.assemble path (d.read? path) = .ok a := by
  obtain ⟨bytes, source, hread, htext, ha⟩ := h
  simp only [Script.assemble, hread, htext, ha]

/-- Running a source file that assembles is running its image. -/
theorem execute_cas (hargs : Request.ofArguments? arguments = .ok (.run path options))
    (hcas : Path.extension? path = some "cas") (h : d.Assembles path a) :
    d.execute environment arguments =
      Outcome.perform { directory := d }
        (Script.fileStatus ⟨options.minimal, (Surroundings.ofEnvironment environment).color⟩
            "Assembling" path ::
          Script.runImage (.ofEnvironment environment) path options a.image) := by
  simp only [execute, hargs, Request.input?, Option.bind_some, Request.script, Script.run, hcas,
    h.assemble_eq]
  rfl

/-- Running an object file that can be read is running its image. -/
theorem execute_com {image : Image}
    (hargs : Request.ofArguments? arguments = .ok (.run path options))
    (hcom : Path.extension? path = some "com") (hfits : image.size ≤ imageLimit)
    (h : d.read? path = some image.toBytes) :
    d.execute environment arguments =
      Outcome.perform { directory := d }
        (Script.fileStatus ⟨options.minimal, (Surroundings.ofEnvironment environment).color⟩
            "Loading" path ::
          Script.runImage (.ofEnvironment environment) path options image) := by
  simp only [execute, hargs, Request.input?, Option.bind_some, Request.script, Script.run, hcom,
    Script.loadObject, h, Image.ofBytes?_toBytes image hfits]
  rfl

/-- Compiling a source file that assembles saves its image. -/
theorem execute_compile
    (hargs : Request.ofArguments? arguments = .ok (.compile path (some target)))
    (h : d.Assembles path a) (hwrite : d.write? target a.image.toBytes = some d') :
    (d.execute environment arguments).code = 0 ∧
      (d.execute environment arguments).directory = d' := by
  simp [execute, hargs, Request.input?, Request.script, Script.compile, h.assemble_eq,
    Script.fileStatus, Script.status, Outcome.perform, hwrite]

theorem Assembles.of_write? {bytes : List UInt8} {x : String} (h : d.Assembles path a)
    (hwrite : d.write? target bytes = some d') (hpath : Path.extension? path = some "cas")
    (htarget : Path.extension? target = some x) (hne : x ≠ "cas") : d'.Assembles path a := by
  obtain ⟨contents, source, hread, htext, ha⟩ := h
  exact ⟨contents, source, read?_of_write?_of_ne hwrite hread htarget hpath hne, htext, ha⟩

/-- **Compiling and running the object file is running the source.** Wherever the object file can be
written, compiling succeeds; afterwards the two runs, and that of the source before, end with the
same code, print the same trace, and the same lines apart from those that name the file. -/
theorem execute_compiled {environment' : String → Option String} {p q : String}
    {compile runSource runObject : List String}
    (hcompile : Request.ofArguments? compile = .ok (.compile p (some q)))
    (hsource : Request.ofArguments? runSource = .ok (.run p options))
    (hobject : Request.ofArguments? runObject = .ok (.run q options))
    (hp : Path.extension? p = some "cas") (hq : Path.extension? q = some "com")
    (ha : d.Assembles p a) (hwritable : (d.write? q a.image.toBytes).isSome) :
    let compiled := d.execute environment' compile
    let look : Appearance := ⟨options.minimal, (Surroundings.ofEnvironment environment).color⟩
    compiled.code = 0 ∧
      ∃ code body trace,
        d.execute environment runSource = .ofRun look "Assembling" p code body trace d ∧
        compiled.directory.execute environment runSource =
          .ofRun look "Assembling" p code body trace compiled.directory ∧
        compiled.directory.execute environment runObject =
          .ofRun look "Loading" q code body trace compiled.directory := by
  intro compiled look
  obtain ⟨d', hwrite⟩ := Option.isSome_iff_exists.1 hwritable
  obtain ⟨hcode, hdirectory⟩ : compiled.code = 0 ∧ compiled.directory = d' :=
    execute_compile hcompile ha hwrite
  have hfits : a.image.size ≤ imageLimit := by
    obtain ⟨_, _, -, -, hassembled⟩ := ha
    have htiles := Assembly.tiles_of_ofSource? hassembled
    exact htiles.total.trans_le htiles.fits
  have ha' : d'.Assembles p a := ha.of_write? hwrite hp hq (by decide)
  obtain ⟨code, body, trace, hrun⟩ :=
    Script.perform_runImage (.ofEnvironment environment) options a.image
  refine ⟨hcode, code, body, trace, ?_, ?_, ?_⟩
  · rw [execute_cas hsource hp ha, hrun]
  · rw [hdirectory, execute_cas hsource hp ha', hrun]
  · rw [hdirectory, execute_com hobject hq hfits (read?_of_write? hwrite), hrun]

/-- A program of one instruction, traced, in a directory that holds nothing else. The object file is
put at the root. -/
theorem execute_compiled_lad :
    let d : Directory ["work"] := ⟨[(["work", "p.cas"], [32, 76, 65, 68, 32, 71, 82, 49, 44, 55])]⟩
    let compiled := d.execute (fun _ => none) ["compile", "p.cas", "/q.com"]
    textOfBytes? [32, 76, 65, 68, 32, 71, 82, 49, 44, 55] = some " LAD GR1,7" ∧
      compiled.directory.read? "/q.com" = some [0x00, 0x00, 0x12, 0x10, 0x00, 0x07] ∧
      compiled.code = 0 ∧ ∃ code body trace,
        d.execute (fun _ => none) ["run", "--steps=5", "-t", "p.cas"] =
          .ofRun ⟨false, false⟩ "Assembling" "p.cas" code body trace d ∧
        compiled.directory.execute (fun _ => none) ["run", "--steps=5", "-t", "p.cas"] =
          .ofRun ⟨false, false⟩ "Assembling" "p.cas" code body trace compiled.directory ∧
        compiled.directory.execute (fun _ => none) ["run", "--steps=5", "-t", "/q.com"] =
          .ofRun ⟨false, false⟩ "Loading" "/q.com" code body trace compiled.directory := by
  intro d compiled
  let lad : Statement :=
    { label := none, mnemonic := .machine (.registerAddress .loadAddress), mnemonicSpan := ⟨1, 3⟩
      args := [⟨.register 1, "GR1", ⟨5, 3⟩, by decide⟩, ⟨.integer 7, "7", ⟨9, 1⟩, by decide⟩]
      line := 1
      source := "LAD GR1,7" }
  have htext : textOfBytes? [32, 76, 65, 68, 32, 71, 82, 49, 44, 55] = some " LAD GR1,7" := by
    decide +kernel
  have ha : d.Assembles "p.cas" ⟨⟨#[⟨0, 2, lad⟩], .empty, 2⟩, ⟨#[0x1210, 7], 0⟩⟩ :=
    ⟨_, _, by decide +kernel, htext, by decide +kernel⟩
  have hcompile : Request.ofArguments? ["compile", "p.cas", "/q.com"] =
      .ok (.compile "p.cas" (some "/q.com")) := by decide +kernel
  have hsource : Request.ofArguments? ["run", "--steps=5", "-t", "p.cas"] =
      .ok (.run "p.cas" { steps := some 5, trace := true }) := by decide +kernel
  have hobject : Request.ofArguments? ["run", "--steps=5", "-t", "/q.com"] =
      .ok (.run "/q.com" { steps := some 5, trace := true }) := by decide +kernel
  exact ⟨htext, by decide +kernel, execute_compiled hcompile hsource hobject (by decide +kernel)
    (by decide +kernel) ha (by decide +kernel)⟩

end Directory

end Comet
