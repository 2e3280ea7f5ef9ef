import Comet.Proofs.Cli.CompiledRun
import Comet.Proofs.Cli.Extension

/-!
# Commands on source files

Checking, dumping and compiling a file succeed for the same contents: the UTF-8 text of a program
that assembles. A directory is changed by nothing but a successful compilation, in one place.

* `textOfBytes?_eq_some`: the contents that are a text.
* `Request.savesNothing_script`: the scripts of requests other than a compilation save no file.
* `Request.code_of_assembles`, `Request.performIn_of_not_assembles`: a request to assemble a file
  that does and one that does not.
* `Request.directory_compile`, `Request.exists_splitsAs_destination`: what a compilation saves, and
  where.
* `Directory.source_commands_agree`: command lines.
-/

namespace Comet

variable {here : List String}

/-- Bytes are a text if they are its encoding. -/
theorem textOfBytes?_eq_some {bytes : List UInt8} {source : String} :
    textOfBytes? bytes = some source ↔ bytes = source.toUTF8.data.toList := by
  unfold textOfBytes? String.fromUTF8?
  constructor
  · intro h
    split at h
    · cases h
      rfl
    · cases h
  · rintro rfl
    exact dif_pos source.isValidUTF8

/-! ## Scripts that save nothing -/

namespace Script

/-- No file is saved. -/
def SavesNothing (script : List Action) : Prop := ∀ path bytes, .save path bytes ∉ script

theorem SavesNothing.perform_directory {script : List Action} (h : SavesNothing script)
    (o : Outcome here) : (o.perform script).directory = o.directory := by
  induction script generalizing o with
  | nil => rfl
  | cons action rest ih =>
    have hrest : SavesNothing rest := fun path bytes hmem => h path bytes (.tail _ hmem)
    cases action with
    | print text => exact ih hrest _
    | printTrace text => exact ih hrest _
    | fail message => rfl
    | save path bytes => exact absurd (.head _) (h path bytes)

theorem savesNothing_runImage (around : Surroundings) (path : String) (options : RunOptions)
    (image : Image) : SavesNothing (runImage around path options image) := by
  intro target bytes
  unfold runImage
  generalize (machine around options image).run .idle (stepLimit around options) = outcome
  cases outcome <;> simp [status, fileStatus]

theorem savesNothing_run (around : Surroundings) (path : String) (options : RunOptions)
    (contents : Option (List UInt8)) : SavesNothing (run around path options contents) := by
  intro target bytes
  have himage := fun image => savesNothing_runImage around path options image target bytes
  unfold run
  cases Path.extension? path with
  | none => simp
  | some extension =>
    simp only
    split
    · cases hload : loadObject path contents with
      | error action =>
        obtain ⟨message, rfl⟩ := loadObject_eq_error hload
        simp [fileStatus, status]
      | ok image => simpa [fileStatus, status] using himage image
    split
    · cases hassemble : assemble path contents with
      | error action =>
        obtain ⟨message, rfl⟩ := assemble_eq_error hassemble
        simp [fileStatus, status]
      | ok a => simpa [fileStatus, status] using himage a.image
    · simp

end Script

/-! ## Files -/

namespace Directory

/-- The path leads to a place where a file can be written. -/
def WritesAt (d : Directory here) (path : String) (place : List String) : Prop :=
  d.resolve? path = some place ∧ d.isDirectory place = false

variable {d : Directory here} {path : String} {place : List String} {a : Assembly}

theorem WritesAt.write?_eq (h : d.WritesAt path place) (bytes : List UInt8) :
    d.write? path bytes = some (d.put place bytes) :=
  write?_eq_some.2 ⟨place, h.1, h.2, rfl⟩

theorem write?_eq_none (h : ¬∃ place, d.WritesAt path place) (bytes : List UInt8) :
    d.write? path bytes = none := by
  rw [Option.eq_none_iff_forall_ne_some]
  intro d' hwrite
  obtain ⟨place, hresolve, hdirectory, -⟩ := write?_eq_some.1 hwrite
  exact h ⟨place, hresolve, hdirectory⟩

/-- No place is a file and a directory. -/
def IsTree (d : Directory here) : Prop := ∀ place, d.isDirectory place = true → d.file? place = none

/-- The file holds this text. -/
def HoldsText (d : Directory here) (path source : String) : Prop :=
  d.read? path = some source.toUTF8.data.toList

theorem assembles_iff : d.Assembles path a ↔
    ∃ source, d.HoldsText path source ∧ Assembly.ofSource? source = .ok a := by
  simp only [Assembles, HoldsText, textOfBytes?_eq_some]
  constructor
  · rintro ⟨_, source, hread, rfl, ha⟩
    exact ⟨source, hread, ha⟩
  · rintro ⟨source, hread, ha⟩
    exact ⟨_, source, hread, rfl, ha⟩

theorem assembles_of_assemble_eq (h : Script.assemble path (d.read? path) = .ok a) :
    d.Assembles path a := by
  unfold Script.assemble at h
  split at h
  · cases h
  next bytes hread =>
  split at h
  · cases h
  next source htext =>
  split at h
  · cases h
  next hsource => exact ⟨bytes, source, hread, htext, hsource.trans (congrArg _ (Except.ok.inj h))⟩

end Directory

/-! ## Requests -/

namespace Request

/-- The file that the request assembles, whatever it is called. -/
def source? : Request → Option String
  | compile path _ | check path | dump path => some path
  | banner | version | help | run _ _ => none

/-- The file that a compilation saves: the one given, or the source file with another extension. -/
def destination (path : String) (target : Option String) : String :=
  target.getD (Path.withExtension path "com")

/-- What the request saves, if anything, can be saved. -/
def CanSave (d : Directory here) : Request → Prop
  | compile path target => ∃ place, d.WritesAt (destination path target) place
  | banner | version | help | run _ _ | check _ | dump _ => True

/-- What the request does in a directory. -/
def performIn (d : Directory here) (around : Surroundings) (request : Request) : Outcome here :=
  Outcome.perform { directory := d } (request.script around (request.input?.bind d.read?))

variable {d : Directory here} {around : Surroundings} {request : Request} {path : String}
  {target : Option String} {a : Assembly}

/-- **The destination by default**: folder and stem are those of the source file, and the extension
is `com`. -/
theorem exists_splitsAs_destination (htree : d.IsTree) (hfile : (d.read? path).isSome)
    (hsave : (compile path none).CanSave d) :
    ∃ folder stem extension, Path.SplitsAs path folder stem extension ∧
      Path.SplitsAs (destination path none) folder stem (some "com") := by
  obtain ⟨bytes, hread⟩ := Option.isSome_iff_exists.1 hfile
  obtain ⟨source, hsource, hbytes⟩ := Option.bind_eq_some_iff.1 hread
  obtain ⟨place, hplace, hdirectory⟩ := hsave
  rw [destination, Option.getD_none] at hplace ⊢
  obtain ⟨folder, name, rfl, hfolder, hslash⟩ := Path.exists_eq_append path
  have hplain : d.isDirectory source = false := by
    by_contra hnot
    rw [htree source (by simpa using hnot)] at hbytes
    cases hbytes
  have hreal := Directory.isReal_of_resolve? hfolder hslash hsource hplain
  rcases Path.exists_splitsAs hfolder hreal hslash with
    ⟨stem, extension, hsplit⟩ | ⟨extension, rfl, hne, hdot⟩
  · exact ⟨_, stem, extension, hsplit, hsplit.withExtension (by decide)⟩
  · -- such a destination would be a directory
    have hextension : '/' ∉ extension := fun hx => hslash (.tail _ (.tail _ hx))
    rw [Path.withExtension_dots hfolder hne hextension hdot] at hplace
    exact absurd rfl (Directory.isReal_of_resolve? hfolder (by simp) hplace hdirectory).2.2

theorem savesNothing_script (around : Surroundings) (contents : Option (List UInt8))
    (h : ∀ path target, request ≠ .compile path target) :
    Script.SavesNothing (request.script around contents) := by
  intro target bytes
  cases request with
  | banner | version | help => simp [script]
  | run path options => exact Script.savesNothing_run around path options contents target bytes
  | compile path target => exact absurd rfl (h path target)
  | check path =>
    cases hassemble : Script.assemble path contents with
    | error action =>
      obtain ⟨message, rfl⟩ := Script.assemble_eq_error hassemble
      simp [script, Script.check, hassemble, Script.fileStatus, Script.status]
    | ok a => simp [script, Script.check, hassemble, Script.fileStatus, Script.status]
  | dump path =>
    cases hassemble : Script.assemble path contents with
    | error action =>
      obtain ⟨message, rfl⟩ := Script.assemble_eq_error hassemble
      simp [script, Script.dump, hassemble]
    | ok a => simp [script, Script.dump, hassemble]

/-- **A file that assembles**: the request succeeds. -/
theorem code_of_assembles (hsource : request.source? = some path) (hsave : request.CanSave d)
    (ha : d.Assembles path a) : (request.performIn d around).code = 0 := by
  have hassemble := ha.assemble_eq
  cases request with
  | banner | version | help | run => cases hsource
  | compile path target =>
    cases hsource
    obtain ⟨place, hplace⟩ := hsave
    have hwrite := hplace.write?_eq a.image.toBytes
    unfold destination at hwrite
    simp [performIn, input?, script, Script.compile, hassemble, Script.fileStatus, Script.status,
      Outcome.perform, hwrite]
  | check path =>
    cases hsource
    simp [performIn, input?, script, Script.check, hassemble, Script.fileStatus, Script.status,
      Outcome.perform]
  | dump path =>
    cases hsource
    simp [performIn, input?, script, Script.dump, hassemble, Outcome.perform]

/-- **A file that does not assemble**: the request fails before it saves anything. -/
theorem performIn_of_not_assembles (hsource : request.source? = some path)
    (hnot : ¬∃ a, d.Assembles path a) :
    (request.performIn d around).code = 1 ∧ (request.performIn d around).directory = d := by
  cases hassemble : Script.assemble path (d.read? path) with
  | ok a => exact absurd ⟨a, Directory.assembles_of_assemble_eq hassemble⟩ hnot
  | error action =>
    obtain ⟨message, rfl⟩ := Script.assemble_eq_error hassemble
    cases request with
    | banner | version | help | run => cases hsource
    | compile path target =>
      cases hsource
      simp [performIn, input?, script, Script.compile, hassemble, Script.fileStatus, Script.status,
        Outcome.perform]
    | check path =>
      cases hsource
      simp [performIn, input?, script, Script.check, hassemble, Script.fileStatus, Script.status,
        Outcome.perform]
    | dump path =>
      cases hsource
      simp [performIn, input?, script, Script.dump, hassemble, Outcome.perform]

/-- **A compilation** of a file that assembles puts the image at its destination. -/
theorem directory_compile {place : List String} (ha : d.Assembles path a)
    (hplace : d.WritesAt (destination path target) place) :
    ((compile path target).performIn d around).directory = d.put place a.image.toBytes := by
  have hwrite := hplace.write?_eq a.image.toBytes
  unfold destination at hwrite
  simp [performIn, input?, script, Script.compile, ha.assemble_eq, Script.fileStatus,
    Script.status, Outcome.perform, hwrite]

/-- A compilation that cannot save an image changes nothing. -/
theorem directory_compile_of_not_canSave (hnot : ¬(compile path target).CanSave d) :
    ((compile path target).performIn d around).directory = d := by
  by_cases ha : ∃ a, d.Assembles path a
  · obtain ⟨a, ha⟩ := ha
    have hwrite := Directory.write?_eq_none hnot
    unfold destination at hwrite
    simp [performIn, input?, script, Script.compile, ha.assemble_eq, Script.fileStatus,
      Script.status, Outcome.perform, hwrite]
  · exact (performIn_of_not_assembles rfl ha).2

/-- **Only a compilation that succeeds changes files.** -/
theorem eq_compile_of_directory_ne (hne : (request.performIn d around).directory ≠ d) :
    ∃ path target, request = .compile path target ∧ request.CanSave d ∧
      ∃ a, d.Assembles path a := by
  by_cases hcompile : ∀ path target, request ≠ .compile path target
  · exact absurd ((savesNothing_script _ _ hcompile).perform_directory _) hne
  push Not at hcompile
  obtain ⟨path, target, rfl⟩ := hcompile
  refine ⟨path, target, rfl, ?_, ?_⟩
  · by_contra hnot
    exact hne (directory_compile_of_not_canSave hnot)
  · by_contra hnot
    exact hne (performIn_of_not_assembles rfl hnot).2

end Request

/-! ## Command lines -/

namespace Directory

theorem execute_eq_performIn {d : Directory here} {environment : String → Option String}
    {arguments : List String} {request : Request}
    (hargs : Request.ofArguments? arguments = .ok request) :
    d.execute environment arguments = request.performIn d (.ofEnvironment environment) := by
  simp only [execute, hargs, Request.performIn]

/-- **Commands on source files agree.** Checking, dumping and compiling, to where a file can be
written, end with code 0 if the file holds the UTF-8 text of a program that assembles, and with code
1 otherwise. The files change only if the command line asks for a compilation that succeeds. Then
the file given, or else the one beside the source file with the extension `com`, has the bytes of
the image that a run of the same text loads, wherever that text is, and every other file is as it
was. -/
theorem source_commands_agree (d : Directory here) (environment : String → Option String)
    (arguments : List String) :
    let outcome := d.execute environment arguments
    (∀ request path, Request.ofArguments? arguments = .ok request →
      request.source? = some path → request.CanSave d →
      let valid := ∃ source a, d.HoldsText path source ∧ Assembly.ofSource? source = .ok a
      (outcome.code = 0 ∧ valid) ∨ (outcome.code = 1 ∧ ¬valid)) ∧
    (outcome.directory ≠ d → outcome.code = 0 ∧ ∃ path target source a,
      Request.ofArguments? arguments = .ok (.compile path target) ∧
        d.HoldsText path source ∧ Assembly.ofSource? source = .ok a) ∧
    (∀ path target place source a, Request.ofArguments? arguments = .ok (.compile path target) →
      d.WritesAt (Request.destination path target) place →
      d.HoldsText path source → Assembly.ofSource? source = .ok a →
      (∀ other, outcome.directory.file? other =
        if other = place then some a.image.toBytes else d.file? other) ∧
      ∀ {here'} (d' : Directory here') environment' arguments' path' options,
        Request.ofArguments? arguments' = .ok (.run path' options) →
        Path.extension? path' = some "cas" → d'.HoldsText path' source →
        let around := Surroundings.ofEnvironment environment'
        d'.execute environment' arguments' =
          Outcome.perform { directory := d' }
            (Script.fileStatus ⟨options.minimal, around.color⟩ "Assembling" path' ::
              Script.runImage around path' options a.image)) ∧
    (d.IsTree → ∀ path, (d.read? path).isSome → (Request.compile path none).CanSave d →
      ∃ folder stem extension, Path.SplitsAs path folder stem extension ∧
        Path.SplitsAs (Request.destination path none) folder stem (some "com")) := by
  intro outcome
  refine ⟨?_, ?_, ?_, fun htree path => Request.exists_splitsAs_destination htree⟩
  · intro request path hargs hsource hsave valid
    have hvalid : valid ↔ ∃ a, d.Assembles path a := by
      simp only [assembles_iff, valid]
      exact exists_comm
    rw [show outcome = _ from execute_eq_performIn hargs, hvalid]
    by_cases ha : ∃ a, d.Assembles path a
    · obtain ⟨a, ha⟩ := ha
      exact .inl ⟨Request.code_of_assembles hsource hsave ha, a, ha⟩
    · exact .inr ⟨(Request.performIn_of_not_assembles hsource ha).1, ha⟩
  · intro hne
    cases hargs : Request.ofArguments? arguments with
    | error e => exact absurd (by simp only [outcome, execute, hargs]) hne
    | ok request =>
      rw [show outcome = _ from execute_eq_performIn hargs] at hne ⊢
      obtain ⟨path, target, rfl, hsave, a, ha⟩ := Request.eq_compile_of_directory_ne hne
      obtain ⟨source, htext, hsource⟩ := assembles_iff.1 ha
      exact ⟨Request.code_of_assembles rfl hsave ha, path, target, source, a, rfl, htext, hsource⟩
  · intro path target place source a hargs hplace htext hsource
    have ha : d.Assembles path a := assembles_iff.2 ⟨source, htext, hsource⟩
    refine ⟨fun other => ?_, ?_⟩
    · rw [show outcome = _ from execute_eq_performIn hargs, Request.directory_compile ha hplace,
        file?_put]
    · intro here' d' environment' arguments' path' options hargs' hcas htext' around
      exact execute_cas hargs' hcas (assembles_iff.2 ⟨source, htext', hsource⟩)

/-- A program of one instruction beside a file that is no text, which compiling it replaces. -/
theorem source_commands_agree_lad :
    let d : Directory :=
      ⟨[(["p.cas"], [32, 76, 65, 68, 32, 71, 82, 49, 44, 55]), (["p.com"], [0xFF])]⟩
    d.HoldsText "p.cas" " LAD GR1,7" ∧
      (d.execute (fun _ => none) ["compile", "p.cas"]).code = 0 ∧
      (∀ other, (d.execute (fun _ => none) ["compile", "p.cas"]).directory.file? other =
        if other = ["p.com"] then some [0x00, 0x00, 0x12, 0x10, 0x00, 0x07] else d.file? other) ∧
      d.execute (fun _ => none) ["run", "p.cas"] =
        Outcome.perform { directory := d }
          (Script.fileStatus ⟨false, false⟩ "Assembling" "p.cas" ::
            Script.runImage (.ofEnvironment fun _ => none) "p.cas" {} ⟨#[0x1210, 7], 0⟩) ∧
      (∃ folder stem extension, Path.SplitsAs "p.cas" folder stem extension ∧
        Path.SplitsAs (Request.destination "p.cas" none) folder stem (some "com")) ∧
      (d.execute (fun _ => none) ["check", "p.com"]).code = 1 ∧
      ¬∃ source a, d.HoldsText "p.com" source ∧ Assembly.ofSource? source = .ok a := by
  intro d
  let lad : Statement :=
    { label := none, mnemonic := .machine (.registerAddress .loadAddress), mnemonicSpan := ⟨1, 3⟩
      args := [⟨.register 1, "GR1", ⟨5, 3⟩, by decide⟩, ⟨.integer 7, "7", ⟨9, 1⟩, by decide⟩]
      line := 1
      source := "LAD GR1,7" }
  let a : Assembly := ⟨⟨#[⟨0, 2, lad⟩], .empty, 2⟩, ⟨#[0x1210, 7], 0⟩⟩
  have htext : d.HoldsText "p.cas" " LAD GR1,7" := by
    unfold HoldsText
    decide +kernel
  have hassembles : Assembly.ofSource? " LAD GR1,7" = .ok a := by decide +kernel
  have hcompile : Request.ofArguments? ["compile", "p.cas"] = .ok (.compile "p.cas" none) := by
    decide +kernel
  have hrun : Request.ofArguments? ["run", "p.cas"] = .ok (.run "p.cas" {}) := by decide +kernel
  have hcheck : Request.ofArguments? ["check", "p.com"] = .ok (.check "p.com") := by decide +kernel
  have hplace : d.WritesAt (Request.destination "p.cas" none) ["p.com"] :=
    ⟨by decide +kernel, by decide +kernel⟩
  have htree : d.IsTree := by
    intro place hdirectory
    have hroot : place = [] := by
      by_contra hne
      simp [isDirectory, d, hne] at hdirectory
    rw [hroot]
    rfl
  obtain ⟨hcode, -, hsaved, hdefault⟩ :=
    source_commands_agree d (fun _ => none) ["compile", "p.cas"]
  obtain ⟨hfiles, hruns⟩ := hsaved _ _ _ _ _ hcompile hplace htext hassembles
  obtain ⟨hchecked, -⟩ := source_commands_agree d (fun _ => none) ["check", "p.com"]
  refine ⟨htext, ?_, fun other => ?_, hruns d _ _ _ _ hrun (by decide +kernel) htext,
    hdefault htree _ (by decide +kernel) ⟨_, hplace⟩, ?_⟩
  · rcases hcode _ _ hcompile rfl ⟨_, hplace⟩ with ⟨hzero, -⟩ | ⟨-, hinvalid⟩
    · exact hzero
    · exact absurd ⟨_, _, htext, hassembles⟩ hinvalid
  · rw [hfiles, show a.image.toBytes = [0x00, 0x00, 0x12, 0x10, 0x00, 0x07] by decide +kernel]
  · rcases hchecked _ _ hcheck rfl trivial with ⟨hzero, -⟩ | hinvalid
    · exact absurd hzero (by decide +kernel)
    · exact hinvalid

end Directory

end Comet
