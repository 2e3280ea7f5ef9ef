import Comet.Proofs.Cli.CompiledRun
import Comet.Proofs.Cli.TraceOption
import Comet.Proofs.Machine.Tracing
import Comet.Proofs.Text.Printable

/-!
# Runs with and without a trace

Switching tracing on for a run adds a line for every executed instruction to standard error, in
front of whatever diagnostic there is, and changes nothing else.

* `TraceEntry.printed_isLine`: what is printed of an entry is one line.
* `Script.Inserts`: a script is another with trace lines put in, in front of its diagnostic;
  `Inserts.perform_eq` and `Inserts.errorText_eq` are what that does to the outcome.
* `Script.inserts_runImage`, `Script.inserts_run`: the two scripts of a run, and
  `Script.TracedLike.addsLines` what they do in a directory, whatever arguments asked for the run.
* `tracing_only_observes`: the machine and the command line together.
-/

namespace Comet

open Text (Appearance Style)

variable {here : List String}

/-! ## Trace lines -/

/-- The text is a line, ended by its only newline. -/
def IsLine (line : String) : Prop := ∃ text : String, line = text ++ "\n" ∧ '\n' ∉ text.toList

theorem newline_not_mem_hex (w : Word) : '\n' ∉ w.hex.toList :=
  (Text.printable_hex w).not_mem (by decide)

theorem newline_not_mem_spaces (count : Nat) : '\n' ∉ (Text.spaces count).toList :=
  (Text.printable_spaces count).not_mem (by decide)

theorem Effect.newline_not_mem_text (e : Effect) : '\n' ∉ e.text.toList := by
  have hname : ∀ r : Reg, '\n' ∉ r.name.toList := by decide
  cases e with
  | branch target taken => cases taken <;> simp [text, newline_not_mem_hex]
  | _ => simp [text, newline_not_mem_hex, hname]

/-- **The text of an entry** is on one line. -/
theorem TraceEntry.newline_not_mem_text (e : TraceEntry) : '\n' ∉ e.text.toList := by
  have hname : ∀ op ∈ Opcode.all, '\n' ∉ op.name.toList := by decide
  have hflags : '\n' ∉ e.flags.text.toList := by
    obtain ⟨_ | _, _ | _, _ | _⟩ := e.flags <;> decide
  have hoperand : '\n' ∉ ((e.operand.map Word.hex).getD (Text.spaces 4)).toList := by
    cases e.operand with
    | none => exact newline_not_mem_spaces 4
    | some w => exact newline_not_mem_hex w
  simp [text, Text.padRight, newline_not_mem_hex, newline_not_mem_spaces, hoperand, hflags,
    hname _ (Opcode.mem_all _), Effect.newline_not_mem_text]

theorem TraceEntry.printed_isLine (look : Appearance) (e : TraceEntry) :
    IsLine (e.printed look) := by
  refine ⟨look.paint .blue e.text, rfl, ?_⟩
  unfold Text.Appearance.paint
  split
  · simp [Text.Style.paint, Text.Style.codes, e.newline_not_mem_text]
  · exact e.newline_not_mem_text

/-! ## Scripts with lines put in -/

namespace Script

/-- What a script writes to standard error when it is taken in a directory: trace lines, and what is
made of the message of the action that fails. -/
def errorText (diagnostic : String → String) (d : Directory here) : List Action → String
  | [] => ""
  | .print _ :: rest => errorText diagnostic d rest
  | .printTrace text :: rest => text ++ errorText diagnostic d rest
  | .fail message :: _ => diagnostic message
  | .save path bytes :: rest =>
    match d.write? path bytes with
    | none => diagnostic ("cannot access file " ++ path)
    | some d => errorText diagnostic d rest

/-- The second script is the first with the lines of entries put in, behind nothing but printed
text; there are none in the first. -/
def Inserts (look : Appearance) (entries : List TraceEntry) (quiet traced : List Action) : Prop :=
  (∀ text, .printTrace text ∉ quiet) ∧
    ∃ before after, quiet = before ++ after ∧ (∀ action ∈ before, ∃ text, action = .print text) ∧
      traced = before ++ (entries.map (fun e => .printTrace (e.printed look)) ++ after)

/-- A script without trace lines leaves those that are there. -/
theorem perform_withTrace {script : List Action} (h : ∀ text, .printTrace text ∉ script)
    (o : Outcome here) (trace : String) :
    { o with trace }.perform script = { o.perform script with trace } := by
  induction script generalizing o with
  | nil => rfl
  | cons action rest ih =>
    have hrest : ∀ text, .printTrace text ∉ rest := fun text hmem =>
      h text (List.mem_cons_of_mem action hmem)
    cases action with
    | print text => exact ih hrest { o with output := o.output ++ text }
    | printTrace text => exact absurd List.mem_cons_self (h text)
    | fail message => rfl
    | save path bytes =>
      simp only [Outcome.perform]
      cases o.directory.write? path bytes with
      | none => rfl
      | some directory => exact ih hrest { o with directory }

variable {look : Appearance} {entries : List TraceEntry} {quiet traced : List Action}

/-- **The outcome** with the lines put in differs by these lines. -/
theorem Inserts.perform_eq (h : Inserts look entries quiet traced) (o : Outcome here) :
    o.perform traced =
      { o.perform quiet with
        trace := o.trace ++ String.join (entries.map (TraceEntry.printed look)) } := by
  obtain ⟨hquiet, before, after, rfl, hbefore, rfl⟩ := h
  induction before generalizing o with
  | nil =>
    rw [List.nil_append, perform_map_printTrace]
    exact perform_withTrace hquiet o _
  | cons action before ih =>
    rw [List.forall_mem_cons] at hbefore
    obtain ⟨⟨text, rfl⟩, hbefore⟩ := hbefore
    have hrest : ∀ text, .printTrace text ∉ before ++ after := fun text hmem =>
      hquiet text (List.mem_cons_of_mem _ hmem)
    exact ih { o with output := o.output ++ text } hrest hbefore

/-- **Standard error** begins with the lines. -/
theorem Inserts.errorText_eq (h : Inserts look entries quiet traced) (diagnostic : String → String)
    (d : Directory here) :
    errorText diagnostic d traced =
      String.join (entries.map (TraceEntry.printed look)) ++ errorText diagnostic d quiet := by
  obtain ⟨-, before, after, rfl, hbefore, rfl⟩ := h
  induction before with
  | nil =>
    rw [List.nil_append, List.nil_append]
    induction entries with
    | nil => simp
    | cons e entries ih =>
      rw [List.map_cons, List.cons_append, errorText, ih]
      simp [String.append_assoc]
  | cons action before ih =>
    rw [List.forall_mem_cons] at hbefore
    obtain ⟨⟨text, rfl⟩, hbefore⟩ := hbefore
    exact ih hbefore

/-- In a directory the second script does what the first does, and adds lines on standard error in
front of any diagnostic. -/
structure AddsLines (d : Directory here) (lines : List String) (quiet traced : List Action) :
    Prop where
  isLine : ∀ line ∈ lines, IsLine line
  trace_eq : (Outcome.perform { directory := d } quiet).trace = ""
  outcome_eq : Outcome.perform { directory := d } traced =
    { Outcome.perform { directory := d } quiet with trace := String.join lines }
  errorText_eq : ∀ diagnostic, errorText diagnostic d traced =
    String.join lines ++ errorText diagnostic d quiet

theorem Inserts.addsLines (h : Inserts look entries quiet traced) (d : Directory here) :
    AddsLines d (entries.map (TraceEntry.printed look)) quiet traced where
  isLine := List.forall_mem_map.2 fun e _ => e.printed_isLine look
  trace_eq := congrArg Outcome.trace (perform_withTrace h.1 { directory := d } "")
  outcome_eq := by rw [h.perform_eq, String.empty_append]
  errorText_eq diagnostic := h.errorText_eq diagnostic d

/-! ## The scripts of a run -/

/-- What is loaded from a file of this name with these contents. -/
def image? (path : String) (contents : Option (List UInt8)) : Option Image :=
  (Path.extension? path).bind fun extension =>
    if extension = "com" then (loadObject path contents).toOption
    else if extension = "cas" then (assemble path contents).toOption.map (·.image)
    else none

/-- The instructions that running a file executes. -/
def executed (around : Surroundings) (path : String) (options : RunOptions)
    (contents : Option (List UInt8)) : List (Moment Unit) :=
  match image? path contents with
  | none => []
  | some image => (machine around options image).executed .idle (stepLimit around options)

/-- One asks for the same run as the other, but it is traced. -/
structure TracedLike (around : Surroundings) (options : RunOptions) (around' : Surroundings)
    (options' : RunOptions) : Prop where
  quiet : (options.trace || around.settings.trace) = false
  traced : (options'.trace || around'.settings.trace) = true
  steps : options'.steps = options.steps
  minimal : options'.minimal = options.minimal
  entry : options'.entry = options.entry
  stepLimit : around'.settings.stepLimit = around.settings.stepLimit
  color : around'.color = around.color

variable {around around' : Surroundings} {options options' : RunOptions}

theorem TracedLike.machine_eq (h : TracedLike around options around' options') (image : Image) :
    machine around' options' image = (machine around options image).withTrace := by
  unfold machine
  rw [if_pos h.traced, if_neg (by simp [h.quiet]), h.entry]

theorem TracedLike.run_eq (h : TracedLike around options around' options') (image : Image) :
    (machine around' options' image).run .idle (Script.stepLimit around' options') =
      Machine.recorded (some (((machine around options image).executed .idle
        (Script.stepLimit around options)).map (Moment.entry .idle)).toArray)
      ((machine around options image).run .idle (Script.stepLimit around options)) := by
  have hlimit : Script.stepLimit around' options' = Script.stepLimit around options := by
    rw [Script.stepLimit, Script.stepLimit, h.steps, h.stepLimit]
  rw [h.machine_eq, hlimit]
  exact Machine.run_withTrace _ _ _

/-- Without a trace nothing is recorded. -/
theorem TracedLike.trace_eq (h : TracedLike around options around' options') (image : Image) :
    (machine around options image).trace = none := by
  unfold machine
  rw [if_neg (by simp [h.quiet])]
  rfl

theorem inserts_runImage (h : TracedLike around options around' options') (path : String)
    (image : Image) :
    Inserts ⟨options.minimal, around.color⟩
      (((machine around options image).executed .idle (stepLimit around options)).map
        (Moment.entry .idle))
      (runImage around path options image) (runImage around' path options' image) := by
  have hrun := h.run_eq image
  have hnone : (Machine.finalState ((machine around options image).run .idle
      (stepLimit around options))).entries = #[] := Machine.entries_run_of_none (h.trace_eq image)
  generalize (machine around options image).executed .idle (stepLimit around options) = moments
    at hrun ⊢
  unfold runImage
  simp only [hrun, hnone, h.minimal, h.color]
  generalize (machine around options image).run .idle (stepLimit around options) = outcome
  refine ⟨fun text => ?_,
    [status ⟨options.minimal, around.color⟩ .green "Running" "emitted binary"], _, rfl, ?_, ?_⟩
  · cases outcome <;> simp [status, fileStatus]
  · exact List.forall_mem_singleton.2 ⟨_, rfl⟩
  · cases outcome <;> rfl

/-- Scripts that are equal and have no trace lines differ by none. -/
theorem inserts_refl {look : Appearance} {script : List Action}
    (h : ∀ text, .printTrace text ∉ script) : Inserts look [] script script :=
  ⟨h, [], script, rfl, nofun, rfl⟩

/-- Printed text may come first. -/
theorem Inserts.cons_print (h : Inserts look entries quiet traced) (text : String) :
    Inserts look entries (.print text :: quiet) (.print text :: traced) := by
  obtain ⟨hquiet, before, after, rfl, hbefore, rfl⟩ := h
  refine ⟨fun line hmem => ?_, .print text :: before, after, rfl,
    List.forall_mem_cons.2 ⟨⟨text, rfl⟩, hbefore⟩, rfl⟩
  rcases List.mem_cons.1 hmem with hmem | hmem
  · cases hmem
  · exact hquiet line hmem

/-- **The scripts of a run** without and with a trace. -/
theorem inserts_run (h : TracedLike around options around' options') (path : String)
    (contents : Option (List UInt8)) :
    Inserts ⟨options.minimal, around.color⟩
      ((executed around path options contents).map (Moment.entry .idle))
      (run around path options contents) (run around' path options' contents) := by
  unfold run executed image?
  simp only [h.minimal, h.color]
  cases Path.extension? path with
  | none => exact inserts_refl (by simp)
  | some extension =>
    simp only [Option.bind_some]
    by_cases hcom : extension = "com"
    · simp only [if_pos hcom]
      refine Inserts.cons_print ?_ _
      cases hload : loadObject path contents with
      | error action =>
        obtain ⟨message, rfl⟩ := loadObject_eq_error hload
        exact inserts_refl (by simp)
      | ok image => exact inserts_runImage h path image
    by_cases hcas : extension = "cas"
    · simp only [if_neg hcom, if_pos hcas]
      refine Inserts.cons_print ?_ _
      cases hassemble : assemble path contents with
      | error action =>
        obtain ⟨message, rfl⟩ := assemble_eq_error hassemble
        exact inserts_refl (by simp)
      | ok a => exact inserts_runImage h path a.image
    · simp only [if_neg hcom, if_neg hcas]
      exact inserts_refl (by simp)

/-- **A run with tracing asked for**, in its options or in the environment. -/
theorem TracedLike.addsLines (h : TracedLike around options around' options')
    (d : Directory here) (path : String) :
    AddsLines d
      (((executed around path options (d.read? path)).map (Moment.entry .idle)).map
        (TraceEntry.printed ⟨options.minimal, around.color⟩))
      (run around path options (d.read? path)) (run around' path options' (d.read? path)) :=
  (inserts_run h path (d.read? path)).addsLines d

end Script

/-! ## Command lines -/

/-- Tracing is switched on in a command line and its environment: by the option, wherever it is
accepted, or by the variable. -/
inductive SwitchesTraceOn (arguments : List String) (environment : String → Option String) :
    List String → (String → Option String) → Prop
  | byOption {before after : List String} {flag : String} {request : Request} :
      flag ∈ Flag.traceArguments → arguments = before ++ after →
      Request.ofArguments? (before ++ flag :: after) = .ok request →
      SwitchesTraceOn arguments environment (before ++ flag :: after) environment
  | byVariable {environment' : String → Option String} : environment' "CASL_TRACE" = some "1" →
      (∀ name, name ≠ "CASL_TRACE" → environment' name = environment name) →
      SwitchesTraceOn arguments environment arguments environment'

namespace Directory

/-- What a command line writes to standard error, given how the message of a failure is shown. -/
def errorText (d : Directory here) (diagnostic : String → String)
    (environment : String → Option String) (arguments : List String) : String :=
  match Request.ofArguments? arguments with
  | .error e => diagnostic e.message
  | .ok request =>
    Script.errorText diagnostic d
      (request.script (.ofEnvironment environment) (request.input?.bind d.read?))

/-- The instructions that running a file in the directory executes. -/
def executed (d : Directory here) (environment : String → Option String) (path : String)
    (options : RunOptions) : List (Moment Unit) :=
  Script.executed (.ofEnvironment environment) path options (d.read? path)

end Directory

variable {arguments arguments' : List String} {environment environment' : String → Option String}
  {path : String} {options : RunOptions}

/-- Either way the command line asks for the same run, traced. -/
theorem SwitchesTraceOn.tracedLike
    (h : SwitchesTraceOn arguments environment arguments' environment')
    (hargs : Request.ofArguments? arguments = .ok (.run path options))
    (hoption : options.trace = false) (hvariable : environment "CASL_TRACE" ≠ some "1") :
    ∃ options', Request.ofArguments? arguments' = .ok (.run path options') ∧
      Script.TracedLike (.ofEnvironment environment) options (.ofEnvironment environment')
        options' := by
  have hsettings : (Surroundings.ofEnvironment environment).settings.trace = false := by
    simpa [Surroundings.ofEnvironment, Settings.ofEnvironment] using hvariable
  cases h with
  | byOption hflag hsplit haccepted =>
    obtain rfl := Request.ofArguments?_insert hflag hoption (hsplit ▸ hargs) haccepted
    exact ⟨options.traced, haccepted, by simp [hoption, hsettings], rfl, rfl, rfl, rfl, rfl, rfl⟩
  | byVariable hone hother =>
    refine ⟨options, hargs, by simp [hoption, hsettings], ?_, rfl, rfl, rfl, ?_, ?_⟩
    · simp [Surroundings.ofEnvironment, Settings.ofEnvironment, hone]
    · simp only [Surroundings.ofEnvironment, Settings.ofEnvironment]
      rw [hother "CASL_STEP_LIMIT" (by decide)]
    · simp only [Surroundings.ofEnvironment]
      rw [hother "CLICOLOR_FORCE" (by decide)]

/-- What a command line that asks for a run does. -/
theorem Directory.execute_run (d : Directory here) (environment : String → Option String)
    (hargs : Request.ofArguments? arguments = .ok (.run path options)) :
    d.execute environment arguments =
        Outcome.perform { directory := d }
          (Script.run (.ofEnvironment environment) path options (d.read? path)) ∧
      ∀ diagnostic, d.errorText diagnostic environment arguments =
        Script.errorText diagnostic d
          (Script.run (.ofEnvironment environment) path options (d.read? path)) := by
  simp only [execute, errorText, hargs]
  exact ⟨rfl, fun _ => rfl⟩

/-- **Tracing only observes.** Whatever the machine, its supervisor and the limit, a run with
tracing is the run without, with the instructions that it executed on record, and so are its
supervisor calls. A request for a run with tracing asked for has the same output, exit code and
files; on standard error it writes a line for each of these instructions, one after another and in
front of any diagnostic. So does a command line with tracing switched on: of how arguments are read,
this needs no more than `Request.ofArguments?_insert`, that the option may stand anywhere among
those of a run. -/
theorem tracing_only_observes :
    (∀ {σ : Type} (svc : Supervisor σ) (limit : Nat) (m : Machine σ),
      m.withTrace.run svc limit =
          Machine.recorded (some ((m.executed svc limit).map (Moment.entry svc)).toArray)
            (m.run svc limit) ∧
        (m.executed svc limit).length = (Machine.finalState (m.run svc limit)).steps - m.steps ∧
        m.withTrace.calls svc limit = m.calls svc limit) ∧
    (∀ {here : List String} (d : Directory here)
        (environment environment' : String → Option String)
        (arguments arguments' : List String) (path : String) (options : RunOptions),
      Request.ofArguments? arguments = .ok (.run path options) → options.trace = false →
      environment "CASL_TRACE" ≠ some "1" →
      SwitchesTraceOn arguments environment arguments' environment' →
      let quiet := d.execute environment arguments
      let traced := d.execute environment' arguments'
      let look : Appearance := ⟨options.minimal, (Surroundings.ofEnvironment environment).color⟩
      let lines := ((d.executed environment path options).map (Moment.entry .idle)).map
        (TraceEntry.printed look)
      traced = { quiet with trace := String.join lines } ∧ quiet.trace = "" ∧
        (∀ line ∈ lines, IsLine line) ∧
        ∀ diagnostic, d.errorText diagnostic environment' arguments' =
          String.join lines ++ d.errorText diagnostic environment arguments) ∧
    (∀ (rest : List String) (path : String) (options : RunOptions), options.trace = false →
      Request.ofArguments? ("run" :: rest) = .ok (.run path options) →
      Request.ofArguments? ("run" :: "--trace" :: rest) = .ok (.run path options.traced)) ∧
    ∀ {here : List String} (d : Directory here) (around around' : Surroundings) (path : String)
        (options options' : RunOptions), Script.TracedLike around options around' options' →
      Script.AddsLines d
        (((Script.executed around path options (d.read? path)).map (Moment.entry .idle)).map
          (TraceEntry.printed ⟨options.minimal, around.color⟩))
        (Script.run around path options (d.read? path))
        (Script.run around' path options' (d.read? path)) := by
  refine ⟨fun svc limit m => ⟨Machine.run_withTrace svc limit m,
    Machine.length_executed svc limit m, Machine.calls_withRecord svc limit (some #[]) m⟩, ?_,
    fun rest path options => Request.ofArguments?_run_trace,
    fun d around around' path options options' hlike => hlike.addsLines d path⟩
  intro here d environment environment' arguments arguments' path options hargs hoption hvariable
    hon
  obtain ⟨options', hargs', hlike⟩ := hon.tracedLike hargs hoption hvariable
  obtain ⟨hquiet, hquietError⟩ := d.execute_run environment hargs
  obtain ⟨htraced, htracedError⟩ := d.execute_run environment' hargs'
  have hadds := hlike.addsLines d path
  intro quiet traced look lines
  refine ⟨?_, ?_, hadds.isLine, fun diagnostic => ?_⟩
  · rw [show traced = _ from htraced, show quiet = _ from hquiet]
    exact hadds.outcome_eq
  · rw [show quiet = _ from hquiet]
    exact hadds.trace_eq
  · rw [htracedError, hquietError]
    exact hadds.errorText_eq diagnostic

/-- A program of one instruction, run without and with the option between its arguments. -/
theorem tracing_only_observes_lad :
    let d : Directory := ⟨[(["p.cas"], [32, 76, 65, 68, 32, 71, 82, 49, 44, 55])]⟩
    let look : Appearance := ⟨false, (Surroundings.ofEnvironment fun _ => none).color⟩
    d.read? "p.cas" = some [32, 76, 65, 68, 32, 71, 82, 49, 44, 55] ∧
      d.execute (fun _ => none) ["run", "--steps=5", "-t", "p.cas"] =
        { d.execute (fun _ => none) ["run", "--steps=5", "p.cas"] with
          trace := String.join (((d.executed (fun _ => none) "p.cas" { steps := some 5 }).map
            (Moment.entry .idle)).map (TraceEntry.printed look)) } ∧
      (d.execute (fun _ => none) ["run", "--steps=5", "p.cas"]).trace = "" ∧
      ∃ lines, Script.AddsLines d lines
        (Script.run {} "p.cas" { steps := some 5 } (d.read? "p.cas"))
        (Script.run {} "p.cas" { steps := some 5, trace := true } (d.read? "p.cas")) := by
  intro d look
  have hargs : Request.ofArguments? ["run", "--steps=5", "p.cas"] =
      .ok (.run "p.cas" { steps := some 5 }) := by decide +kernel
  have htraced : Request.ofArguments? ["run", "--steps=5", "-t", "p.cas"] =
      .ok (.run "p.cas" { steps := some 5, trace := true }) := by decide +kernel
  have hon : SwitchesTraceOn ["run", "--steps=5", "p.cas"] (fun _ => none)
      (["run", "--steps=5"] ++ "-t" :: ["p.cas"]) (fun _ => none) :=
    .byOption (by simp [Flag.traceArguments]) rfl htraced
  have hlines := tracing_only_observes.2.1 d _ _ _ _ _ _ hargs rfl (by simp) hon
  have hlike : Script.TracedLike {} { steps := some 5 } {} { steps := some 5, trace := true } :=
    ⟨rfl, rfl, rfl, rfl, rfl, rfl, rfl⟩
  exact ⟨by decide +kernel, hlines.1, hlines.2.1, _,
    tracing_only_observes.2.2.2 d _ _ _ _ _ hlike⟩

end Comet
