import Comet.Cli.Arguments
import Comet.Proofs.Except

/-!
# Asking for a trace

Wherever the option for tracing is put into the arguments of a run: if they are still accepted, they
ask for the same run, traced.

* `Reads`: how arguments are read onto a draft, one or two at a time, without asking for help;
  `requestOnto_eq_run` says that this is how arguments ask for a run.
* `Reads.traced`: arguments that leave tracing off are read in the same way onto a traced draft.
* `Reads.insert`: so the option may stand anywhere, as long as it is read as an option.
* `ofArguments?_insert`, `ofArguments?_run_trace`: the same for whole command lines.
-/

namespace Comet

/-- The same options with tracing on. -/
def RunOptions.traced (o : RunOptions) : RunOptions := { o with trace := true }

namespace Draft

def traced (d : Draft) : Draft := { d with options := d.options.traced }

/-- Tracing has not been asked for. -/
def Quiet (d : Draft) : Prop := d.options.trace = false

variable {d d' : Draft}

theorem addName_quiet {command : Subcommand} {name : String}
    (h : d.addName command name = .ok d') (hquiet : d'.Quiet) :
    d.Quiet ∧ d.traced.addName command name = .ok d'.traced := by
  unfold addName at h ⊢
  split at h
  · cases h
  next hcount =>
  split at h
  · cases h
  next hname =>
  cases h
  exact ⟨hquiet, (if_neg hcount).trans (if_neg hname)⟩

theorem switch_quiet {flag : Flag} (h : d.switch flag = .ok d') (hquiet : d'.Quiet) :
    d.Quiet ∧ d.traced.switch flag = .ok d'.traced := by
  cases flag with
  | trace =>
    simp only [switch] at h
    split at h
    · cases h
    · cases h; cases hquiet
  | minimal =>
    simp only [switch] at h ⊢
    split at h
    · cases h
    next hnew =>
    cases h
    exact ⟨hquiet, if_neg hnew⟩
  | steps | entry | help =>
    cases h
    exact ⟨hquiet, rfl⟩

theorem assign_quiet {flag : Flag} {value : String} (h : d.assign flag value = .ok d')
    (hquiet : d'.Quiet) : d.Quiet ∧ d.traced.assign flag value = .ok d'.traced := by
  cases flag with
  | steps =>
    simp only [assign] at h ⊢
    split at h
    · cases h
    next hnew =>
    rw [if_neg (show ¬d.traced.options.steps.isSome from hnew)]
    split at h
    · cases h
    · cases h
      exact ⟨hquiet, rfl⟩
  | entry =>
    simp only [assign] at h ⊢
    split at h
    · cases h
    next hnew =>
    rw [if_neg (show ¬d.traced.options.entry.isSome from hnew)]
    split at h
    · cases h
    · cases h
      exact ⟨hquiet, rfl⟩
  | trace | minimal | help =>
    cases h
    exact ⟨hquiet, rfl⟩

end Draft

namespace OptionStep

def traced : OptionStep → OptionStep
  | proceed d => proceed d.traced
  | awaitValue flag d => awaitValue flag d.traced
  | help => help

/-- Reading goes on with a draft for which tracing has not been asked. -/
def Quiet : OptionStep → Prop
  | proceed d | awaitValue _ d => d.Quiet
  | help => False

end OptionStep

namespace Subcommand

variable {command : Subcommand} {d d' : Draft} {step : OptionStep}

/-- The shape of an argument, which is plain where only names are read. -/
def shape (namesOnly : Bool) (argument : String) : ArgumentShape :=
  if namesOnly then .plain else ArgumentShape.of argument

/-- What comes of one argument. -/
def argument (command : Subcommand) (d : Draft) (namesOnly : Bool) (argument : String) :
    Except UsageError OptionStep :=
  match shape namesOnly argument with
  | .endOfOptions => .ok (.proceed d)
  | .long name value => command.longOption d name value
  | .short letters => command.shortOptions d letters
  | .plain => (d.addName command argument).map .proceed

theorem map_proceed_eq_ok {x : Except UsageError Draft} :
    x.map .proceed = .ok step ↔ ∃ d', x = .ok d' ∧ step = .proceed d' := by
  cases x <;> simp [Except.map, eq_comm]

theorem map_proceed_quiet {x traced : Except UsageError Draft}
    (hx : ∀ {d'}, x = .ok d' → d'.Quiet → d.Quiet ∧ traced = .ok d'.traced)
    (h : x.map .proceed = .ok step) (hquiet : step.Quiet) :
    d.Quiet ∧ traced.map .proceed = .ok step.traced := by
  obtain ⟨d', hd', rfl⟩ := map_proceed_eq_ok.1 h
  obtain ⟨hd, htraced⟩ := hx hd' hquiet
  exact ⟨hd, by rw [htraced]; rfl⟩

theorem longOption_quiet {name : String} {value : Option String}
    (h : command.longOption d name value = .ok step) (hquiet : step.Quiet) :
    d.Quiet ∧ command.longOption d.traced name value = .ok step.traced := by
  unfold longOption at h ⊢
  generalize command.flags.find? (·.long == name) = flag? at h ⊢
  cases flag? with
  | none => cases h
  | some flag =>
    cases value with
    | none =>
      simp only at h ⊢
      split at h
      · cases h; cases hquiet
      next hhelp =>
      rw [if_neg hhelp]
      split at h
      · next hvalue =>
        cases h
        exact ⟨hquiet, if_pos hvalue⟩
      · next hvalue =>
        rw [if_neg hvalue]
        exact map_proceed_quiet Draft.switch_quiet h hquiet
    | some value =>
      simp only at h ⊢
      split at h
      · next hvalue =>
        rw [if_pos hvalue]
        exact map_proceed_quiet Draft.assign_quiet h hquiet
      · cases h

theorem shortOptions_quiet {letters : List Char}
    (h : command.shortOptions d letters = .ok step) (hquiet : step.Quiet) :
    d.Quiet ∧ command.shortOptions d.traced letters = .ok step.traced := by
  induction letters generalizing d with
  | nil =>
    cases h
    exact ⟨hquiet, rfl⟩
  | cons letter rest ih =>
    rw [shortOptions] at h ⊢
    generalize command.flags.find? (·.short == letter) = flag? at h ⊢
    cases flag? with
    | none => cases h
    | some flag =>
      simp only at h ⊢
      split at h
      · cases h; cases hquiet
      next hhelp =>
      rw [if_neg hhelp]
      split at h
      · next hvalue =>
        -- the value is what follows the letter
        rw [if_pos hvalue]
        split at h
        · cases h
          exact ⟨hquiet, rfl⟩
        all_goals exact map_proceed_quiet Draft.assign_quiet h hquiet
      · next hvalue =>
        rw [if_neg hvalue]
        cases hswitch : d.switch flag with
        | error e => rw [hswitch] at h; cases h
        | ok d' =>
          rw [hswitch] at h
          obtain ⟨hd', hrest⟩ := ih h
          obtain ⟨hd, htraced⟩ := Draft.switch_quiet hswitch hd'
          exact ⟨hd, by rw [htraced]; exact hrest⟩

theorem argument_quiet {namesOnly : Bool} {argument : String}
    (h : command.argument d namesOnly argument = .ok step) (hquiet : step.Quiet) :
    d.Quiet ∧ command.argument d.traced namesOnly argument = .ok step.traced := by
  unfold Subcommand.argument at h ⊢
  generalize shape namesOnly argument = given at h ⊢
  cases given with
  | endOfOptions =>
    cases h
    exact ⟨hquiet, rfl⟩
  | long name value => exact longOption_quiet h hquiet
  | short letters => exact shortOptions_quiet h hquiet
  | plain => exact map_proceed_quiet Draft.addName_quiet h hquiet

/-! ## Reading arguments -/

section

variable {namesOnly : Bool} {argument value : String} {rest : List String} {flag : Flag}

theorem requestOnto_of_error {e : UsageError}
    (h : command.argument d namesOnly argument = .error e) (rest : List String) :
    command.requestOnto d namesOnly (argument :: rest) = .error e :=
  requestOnto.eq_2 _ _ _ _ _ _ h

theorem requestOnto_of_proceed (h : command.argument d namesOnly argument = .ok (.proceed d'))
    (rest : List String) :
    command.requestOnto d namesOnly (argument :: rest) =
      command.requestOnto d' (namesOnly || shape namesOnly argument = .endOfOptions) rest :=
  requestOnto.eq_4 _ _ _ _ _ _ h

theorem requestOnto_of_awaitValue
    (h : command.argument d namesOnly argument = .ok (.awaitValue flag d')) (value : String)
    (rest : List String) :
    command.requestOnto d namesOnly (argument :: value :: rest) =
      if ArgumentShape.of value = .plain then
        d'.assign flag value >>= fun d'' => command.requestOnto d'' namesOnly rest
      else .error (.missingValue flag.long) := by
  rw [requestOnto.eq_6 _ _ _ _ _ _ _ _ h]
  cases d'.assign flag value <;> rfl

end

/-- How arguments are read onto a draft: one by one, or an option with its value behind it. -/
inductive Reads (command : Subcommand) : Draft → Bool → List String → Draft → Prop
  | done {d : Draft} {namesOnly : Bool} : Reads command d namesOnly [] d
  | one {d d' final : Draft} {namesOnly : Bool} {argument : String} {rest : List String} :
      command.argument d namesOnly argument = .ok (.proceed d') →
      Reads command d' (namesOnly || shape namesOnly argument = .endOfOptions) rest final →
      Reads command d namesOnly (argument :: rest) final
  | option {d d' d'' final : Draft} {namesOnly : Bool} {argument value : String} {flag : Flag}
      {rest : List String} :
      command.argument d namesOnly argument = .ok (.awaitValue flag d') →
      ArgumentShape.of value = .plain → d'.assign flag value = .ok d'' →
      Reads command d'' namesOnly rest final →
      Reads command d namesOnly (argument :: value :: rest) final

namespace Reads

variable {final final' : Draft} {namesOnly : Bool} {arguments : List String}

/-- Arguments that leave tracing off are read in the same way where it is on. -/
theorem traced (h : Reads command d namesOnly arguments final) (hquiet : final.Quiet) :
    d.Quiet ∧ Reads command d.traced namesOnly arguments final.traced := by
  induction h with
  | done => exact ⟨hquiet, .done⟩
  | one hargument _ ih =>
    obtain ⟨hd', hrest⟩ := ih hquiet
    obtain ⟨hd, htraced⟩ := argument_quiet hargument hd'
    exact ⟨hd, .one htraced hrest⟩
  | option hargument hplain hassign _ ih =>
    obtain ⟨hd'', hrest⟩ := ih hquiet
    obtain ⟨hd', hassigned⟩ := Draft.assign_quiet hassign hd''
    obtain ⟨hd, htraced⟩ := argument_quiet hargument hd'
    exact ⟨hd, .option htraced hplain hassigned hrest⟩

end Reads

/-- **Asking for a run** is reading a draft that names a file. -/
theorem requestOnto_eq_run {namesOnly : Bool} {arguments : List String} {path : String}
    {options : RunOptions} :
    command.requestOnto d namesOnly arguments = .ok (.run path options) ↔
      ∃ final, Reads command d namesOnly arguments final ∧
        final.request command = .ok (.run path options) := by
  constructor
  · intro h
    fun_induction requestOnto command d namesOnly arguments with
    | case1 d => exact ⟨d, .done, h⟩
    | case4 d namesOnly argument _ _ d' rest hstep ih =>
      obtain ⟨final, hrest, hfinal⟩ := ih h
      exact ⟨final, .one hstep hrest, hfinal⟩
    | case7 d namesOnly argument _ _ flag d' value rest hstep hplain d'' hassign ih =>
      obtain ⟨final, hrest, hfinal⟩ := ih h
      exact ⟨final, .option hstep hplain hassign hrest, hfinal⟩
    | case2 | case3 | case5 | case6 | case8 => cases h
  · rintro ⟨final, hreads, hfinal⟩
    induction hreads with
    | done => exact hfinal
    | one hargument _ ih => rw [requestOnto_of_proceed hargument, ih hfinal]
    | option hargument hplain hassign _ ih =>
      rw [requestOnto_of_awaitValue hargument, if_pos hplain, hassign, ok_bind, ih hfinal]

/-- What a draft asks for, if that is a run. -/
theorem request_eq_run {path : String} {options : RunOptions} :
    d.request command = .ok (.run path options) ↔
      command = .run ∧ d.names.head? = some path ∧ d.options = options := by
  obtain ⟨names, o⟩ := d
  cases names <;> cases command <;> simp [Draft.request]

theorem exists_argument {namesOnly : Bool} {argument : String} {rest : List String}
    {request : Request} (h : command.requestOnto d namesOnly (argument :: rest) = .ok request) :
    ∃ step, command.argument d namesOnly argument = .ok step := by
  cases hargument : command.argument d namesOnly argument with
  | ok step => exact ⟨step, rfl⟩
  | error e => cases (requestOnto_of_error hargument rest).symm.trans h

/-- Where a run reads only names, it needs to have none so far to take another. -/
theorem names_eq_nil {argument : String} {rest : List String} {request : Request}
    (h : Subcommand.run.requestOnto d true (argument :: rest) = .ok request) :
    d.names = [] ∧ ∃ d', d'.names ≠ [] ∧ Subcommand.run.requestOnto d' true rest = .ok request := by
  obtain ⟨step, hargument⟩ := exists_argument h
  obtain ⟨d', hname, rfl⟩ := map_proceed_eq_ok.1 hargument
  rw [requestOnto_of_proceed hargument, Bool.true_or] at h
  unfold Draft.addName at hname
  split at hname
  · cases hname
  next hcount =>
  split at hname
  · cases hname
  · cases hname
    have hlength : d.names.length = 0 := by simpa [mostNames] using hcount
    exact ⟨List.eq_nil_of_length_eq_zero hlength, _, by simp, h⟩

end Subcommand

/-! ## The option for tracing -/

/-- The ways to write the option. -/
def Flag.traceArguments : List String := ["--trace", "-t"]

namespace Subcommand

variable {d : Draft} {flag : String}

/-- The option is long or a letter alone. -/
theorem shape_traceArguments (hflag : flag ∈ Flag.traceArguments) :
    ArgumentShape.of flag = .long "trace" none ∨ ArgumentShape.of flag = .short ['t'] := by
  revert flag
  decide +kernel

theorem shape_traceArguments_ne (hflag : flag ∈ Flag.traceArguments) :
    ArgumentShape.of flag ≠ .plain ∧ ArgumentShape.of flag ≠ .endOfOptions := by
  rcases shape_traceArguments hflag with hshape | hshape <;> simp [hshape]

/-- Where it is read as an option, tracing is switched on. -/
theorem argument_trace {step : OptionStep} (hflag : flag ∈ Flag.traceArguments)
    (h : Subcommand.run.argument d false flag = .ok step) : step = .proceed d.traced := by
  have hswitch {d' : Draft} (h : d.switch .trace = .ok d') : d' = d.traced := by
    simp only [Draft.switch] at h
    split at h <;> cases h
    rfl
  have hoption : shape false flag = ArgumentShape.of flag := rfl
  unfold Subcommand.argument at h
  rw [hoption] at h
  rcases shape_traceArguments hflag with hshape | hshape
  · have hfind : Subcommand.run.flags.find? (·.long == "trace") = some .trace := by decide
    rw [hshape] at h
    simp only [longOption, hfind, reduceCtorEq, if_false, Flag.takesValue] at h
    obtain ⟨d', hd', rfl⟩ := map_proceed_eq_ok.1 h
    rw [hswitch hd']
  · have hfind : Subcommand.run.flags.find? (·.short == 't') = some .trace := by decide
    rw [hshape] at h
    simp only [shortOptions, hfind, reduceCtorEq, if_false, Flag.takesValue] at h
    split at h
    · cases h
    · next d' hd' =>
      cases h
      rw [hswitch hd']

variable {namesOnly : Bool} {before after : List String} {final : Draft} {path : String}
  {options : RunOptions} {request : Request}

/-- In front of arguments that ask for a run, the option asks for a traced run. -/
theorem requestOnto_cons_trace (hflag : flag ∈ Flag.traceArguments)
    (hquiet : options.trace = false)
    (h : Subcommand.run.requestOnto d namesOnly after = .ok (.run path options))
    (h' : Subcommand.run.requestOnto d namesOnly (flag :: after) = .ok request) :
    request = .run path options.traced := by
  obtain ⟨final, hreads, hfinal⟩ := requestOnto_eq_run.1 h
  obtain ⟨-, hpath, rfl⟩ := request_eq_run.1 hfinal
  cases namesOnly with
  | true =>
    -- read as a name, it would be the only one
    obtain ⟨hempty, d', hd', h'⟩ := names_eq_nil h'
    cases after with
    | nil =>
      cases hreads
      rw [hempty] at hpath
      cases hpath
    | cons argument rest => exact absurd (names_eq_nil h').1 hd'
  | false =>
    obtain ⟨step, hargument⟩ := exists_argument h'
    obtain rfl := argument_trace hflag hargument
    have hshape : shape false flag ≠ .endOfOptions := (shape_traceArguments_ne hflag).2
    have htraced : Subcommand.run.requestOnto d.traced false after =
        .ok (.run path final.options.traced) :=
      requestOnto_eq_run.2 ⟨final.traced, (hreads.traced hquiet).2,
        request_eq_run.2 ⟨rfl, hpath, rfl⟩⟩
    rw [requestOnto_of_proceed hargument, decide_eq_false hshape, Bool.or_false, htraced] at h'
    exact (Except.ok.inj h').symm

/-- **The option may stand anywhere** among arguments that ask for a run. -/
theorem Reads.insert (hflag : flag ∈ Flag.traceArguments) (hquiet : options.trace = false)
    (h : Reads .run d namesOnly (before ++ after) final)
    (hfinal : final.request .run = .ok (.run path options))
    (h' : Subcommand.run.requestOnto d namesOnly (before ++ flag :: after) = .ok request) :
    request = .run path options.traced := by
  generalize harguments : before ++ after = arguments at h
  induction h generalizing before with
  | done =>
    obtain ⟨rfl, rfl⟩ := List.append_eq_nil_iff.1 harguments
    exact requestOnto_cons_trace hflag hquiet (requestOnto_eq_run.2 ⟨_, .done, hfinal⟩) h'
  | one hargument hrest ih =>
    rcases List.append_eq_cons_iff.1 harguments with ⟨rfl, rfl⟩ | ⟨before, rfl, rfl⟩
    · have hafter := requestOnto_eq_run.2 ⟨_, .one hargument hrest, hfinal⟩
      exact requestOnto_cons_trace hflag hquiet hafter h'
    · rw [List.cons_append, requestOnto_of_proceed hargument] at h'
      exact ih hfinal h' rfl
  | option hargument hplain hassign hrest ih =>
    rcases List.append_eq_cons_iff.1 harguments with ⟨rfl, rfl⟩ | ⟨before, rfl, hbehind⟩
    · have hafter := requestOnto_eq_run.2 ⟨_, .option hargument hplain hassign hrest, hfinal⟩
      exact requestOnto_cons_trace hflag hquiet hafter h'
    rw [List.cons_append] at h'
    rcases List.append_eq_cons_iff.1 hbehind.symm with ⟨rfl, rfl⟩ | ⟨before, rfl, rfl⟩
    · -- an option is no value
      rw [List.nil_append, requestOnto_of_awaitValue hargument,
        if_neg (shape_traceArguments_ne hflag).1] at h'
      cases h'
    · rw [List.cons_append, requestOnto_of_awaitValue hargument, if_pos hplain, hassign,
        ok_bind] at h'
      exact ih hfinal h' rfl

end Subcommand

namespace Request

variable {arguments before after : List String} {flag path : String} {options : RunOptions}
  {request : Request}

theorem helpTopic_ne_run (rest : List String) : helpTopic rest ≠ .ok (.run path options) := by
  match rest with
  | [] => exact nofun
  | [topic] =>
    rw [helpTopic]
    split <;> exact nofun
  | _ :: _ :: _ => exact nofun

/-- Without a subcommand before it, the option is not accepted. -/
theorem ofArgumentsAfter_trace (hflag : flag ∈ Flag.traceArguments) {file : Option String}
    {namesOnly : Bool} (h : ofArgumentsAfter file namesOnly after = .ok (.run path options)) :
    ofArgumentsAfter file namesOnly (flag :: after) ≠ .ok request := by
  intro h'
  cases namesOnly with
  | true =>
    -- read as a name, it would be the file, and nothing else could be
    rw [ofArgumentsAfter] at h'
    simp only [if_true, Bool.true_eq_false, false_and, if_false] at h'
    split at h'
    · cases h'
    next hfile =>
    split at h'
    · cases h'
    cases after with
    | nil =>
      obtain rfl : file = none := by simpa using hfile
      cases h
    | cons argument rest => cases h'
  | false =>
    rw [ofArgumentsAfter] at h'
    rcases Subcommand.shape_traceArguments hflag with hshape | hshape <;> simp [hshape] at h'

theorem ofArgumentsAfter_insert (hflag : flag ∈ Flag.traceArguments)
    (hquiet : options.trace = false) {file : Option String} {namesOnly : Bool}
    (h : ofArgumentsAfter file namesOnly (before ++ after) = .ok (.run path options))
    (h' : ofArgumentsAfter file namesOnly (before ++ flag :: after) = .ok request) :
    request = .run path options.traced := by
  induction before generalizing file namesOnly with
  | nil => exact absurd h' (ofArgumentsAfter_trace hflag h)
  | cons argument before ih =>
    rw [List.cons_append, ofArgumentsAfter] at h h'
    generalize (if namesOnly = true then ArgumentShape.plain else ArgumentShape.of argument) = shape
      at h h'
    cases shape with
    | endOfOptions => exact ih h h'
    | long name value =>
      simp only at h
      split_ifs at h <;> cases h
    | short letters =>
      simp only at h
      split_ifs at h <;> cases h
    | plain =>
      simp only at h h'
      generalize (if namesOnly = true then none else Subcommand.ofName? argument) = command? at h h'
      cases command? with
      | some command =>
        obtain ⟨final, hreads, hfinal⟩ := Subcommand.requestOnto_eq_run.1 h
        obtain ⟨rfl, -⟩ := Subcommand.request_eq_run.1 hfinal
        exact hreads.insert hflag hquiet hfinal h'
      | none =>
        simp only at h h'
        split at h
        · exact absurd h (helpTopic_ne_run _)
        next hhelp =>
        rw [if_neg hhelp] at h'
        split at h
        · cases h
        next hfile =>
        rw [if_neg hfile] at h'
        split at h
        · cases h
        next hempty =>
        rw [if_neg hempty] at h'
        exact ih h h'

/-- **Adding the option** for tracing to a command line that asks for a run without it: if that is
still accepted, it asks for the same run, traced. -/
theorem ofArguments?_insert (hflag : flag ∈ Flag.traceArguments) (hquiet : options.trace = false)
    (h : ofArguments? (before ++ after) = .ok (.run path options))
    (h' : ofArguments? (before ++ flag :: after) = .ok request) :
    request = .run path options.traced :=
  ofArgumentsAfter_insert hflag hquiet h h'

/-- Behind the name of the subcommand the option is accepted. -/
theorem ofArguments?_run_trace (hquiet : options.trace = false)
    (h : ofArguments? ("run" :: after) = .ok (.run path options)) :
    ofArguments? ("run" :: "--trace" :: after) = .ok (.run path options.traced) := by
  have hshape : ArgumentShape.of "run" = .plain := by decide +kernel
  have hname : Subcommand.ofName? "run" = some .run := by decide
  have hrun (rest : List String) :
      ofArguments? ("run" :: rest) = Subcommand.run.requestOnto {} false rest := by
    rw [ofArguments?, ofArgumentsAfter]
    simp only [Bool.false_eq_true, if_false, hshape, hname]
  have hargument : Subcommand.run.argument {} false "--trace" =
      .ok (.proceed (Draft.traced {})) := by decide +kernel
  rw [hrun] at h ⊢
  obtain ⟨final, hreads, hfinal⟩ := Subcommand.requestOnto_eq_run.1 h
  obtain ⟨-, hpath, rfl⟩ := Subcommand.request_eq_run.1 hfinal
  rw [Subcommand.requestOnto_of_proceed hargument]
  exact Subcommand.requestOnto_eq_run.2 ⟨final.traced, (hreads.traced hquiet).2,
    Subcommand.request_eq_run.2 ⟨rfl, hpath, rfl⟩⟩

end Request

end Comet
