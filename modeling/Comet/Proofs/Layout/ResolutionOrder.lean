import Comet.Proofs.Layout.Acceptance
import Comet.Proofs.Layout.ErrorPositions
import Comet.Proofs.Source.Lines

/-!
# Which error pass 2 ends in

Pass 2 emits the code of the statements in source order and looks at the operand of START behind
all of them. So of several statements in error it reports the first that is not START, and START
only if it is the only one.

* `Statement.offence?`: what is wrong with one statement.
* `error?_codeOnto`, `error?_entry?`: what the two parts of pass 2 find.
* `error?_image?`: both together, as a search in `resolutionOrder`. `errors_in_resolution_order`
  says it of source texts and compares it with the order of the source.
* `earliest_offence_unreported`: a text whose first line is in error, and the second is reported.
-/

namespace Comet

/-! ## Statements in error -/

namespace Statement

/-- The error of a statement that cannot be encoded, or of a START whose operand has no address. -/
def offence? (T : SymbolTable) (s : Statement) : Option AsmError :=
  (error? (s.code? T)).or
    (if s.isStart then s.args.head?.bind fun arg => error? (s.address? T arg) else none)

variable {T : SymbolTable} {s : Statement} {e : AsmError}

theorem offence?_of_not_start (h : s.isStart = false) :
    s.offence? T = error? (s.code? T) := by
  rw [offence?, if_neg (Bool.eq_false_iff.1 h), Option.or_none]

/-- A START that has been placed has no code to emit. -/
theorem code?_of_start (hshaped : s.Shaped) (h : s.isStart = true) : s.code? T = .ok [] := by
  have hm : s.mnemonic = .directive .start := beq_iff_eq.1 h
  obtain ⟨form, hform⟩ := s.exists_form?_iff.2 hshaped
  rw [code?, hform]
  have hdeals := form?_eq_ok.1 hform
  generalize s.args = args at hdeals
  rw [hm] at hdeals
  cases hdeals with
  | start entry => rfl

theorem offence?_of_start (hshaped : s.Shaped) (h : s.isStart = true) :
    s.offence? T = s.args.head?.bind fun arg => error? (s.address? T arg) := by
  rw [offence?, code?_of_start hshaped h, if_pos h]
  rfl

theorem Reports.line_eq (h : s.Reports e) : e.line = s.line := by
  cases h <;> rfl

/-- An error is on the line of the statement that it is about. -/
theorem line_of_offence? (h : s.offence? T = some e) : e.line = s.line := by
  rcases Option.or_eq_some_iff.1 h with hcode | ⟨-, hentry⟩
  · exact (s.fails_code? T e (error?_eq_some.1 hcode)).line_eq
  · split at hentry
    · obtain ⟨arg, harg, haddress⟩ := Option.bind_eq_some_iff.1 hentry
      have hmem : arg ∈ s.args := List.mem_of_mem_head? harg
      exact (fails_address? hmem e (error?_eq_some.1 haddress)).line_eq
    · cases hentry

end Statement

/-! ## Searching a program -/

/-- Statements in the order in which pass 2 resolves their operands: START comes last. -/
def resolutionOrder (ss : List Statement) : List Statement :=
  ss.filter (!·.isStart) ++ ss.filter Statement.isStart

/-- Where one search finds nothing, another that is like it elsewhere need not look. -/
theorem findSome?_filter {α β : Type} {p : α → Bool} {f g : α → Option β} {xs : List α}
    (hnone : ∀ x ∈ xs, p x = false → f x = none) (hsame : ∀ x ∈ xs, p x = true → f x = g x) :
    xs.findSome? f = (xs.filter p).findSome? g := by
  induction xs with
  | nil => rfl
  | cons x xs ih =>
    rw [List.forall_mem_cons] at hnone hsame
    rw [List.findSome?_cons, ih hnone.2 hsame.2]
    cases hp : p x with
    | true => rw [List.filter_cons_of_pos hp, List.findSome?_cons, hsame.1 hp]
    | false => rw [List.filter_cons_of_neg (Bool.eq_false_iff.1 hp), hnone.1 hp]

namespace Line

theorem line_eq_number {line : Line} {s : Statement}
    (h : Reading.statement? line.statement? = some s) : s.line = line.number := by
  have hreads := line.reads_statement?
  cases hread : line.statement? with
  | error e => rw [hread] at h; cases h
  | ok s? =>
    rw [hread] at h hreads
    exact (hreads s h).number

/-- The statements of a source text stand one below the other. -/
theorem pairwise_line_program (source : List Char) :
    (program (split source)).Pairwise fun s t => s.line < t.line := by
  have hlines : (split source).Pairwise fun l l' => l.number < l'.number := by
    rw [← List.pairwise_map (f := number) (R := (· < ·)), map_number_split]
    exact List.pairwise_lt_range'
  have hread : (throughEnd (split source)).Pairwise fun l l' => l.number < l'.number :=
    hlines.sublist (throughFirst_sublist _ _)
  refine hread.filterMap _ fun l l' hlt s hs s' hs' => ?_
  rwa [line_eq_number hs, line_eq_number hs']

end Line

namespace Layout

variable {T : SymbolTable} {ss : List Statement}

/-! ## The two parts of pass 2 -/

/-- **Emitting code** fails at the first statement that cannot be encoded. -/
theorem error?_codeOnto (words : Array Word) (ps : List Placed) :
    error? (codeOnto T words ps) =
      (ps.map (·.statement)).findSome? fun s => error? (s.code? T) := by
  induction ps generalizing words with
  | nil => rfl
  | cons p ps ih =>
    rw [codeOnto, List.map_cons, List.findSome?_cons]
    cases p.statement.code? T with
    | error e => rfl
    | ok code => exact ih _

/-- That is never START, so it is the first of the others that is in error. -/
theorem findSome?_code? (hshaped : ∀ s ∈ ss, s.Shaped) :
    ss.findSome? (fun s => error? (s.code? T)) =
      (ss.filter (!·.isStart)).findSome? (Statement.offence? T) := by
  refine findSome?_filter (fun s hs hp => ?_) fun s hs hp => ?_
  · rw [Statement.code?_of_start (hshaped s hs) (by simpa using hp), error?_ok]
  · exact (Statement.offence?_of_not_start (by simpa using hp)).symm

/-- **The entry address** is missing exactly if START is in error. -/
theorem error?_entry? (hshaped : ∀ s ∈ ss, s.Shaped) (hstarts : ss.countP Statement.isStart ≤ 1) :
    (error? <| entry? (ofStatements ss) T) =
      (ss.filter Statement.isStart).findSome? (Statement.offence? T) := by
  have hfind :
      (ofStatements ss).start?.map (·.statement) = (ss.filter Statement.isStart).head? := by
    rw [List.head?_filter]
    exact map_find?_ofStatements ss
  have hlength : (ss.filter Statement.isStart).length ≤ 1 := by
    rwa [← List.countP_eq_length_filter]
  obtain ⟨start, hstart⟩ := eq_toList_of_length_le hlength
  rw [hstart] at hfind
  rw [hstart, entry?]
  cases start with
  | none =>
    rw [Option.map_eq_none_iff.1 hfind]
    rfl
  | some s =>
    obtain ⟨p, hp, rfl⟩ := Option.map_eq_some_iff.1 hfind
    have hmem : p.statement ∈ ss.filter Statement.isStart := by simp [hstart]
    obtain ⟨hmem, hisStart⟩ := List.mem_filter.1 hmem
    simp only [hp, Option.toList_some, List.findSome?_singleton,
      Statement.offence?_of_start (hshaped _ hmem) hisStart]
    cases p.statement.args with
    | nil => rfl
    | cons arg args => rfl

/-- **Pass 2** ends in the first error in the order of resolution. -/
theorem error?_image? (hshaped : ∀ s ∈ ss, s.Shaped) (hstarts : ss.countP Statement.isStart ≤ 1) :
    error? ((ofStatements ss).image? T) =
      (resolutionOrder ss).findSome? (Statement.offence? T) := by
  rw [resolutionOrder, List.findSome?_append, ← findSome?_code? hshaped,
    ← error?_entry? hshaped hstarts]
  have hcode := error?_codeOnto (T := T) #[] (placedFrom 0 ss)
  rw [map_statement_placedFrom] at hcode
  rw [← hcode]
  exact error?_bind_const _ _ _

/-! ## Source order -/

/-- Where no START is in error, the order of resolution is as good as that of the source. -/
theorem findSome?_resolutionOrder (h : ∀ s ∈ ss, s.isStart = true → s.offence? T = none) :
    (resolutionOrder ss).findSome? (Statement.offence? T) =
      ss.findSome? (Statement.offence? T) := by
  have hstart : (ss.filter Statement.isStart).findSome? (Statement.offence? T) = none := by
    rw [List.findSome?_eq_none_iff]
    exact fun s hs => h s (List.mem_filter.1 hs).1 (List.mem_filter.1 hs).2
  rw [resolutionOrder, List.findSome?_append, hstart, Option.or_none]
  exact (findSome?_filter (fun s hs hp => h s hs (by simpa using hp)) fun _ _ _ => rfl).symm

/-- Whatever is reported, no other statement than START is in error on a line above. -/
theorem offence?_of_line_lt {e : AsmError} (hlines : ss.Pairwise fun s t => s.line < t.line)
    (h : (resolutionOrder ss).findSome? (Statement.offence? T) = some e) {s : Statement}
    (hs : s ∈ ss) (hlt : s.line < e.line) (hstart : s.isStart = false) : s.offence? T = none := by
  have hmem : s ∈ ss.filter (!·.isStart) := List.mem_filter.2 ⟨hs, by simp [hstart]⟩
  rw [resolutionOrder, List.findSome?_append] at h
  rcases Option.or_eq_some_iff.1 h with h | ⟨hnone, -⟩
  · obtain ⟨before, t, after, heq, ht, hbefore⟩ := List.findSome?_eq_some_iff.1 h
    have hline := Statement.line_of_offence? ht
    have hsorted := hlines.filter (!·.isStart)
    rw [heq] at hmem hsorted
    rcases List.mem_append.1 hmem with hmem | hmem
    · exact hbefore s hmem
    · -- behind the reported statement all lines are below it
      have hle : t.line ≤ s.line := by
        rcases List.mem_cons.1 hmem with rfl | hmem
        · exact le_rfl
        · have htail := (List.pairwise_append.1 hsorted).2.1
          exact (List.rel_of_pairwise_cons htail hmem).le
      omega
  · exact List.findSome?_eq_none_iff.1 hnone s hmem

end Layout

namespace Assembly

open Layout

variable {source : String} {l : Layout}

/-- **Pass 2 reports the first statement in error, but START last of all.** So above the line that
is reported no statement is in error, unless it is START; and if START is not in error, it is the
earliest error of the source that is reported. -/
theorem errors_in_resolution_order (hl : ofLines? (Line.split source.toList) = .ok l)
    (T : SymbolTable) :
    error? (l.image? T) =
        (resolutionOrder (Line.program (Line.split source.toList))).findSome? (·.offence? T) ∧
      ∀ e, l.image? T = .error e →
        (∀ s ∈ Line.program (Line.split source.toList), s.line < e.line → s.isStart = false →
          s.offence? T = none) ∧
        ((∀ s ∈ Line.program (Line.split source.toList), s.isStart = true → s.offence? T = none) →
          (Line.program (Line.split source.toList)).findSome? (·.offence? T) = some e) := by
  obtain ⟨-, hadmits, rfl⟩ := ofLines?_eq_ok.1 hl
  have hstarts : (Line.program (Line.split source.toList)).countP Statement.isStart ≤ 1 := by
    simpa [starts] using hadmits.starts
  have hfirst := error?_image? (T := T) hadmits.shaped hstarts
  refine ⟨hfirst, fun e he => ?_⟩
  rw [he, error?_error] at hfirst
  refine ⟨fun s hs hlt hstart => ?_, fun hstart => ?_⟩
  · exact offence?_of_line_lt (Line.pairwise_line_program _) hfirst.symm hs hlt hstart
  · rw [hfirst, findSome?_resolutionOrder hstart]

/-- Three labels are not defined. The one of START is asked for last, so the next is reported. -/
theorem errors_in_resolution_order_three :
    ∃ l, ofLines? (Line.split "START X\nJUMP Y\nJUMP Z".toList) = .ok l ∧
      l.image? l.symbols = .error ⟨.undefinedLabel "Y", 2, ⟨13, 1⟩⟩ ∧
      (resolutionOrder (Line.program (Line.split "START X\nJUMP Y\nJUMP Z".toList))).findSome?
        (·.offence? l.symbols) = some ⟨.undefinedLabel "Y", 2, ⟨13, 1⟩⟩ := by
  have htext : "START X\nJUMP Y\nJUMP Z".toList =
      ['S', 'T', 'A', 'R', 'T', ' ', 'X', '\n', 'J', 'U', 'M', 'P', ' ', 'Y', '\n',
        'J', 'U', 'M', 'P', ' ', 'Z'] := by simp
  let start : Statement :=
    { label := none, mnemonic := .directive .start, mnemonicSpan := ⟨0, 5⟩
      args := [⟨.symbol "X", "X", ⟨6, 1⟩, by decide⟩], line := 1, source := "START X" }
  let jump (label : String) (line offset : Nat) : Statement :=
    { label := none, mnemonic := .machine (.address (.jump .always)), mnemonicSpan := ⟨offset, 4⟩
      args := [⟨.symbol label, label, ⟨offset + 5, 1⟩, Operand.inRange_symbol label⟩], line
      source := "JUMP " ++ label }
  let l : Layout :=
    ⟨#[⟨0, 0, start⟩, ⟨0, 2, jump "Y" 2 8⟩, ⟨2, 2, jump "Z" 3 15⟩], ⟨[]⟩, 4⟩
  have hl : ofLines? (Line.split "START X\nJUMP Y\nJUMP Z".toList) = .ok l := by
    rw [htext]
    decide +kernel
  have himage : l.image? l.symbols = .error ⟨.undefinedLabel "Y", 2, ⟨13, 1⟩⟩ := rfl
  have hfirst := (errors_in_resolution_order hl l.symbols).1
  exact ⟨l, hl, himage, hfirst.symm.trans (congrArg error? himage)⟩

/-- **The earliest error is not always the one that is reported**: here the operand of START is not
defined, and the error is about the line below. -/
theorem earliest_offence_unreported :
    ∃ l, ofLines? (Line.split "START X\nJUMP Y".toList) = .ok l ∧
      (Line.program (Line.split "START X\nJUMP Y".toList)).findSome? (·.offence? l.symbols) =
        some ⟨.undefinedLabel "X", 1, ⟨6, 1⟩⟩ ∧
      l.image? l.symbols = .error ⟨.undefinedLabel "Y", 2, ⟨13, 1⟩⟩ := by
  have htext : "START X\nJUMP Y".toList =
      ['S', 'T', 'A', 'R', 'T', ' ', 'X', '\n', 'J', 'U', 'M', 'P', ' ', 'Y'] := by simp
  let start : Statement :=
    { label := none, mnemonic := .directive .start, mnemonicSpan := ⟨0, 5⟩
      args := [⟨.symbol "X", "X", ⟨6, 1⟩, by decide⟩], line := 1, source := "START X" }
  let jump : Statement :=
    { label := none, mnemonic := .machine (.address (.jump .always)), mnemonicSpan := ⟨8, 4⟩
      args := [⟨.symbol "Y", "Y", ⟨13, 1⟩, by decide⟩], line := 2, source := "JUMP Y" }
  rw [htext]
  refine ⟨⟨#[⟨0, 0, start⟩, ⟨0, 2, jump⟩], ⟨[]⟩, 2⟩, by decide +kernel, by decide +kernel, rfl⟩

end Assembly

end Comet
