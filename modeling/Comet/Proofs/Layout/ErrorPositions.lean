import Comet.Proofs.Layout.Tiling
import Comet.Proofs.Source.Positions

/-!
# Positions of errors

Whatever pass stops, its error points at a text of the source: at the token that it names.

* `Statement.Reports`: the errors about a statement that has been read. Placing a statement and
  emitting its code end in these (`fails_place?`, `fails_code?`), or in a label that is bound
  already.
* `readOnto_eq_error`: pass 1 stops at a line behind which nothing is read, when all before it have
  been placed.
* `positions_mark_tokens`: the spans of all statements and errors.
-/

namespace Comet

/-- An operand that names a label is written as the label. -/
theorem Operand.toList_of_ofText?_symbol {text : List Char} {name : String}
    (h : ofText? text = .ok (.symbol name)) : name.toList = text := by
  have hdecimal (negative : Bool) (digits : List Char) :
      decimalLiteral negative digits ≠ .ok (.symbol name) := by
    grind [decimalLiteral]
  have hliteral : ∀ text, literalOrLabel text = .ok (.symbol name) → name.toList = text := by
    intro text h
    simp only [literalOrLabel] at h
    split at h
    · exact absurd h (hdecimal _ _)
    · split at h <;> cases h
      exact String.toList_ofList
  unfold ofText? at h
  split at h
  · cases h
  split at h
  · rw [hexLiteral] at h
    split at h <;> cases h
  · split at h
    · rw [charConstant] at h
      split at h
      · split at h <;> cases h
      · cases h
    · exact hliteral _ h
  · exact hliteral _ h

namespace Statement

/-- The errors about a statement that has been read: about its mnemonic, or about an operand. -/
inductive Reports (s : Statement) : AsmError → Prop
  | malformed (fault : SyntaxFault) : Reports s (s.malformed fault)
  | unsupported {arg : Arg} (reason : OperandFault) :
      arg ∈ s.args → Reports s (s.unsupported arg reason)
  | undefined {arg : Arg} {name : String} : arg ∈ s.args → arg.operand = .symbol name →
      Reports s ⟨.undefinedLabel name, s.line, arg.span⟩

variable {s : Statement} {arg : Arg} {T : SymbolTable}

theorem Reports.points {source : List Char} {e : AsmError} (hs : s.Points source)
    (h : s.Reports e) : e.Points source := by
  cases h with
  | malformed fault => exact ⟨_, hs.mnemonic, fun token htoken => nomatch htoken⟩
  | unsupported reason harg =>
    exact ⟨_, hs.args _ harg, fun token htoken => by cases htoken; rfl⟩
  | @undefined arg name harg hname =>
    refine ⟨_, hs.args _ harg, fun token htoken => ?_⟩
    cases htoken
    exact Operand.toList_of_ofText?_symbol (hname ▸ hs.operands _ harg)

/-! ## Dealing out operands -/

theorem fails_storageLength? (harg : arg ∈ s.args) : Fails (s.storageLength? arg) s.Reports := by
  unfold storageLength?
  split
  · split
    · exact fails_ok
    · exact fails_error (.unsupported _ harg)
  · exact fails_error (.unsupported _ harg)

theorem fails_form? (s : Statement) : Fails s.form? s.Reports := by
  unfold form?
  split
  case h_12 length _ hargs =>
    have hlength : Fails (s.storageLength? length) s.Reports :=
      fails_storageLength? (by simp [hargs])
    intro e h
    cases hl : s.storageLength? length with
    | ok n => rw [hl] at h; cases h
    | error e' => rw [hl] at h; cases h; exact hlength e hl
  case h_14 => exact fails_error (.malformed _)
  all_goals exact fails_ok

theorem fails_size? (s : Statement) : Fails s.size? s.Reports := by
  cases hform : s.form? with
  | error e =>
    rw [size?, hform]
    exact fails_error (s.fails_form? e hform)
  | ok form =>
    rw [size?_of_form? hform]
    split
    · exact fails_ok
    · exact fails_error (.malformed _)

/-! ## Resolving operands -/

theorem fails_address? (harg : arg ∈ s.args) : Fails (s.address? T arg) s.Reports := by
  unfold address?
  split
  · exact fails_ok
  · next name hname =>
    split
    · exact fails_ok
    · exact fails_error (.undefined harg hname)
  · exact fails_error (.unsupported _ harg)
  · exact fails_error (.unsupported _ harg)

theorem fails_register? (harg : arg ∈ s.args) : Fails (s.register? arg) s.Reports := by
  unfold register?
  split
  · exact fails_ok
  · exact fails_error (.unsupported _ harg)

theorem fails_index? {index : Option Arg} (h : ∀ arg ∈ index, arg ∈ s.args) :
    Fails (s.index? index) s.Reports := by
  cases index with
  | none => exact fails_ok
  | some arg =>
    refine fails_bind (fails_register? (h arg rfl)) fun r _ => ?_
    split
    · exact fails_error (.unsupported _ (h arg rfl))
    · exact fails_ok

theorem fails_secondOperand? {second : Arg} {index : Option Arg} (hsecond : second ∈ s.args)
    (hindex : ∀ arg ∈ index, arg ∈ s.args) :
    Fails (s.secondOperand? T second index) s.Reports := by
  unfold secondOperand?
  split
  · exact fails_ok
  · next extra _ => exact fails_error (.unsupported _ (hindex extra rfl))
  · refine fails_bind (fails_address? hsecond) fun base _ => ?_
    split
    · exact fails_error (.unsupported _ hsecond)
    · exact fails_bind (fails_index? hindex) fun x _ => fails_ok

theorem fails_constant? (harg : arg ∈ s.args) : Fails (s.constant? T arg) s.Reports := by
  unfold constant?
  split
  · exact fails_ok
  · exact fails_bind (fails_address? harg) fun w _ => fails_ok

theorem fails_words? {form : Form} (h : Form.Deals s.mnemonic s.args form) :
    Fails (s.words? T form) s.Reports := by
  obtain ⟨label, mnemonic, span, args, line, source⟩ := s
  cases h with
  | twoForm op r second index =>
    refine fails_bind (fails_register? (by simp)) fun r _ => ?_
    refine fails_bind (fails_secondOperand? (by simp) fun x hx => ?_) fun _ _ => fails_ok
    simp [Option.mem_def.1 hx]
  | registerAddress op r address index =>
    refine fails_bind (fails_register? (by simp)) fun r _ => ?_
    refine fails_bind (fails_address? (by simp)) fun w _ => ?_
    refine fails_bind (fails_index? fun x hx => ?_) fun _ _ => fails_ok
    simp [Option.mem_def.1 hx]
  | address op address index =>
    refine fails_bind (fails_address? (by simp)) fun w _ => ?_
    refine fails_bind (fails_index? fun x hx => ?_) fun _ _ => fails_ok
    simp [Option.mem_def.1 hx]
  | register op r => exact fails_bind (fails_register? (by simp)) fun r _ => fails_ok
  | constants arg args =>
    exact fails_bind (fails_mapM fun arg harg => fails_constant? harg) fun _ _ => fails_ok
  | _ => exact fails_ok

/-- **Emitting the code of a statement** fails with an error about the statement. -/
theorem fails_code? (s : Statement) (T : SymbolTable) : Fails (s.code? T) s.Reports :=
  fails_bind s.fails_form? fun _ hform => fails_words? (form?_eq_ok.1 hform)

end Statement

namespace Layout

variable {l : Layout} {s : Statement} {e : AsmError}

/-! ## Pass 1 -/

/-- **Placing a statement** fails with an error about it, or with its label if that is bound. -/
theorem fails_place? (l : Layout) (s : Statement) :
    Fails (l.place? s) fun e => s.Reports e ∨ ∃ label ∈ s.label, label.text ∈ l.bound ∧
      e = ⟨.duplicateLabel label.text, s.line, label.span⟩ := by
  unfold place?
  split
  · next e he => exact fails_error (.inl (s.fails_size? e he))
  split
  · next e he =>
    unfold bind? at he
    split at he
    · cases he
    · next label hlabel =>
      split at he
      · cases he
      · next hdefined =>
        cases he
        have hbound : label.text ∈ l.bound := by
          rw [← get?_isSome]
          unfold SymbolTable.define? at hdefined
          split at hdefined
          · assumption
          · cases hdefined
        exact fails_error (.inr ⟨label, hlabel, hbound, rfl⟩)
  split
  · exact fails_error (.inl (.malformed _))
  split
  · exact fails_error (.inl (.malformed _))
  · exact fails_ok

/-- **Where pass 1 stops**: at a line that is in error, or at a statement that cannot be placed,
and not before all statements before it have been placed. -/
theorem readOnto_eq_error {rs : List Reading} (h : (l.readOnto rs).1 = .error e) :
    ∃ (before : List (Option Statement)) (r : Reading) (after : List Reading) (l' : Layout),
      rs = before.map .ok ++ r :: after ∧ before.reduceOption.foldlM place? l = .ok l' ∧
        (r = .error e ∨ ∃ s, r = .ok (some s) ∧ l'.place? s = .error e) := by
  induction rs generalizing l with
  | nil => cases h
  | cons r rs ih =>
    match r with
    | .error e' =>
      cases h
      exact ⟨[], _, rs, l, rfl, rfl, .inl rfl⟩
    | .ok none =>
      obtain ⟨before, r, after, l', rfl, hbefore, hr⟩ := ih h
      exact ⟨none :: before, r, after, l', rfl, hbefore, hr⟩
    | .ok (some s) =>
      rw [readOnto] at h
      split at h
      · next e' he =>
        cases h
        exact ⟨[], _, rs, l, rfl, rfl, .inr ⟨s, rfl, he⟩⟩
      · next l₁ hl₁ =>
        split at h
        · cases h
        · obtain ⟨before, r, after, l', rfl, hbefore, hr⟩ := ih h
          refine ⟨some s :: before, r, after, l', rfl, ?_, hr⟩
          rw [List.reduceOption_cons_of_some, List.foldlM_cons, hl₁]
          exact hbefore

/-! ## Pass 2 -/

theorem codeOnto_eq_error {T : SymbolTable} {words : Array Word} {ps : List Placed}
    (h : codeOnto T words ps = .error e) : ∃ p ∈ ps, p.statement.code? T = .error e := by
  induction ps generalizing words with
  | nil => cases h
  | cons p ps ih =>
    rw [codeOnto] at h
    split at h
    · next e' he =>
      cases h
      exact ⟨p, List.mem_cons_self, he⟩
    · obtain ⟨q, hq, he⟩ := ih h
      exact ⟨q, List.mem_cons_of_mem p hq, he⟩

/-- **Pass 2** fails with an error about a placed statement. -/
theorem fails_image? (l : Layout) (T : SymbolTable) :
    Fails (l.image? T) fun e => ∃ p ∈ l.placed, p.statement.Reports e := by
  refine fails_bind (fun e he => ?_) fun words _ => fails_bind (fun e he => ?_) fun _ _ => fails_ok
  · obtain ⟨p, hp, he⟩ := codeOnto_eq_error he
    exact ⟨p, Array.mem_toList_iff.1 hp, p.statement.fails_code? T e he⟩
  · unfold entry? at he
    split at he
    · cases he
    · next p hp =>
      refine ⟨p, Array.mem_of_find?_eq_some hp, ?_⟩
      split at he
      · cases he
      · next arg _ hargs => exact Statement.fails_address? (by simp [hargs]) e he

end Layout

/-! ## Every position -/

theorem Layout.bound_foldl_place (ss : List Statement) (l : Layout) :
    (ss.foldl place l).bound = l.bound ++ labelTexts ss := by
  induction ss generalizing l with
  | nil => simp [labelTexts]
  | cons s ss ih => rw [List.foldl_cons, ih, bound_place, labelTexts_cons, List.append_assoc]

/-- What a reading adds to the statements of a source. -/
def Reading.item? : Reading → Option (Except AsmError Statement)
  | .ok s? => s?.map .ok
  | .error e => some (.error e)

theorem Statement.ofSource_eq (source : List Char) :
    ofSource source = ((Line.split source).map Line.statement?).filterMap Reading.item? := by
  rw [List.filterMap_map, ofSource]
  refine congrArg (List.filterMap · _) (funext fun line => ?_)
  rw [Function.comp_apply]
  cases line.statement? with
  | error e => rfl
  | ok s? => cases s? <;> rfl

theorem Reading.filterMap_item?_ok (before : List (Option Statement)) :
    (before.map Except.ok).filterMap Reading.item? = before.reduceOption.map Except.ok := by
  rw [List.filterMap_map, List.reduceOption, List.map_filterMap]
  rfl

/-- The error is at the label of a statement before which exactly one has the same label. -/
def AsmError.AtSecondLabel (source : List Char) (e : AsmError) (name : String) : Prop :=
  ∃ before s after, Statement.ofSource source = before.map .ok ++ .ok s :: after ∧
    s.label = some ⟨name, e.span⟩ ∧ s.line = e.line ∧ (labelTexts before).count name = 1

theorem Line.Reports.cause_ne {line : Line} {e : AsmError} (h : line.Reports e) (name : String) :
    e.cause ≠ .duplicateLabel name := by
  cases h <;> exact nofun

theorem Statement.Reports.cause_ne {s : Statement} {e : AsmError} (h : s.Reports e)
    (name : String) : e.cause ≠ .duplicateLabel name := by
  cases h <;> exact nofun

namespace Assembly

variable {source : String} {e : AsmError}

/-- **Errors of pass 1** point at their tokens. -/
theorem points_of_ofLines? (h : Layout.ofLines? (Line.split source.toList) = .error e) :
    e.Points source.toList ∧
      ∀ name, e.cause = .duplicateLabel name → e.AtSecondLabel source.toList name := by
  obtain ⟨before, r, after, l, hreadings, hplaced, hr⟩ := Layout.readOnto_eq_error h
  obtain ⟨line, hline, hread⟩ : ∃ line ∈ Line.split source.toList, line.statement? = r :=
    List.mem_map.1 (hreadings ▸ List.mem_append_right _ List.mem_cons_self)
  rcases hr with rfl | ⟨s, rfl, hplace⟩
  · have hreports := line.reads_statement?
    rw [hread] at hreports
    exact ⟨hreports.points (Line.in_of_mem_split hline), fun name hname =>
      absurd hname (hreports.cause_ne name)⟩
  have hs : s.Points source.toList := points_of_statement? hline hread
  rcases Layout.fails_place? l s e hplace with hreports | ⟨label, hlabel, hbound, rfl⟩
  · exact ⟨hreports.points hs, fun name hname => absurd hname (hreports.cause_ne name)⟩
  · refine ⟨⟨_, hs.label label hlabel, fun token htoken => by cases htoken; rfl⟩,
      fun name hname => ?_⟩
    cases hname
    obtain ⟨hadmits, rfl⟩ := (Layout.foldlM_place? Layout.admits_nil).1 hplaced
    rw [Layout.bound_foldl_place] at hbound
    refine ⟨before.reduceOption, s, after.filterMap Reading.item?, ?_, hlabel, rfl,
      List.count_eq_one_of_mem (List.nodup_append.1 hadmits.labels).2.1 hbound⟩
    rw [Statement.ofSource_eq, hreadings, List.filterMap_append, Reading.filterMap_item?_ok]
    rfl

/-- **Errors of pass 2** point at their tokens, and no label is found twice any more. -/
theorem points_of_image? {l : Layout} (hl : Layout.ofLines? (Line.split source.toList) = .ok l)
    (h : l.image? l.symbols = .error e) :
    e.Points source.toList ∧ ∀ name, e.cause ≠ .duplicateLabel name := by
  obtain ⟨p, hp, hreports⟩ := Layout.fails_image? l l.symbols e h
  obtain ⟨-, -, rfl⟩ := Layout.ofLines?_eq_ok.1 hl
  have hmem : p.statement ∈ Line.program (Line.split source.toList) := by
    rw [← Layout.map_statement_placedFrom 0 (Line.program _)]
    exact List.mem_map_of_mem (Array.mem_toList_iff.2 hp)
  obtain ⟨line, hline, hread⟩ := Line.mem_of_mem_program hmem
  exact ⟨hreports.points (points_of_statement? hline hread), hreports.cause_ne⟩

/-- **Every position is that of the token it is about**: the label, mnemonic and operands of every
statement stand at their spans and on its line, and so does what an error names, which for a label
that is defined twice is its second occurrence. -/
theorem positions_mark_tokens (source : String) :
    (∀ s, .ok s ∈ Statement.ofSource source.toList → s.Points source.toList) ∧
      ∀ e, Assembly.ofSource? source = .error e → e.Points source.toList ∧
        ∀ name, e.cause = .duplicateLabel name → e.AtSecondLabel source.toList name := by
  constructor
  · intro s hs
    obtain ⟨line, hline, hitem⟩ := List.mem_filterMap.1 hs
    cases hread : line.statement? with
    | error e => rw [hread] at hitem; cases hitem
    | ok s? =>
      rw [hread] at hitem
      cases s? with
      | none => cases hitem
      | some t => cases hitem; exact points_of_statement? hline hread
  · intro e h
    rcases bind_eq_error.1 h with hl | ⟨l, hl, h⟩
    · exact points_of_ofLines? hl
    · rcases bind_eq_error.1 h with himage | ⟨image, -, h⟩
      · have hpoints := points_of_image? hl himage
        exact ⟨hpoints.1, fun name hname => absurd hname (hpoints.2 name)⟩
      · cases h

/-- Offsets count bytes: two for the accented letter, three for the wide space. -/
example : Assembly.ofSource? "A DC 'é'\r\n　A NOP" =
    .error ⟨.duplicateLabel "A", 2, ⟨14, 1⟩⟩ := by
  have htext : "A DC 'é'\r\n　A NOP".toList =
      ['A', ' ', 'D', 'C', ' ', '\'', 'é', '\'', '\r', '\n', '　', 'A', ' ', 'N', 'O', 'P'] := by
    simp
  rw [Assembly.ofSource?, htext]
  decide +kernel

end Assembly

end Comet
