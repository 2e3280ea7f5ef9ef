import Comet.Proofs.Source.Quoting
import Comet.Source.Statement

/-!
# Positions in the source

A span marks the text that stands at it (`Span.Marks`). Positions are first followed within a line
(`Line.At`, `Line.Holds`), from which blanks, words and pieces are cut off, and then carried over to
the source, of which the line is a part (`Line.In`).

* `Span.Marks.extract_toByteArray`: the same in bytes.
* `in_of_mem_split`: where a line stands in the source, and its number.
* `At.word`, `At.rest`, `At.trim`: where the parts of a text stand, if the text does.
* `reads_statement?`: reading a line gives a statement whose spans hold its tokens (`Line.Shows`),
  or an error about a text at its span (`Line.Reports`).
* `Shows.points`, `Reports.points`: the same for the source.
-/

namespace Comet

/-- The text stands in the source at the span, on the line of that number: so many bytes are before
it, and one newline less. -/
def Span.Marks (source : List Char) (line : Nat) (span : Span) (text : List Char) : Prop :=
  ∃ before after, source = before ++ text ++ after ∧ Text.byteLength before = span.offset ∧
    Text.byteLength text = span.length ∧ line = 1 + before.count '\n'

/-- A text is its first word and what follows it. -/
theorem Text.word_append_drop (cs : List Char) : word cs ++ cs.drop (word cs).length = cs :=
  List.prefix_iff_eq_append.1 (List.takeWhile_prefix _)

theorem Text.size_utf8Encode (cs : List Char) : cs.utf8Encode.size = byteLength cs := by
  induction cs with
  | nil => rfl
  | cons c cs ih =>
    rw [List.utf8Encode_cons, ByteArray.size_append, ih, byteLength_cons,
      List.utf8Encode_singleton, List.size_toByteArray, String.length_utf8EncodeChar]

/-- The bytes of the source at a span are those of the text that it marks. -/
theorem Span.Marks.extract_toByteArray {source : String} {line : Nat} {span : Span}
    {text : List Char} (h : span.Marks source.toList line text) :
    source.toByteArray.extract span.offset span.stop = (String.ofList text).toByteArray := by
  obtain ⟨before, after, hsource, hoffset, hlength, -⟩ := h
  rw [← String.utf8Encode_toList, hsource, List.utf8Encode_append, List.utf8Encode_append, stop,
    ← hoffset, ← hlength, ← Text.size_utf8Encode, ← Text.size_utf8Encode, ByteArray.extract_append,
    ByteArray.extract_append_eq_right rfl rfl]
  simp

/-! ## Lines in the source -/

namespace Line

/-- The line is a line of the source: its text stands there without a newline, at its offset and
with its number. -/
def In (source : List Char) (line : Line) : Prop :=
  '\n' ∉ line.text ∧
    Span.Marks source line.number ⟨line.offset, Text.byteLength line.text⟩ line.text

theorem withoutBreak_prefix (raw : List Char) : withoutBreak raw <+: raw := by
  have hsuffix := List.reverse_prefix.2 (List.dropWhile_suffix (l := raw.reverse)
    fun c => c == '\n' || c == '\r')
  rwa [List.reverse_reverse] at hsuffix

theorem withoutBreak_newline (raw : List Char) :
    withoutBreak (raw ++ ['\n']) = withoutBreak raw := by
  simp [withoutBreak]

/-- What is left of a raw line is a line of the source. -/
theorem in_withoutBreak {source before raw after : List Char}
    (hsource : source = before ++ raw ++ after) (hraw : '\n' ∉ raw) :
    In source ⟨withoutBreak raw, 1 + before.count '\n', Text.byteLength before⟩ := by
  obtain ⟨tail, htail⟩ := withoutBreak_prefix raw
  refine ⟨fun hmem => hraw (htail ▸ List.mem_append_left tail hmem), before, tail ++ after, ?_, rfl,
    rfl, rfl⟩
  simp only [hsource, List.append_assoc]
  rw [← List.append_assoc (withoutBreak raw), htail]

/-- **The loop invariant**: what has been read ends where the current line begins. -/
theorem in_of_mem_splitOnto {source before current cs : List Char} {done : Array Line}
    {number offset : Nat} (hsource : source = before ++ current.reverse ++ cs)
    (hcurrent : '\n' ∉ current) (hnumber : number = 1 + before.count '\n')
    (hoffset : offset = Text.byteLength before) (hdone : ∀ line ∈ done, line.In source) :
    ∀ line ∈ splitOnto done current number offset cs, line.In source := by
  have hraw : '\n' ∉ current.reverse := by rwa [List.mem_reverse]
  induction cs generalizing done current number offset before with
  | nil =>
    intro line hline
    rw [splitOnto] at hline
    split at hline
    · exact hdone line hline
    · rcases Array.mem_push.1 hline with hline | rfl
      · exact hdone line hline
      · rw [hnumber, hoffset]
        exact in_withoutBreak hsource hraw
  | cons c cs ih =>
    rw [splitOnto]
    split
    · next hc =>
      subst hc
      have hbefore : source = (before ++ ('\n' :: current).reverse) ++ [].reverse ++ cs := by
        simp [hsource]
      refine ih hbefore List.not_mem_nil ?_ ?_ ?_ List.not_mem_nil
      · simp [hnumber, List.count_eq_zero_of_not_mem hcurrent]; omega
      · simp [hoffset]
      · intro line hline
        rcases Array.mem_push.1 hline with hline | rfl
        · exact hdone line hline
        · rw [hnumber, hoffset, List.reverse_cons, withoutBreak_newline]
          exact in_withoutBreak hsource hraw
    · next hc =>
      have hcurrent' : '\n' ∉ c :: current := by simp [hcurrent, Ne.symm hc]
      exact ih (by simp [hsource]) hcurrent' hnumber hoffset hdone (by rwa [List.mem_reverse])

/-- **The lines of a source** stand where they say. -/
theorem in_of_mem_split {source : List Char} {line : Line} (h : line ∈ split source) :
    line.In source := by
  have hbefore : source = [] ++ [].reverse ++ source := by simp
  exact in_of_mem_splitOnto hbefore List.not_mem_nil rfl rfl (by simp) line
    (Array.mem_toList_iff.1 h)

/-! ## Texts within a line -/

/-- The text stands in the line, at byte `start` of the source. -/
def At (line : Line) (start : Nat) (text : List Char) : Prop :=
  ∃ before after, line.text = before ++ text ++ after ∧ start = line.offset + Text.byteLength before

/-- The text is what the line has at the span. -/
def Holds (line : Line) (span : Span) (text : List Char) : Prop :=
  line.At span.offset text ∧ span.length = Text.byteLength text

variable {line : Line} {start : Nat} {text before after : List Char}

/-- **Positions in a line are positions in the source.** -/
theorem In.marks {source : List Char} {span : Span} (hline : line.In source)
    (h : line.Holds span text) : span.Marks source line.number text := by
  obtain ⟨hnewline, before, after, hsource, hoffset, -, hnumber⟩ := hline
  obtain ⟨⟨before', after', htext, hstart⟩, hlength⟩ := h
  have hcount : before'.count '\n' = 0 :=
    List.count_eq_zero_of_not_mem fun hmem => hnewline (by simp [htext, hmem])
  refine ⟨before ++ before', after' ++ after, ?_, ?_, hlength.symm, ?_⟩
  · rw [hsource, htext]
    simp only [List.append_assoc]
  · rw [Text.byteLength_append, hoffset, hstart]
  · rw [List.count_append, hcount, hnumber, Nat.add_zero]

/-- A part of a text stands as many bytes further on as there are before it. -/
theorem At.part (h : line.At start (before ++ text ++ after)) :
    line.At (start + Text.byteLength before) text := by
  obtain ⟨front, back, hline, rfl⟩ := h
  refine ⟨front ++ before, after ++ back, ?_, ?_⟩
  · rw [hline]
    simp only [List.append_assoc]
  · rw [Text.byteLength_append, Nat.add_assoc]

theorem At.front (h : line.At start (text ++ after)) : line.At start text := by
  have hparts : line.At start ([] ++ text ++ after) := h
  exact hparts.part

theorem At.back (h : line.At start (before ++ text)) :
    line.At (start + Text.byteLength before) text := by
  have hparts : line.At start (before ++ text ++ []) := by rwa [List.append_nil]
  exact hparts.part

/-- The code of a line begins where the line does. -/
theorem at_code (line : Line) : line.At line.offset (code line.text) := by
  have hbreak : ∀ (stop : Char) (quoted : Bool) (done cs : List Char),
      (breakUnquoted stop quoted done cs).1 ++ (breakUnquoted stop quoted done cs).2 =
        done.reverse ++ cs := by
    intro stop quoted done cs
    induction cs generalizing quoted done with
    | nil => simp [breakUnquoted]
    | cons c cs ih =>
      rw [breakUnquoted]
      split
      · rfl
      · rw [ih]; simp
  exact ⟨[], (breakUnquoted ';' false [] line.text).2, (hbreak ';' false [] line.text).symm, rfl⟩

theorem At.trimStart (h : line.At start text) :
    line.At (start + Text.byteLength (text.takeWhile Text.isBlank)) (Text.trimStart text) :=
  At.back (by rwa [Text.trimStart_append_eq])

/-- The first word of a text stands behind the blanks. -/
theorem At.word (h : line.At start text) :
    line.Holds ⟨start + Text.byteLength (text.takeWhile Text.isBlank),
      Text.byteLength (Text.word (Text.trimStart text))⟩ (Text.word (Text.trimStart text)) := by
  obtain ⟨tail, htail⟩ : Text.word (Text.trimStart text) <+: Text.trimStart text :=
    List.takeWhile_prefix _
  exact ⟨(htail.symm ▸ h.trimStart).front, rfl⟩

/-- What follows the first word of a text stands where the word ends. -/
theorem At.rest (h : line.At start text) :
    line.At (Span.stop ⟨start + Text.byteLength (text.takeWhile Text.isBlank),
        Text.byteLength (Text.word (Text.trimStart text))⟩)
      ((Text.trimStart text).drop (Text.word (Text.trimStart text)).length) := by
  have hword := Text.word_append_drop (Text.trimStart text)
  exact At.back (hword.symm ▸ h.trimStart)

/-- A text without the blanks around it stands behind those before it. -/
theorem At.trim (h : line.At start text) :
    line.Holds ⟨start + Text.byteLength (text.takeWhile Text.isBlank),
      Text.byteLength (Text.trim text)⟩ (Text.trim text) := by
  obtain ⟨tail, htail⟩ : Text.trim text <+: Text.trimStart text := by
    have hsuffix := List.reverse_prefix.2
      (List.dropWhile_suffix (l := (Text.trimStart text).reverse) Text.isBlank)
    rwa [List.reverse_reverse] at hsuffix
  exact ⟨(htail.symm ▸ h.trimStart).front, rfl⟩

/-! ## What reading a line gives -/

/-- The operand is what its text says, and the line has the text at its span. -/
def ShowsArg (line : Line) (arg : Arg) : Prop :=
  line.Holds arg.span arg.text.toList ∧ Operand.ofText? arg.text.toList = .ok arg.operand

/-- The line has the tokens of the statement at their spans. -/
structure Shows (line : Line) (s : Statement) : Prop where
  number : s.line = line.number
  label : ∀ l ∈ s.label, line.Holds l.span l.text.toList
  mnemonic : line.Holds s.mnemonicSpan s.mnemonic.name.toList
  args : ∀ arg ∈ s.args, line.ShowsArg arg

/-- The errors that reading a line can end in, each about a text that the line has at the span. -/
inductive Reports (line : Line) : AsmError → Prop
  | malformed {span : Span} {text : List Char} (fault : SyntaxFault) :
      line.Holds span text → Reports line (line.malformed fault span)
  | unknown {span : Span} {name : String} :
      line.Holds span name.toList → Reports line ⟨.unknownMnemonic name, line.number, span⟩
  | unsupported {span : Span} {text : String} (reason : OperandFault) :
      line.Holds span text.toList →
      Reports line ⟨.unsupportedOperand text reason, line.number, span⟩

/-- The outcome of reading is a good one, or an error that the line reports. -/
def Reads {α : Type} (line : Line) (good : α → Prop) : Except AsmError α → Prop
  | .ok a => good a
  | .error e => line.Reports e

theorem reads_arg? {piece : List Char} (h : line.At start piece) :
    line.Reads line.ShowsArg (line.arg? start piece) := by
  by_cases hempty : Text.trim piece = []
  · simp only [arg?, if_pos hempty]
    exact .malformed .emptyOperand ⟨h, rfl⟩
  · cases hread : Operand.ofText? (Text.trim piece) with
    | ok operand =>
      rw [arg?_of_ok rfl hempty hread]
      exact ⟨by simpa [argSpan] using h.trim, by simpa using hread⟩
    | error reason =>
      rw [arg?_of_error rfl hempty hread]
      exact .unsupported reason (by simpa [argSpan] using h.trim)

theorem piecesOnto_ne_nil (done : List (List Char)) (current cs : List Char) (quoted : Bool) :
    piecesOnto done current quoted cs ≠ [] := by
  induction cs generalizing done current quoted with
  | nil => simp [piecesOnto]
  | cons c cs ih =>
    rw [piecesOnto]
    split
    · exact ih _ _ _
    · exact ih _ _ _

/-- The pieces of a field, with the commas between them, are the field. -/
theorem intercalate_pieces (field : List Char) : [','].intercalate (pieces field) = field := by
  have honto : ∀ (current cs : List Char) (quoted : Bool),
      [','].intercalate (piecesOnto [] current quoted cs) = current.reverse ++ cs := by
    intro current cs quoted
    induction cs generalizing current quoted with
    | nil => simp [piecesOnto]
    | cons c cs ih =>
      rw [piecesOnto]
      split
      · next hc =>
        obtain ⟨piece, rest, hrest⟩ :=
          List.exists_cons_of_ne_nil (piecesOnto_ne_nil [] [] cs quoted)
        have ih := ih [] quoted
        rw [hrest] at ih
        rw [piecesOnto_eq_append, hrest, hc.1]
        simp [List.intercalate_cons_cons, ih]
      · rw [ih]
        simp
  exact honto [] field false

/-- **Reading pieces**: each stands behind the comma after the one before. -/
theorem reads_argsOnto {done : List Arg} {ps : List (List Char)}
    (h : ps ≠ [] → line.At start ([','].intercalate ps)) (hdone : ∀ arg ∈ done, line.ShowsArg arg) :
    line.Reads (fun args => ∀ arg ∈ args, line.ShowsArg arg) (line.argsOnto done start ps) := by
  induction ps generalizing done start with
  | nil => exact fun arg harg => hdone arg (List.mem_reverse.1 harg)
  | cons piece ps ih =>
    have hpiece : line.At start piece ∧
        (ps ≠ [] → line.At (start + Text.byteLength piece + 1) ([','].intercalate ps)) := by
      have h := h (List.cons_ne_nil piece ps)
      cases ps with
      | nil => exact ⟨by simpa using h, fun hne => absurd rfl hne⟩
      | cons next ps =>
        rw [List.intercalate_cons_cons] at h
        refine ⟨(h.front : line.At start (piece ++ [','])).front, fun _ => ?_⟩
        have hnext := h.back
        rwa [Text.byteLength_append, ← Nat.add_assoc] at hnext
    have harg := reads_arg? hpiece.1
    rw [argsOnto]
    split
    · next e he => rwa [he] at harg
    · next arg hok =>
      rw [hok] at harg
      exact ih hpiece.2 (List.forall_mem_cons.2 ⟨harg, hdone⟩)

theorem reads_args? {field : List Char} (h : line.At start field) :
    line.Reads (fun args => ∀ arg ∈ args, line.ShowsArg arg) (line.args? start field) := by
  rw [args?]
  split
  · exact fun arg harg => absurd harg List.not_mem_nil
  · refine reads_argsOnto (fun _ => ?_) fun arg harg => absurd harg List.not_mem_nil
    rwa [intercalate_pieces]

theorem reads_body? {label : Option Located} {field : List Char} (h : line.At start field)
    (hlabel : ∀ l ∈ label, line.Holds l.span l.text.toList) :
    line.Reads line.Shows (line.body? label start field) := by
  have hargs := reads_args? h.rest
  simp only [body?]
  split
  · exact .unknown (by simpa using h.word)
  · next mnemonic hm =>
    split
    · next e he => rwa [he] at hargs
    · next args hok =>
      rw [hok] at hargs
      have hname : mnemonic.name.toList = Text.word (Text.trimStart field) := by
        rw [Mnemonic.name_of_ofName? hm, String.toList_ofList]
      exact ⟨rfl, hlabel, hname ▸ h.word, hargs⟩

theorem Reads.map_some {α : Type} {good : α → Prop} {r : Except AsmError α}
    (h : line.Reads good r) : line.Reads (fun a? => ∀ a ∈ a?, good a) (r.map some) := by
  cases r with
  | error e => exact h
  | ok a => exact fun b hb => Option.some.inj hb ▸ h

/-- **Reading a line** gives a statement whose tokens it has, or an error about something it has. -/
theorem reads_statement? (line : Line) :
    line.Reads (fun s? => ∀ s ∈ s?, line.Shows s) line.statement? := by
  have hcode := line.at_code
  simp only [statement?]
  split
  · exact fun s hs => nomatch hs
  split
  · have hnone : ∀ l ∈ (none : Option Located), line.Holds l.span l.text.toList :=
      fun l hl => nomatch hl
    exact (reads_body? hcode hnone).map_some
  split
  · exact .malformed _ hcode.word
  split
  · exact .malformed _ hcode.word
  · refine (reads_body? hcode.rest fun l hl => ?_).map_some
    cases hl
    simpa using hcode.word

end Line

/-! ## Positions of statements and errors in the source -/

/-- The tokens of the statement stand in the source at their spans, on its line, and its operands
are what their texts say. -/
structure Statement.Points (source : List Char) (s : Statement) : Prop where
  label : ∀ l ∈ s.label, l.span.Marks source s.line l.text.toList
  mnemonic : s.mnemonicSpan.Marks source s.line s.mnemonic.name.toList
  args : ∀ arg ∈ s.args, arg.span.Marks source s.line arg.text.toList
  operands : ∀ arg ∈ s.args, Operand.ofText? arg.text.toList = .ok arg.operand

/-- What an error says that it is about, if that is a token. -/
def AsmCause.token? : AsmCause → Option String
  | .malformed _ => none
  | .unknownMnemonic name | .duplicateLabel name | .undefinedLabel name => some name
  | .unsupportedOperand text _ => some text

/-- The span of the error marks a text of the source on its line: the token that it is about. -/
def AsmError.Points (source : List Char) (e : AsmError) : Prop :=
  ∃ text, e.span.Marks source e.line text ∧ ∀ token ∈ e.cause.token?, token.toList = text

variable {source : List Char} {line : Line}

theorem Line.Shows.points {s : Statement} (hline : line.In source) (h : line.Shows s) :
    s.Points source where
  label l hl := h.number ▸ hline.marks (h.label l hl)
  mnemonic := h.number ▸ hline.marks h.mnemonic
  args arg harg := h.number ▸ hline.marks (h.args arg harg).1
  operands arg harg := (h.args arg harg).2

theorem Line.Reports.points {e : AsmError} (hline : line.In source) (h : line.Reports e) :
    e.Points source := by
  cases h with
  | malformed fault hholds => exact ⟨_, hline.marks hholds, fun token htoken => nomatch htoken⟩
  | unknown hholds => exact ⟨_, hline.marks hholds, fun token htoken => by cases htoken; rfl⟩
  | unsupported reason hholds =>
    exact ⟨_, hline.marks hholds, fun token htoken => by cases htoken; rfl⟩

/-- **The statements of a source** have their tokens at their spans. -/
theorem points_of_statement? {s : Statement} (h : line ∈ Line.split source)
    (hs : line.statement? = .ok (some s)) : s.Points source := by
  have hreads := line.reads_statement?
  rw [hs] at hreads
  exact (hreads s rfl).points (Line.in_of_mem_split h)

end Comet
