import Comet.Proofs.Source.OperandText
import Comet.Source.Statement

/-!
# Statements as text

`Written` is a line as its author laid it out: what the statement says, and the blanks and the
comment around it. Reading the line gives back what it says and nothing else
(`Line.statement?_text`), from its parts:

* `word_append`, `trim_append`: blanks separate words and surround operands;
* `code_text`: the comment is cut off;
* `argsOnto_pieces`: the operands are read one by one;
* `body?_text`: so are the mnemonic and what follows it.
-/

namespace Comet

/-! ## Blanks and words -/

namespace Text

/-- A run of blanks, perhaps none. -/
def IsBlanks (cs : List Char) : Prop := ∀ c ∈ cs, isBlank c = true

instance (cs : List Char) : Decidable (IsBlanks cs) :=
  decidable_of_iff (cs.all isBlank = true) List.all_eq_true

/-- A word: characters, none of them blank. -/
structure IsWord (cs : List Char) : Prop where
  ne_nil : cs ≠ []
  not_blank : ∀ c ∈ cs, isBlank c = false

variable {before after cs rest : List Char}

theorem IsBlanks.append (h : IsBlanks before) (h' : IsBlanks after) :
    IsBlanks (before ++ after) := fun c hc => (List.mem_append.1 hc).elim (h c) (h' c)

theorem IsBlanks.closed {stop : Char} (h : IsBlanks cs) (hstop : isBlank stop = false) :
    Line.Closed stop cs :=
  Line.closed_of_forall_ne fun c hc =>
    ⟨ne_of_class isBlank (h c hc) hstop, ne_of_class isBlank (h c hc) (by decide)⟩

theorem isWord_of_forall_isPlain (hne : cs ≠ []) (h : ∀ c ∈ cs, isPlain c = true) : IsWord cs :=
  ⟨hne, fun c hc => isBlank_eq_false_of_isPlain (h c hc)⟩

theorem trimStart_append (h : IsBlanks before) : trimStart (before ++ cs) = trimStart cs :=
  List.dropWhile_append_of_pos h

theorem trimStart_of_first (h : ∀ c ∈ cs.head?, isBlank c = false) : trimStart cs = cs := by
  cases cs with
  | nil => rfl
  | cons c cs => exact List.dropWhile_cons_of_neg (by simp [h c rfl])

theorem trimStart_append_word (h : IsBlanks before) (hw : IsWord cs) :
    trimStart (before ++ (cs ++ rest)) = cs ++ rest := by
  rw [trimStart_append h]
  refine trimStart_of_first fun c hc => ?_
  rw [List.head?_append_of_ne_nil _ hw.ne_nil] at hc
  exact hw.not_blank c (List.mem_of_head? hc)

theorem trim_append (hb : IsBlanks before) (ha : IsBlanks after) (h : Solid cs) :
    trim (before ++ cs ++ after) = cs := by
  have hstart : trimStart (before ++ cs ++ after) = cs ++ after := by
    rw [List.append_assoc, trimStart_append hb]
    refine trimStart_of_first fun c hc => h.first c ?_
    rwa [List.head?_append_of_ne_nil _ h.ne_nil] at hc
  have hend : trimStart (cs ++ after).reverse = cs.reverse := by
    rw [List.reverse_append, trimStart_append fun c hc => ha c (List.mem_reverse.1 hc)]
    exact trimStart_of_first fun c hc => h.last c (by rwa [List.head?_reverse] at hc)
  rw [trim, hstart, trimEnd]
  exact (congrArg List.reverse hend).trans (List.reverse_reverse cs)

theorem word_append (hw : IsWord cs) (hrest : ∀ c ∈ rest.head?, isBlank c = true) :
    word (cs ++ rest) = cs := by
  rw [word, List.takeWhile_append_of_pos fun c hc => by simp [hw.not_blank c hc]]
  cases rest with
  | nil => simp
  | cons c rest => simp [hrest c rfl]

end Text

/-! ## Mnemonics and labels as words -/

theorem Mnemonic.isPlain_name (m : Mnemonic) : ∀ c ∈ m.name.toList, Text.isPlain c = true := by
  have key : ∀ m ∈ all, m.name.toList.all Text.isPlain = true := by decide
  exact List.all_eq_true.1 (key m (mem_all m))

theorem Mnemonic.isWord_name (m : Mnemonic) : Text.IsWord m.name.toList := by
  have key : ∀ m ∈ all, m.name.toList ≠ [] := by decide
  exact Text.isWord_of_forall_isPlain (key m (mem_all m)) m.isPlain_name

theorem IsLabel.isWord {name : String} (h : IsLabel name) : Text.IsWord name.toList :=
  Text.isWord_of_forall_isPlain h.ne_nil h.isPlain

/-! ## Writing a statement -/

/-- An operand and the blanks around it. -/
structure Slot where
  before : List Char
  operand : Operand
  after : List Char

namespace Slot

def text (s : Slot) : List Char := s.before ++ s.operand.write ++ s.after

/-- The operand can be written, with nothing but blanks around it. -/
structure Proper (s : Slot) : Prop where
  before : Text.IsBlanks s.before
  operand : s.operand.Writable
  after : Text.IsBlanks s.after

theorem Proper.closed_text {s : Slot} {stop : Char} (h : s.Proper)
    (hblank : Text.isBlank stop = false) (hplain : Text.isPlain stop = false)
    (hstop : stop ≠ quote) : Line.Closed stop s.text :=
  ((h.before.closed hblank).append (Operand.closed_write hplain hstop h.operand)).append
    (h.after.closed hblank)

/-- The operands between commas, and the blanks at the end. -/
def fieldText (slots : List Slot) (trailing : List Char) : List Char :=
  [','].intercalate (slots.map Slot.text) ++ trailing

variable {s t : Slot} {slots : List Slot} {trailing : List Char}

theorem fieldText_singleton : fieldText [s] trailing = s.text ++ trailing := by
  simp [fieldText]

theorem fieldText_cons_cons :
    fieldText (s :: t :: slots) trailing = s.text ++ ',' :: fieldText (t :: slots) trailing := by
  simp [fieldText, List.intercalate_cons_cons]

theorem fieldText_cons (s : Slot) (slots : List Slot) (trailing : List Char) :
    ∃ rest, fieldText (s :: slots) trailing = s.text ++ rest := by
  cases slots with
  | nil => exact ⟨_, fieldText_singleton⟩
  | cons t slots => exact ⟨_, fieldText_cons_cons⟩

/-- A field with operands is not blank. -/
theorem all_isBlank_fieldText (hs : s.Proper) :
    (fieldText (s :: slots) trailing).all Text.isBlank = false := by
  obtain ⟨rest, hfield⟩ := fieldText_cons s slots trailing
  obtain ⟨c, cs, hwrite⟩ := List.exists_cons_of_ne_nil (Operand.solid_write hs.operand).ne_nil
  have hc : Text.isBlank c = false :=
    (Operand.solid_write hs.operand).first c (by simp [hwrite])
  simp [hfield, text, hwrite, hc]

theorem closed_fieldText (hs : ∀ s ∈ slots, s.Proper) (ht : Text.IsBlanks trailing) :
    Line.Closed ';' (fieldText slots trailing) := by
  have htrailing : Line.Closed ';' trailing := ht.closed (by decide)
  induction slots with
  | nil => exact htrailing
  | cons s slots ih =>
    have hclosed : Line.Closed ';' s.text :=
      (hs s List.mem_cons_self).closed_text (by decide) (by decide) (by decide)
    cases slots with
    | nil => exact fieldText_singleton ▸ hclosed.append htrailing
    | cons t slots =>
      have hcomma : Line.Closed ';' [','] := Line.closed_of_forall_ne (by simp [quote])
      have ih := ih fun s hs' => hs s (List.mem_cons_of_mem _ hs')
      exact fieldText_cons_cons ▸ hclosed.append (hcomma.append ih)

end Slot

/-- A line as written: a statement, the blanks in and around it, and a comment. -/
structure Written where
  indent : List Char
  /-- The label and the blanks after it. -/
  label : Option (String × List Char)
  mnemonic : Mnemonic
  slots : List Slot
  trailing : List Char
  /-- What follows the semicolon. -/
  comment : Option (List Char)

namespace Written

def labelText (w : Written) : List Char :=
  match w.label with
  | none => []
  | some (name, gap) => name.toList ++ gap

/-- The operands between commas, after the mnemonic. -/
def body (w : Written) : List Char :=
  w.mnemonic.name.toList ++ Slot.fieldText w.slots w.trailing

def code (w : Written) : List Char := w.indent ++ (w.labelText ++ w.body)

def text (w : Written) : List Char :=
  match w.comment with
  | none => w.code
  | some comment => w.code ++ ';' :: comment

/-- A statement that can be written, in a layout that keeps its words apart. -/
structure Proper (w : Written) : Prop where
  indent : Text.IsBlanks w.indent
  /-- A label is no mnemonic, and blanks set it off. -/
  label : ∀ name gap, w.label = some (name, gap) →
    IsLabel name ∧ (∀ m : Mnemonic, m.name ≠ name) ∧ gap ≠ [] ∧ Text.IsBlanks gap
  slots : ∀ s ∈ w.slots, s.Proper
  /-- Blanks set the first operand off from the mnemonic. -/
  gap : ∀ s ∈ w.slots.head?, s.before ≠ []
  trailing : Text.IsBlanks w.trailing

end Written

/-! ## The operand field -/

namespace Line

variable {slots : List Slot} {trailing : List Char}

theorem arg?_text (line : Line) (start : Nat) {s : Slot} (hs : s.Proper)
    (ht : Text.IsBlanks trailing) :
    ∃ arg, line.arg? start (s.text ++ trailing) = .ok arg ∧ arg.operand = s.operand := by
  have hsolid := Operand.solid_write hs.operand
  have htrim : Text.trim (s.text ++ trailing) = s.operand.write := by
    rw [Slot.text, List.append_assoc]
    exact Text.trim_append hs.before (hs.after.append ht) hsolid
  exact ⟨_, arg?_of_ok htrim hsolid.ne_nil (Operand.ofText?_write hs.operand), rfl⟩

/-- Reading the pieces of a field reads its operands, one after another. -/
theorem argsOnto_pieces (line : Line) (done : List Arg) (start : Nat) (hne : slots ≠ [])
    (hs : ∀ s ∈ slots, s.Proper) (ht : Text.IsBlanks trailing) :
    ∃ args, line.argsOnto done start (pieces (Slot.fieldText slots trailing)) = .ok args ∧
      args.map Arg.operand = done.reverse.map Arg.operand ++ slots.map Slot.operand := by
  induction slots generalizing done start with
  | nil => exact absurd rfl hne
  | cons s slots ih =>
    have hproper := hs s List.mem_cons_self
    have hclosed : Closed ',' s.text := hproper.closed_text (by decide) (by decide) (by decide)
    cases slots with
    | nil =>
      -- the last piece takes the blanks at the end of the field with it
      have hlast : Closed ',' (s.text ++ trailing) := hclosed.append (ht.closed (by decide))
      obtain ⟨arg, harg, hoperand⟩ := line.arg?_text start hproper ht
      rw [Slot.fieldText_singleton, pieces_of_closed hlast, argsOnto, harg]
      exact ⟨_, rfl, by simp [hoperand]⟩
    | cons t slots =>
      have hnone : Text.IsBlanks [] := by decide
      obtain ⟨arg, harg, hoperand⟩ := line.arg?_text start hproper hnone
      obtain ⟨args, hargs, hoperands⟩ := ih (arg :: done) (start + Text.byteLength s.text + 1)
        (List.cons_ne_nil t slots) fun s hs' => hs s (List.mem_cons_of_mem _ hs')
      rw [List.append_nil] at harg
      rw [Slot.fieldText_cons_cons, pieces_append_comma hclosed, argsOnto, harg]
      exact ⟨args, hargs, by simp [hoperands, hoperand]⟩

theorem args?_fieldText (line : Line) (start : Nat) (hs : ∀ s ∈ slots, s.Proper)
    (ht : Text.IsBlanks trailing) :
    ∃ args, line.args? start (Slot.fieldText slots trailing) = .ok args ∧
      args.map Arg.operand = slots.map Slot.operand := by
  cases slots with
  | nil => exact ⟨[], if_pos (List.all_eq_true.2 ht), rfl⟩
  | cons s slots =>
    have hnot : ¬(Slot.fieldText (s :: slots) trailing).all Text.isBlank = true := by
      simp only [Slot.all_isBlank_fieldText (hs s List.mem_cons_self), Bool.false_eq_true,
        not_false_eq_true]
    obtain ⟨args, hargs, hoperands⟩ :=
      line.argsOnto_pieces [] start (List.cons_ne_nil s slots) hs ht
    exact ⟨args, (if_neg hnot).trans hargs, hoperands⟩

end Line

/-! ## The whole line -/

namespace Written

variable {w : Written}

theorem Proper.first_field (h : w.Proper) :
    ∀ c ∈ (Slot.fieldText w.slots w.trailing).head?, Text.isBlank c = true := by
  intro c hc
  cases hslots : w.slots with
  | nil =>
    rw [hslots] at hc
    exact h.trailing c (List.mem_of_head? hc)
  | cons s slots =>
    obtain ⟨rest, hfield⟩ := Slot.fieldText_cons s slots w.trailing
    have hgap : s.before ≠ [] := h.gap s (by simp [hslots])
    rw [hslots, hfield, Slot.text, List.append_assoc, List.append_assoc,
      List.head?_append_of_ne_nil _ hgap] at hc
    exact (h.slots s (by simp [hslots])).before c (List.mem_of_head? hc)

theorem Proper.word_body (h : w.Proper) : Text.word w.body = w.mnemonic.name.toList :=
  Text.word_append w.mnemonic.isWord_name h.first_field

theorem Proper.closed_code (h : w.Proper) : Line.Closed ';' w.code := by
  have hplain {cs : List Char} (hcs : ∀ c ∈ cs, Text.isPlain c = true) : Line.Closed ';' cs :=
    Line.closed_of_forall_isPlain (by decide) hcs
  have hlabel : Line.Closed ';' w.labelText := by
    unfold labelText
    split
    · exact Line.closed_of_forall_ne (by simp)
    · rename_i name gap hlabel
      obtain ⟨hname, -, -, hgap⟩ := h.label name gap hlabel
      exact (hplain hname.isPlain).append (hgap.closed (by decide))
  have hbody : Line.Closed ';' w.body :=
    (hplain w.mnemonic.isPlain_name).append (Slot.closed_fieldText h.slots h.trailing)
  exact (h.indent.closed (by decide)).append (hlabel.append hbody)

theorem Proper.code_text (h : w.Proper) : Line.code w.text = w.code := by
  unfold text
  split
  · exact Line.code_of_closed h.closed_code
  · exact Line.code_append_comment h.closed_code

end Written

namespace Line

variable {w : Written} {gap : List Char}

theorem body?_text (line : Line) (label : Option Located) (start : Nat) (h : w.Proper)
    (hgap : Text.IsBlanks gap) :
    ∃ s, line.body? label start (gap ++ w.body) = .ok s ∧ s.label = label ∧
      s.mnemonic = w.mnemonic ∧ s.args.map Arg.operand = w.slots.map Slot.operand := by
  have hstart : Text.trimStart (gap ++ w.body) = w.body :=
    Text.trimStart_append_word hgap w.mnemonic.isWord_name
  have hdrop : w.body.drop w.mnemonic.name.toList.length = Slot.fieldText w.slots w.trailing :=
    List.drop_left
  simp only [body?, hstart, h.word_body, hdrop, String.ofList_toList, Mnemonic.ofName?_name]
  obtain ⟨args, hargs, hoperands⟩ := line.args?_fieldText _ h.slots h.trailing
  rw [hargs]
  exact ⟨_, rfl, rfl, rfl, hoperands⟩

/-- A line whose first word is a mnemonic has no label. -/
theorem statement?_of_mnemonic (line : Line) (h : w.Proper) (hgap : Text.IsBlanks gap)
    (hcode : code line.text = gap ++ w.body) :
    line.statement? = (line.body? none line.offset (gap ++ w.body)).map some := by
  have hname := w.mnemonic.isWord_name
  have hstart : Text.trimStart (gap ++ w.body) = w.body := Text.trimStart_append_word hgap hname
  simp only [statement?, hcode, hstart, h.word_body, if_neg hname.ne_nil, String.ofList_toList,
    Mnemonic.ofName?_name, Option.isSome_some, if_true]

/-- A first word that is a label but no mnemonic is the label of what follows. -/
theorem statement?_of_label (line : Line) {indent : List Char} {name : String}
    (hindent : Text.IsBlanks indent) (hlabel : IsLabel name) (hname : ∀ m : Mnemonic, m.name ≠ name)
    (hne : gap ≠ []) (hgap : Text.IsBlanks gap)
    (hcode : code line.text = indent ++ (name.toList ++ (gap ++ w.body))) :
    ∃ span, line.statement? =
      (line.body? (some ⟨name, span⟩) span.stop (gap ++ w.body)).map some := by
  have hstart : Text.trimStart (indent ++ (name.toList ++ (gap ++ w.body))) =
      name.toList ++ (gap ++ w.body) := Text.trimStart_append_word hindent hlabel.isWord
  have hword : Text.word (name.toList ++ (gap ++ w.body)) = name.toList := by
    refine Text.word_append hlabel.isWord fun c hc => hgap c ?_
    rw [List.head?_append_of_ne_nil _ hne] at hc
    exact List.mem_of_head? hc
  have hunknown : Mnemonic.ofName? name = none := by
    simpa [Mnemonic.ofName?] using fun m _ => hname m
  -- the mnemonic is there, so the instruction is not missing
  have hrest : (gap ++ w.body).all Text.isBlank = false := by
    obtain ⟨c, cs, heq⟩ := List.exists_cons_of_ne_nil w.mnemonic.isWord_name.ne_nil
    have hc := w.mnemonic.isWord_name.not_blank c (by simp [heq])
    simp [Written.body, heq, hc]
  simp only [statement?, hcode, hstart, hword, if_neg hlabel.ne_nil, String.ofList_toList, hunknown,
    hlabel.isLabel, List.drop_left, hrest]
  exact ⟨_, rfl⟩

/-- Reading a line gives back the label, the mnemonic and the operands that were written. -/
theorem statement?_text (w : Written) (h : w.Proper) (number offset : Nat) :
    ∃ s, (Line.mk w.text number offset).statement? = .ok (some s) ∧
      s.label.map Located.text = w.label.map Prod.fst ∧ s.mnemonic = w.mnemonic ∧
      s.args.map Arg.operand = w.slots.map Slot.operand := by
  rcases hlabel : w.label with - | ⟨name, gap⟩
  · have hcode : code w.text = w.indent ++ w.body := by
      simp only [h.code_text, Written.code, Written.labelText, hlabel, List.nil_append]
    obtain ⟨s, hbody, hs, hrest⟩ := (Line.mk w.text number offset).body?_text none offset h h.indent
    refine ⟨s, ?_, by simp [hs], hrest⟩
    rw [statement?_of_mnemonic _ h h.indent hcode, hbody]
    rfl
  · obtain ⟨hname, hmnemonic, hne, hgap⟩ := h.label name gap hlabel
    have hcode : code w.text = w.indent ++ (name.toList ++ (gap ++ w.body)) := by
      simp only [h.code_text, Written.code, Written.labelText, hlabel, List.append_assoc]
    obtain ⟨span, hstatement⟩ := statement?_of_label (Line.mk w.text number offset)
      h.indent hname hmnemonic hne hgap hcode
    obtain ⟨s, hbody, hs, hrest⟩ :=
      (Line.mk w.text number offset).body?_text (some ⟨name, span⟩) span.stop h hgap
    refine ⟨s, ?_, by simp [hs], hrest⟩
    rw [hstatement, hbody]
    rfl

end Line

/-- A line that says as much with quotes as a line can: a constant with a quote, a semicolon, a
comma and blanks in it, and a comment with a quote in it. -/
def Written.quotes : Written where
  indent := ['\u3000']
  label := some ("K9", [' '])
  mnemonic := .directive .constant
  slots :=
    [⟨['\t'], .chars "IT'S; ,", [' ']⟩, ⟨[], .integer (-32768), []⟩,
      ⟨[' '], .register ⟨7, by decide⟩, []⟩, ⟨[], .symbol "A1", [' ']⟩]
  trailing := []
  comment := some "it's".toList

theorem Written.proper_quotes : Written.quotes.Proper where
  indent := by decide
  label := by
    rintro name gap ⟨⟩
    refine ⟨⟨⟨'K', ['9'], by decide, by decide, by simp⟩, by decide⟩, fun m => ?_, by decide,
      by decide⟩
    have key : ∀ m ∈ Mnemonic.all, m.name ≠ "K9" := by decide
    exact key m m.mem_all
  slots := by
    have hsymbol : IsLabel "A1" := ⟨⟨'A', ['1'], by decide, by decide, by simp⟩, by decide⟩
    intro s hs
    simp only [Written.quotes, List.mem_cons, List.not_mem_nil, or_false] at hs
    rcases hs with rfl | rfl | rfl | rfl
    · exact ⟨by decide, ⟨by decide, by simp⟩, by decide⟩
    · exact ⟨by decide, ⟨by decide, by decide⟩, by decide⟩
    · exact ⟨by decide, trivial, by decide⟩
    · exact ⟨by decide, hsymbol, by decide⟩
  gap := by
    rintro s ⟨⟩
    decide
  trailing := by decide

theorem Line.statement?_text_quotes :
    Written.quotes.text = "\u3000K9 DC\t'IT''S; ,' ,-32768, GR7,A1 ;it's".toList ∧
      ∃ s, (Line.mk Written.quotes.text 1 0).statement? = .ok (some s) ∧
        s.label.map Located.text = some "K9" ∧ s.mnemonic = .directive .constant ∧
        s.args.map Arg.operand =
          [.chars "IT'S; ,", .integer (-32768), .register 7, .symbol "A1"] :=
  ⟨by decide, Line.statement?_text Written.quotes Written.proper_quotes 1 0⟩

end Comet
