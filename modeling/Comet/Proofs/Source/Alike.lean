import Comet.Proofs.Source.Core

/-!
# Lines that read alike

Reading a line looks at its core alone. Two lines of the same core give statements that differ in
positions only, by as much as the cores are apart, or errors of the same cause.

* `Agree`: outcomes that succeed alike or fail alike, kept by sequences (`Agree.bind`).
* `Statement.Alike`: statements that differ in positions only; `Span.Shifted` says by how much.
* `agree_arg?`, `agree_args?`, `agree_body?`: the parts of a line, between any blanks.
* `agree_statement?`: lines of the same core.
* `statement?_core`: the core of a line is a line that gives the same statement.
-/

namespace Comet

/-! ## Outcomes that agree -/

/-- The errors have the same cause, on lines that `R` relates. -/
structure AsmError.Alike (R : Nat → Nat → Prop) (e e' : AsmError) : Prop where
  cause : e.cause = e'.cause
  line : R e.line e'.line

/-- Both computations succeed, with results that `S` relates, or both fail with errors that are
alike. -/
inductive Agree {α β : Type} (R : Nat → Nat → Prop) (S : α → β → Prop) :
    Except AsmError α → Except AsmError β → Prop
  | ok {a : α} {b : β} : S a b → Agree R S (.ok a) (.ok b)
  | error {e e' : AsmError} : e.Alike R e' → Agree R S (.error e) (.error e')

section Agree

variable {α α' β β' : Type} {R : Nat → Nat → Prop} {S : α → α' → Prop} {T : β → β' → Prop}
  {x : Except AsmError α} {x' : Except AsmError α'}

theorem Agree.bind {f : α → Except AsmError β} {f' : α' → Except AsmError β'} (h : Agree R S x x')
    (hf : ∀ a a', S a a' → Agree R T (f a) (f' a')) : Agree R T (x >>= f) (x' >>= f') := by
  cases h with
  | ok ha => exact hf _ _ ha
  | error he => exact .error he

theorem Agree.bind_eq {x' : Except AsmError α} {f : α → Except AsmError β}
    {f' : α → Except AsmError β'} (h : Agree R Eq x x') (hf : ∀ a, Agree R T (f a) (f' a)) :
    Agree R T (x >>= f) (x' >>= f') :=
  h.bind fun a _ heq => heq ▸ hf a

theorem Agree.map {f : α → β} {f' : α' → β'} (h : Agree R S x x')
    (hf : ∀ a a', S a a' → T (f a) (f' a')) : Agree R T (x.map f) (x'.map f') := by
  cases h with
  | ok ha => exact .ok (hf _ _ ha)
  | error he => exact .error he

theorem Agree.mono {S' : α → α' → Prop} (h : Agree R S x x') (hS : ∀ a a', S a a' → S' a a') :
    Agree R S' x x' := by
  cases h with
  | ok ha => exact .ok (hS _ _ ha)
  | error he => exact .error he

end Agree

/-! ## Statements that differ in positions only -/

/-- The spans have the same length, and one is as far behind `p` as the other is behind `q`. -/
structure Span.Shifted (p q : Nat) (a b : Span) : Prop where
  offset : a.offset + q = b.offset + p
  length : a.length = b.length

structure Located.Alike (P : Span → Span → Prop) (a b : Located) : Prop where
  text : a.text = b.text
  span : P a.span b.span

structure Arg.Alike (P : Span → Span → Prop) (a b : Arg) : Prop where
  operand : a.operand = b.operand
  text : a.text = b.text
  span : P a.span b.span

/-- The statements differ in positions only: in their lines, related by `R`, and in their spans,
related by `P`. -/
structure Statement.Alike (R : Nat → Nat → Prop) (P : Span → Span → Prop) (s t : Statement) :
    Prop where
  label : Option.Rel (Located.Alike P) s.label t.label
  mnemonic : s.mnemonic = t.mnemonic
  mnemonicSpan : P s.mnemonicSpan t.mnemonicSpan
  args : List.Forall₂ (Arg.Alike P) s.args t.args
  line : R s.line t.line
  source : s.source = t.source

variable {R : Nat → Nat → Prop} {P P' : Span → Span → Prop}

theorem Located.Alike.mono {a b : Located} (h : a.Alike P b) (hP : ∀ x y, P x y → P' x y) :
    a.Alike P' b := ⟨h.text, hP _ _ h.span⟩

theorem Arg.Alike.mono {a b : Arg} (h : a.Alike P b) (hP : ∀ x y, P x y → P' x y) :
    a.Alike P' b := ⟨h.operand, h.text, hP _ _ h.span⟩

theorem Statement.Alike.mono {s t : Statement} (h : s.Alike R P t) (hP : ∀ x y, P x y → P' x y) :
    s.Alike R P' t := by
  refine ⟨?_, h.mnemonic, hP _ _ h.mnemonicSpan, h.args.imp fun _ _ harg => harg.mono hP, h.line,
    h.source⟩
  have hlabel := h.label
  generalize s.label = label, t.label = label' at hlabel
  cases hlabel with
  | some hlabel => exact .some (hlabel.mono hP)
  | none => exact .none

theorem Span.Shifted.eq {p : Nat} {a b : Span} (h : Shifted p p a b) : a = b := by
  obtain ⟨hoffset, hlength⟩ := h
  obtain ⟨offset, length⟩ := a
  obtain ⟨offset', length'⟩ := b
  simp only [Span.mk.injEq] at hoffset hlength ⊢
  omega

theorem Located.Alike.eq {a b : Located} (h : a.Alike Eq b) : a = b := by
  cases a
  cases b
  obtain ⟨rfl, rfl⟩ := h
  rfl

theorem Arg.Alike.eq {a b : Arg} (h : a.Alike Eq b) : a = b := by
  cases a
  cases b
  obtain ⟨rfl, rfl, rfl⟩ := h
  rfl

/-- Statements that are alike at the same positions are the same. -/
theorem Statement.Alike.eq {s t : Statement} (h : s.Alike Eq Eq t) : s = t := by
  obtain ⟨label, mnemonic, mnemonicSpan, args, line, source⟩ := s
  obtain ⟨label', mnemonic', mnemonicSpan', args', line', source'⟩ := t
  obtain ⟨hlabel, hmnemonic, hspan, hargs, hline, hsource⟩ := h
  simp only at hlabel hmnemonic hspan hargs hline hsource
  have hlabel : label = label' := by
    cases hlabel with
    | some hlabel => rw [hlabel.eq]
    | none => rfl
  have hargs : args = args' := by
    rw [← List.forall₂_eq_eq_eq]
    exact hargs.imp fun _ _ harg => harg.eq
  rw [hlabel, hmnemonic, hspan, hargs, hline, hsource]

/-! ## Operands -/

namespace Line

variable {line line' : Line} {p q start start' : Nat} {field b b' : List Char}

/-- Blanks behind a piece make no difference to its operand. -/
theorem agree_arg? (piece : List Char) (hline : R line.number line'.number)
    (hstart : start + q = start' + p) (hb : Text.IsBlanks b) (hb' : Text.IsBlanks b') :
    Agree R (Arg.Alike (Span.Shifted p q)) (line.arg? start (piece ++ b))
      (line'.arg? start' (piece ++ b')) := by
  have htrimmed := Text.trim_append_blanks hb piece
  have htrimmed' := Text.trim_append_blanks hb' piece
  rcases Text.trim_cases piece with ⟨-, htrim⟩ | ⟨hsolid, before, after, hbefore, -, hpiece⟩
  · simp only [arg?, htrimmed, htrimmed', if_pos htrim]
    exact .error ⟨rfl, hline⟩
  · have htake (cs : List Char) : (piece ++ cs).takeWhile Text.isBlank = before := by
      conv_lhs => rw [hpiece]
      rw [List.append_assoc, List.append_assoc]
      exact Text.takeWhile_isBlank_append hbefore hsolid _
    have hspan : Span.Shifted p q (argSpan start (piece ++ b)) (argSpan start' (piece ++ b')) := by
      simp only [argSpan, htake, htrimmed, htrimmed']
      exact ⟨by simp only; omega, rfl⟩
    have hne := hsolid.ne_nil
    cases hread : Operand.ofText? (Text.trim piece) with
    | error reason =>
      rw [arg?_of_error htrimmed hne hread, arg?_of_error htrimmed' hne hread]
      exact .error ⟨rfl, hline⟩
    | ok operand =>
      rw [arg?_of_ok htrimmed hne hread, arg?_of_ok htrimmed' hne hread]
      exact .ok ⟨rfl, rfl, hspan⟩

/-- Blanks behind a field end up behind its last piece. -/
theorem exists_pieces_append (field : List Char) : ∃ (init : List (List Char)) (last : List Char),
    ∀ b, Text.IsBlanks b → pieces (field ++ b) = init ++ [last ++ b] := by
  -- what has been read of the last piece is the same for all blanks, and blanks add to it only
  have honto : ∀ (current cs : List Char) (quoted : Bool), ∃ (init : List (List Char))
      (last : List Char), ∀ b, Text.IsBlanks b →
        piecesOnto [] current quoted (cs ++ b) = init ++ [last ++ b] := by
    intro current cs quoted
    induction cs generalizing current quoted with
    | nil =>
      refine ⟨[], current.reverse, fun b hb => ?_⟩
      have hnot : ',' ∉ b := fun hmem => absurd (hb _ hmem) (by decide)
      have hhides : Hides ',' quoted b := hides_of_not_mem hnot
      have hread := piecesOnto_append current [] hhides
      rw [List.append_nil] at hread
      rw [List.nil_append, hread]
      simp [piecesOnto]
    | cons c cs ih =>
      by_cases hc : c = ',' ∧ quoted = false
      · obtain ⟨init, last, h⟩ := ih [] quoted
        refine ⟨current.reverse :: init, last, fun b hb => ?_⟩
        rw [List.cons_append, piecesOnto, if_pos hc, piecesOnto_eq_append, h b hb]
        rfl
      · obtain ⟨init, last, h⟩ := ih (c :: current) (quoted != (c == quote))
        refine ⟨init, last, fun b hb => ?_⟩
        rw [List.cons_append, piecesOnto, if_neg hc, h b hb]
  exact honto [] field false

/-- **Reading pieces** that are the same but for the blanks behind the last. -/
theorem agree_argsOnto {done done' : List Arg} {init : List (List Char)} {last : List Char}
    (hline : R line.number line'.number) (hstart : start + q = start' + p)
    (hb : Text.IsBlanks b) (hb' : Text.IsBlanks b')
    (hdone : List.Forall₂ (Arg.Alike (Span.Shifted p q)) done done') :
    Agree R (List.Forall₂ (Arg.Alike (Span.Shifted p q)))
      (line.argsOnto done start (init ++ [last ++ b]))
      (line'.argsOnto done' start' (init ++ [last ++ b'])) := by
  -- the pieces before the last are the same, so the places stay as far apart as they were
  induction init generalizing done done' start start' with
  | nil =>
    have harg := agree_arg? last hline hstart hb hb'
    simp only [List.nil_append, argsOnto]
    generalize line.arg? start (last ++ b) = r, line'.arg? start' (last ++ b') = r' at harg
    cases harg with
    | ok harg => exact .ok (List.rel_reverse (.cons harg hdone))
    | error he => exact .error he
  | cons piece init ih =>
    have hnone : Text.IsBlanks [] := by decide
    have harg := agree_arg? piece hline hstart hnone hnone
    simp only [List.cons_append, argsOnto]
    rw [List.append_nil] at harg
    generalize line.arg? start piece = r, line'.arg? start' piece = r' at harg
    cases harg with
    | ok harg => exact ih (by omega) (.cons harg hdone)
    | error he => exact .error he

theorem agree_args? (field : List Char) (hline : R line.number line'.number)
    (hstart : start + q = start' + p) (hb : Text.IsBlanks b) (hb' : Text.IsBlanks b') :
    Agree R (List.Forall₂ (Arg.Alike (Span.Shifted p q))) (line.args? start (field ++ b))
      (line'.args? start' (field ++ b')) := by
  rw [args?, args?, Text.all_isBlank_append hb, Text.all_isBlank_append hb']
  split
  · exact .ok .nil
  · obtain ⟨init, last, hpieces⟩ := exists_pieces_append field
    rw [hpieces b hb, hpieces b' hb']
    exact agree_argsOnto hline hstart hb hb' .nil

/-! ## Whole lines -/

/-- **Reading a mnemonic and its operands** between any blanks, in lines of the same core. -/
theorem agree_body? {label label' : Option Located} {a a' body : List Char}
    (hcore : core line.text = core line'.text) (hline : R line.number line'.number)
    (hlabel : Option.Rel (Located.Alike (Span.Shifted p q)) label label') (hbody : Text.Solid body)
    (ha : Text.IsBlanks a) (ha' : Text.IsBlanks a') (hb : Text.IsBlanks b)
    (hb' : Text.IsBlanks b')
    (hstart : start + Text.byteLength a + q = start' + Text.byteLength a' + p) :
    Agree R (Statement.Alike R (Span.Shifted p q)) (line.body? label start (a ++ (body ++ b)))
      (line'.body? label' start' (a' ++ (body ++ b'))) := by
  simp only [body?, Text.trimStart_append_solid ha hbody, Text.trimStart_append_solid ha' hbody,
    Text.word_append_blanks hb, Text.word_append_blanks hb', Text.takeWhile_isBlank_append ha hbody,
    Text.takeWhile_isBlank_append ha' hbody, Text.drop_word_append]
  cases Mnemonic.ofName? (String.ofList (Text.word body)) with
  | none => exact .error ⟨rfl, hline⟩
  | some mnemonic =>
    have hstop : Span.stop ⟨start + Text.byteLength a, Text.byteLength (Text.word body)⟩ + q =
        Span.stop ⟨start' + Text.byteLength a', Text.byteLength (Text.word body)⟩ + p := by
      simp only [Span.stop]
      omega
    have hargs := agree_args? (body.drop (Text.word body).length) hline hstop hb hb'
    simp only
    generalize line.args? _ _ = args, line'.args? _ _ = args' at hargs
    cases hargs with
    | ok hargs => exact .ok ⟨hlabel, rfl, ⟨hstart, rfl⟩, hargs, hline, congrArg String.ofList hcore⟩
    | error he => exact .error he

/-- The byte behind the blanks at the start of a line. -/
def coreStart (line : Line) : Nat :=
  line.offset + Text.byteLength (line.text.takeWhile Text.isBlank)

theorem statement?_of_core_nil (h : core line.text = []) : line.statement? = .ok none := by
  rcases core_cases line.text with ⟨hblanks, -⟩ | ⟨hsolid, -⟩
  · have hstart : Text.trimStart (code line.text) = [] := List.dropWhile_eq_nil_iff.2 hblanks
    simp only [statement?, hstart]
    rfl
  · exact absurd h hsolid.ne_nil

/-- **Lines of the same core read alike.** -/
theorem agree_statement? (hcore : core line.text = core line'.text)
    (hline : R line.number line'.number) :
    Agree R (Option.Rel (Statement.Alike R (Span.Shifted line.coreStart line'.coreStart)))
      line.statement? line'.statement? := by
  rcases core_cases line.text with ⟨-, hnil⟩ | ⟨hsolid, a, b, ha, hb, hcode⟩
  · rw [statement?_of_core_nil hnil, statement?_of_core_nil (hcore ▸ hnil)]
    exact .ok .none
  rcases core_cases line'.text with ⟨-, hnil⟩ | ⟨-, a', b', ha', hb', hcode'⟩
  · exact absurd (hcore.trans hnil) hsolid.ne_nil
  rw [← hcore] at hcode'
  have hstart : line.offset + Text.byteLength a = line.coreStart := by
    rw [coreStart, takeWhile_isBlank_of_code ha hsolid hcode]
  have hstart' : line'.offset + Text.byteLength a' = line'.coreStart := by
    rw [coreStart, takeWhile_isBlank_of_code ha' hsolid hcode']
  have hlabel (text : String) (length : Nat) :
      Option.Rel (Located.Alike (Span.Shifted line.coreStart line'.coreStart))
        (some ⟨text, line.offset + Text.byteLength a, length⟩)
        (some ⟨text, line'.offset + Text.byteLength a', length⟩) :=
    .some ⟨rfl, by simp only; omega, rfl⟩
  simp only [statement?, hcode, hcode', Text.trimStart_append_solid ha hsolid,
    Text.trimStart_append_solid ha' hsolid, Text.word_append_blanks hb,
    Text.word_append_blanks hb', Text.takeWhile_isBlank_append ha hsolid,
    Text.takeWhile_isBlank_append ha' hsolid, Text.drop_word_append, Text.all_isBlank_append hb,
    Text.all_isBlank_append hb', if_neg hsolid.word_ne_nil]
  split
  · exact (agree_body? hcore hline .none hsolid ha ha' hb hb' (by omega)).map fun _ _ => .some
  split
  · exact .error ⟨rfl, hline⟩
  split
  · exact .error ⟨rfl, hline⟩
  · -- a label, and the rest of the core behind it
    next hrest =>
    rcases Text.trim_cases ((core line.text).drop (Text.word (core line.text)).length) with
      ⟨hblanks, -⟩ | ⟨hbody, before, after, hbefore, hafter, heq⟩
    · exact absurd (List.all_eq_true.2 hblanks) hrest
    · generalize (core line.text).drop (Text.word (core line.text)).length = rest at heq hbody
      have hfield (cs : List Char) :
          rest ++ cs = before ++ (Text.trim rest ++ (after ++ cs)) := by
        conv_lhs => rw [heq]
        simp only [List.append_assoc]
      rw [hfield b, hfield b']
      refine (agree_body? hcore hline (hlabel _ _) hbody hbefore hbefore (hafter.append hb)
        (hafter.append hb') ?_).map fun _ _ => .some
      simp only [Span.stop]
      omega

theorem core_of_statement?_none (h : line.statement? = .ok none) : core line.text = [] := by
  rcases core_cases line.text with ⟨-, hnil⟩ | ⟨hsolid, a, b, ha, hb, hcode⟩
  · exact hnil
  have hmap (x : Except AsmError Statement) : x.map some ≠ .ok none := by cases x <;> exact nofun
  simp only [statement?, hcode, Text.trimStart_append_solid ha hsolid, Text.word_append_blanks hb,
    if_neg hsolid.word_ne_nil] at h
  split at h
  · exact absurd h (hmap _)
  split at h
  · cases h
  split at h
  · cases h
  · exact absurd h (hmap _)

theorem source_of_body? {label : Option Located} {s : Statement}
    (h : line.body? label start field = .ok s) : s.source = String.ofList (core line.text) := by
  simp only [body?] at h
  split at h
  · cases h
  split at h
  · cases h
  · cases h
    rfl

/-- The source of a statement is the core of its line. -/
theorem source_of_statement? {s : Statement} (h : line.statement? = .ok (some s)) :
    s.source = String.ofList (core line.text) := by
  have hmap {x : Except AsmError Statement} (hx : x.map some = .ok (some s)) : x = .ok s := by
    cases x with
    | error e => cases hx
    | ok t => cases hx; rfl
  simp only [statement?] at h
  split at h
  · cases h
  split at h
  · exact source_of_body? (hmap h)
  split at h
  · cases h
  split at h
  · cases h
  · exact source_of_body? (hmap h)

/-- **The core of a line gives the statement of the line**, read at the byte at which it starts. -/
theorem statement?_core {s : Statement} (h : line.statement? = .ok (some s)) :
    Line.statement? ⟨core line.text, line.number, line.coreStart⟩ = .ok (some s) := by
  have hsolid : Text.Solid (core line.text) := by
    rcases core_cases line.text with ⟨-, hnil⟩ | ⟨hsolid, -⟩
    · rw [statement?_of_core_nil hnil] at h
      cases h
    · exact hsolid
  have hstart : coreStart ⟨core line.text, line.number, line.coreStart⟩ = line.coreStart := by
    have hnone : Text.IsBlanks [] := nofun
    have htake := Text.takeWhile_isBlank_append hnone hsolid []
    rw [List.nil_append, List.append_nil] at htake
    rw [coreStart, htake]
    rfl
  have hagree := @agree_statement? Eq line ⟨core line.text, line.number, line.coreStart⟩
    (core_core line.text).symm rfl
  rw [h, hstart] at hagree
  generalize statement? _ = r at hagree ⊢
  cases hagree with
  | ok hsome =>
    cases hsome with
    | some halike => rw [(halike.mono fun _ _ hspan => hspan.eq).eq]

end Line

end Comet
