import Comet.Proofs.Layout.Alike

/-!
# Changing the layout of a source

A source can be laid out anew without changing its program: by blanks around its lines, by line
ends, by comments and by lines that hold nothing else (`Line.Edit`, `Line.Relayout`).

* `Relayout.cores_eq`: each of these changes leaves the cores of the lines as they are.
* `relayout_keeps_program`: so the program stays the same, and so does the error if there is one.
-/

namespace Comet

theorem not_mem_of_mem_splitOn {α : Type} [BEq α] [LawfulBEq α] {a : α} {cs l : List α}
    (h : l ∈ cs.splitOn a) : a ∉ l := by
  induction cs generalizing l with
  | nil =>
    rw [List.splitOn_nil, List.mem_singleton] at h
    simp [h]
  | cons c cs ih =>
    rw [List.splitOn, List.splitOnP_cons_eq_if_modifyHead] at h
    split at h
    · rcases List.mem_cons.1 h with rfl | h
      · exact List.not_mem_nil
      · exact ih h
    · next hc =>
      obtain ⟨first, rest, hsplit⟩ := List.exists_cons_of_ne_nil (List.splitOn_ne_nil a cs)
      rw [hsplit] at ih
      rw [← List.splitOn, hsplit, List.modifyHead_cons] at h
      rcases List.mem_cons.1 h with rfl | h
      · have hne : a ≠ c := fun heq => hc (by simp [heq])
        have hfirst := ih List.mem_cons_self
        simp [hne, hfirst]
      · exact ih (List.mem_cons_of_mem _ h)

namespace Line

variable {l l' : List Char} {ls ls' : List (List Char)}

/-- The texts between the newlines of a source. -/
def texts (source : String) : List (List Char) := source.toList.splitOn '\n'

/-- A change to the layout of a line. A semicolon begins a comment where the number of quotes before
it is even. -/
inductive Edit : List Char → List Char → Prop
  | blanksBefore (blanks l : List Char) : Text.IsBlanks blanks → Edit l (blanks ++ l)
  | blanksAfter (blanks l : List Char) : Text.IsBlanks blanks → Edit l (l ++ blanks)
  /-- The line ends with a carriage return and a newline. -/
  | carriageReturn (l : List Char) : Edit l (l ++ ['\r'])
  | appendComment {l : List Char} (comment : List Char) :
      Even (l.count quote) → Edit l (l ++ ';' :: comment)
  /-- What is put behind a comment is part of it. -/
  | changeComment {l : List Char} (comment comment' : List Char) :
      Even (l.count quote) → Edit (l ++ ';' :: comment) (l ++ ';' :: comment')

/-- A change to the layout of a source, given by the texts between its newlines. -/
inductive Relayout : List (List Char) → List (List Char) → Prop
  | insertBlanks (before after : List (List Char)) (blanks : List Char) :
      Text.IsBlanks blanks → Relayout (before ++ after) (before ++ blanks :: after)
  | insertComment (before after : List (List Char)) (blanks comment : List Char) :
      Text.IsBlanks blanks →
      Relayout (before ++ after) (before ++ (blanks ++ ';' :: comment) :: after)
  | edit (before after : List (List Char)) {l l' : List Char} :
      Edit l l' → Relayout (before ++ l :: after) (before ++ l' :: after)

/-! ## What stays -/

theorem core_of_isBlanks {blanks : List Char} (h : Text.IsBlanks blanks) : core blanks = [] :=
  core_append_blanks h []

theorem Edit.core_eq (h : Edit l l') : core l' = core l := by
  cases h with
  | blanksBefore blanks l hblanks => exact core_blanks_append hblanks l
  | blanksAfter blanks l hblanks => exact core_append_blanks hblanks l
  | carriageReturn l => exact core_append_blanks (by decide) l
  | appendComment comment heven => exact core_append_semicolon heven comment
  | changeComment comment comment' heven =>
    rw [core_append_semicolon heven, core_append_semicolon heven]

theorem Relayout.cores_eq (h : Relayout ls ls') : cores ls' = cores ls := by
  have hinsert {l : List Char} (before after : List (List Char)) (hl : core l = []) :
      cores (before ++ l :: after) = cores (before ++ after) := by
    have hnil : cores [l] = [] := cores_of_core_nil (by simpa using hl)
    rw [cores_append_cons, hnil, List.append_nil, cores_append]
  cases h with
  | insertBlanks before after blanks hblanks =>
    exact hinsert before after (core_of_isBlanks hblanks)
  | insertComment before after blanks comment hblanks =>
    have hcomment : core ([] ++ ';' :: comment) = core [] := core_append_semicolon Even.zero comment
    exact hinsert before after ((core_blanks_append hblanks _).trans hcomment)
  | @edit before after l l' hedit =>
    have hcores : cores [l'] = cores [l] := by
      rw [cores, cores, List.map_singleton, List.map_singleton, hedit.core_eq]
    rw [cores_append_cons, hcores, cores_append_cons]

/-- However often the layout is changed, and back. -/
theorem cores_eq_of_eqvGen (h : Relation.EqvGen Relayout ls ls') : cores ls = cores ls' := by
  induction h with
  | rel _ _ h => exact h.cores_eq.symm
  | refl _ => rfl
  | symm _ _ _ ih => exact ih.symm
  | trans _ _ _ _ _ ih ih' => exact ih.trans ih'

theorem map_core_withCode_texts (source : String) :
    (withCode (split source.toList)).map (core ·.text) = cores (texts source) := by
  have hsource : ['\n'].intercalate (texts source) = source.toList := List.intercalate_splitOn '\n'
  rw [← hsource]
  exact map_core_withCode_split fun l hl => not_mem_of_mem_splitOn hl

end Line

namespace Assembly

/-- **The layout of the text does not affect the program**: sources that differ in layout assemble
to the same program, or they fail with the same cause at corresponding lines. -/
theorem relayout_keeps_program {source source' : String}
    (h : Relation.EqvGen Line.Relayout (Line.texts source) (Line.texts source')) :
    Agree (Line.Correspond (Line.split source.toList) (Line.split source'.toList)) SameProgram
      (Assembly.ofSource? source) (Assembly.ofSource? source') := by
  refine agree_ofSource? (Layout.agree_ofLines? ?_)
  rw [Line.map_core_withCode_texts, Line.map_core_withCode_texts, Line.cores_eq_of_eqvGen h]

/-- The first semicolon of the statement is between quotes, the second begins a comment. -/
theorem relayout_keeps_program_quotes :
    let source := "A DC ';'"
    let source' := "; c\n\tA DC ';';x\r\n"
    Relation.EqvGen Line.Relayout (Line.texts source) (Line.texts source') ∧
      Agree (Line.Correspond (Line.split source.toList) (Line.split source'.toList)) SameProgram
        (Assembly.ofSource? source) (Assembly.ofSource? source') := by
  intro source source'
  let line : List Char := ['A', ' ', 'D', 'C', ' ', '\'', ';', '\'']
  have htexts : Line.texts source = [line] := by decide +kernel
  have htexts' : Line.texts source' =
      [[';', ' ', 'c'], '\t' :: line ++ [';', 'x'] ++ ['\r'], []] := by decide +kernel
  have hinsert : Relation.EqvGen Line.Relayout [line] [[';', ' ', 'c'], line, []] :=
    (Relation.EqvGen.rel _ _ (.insertComment [] [line] [] [' ', 'c'] nofun)).trans _ _ _
      (.rel _ _ (.insertBlanks [[';', ' ', 'c'], line] [] [] nofun))
  have hedit {l l' : List Char} (h : Line.Edit l l') :
      Relation.EqvGen Line.Relayout [[';', ' ', 'c'], l, []] [[';', ' ', 'c'], l', []] :=
    .rel _ _ (.edit [[';', ' ', 'c']] [[]] h)
  have h : Relation.EqvGen Line.Relayout (Line.texts source) (Line.texts source') := by
    rw [htexts, htexts']
    refine hinsert.trans _ _ _ ((hedit (.blanksBefore ['\t'] line (by decide))).trans _ _ _ ?_)
    exact (hedit (.appendComment ['x'] (by decide))).trans _ _ _ (hedit (.carriageReturn _))
  exact ⟨h, relayout_keeps_program h⟩

end Assembly

end Comet
