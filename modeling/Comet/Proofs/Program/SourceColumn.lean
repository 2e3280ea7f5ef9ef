import Comet.Proofs.Layout.Alike

/-!
# The source column is a program

The source that a statement records is the core of its line. It is a line that gives the statement
back, and the sources of an assembled program, one to a line, assemble to the same program.

* `Line.statement?_source`: one statement.
* `Layout.ofLines?_throughEnd`: nothing behind END is needed.
* `Line.map_core_withCode`: the cores of lines without an error are the sources of their statements.
* `source_column_faithful`: the whole program.
-/

namespace Comet

theorem throughFirst_throughFirst {α : Type} (p : α → Bool) (as : List α) :
    throughFirst p (throughFirst p as) = throughFirst p as := by
  induction as with
  | nil => rfl
  | cons a as ih =>
    rw [throughFirst]
    split
    · next ha => rw [throughFirst, if_pos ha]
    · next ha => rw [throughFirst, if_neg ha, ih]

namespace Line

variable {line : Line} {s : Statement}

/-- **The source of a statement gives the statement**, spans included, if it is read where it stands
in the line. -/
theorem statement?_source (h : line.statement? = .ok (some s)) :
    Line.statement? ⟨s.source.toList, line.number, line.coreStart⟩ = .ok (some s) := by
  rw [source_of_statement? h, String.toList_ofList]
  exact statement?_core h

/-- The cores of lines without an error are the sources of their statements. -/
theorem map_core_withCode {lines : List Line} (h : ∀ line ∈ lines, ∃ s, line.statement? = .ok s) :
    (withCode lines).map (core ·.text) =
      (lines.filterMap fun line => Reading.statement? line.statement?).map (·.source.toList) := by
  induction lines with
  | nil => rfl
  | cons line lines ih =>
    obtain ⟨⟨s?, hs⟩, hlines⟩ := List.forall_mem_cons.1 h
    have ih := ih hlines
    cases s? with
    | none =>
      have hcore := core_of_statement?_none hs
      rw [withCode, List.filter_cons_of_neg (by simpa using hcore), ← withCode, ih,
        List.filterMap_cons, hs]
      rfl
    | some s =>
      have hcore : core line.text ≠ [] := fun hnil => by
        rw [statement?_of_core_nil hnil] at hs
        cases hs
      rw [withCode, List.filter_cons_of_pos (by simpa using hcore), List.map_cons, ← withCode, ih,
        List.filterMap_cons, hs]
      simp [Reading.statement?, source_of_statement? hs]

end Line

/-- Nothing behind END is needed. -/
theorem Layout.ofLines?_throughEnd {lines : List Line} {l : Layout} (h : ofLines? lines = .ok l) :
    ofLines? (Line.throughEnd lines) = .ok l := by
  have hidem : Line.throughEnd (Line.throughEnd lines) = Line.throughEnd lines :=
    throughFirst_throughFirst _ lines
  rw [ofLines?_eq_ok, Line.program] at h ⊢
  rwa [hidem]

namespace Assembly

variable {source : String} {a : Assembly}

/-- The sources of the statements, one to a line. -/
def sourceColumn (a : Assembly) : String :=
  "\n".intercalate (a.layout.placed.toList.map (·.statement.source))

theorem exists_line_of_placed {p : Placed} (h : Assembly.ofSource? source = .ok a)
    (hp : p ∈ a.layout.placed.toList) :
    ∃ line ∈ Line.split source.toList, line.statement? = .ok (some p.statement) := by
  obtain ⟨-, -, -, hlayout⟩ := ofSource?_eq_ok.1 h
  rw [hlayout] at hp
  refine Line.mem_of_mem_program ?_
  rw [← Layout.map_statement_placedFrom 0 (Line.program _)]
  exact List.mem_map_of_mem hp

/-- The lines of the source column are the sources: each is one line, and all of it is code. -/
theorem map_core_withCode_sourceColumn (h : Assembly.ofSource? source = .ok a) :
    (Line.withCode (Line.split a.sourceColumn.toList)).map (Line.core ·.text) =
      a.layout.placed.toList.map (·.statement.source.toList) := by
  have hsource : ∀ l ∈ a.layout.placed.toList.map (·.statement.source.toList),
      '\n' ∉ l ∧ Line.core l = l ∧ l ≠ [] := by
    intro l hl
    obtain ⟨p, hp, rfl⟩ := List.mem_map.1 hl
    obtain ⟨line, hline, hs⟩ := exists_line_of_placed h hp
    rw [Line.source_of_statement? hs, String.toList_ofList]
    refine ⟨fun hmem => (Line.in_of_mem_split hline).1 (Line.mem_of_mem_core hmem),
      Line.core_core _, fun hnil => ?_⟩
    rw [Line.statement?_of_core_nil hnil] at hs
    cases hs
  have hcolumn : a.sourceColumn.toList =
      ['\n'].intercalate (a.layout.placed.toList.map (·.statement.source.toList)) := by
    rw [sourceColumn, String.toList_intercalate, List.map_map]
    rfl
  rw [hcolumn, Line.map_core_withCode_split fun l hl => (hsource l hl).1]
  exact Line.cores_eq_self fun l hl => (hsource l hl).2

theorem exists_ofSource?_sourceColumn (h : Assembly.ofSource? source = .ok a) :
    ∃ a', Assembly.ofSource? a.sourceColumn = .ok a' ∧ a.SameProgram a' := by
  obtain ⟨hparses, hadmits, -, hlayout⟩ := ofSource?_eq_ok.1 h
  have hl : Layout.ofLines? (Line.split source.toList) = .ok a.layout :=
    Layout.ofLines?_eq_ok.2 ⟨hparses, hadmits, hlayout⟩
  have hcores : (Line.withCode (Line.throughEnd (Line.split source.toList))).map
        (Line.core ·.text) =
      (Line.withCode (Line.split a.sourceColumn.toList)).map (Line.core ·.text) := by
    rw [map_core_withCode_sourceColumn h, Line.map_core_withCode hparses, hlayout]
    show (Line.program _).map _ = (Layout.placedFrom 0 (Line.program _)).map _
    conv_lhs => rw [← Layout.map_statement_placedFrom 0 (Line.program _), List.map_map]
    rfl
  have hlayouts := Layout.agree_ofLines? hcores
  rw [Layout.ofLines?_throughEnd hl, ← hl] at hlayouts
  have hagree := agree_ofSource? hlayouts
  rw [h] at hagree
  generalize Assembly.ofSource? a.sourceColumn = column at hagree ⊢
  cases hagree with
  | ok hsame => exact ⟨_, rfl, hsame⟩

/-- **The source column is a faithful program**: the source of a statement, at the offset where it
stands, is a line that gives the statement again, and the sources of a program assemble to it. -/
theorem source_column_faithful :
    (∀ (line : Line) (s : Statement), line.statement? = .ok (some s) →
      Line.statement? ⟨s.source.toList, line.number,
        line.offset + Text.byteLength (line.text.takeWhile Text.isBlank)⟩ = .ok (some s)) ∧
    ∀ (source : String) (a : Assembly), Assembly.ofSource? source = .ok a →
      ∃ a', Assembly.ofSource? a.sourceColumn = .ok a' ∧ a.SameProgram a' :=
  ⟨fun _ _ => Line.statement?_source, fun _ _ => exists_ofSource?_sourceColumn⟩

/-- The comment, the blanks and what follows END are not in the column. -/
theorem source_column_faithful_comment :
    ∃ a, Assembly.ofSource? "\tA DC ';' ; c\n END\n??" = .ok a ∧
      a.sourceColumn = "A DC ';'\nEND" ∧
      ∃ a', Assembly.ofSource? a.sourceColumn = .ok a' ∧ a.SameProgram a' := by
  let constant : Statement :=
    { label := some ⟨"A", ⟨1, 1⟩⟩, mnemonic := .directive .constant, mnemonicSpan := ⟨3, 2⟩
      args := [⟨.chars ";", "';'", ⟨6, 3⟩, by decide⟩], line := 1, source := "A DC ';'" }
  let finish : Statement :=
    { label := none, mnemonic := .directive .finish, mnemonicSpan := ⟨15, 3⟩, args := [], line := 2
      source := "END" }
  let a : Assembly :=
    ⟨⟨#[⟨0, 1, constant⟩, ⟨1, 0, finish⟩], ⟨[("A", 0)]⟩, 1⟩, ⟨#[59], 0⟩⟩
  have ha : Assembly.ofSource? "\tA DC ';' ; c\n END\n??" = .ok a := by
    have htext : "\tA DC ';' ; c\n END\n??".toList =
        ['\t', 'A', ' ', 'D', 'C', ' ', '\'', ';', '\'', ' ', ';', ' ', 'c', '\n', ' ', 'E', 'N',
          'D', '\n', '?', '?'] := by simp
    rw [Assembly.ofSource?, htext]
    decide +kernel
  exact ⟨a, ha, by decide +kernel, source_column_faithful.2 _ a ha⟩

end Assembly

end Comet
