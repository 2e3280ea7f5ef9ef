import Comet.Proofs.Source.Lines
import Comet.Proofs.Source.StatementText

/-!
# The core of a line

The core of a line is its code without the blanks around it: all of a line that reading looks at.

* `Text.trim_cases`: what trimming leaves is either nothing or solid, with blanks around it.
* `hides_or_comment`: a line has no comment, or one behind code that stands outside quotes.
* `core_core`: the core of a line has no comment, nor blanks around it.
* `core_append_blanks`, `core_blanks_append` and `core_append_semicolon`: the edits that leave the
  core of a line as it is.
* `map_core_withCode_split`: the cores of the lines of a source.
-/

namespace Comet

/-! ## Trimming -/

namespace Text

variable {before after cs rest : List Char}

theorem isBlanks_takeWhile (cs : List Char) : IsBlanks (cs.takeWhile isBlank) :=
  fun _ hc => List.mem_takeWhile_imp hc

theorem trim_of_isBlanks (h : IsBlanks cs) : trim cs = [] := by
  have hstart : trimStart cs = [] := List.dropWhile_eq_nil_iff.2 h
  rw [trim, hstart]
  rfl

theorem exists_blanks_trimEnd (cs : List Char) :
    ∃ after, IsBlanks after ∧ cs = trimEnd cs ++ after := by
  refine ⟨(cs.reverse.takeWhile isBlank).reverse, fun c hc => ?_, ?_⟩
  · exact isBlanks_takeWhile cs.reverse c (List.mem_reverse.1 hc)
  · rw [trimEnd, ← List.reverse_append, List.takeWhile_append_dropWhile, List.reverse_reverse]

/-- **What trimming leaves**: nothing of a run of blanks, and otherwise a solid text between the
blanks. -/
theorem trim_cases (cs : List Char) :
    (IsBlanks cs ∧ trim cs = []) ∨
      Solid (trim cs) ∧ ∃ before after, IsBlanks before ∧ IsBlanks after ∧
        cs = before ++ (trim cs ++ after) := by
  obtain ⟨after, hafter, heq⟩ := exists_blanks_trimEnd (trimStart cs)
  have hparts : cs = cs.takeWhile isBlank ++ (trim cs ++ after) := by
    rw [trim, ← heq, trimStart_append_eq]
  cases htrim : trim cs with
  | nil =>
    rw [htrim, List.nil_append] at hparts
    exact .inl ⟨hparts ▸ (isBlanks_takeWhile cs).append hafter, rfl⟩
  | cons c rest =>
    have hne : trim cs ≠ [] := by simp [htrim]
    rw [← htrim]
    refine .inr ⟨⟨hne, fun d hd => ?_, fun d hd => ?_⟩, _, after, isBlanks_takeWhile cs, hafter,
      hparts⟩
    · -- it begins as the text does behind its first blanks
      have hhead : (trimStart cs).head? = some d := by
        rw [heq, List.head?_append_of_ne_nil _ (show trimEnd (trimStart cs) ≠ [] from hne)]
        exact hd
      have hnot := List.head?_dropWhile_not isBlank cs
      rw [show cs.dropWhile isBlank = trimStart cs from rfl, hhead] at hnot
      simpa using hnot
    · have hnot := List.head?_dropWhile_not isBlank (trimStart cs).reverse
      rw [trim, trimEnd, List.getLast?_reverse] at hd
      rw [Option.mem_def.1 hd] at hnot
      simpa using hnot

/-- Blanks behind a text make no difference to trimming. -/
theorem trim_append_blanks (h : IsBlanks after) (cs : List Char) :
    trim (cs ++ after) = trim cs := by
  rcases trim_cases cs with ⟨hblanks, htrim⟩ | ⟨hsolid, before, rest, hbefore, hrest, heq⟩
  · rw [htrim, trim_of_isBlanks (hblanks.append h)]
  · conv_lhs => rw [heq]
    rw [List.append_assoc, List.append_assoc, ← List.append_assoc]
    exact trim_append hbefore (hrest.append h) hsolid

theorem trim_blanks_append (h : IsBlanks before) (cs : List Char) :
    trim (before ++ cs) = trim cs := by
  rw [trim, trimStart_append h, trim]

theorem takeWhile_isBlank_append (hb : IsBlanks before) (hs : Solid cs) (rest : List Char) :
    (before ++ (cs ++ rest)).takeWhile isBlank = before := by
  obtain ⟨c, tail, hcs⟩ := List.exists_cons_of_ne_nil hs.ne_nil
  have hc : isBlank c = false := hs.first c (by simp [hcs])
  rw [List.takeWhile_append_of_pos hb, hcs]
  simp [hc]

theorem trimStart_append_solid (hb : IsBlanks before) (hs : Solid cs) (rest : List Char) :
    trimStart (before ++ (cs ++ rest)) = cs ++ rest := by
  rw [trimStart_append hb]
  refine trimStart_of_first fun c hc => hs.first c ?_
  rwa [List.head?_append_of_ne_nil _ hs.ne_nil] at hc

/-- Blanks behind a text make no difference to its first word. -/
theorem word_append_blanks (h : IsBlanks after) (cs : List Char) :
    word (cs ++ after) = word cs := by
  induction cs with
  | nil =>
    cases after with
    | nil => rfl
    | cons c after => simp [word, h c List.mem_cons_self]
  | cons c cs ih =>
    simp only [word, List.cons_append, List.takeWhile_cons] at ih ⊢
    split
    · rw [ih]
    · rfl

theorem drop_word_append (cs rest : List Char) :
    (cs ++ rest).drop (word cs).length = cs.drop (word cs).length ++ rest :=
  List.drop_append_of_le_length (List.takeWhile_prefix _).length_le

theorem Solid.word_ne_nil (h : Solid cs) : word cs ≠ [] := by
  obtain ⟨c, tail, hcs⟩ := List.exists_cons_of_ne_nil h.ne_nil
  have hc : isBlank c = false := h.first c (by simp [hcs])
  simp [hcs, word, hc]

theorem all_isBlank_append (h : IsBlanks after) (cs : List Char) :
    (cs ++ after).all isBlank = cs.all isBlank := by
  rw [List.all_append, List.all_eq_true.2 h, Bool.and_true]

end Text

namespace Line

/-! ## Comments -/

variable {stop : Char} {l cs : List Char}

theorem hides_of_not_mem {quoted : Bool} (h : stop ∉ cs) : Hides stop quoted cs := by
  induction cs generalizing quoted with
  | nil => trivial
  | cons c cs ih =>
    obtain ⟨hc, hcs⟩ : c ≠ stop ∧ stop ∉ cs := by simpa [eq_comm] using h
    exact ⟨fun hstop => hc hstop.1, ih hcs⟩

/-- Every `stop` in a text is between quotes, or one is not and ends what precedes it. -/
theorem hides_or_exists (stop : Char) (quoted : Bool) (l : List Char) :
    Hides stop quoted l ∨
      ∃ cs rest, l = cs ++ stop :: rest ∧ Hides stop quoted cs ∧ quotedAfter quoted cs = false := by
  induction l generalizing quoted with
  | nil => exact .inl trivial
  | cons c l ih =>
    by_cases hc : c = stop ∧ quoted = false
    · obtain ⟨rfl, rfl⟩ := hc
      exact .inr ⟨[], l, rfl, trivial, rfl⟩
    · rcases ih (quoted != (c == quote)) with hhides | ⟨cs, rest, rfl, hhides, hafter⟩
      · exact .inl ⟨hc, hhides⟩
      · exact .inr ⟨c :: cs, rest, rfl, ⟨hc, hhides⟩, hafter⟩

theorem code_of_hides (h : Hides ';' false l) : code l = l := by
  have hbreak := breakUnquoted_append [] [] h
  rw [List.append_nil] at hbreak
  rw [code, hbreak]
  simp [breakUnquoted]

/-- **A line and its code**: the line has no comment, or one behind its code. -/
theorem hides_or_comment (l : List Char) :
    (Hides ';' false l ∧ code l = l) ∨
      Closed ';' (code l) ∧ ∃ comment, l = code l ++ ';' :: comment := by
  rcases hides_or_exists ';' false l with h | ⟨cs, comment, rfl, hhides, hafter⟩
  · exact .inl ⟨h, code_of_hides h⟩
  · have hclosed : Closed ';' cs := ⟨hhides, hafter⟩
    rw [code_append_comment hclosed]
    exact .inr ⟨hclosed, comment, rfl⟩

theorem hides_code (l : List Char) : Hides ';' false (code l) := by
  rcases hides_or_comment l with ⟨h, hcode⟩ | ⟨hclosed, -⟩
  · rwa [hcode]
  · exact hclosed.hides

/-- What is put behind a comment is comment. -/
theorem code_append_of_comment {comment : List Char} (h : Closed ';' (code l))
    (heq : l = code l ++ ';' :: comment) (cs : List Char) : code (l ++ cs) = code l := by
  conv_lhs => rw [heq, List.append_assoc, List.cons_append]
  exact code_append_comment h

theorem quotedAfter_eq (quoted : Bool) (l : List Char) :
    quotedAfter quoted l = (quoted != (l.count quote % 2 == 1)) := by
  induction l generalizing quoted with
  | nil => cases quoted <;> rfl
  | cons c l ih =>
    rw [quotedAfter_cons, ih, List.count_cons]
    by_cases hc : c = quote
    · rw [beq_iff_eq.2 hc]
      rcases Nat.mod_two_eq_zero_or_one (l.count quote) with h | h <;>
        cases quoted <;> simp [h, Nat.add_mod]
    · simp [beq_eq_false_iff_ne.2 hc]

/-! ## Cores -/

/-- The code of a line without the blanks around it. -/
def core (l : List Char) : List Char := Text.trim (code l)

theorem core_append_blanks {blanks : List Char} (h : Text.IsBlanks blanks) (l : List Char) :
    core (l ++ blanks) = core l := by
  rcases hides_or_comment l with ⟨hhides, hcode⟩ | ⟨hclosed, comment, heq⟩
  · have hnot : ';' ∉ blanks := fun hmem => absurd (h _ hmem) (by decide)
    have hall : Hides ';' false (l ++ blanks) := hides_append.2 ⟨hhides, hides_of_not_mem hnot⟩
    rw [core, core, code_of_hides hall, hcode, Text.trim_append_blanks h]
  · rw [core, code_append_of_comment hclosed heq, core]

theorem core_blanks_append {blanks : List Char} (h : Text.IsBlanks blanks) (l : List Char) :
    core (blanks ++ l) = core l := by
  have hblanks : Closed ';' blanks := h.closed (by decide)
  have hcode : code (blanks ++ l) = blanks ++ code l := by
    rcases hides_or_comment l with ⟨hhides, hcode⟩ | ⟨hclosed, comment, heq⟩
    · rw [hcode]
      exact code_of_hides (hides_append.2 ⟨hblanks.hides, hblanks.after.symm ▸ hhides⟩)
    · conv_lhs => rw [heq, ← List.append_assoc]
      exact code_append_comment (hblanks.append hclosed)
  rw [core, hcode, Text.trim_blanks_append h, core]

/-- What follows a semicolon outside quotes is comment. -/
theorem core_append_semicolon (h : Even (l.count quote)) (cs : List Char) :
    core (l ++ ';' :: cs) = core l := by
  rcases hides_or_comment l with ⟨hhides, hcode⟩ | ⟨hclosed, comment, heq⟩
  · have hafter : quotedAfter false l = false := by
      rw [quotedAfter_eq, Nat.even_iff.1 h]
      rfl
    rw [core, code_append_comment ⟨hhides, hafter⟩, core, hcode]
  · rw [core, code_append_of_comment hclosed heq, core]

theorem core_withoutBreak (l : List Char) : core (withoutBreak l) = core l := by
  let lineEnd : List Char := (l.reverse.takeWhile fun c => c == '\n' || c == '\r').reverse
  have hblanks : Text.IsBlanks lineEnd := by
    intro c hc
    have := List.mem_takeWhile_imp (List.mem_reverse.1 hc)
    rcases Bool.or_eq_true_iff.1 this with h | h <;> rw [beq_iff_eq.1 h] <;> decide
  have heq : l = withoutBreak l ++ lineEnd := by
    rw [withoutBreak, ← List.reverse_append, List.takeWhile_append_dropWhile, List.reverse_reverse]
  conv_rhs => rw [heq]
  exact (core_append_blanks hblanks _).symm

/-- A line is blank up to its comment, or there are only blanks between its core and both ends of
its code. -/
theorem core_cases (l : List Char) :
    (Text.IsBlanks (code l) ∧ core l = []) ∨
      Text.Solid (core l) ∧ ∃ before after, Text.IsBlanks before ∧ Text.IsBlanks after ∧
        code l = before ++ (core l ++ after) :=
  Text.trim_cases (code l)

/-- The blanks before the core are the first of the line. -/
theorem takeWhile_isBlank_of_code {before after : List Char} (hbefore : Text.IsBlanks before)
    (hcs : Text.Solid cs) (hcode : code l = before ++ (cs ++ after)) :
    l.takeWhile Text.isBlank = before := by
  obtain ⟨rest, heq⟩ : ∃ rest, l = before ++ (cs ++ rest) := by
    rcases hides_or_comment l with ⟨-, hl⟩ | ⟨-, comment, heq⟩
    · exact ⟨after, hl.symm.trans hcode⟩
    · refine ⟨after ++ ';' :: comment, ?_⟩
      conv_lhs => rw [heq, hcode]
      simp only [List.append_assoc]
  rw [heq]
  exact Text.takeWhile_isBlank_append hbefore hcs rest

theorem mem_of_mem_core {c : Char} (h : c ∈ core l) : c ∈ l := by
  have hcode : c ∈ code l := by
    rcases core_cases l with ⟨-, hnil⟩ | ⟨-, before, after, -, -, heq⟩
    · rw [hnil] at h
      cases h
    · rw [heq]
      simp [h]
  rcases hides_or_comment l with ⟨-, hl⟩ | ⟨-, comment, heq⟩
  · rwa [hl] at hcode
  · rw [heq]
    exact List.mem_append_left _ hcode

theorem code_core (l : List Char) : code (core l) = core l := by
  rcases core_cases l with ⟨-, hnil⟩ | ⟨-, before, after, hbefore, -, heq⟩
  · rw [hnil]
    rfl
  · have hhides := hides_code l
    have hclosed : Closed ';' before := hbefore.closed (by decide)
    rw [heq, hides_append, hclosed.after, hides_append] at hhides
    exact code_of_hides hhides.2.1

/-- **The core of a line is its own core.** -/
theorem core_core (l : List Char) : core (core l) = core l := by
  rw [core, code_core]
  rcases core_cases l with ⟨-, hnil⟩ | ⟨hsolid, -⟩
  · rw [hnil]
    rfl
  · have hnone : Text.IsBlanks [] := nofun
    simpa using Text.trim_append hnone hnone hsolid

/-! ## The cores of a source -/

/-- The lines that hold more than blanks and a comment. -/
def withCode (lines : List Line) : List Line := lines.filter (core ·.text ≠ [])

/-- The cores of texts, without those of texts that hold no code. -/
def cores (ls : List (List Char)) : List (List Char) := (ls.map core).filter (· ≠ [])

theorem cores_append (ls ls' : List (List Char)) : cores (ls ++ ls') = cores ls ++ cores ls' := by
  rw [cores, List.map_append, List.filter_append, cores, cores]

theorem cores_append_cons (before after : List (List Char)) (l : List Char) :
    cores (before ++ l :: after) = cores before ++ cores [l] ++ cores after := by
  rw [← cores_append, ← cores_append, List.append_assoc, List.singleton_append]

theorem cores_of_core_nil {ls : List (List Char)} (h : ∀ l ∈ ls, core l = []) : cores ls = [] := by
  simpa [cores] using h

theorem cores_eq_self {ls : List (List Char)} (h : ∀ l ∈ ls, core l = l ∧ l ≠ []) :
    cores ls = ls := by
  have hmap : ls.map core = ls.map id := List.map_congr_left fun l hl => (h l hl).1
  rw [cores, hmap, List.map_id, List.filter_eq_self]
  exact fun l hl => decide_eq_true (h l hl).2

theorem cores_map_text (lines : List Line) :
    cores (lines.map text) = (withCode lines).map (core ·.text) := by
  rw [cores, List.map_map, List.filter_map, withCode]
  rfl

/-- **The cores of the lines of a source** are those of the texts between its newlines. -/
theorem map_core_withCode_split {ls : List (List Char)} (h : ∀ l ∈ ls, '\n' ∉ l) :
    (withCode (split (['\n'].intercalate ls))).map (core ·.text) = cores ls := by
  obtain ⟨tail, htail, heq⟩ := map_text_split h
  have hbreak : cores (ls.map withoutBreak) = cores ls := by
    rw [cores, List.map_map, cores]
    exact congrArg (List.filter _) (List.map_congr_left fun l _ => core_withoutBreak l)
  have hnil : cores tail = [] := cores_of_core_nil fun l hl => by rw [htail l hl]; rfl
  rw [← hbreak, heq, cores_append, hnil, List.append_nil, cores_map_text]

end Line

end Comet
