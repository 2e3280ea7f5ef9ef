import Comet.Proofs.Source.Positions

/-!
# The lines of a source

Splitting a source at its newlines, seen from the texts between them:

* `split_append_newline`: the lines of a text that ends in a newline stay as they are, whatever
  follows it;
* `map_text_split`: the lines of texts joined by newlines are these texts, up to the carriage
  returns at their ends and an empty text behind the last newline;
* `map_number_split`: lines are numbered one after another.
-/

namespace Comet.Line

variable {cs : List Char}

theorem splitOnto_eq_append (done : Array Line) (current : List Char) (number offset : Nat) :
    splitOnto done current number offset cs = done ++ splitOnto #[] current number offset cs := by
  induction cs generalizing done current number offset with
  | nil =>
    unfold splitOnto
    split <;> simp
  | cons c cs ih =>
    unfold splitOnto
    split
    · rw [ih, ih (#[].push _)]
      simp
    · exact ih _ _ _ _

/-- Text without a newline goes to the current line. -/
theorem splitOnto_append (h : '\n' ∉ cs) (done : Array Line) (current rest : List Char)
    (number offset : Nat) :
    splitOnto done current number offset (cs ++ rest) =
      splitOnto done (cs.reverse ++ current) number offset rest := by
  induction cs generalizing current with
  | nil => rfl
  | cons c cs ih =>
    obtain ⟨hc, hcs⟩ : c ≠ '\n' ∧ '\n' ∉ cs := by simpa [eq_comm] using h
    rw [List.cons_append, splitOnto, if_neg hc, ih hcs]
    simp

/-! ## What follows a newline -/

/-- Whatever follows a newline begins a new line. -/
theorem splitOnto_append_newline (p s : List Char) (done : Array Line) (current : List Char)
    (number offset : Nat) :
    ∃ number' offset', splitOnto done current number offset (p ++ '\n' :: s) =
      splitOnto (splitOnto done current number offset (p ++ ['\n'])) [] number' offset' s := by
  induction p generalizing done current number offset with
  | nil => exact ⟨_, _, rfl⟩
  | cons c p ih =>
    simp only [List.cons_append, splitOnto]
    split
    · exact ih _ _ _ _
    · exact ih _ _ _ _

theorem split_append_newline (p s : List Char) :
    ∃ more, split (p ++ '\n' :: s) = split (p ++ ['\n']) ++ more := by
  obtain ⟨number, offset, h⟩ := splitOnto_append_newline p s #[] [] 1 0
  refine ⟨(splitOnto #[] [] number offset s).toList, ?_⟩
  rw [split, h, splitOnto_eq_append, Array.toList_append, split]

/-! ## Texts joined by newlines -/

theorem map_text_splitOnto {ls : List (List Char)} (h : ∀ l ∈ ls, '\n' ∉ l) (number offset : Nat) :
    ∃ tail : List (List Char), (∀ t ∈ tail, t = []) ∧ ls.map withoutBreak =
      (splitOnto #[] [] number offset (['\n'].intercalate ls)).toList.map text ++ tail := by
  induction ls generalizing number offset with
  | nil => exact ⟨[], nofun, rfl⟩
  | cons l ls ih =>
    obtain ⟨hl, hls⟩ := List.forall_mem_cons.1 h
    cases ls with
    | nil =>
      have hlast := splitOnto_append hl #[] [] [] number offset
      rw [List.append_nil, List.append_nil] at hlast
      rw [List.intercalate_singleton, hlast, splitOnto]
      cases l with
      | nil => exact ⟨[[]], by simp, rfl⟩
      | cons c l => exact ⟨[], nofun, by simp⟩
    | cons l' ls =>
      obtain ⟨tail, htail, heq⟩ := ih hls (number + 1) (offset + Text.byteLength (l ++ ['\n']))
      refine ⟨tail, htail, ?_⟩
      rw [List.intercalate_cons_cons, List.append_assoc, splitOnto_append hl, List.append_nil,
        List.singleton_append, splitOnto, if_pos rfl, splitOnto_eq_append, List.map_cons, heq]
      simp [withoutBreak_newline]

/-- **The lines of texts that are joined by newlines** are these texts. -/
theorem map_text_split {ls : List (List Char)} (h : ∀ l ∈ ls, '\n' ∉ l) :
    ∃ tail : List (List Char), (∀ t ∈ tail, t = []) ∧
      ls.map withoutBreak = (split (['\n'].intercalate ls)).map text ++ tail :=
  map_text_splitOnto h 1 0

/-! ## Line numbers -/

theorem map_number_splitOnto (current cs : List Char) (line offset : Nat) :
    (splitOnto #[] current line offset cs).toList.map number =
      List.range' line (splitOnto #[] current line offset cs).size := by
  induction cs generalizing current line offset with
  | nil =>
    rw [splitOnto]
    split <;> rfl
  | cons c cs ih =>
    rw [splitOnto]
    split
    · rw [splitOnto_eq_append, Array.toList_append, List.map_append, ih, Array.size_append,
        Array.size_push, Array.size_empty, Nat.zero_add, Nat.add_comm 1, List.range'_succ]
      rfl
    · exact ih _ _ _

/-- **Lines are numbered one after another**, from 1. -/
theorem map_number_split (source : List Char) :
    (split source).map number = List.range' 1 (split source).length :=
  map_number_splitOnto [] source 1 0

end Comet.Line
