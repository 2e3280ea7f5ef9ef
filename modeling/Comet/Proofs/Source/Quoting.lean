import Comet.Source.Line

/-!
# Quotes within a line

Whether a character of a line is between quotes depends on all quotes before it. A text that stands
outside quotes at both ends (`Line.Closed`) can be put beside other text without changing what is
hidden there:

* `code_of_closed`, `code_append_comment`: the code of a line is what precedes its comment;
* `pieces_of_closed`, `pieces_append_comma`: the pieces of an operand field are what its commas
  separate.
-/

namespace Comet.Line

/-- Whether the end of a text is between quotes, given whether its start is. -/
def quotedAfter (quoted : Bool) (cs : List Char) : Bool :=
  cs.foldl (fun quoted c => quoted != (c == quote)) quoted

/-- Every `stop` in a text is between quotes. -/
def Hides (stop : Char) : (quoted : Bool) → List Char → Prop
  | _, [] => True
  | quoted, c :: cs => ¬(c = stop ∧ quoted = false) ∧ Hides stop (quoted != (c == quote)) cs

/-- A text that stands outside quotes at both ends and has every `stop` between quotes. -/
structure Closed (stop : Char) (cs : List Char) : Prop where
  hides : Hides stop false cs
  after : quotedAfter false cs = false

variable {stop : Char} {cs ds : List Char}

theorem quotedAfter_cons {quoted : Bool} (c : Char) (cs : List Char) :
    quotedAfter quoted (c :: cs) = quotedAfter (quoted != (c == quote)) cs := rfl

theorem quotedAfter_append {quoted : Bool} :
    quotedAfter quoted (cs ++ ds) = quotedAfter (quotedAfter quoted cs) ds :=
  List.foldl_append

theorem hides_append {quoted : Bool} :
    Hides stop quoted (cs ++ ds) ↔
      Hides stop quoted cs ∧ Hides stop (quotedAfter quoted cs) ds := by
  induction cs generalizing quoted with
  | nil => simp [Hides, quotedAfter]
  | cons c cs ih => simp [Hides, ih, quotedAfter, and_assoc]

theorem Closed.append (hc : Closed stop cs) (hd : Closed stop ds) : Closed stop (cs ++ ds) := by
  refine ⟨hides_append.2 ⟨hc.hides, ?_⟩, ?_⟩
  · rw [hc.after]
    exact hd.hides
  · rw [quotedAfter_append, hc.after]
    exact hd.after

theorem closed_of_forall_ne (h : ∀ c ∈ cs, c ≠ stop ∧ c ≠ quote) : Closed stop cs := by
  induction cs with
  | nil => exact ⟨trivial, rfl⟩
  | cons c cs ih =>
    obtain ⟨hstop, hquote⟩ := h c List.mem_cons_self
    have ih := ih fun d hd => h d (List.mem_cons_of_mem c hd)
    have hbeq : (c == quote) = false := beq_eq_false_iff_ne.2 hquote
    refine ⟨⟨fun hc => hstop hc.1, ?_⟩, ?_⟩
    · simpa [hbeq] using ih.hides
    · simpa [quotedAfter_cons, hbeq] using ih.after

/-! ## The code of a line -/

theorem breakUnquoted_append {quoted : Bool} (done ds : List Char) (h : Hides stop quoted cs) :
    breakUnquoted stop quoted done (cs ++ ds) =
      breakUnquoted stop (quotedAfter quoted cs) (cs.reverse ++ done) ds := by
  induction cs generalizing quoted done with
  | nil => rfl
  | cons c cs ih =>
    rw [List.cons_append, breakUnquoted, if_neg h.1, ih _ h.2]
    simp [quotedAfter]

theorem code_of_closed (h : Closed ';' cs) : code cs = cs := by
  have hbreak := breakUnquoted_append [] [] h.hides
  rw [List.append_nil] at hbreak
  rw [code, hbreak]
  simp [breakUnquoted]

theorem code_append_comment (h : Closed ';' cs) : code (cs ++ ';' :: ds) = cs := by
  rw [code, breakUnquoted_append [] _ h.hides, h.after]
  simp [breakUnquoted]

/-! ## The pieces of an operand field -/

theorem piecesOnto_eq_append (done : List (List Char)) (current : List Char) (quoted : Bool) :
    piecesOnto done current quoted cs = done.reverse ++ piecesOnto [] current quoted cs := by
  induction cs generalizing done current quoted with
  | nil => simp [piecesOnto]
  | cons c cs ih =>
    unfold piecesOnto
    split
    · rw [ih, ih [current.reverse]]
      simp
    · exact ih _ _ _

theorem piecesOnto_append {quoted : Bool} (current ds : List Char) (h : Hides ',' quoted cs) :
    piecesOnto [] current quoted (cs ++ ds) =
      piecesOnto [] (cs.reverse ++ current) (quotedAfter quoted cs) ds := by
  induction cs generalizing quoted current with
  | nil => rfl
  | cons c cs ih =>
    rw [List.cons_append, piecesOnto, if_neg h.1, ih _ h.2]
    simp [quotedAfter]

theorem pieces_of_closed (h : Closed ',' cs) : pieces cs = [cs] := by
  have hpieces := piecesOnto_append [] [] h.hides
  rw [List.append_nil] at hpieces
  rw [pieces, hpieces]
  simp [piecesOnto]

theorem pieces_append_comma (h : Closed ',' cs) : pieces (cs ++ ',' :: ds) = cs :: pieces ds := by
  rw [pieces, piecesOnto_append [] _ h.hides, h.after, piecesOnto, if_pos ⟨rfl, rfl⟩,
    piecesOnto_eq_append]
  simp [pieces]

end Comet.Line
