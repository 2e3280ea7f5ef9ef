import Mathlib
import Comet.Proofs.Source.Quoting

/-!
# Operands as text

`Operand.write` is the way to write an operand: registers and labels by name, integers in decimal,
and characters between quotes with every quote among them written twice. `Writable` says which
operands can be written.

* `ofText?_write`: what is written is read back.
* `closed_write`, `solid_write`: a written operand hides its commas and semicolons between quotes
  and neither begins nor ends with a blank, so that a line can be built around it.
-/

namespace Comet

/-! ## Plain text -/

namespace Text

/-- Characters are told apart by a class that only one of them is in. -/
theorem ne_of_class (p : Char → Bool) {c d : Char} (hc : p c = true) (hd : p d = false) :
    c ≠ d := by
  rintro rfl
  exact absurd hc (by simp [hd])

theorem isAlpha_iff {c : Char} : c.isAlpha = true ↔
    (65 ≤ c.toNat ∧ c.toNat ≤ 90) ∨ (97 ≤ c.toNat ∧ c.toNat ≤ 122) := by
  simp only [Char.isAlpha, Char.isUpper, Char.isLower, Bool.or_eq_true, Bool.and_eq_true,
    decide_eq_true_eq, ge_iff_le, UInt32.le_iff_toNat_le]
  exact Iff.rfl

theorem isDigit_iff {c : Char} : c.isDigit = true ↔ 48 ≤ c.toNat ∧ c.toNat ≤ 57 := by
  simp only [Char.isDigit, Bool.and_eq_true, decide_eq_true_eq, ge_iff_le, UInt32.le_iff_toNat_le]
  exact Iff.rfl

theorem isDigit_eq_false_of_isAlpha {c : Char} (h : c.isAlpha = true) : c.isDigit = false := by
  rw [← Bool.not_eq_true, isDigit_iff]
  rw [isAlpha_iff] at h
  omega

/-- The characters of names and of decimal literals. -/
def isPlain (c : Char) : Bool := c.isAlphanum || c == '-'

theorem isPlain_of_isDigit {c : Char} (h : c.isDigit = true) : isPlain c = true := by
  simp [isPlain, Char.isAlphanum, h]

theorem isBlank_eq_false_of_isPlain {c : Char} (h : isPlain c = true) : isBlank c = false := by
  have hrange : 45 ≤ c.toNat ∧ c.toNat ≤ 122 := by
    simp only [isPlain, Char.isAlphanum, Bool.or_eq_true, isAlpha_iff, isDigit_iff, beq_iff_eq] at h
    rcases h with h | rfl
    · omega
    · decide
  simp only [isBlank, blankRanges, List.any_cons, List.any_nil, Bool.or_false,
    Bool.or_eq_false_iff, Bool.and_eq_false_iff, decide_eq_false_iff_not]
  omega

/-- A text that is not empty and neither begins nor ends with a blank. -/
structure Solid (cs : List Char) : Prop where
  ne_nil : cs ≠ []
  first : ∀ c ∈ cs.head?, isBlank c = false
  last : ∀ c ∈ cs.getLast?, isBlank c = false

theorem solid_of_forall_isPlain {cs : List Char} (hne : cs ≠ [])
    (h : ∀ c ∈ cs, isPlain c = true) : Solid cs where
  ne_nil := hne
  first c hc := isBlank_eq_false_of_isPlain (h c (List.mem_of_head? hc))
  last c hc := isBlank_eq_false_of_isPlain (h c (List.mem_of_getLast? hc))

end Text

theorem Line.closed_of_forall_isPlain {stop : Char} {cs : List Char}
    (hstop : Text.isPlain stop = false) (h : ∀ c ∈ cs, Text.isPlain c = true) :
    Line.Closed stop cs :=
  Line.closed_of_forall_ne fun c hc =>
    ⟨Text.ne_of_class Text.isPlain (h c hc) hstop,
      Text.ne_of_class Text.isPlain (h c hc) (by decide)⟩

/-! ## Labels and registers -/

/-- A label: an ASCII letter, then ASCII letters and digits, and not the name of a register. -/
structure IsLabel (name : String) : Prop where
  letters : ∃ c cs, name.toList = c :: cs ∧ c.isAlpha = true ∧ ∀ d ∈ cs, d.isAlphanum = true
  ne_register : ∀ r : Reg, name ≠ r.name

theorem Reg.ofName?_eq_none {name : String} (h : ∀ r : Reg, name ≠ r.name) :
    Reg.ofName? name = none := by
  simpa [Reg.ofName?] using fun r hr => h r hr.symm

theorem Reg.head?_name (r : Reg) : r.name.toList.head? = some 'G' := by
  revert r; decide

theorem Reg.isPlain_name (r : Reg) : ∀ c ∈ r.name.toList, Text.isPlain c = true := by
  have key : ∀ r : Reg, r.name.toList.all Text.isPlain = true := by decide
  exact List.all_eq_true.1 (key r)

theorem Reg.ofName?_of_first_ne {c : Char} (cs : List Char) (h : c ≠ 'G') :
    Reg.ofName? (String.ofList (c :: cs)) = none := by
  refine Reg.ofName?_eq_none fun r hr => h ?_
  have hhead := r.head?_name
  rw [← hr, String.toList_ofList] at hhead
  simpa using hhead

namespace IsLabel

variable {name : String}

theorem ofName?_eq_none (h : IsLabel name) :
    Reg.ofName? (String.ofList name.toList) = none := by
  rw [String.ofList_toList]
  exact Reg.ofName?_eq_none h.ne_register

theorem isLabel (h : IsLabel name) : Comet.isLabel name.toList = true := by
  obtain ⟨c, cs, heq, hc, hcs⟩ := h.letters
  have hreg := h.ofName?_eq_none
  rw [heq] at hreg ⊢
  simp only [Comet.isLabel, hc, List.all_eq_true.2 hcs, hreg]
  rfl

theorem isPlain (h : IsLabel name) : ∀ c ∈ name.toList, Text.isPlain c = true := by
  obtain ⟨c, cs, heq, hc, hcs⟩ := h.letters
  intro d hd
  rw [heq] at hd
  rcases List.mem_cons.1 hd with rfl | hd
  · simp [Text.isPlain, Char.isAlphanum, hc]
  · simp [Text.isPlain, hcs d hd]

theorem ne_nil (h : IsLabel name) : name.toList ≠ [] := by
  obtain ⟨c, cs, heq, -⟩ := h.letters
  simp [heq]

end IsLabel

/-! ## Writing an operand -/

namespace Operand

/-- A text with every quote written twice. -/
def doubled (cs : List Char) : List Char :=
  cs.flatMap fun c => if c = quote then [quote, quote] else [c]

/-- The text of an operand. -/
def write : Operand → List Char
  | register r => r.name.toList
  | symbol name => name.toList
  | integer value => (toString value).toList
  | chars text => quote :: doubled text.toList ++ [quote]

/-- The operands that can be written: names that are labels, integers that a literal may have, and
characters that fit in a word. -/
def Writable : Operand → Prop
  | register _ => True
  | symbol name => IsLabel name
  | integer value => -32768 ≤ value ∧ value ≤ 65535
  | chars text => text ≠ "" ∧ ∀ c ∈ text.toList, c.toNat ≤ 0xFFFF

/-! ## Decimal literals -/

theorem write_natCast (n : Nat) : write (integer n) = Nat.toDigits 10 n := Nat.toList_repr

theorem write_negSucc (n : Nat) :
    write (integer (Int.negSucc n)) = '-' :: Nat.toDigits 10 (n + 1) := by
  have hwrite : write (integer (Int.negSucc n)) = ("-" ++ Nat.repr (n + 1)).toList := rfl
  rw [hwrite, String.toList_append, Nat.toList_repr]
  rfl

theorem value_toDigits (n : Nat) : Numeral.value 10 (Nat.toDigits 10 n) = n := by
  have hfold : Numeral.value 10 (Nat.toDigits 10 n) =
      Nat.ofDigitChars 10 (Nat.toDigits 10 n) 0 := by
    refine List.foldl_ext _ _ _ fun total c hc => ?_
    have hdigit := Nat.isDigit_of_mem_toDigits (by decide) (by decide) hc
    simp only [Numeral.digitValue, hdigit, if_true, Nat.mul_comm]
  rw [hfold, Nat.ofDigitChars_toDigits (by decide) (by decide)]

theorem all_isDigit_toDigits (n : Nat) : (Nat.toDigits 10 n).all Char.isDigit = true :=
  List.all_eq_true.2 fun _ hc => Nat.isDigit_of_mem_toDigits (by decide) (by decide) hc

theorem decimalLiteral_toDigits {n : Nat} {negative : Bool} {value : Int}
    (hvalue : value = if negative then -(n : Int) else n) (h : (integer value).Writable) :
    decimalLiteral negative (Nat.toDigits 10 n) = .ok (integer value) := by
  subst hvalue
  simp only [decimalLiteral, all_isDigit_toDigits, value_toDigits, if_true]
  exact if_pos h

/-! ## Character constants -/

theorem doubled_cons_quote (cs : List Char) :
    doubled (quote :: cs) = quote :: quote :: doubled cs := by simp [doubled]

theorem doubled_cons_of_ne {c : Char} (h : c ≠ quote) (cs : List Char) :
    doubled (c :: cs) = c :: doubled cs := by simp [doubled, h]

theorem constantBody_doubled {cs : List Char} (done : List Char)
    (h : ∀ c ∈ cs, c.toNat ≤ 0xFFFF) :
    constantBody done (doubled cs) = .ok (done.reverse ++ cs) := by
  induction cs generalizing done with
  | nil => simp [doubled, constantBody]
  | cons c cs ih =>
    have ih := ih (c :: done) fun d hd => h d (List.mem_cons_of_mem c hd)
    have hstep : constantBody done (doubled (c :: cs)) = constantBody (c :: done) (doubled cs) := by
      by_cases hquote : c = quote
      · subst hquote
        simp [doubled_cons_quote, constantBody]
      · have hnarrow : ¬0xFFFF < c.toNat := Nat.not_lt.2 (h c List.mem_cons_self)
        rw [doubled_cons_of_ne hquote, constantBody.eq_def]
        simp only [if_neg hquote, if_neg hnarrow]
    rw [hstep, ih]
    simp

theorem charConstant_doubled {text : String} (h : (chars text).Writable) :
    charConstant (doubled text.toList ++ [quote]) = .ok (chars text) := by
  obtain ⟨hne, hnarrow⟩ := h
  have hbody : constantBody [] (doubled text.toList) = .ok text.toList :=
    constantBody_doubled [] hnarrow
  rw [charConstant, if_pos (List.getLast?_concat ..), List.dropLast_concat, hbody]
  cases htext : text.toList with
  | nil => exact absurd (String.toList_eq_nil_iff.1 htext) hne
  | cons c cs => simp [← htext]

/-! ## Reading what was written -/

variable {o : Operand}

/-- Which reader an operand's text goes to is told by its first character. -/
theorem ofText?_cons {c : Char} {cs : List Char}
    (hreg : Reg.ofName? (String.ofList (c :: cs)) = none) (hhash : c ≠ '#') (hquote : c ≠ quote) :
    ofText? (c :: cs) = literalOrLabel (c :: cs) := by
  simp only [ofText?, hreg]
  rw [if_neg hquote]

theorem splitSign_cons {c : Char} (cs : List Char) (hminus : c ≠ '-') (hplus : c ≠ '+') :
    splitSign (c :: cs) = (false, c :: cs) := by
  unfold splitSign
  split
  · rename_i heq
    exact absurd (List.cons.inj heq).1 hminus
  · rename_i heq
    exact absurd (List.cons.inj heq).1 hplus
  · rfl

theorem ofText?_symbol {name : String} (h : IsLabel name) :
    ofText? name.toList = .ok (symbol name) := by
  obtain ⟨c, cs, heq, hc, -⟩ := h.letters
  have hreg : Reg.ofName? (String.ofList (c :: cs)) = none := heq ▸ h.ofName?_eq_none
  have hne : ∀ d : Char, d.isAlpha = false → c ≠ d := fun d => Text.ne_of_class Char.isAlpha hc
  have hlabel : isLabel (c :: cs) = true := heq ▸ h.isLabel
  rw [heq, ofText?_cons hreg (hne _ (by decide)) (hne _ (by decide)), literalOrLabel,
    splitSign_cons cs (hne _ (by decide)) (hne _ (by decide))]
  simp only [List.head?_cons, Option.any_some, Text.isDigit_eq_false_of_isAlpha hc,
    Bool.false_eq_true, if_false, hlabel, if_true]
  rw [← heq, String.ofList_toList]

theorem any_isDigit_head?_toDigits (n : Nat) :
    (Nat.toDigits 10 n).head?.any Char.isDigit = true := by
  obtain ⟨c, cs, heq⟩ := List.exists_cons_of_ne_nil (Nat.toDigits_ne_nil (n := n) (b := 10))
  have hall := all_isDigit_toDigits n
  rw [heq, List.all_cons, Bool.and_eq_true] at hall
  simp [heq, hall.1]

theorem ofText?_natCast {n : Nat} (h : (integer n).Writable) :
    ofText? (write (integer n)) = .ok (integer n) := by
  have hdecimal : decimalLiteral false (Nat.toDigits 10 n) = .ok (integer n) :=
    decimalLiteral_toDigits rfl h
  have hany := any_isDigit_head?_toDigits n
  rw [write_natCast]
  cases hdigits : Nat.toDigits 10 n with
  | nil => exact absurd hdigits Nat.toDigits_ne_nil
  | cons c cs =>
    rw [hdigits] at hany hdecimal
    have hne : ∀ d : Char, d.isDigit = false → c ≠ d := fun d => Text.ne_of_class Char.isDigit hany
    rw [ofText?_cons (Reg.ofName?_of_first_ne cs (hne _ (by decide))) (hne _ (by decide))
      (hne _ (by decide)), literalOrLabel,
      splitSign_cons cs (hne _ (by decide)) (hne _ (by decide))]
    simp only [hany, if_true, hdecimal]

theorem ofText?_negSucc {n : Nat} (h : (integer (Int.negSucc n)).Writable) :
    ofText? (write (integer (Int.negSucc n))) = .ok (integer (Int.negSucc n)) := by
  have hdecimal : decimalLiteral true (Nat.toDigits 10 (n + 1)) = .ok (integer (Int.negSucc n)) :=
    decimalLiteral_toDigits rfl h
  rw [write_negSucc, ofText?_cons (Reg.ofName?_of_first_ne _ (by decide)) (by decide) (by decide),
    literalOrLabel]
  simp only [splitSign, any_isDigit_head?_toDigits, if_true, hdecimal]

theorem ofText?_chars {text : String} (h : (chars text).Writable) :
    ofText? (write (chars text)) = .ok (chars text) := by
  have hreg : Reg.ofName? (String.ofList (write (chars text))) = none :=
    Reg.ofName?_of_first_ne _ (by decide)
  simp only [ofText?, hreg]
  exact charConstant_doubled h

theorem ofText?_write (h : o.Writable) : ofText? o.write = .ok o := by
  rcases o with r | name | value | text
  · simp [write, ofText?]
  · exact ofText?_symbol h
  · rcases value with n | n
    · exact ofText?_natCast h
    · exact ofText?_negSucc h
  · exact ofText?_chars h

/-! ## The shape of what was written -/

/-- Only character constants need quotes. -/
theorem isPlain_write (h : o.Writable) (hchars : ∀ text, o ≠ chars text) :
    o.write ≠ [] ∧ ∀ c ∈ o.write, Text.isPlain c = true := by
  have hdigits : ∀ n, ∀ c ∈ Nat.toDigits 10 n, Text.isPlain c = true := fun n c hc =>
    Text.isPlain_of_isDigit (Nat.isDigit_of_mem_toDigits (by decide) (by decide) hc)
  rcases o with r | name | value | text
  · have hne : ∀ r : Reg, r.name.toList ≠ [] := by decide
    exact ⟨hne r, r.isPlain_name⟩
  · exact ⟨IsLabel.ne_nil h, IsLabel.isPlain h⟩
  · rcases value with n | n
    · exact ⟨write_natCast n ▸ Nat.toDigits_ne_nil, write_natCast n ▸ hdigits n⟩
    · rw [write_negSucc]
      refine ⟨List.cons_ne_nil _ _, fun c hc => ?_⟩
      rcases List.mem_cons.1 hc with rfl | hc
      · decide
      · exact hdigits (n + 1) c hc
  · exact absurd rfl (hchars text)

theorem solid_write (h : o.Writable) : Text.Solid o.write := by
  by_cases hchars : ∀ text, o ≠ chars text
  · obtain ⟨hne, hplain⟩ := isPlain_write h hchars
    exact Text.solid_of_forall_isPlain hne hplain
  · obtain ⟨text, rfl⟩ : ∃ text, o = chars text := by simpa using hchars
    have hquote : Text.isBlank quote = false := by decide
    refine ⟨List.cons_ne_nil _ _, ?_, ?_⟩
    · rintro c ⟨⟩
      exact hquote
    · intro c hc
      rw [write, List.getLast?_concat, Option.mem_some_iff] at hc
      exact hc ▸ hquote

/-- What stands between the quotes of a constant stays hidden, though its quotes switch. -/
theorem hides_doubled {stop : Char} (hstop : stop ≠ quote) (cs : List Char) :
    Line.Hides stop true (doubled cs) ∧ Line.quotedAfter true (doubled cs) = true := by
  induction cs with
  | nil => exact ⟨trivial, rfl⟩
  | cons c cs ih =>
    by_cases hquote : c = quote
    · subst hquote
      -- hiding is off between the two quotes only
      rw [doubled_cons_quote]
      simpa [Line.Hides, Line.quotedAfter_cons, hstop.symm] using ih
    · rw [doubled_cons_of_ne hquote]
      have hbeq : (c == quote) = false := beq_eq_false_iff_ne.2 hquote
      simpa [Line.Hides, Line.quotedAfter_cons, hbeq] using ih

theorem closed_write {stop : Char} (hplain : Text.isPlain stop = false) (hstop : stop ≠ quote)
    (h : o.Writable) : Line.Closed stop o.write := by
  by_cases hchars : ∀ text, o ≠ chars text
  · exact Line.closed_of_forall_isPlain hplain (isPlain_write h hchars).2
  · obtain ⟨text, rfl⟩ : ∃ text, o = chars text := by simpa using hchars
    obtain ⟨hhides, hafter⟩ := hides_doubled hstop text.toList
    have hquotes : write (chars text) = [quote] ++ (doubled text.toList ++ [quote]) := rfl
    have hopen : Line.quotedAfter false [quote] = true := by decide
    refine ⟨?_, ?_⟩
    · rw [hquotes, Line.hides_append, Line.hides_append, hopen, hafter]
      exact ⟨⟨fun h => hstop h.1.symm, trivial⟩, hhides, fun h => hstop h.1.symm, trivial⟩
    · rw [hquotes, Line.quotedAfter_append, Line.quotedAfter_append, hopen, hafter]
      decide

end Operand

end Comet
