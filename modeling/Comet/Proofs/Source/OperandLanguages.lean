import Comet.Proofs.Source.OperandText

/-!
# The languages of operands

The text of an operand belongs to at most one of five languages (`Operand.Language`): register
names, hexadecimal literals, decimal literals, character constants and labels. `Operand.InLanguage`
describes them by how their texts are made up, which also gives what a text stands for.

* `Numeral.spells_iff`: a run of digits makes up one value, and reading it gives that value.
* `hexLiteral_eq_ok`, `charConstant_eq_ok`, `decimalLiteral_eq_ok`: each reader accepts its
  language.
* `InLanguage.unique`: the languages are disjoint, and a text stands for one operand.
* `accepted_iff_inLanguage`: an operand is accepted exactly when its text belongs to a language.
-/

namespace Comet

/-! ## Numerals -/

namespace Numeral

/-- The character is the digit of this value, a letter in either case. -/
def IsDigit (base : Nat) (c : Char) (d : Nat) : Prop :=
  d < base ∧ (c = Nat.digitChar d ∨ c = hexDigit d)

instance (base : Nat) (c : Char) (d : Nat) : Decidable (IsDigit base c d) :=
  inferInstanceAs (Decidable (_ ∧ _))

/-- The text consists of digits, highest first, that make up this value. -/
def Spells (base : Nat) (text : List Char) (n : Nat) : Prop :=
  ∃ ds, List.Forall₂ (IsDigit base) text ds ∧ Nat.ofDigits base ds.reverse = n

variable {radix : Radix} {c : Char} {cs : List Char} {n d : Nat}

theorem Radix.toNat_lt_of_isDigit (h : radix.isDigit c = true) : c.toNat < 128 := by
  have hhex : isHexDigit c = true := by
    cases radix with
    | decimal => exact Bool.or_eq_true_iff.2 (.inl (Bool.or_eq_true_iff.2 (.inl h)))
    | hexadecimal => exact h
  simp only [isHexDigit, Bool.or_eq_true, Bool.and_eq_true, decide_eq_true_eq, Text.isDigit_iff,
    Char.le_def, UInt32.le_iff_toNat_le] at hhex
  have hval : c.val.toNat = c.toNat := rfl
  have hlast : 'f'.val.toNat < 128 ∧ 'F'.val.toNat < 128 := by decide
  omega

/-- **A digit and its value**, in either case. -/
theorem isDigit_iff : IsDigit radix.base c d ↔ radix.isDigit c = true ∧ digitValue c = d := by
  constructor
  · rintro ⟨hd, hc⟩
    have key : ∀ d < radix.base,
        (radix.isDigit (Nat.digitChar d) = true ∧ digitValue (Nat.digitChar d) = d) ∧
          radix.isDigit (hexDigit d) = true ∧ digitValue (hexDigit d) = d := by
      cases radix <;> decide
    obtain rfl | rfl := hc
    · exact (key d hd).1
    · exact (key d hd).2
  · rintro ⟨hc, rfl⟩
    have key : ∀ n < 128, radix.isDigit (Char.ofNat n) = true →
        IsDigit radix.base (Char.ofNat n) (digitValue (Char.ofNat n)) := by
      cases radix <;> decide
    have hchar := key c.toNat (Radix.toNat_lt_of_isDigit hc)
    rw [Char.ofNat_toNat] at hchar
    exact hchar hc

/-- The value of digits read behind others. -/
theorem foldl_digitValue (base total : Nat) (cs : List Char) :
    cs.foldl (fun total c => total * base + digitValue c) total =
      Nat.ofDigits base ((cs.map digitValue).reverse ++ [total]) := by
  induction cs generalizing total with
  | nil => simp
  | cons c cs ih =>
    have hlast : Nat.ofDigits base [digitValue c, total] = total * base + digitValue c := by
      simp [Nat.ofDigits_cons, Nat.mul_comm, Nat.add_comm]
    rw [List.foldl_cons, ih, List.map_cons, List.reverse_cons, List.append_assoc,
      Nat.ofDigits_append, Nat.ofDigits_append, List.singleton_append, hlast,
      Nat.ofDigits_singleton]

theorem value_eq_ofDigits (base : Nat) (cs : List Char) :
    value base cs = Nat.ofDigits base (cs.map digitValue).reverse := by
  rw [value, foldl_digitValue, Nat.ofDigits_append]
  simp

theorem forall₂_isDigit_iff {ds : List Nat} :
    List.Forall₂ (IsDigit radix.base) cs ds ↔
      cs.all radix.isDigit = true ∧ cs.map digitValue = ds := by
  induction cs generalizing ds with
  | nil => simp [eq_comm]
  | cons c cs ih =>
    cases ds with
    | nil => simp
    | cons d ds =>
      simp only [List.forall₂_cons, isDigit_iff, ih, List.all_cons, Bool.and_eq_true, List.map_cons,
        List.cons.injEq]
      tauto

/-- **A run of digits and its value.** -/
theorem spells_iff (radix : Radix) (cs : List Char) (n : Nat) :
    Spells radix.base cs n ↔ cs.all radix.isDigit = true ∧ value radix.base cs = n := by
  simp only [Spells, forall₂_isDigit_iff, value_eq_ofDigits]
  constructor
  · rintro ⟨_, ⟨hdigits, rfl⟩, hvalue⟩
    exact ⟨hdigits, hvalue⟩
  · rintro ⟨hdigits, hvalue⟩
    exact ⟨_, ⟨hdigits, rfl⟩, hvalue⟩

end Numeral

/-! ## The languages -/

/-- The languages that the text of an operand may belong to. -/
inductive Operand.Language
  | registerName
  | hexadecimal
  | decimal
  | constant
  | label
  deriving DecidableEq, Repr

namespace Operand

/-- One character between the quotes of a constant, as it is written. -/
inductive IsItem : List Char → Char → Prop
  | doubled : IsItem [quote, quote] quote
  | single {c : Char} : c ≠ quote → c.toNat ≤ 0xFFFF → IsItem [c] c

/-- A sign, and what it makes of a number. -/
inductive IsSign : List Char → Nat → Int → Prop
  | none (n : Nat) : IsSign [] n n
  | plus (n : Nat) : IsSign ['+'] n n
  | minus (n : Nat) : IsSign ['-'] n (-n)

/-- The text belongs to the language, where it stands for the operand. -/
inductive InLanguage : Language → List Char → Operand → Prop
  | registerName (r : Reg) : InLanguage .registerName ['G', 'R', Nat.digitChar r.val] (.register r)
  | hexadecimal {digits : List Char} {n : Nat} :
      1 ≤ digits.length → digits.length ≤ 4 → Numeral.Spells 16 digits n →
      InLanguage .hexadecimal ('#' :: digits) (.integer n)
  | decimal {sign digits : List Char} {n : Nat} {value : Int} :
      IsSign sign n value → 1 ≤ digits.length → Numeral.Spells 10 digits n →
      -32768 ≤ value → value ≤ 65535 → InLanguage .decimal (sign ++ digits) (.integer value)
  | constant {items : List (List Char)} {cs : List Char} :
      items ≠ [] → List.Forall₂ IsItem items cs →
      InLanguage .constant (quote :: items.flatten ++ [quote]) (.chars (String.ofList cs))
  | label {name : String} : IsLabel name → InLanguage .label name.toList (.symbol name)

variable {text rest : List Char} {o : Operand} {k k' : Language}

/-! ## Each reader and its language -/

theorem toList_regName (r : Reg) : r.name.toList = ['G', 'R', Nat.digitChar r.val] := by
  revert r; decide

theorem inLanguage_registerName_iff :
    InLanguage .registerName text o ↔
      ∃ r, Reg.ofName? (String.ofList text) = some r ∧ o = .register r := by
  constructor
  · intro h
    obtain ⟨r⟩ := h
    refine ⟨r, ?_, rfl⟩
    rw [← toList_regName, String.ofList_toList, Reg.ofName?_name]
  · rintro ⟨r, hr, rfl⟩
    have htext : text = r.name.toList := by
      rw [Reg.name_of_ofName? hr, String.toList_ofList]
    rw [htext, toList_regName]
    exact .registerName r

theorem hexLiteral_eq_ok : hexLiteral rest = .ok o ↔ InLanguage .hexadecimal ('#' :: rest) o := by
  have hspells := Numeral.spells_iff .hexadecimal rest
  unfold hexLiteral
  constructor
  · intro h
    split at h
    · next hcond =>
      cases h
      refine .hexadecimal (List.length_pos_iff.2 hcond.1) hcond.2.1 ((hspells _).2 ⟨hcond.2.2, rfl⟩)
    · cases h
  · intro h
    obtain _ | ⟨hpos, hlen, hn⟩ := h
    obtain ⟨hdigits, rfl⟩ := (hspells _).1 hn
    exact if_pos ⟨List.length_pos_iff.1 hpos, hlen, hdigits⟩

/-- Items in a row are their characters with every quote written twice. -/
theorem flatten_of_items {items : List (List Char)} {cs : List Char}
    (h : List.Forall₂ IsItem items cs) :
    items.flatten = doubled cs ∧ ∀ c ∈ cs, c.toNat ≤ 0xFFFF := by
  induction h with
  | nil => exact ⟨rfl, nofun⟩
  | cons hitem _ ih =>
    obtain ⟨hflatten, hnarrow⟩ := ih
    cases hitem with
    | doubled =>
      exact ⟨by simp [hflatten, doubled_cons_quote], List.forall_mem_cons.2 ⟨by decide, hnarrow⟩⟩
    | single hquote hc =>
      exact ⟨by simp [hflatten, doubled_cons_of_ne hquote], List.forall_mem_cons.2 ⟨hc, hnarrow⟩⟩

theorem exists_items_of_constantBody {done body cs : List Char}
    (h : constantBody done body = .ok cs) :
    ∃ items read, List.Forall₂ IsItem items read ∧ body = items.flatten ∧
      cs = done.reverse ++ read := by
  fun_induction constantBody done body with
  | case1 done =>
    cases h
    exact ⟨[], [], .nil, rfl, by simp⟩
  | case3 done rest ih =>
    obtain ⟨items, read, hitems, rfl, rfl⟩ := ih h
    exact ⟨_ :: items, _ :: read, .cons .doubled hitems, rfl, by simp⟩
  | case6 done c rest hquote hnarrow ih =>
    obtain ⟨items, read, hitems, rfl, rfl⟩ := ih h
    exact ⟨_ :: items, _ :: read, .cons (.single hquote (Nat.not_lt.1 hnarrow)) hitems, rfl,
      by simp⟩
  | _ => cases h

theorem charConstant_eq_ok :
    charConstant rest = .ok o ↔ InLanguage .constant (quote :: rest) o := by
  constructor
  · intro h
    unfold charConstant at h
    split at h
    · next hlast =>
      have hrest : rest = rest.dropLast ++ [quote] := (List.dropLast_append_getLast? _ hlast).symm
      split at h
      · cases h
      · cases h
      · next body hne hbody =>
        cases h
        obtain ⟨items, read, hitems, hflatten, rfl⟩ := exists_items_of_constantBody hbody
        rw [hrest, hflatten, ← List.cons_append]
        refine .constant ?_ hitems
        rintro rfl
        cases hitems
        exact hne rfl
    · cases h
  · generalize htext : quote :: rest = text
    intro h
    cases h with
    | @constant items cs hne hitems =>
      obtain ⟨hflatten, hnarrow⟩ := flatten_of_items hitems
      have hcs : cs ≠ [] := by
        rintro rfl
        cases hitems
        exact hne rfl
      have hwritable : (chars (String.ofList cs)).Writable := by
        simpa [Writable, ← String.toList_eq_nil_iff] using ⟨hcs, hnarrow⟩
      have hbody := charConstant_doubled hwritable
      rw [String.toList_ofList, ← hflatten] at hbody
      rwa [(List.cons.inj htext).2]

/-- What a decimal literal stands for, given the sign that stands before its digits. -/
theorem decimalLiteral_eq_ok {negative : Bool} :
    decimalLiteral negative rest = .ok o ↔
      ∃ n value, Numeral.Spells 10 rest n ∧ (if negative then -(n : Int) else n) = value ∧
        (-32768 ≤ value ∧ value ≤ 65535) ∧ o = .integer value := by
  have hspells := Numeral.spells_iff .decimal rest
  simp only [Numeral.Radix.base, Numeral.Radix.isDigit] at hspells
  unfold decimalLiteral
  by_cases hdigits : rest.all Char.isDigit = true
  · rw [if_pos hdigits]
    constructor
    · intro h
      refine ⟨_, _, (hspells _).2 ⟨hdigits, rfl⟩, rfl, ?_⟩
      dsimp only at h
      generalize (if negative then _ else _ : Int) = value at h ⊢
      split at h
      · next hrange => exact ⟨hrange, (Except.ok.inj h).symm⟩
      · cases h
    · rintro ⟨n, value, hn, hvalue, hrange, rfl⟩
      obtain ⟨-, rfl⟩ := (hspells _).1 hn
      dsimp only
      rw [hvalue, if_pos hrange]
  · rw [if_neg hdigits]
    refine iff_of_false nofun ?_
    rintro ⟨n, value, hn, -⟩
    exact hdigits ((hspells _).1 hn).1

/-- Taking the sign off a text leaves digits that the sign belongs to. -/
theorem sign_append_splitSign (text : List Char) :
    ∃ sign, text = sign ++ (splitSign text).2 ∧
      ∀ n : Nat, IsSign sign n (if (splitSign text).1 then -(n : Int) else n) := by
  unfold splitSign
  split
  · exact ⟨['-'], rfl, .minus⟩
  · exact ⟨['+'], rfl, .plus⟩
  · exact ⟨[], rfl, .none⟩

theorem splitSign_append {sign digits : List Char} {n : Nat} {value : Int} (h : IsSign sign n value)
    (hdigits : digits.head?.any Char.isDigit = true) :
    (splitSign (sign ++ digits)).2 = digits ∧
      (if (splitSign (sign ++ digits)).1 then -(n : Int) else n) = value := by
  cases h with
  | none =>
    obtain ⟨c, cs, rfl⟩ : ∃ c cs, digits = c :: cs := by
      cases digits with
      | nil => simp at hdigits
      | cons c cs => exact ⟨c, cs, rfl⟩
    have hne (d : Char) : d.isDigit = false → c ≠ d :=
      Text.ne_of_class Char.isDigit (by simpa using hdigits)
    rw [List.nil_append, splitSign_cons cs (hne _ (by decide)) (hne _ (by decide))]
    exact ⟨rfl, rfl⟩
  | plus => exact ⟨rfl, rfl⟩
  | minus => exact ⟨rfl, rfl⟩

theorem isLabel_ofList (h : isLabel text = true) : IsLabel (String.ofList text) := by
  cases text with
  | nil => cases h
  | cons c cs =>
    simp only [isLabel, Bool.and_eq_true, Option.isNone_iff_eq_none] at h
    obtain ⟨⟨hc, hcs⟩, hreg⟩ := h
    refine ⟨⟨c, cs, String.toList_ofList, hc, List.all_eq_true.1 hcs⟩, ?_⟩
    rintro r hr
    rw [hr, Reg.ofName?_name] at hreg
    cases hreg

/-- A numeral in base ten begins with a digit. -/
theorem any_isDigit_head? {n : Nat} (hne : 1 ≤ rest.length) (h : Numeral.Spells 10 rest n) :
    rest.head?.any Char.isDigit = true := by
  have hdigits := ((Numeral.spells_iff .decimal rest n).1 h).1
  cases rest with
  | nil => cases hne
  | cons c cs => exact (Bool.and_eq_true_iff.1 hdigits).1

theorem inLanguage_of_literalOrLabel (h : literalOrLabel text = .ok o) :
    InLanguage .decimal text o ∨ InLanguage .label text o := by
  unfold literalOrLabel at h
  split at h
  next negative digits hsplit =>
  obtain ⟨sign, htext, hsign⟩ := sign_append_splitSign text
  rw [hsplit] at htext hsign
  split at h
  · next hany =>
    obtain ⟨n, value, hn, hvalue, hrange, rfl⟩ := decimalLiteral_eq_ok.1 h
    have hpos : 1 ≤ digits.length := by
      cases digits with
      | nil => cases hany
      | cons c cs => simp
    rw [htext]
    exact .inl (.decimal (hvalue ▸ hsign n) hpos hn hrange.1 hrange.2)
  · split at h
    · next hlabel =>
      cases h
      have hlanguage : InLanguage .label (String.ofList text).toList _ :=
        .label (isLabel_ofList hlabel)
      rw [String.toList_ofList] at hlanguage
      exact .inr hlanguage
    · cases h

theorem literalOrLabel_of_inLanguage (h : InLanguage .decimal text o) :
    literalOrLabel text = .ok o := by
  obtain _ | _ | ⟨hsign, hpos, hn, hmin, hmax⟩ := h
  have hany := any_isDigit_head? hpos hn
  obtain ⟨hdigits, hvalue⟩ := splitSign_append hsign hany
  unfold literalOrLabel
  split
  next negative digits hsplit =>
  rw [hsplit] at hdigits hvalue
  subst hdigits
  rw [if_pos hany]
  exact decimalLiteral_eq_ok.2 ⟨_, _, hn, hvalue, ⟨hmin, hmax⟩, rfl⟩

/-- The characters that a decimal literal may begin with. -/
def beginsDecimal (c : Char) : Bool := c == '-' || c == '+' || c.isDigit

theorem InLanguage.beginsDecimal (h : InLanguage .decimal text o) :
    ∃ c cs, text = c :: cs ∧ Operand.beginsDecimal c = true := by
  obtain _ | _ | ⟨hsign, hpos, hn, -, -⟩ := h
  have hany := any_isDigit_head? hpos hn
  cases hsign with
  | none =>
    obtain ⟨c, cs, rfl⟩ := List.exists_cons_of_length_pos hpos
    exact ⟨c, cs, rfl, Bool.or_eq_true_iff.2 (.inr hany)⟩
  | plus => exact ⟨_, _, rfl, by decide⟩
  | minus => exact ⟨_, _, rfl, by decide⟩

/-! ## All readers together -/

theorem inLanguage_of_ofText? (h : ofText? text = .ok o) : ∃ k, InLanguage k text o := by
  have hrest {text : List Char} (h : literalOrLabel text = .ok o) : ∃ k, InLanguage k text o :=
    (inLanguage_of_literalOrLabel h).elim (⟨_, ·⟩) (⟨_, ·⟩)
  unfold ofText? at h
  split at h
  · next r hr =>
    cases h
    exact ⟨_, inLanguage_registerName_iff.2 ⟨r, hr, rfl⟩⟩
  · split at h
    · exact ⟨_, hexLiteral_eq_ok.1 h⟩
    · split at h
      · next hquote =>
        subst hquote
        exact ⟨_, charConstant_eq_ok.1 h⟩
      · exact hrest h
    · exact hrest h

theorem ofText?_of_inLanguage (h : InLanguage k text o) : ofText? text = .ok o := by
  cases k with
  | registerName =>
    obtain ⟨r, hr, rfl⟩ := inLanguage_registerName_iff.1 h
    unfold ofText?
    rw [hr]
  | hexadecimal =>
    obtain ⟨digits, rfl⟩ : ∃ digits, text = '#' :: digits := by
      cases h
      exact ⟨_, rfl⟩
    unfold ofText?
    rw [Reg.ofName?_of_first_ne digits (by decide)]
    exact hexLiteral_eq_ok.2 h
  | decimal =>
    obtain ⟨c, cs, rfl, hc⟩ := h.beginsDecimal
    have hne (d : Char) : Operand.beginsDecimal d = false → c ≠ d := Text.ne_of_class _ hc
    rw [ofText?_cons (Reg.ofName?_of_first_ne cs (hne _ (by decide))) (hne _ (by decide))
      (hne _ (by decide))]
    exact literalOrLabel_of_inLanguage h
  | constant =>
    obtain ⟨rest, rfl⟩ : ∃ rest, text = quote :: rest := by
      cases h
      exact ⟨_, rfl⟩
    unfold ofText?
    rw [Reg.ofName?_of_first_ne rest (by decide)]
    exact charConstant_eq_ok.2 h
  | label =>
    cases h with
    | label hlabel => exact ofText?_symbol hlabel

/-- The languages in which an operand can be written. -/
def languages : Operand → List Language
  | register _ => [.registerName]
  | integer _ => [.hexadecimal, .decimal]
  | chars _ => [.constant]
  | symbol _ => [.label]

theorem InLanguage.mem_languages (h : InLanguage k text o) : k ∈ o.languages := by
  cases h <;> simp [languages]

/-- **The languages are disjoint**, and a text stands for one operand. -/
theorem InLanguage.unique {o' : Operand} (h : InLanguage k text o) (h' : InLanguage k' text o') :
    k = k' ∧ o = o' := by
  obtain rfl : o = o' :=
    Except.ok.inj ((ofText?_of_inLanguage h).symm.trans (ofText?_of_inLanguage h'))
  -- the operand tells the languages apart, but for the two of integers
  have hinteger (hhex : InLanguage .hexadecimal text o) : ¬InLanguage .decimal text o := by
    intro hdecimal
    obtain ⟨c, cs, rfl, hc⟩ := hdecimal.beginsDecimal
    cases hhex
    exact absurd hc (by decide)
  refine ⟨?_, rfl⟩
  have hk := h.mem_languages
  have hk' := h'.mem_languages
  cases o with
  | integer value =>
    simp only [languages, List.mem_cons, List.not_mem_nil, or_false] at hk hk'
    rcases hk with rfl | rfl <;> rcases hk' with rfl | rfl
    · rfl
    · exact absurd h' (hinteger h)
    · exact absurd h (hinteger h')
    · rfl
  | _ => exact (List.mem_singleton.1 hk).trans (List.mem_singleton.1 hk').symm

/-- **What the languages hold** can be written. -/
theorem InLanguage.writable (h : InLanguage k text o) : o.Writable := by
  cases h with
  | registerName r => trivial
  | hexadecimal hpos hlength hspells =>
    have hread := ofText?_of_inLanguage (.hexadecimal hpos hlength hspells)
    exact inRange_integer.1 (inRange_of_ofText? hread)
  | decimal _ _ _ hlower hupper => exact ⟨hlower, hupper⟩
  | @constant items cs hne hitems =>
    obtain ⟨-, hnarrow⟩ := flatten_of_items hitems
    refine ⟨fun hempty => hne ?_, by rwa [String.toList_ofList]⟩
    have hcs : cs = [] := by simpa using hempty
    subst hcs
    exact List.forall₂_nil_right_iff.1 hitems
  | label hlabel => exact hlabel

theorem writable_of_ofText? (h : ofText? text = .ok o) : o.Writable :=
  (inLanguage_of_ofText? h).elim fun _ => InLanguage.writable

/-- **An operand is accepted exactly when its text belongs to one of the languages**, as what the
text stands for there. -/
theorem accepted_iff_inLanguage (text : List Char) :
    (∀ o, ofText? text = .ok o ↔ ∃ k, InLanguage k text o) ∧
      (∀ k o k' o', InLanguage k text o → InLanguage k' text o' → k = k' ∧ o = o') ∧
      ((∃ reason, ofText? text = .error reason) ↔ ∀ k o, ¬InLanguage k text o) := by
  have hok (o : Operand) : ofText? text = .ok o ↔ ∃ k, InLanguage k text o :=
    ⟨inLanguage_of_ofText?, fun ⟨_, h⟩ => ofText?_of_inLanguage h⟩
  refine ⟨hok, fun _ _ _ _ => InLanguage.unique, ?_⟩
  constructor
  · rintro ⟨reason, hreason⟩ k o h
    rw [ofText?_of_inLanguage h] at hreason
    cases hreason
  · intro h
    cases hread : ofText? text with
    | error reason => exact ⟨reason, rfl⟩
    | ok o =>
      obtain ⟨k, hk⟩ := inLanguage_of_ofText? hread
      exact absurd hk (h k o)

/-- Quotes and signs on their own are nothing; a constant of one quote has four of them. -/
example :
    ["'", "''", "'''", "-"].map (ofText? ·.toList) =
        [.error .unterminated, .error .emptyConstant, .error .loneQuote, .error .unrecognised] ∧
      ofText? "''''".toList = .ok (.chars "'") := by
  decide

end Operand

end Comet
