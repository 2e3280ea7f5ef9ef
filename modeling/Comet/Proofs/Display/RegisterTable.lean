import Comet.Display.RegisterTable
import Comet.Proofs.Text.Printable

/-!
# What the register displays show

Both displays consist of lines, and each line shows a register or the flags so that they can be read
off it.

* `Fits`: what may stand in a column. Every name and every body of a row fits (`fits_regName`,
  `fits_wordText`, `fits_address`, `fits_flagsText`).
* `lines_aligned`: so the lines of the table are of one width and without control characters.
* `unpaints_boxed`: in any colours, the table is these lines when its escape sequences are deleted.
* `lines_injective`, `plainLines_injective`: each display tells different registers apart.
* `registerText_displays`: the two displays together.
-/

namespace Comet

open Text (Appearance Printable Unpaints padLeft padRight)

/-! ## The texts of words -/

theorem Numeral.value_hexDigits (width n : Nat) :
    Numeral.value 16 (hexDigits width n) = n % 16 ^ width := by
  have hdigit : ∀ d < 16, Numeral.digitValue (hexDigit d) = d := by decide
  induction width generalizing n with
  | zero => simp [hexDigits, Numeral.value, Nat.mod_one]
  | succ width ih =>
    have hmod : n % 16 < 16 := Nat.mod_lt _ (by decide)
    have happend : Numeral.value 16 (hexDigits (width + 1) n) =
        Numeral.value 16 (hexDigits width (n / 16)) * 16 + n % 16 := by
      rw [hexDigits, Numeral.value, List.foldl_append, List.foldl_cons, List.foldl_nil,
        hdigit _ hmod, Numeral.value]
    rw [happend, ih, Nat.pow_succ, Nat.mul_comm (16 ^ width) 16, Nat.mod_mul]
    omega

theorem Word.hex_injective {w w' : Word} (h : w.hex = w'.hex) : w = w' := by
  have hvalue := congrArg (Numeral.value 16) (String.ofList_injective h)
  have hw : w.toNat < 16 ^ 4 := w.toNat_lt
  have hw' : w'.toNat < 16 ^ 4 := w'.toNat_lt
  rw [Numeral.value_hexDigits, Numeral.value_hexDigits, Nat.mod_eq_of_lt hw,
    Nat.mod_eq_of_lt hw'] at hvalue
  exact UInt16.toNat_inj.1 hvalue

theorem Word.signed_injective {w w' : Word} (h : w.signed = w'.signed) : w = w' := by
  have hint := Int16.toInt_inj.1 h
  have := congrArg Int16.toUInt16 hint
  simpa using this

theorem signedText_injective {a b : Int} (h : signedText a = signedText b) : a = b := by
  have heq (n : Int) : signedText n = n.repr := by cases n <;> rfl
  rw [heq, heq] at h
  exact Int.repr_inj.1 h

theorem length_signedText_le (w : Word) : (signedText w.signed).length ≤ 6 := by
  have hmin : -32768 ≤ w.signed := w.toInt16.le_toInt
  have hmax : w.signed < 32768 := w.toInt16.toInt_lt
  cases hw : w.signed with
  | ofNat n =>
    have hn : n < 10 ^ 6 := by rw [Int.ofNat_eq_natCast] at hw; omega
    exact Nat.repr_length n 6 (by decide) hn
  | negSucc n =>
    have hn : n + 1 < 10 ^ 5 := by omega
    have hlength := Nat.repr_length (n + 1) 5 (by decide) hn
    have hsign : "-".length = 1 := rfl
    simp only [signedText, String.length_append]
    omega

theorem printable_signedText (n : Int) : Printable (signedText n) := by
  cases n with
  | ofNat n => exact Text.printable_repr n
  | negSucc n =>
    have hsign : Printable "-" := by decide
    exact hsign.append (Text.printable_repr _)

namespace RegisterTable

variable {σ τ : Type} {m : Machine σ} {m' : Machine τ}

/-! ## Columns -/

/-- The text leaves a column of this width whole. -/
structure Fits (width : Nat) (text : String) : Prop where
  length : text.length ≤ width
  printable : Printable text

theorem fits_regName (r : Reg) : Fits 3 r.name := by
  have hlength : ∀ r : Reg, r.name.length ≤ 3 := by decide
  have hprintable : ∀ r : Reg, Printable r.name := by decide
  exact ⟨hlength r, hprintable r⟩

/-- **The character column** is three wide and holds no control character. -/
theorem charText_column (w : Word) : (charText w).length = 3 ∧ Printable (charText w) := by
  unfold charText
  repeat' split
  all_goals try decide
  next hrange =>
    have hvisible : ∀ n < 0x7F, 0x21 ≤ n → Text.isControl (Char.ofNat n) = false := by decide
    have hchar : Printable (String.ofList [Char.ofNat w.toNat]) := by
      intro c hc
      rw [String.toList_ofList, List.mem_singleton] at hc
      rw [hc]
      have hmin := UInt16.le_iff_toNat_le.1 hrange.1
      have hmax := UInt16.le_iff_toNat_le.1 hrange.2
      exact hvisible _ (Nat.lt_succ_of_le hmax) hmin
    refine ⟨?_, hchar.padRight 3⟩
    rw [Text.length_padRight]
    simp

/-- The columns of a word and the gaps between them are of fixed width. -/
theorem length_wordText (w : Word) : (wordText w).length = 27 := by
  have hunsigned : (Nat.repr w.toNat).length ≤ 6 :=
    Nat.repr_length _ 6 (by decide) (Nat.lt_trans w.toNat_lt (by decide))
  have hsigned := length_signedText_le w
  have hmark : "0x".length = 2 := rfl
  have hgap : "  ".length = 2 := rfl
  simp only [wordText, String.length_append, Word.length_hex, Text.length_padLeft,
    (charText_column w).1]
  omega

theorem fits_wordText (w : Word) : Fits (width - 5) (wordText w) where
  length := by
    rw [length_wordText]
    decide
  printable := by
    have hmark : Printable "0x" := by decide
    have hgap : Printable "  " := by decide
    exact ((((((hmark.append (Text.printable_hex w)).append hgap).append
      ((Text.printable_repr _).padLeft 6)).append hgap).append
      ((printable_signedText _).padLeft 6)).append hgap).append (charText_column w).2

theorem fits_address (w : Word) : Fits (width - 5) ("0x" ++ w.hex) where
  length := by
    rw [String.length_append, Word.length_hex]
    decide
  printable := by
    have hmark : Printable "0x" := by decide
    exact hmark.append (Text.printable_hex w)

theorem fits_flagsText (f : Flags) : Fits (width - 5) f.text := by
  obtain ⟨_ | _, _ | _, _ | _⟩ := f <;> exact ⟨by decide, by decide⟩

/-! ## The lines of the table -/

/-- A row of the table without colours. -/
def line (name body : String) : String :=
  "│" ++ " " ++ padRight 3 name ++ " " ++ padRight (width - 5) body ++ "│"

/-- The upper or the lower side of the table without colours. -/
def sideLine (left right : Char) : String :=
  String.ofList (left :: (List.replicate width '─' ++ [right]))

def headingLine : String :=
  "│" ++ padRight width "       hex     uint     int  char" ++ "│"

/-- The lines of the table without colours. -/
def lines (m : Machine σ) : List String :=
  [sideLine '┌' '┐', headingLine] ++
    (registerList m.registers).map (fun x => line x.1.name (wordText x.2)) ++
    [line "SP" ("0x" ++ m.sp.hex), line "PC" ("0x" ++ m.pc.hex), line "FR" m.flags.text,
      sideLine '└' '┘']

theorem length_lines (m : Machine σ) : (lines m).length = 14 := by
  simp [lines, registerList]

/-- A line as wide as all others, without control characters. -/
def Aligned (l : String) : Prop := l.length = width + 2 ∧ Printable l

theorem aligned_line {name body : String} (hname : Fits 3 name) (hbody : Fits (width - 5) body) :
    Aligned (line name body) := by
  constructor
  · have hbar : "│".length = 1 := rfl
    have hgap : " ".length = 1 := rfl
    have hnameLength := hname.length
    have hbodyLength := hbody.length
    simp only [line, String.length_append, Text.length_padRight, hbar, hgap, width] at hbodyLength ⊢
    omega
  · have hbar : Printable "│" := by decide
    have hgap : Printable " " := by decide
    exact ((((hbar.append hgap).append (hname.printable.padRight 3)).append hgap).append
      (hbody.printable.padRight _)).append hbar

theorem aligned_sideLine (left right : Char) (hleft : Text.isControl left = false)
    (hright : Text.isControl right = false) : Aligned (sideLine left right) := by
  constructor
  · rw [sideLine, String.length_ofList, List.length_cons, List.length_append,
      List.length_replicate]
    rfl
  · intro c hc
    simp only [sideLine, String.toList_ofList, List.mem_cons, List.mem_append,
      List.mem_replicate, List.not_mem_nil, or_false] at hc
    rcases hc with rfl | ⟨-, rfl⟩ | rfl
    · exact hleft
    · decide
    · exact hright

/-- **The table is aligned**, whatever the registers hold. -/
theorem lines_aligned (m : Machine σ) : ∀ l ∈ lines m, Aligned l := by
  intro l hl
  simp only [lines, List.mem_append, List.mem_cons, List.not_mem_nil, or_false, List.mem_map] at hl
  rcases hl with ((rfl | rfl) | ⟨x, -, rfl⟩) | rfl | rfl | rfl | rfl
  · exact aligned_sideLine _ _ (by decide) (by decide)
  · exact ⟨by decide, by decide⟩
  · exact aligned_line (fits_regName x.1) (fits_wordText x.2)
  · exact aligned_line ⟨by decide, by decide⟩ (fits_address m.sp)
  · exact aligned_line ⟨by decide, by decide⟩ (fits_address m.pc)
  · exact aligned_line ⟨by decide, by decide⟩ (fits_flagsText m.flags)
  · exact aligned_sideLine _ _ (by decide) (by decide)

/-! ## Colours -/

theorem unpaints_newline : Unpaints "\n" "\n" := Text.unpaints_self (by decide)

theorem unpaints_side (look : Appearance) {left right : Char}
    (h : Printable (sideLine left right)) :
    Unpaints (side look left right) (sideLine left right ++ "\n") :=
  (Text.unpaints_paint look .dim h).append unpaints_newline

theorem unpaints_heading (look : Appearance) : Unpaints (heading look) (headingLine ++ "\n") := by
  have hbar : Printable "│" := by decide
  have htitles : Printable (padRight width "       hex     uint     int  char") := by decide
  exact (((Text.unpaints_paint look .dim hbar).append
    (Text.unpaints_paint look .dimItalic htitles)).append
    (Text.unpaints_paint look .dim hbar)).append unpaints_newline

theorem unpaints_row (look : Appearance) {name body : String} (hname : Printable name)
    (hbody : Printable body) : Unpaints (row look name body) (line name body ++ "\n") := by
  have hbar : Unpaints (look.paint .dim "│") "│" := Text.unpaints_paint look .dim (by decide)
  have hgap : Unpaints " " " " := Text.unpaints_self (by decide)
  exact (((((hbar.append hgap).append (Text.unpaints_paint look .bold (hname.padRight 3))).append
    hgap).append (hbody.padRight _).unpaints).append hbar).append unpaints_newline

/-- **The table in any colours** is its lines and the escape sequences around their parts. -/
theorem unpaints_boxed (look : Appearance) (m : Machine σ) :
    Unpaints (boxed look m) (String.join ((lines m).map (· ++ "\n"))) := by
  have htop := unpaints_side look (aligned_sideLine '┌' '┐' rfl rfl).2
  have hbottom := unpaints_side look (aligned_sideLine '└' '┘' rfl rfl).2
  have hregisters : ∀ x ∈ registerList m.registers,
      Unpaints (row look x.1.name (wordText x.2)) (line x.1.name (wordText x.2) ++ "\n") :=
    fun x _ => unpaints_row look (fits_regName x.1).printable (fits_wordText x.2).printable
  have haddress (name : String) (hname : Printable name) (w : Word) :
      Unpaints (row look name ("0x" ++ w.hex)) (line name ("0x" ++ w.hex) ++ "\n") :=
    unpaints_row look hname (fits_address w).printable
  have hflags : Unpaints (row look "FR" m.flags.text) (line "FR" m.flags.text ++ "\n") :=
    unpaints_row look (by decide) (fits_flagsText m.flags).printable
  have hlines : String.join ((lines m).map (· ++ "\n")) =
      sideLine '┌' '┐' ++ "\n" ++ (headingLine ++ "\n") ++
        String.join ((registerList m.registers).map fun x =>
          line x.1.name (wordText x.2) ++ "\n") ++
        (line "SP" ("0x" ++ m.sp.hex) ++ "\n") ++ (line "PC" ("0x" ++ m.pc.hex) ++ "\n") ++
        (line "FR" m.flags.text ++ "\n") ++ (sideLine '└' '┘' ++ "\n") := by
    simp [lines, Function.comp_def, String.append_assoc]
  rw [hlines]
  exact (((((htop.append (unpaints_heading look)).append (Text.unpaints_join hregisters)).append
    (haddress "SP" (by decide) m.sp)).append (haddress "PC" (by decide) m.pc)).append
    hflags).append hbottom

theorem boxed_plain (m : Machine σ) : boxed {} m = String.join ((lines m).map (· ++ "\n")) := by
  simp [boxed, lines, side, heading, row, sideLine, headingLine, line, Appearance.paint,
    Function.comp_def, String.append_assoc]

/-! ## What the displays show -/

/-- The machines show the same registers and flags. -/
structure SameRegisters (m : Machine σ) (m' : Machine τ) : Prop where
  registers : m.registers = m'.registers
  sp : m.sp = m'.sp
  pc : m.pc = m'.pc
  flags : m.flags = m'.flags

/-- A list that shows each general register on a line of its own shows all of them. -/
theorem registers_eq_of_map {shown : Reg → Word → String}
    (hshown : ∀ r w w', shown r w = shown r w' → w = w') {a b : Registers}
    (h : (registerList a).map (fun x => shown x.1 x.2) =
      (registerList b).map fun x => shown x.1 x.2) : a = b := by
  simp only [registerList, List.map_map] at h
  exact Vector.ext fun i hi =>
    hshown ⟨i, hi⟩ _ _ (List.map_inj_left.1 h ⟨i, hi⟩ (List.mem_finRange _))

theorem line_injective {name body body' : String} (hlength : body.length = body'.length)
    (h : line name body = line name body') : body = body' := by
  simp only [line, padRight, String.append_assoc, String.append_right_inj] at h
  exact (Text.append_injective h hlength).1

theorem wordText_injective {w w' : Word} (h : wordText w = wordText w') : w = w' := by
  simp only [wordText, String.append_assoc, String.append_right_inj] at h
  exact Word.hex_injective (Text.append_injective h (by simp)).1

theorem flagsText_injective {f f' : Flags} (h : f.text = f'.text) : f = f' := by
  obtain ⟨_ | _, _ | _, _ | _⟩ := f <;> obtain ⟨_ | _, _ | _, _ | _⟩ := f' <;>
    first | rfl | exact absurd h (by decide)

/-- **The table tells registers apart.** -/
theorem lines_injective (h : lines m = lines m') : SameRegisters m m' := by
  have hsides := List.append_inj h (by simp [registerList])
  have hrows := (List.append_inj hsides.1 rfl).2
  obtain ⟨hsp, hpc, hflags⟩ : line "SP" ("0x" ++ m.sp.hex) = line "SP" ("0x" ++ m'.sp.hex) ∧
      line "PC" ("0x" ++ m.pc.hex) = line "PC" ("0x" ++ m'.pc.hex) ∧
        line "FR" m.flags.text = line "FR" m'.flags.text := by
    simpa using hsides.2
  have haddress {name : String} {w w' : Word}
      (h : line name ("0x" ++ w.hex) = line name ("0x" ++ w'.hex)) : w = w' := by
    have hbody := line_injective (by simp [String.length_append]) h
    exact Word.hex_injective ((String.append_right_inj _).1 hbody)
  have hlength (f : Flags) : f.text.length = 14 := by
    obtain ⟨_ | _, _ | _, _ | _⟩ := f <;> rfl
  have hword (r : Reg) (w w' : Word)
      (h : line r.name (wordText w) = line r.name (wordText w')) : w = w' :=
    wordText_injective (line_injective (by rw [length_wordText, length_wordText]) h)
  exact ⟨registers_eq_of_map hword hrows, haddress hsp, haddress hpc,
    flagsText_injective (line_injective (by rw [hlength, hlength]) hflags)⟩

/-- The lines of the plain list. -/
def plainLines (m : Machine σ) : List String :=
  (registerList m.registers).map (fun x => x.1.name ++ " " ++ signedText x.2.signed) ++
    ["SP " ++ Nat.repr m.sp.toNat, "PC " ++ Nat.repr m.pc.toNat, "FR " ++ m.flags.bits]

theorem plain_eq (m : Machine σ) : plain m = String.join ((plainLines m).map (· ++ "\n")) := by
  simp only [plain, plainLines, List.map_append, List.map_map, List.map_cons, List.map_nil,
    Function.comp_def, String.join_append, String.join_cons, String.join_nil, String.append_assoc,
    String.append_empty]

theorem printable_plainLines (m : Machine σ) : ∀ l ∈ plainLines m, Printable l := by
  have hname (name : String) (hname : Printable name) (n : Nat) : Printable (name ++ Nat.repr n) :=
    hname.append (Text.printable_repr n)
  have hgap : Printable " " := by decide
  have hbits : Printable m.flags.bits := by
    obtain ⟨_ | _, _ | _, _ | _⟩ := m.flags <;> decide
  have hfr : Printable "FR " := by decide
  intro l hl
  simp only [plainLines, List.mem_append, List.mem_cons, List.not_mem_nil, or_false,
    List.mem_map] at hl
  rcases hl with ⟨x, -, rfl⟩ | rfl | rfl | rfl
  · exact ((fits_regName x.1).printable.append hgap).append (printable_signedText _)
  · exact hname "SP " (by decide) _
  · exact hname "PC " (by decide) _
  · exact hfr.append hbits

/-- **The plain list tells registers apart.** -/
theorem plainLines_injective (h : plainLines m = plainLines m') : SameRegisters m m' := by
  obtain ⟨hrows, hrest⟩ := List.append_inj h (by simp [registerList])
  obtain ⟨hsp, hpc, hflags⟩ : Nat.repr m.sp.toNat = Nat.repr m'.sp.toNat ∧
      Nat.repr m.pc.toNat = Nat.repr m'.pc.toNat ∧ m.flags.bits = m'.flags.bits := by
    simpa using hrest
  have hword (r : Reg) (w w' : Word) (h : r.name ++ " " ++ signedText w.signed =
      r.name ++ " " ++ signedText w'.signed) : w = w' :=
    Word.signed_injective (signedText_injective ((String.append_right_inj _).1 h))
  have hbits {f f' : Flags} (h : f.bits = f'.bits) : f = f' := by
    obtain ⟨_ | _, _ | _, _ | _⟩ := f <;> obtain ⟨_ | _, _ | _, _ | _⟩ := f' <;>
      first | rfl | exact absurd h (by decide)
  exact ⟨registers_eq_of_map hword hrows, UInt16.toNat_inj.1 (Nat.repr_inj.1 hsp),
    UInt16.toNat_inj.1 (Nat.repr_inj.1 hpc), hbits hflags⟩

theorem escape_not_mem_plain (m : Machine σ) : Text.escape ∉ (plain m).toList := by
  rw [plain_eq, String.toList_join, List.mem_flatMap]
  rintro ⟨_, hline, hmem⟩
  obtain ⟨l, hl, rfl⟩ := List.mem_map.1 hline
  rw [String.toList_append, List.mem_append] at hmem
  rcases hmem with hmem | hmem
  · exact (printable_plainLines m l hl).not_mem (by decide) hmem
  · exact absurd hmem (by decide)

theorem sameRegisters_of_registerText {look : Appearance}
    (h : m.registerText look = m'.registerText look) : SameRegisters m m' := by
  unfold Machine.registerText at h
  split at h
  · rw [plain_eq, plain_eq] at h
    exact plainLines_injective
      (Text.join_lines_injective (printable_plainLines m) (printable_plainLines m') h)
  · -- what is left of the text without its escape sequences still tells them apart
    have herased := congrArg Text.withoutEscapes h
    rw [(unpaints_boxed look m).withoutEscapes_eq,
      (unpaints_boxed look m').withoutEscapes_eq] at herased
    exact lines_injective (Text.join_lines_injective (fun l hl => (lines_aligned m l hl).2)
      (fun l hl => (lines_aligned m' l hl).2) herased)

theorem SameRegisters.registerText_eq (h : SameRegisters m m') (look : Appearance) :
    m.registerText look = m'.registerText look := by
  obtain ⟨hregisters, hsp, hpc, hflags⟩ := h
  unfold Machine.registerText plain boxed
  rw [hregisters, hsp, hpc, hflags]

end RegisterTable

open RegisterTable

/-- **The register displays.** The table has lines of one width without control characters, and
colours only put escape sequences in; the plain list has none; and both show the registers and the
flags, and nothing else. -/
theorem Machine.registerText_displays {σ τ : Type} (m : Machine σ) (m' : Machine τ) :
    (∃ lines : List String, lines.length = 14 ∧
        (∀ line ∈ lines, line.length = 39 ∧ Printable line) ∧
        m.registerText {} = String.join (lines.map (· ++ "\n"))) ∧
      Text.withoutEscapes (m.registerText { color := true }) = m.registerText {} ∧
      (∀ color, Text.escape ∉ (m.registerText { minimal := true, color }).toList) ∧
      ∀ look, m.registerText look = m'.registerText look ↔ SameRegisters m m' := by
  refine ⟨⟨lines m, length_lines m, lines_aligned m, boxed_plain m⟩, ?_,
    fun _ => escape_not_mem_plain m,
    fun look => ⟨sameRegisters_of_registerText, fun h => h.registerText_eq look⟩⟩
  have herased := (unpaints_boxed { color := true } m).withoutEscapes_eq
  rwa [← boxed_plain] at herased

end Comet
