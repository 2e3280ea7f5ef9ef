import Comet.Proofs.Except
import Comet.Proofs.Source.Core
import Comet.Proofs.Source.Positions

/-!
# Reading a line by byte positions

A reader that keeps byte positions and slices the line at them is only as good as its positions: a
slice out of range, or with an end inside a character, has no value. `Unchecked` are computations in
which that can happen. `Line.readStatement` reads a statement that way.

* `slice?_eq_some`, `isSome_slice?`: a slice exists exactly if its ends are in order and both are
  at the boundaries of UTF-8 characters; otherwise it traps (`Text.slice_eq_trap_iff`).
* `Unchecked.lift_bind`, `lift_mapM`: a computation without unchecked operations never traps.
* `nextWord_append`, `readArg_append`, `mapM_ranges`: the parts of a line stand where the reader
  takes them from, as long as the positions are the lengths of what has been read.
* `readStatement_eq`: so reading by positions never traps, and gives what `statement?` gives.
-/

namespace Comet

/-! ## Slices -/

namespace Text

theorem byteLength_pos {cs : List Char} (h : cs ≠ []) : 0 < byteLength cs := by
  obtain ⟨c, cs, rfl⟩ := List.exists_cons_of_ne_nil h
  have := c.utf8Size_pos
  rw [byteLength_cons]
  omega

/-- Cuts a text at a byte. There is no cut inside a character or behind the end. -/
def cut? : Nat → List Char → Option (List Char × List Char)
  | 0, cs => some ([], cs)
  | _ + 1, [] => none
  | n + 1, c :: cs =>
    if c.utf8Size ≤ n + 1 then
      (cut? (n + 1 - c.utf8Size) cs).map fun (front, back) => (c :: front, back)
    else none

/-- The part of a text from byte `start` to byte `stop`. -/
def slice? (start stop : Nat) (cs : List Char) : Option (List Char) :=
  (cut? stop cs).bind fun (front, _) => (cut? start front).map (·.2)

variable {n start stop : Nat} {cs text : List Char}

theorem cut?_append (front back : List Char) :
    cut? (byteLength front) (front ++ back) = some (front, back) := by
  induction front with
  | nil => cases back <;> rfl
  | cons c front ih =>
    have hpos := c.utf8Size_pos
    obtain ⟨n, hn⟩ : ∃ n, byteLength (c :: front) = n + 1 :=
      Nat.exists_eq_add_one.2 (byteLength_pos (List.cons_ne_nil c front))
    have hrest : n + 1 - c.utf8Size = byteLength front := by rw [← hn, byteLength_cons]; omega
    rw [hn, List.cons_append, cut?, if_pos (by rw [← hn, byteLength_cons]; omega), hrest, ih]
    rfl

/-- **Where a text can be cut**: behind characters that have so many bytes together. -/
theorem cut?_eq_some {front back : List Char} :
    cut? n cs = some (front, back) ↔ cs = front ++ back ∧ byteLength front = n := by
  constructor
  · intro h
    induction cs generalizing n front with
    | nil =>
      cases n with
      | zero => cases h; exact ⟨rfl, rfl⟩
      | succ n => cases h
    | cons c cs ih =>
      cases n with
      | zero => cases h; exact ⟨rfl, rfl⟩
      | succ n =>
        rw [cut?] at h
        split at h
        · next hle =>
          obtain ⟨⟨front, back⟩, hcut, hparts⟩ := Option.map_eq_some_iff.1 h
          cases hparts
          obtain ⟨rfl, hlen⟩ := ih hcut
          exact ⟨rfl, by rw [byteLength_cons]; omega⟩
        · cases h
  · intro h
    obtain ⟨rfl, rfl⟩ := h
    exact cut?_append front back

/-- **What a slice is**: the text that stands between two bytes. -/
theorem slice?_eq_some :
    slice? start stop cs = some text ↔ ∃ before after, cs = before ++ text ++ after ∧
      byteLength before = start ∧ byteLength before + byteLength text = stop := by
  simp only [slice?, Option.bind_eq_some_iff, Option.map_eq_some_iff, Prod.exists, cut?_eq_some]
  constructor
  · intro h
    obtain ⟨front, after, ⟨rfl, hfront⟩, before, _, ⟨rfl, hbefore⟩, rfl⟩ := h
    exact ⟨before, after, rfl, hbefore, by rw [← byteLength_append, hfront]⟩
  · intro h
    obtain ⟨before, after, rfl, hbefore, htext⟩ := h
    exact ⟨before ++ text, after, ⟨rfl, by rw [byteLength_append, htext]⟩, before, text,
      ⟨rfl, hbefore⟩, rfl⟩

theorem rawEndPos_eq (s : String) : s.rawEndPos = ⟨byteLength s.toList⟩ := by
  rw [← size_utf8Encode, String.utf8Encode_toList]
  rfl

/-- A string can be cut where a character of its UTF-8 encoding begins or ends. -/
theorem isSome_cut? (s : String) :
    (cut? n s.toList).isSome ↔ String.Pos.Raw.IsValid s ⟨n⟩ := by
  rw [String.Pos.Raw.isValid_iff_exists_append, Option.isSome_iff_exists]
  simp only [Prod.exists, cut?_eq_some, rawEndPos_eq, String.Pos.Raw.mk.injEq]
  constructor
  · intro h
    obtain ⟨front, back, hs, hfront⟩ := h
    refine ⟨String.ofList front, String.ofList back, ?_, by rw [String.toList_ofList, hfront]⟩
    rw [← String.ofList_append, ← hs, String.ofList_toList]
  · intro h
    obtain ⟨front, back, rfl, hfront⟩ := h
    exact ⟨front.toList, back.toList, String.toList_append, hfront.symm⟩

/-- **Which slices exist**: those with ends in order, both at the boundary of a UTF-8 character. -/
theorem isSome_slice? (s : String) :
    (slice? start stop s.toList).isSome ↔ start ≤ stop ∧
      String.Pos.Raw.IsValid s ⟨start⟩ ∧ String.Pos.Raw.IsValid s ⟨stop⟩ := by
  rw [← isSome_cut?, ← isSome_cut?]
  simp only [Option.isSome_iff_exists, Prod.exists, cut?_eq_some, slice?_eq_some]
  constructor
  · intro h
    obtain ⟨text, before, after, hs, rfl, rfl⟩ := h
    exact ⟨Nat.le_add_right _ _, ⟨before, text ++ after, by rw [hs, List.append_assoc], rfl⟩,
      before ++ text, after, hs, byteLength_append before text⟩
  · intro h
    obtain ⟨hle, ⟨before, rest, hs, rfl⟩, front, after, hfront, rfl⟩ := h
    rcases List.append_eq_append_iff.1 (hs.symm.trans hfront) with
      ⟨text, rfl, rfl⟩ | ⟨text, rfl, rfl⟩
    · exact ⟨text, before, after, hfront, rfl, (byteLength_append before text).symm⟩
    · -- the cuts are in order, so that there is nothing between them
      have htext : text = [] := by
        by_contra hne
        have := byteLength_pos hne
        rw [byteLength_append] at hle
        omega
      subst htext
      exact ⟨[], front, rest, by simpa using hs, by simp, by simp⟩

/-- The bytes of a slice are those between its ends. -/
theorem extract_of_slice? {s : String} (h : slice? start stop s.toList = some text) :
    s.toByteArray.extract start stop = (String.ofList text).toByteArray := by
  obtain ⟨before, after, hs, rfl, rfl⟩ := slice?_eq_some.1 h
  have hmarks : Span.Marks s.toList (1 + before.count '\n')
      ⟨byteLength before, byteLength text⟩ text := ⟨before, after, hs, rfl, rfl, rfl⟩
  exact hmarks.extract_toByteArray

/-! ## Blanks and words -/

theorem trim_eq_nil_iff : trim cs = [] ↔ cs.all isBlank := by
  rw [List.all_eq_true]
  constructor
  · intro h
    rcases trim_cases cs with ⟨hblanks, -⟩ | ⟨hsolid, -⟩
    · exact hblanks
    · exact absurd h hsolid.ne_nil
  · exact trim_of_isBlanks

theorem word_trimStart_eq_nil_iff :
    word (trimStart cs) = [] ↔ cs.all isBlank := by
  have hhead := List.head?_dropWhile_not isBlank cs
  rw [show cs.dropWhile isBlank = trimStart cs from rfl] at hhead
  rw [List.all_eq_true, ← List.dropWhile_eq_nil_iff]
  change _ ↔ trimStart cs = []
  cases htrim : trimStart cs with
  | nil => simp [word]
  | cons c rest =>
    rw [htrim] at hhead
    have hc : isBlank c = false := by simpa using hhead
    simp [word, hc]

/-- A text is blanks, a word, and what follows the word. -/
theorem blanks_word_rest (cs : List Char) :
    cs.takeWhile isBlank ++ (word (trimStart cs) ++
      (trimStart cs).drop (word (trimStart cs)).length) = cs := by
  rw [word_append_drop, trimStart_append_eq]

end Text

/-! ## Unchecked operations -/

/-- What goes wrong where an unchecked operation has no value. -/
inductive Trap
  /-- A slice is out of range, or has an end inside a character. -/
  | slice
  /-- A length is subtracted from a smaller one. -/
  | underflow
  /-- A statement does not have the operand. -/
  | operand
  /-- A layout does not have the statement. -/
  | statement
  /-- A number does not keep its value in the bits that it is given. -/
  | cast
  /-- A statement that should emit words is passed over. -/
  | skipped
  /-- An assertion does not hold. -/
  | assertion
  deriving DecidableEq, Repr

/-- How a computation with unchecked operations ends without a value. -/
inductive Stop
  | report (e : AsmError)
  | trap (t : Trap)
  deriving DecidableEq, Repr

/-- A computation with unchecked operations. -/
abbrev Unchecked := Except Stop

namespace Unchecked

variable {α β : Type}

/-- A computation that reports errors, and has no unchecked operation. -/
def lift (x : Except AsmError α) : Unchecked α := x.mapError .report

def report (e : AsmError) : Unchecked α := .error (.report e)

/-- Traps unless the condition holds. -/
def ensure (t : Trap) (p : Prop) [Decidable p] : Unchecked Unit :=
  if p then .ok () else .error (.trap t)

/-- Gives the value that should be there. -/
def need (t : Trap) : Option α → Unchecked α
  | some a => .ok a
  | none => .error (.trap t)

@[simp] theorem lift_ok (a : α) : lift (.ok a) = .ok a := rfl

@[simp] theorem lift_error (e : AsmError) : lift (.error e : Except AsmError α) = report e := rfl

@[simp] theorem lift_bind (x : Except AsmError α) (f : α → Except AsmError β) :
    lift (x >>= f) = lift x >>= fun a => lift (f a) := by
  cases x <;> rfl

@[simp] theorem lift_map (f : α → β) (x : Except AsmError α) : lift (f <$> x) = f <$> lift x := by
  cases x <;> rfl

theorem lift_mapM (f : α → Except AsmError β) (as : List α) :
    lift (as.mapM f) = as.mapM fun a => lift (f a) := by
  induction as with
  | nil => rfl
  | cons a as ih => simp [ih]

theorem lift_ne_trap (x : Except AsmError α) (t : Trap) : lift x ≠ .error (.trap t) := by
  cases x <;> simp [report]

theorem lift_eq_ok {x : Except AsmError α} {a : α} : lift x = .ok a ↔ x = .ok a := by
  cases x <;> simp [report]

theorem ensure_of {t : Trap} {p : Prop} [Decidable p] (h : p) : ensure t p = .ok () := if_pos h

@[simp] theorem need_some (t : Trap) (a : α) : need t (some a) = .ok a := rfl

end Unchecked

/-! ## Reading a line -/

open Unchecked

namespace Text

/-- The text from byte `start` to byte `stop`. -/
def slice (start stop : Nat) (cs : List Char) : Unchecked (List Char) :=
  need .slice (slice? start stop cs)

def sliceFrom (start : Nat) (cs : List Char) : Unchecked (List Char) :=
  slice start (byteLength cs) cs

/-- The bytes of the blanks before a text: those that trimming takes off. -/
def blankBytes (cs : List Char) : Unchecked Nat := do
  ensure .underflow (byteLength (trimStart cs) ≤ byteLength cs)
  return byteLength cs - byteLength (trimStart cs)

/-- **When a slice traps**: its ends are out of order, or one is not at the boundary of a UTF-8
character. -/
theorem slice_eq_trap_iff (s : String) (start stop : Nat) :
    slice start stop s.toList = .error (.trap .slice) ↔ ¬(start ≤ stop ∧
      String.Pos.Raw.IsValid s ⟨start⟩ ∧ String.Pos.Raw.IsValid s ⟨stop⟩) := by
  rw [← isSome_slice?, slice]
  cases slice? start stop s.toList <;> simp [need]

/-- The second byte of this character is no boundary. -/
example : slice 1 3 "\u3042".toList = .error (.trap .slice) := by decide

theorem slice_append (before text after : List Char) :
    slice (byteLength before) (byteLength before + byteLength text) (before ++ text ++ after) =
      .ok text := by
  rw [slice, slice?_eq_some.2 ⟨before, after, rfl, rfl, rfl⟩, need_some]

theorem sliceFrom_append (before text : List Char) :
    sliceFrom (byteLength before) (before ++ text) = .ok text := by
  have h := slice_append before text []
  rwa [List.append_nil, ← byteLength_append] at h

theorem blankBytes_eq (cs : List Char) :
    blankBytes cs = .ok (byteLength (cs.takeWhile isBlank)) := by
  have h : byteLength (cs.takeWhile isBlank) + byteLength (trimStart cs) = byteLength cs := by
    rw [← byteLength_append, trimStart_append_eq]
  rw [blankBytes, ensure_of (by omega), ok_bind, pure_eq_ok]
  omega

end Text

namespace Line

/-- The byte at which the comment of a text begins, or else the text ends. -/
def commentStart (quoted : Bool) (offset : Nat) : List Char → Nat
  | [] => offset
  | c :: cs =>
    if c = ';' ∧ quoted = false then offset
    else commentStart (quoted != (c == quote)) (offset + c.utf8Size) cs

/-- The first word of a text from byte `start` on, and the byte at which it stands. -/
def nextWord (text : List Char) (start : Nat) : Unchecked (Option (Nat × List Char)) := do
  let rest ← Text.sliceFrom start text
  let wordStart := start + (← Text.blankBytes rest)
  match Text.word (Text.trimStart (← Text.sliceFrom wordStart text)) with
  | [] => return none
  | word => return some (wordStart, word)

/-- The ranges between the commas of a text that ends at byte `stop`. The text has been read up to
byte `offset`, and the last range begins at `start`. -/
def ranges (stop start offset : Nat) (quoted : Bool) : List Char → List (Nat × Nat)
  | [] => [(start, stop)]
  | c :: cs =>
    if c = ',' ∧ quoted = false then
      (start, offset) :: ranges stop (offset + 1) (offset + 1) quoted cs
    else ranges stop start (offset + c.utf8Size) (quoted != (c == quote)) cs

/-- Reads the operand in a range of the code of a line. -/
def readArg (line : Line) (code : List Char) (range : Nat × Nat) : Unchecked Arg := do
  let raw ← Text.slice range.1 range.2 code
  let textStart := range.1 + (← Text.blankBytes raw)
  let text := Text.trim raw
  let span : Span := ⟨line.offset + textStart, Text.byteLength text⟩
  if text = [] then
    report (line.malformed .emptyOperand ⟨line.offset + range.1, Text.byteLength raw⟩)
  else
    match h : Operand.ofText? text with
    | .ok operand => return ⟨operand, String.ofList text, span, Operand.inRange_of_ofText? h⟩
    | .error reason =>
      report ⟨.unsupportedOperand (String.ofList text) reason, line.number, span⟩

/-- Reads the operands that the code of a line has from byte `start` on. -/
def readArgs (line : Line) (code : List Char) (start : Nat) : Unchecked (List Arg) := do
  if Text.trim (← Text.sliceFrom start code) = [] then return []
  else
    let field ← Text.sliceFrom start code
    (ranges (Text.byteLength code) start start false field).mapM (line.readArg code)

/-- Reads the mnemonic `word`, which stands at byte `start` of the code, and what follows it. -/
def readBody (line : Line) (code : List Char) (label : Option Located) (start : Nat)
    (word : List Char) : Unchecked Statement := do
  let span : Span := ⟨line.offset + start, Text.byteLength word⟩
  match Mnemonic.ofName? (String.ofList word) with
  | none => report ⟨.unknownMnemonic (String.ofList word), line.number, span⟩
  | some mnemonic =>
    let args ← line.readArgs code (start + Text.byteLength word)
    return { label, mnemonic, mnemonicSpan := span, args, line := line.number,
             source := String.ofList (Text.trim code) }

/-- Reads the statement of a line by byte positions. -/
def readStatement (line : Line) : Unchecked (Option Statement) := do
  let code ← Text.slice 0 (commentStart false 0 line.text) line.text
  match ← nextWord code 0 with
  | none => return none
  | some (start, first) =>
    if (Mnemonic.ofName? (String.ofList first)).isSome then
      some <$> line.readBody code none start first
    else
      let span : Span := ⟨line.offset + start, Text.byteLength first⟩
      if isLabel first = false then
        report (line.malformed (.invalidLabel (String.ofList first)) span)
      else
        match ← nextWord code (start + Text.byteLength first) with
        | none => report (line.malformed .missingInstruction span)
        | some (start, word) =>
          some <$> line.readBody code (some ⟨String.ofList first, span⟩) start word

/-! ## The positions are right -/

variable {line : Line}

/-- The comment begins behind the code. -/
theorem commentStart_eq (quoted : Bool) (done cs : List Char) :
    commentStart quoted (Text.byteLength done.reverse) cs =
      Text.byteLength (breakUnquoted ';' quoted done cs).1 := by
  induction cs generalizing quoted done with
  | nil => rfl
  | cons c cs ih =>
    rw [commentStart, breakUnquoted]
    split
    · rfl
    · rw [← ih, List.reverse_cons, Text.byteLength_append, Text.byteLength_cons,
        Text.byteLength_nil, Nat.add_zero]

theorem slice_code (line : Line) :
    Text.slice 0 (commentStart false 0 line.text) line.text = .ok (code line.text) := by
  obtain ⟨before, after, htext, hoffset⟩ := line.at_code
  have hbefore : Text.byteLength before = 0 := by omega
  have hslice := Text.slice_append before (code line.text) after
  rw [← htext, hbefore, Nat.zero_add] at hslice
  have hstop : commentStart false 0 line.text = Text.byteLength (code line.text) :=
    commentStart_eq false [] line.text
  rw [hstop, hslice]

/-- **The next word** stands behind the blanks that follow what has been read. -/
theorem nextWord_append (front field : List Char) :
    nextWord (front ++ field) (Text.byteLength front) =
      .ok (if Text.word (Text.trimStart field) = [] then none
        else some (Text.byteLength (front ++ field.takeWhile Text.isBlank),
          Text.word (Text.trimStart field))) := by
  have hfield : front ++ field = front ++ field.takeWhile Text.isBlank ++ Text.trimStart field := by
    rw [List.append_assoc, Text.trimStart_append_eq]
  have htail := Text.sliceFrom_append (front ++ field.takeWhile Text.isBlank) (Text.trimStart field)
  rw [← hfield] at htail
  have htrim : Text.trimStart (Text.trimStart field) = Text.trimStart field :=
    List.dropWhile_idempotent Text.isBlank field
  simp only [nextWord, Text.sliceFrom_append, ok_bind, Text.blankBytes_eq,
    ← Text.byteLength_append, htail, htrim]
  cases Text.word (Text.trimStart field) <;> rfl

theorem readArg_append (line : Line) (front piece back : List Char) :
    line.readArg (front ++ piece ++ back)
        (Text.byteLength front, Text.byteLength front + Text.byteLength piece) =
      lift (line.arg? (line.offset + Text.byteLength front) piece) := by
  simp only [readArg, Text.slice_append, ok_bind, Text.blankBytes_eq, ← Nat.add_assoc]
  by_cases hempty : Text.trim piece = []
  · simp only [arg?, if_pos hempty]
    rfl
  · rw [if_neg hempty]
    split
    · next operand hread => rw [arg?_of_ok rfl hempty hread]; rfl
    · next reason hread => rw [arg?_of_error rfl hempty hread]; rfl

/-- What has been read already only goes in front. -/
theorem argsOnto_eq_map (line : Line) (done : List Arg) (start : Nat) (ps : List (List Char)) :
    line.argsOnto done start ps = (done.reverse ++ ·) <$> line.argsOnto [] start ps := by
  induction ps generalizing done start with
  | nil => simp [argsOnto]
  | cons piece ps ih =>
    rw [argsOnto, argsOnto]
    cases line.arg? start piece with
    | error e => rfl
    | ok arg =>
      simp only [ih (arg :: done), ih [arg]]
      cases line.argsOnto [] (start + Text.byteLength piece + 1) ps <;> simp

theorem lift_argsOnto_cons (line : Line) (start : Nat) (piece : List Char)
    (ps : List (List Char)) :
    lift (line.argsOnto [] start (piece :: ps)) = do
      let arg ← lift (line.arg? start piece)
      let args ← lift (line.argsOnto [] (start + Text.byteLength piece + 1) ps)
      return arg :: args := by
  rw [argsOnto]
  cases line.arg? start piece with
  | error e => rfl
  | ok arg =>
    simp only [argsOnto_eq_map line [arg]]
    cases line.argsOnto [] (start + Text.byteLength piece + 1) ps <;> rfl

/-- **The ranges of a field** are those of its pieces. What has been read of the current piece
stands behind `front`. -/
theorem mapM_ranges (line : Line) {code cs : List Char} (front current : List Char)
    (quoted : Bool) (hcode : code = front ++ current.reverse ++ cs) :
    (ranges (Text.byteLength code) (Text.byteLength front)
        (Text.byteLength front + Text.byteLength current.reverse) quoted cs).mapM
        (line.readArg code) =
      lift (line.argsOnto [] (line.offset + Text.byteLength front)
        (piecesOnto [] current quoted cs)) := by
  induction cs generalizing front current quoted with
  | nil =>
    have harg := hcode ▸ line.readArg_append front current.reverse []
    have hstop : Text.byteLength code =
        Text.byteLength front + Text.byteLength current.reverse := by
      rw [hcode, List.append_nil, Text.byteLength_append]
    rw [ranges, piecesOnto, hstop, List.reverse_singleton, lift_argsOnto_cons, List.mapM_cons, harg]
    rfl
  | cons c cs ih =>
    rw [ranges, piecesOnto]
    split
    · next hc =>
      -- the comma is a single byte, and the next piece begins behind it
      obtain ⟨rfl, -⟩ := hc
      have harg := hcode ▸ line.readArg_append front current.reverse (',' :: cs)
      have hnext : code = (front ++ current.reverse ++ [',']) ++ [].reverse ++ cs := by simp [hcode]
      have hcomma : Text.byteLength (front ++ current.reverse ++ [',']) =
          Text.byteLength front + Text.byteLength current.reverse + 1 := by
        rw [Text.byteLength_append, Text.byteLength_append]
        rfl
      have hrest := ih _ _ quoted hnext
      rw [hcomma, List.reverse_nil, Text.byteLength_nil, Nat.add_zero] at hrest
      rw [piecesOnto_eq_append, List.reverse_singleton, List.singleton_append, lift_argsOnto_cons,
        List.mapM_cons, harg, hrest]
      simp only [Nat.add_assoc]
    · have hsame : code = front ++ (c :: current).reverse ++ cs := by simp [hcode]
      rw [← ih _ _ (quoted != (c == quote)) hsame]
      simp [Nat.add_assoc]

theorem readArgs_append (line : Line) (front field : List Char) :
    line.readArgs (front ++ field) (Text.byteLength front) =
      lift (line.args? (line.offset + Text.byteLength front) field) := by
  simp only [readArgs, Text.sliceFrom_append, ok_bind, args?, Text.trim_eq_nil_iff]
  split
  · rfl
  · have hcode : front ++ field = front ++ [].reverse ++ field := by simp
    have hranges := line.mapM_ranges front [] false hcode
    rwa [List.reverse_nil, Text.byteLength_nil, Nat.add_zero] at hranges

theorem readBody_append {front field : List Char} (label : Option Located)
    (hcode : code line.text = front ++ field) :
    line.readBody (front ++ field) label
        (Text.byteLength (front ++ field.takeWhile Text.isBlank))
        (Text.word (Text.trimStart field)) =
      lift (line.body? label (line.offset + Text.byteLength front) field) := by
  have hparts : front ++ field.takeWhile Text.isBlank ++ Text.word (Text.trimStart field) ++
      (Text.trimStart field).drop (Text.word (Text.trimStart field)).length = front ++ field := by
    simp only [List.append_assoc, Text.blanks_word_rest]
  have hargs := line.readArgs_append
    (front ++ field.takeWhile Text.isBlank ++ Text.word (Text.trimStart field))
    ((Text.trimStart field).drop (Text.word (Text.trimStart field)).length)
  rw [hparts] at hargs
  simp only [Text.byteLength_append, ← Nat.add_assoc] at hargs
  simp only [readBody, body?, Span.stop, hcode, Text.byteLength_append, hargs, ← Nat.add_assoc]
  cases Mnemonic.ofName? (String.ofList (Text.word (Text.trimStart field))) with
  | none => rfl
  | some mnemonic =>
    simp only []
    split
    · next e he => rw [he]; rfl
    · next args he => rw [he]; rfl

/-- **Reading by byte positions** gives what reading gives: no slice is out of range or cuts a
character. -/
theorem readStatement_eq (line : Line) : line.readStatement = lift line.statement? := by
  have hfirst := nextWord_append [] (code line.text)
  have hbody := line.readBody_append none (List.nil_append (code line.text)).symm
  have hparts := Text.blanks_word_rest (code line.text)
  simp only [List.nil_append, Text.byteLength_nil, Nat.add_zero] at hfirst hbody
  simp only [readStatement, slice_code, ok_bind, hfirst, statement?, Span.stop]
  -- what a label leaves of the line
  generalize (Text.trimStart (code line.text)).drop
    (Text.word (Text.trimStart (code line.text))).length = rest at hparts ⊢
  generalize Text.word (Text.trimStart (code line.text)) = word at hbody hparts ⊢
  generalize (code line.text).takeWhile Text.isBlank = blanks at hbody hparts ⊢
  by_cases hword : word = []
  · rw [if_pos hword, if_pos hword]; rfl
  rw [if_neg hword, if_neg hword]
  by_cases hmnemonic : (Mnemonic.ofName? (String.ofList word)).isSome = true
  · simp only [if_pos hmnemonic, hbody]
    exact (lift_map some _).symm
  simp only [if_neg hmnemonic]
  by_cases hlabel : isLabel word = false
  · simp only [if_pos hlabel]; rfl
  have hcode : code line.text = (blanks ++ word) ++ rest := by rw [List.append_assoc, hparts]
  have hnext := nextWord_append (blanks ++ word) rest
  simp only [if_neg hlabel, hcode, ← Text.byteLength_append, hnext, ok_bind]
  by_cases hblank : rest.all Text.isBlank = true
  · rw [if_pos (Text.word_trimStart_eq_nil_iff.2 hblank), if_pos hblank]; rfl
  · rw [if_neg (mt Text.word_trimStart_eq_nil_iff.1 hblank), if_neg hblank]
    simp only [line.readBody_append _ hcode]
    simp only [Text.byteLength_append, Nat.add_assoc]
    exact (lift_map some _).symm

end Line

end Comet
