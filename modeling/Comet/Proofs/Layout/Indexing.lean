import Comet.Proofs.Layout.Stopping
import Comet.Proofs.Layout.Tiling
import Comet.Proofs.Source.OperandLanguages
import Comet.Proofs.Source.Slicing

/-!
# Assembling without checks

`Unchecked.assemble` is the assembler without foresight: it slices lines at byte positions, takes
operands and the START statement by number, puts numbers into fewer bits, and leaves out in pass 2
what pass 1 has looked at. Wherever there is nothing at a position, or a number does not fit, it
traps. It never does, because of what reading and pass 1 guarantee:

* `Line.readable_of_statement?`: a character constant that has been read holds only characters that
  fit a byte. That an integer is in range is part of every operand.
* `Statement.measure_eq`, `Layout.place_draft`, `readOnto_draft`: pass 1 gives the layout, and keeps
  the number of its START statement (`Layout.draft`).
* `Statement.emit_eq`, `Layout.emitOnto_eq`, `image_draft`: pass 2 gives the image of what pass 1
  has placed.
* `Unchecked.assemble_eq`: so assembling without checks is assembling.
* `Statement.ready`: what pass 2 relies on, put together.
-/

namespace Comet

open Unchecked

/-! ## Pass 1 -/

/-- A number as so many bits, in which it should keep its value. -/
def Unchecked.inBits (bits : Nat) (n : Int) : Unchecked Nat := do
  ensure .cast (0 ≤ n ∧ n < 2 ^ bits)
  return n.toNat

namespace Statement

/-- The operand of that number. -/
def argAt (s : Statement) (i : Nat) : Unchecked Arg := need .operand s.args[i]?

def checkCount (s : Statement) : Except AsmError Unit :=
  if s.mnemonic.arity.admits s.args.length then .ok ()
  else .error (s.malformed (.operandCount s.mnemonic s.args.length))

/-- The words of a statement that has the right number of operands. -/
def measure (s : Statement) : Unchecked Nat := do
  match s.mnemonic with
  | .directive .storage =>
    let arg ← s.argAt 0
    match arg.operand with
    | .integer n => if 0 ≤ n then inBits 16 n else report (s.unsupported arg .storageLength)
    | _ => report (s.unsupported arg .storageLength)
  | .directive .constant =>
    let words := (s.args.map Arg.constantSize).sum
    if words ≤ 0xFFFF then return words else report (s.malformed .tooManyConstants)
  | m => return m.leastWords

end Statement

/-- A layout that keeps the number of its START statement. -/
structure Layout.Draft where
  layout : Layout := {}
  start : Option Nat := none
  deriving DecidableEq, Repr

namespace Layout.Draft

/-- The number of the START statement behind one more statement. -/
def startBehind (d : Draft) (s : Statement) : Except AsmError (Option Nat) :=
  if s.isStart then
    if d.start.isSome then .error (s.malformed .startTwice) else .ok (some d.layout.placed.size)
  else .ok d.start

def place (d : Draft) (s : Statement) : Unchecked Draft := do
  lift s.checkCount
  let size ← s.measure
  let address ← inBits 16 d.layout.size
  let symbols ← lift (d.layout.bind? s)
  if Layout.limit < d.layout.size + size then report (s.malformed .programTooLarge)
  else
    let start ← lift (d.startBehind s)
    return { layout := { placed := d.layout.placed.push ⟨address, size, s⟩, symbols
                         size := d.layout.size + size }
             start }

/-- Places the statements of lines, until END, an error or the last line. -/
def readOnto (d : Draft) : List Line → Unchecked Draft
  | [] => return d
  | line :: lines => do
    match ← line.readStatement with
    | none => d.readOnto lines
    | some s =>
      let d ← d.place s
      if s.isFinish then return d else d.readOnto lines

end Layout.Draft

/-! ## Pass 2 -/

namespace Statement

/-- The words of one operand of a constant. -/
def emitConstant (s : Statement) (symbols : SymbolTable) (arg : Arg) : Unchecked (List Word) :=
  match arg.operand with
  | .chars text => text.toList.mapM fun c => do return UInt16.ofNat (← inBits 16 c.toNat)
  | _ => do return [← lift (s.address? symbols arg)]

/-- The words of a statement that pass 1 has placed. -/
def emit (s : Statement) (symbols : SymbolTable) : Unchecked (List Word) := do
  match s.mnemonic with
  | .machine (.twoForm op) =>
    let r ← lift (s.register? (← s.argAt 0))
    let source ← lift (s.secondOperand? symbols (← s.argAt 1) s.args[2]?)
    return (Instr.twoForm op r source).encode
  | .machine (.registerAddress op) =>
    let r ← lift (s.register? (← s.argAt 0))
    let base ← lift (s.address? symbols (← s.argAt 1))
    let x ← lift (s.index? s.args[2]?)
    return (Instr.registerAddress op r ⟨base, x⟩).encode
  | .machine (.address op) =>
    let base ← lift (s.address? symbols (← s.argAt 0))
    let x ← lift (s.index? s.args[1]?)
    return (Instr.address op ⟨base, x⟩).encode
  | .machine (.register op) =>
    let r ← lift (s.register? (← s.argAt 0))
    return (Instr.register op r).encode
  | .machine (.bare op) => return (Instr.bare op).encode
  | .directive .constant =>
    let words ← s.args.mapM (s.emitConstant symbols)
    return words.flatten
  | .directive .storage =>
    match (← s.argAt 0).operand with
    | .integer n => return List.replicate (← inBits 64 n) 0
    | _ => .error (.trap .skipped)
  | .directive .start | .directive .finish => return []

end Statement

/-- Emits the words of statements onto those already emitted. They should come to stand at the
addresses of the statements. -/
def Unchecked.emitOnto (symbols : SymbolTable) (words : Array Word) :
    List Placed → Unchecked (Array Word)
  | [] => return words
  | p :: rest => do
    ensure .assertion (words.size = p.address)
    let code ← p.statement.emit symbols
    ensure .assertion
      (p.address + p.size ≤ 0xFFFF ∧ words.size + code.length = p.address + p.size)
    emitOnto symbols (words ++ code) rest

/-- The address at which the program starts. -/
def Layout.Draft.entry (d : Layout.Draft) (symbols : SymbolTable) : Unchecked Word :=
  match d.start with
  | none => return 0
  | some i => do
    let p ← need .statement d.layout.placed[i]?
    match p.statement.args with
    | [] => return UInt16.ofNat p.address
    | arg :: _ => lift (p.statement.address? symbols arg)

def Layout.Draft.image (d : Layout.Draft) (symbols : SymbolTable) : Unchecked Image := do
  let words ← emitOnto symbols #[] d.layout.placed.toList
  let entry ← d.entry symbols
  ensure .assertion (words.size ≤ imageLimit)
  return ⟨words, entry⟩

/-- Assembles a source text, with unchecked operations wherever there is something to rely on. -/
def Unchecked.assemble (source : String) : Unchecked Assembly := do
  let d ← Layout.Draft.readOnto {} (Line.split source.toList)
  let image ← d.image d.layout.symbols
  return ⟨d.layout, image⟩

/-! ## What reading guarantees -/

/-- The operands of a statement could be read. -/
def Statement.Readable (s : Statement) : Prop := ∀ arg ∈ s.args, arg.operand.Writable

theorem Line.readable_of_statement? {line : Line} {s : Statement}
    (h : line.statement? = .ok (some s)) : s.Readable := by
  have hreads := line.reads_statement?
  rw [h] at hreads
  exact fun arg harg => Operand.writable_of_ofText? ((hreads s rfl).args arg harg).2

theorem Line.readable_of_mem_program {lines : List Line} {s : Statement}
    (h : s ∈ Line.program lines) : s.Readable := by
  obtain ⟨line, -, hline⟩ := Line.mem_of_mem_program h
  exact Line.readable_of_statement? hline

/-! ## Pass 1 never traps -/

theorem Unchecked.inBits_eq {bits : Nat} {n : Int} (hpos : 0 ≤ n) (hlt : n < 2 ^ bits) :
    inBits bits n = .ok n.toNat := by
  rw [inBits, ensure_of ⟨hpos, hlt⟩]
  rfl

namespace Statement

variable {s : Statement}

theorem size?_of_shaped (h : s.Shaped) :
    s.size? = if s.footprint ≤ 0xFFFF then .ok s.footprint
      else .error (s.malformed .tooManyConstants) := by
  obtain ⟨form, hform⟩ := s.exists_form?_iff.2 h
  rw [size?_of_form? hform, size_of_form? hform]

theorem measure_of_ne_storage (hm : s.mnemonic ≠ .directive .storage) :
    s.measure = lift (if s.footprint ≤ 0xFFFF then .ok s.footprint
      else .error (s.malformed .tooManyConstants)) := by
  have hleast (m : Mnemonic) : m.leastWords ≤ 0xFFFF := by
    have key : ∀ m ∈ Mnemonic.all, m.leastWords ≤ 0xFFFF := by decide
    exact key m (Mnemonic.mem_all m)
  obtain ⟨label, mnemonic, span, args, line, source⟩ := s
  match mnemonic with
  | .directive .storage => exact absurd rfl hm
  | .directive .constant =>
    rw [apply_ite lift]
    rfl
  | .directive .start | .directive .finish => rfl
  | .machine op =>
    rw [show footprint _ = (Mnemonic.machine op).leastWords from rfl, if_pos (hleast _)]
    rfl

/-- A storage length keeps its value in a word. -/
theorem measure_of_storage {arg : Arg} (hm : s.mnemonic = .directive .storage)
    (hargs : s.args = [arg]) : s.measure = lift s.size? := by
  have hmeasure : s.measure = lift (s.storageLength? arg) := by
    simp only [measure, hm, argAt, hargs, List.getElem?_cons_zero, need_some, ok_bind,
      storageLength?]
    cases hn : arg.operand with
    | integer n =>
      have hrange := arg.inRange n hn
      rw [apply_ite lift]
      exact if_ctx_congr Iff.rfl (fun hpos => inBits_eq hpos (by omega)) fun _ => rfl
    | _ => rfl
  rw [hmeasure, size?, form?_storage hm hargs]
  cases s.storageLength? arg <;> rfl

/-- **Measuring a statement** gives its size. -/
theorem measure_eq (s : Statement) : (do lift s.checkCount; s.measure) = lift s.size? := by
  by_cases hcount : s.mnemonic.arity.admits s.args.length = true
  · rw [checkCount, if_pos hcount, lift_ok, ok_bind]
    by_cases hm : s.mnemonic = .directive .storage
    · rw [hm] at hcount
      obtain ⟨arg, hargs⟩ := List.length_eq_one_iff.1 (beq_iff_eq.1 hcount)
      exact measure_of_storage hm hargs
    · have hshaped : s.Shaped := ⟨hcount, fun hstorage => absurd hstorage hm⟩
      rw [measure_of_ne_storage hm, size?_of_shaped hshaped]
  · rw [checkCount, if_neg hcount, size?, form?_of_count hcount]
    rfl

theorem emitConstant_eq {arg : Arg} (h : arg.operand.Writable) (symbols : SymbolTable) :
    s.emitConstant symbols arg = lift (s.constant? symbols arg) := by
  unfold emitConstant constant?
  cases ho : arg.operand with
  | chars text =>
    rw [ho] at h
    refine mapM_eq_ok.2 (List.forall₂_map_right_iff.2 (List.forall₂_same.2 fun c hc => ?_))
    have hnarrow : c.toNat ≤ 0xFFFF := h.2 c hc
    rw [inBits_eq (by omega) (by omega)]
    rfl
  | _ =>
    simp only [lift_bind]
    rfl

/-- **Emitting a statement** that pass 1 has placed gives its code. -/
theorem emit_eq (hs : s.Shaped) (h : s.Readable) (symbols : SymbolTable) :
    s.emit symbols = lift (s.code? symbols) := by
  obtain ⟨form, hform⟩ := s.exists_form?_iff.2 hs
  rw [code?, hform, ok_bind]
  obtain ⟨label, mnemonic, span, args, line, source⟩ := s
  cases form?_eq_ok.1 hform with
  | twoForm op r second index => cases index <;> simp [emit, argAt, words?]
  | registerAddress op r address index => cases index <;> simp [emit, argAt, words?]
  | address op address index => cases index <;> simp [emit, argAt, words?]
  | register op r => simp [emit, argAt, words?]
  | bare op => rfl
  | start entry => rfl
  | finish => rfl
  | storage length n hn hpos =>
    have hrange := length.inRange n hn
    have hfits : n < 2 ^ 64 := by omega
    simp [emit, argAt, hn, inBits_eq hpos hfits, words?]
  | constants arg args =>
    simp only [emit, words?, lift_bind, lift_mapM]
    rw [mapM_congr fun arg harg => emitConstant_eq (h arg harg) symbols]
    rfl

end Statement

namespace Layout

variable {l : Layout} {s : Statement}

/-- The draft of a layout. -/
def draft (l : Layout) : Draft := ⟨l, l.placed.findIdx? (·.statement.isStart)⟩

@[simp] theorem layout_draft (l : Layout) : l.draft.layout = l := rfl

/-- **The number that a draft keeps** is that of the START statement. -/
theorem start?_eq (l : Layout) : l.start? = l.draft.start.bind (l.placed[·]?) :=
  Array.find?_eq_bind_findIdx?_getElem?

theorem isSome_start_draft (l : Layout) : l.draft.start.isSome = l.start?.isSome := by
  rw [draft, Array.findIdx?_isSome, start?, Bool.eq_iff_iff, Array.find?_isSome, Array.any_eq_true']
  rfl

theorem startBehind_draft (l : Layout) (p : Placed) :
    l.draft.startBehind p.statement =
      if p.statement.mnemonic = .directive .start ∧ l.start?.isSome then
        .error (p.statement.malformed .startTwice)
      else .ok ((l.placed.push p).findIdx? (·.statement.isStart)) := by
  have hpush : (l.placed.push p).findIdx? (·.statement.isStart) =
      l.draft.start.or (if p.statement.isStart then some l.placed.size else none) :=
    Array.findIdx?_push
  rw [hpush, Draft.startBehind, ← isSome_start_draft]
  by_cases hm : p.statement.mnemonic = .directive .start
  · cases hstart : l.draft.start <;> simp [Statement.isStart, hm]
  · cases hstart : l.draft.start <;> simp [Statement.isStart, hm]

/-- **One step of pass 1**: placing a statement never traps, and keeps the number of START. -/
theorem place_draft (hl : l.size ≤ limit) (s : Statement) :
    l.draft.place s = draft <$> lift (l.place? s) := by
  have hsize : (0 : Int) ≤ l.size ∧ (l.size : Int) < 2 ^ 16 := by
    rw [limit] at hl
    omega
  -- both test the same rules in the same order
  rw [Draft.place, ← bind_assoc, Statement.measure_eq, place?, layout_draft]
  cases s.size? with
  | error e => rfl
  | ok size =>
  simp only [lift_ok, ok_bind, inBits_eq hsize.1 hsize.2, Int.toNat_natCast]
  cases l.bind? s with
  | error e => rfl
  | ok symbols =>
  have hstart := l.startBehind_draft ⟨l.size, size, s⟩
  simp only [lift_ok, ok_bind] at hstart ⊢
  by_cases hfits : limit < l.size + size
  · rw [if_pos hfits, if_pos hfits]
    rfl
  · rw [if_neg hfits, if_neg hfits, hstart]
    by_cases htwice : s.mnemonic = .directive .start ∧ l.start?.isSome
    · rw [if_pos htwice, if_pos htwice]; rfl
    · rw [if_neg htwice, if_neg htwice]; rfl

theorem size_le_of_place? {l' : Layout} (h : l.place? s = .ok l') : l'.size ≤ limit := by
  unfold place? at h
  split at h
  · cases h
  split at h
  · cases h
  split at h
  · cases h
  next hfits =>
  split at h
  · cases h
  · cases h
    exact Nat.le_of_not_lt hfits

/-- **Pass 1 never traps**: it gives the layout, and the number of START in it. -/
theorem readOnto_draft (hl : l.size ≤ limit) (lines : List Line) :
    l.draft.readOnto lines = draft <$> lift (l.readOnto (lines.map Line.statement?)).1 := by
  induction lines generalizing l with
  | nil => rfl
  | cons line lines ih =>
    rw [Draft.readOnto, line.readStatement_eq, List.map_cons]
    cases hread : line.statement? with
    | error e => rfl
    | ok s? =>
      cases s? with
      | none => exact ih hl
      | some s =>
        simp only [lift_ok, ok_bind, place_draft hl s, readOnto]
        cases hplace : l.place? s with
        | error e => rfl
        | ok l' =>
          by_cases hend : s.mnemonic = .directive .finish
          · simp [Statement.isFinish, hend]
          · simp [Statement.isFinish, hend, ih (size_le_of_place? hplace)]

theorem readOnto_empty_draft (lines : List Line) :
    Draft.readOnto {} lines = draft <$> lift (ofLines? lines) := by
  have hempty : ({} : Layout).draft = {} := by simp [draft]
  have hsize : ({} : Layout).size ≤ limit := Nat.zero_le _
  have hread := readOnto_draft hsize lines
  rwa [hempty] at hread

end Layout

/-! ## Pass 2 never traps -/

namespace Layout

variable {T : SymbolTable}

/-- **The loop invariant**: as many words have been emitted as the next address says. -/
theorem emitOnto_eq {words : Array Word} {a : Nat} {ss : List Statement} (ha : words.size = a)
    (hfits : a + footprints ss ≤ limit) (hss : ∀ s ∈ ss, s.Shaped ∧ s.Readable) :
    emitOnto T words (placedFrom a ss) = lift (codeOnto T words (placedFrom a ss)) := by
  induction ss generalizing words a with
  | nil => rfl
  | cons s ss ih =>
    obtain ⟨⟨hshaped, hreadable⟩, hss⟩ := List.forall_mem_cons.1 hss
    rw [footprints_cons] at hfits
    rw [placedFrom, emitOnto, codeOnto, ensure_of ha, Statement.emit_eq hshaped hreadable]
    cases hcode : s.code? T with
    | error e => rfl
    | ok code =>
      have hlen := Statement.length_of_denotes (Statement.code?_eq_ok.1 hcode)
      rw [limit] at hfits
      have hassert : a + s.footprint ≤ 0xFFFF ∧ words.size + code.length = a + s.footprint := by
        omega
      rw [lift_ok, ok_bind, ok_bind, ensure_of hassert, ok_bind]
      refine ih ?_ ?_ hss
      · have happend : words ++ code = words ++ code.toArray := Array.ext' (by simp)
        rw [happend, Array.size_append, ← hassert.2]
        rfl
      · rw [limit]; omega

theorem entry_draft (l : Layout) : l.draft.entry T = lift (l.entry? T) := by
  rw [Draft.entry, entry?, start?_eq]
  cases hstart : l.draft.start with
  | none => rfl
  | some i =>
    -- the number is that of a statement in the layout
    obtain ⟨hi, -⟩ := Array.findIdx?_eq_some_iff_getElem.1 hstart
    simp only [layout_draft, Option.bind_some, Array.getElem?_eq_getElem hi, need_some, ok_bind]
    cases l.placed[i].statement.args <;> rfl

/-- **Pass 2 never traps** on what pass 1 has placed. -/
theorem image_draft {ss : List Statement} (hfits : footprints ss ≤ limit)
    (hss : ∀ s ∈ ss, s.Shaped ∧ s.Readable) :
    (ofStatements ss).draft.image T = lift ((ofStatements ss).image? T) := by
  have hemit : emitOnto T #[] (placedFrom 0 ss) = lift (codeOnto T #[] (placedFrom 0 ss)) :=
    emitOnto_eq rfl (by rwa [Nat.zero_add]) hss
  have hplaced : (ofStatements ss).placed.toList = placedFrom 0 ss := rfl
  rw [Draft.image, image?, layout_draft, hplaced, hemit]
  cases hwords : codeOnto T #[] (placedFrom 0 ss) with
  | error e => rfl
  | ok words =>
    have hsize : words.size = footprints ss := by simpa using codeOnto_size hwords
    have hassert : words.size ≤ imageLimit := hsize ▸ hfits
    simp only [lift_ok, ok_bind, entry_draft, ensure_of hassert]
    cases entry? (ofStatements ss) T <;> rfl

end Layout

/-- **Assembling without checks** never traps: it gives what assembling gives. -/
theorem Unchecked.assemble_eq (source : String) :
    assemble source = lift (Assembly.ofSource? source) := by
  rw [assemble, Layout.readOnto_empty_draft, Assembly.ofSource?]
  cases hl : Layout.ofLines? (Line.split source.toList) with
  | error e => rfl
  | ok l =>
    obtain ⟨-, hadmits, rfl⟩ := Layout.ofLines?_eq_ok.1 hl
    have hready : ∀ s ∈ Line.program (Line.split source.toList), s.Shaped ∧ s.Readable :=
      fun s hs => ⟨hadmits.shaped s hs, Line.readable_of_mem_program hs⟩
    have hfits : footprints (Line.program (Line.split source.toList)) ≤ Layout.limit := by
      simpa using hadmits.fits
    rw [lift_ok, Except.map_ok, ok_bind, ok_bind, Layout.image_draft hfits hready, lift_bind]
    rfl

/-! ## What pass 2 relies on -/

/-- The number of operands that are taken from a statement without looking for them. -/
def Mnemonic.indexed : Mnemonic → Nat
  | machine (.twoForm _) | machine (.registerAddress _) => 2
  | machine (.address _) | machine (.register _) | directive .storage => 1
  | machine (.bare _) | directive .start | directive .finish | directive .constant => 0

/-- What is relied on about a statement once it has been placed. -/
structure Statement.Ready (s : Statement) : Prop where
  operands : s.mnemonic.indexed ≤ s.args.length
  /-- A storage length keeps its value in a word. -/
  storage : s.mnemonic = .directive .storage → ∃ (arg : Arg) (n : Int), s.args = [arg] ∧
    arg.operand = .integer n ∧ 0 ≤ n ∧ n ≤ 65535
  /-- Characters keep their code points in a word. -/
  constant : s.mnemonic = .directive .constant → ∀ arg ∈ s.args, ∀ text : String,
    arg.operand = .chars text → ∀ c ∈ text.toList, (UInt16.ofNat c.toNat).toNat = c.toNat

theorem Mnemonic.indexed_le_of_admits {m : Mnemonic} {n : Nat} (h : m.arity.admits n = true) :
    m.indexed ≤ n := by
  rcases m with d | op
  · cases d <;> simp_all [arity, Arity.admits, indexed]
  · cases op <;> simp_all [arity, Arity.admits, indexed]

theorem Statement.ready {s : Statement} (hs : s.Shaped) (h : s.Readable) : s.Ready where
  operands := Mnemonic.indexed_le_of_admits hs.count
  storage hm := by
    have hcount := hs.count
    rw [hm] at hcount
    obtain ⟨arg, hargs⟩ := List.length_eq_one_iff.1 (beq_iff_eq.1 hcount)
    have hmem : arg ∈ s.args := by simp [hargs]
    obtain ⟨n, hpos, hn⟩ := hs.length hm arg hmem
    exact ⟨arg, n, hargs, hn, hpos, (arg.inRange n hn).2⟩
  constant _ arg harg text htext c hc := by
    have hwritable := h arg harg
    rw [htext] at hwritable
    have hnarrow : c.toNat ≤ 0xFFFF := hwritable.2 c hc
    rw [UInt16.toNat_ofNat', Nat.mod_eq_of_lt (by omega)]

theorem Layout.start_draft {ss : List Statement} (h : ss.countP Statement.isStart ≤ 1) (i : Nat) :
    (ofStatements ss).draft.start = some i ↔
      ∃ p, (ofStatements ss).placed[i]? = some p ∧ p.statement.mnemonic = .directive .start := by
  rw [← map_statement_placedFrom 0 ss, List.countP_map] at h
  have hstart : (ofStatements ss).draft.start =
      (placedFrom 0 ss).findIdx? (Statement.isStart ∘ (·.statement)) :=
    List.findIdx?_toArray _ _
  rw [hstart, findIdx?_eq_some_iff_of_countP_le_one h]
  simp [ofStatements, Statement.isStart]

/-- **Assembling never traps and passes over no statement.** Without checks it gives what assembling
gives, reading any line included. Pass 1 places every statement up to END, the number that it keeps
is that of the START statement, and all that pass 2 relies on holds of what has been placed. -/
theorem Assembly.unchecked_never_traps (source : String) :
    (∀ t, assemble source ≠ .error (.trap t)) ∧
    assemble source = lift (Assembly.ofSource? source) ∧
    (∀ line : Line, line.readStatement = lift line.statement?) ∧
    (∀ (text : String) start stop, Text.slice start stop text.toList = .error (.trap .slice) ↔
      ¬(start ≤ stop ∧ String.Pos.Raw.IsValid text ⟨start⟩ ∧ String.Pos.Raw.IsValid text ⟨stop⟩)) ∧
    ∀ d, Layout.Draft.readOnto {} (Line.split source.toList) = .ok d →
      Layout.ofLines? (Line.split source.toList) = .ok d.layout ∧
      d.layout.placed.toList.map (·.statement) = Line.program (Line.split source.toList) ∧
      (∀ i, d.start = some i ↔
        ∃ p, d.layout.placed[i]? = some p ∧ p.statement.mnemonic = .directive .start) ∧
      ∀ p ∈ d.layout.placed, p.statement.Ready := by
  refine ⟨fun t => ?_, assemble_eq source, Line.readStatement_eq,
    Text.slice_eq_trap_iff, fun d hd => ?_⟩
  · rw [assemble_eq]
    exact lift_ne_trap _ t
  · rw [Layout.readOnto_empty_draft, map_eq_ok] at hd
    obtain ⟨l, hl, rfl⟩ := hd
    rw [lift_eq_ok] at hl
    rw [Layout.layout_draft]
    obtain ⟨-, hadmits, heq⟩ := Layout.ofLines?_eq_ok.1 hl
    have hstatements : l.placed.toList.map (·.statement) =
        Line.program (Line.split source.toList) := by
      rw [heq]
      exact Layout.map_statement_placedFrom 0 _
    refine ⟨hl, hstatements, fun i => ?_, fun p hp => ?_⟩
    · have hstarts := hadmits.starts
      rw [heq]
      exact Layout.start_draft (by omega) i
    · have hmem : p.statement ∈ Line.program (Line.split source.toList) :=
        hstatements ▸ List.mem_map_of_mem (Array.mem_toList_iff.2 hp)
      exact Statement.ready (hadmits.shaped _ hmem) (Line.readable_of_mem_program hmem)

/-- The blank before the constant and the character in it take three bytes each. -/
theorem Assembly.unchecked_never_traps_multibyte :
    ∃ d, Layout.Draft.readOnto {} (Line.split " START A\nA DC\u3000'\u3042'".toList) = .ok d ∧
      d.start = some 0 ∧ d.layout.size = 1 ∧ ∀ p ∈ d.layout.placed, p.statement.Ready := by
  let start : Statement :=
    { label := none, mnemonic := .directive .start, mnemonicSpan := ⟨1, 5⟩
      args := [⟨.symbol "A", "A", ⟨7, 1⟩, by decide⟩], line := 1, source := "START A" }
  let constant : Statement :=
    { label := some ⟨"A", ⟨9, 1⟩⟩, mnemonic := .directive .constant, mnemonicSpan := ⟨11, 2⟩
      args := [⟨.chars "\u3042", "'\u3042'", ⟨16, 5⟩, by decide⟩], line := 2
      source := "A DC\u3000'\u3042'" }
  let d : Layout.Draft :=
    ⟨⟨#[⟨0, 0, start⟩, ⟨0, 1, constant⟩], ⟨[("A", 0)]⟩, 1⟩, some 0⟩
  have htext : " START A\nA DC\u3000'\u3042'".toList =
      [' ', 'S', 'T', 'A', 'R', 'T', ' ', 'A', '\n', 'A', ' ', 'D', 'C', '\u3000', '\'', '\u3042',
        '\''] := by simp
  have hd : Layout.Draft.readOnto {} (Line.split " START A\nA DC\u3000'\u3042'".toList) =
      .ok d := by
    rw [htext]
    decide +kernel
  exact ⟨d, hd, rfl, rfl, ((Assembly.unchecked_never_traps _).2.2.2.2 d hd).2.2.2⟩

end Comet
