import Comet.Proofs.Layout.Tiling
import Comet.Proofs.Machine.Execution
import Comet.Proofs.Program.Semantics

/-!
# Assembling preserves meaning

The machine that runs an image and the machine that executes the statements it was assembled from
go through the same states (`Machine.source`), as long as the program counter is at an instruction
and the code is as it was loaded (`Undisturbed`).

* `fetch_of_encode`: the machine reads an instruction back from its words in memory.
* `execute?_of_written`: an instruction does what its operands say.
* `step?_source`, `run?_source`: one step, and any number of them.
-/

namespace Comet

variable {σ : Type} {svc : Supervisor σ} {resolve : String → Option Word}

namespace Machine

/-- The instruction whose words stand at the program counter is the one fetched. -/
theorem fetch_of_encode {m : Machine σ} {i : Instr} (hi : i.Encodable)
    (hpc : m.pc.toNat + i.encode.length ≤ 0xFFFF)
    (hwords : ∀ k < i.encode.length, m.memory.read (m.pc + UInt16.ofNat k) = i.encode.getD k 0) :
    ∃ f, m.fetch = .ok f ∧ f.instr = i ∧ f.next = m.pc + UInt16.ofNat i.encode.length := by
  have hlen := i.length_encode
  have hone : 1 ≤ i.encode.length := by
    rw [hlen]
    unfold Opcode.words
    split <;> decide
  have hfirst : m.memory.read m.pc = i.encode.getD 0 0 := by simpa using hwords 0 hone
  have hlt : m.pc.toNat < noMemory.toNat := Nat.lt_of_lt_of_le (Nat.lt_add_of_pos_right hone) hpc
  have hne : m.pc ≠ noMemory := fun h => absurd (congrArg UInt16.toNat h) (Nat.ne_of_lt hlt)
  have hop : Opcode.ofCode? (i.encode.getD 0 0).high = some i.opcode := by
    have := i.ofCode?_head_encode
    cases he : i.encode with
    | nil => rw [he] at hone; cases hone
    | cons w ws => simpa [he] using this
  have hread := Instr.ofWords_encode i hi
  cases hword : i.opcode.hasAddressWord with
  | false =>
    have hlen : i.encode.length = 1 := by rw [hlen, Opcode.words, hword]; rfl
    have hsecond : i.encode.getD 1 0 = 0 := by simp [List.getD, hlen]
    refine ⟨⟨m.pc, i.encode.getD 0 0, none, i⟩, fetch_eq_ok.2 ⟨rfl, hne, hfirst.symm, hop, ?_, ?_⟩,
      rfl, by rw [hlen]; rfl⟩
    · simp [fetchOperand, hword]
    · rwa [hsecond] at hread
  | true =>
    have hlen : i.encode.length = 2 := by rw [hlen, Opcode.words, hword]; rfl
    have hsecond : m.read (m.pc + 1) = .ok (i.encode.getD 1 0) := by
      refine read_eq_ok.2 ⟨fun h => ?_, hwords 1 (by omega)⟩
      have := congrArg UInt16.toNat h
      simp [noMemory] at this
      omega
    refine ⟨⟨m.pc, i.encode.getD 0 0, some (i.encode.getD 1 0), i⟩,
      fetch_eq_ok.2 ⟨rfl, hne, hfirst.symm, hop, ?_, hread⟩, rfl, by rw [hlen]; rfl⟩
    simp only [fetchOperand, hword, hsecond]
    rfl

/-! ## One instruction -/

/-- What a program can observe of the machine, all but its counters. -/
def source (m : Machine σ) : SourceMachine σ :=
  ⟨m.registers, m.memory, m.sp, m.pc, m.flags, m.status, m.host⟩

@[simp] theorem source_memory (m : Machine σ) : m.source.memory = m.memory := rfl

@[simp] theorem source_pc (m : Machine σ) : m.source.pc = m.pc := rfl

/-- The observable state after an effect, or after the fault in its place. -/
def outcome (svc : Supervisor σ) (next : Word) (m : Machine σ) :
    Except Fault Effect → SourceMachine σ
  | .ok e => (m.perform svc next e).source
  | .error _ => m.source.fault

variable {m : Machine σ} {next : Word}

theorem outcome_read (address : Word) (e : Word → Effect) :
    outcome svc next m (do return e (← m.read address)) =
      m.source.load address fun value => (m.perform svc next (e value)).source := by
  unfold SourceMachine.load read
  by_cases h : address = 0xFFFF
  · rw [if_pos h, if_pos (show address = noMemory from h)]; rfl
  · rw [if_neg h, if_neg (show address ≠ noMemory from h)]; rfl

theorem outcome_guarded (address value : Word) (e : Effect)
    (k : SourceMachine σ → SourceMachine σ)
    (hk : (m.perform svc next e).source =
      k { m.source with memory := m.memory.write address value }) :
    outcome svc next m (guarded address e) = m.source.store address value k := by
  unfold SourceMachine.store guarded
  by_cases h : address = 0xFFFF
  · rw [if_pos h, if_pos (show address = noMemory from h)]; rfl
  · rw [if_neg h, if_neg (show address ≠ noMemory from h)]; exact hk

/-- An address operand stands for the address that the machine computes. -/
theorem place?_source {base : Operand} {index : List Operand} {w : Word} {x : Reg}
    (hw : base.value? resolve = some w) (hx : IndexField index x) :
    m.source.place? resolve (base :: index) = some (m.registers.effective ⟨w, x⟩) := by
  cases hx with
  | none => simp [SourceMachine.place?, hw, Registers.effective]
  | register hne => simp [SourceMachine.place?, hw, Registers.effective, hne, source]

/-- Only the low four bits of a shift count matter. -/
theorem shift_low_bits (op : Shift) (value count : Word) :
    op.apply value (count &&& 0xF) = op.apply value count := by
  have h : (count &&& 0xF) % 16 = count % 16 := by
    apply UInt16.toNat_inj.1
    rw [UInt16.toNat_mod, UInt16.toNat_and, UInt16.toNat_mod]
    exact (congrArg (· % 16) (Nat.and_two_pow_sub_one_eq_mod count.toNat 4)).trans (Nat.mod_mod _ _)
  simp only [Shift.apply, h]

/-- A memory operand is not mistaken for a register. -/
theorem execute?_memory {op : TwoFormOp} {r : Reg} {base : Operand} {index : List Operand}
    {w a : Word} (hw : base.value? resolve = some w)
    (ha : m.source.place? resolve (base :: index) = some a) :
    m.source.execute? svc resolve next (.twoForm op) (.register r :: base :: index) =
      some (match op with
        | .shift op => (m.source.operate r a (.shift op)).goto next
        | op => m.source.load a fun value => (m.source.operate r value op).goto next) := by
  cases base with
  | integer n => cases op <;> simp [SourceMachine.execute?, ha]
  | symbol name => cases op <;> simp [SourceMachine.execute?, ha]
  | register r => cases hw
  | chars text => cases hw

/-- **An instruction does what its operands say.** -/
theorem execute?_of_written {i : Instr} {os : List Operand} (h : i.Written resolve os) :
    m.source.execute? svc resolve next i.opcode os =
      some (outcome svc next m (m.effect next i)) := by
  cases h with
  | registers op r r₂ =>
    cases op with
    | shift op =>
      show some ((m.source.setResult r (op.apply (m.registers.read r)
        (m.registers.read r₂ &&& 0xF)) false).goto next) = _
      rw [shift_low_bits]; rfl
    | _ => rfl
  | @memory op r base index w x hw hx =>
    rw [Instr.opcode, execute?_memory hw (place?_source hw hx)]
    refine congrArg some ?_
    cases op with
    | load => exact (outcome_read _ fun value => .result r value false).symm
    | alu op =>
      exact (outcome_read _ fun value => .result r
        (op.apply (m.registers.read r) value).1 (op.apply (m.registers.read r) value).2).symm
    | compare order =>
      exact (outcome_read _ fun value => .compare (order.apply (m.registers.read r) value)).symm
    | shift op =>
      show (m.source.setResult r (op.apply (m.registers.read r)
        (m.registers.effective ⟨w, x⟩ &&& 0xF)) false).goto next = _
      rw [shift_low_bits]; rfl
  | @registerAddress op r base index w x hw hx =>
    rw [Instr.opcode]
    cases op with
    | store =>
      simp only [SourceMachine.execute?, place?_source hw hx]
      refine congrArg some (outcome_guarded _ _ _ _ rfl).symm
    | loadAddress =>
      simp only [SourceMachine.execute?, place?_source hw hx]
      rfl
  | @address op base index w x hw hx =>
    rw [Instr.opcode]
    cases op with
    | jump condition => simp only [SourceMachine.execute?, place?_source hw hx]; rfl
    | push =>
      simp only [SourceMachine.execute?, place?_source hw hx]
      exact congrArg some (outcome_guarded _ _ _ _ rfl).symm
    | call =>
      simp only [SourceMachine.execute?, place?_source hw hx]
      exact congrArg some (outcome_guarded _ _ _ _ rfl).symm
    | supervisor => simp only [SourceMachine.execute?, place?_source hw hx]; rfl
  | register op r =>
    cases op
    exact congrArg some (outcome_read m.sp fun value => .pop r value).symm
  | bare op =>
    cases op with
    | nop => rfl
    | ret =>
      refine congrArg some ?_
      by_cases hsp : m.sp = stackEmpty
      · simp [source, effect, outcome, perform, hsp]
      · rw [if_neg (show m.source.sp ≠ stackEmpty from hsp)]
        simp only [effect, if_neg hsp]
        exact (outcome_read m.sp fun target => .ret target).symm
    | halt => rfl

/-! ## One step -/

/-- The machine is at an instruction of the program, unless it has stopped, and the instructions in
memory are as they were loaded. -/
structure Undisturbed (l : Layout) (words : Array Word) (m : Machine σ) : Prop where
  onInstruction : m.Live →
    ∃ p ∈ l.placed, p.statement.isInstruction = true ∧ p.address = m.pc.toNat
  intact : ∀ p ∈ l.placed, p.statement.isInstruction = true → ∀ k < p.size,
    m.memory.read (UInt16.ofNat (p.address + k)) =
      (Memory.ofWords words).read (UInt16.ofNat (p.address + k))

variable {l : Layout} {words : Array Word}

theorem exists_instructionAt? (h : m.Undisturbed l words) (hlive : m.Live) :
    ∃ p ∈ l.placed, l.instructionAt? m.pc = some p ∧
      p.statement.isInstruction = true ∧ p.address = m.pc.toNat := by
  obtain ⟨q, hq, hinstr, haddr⟩ := h.onInstruction hlive
  have hsome : (l.instructionAt? m.pc).isSome := by
    rw [Layout.instructionAt?, Array.find?_isSome]
    exact ⟨q, hq, by simp [hinstr, haddr]⟩
  obtain ⟨p, hp⟩ := Option.isSome_iff_exists.1 hsome
  have hprop := Array.find?_some hp
  simp only [Bool.and_eq_true, beq_iff_eq] at hprop
  exact ⟨p, Array.mem_of_find?_eq_some hp, hp, hprop⟩

/-- What is fetched is the statement at the program counter. -/
theorem fetch_of_instructionAt? {p : Placed} {op : Opcode} (htiles : l.Tiles resolve words)
    (h : m.Undisturbed l words) (hp : p ∈ l.placed) (hop : p.statement.mnemonic = .machine op)
    (haddr : p.address = m.pc.toNat) :
    ∃ f, m.fetch = .ok f ∧ f.instr.opcode = op ∧ f.instr.Written resolve p.statement.operands ∧
      f.next = UInt16.ofNat (p.address + p.size) := by
  have hinstr : p.statement.isInstruction = true := by rw [Statement.isInstruction, hop]
  have hinside := htiles.inside p hp
  have hfits := htiles.fits
  have htotal := htiles.total
  have hdenotes := htiles.denotes p hp
  rw [Statement.Denotes, hop] at hdenotes
  obtain ⟨i, rfl, hi, hencode, hwritten⟩ := exists_instr_of_denotes hdenotes
  have hlen : i.encode.length = p.size := by
    rw [hencode, Array.length_toList, Array.size_extract]; omega
  obtain ⟨f, hf, rfl, hnext⟩ := fetch_of_encode (m := m) hi (by omega) fun k hk => by
    have hk : k < p.size := by omega
    have hbound : p.address + k < 2 ^ 16 := by omega
    have haddr' : m.pc + UInt16.ofNat k = UInt16.ofNat (p.address + k) := by
      rw [haddr, UInt16.ofNat_add, UInt16.ofNat_toNat]
    rw [haddr', h.intact p hp hinstr k hk, Memory.read_ofWords, hencode,
      UInt16.toNat_ofNat_of_lt' hbound]
    simp [List.getD, hk, Array.getD_eq_getD_getElem?]
  refine ⟨f, hf, rfl, hwritten, ?_⟩
  rw [hnext, hlen, haddr, UInt16.ofNat_add, UInt16.ofNat_toNat]

theorem advance_source {f : Fetched} (hlive : m.Live) (hf : m.fetch = .ok f) :
    (m.advance svc).source = outcome svc f.next m (m.effect f.next f.instr) := by
  cases he : m.effect f.next f.instr with
  | error fault =>
    have hu : m.upcoming = .error fault := by rw [upcoming, hf]; simp [bind, Except.bind, he]
    rw [advance, hlive.step_error hu]; rfl
  | ok e => rw [advance, hlive.step_ok (upcoming_eq_ok.2 ⟨hf, he⟩)]; rfl

theorem step?_source_of_live (htiles : l.Tiles (Layout.labelAddress? l.placed.toList) words)
    (hstop : m.stop.toNat = l.size) (h : m.Undisturbed l words) (hlive : m.Live) :
    m.source.step? svc l = some (m.advance svc).source := by
  have hinside : ¬l.size ≤ m.source.pc.toNat := by
    rw [← hstop]
    exact Nat.not_le.2 (UInt16.lt_iff_toNat_lt.1 hlive.inside)
  obtain ⟨p, hp, hat, hinstr, haddr⟩ := exists_instructionAt? h hlive
  cases hop : p.statement.mnemonic with
  | directive d => rw [Statement.isInstruction, hop] at hinstr; cases hinstr
  | machine op =>
    obtain ⟨f, hf, rfl, hwritten, hnext⟩ := fetch_of_instructionAt? htiles h hp hop haddr
    have hat : l.instructionAt? m.source.pc = some p := hat
    rw [SourceMachine.step?, if_neg (show ¬m.source.status ≠ .running from not_not.2 hlive.running),
      if_neg hinside, hat, advance_source hlive hf, ← execute?_of_written hwritten, hnext]
    simp only [Option.bind_eq_bind, Option.bind_some, hop]

/-- **One step**: the machine and the program as written do the same. -/
theorem step?_source (htiles : l.Tiles (Layout.labelAddress? l.placed.toList) words)
    (hstop : m.stop.toNat = l.size) (h : m.Undisturbed l words) :
    m.source.step? svc l = some (m.advance svc).source := by
  rcases step_cases svc m with ⟨hs, hstep⟩ | ⟨hs, hpc, hstep⟩ | ⟨hlive, -⟩ | ⟨hlive, -⟩
  · rw [SourceMachine.step?, if_pos (show m.source.status ≠ .running from hs), advance, hstep,
      finalState]
  · rw [SourceMachine.step?, if_neg (show ¬m.source.status ≠ .running from not_not.2 hs),
      if_pos (show l.size ≤ m.source.pc.toNat from hstop ▸ UInt16.le_iff_toNat_le.1 hpc), advance,
      hstep]
    rfl
  · exact step?_source_of_live htiles hstop h hlive
  · exact step?_source_of_live htiles hstop h hlive

/-! ## Runs -/

/-- **Any number of steps.** -/
theorem run?_source (htiles : l.Tiles (Layout.labelAddress? l.placed.toList) words)
    (hstop : m.stop.toNat = l.size) {n : Nat}
    (h : ∀ k < n, (m.after svc k).Undisturbed l words) :
    m.source.run? svc l n = some (m.after svc n).source := by
  induction n with
  | zero => rfl
  | succ n ih =>
    rw [SourceMachine.run?, ih fun k hk => h k (Nat.lt_succ_of_lt hk), after_succ]
    exact step?_source htiles (by rw [after_stop, hstop]) (h n (Nat.lt_succ_self n))

end Machine

namespace Assembly

variable {source : String} {a : Assembly}

/-- **Assembling preserves meaning.** As long as the program counter is at an instruction of the
program and no instruction has been overwritten, the loaded image goes through the same states as
the program as it is written, for as many steps as one likes. -/
theorem run?_eq_after (ha : Assembly.ofSource? source = .ok a) (svc : Supervisor σ)
    (registers : Registers) (host : σ) (n : Nat) :
    let start : Machine σ := { Machine.load a.image host with registers }
    let written := SourceMachine.start? a.layout (Memory.ofWords a.image.words) registers host
    (∀ k < n, (start.after svc k).Undisturbed a.layout a.image.words) →
      (written.bind fun m => m.run? svc a.layout n) = some (start.after svc n).source := by
  intro start written h
  have htiles := tiles_of_ofSource? ha
  have hfits := htiles.fits
  have htotal := htiles.total
  have hstop : start.stop.toNat = a.layout.size := by
    show (UInt16.ofNat a.image.words.size).toNat = _
    rw [htotal, UInt16.toNat_ofNat_of_lt' (show a.layout.size < 2 ^ 16 by omega)]
  have hwritten : written = some start.source := by
    show SourceMachine.start? a.layout (Memory.ofWords a.image.words) registers host = _
    rw [SourceMachine.start?, startAddress?_of_ofSource? ha]; rfl
  rw [hwritten]
  exact Machine.run?_source htiles hstop h

theorem run?_eq_after_lad_halt :
    let lad : Statement :=
      { label := none, mnemonic := .machine (.registerAddress .loadAddress), mnemonicSpan := ⟨1, 3⟩
        args := [⟨.register 1, "GR1", ⟨5, 3⟩, by decide⟩, ⟨.integer 5, "5", ⟨9, 1⟩, by decide⟩]
        line := 1
        source := "LAD GR1,5" }
    let halt : Statement :=
      { label := none, mnemonic := .machine (.bare .halt), mnemonicSpan := ⟨12, 4⟩, args := []
        line := 2, source := "HALT" }
    let a : Assembly :=
      ⟨⟨#[⟨0, 2, lad⟩, ⟨2, 1, halt⟩], .empty, 3⟩, ⟨#[0x1210, 5, 0xFF00], 0⟩⟩
    let registers : Registers := Vector.replicate 8 7
    let start : Machine Unit := { Machine.load a.image () with registers }
    let written := SourceMachine.start? a.layout (Memory.ofWords a.image.words) registers ()
    Assembly.ofSource? " LAD GR1,5\n HALT" = .ok a ∧
      (∀ k < 2, (start.after .idle k).Undisturbed a.layout a.image.words) ∧
      (written.bind fun m => m.run? .idle a.layout 2) = some (start.after .idle 2).source := by
  intro lad halt a registers start written
  have ha : Assembly.ofSource? " LAD GR1,5\n HALT" = .ok a := by
    have htext : " LAD GR1,5\n HALT".toList =
        [' ', 'L', 'A', 'D', ' ', 'G', 'R', '1', ',', '5', '\n', ' ', 'H', 'A', 'L', 'T'] := by simp
    rw [Assembly.ofSource?, htext]
    decide +kernel
  -- neither instruction writes to memory, so only the program counter differs
  have hundisturbed (m : Machine Unit) (hmem : m.memory = Memory.ofWords a.image.words)
      (hpc : m.pc = 0 ∨ m.pc = 2) : m.Undisturbed a.layout a.image.words := by
    refine ⟨fun _ => ?_, fun p _ _ k _ => by rw [hmem]⟩
    rcases hpc with hpc | hpc
    · exact ⟨⟨0, 2, lad⟩, by simp [a], rfl, by rw [hpc]; rfl⟩
    · exact ⟨⟨2, 1, halt⟩, by simp [a], rfl, by rw [hpc]; rfl⟩
  have hzero : start.Undisturbed a.layout a.image.words := hundisturbed _ rfl (.inl rfl)
  have hone : (start.after .idle 1).Undisturbed a.layout a.image.words := by
    rw [Machine.after_succ, Machine.after_zero]
    have hstep : start.source.step? .idle a.layout = some (start.advance .idle).source :=
      Machine.step?_source (tiles_of_ofSource? ha) rfl hzero
    have hlad : start.source.step? .idle a.layout =
        some { start.source with registers := start.registers.write 1 5, pc := 2 } := rfl
    have hsource := Option.some.inj (hlad.symm.trans hstep)
    refine hundisturbed _ ?_ (.inr ?_)
    · rw [← Machine.source_memory, ← hsource]; rfl
    · rw [← Machine.source_pc, ← hsource]
  have hboth : ∀ k < 2, (start.after .idle k).Undisturbed a.layout a.image.words := by
    intro k hk
    obtain rfl | rfl : k = 0 ∨ k = 1 := by omega
    · exact hzero
    · exact hone
  exact ⟨ha, hboth, run?_eq_after ha .idle registers () 2 hboth⟩

end Assembly

end Comet
