import Comet.Proofs.Image.ObjectFile
import Comet.Proofs.Machine.InPlace
import Comet.Proofs.Machine.Reachable
import Comet.Proofs.Machine.Stack

/-!
# The address space

The last address of the machine holds no memory: its cell is there, but no instruction, no
supervisor and no host gets at it. An image ends before that cell, so the program counter has room
to move past every word it reads.

* `Image.Obtainable.size_le`: however an image has been made, it ends before the last cell.
* `read_noMemory_perform`: no effect writes to the last cell.
* `InAddressSpace`, `inAddressSpace_of_reachable`: the invariant, kept by what an instruction and
  the host do.
* `reachable_respectsAddressSpace`: what this means for fetching, for the program counter and for
  faults (`RespectsAddressSpace`).
-/

namespace Comet

/-- The images that there are: assembled, made of words, or read from an object file. -/
inductive Image.Obtainable : Image → Prop
  | assembled {source : String} {a : Assembly} :
      Assembly.ofSource? source = .ok a → Obtainable a.image
  | words {words : Array Word} {entry : Word} {image : Image} :
      ofWords? words entry = .ok image → Obtainable image
  | bytes {bytes : List UInt8} {image : Image} :
      ofBytes? bytes = .ok image → Obtainable image

theorem Image.Obtainable.size_le {image : Image} (h : image.Obtainable) : image.size ≤ 0xFFFF := by
  cases h with
  | assembled ha =>
    have htiles := Assembly.tiles_of_ofSource? ha
    exact htiles.total.trans_le htiles.fits
  | words hw =>
    obtain ⟨rfl, hfits⟩ := ofWords?_eq_ok hw
    exact hfits
  | bytes hb => exact (ofBytes?_eq_ok.1 hb).2

theorem Memory.read_push_back (cells : Vector Word 0xFFFF) (last : Word) :
    Memory.read (cells.push last) noMemory = last :=
  Vector.getElem_push_eq

namespace Machine

variable {σ : Type} {svc : Supervisor σ} {m : Machine σ} {image : Image}

/-! ## The last cell -/

/-- An effect is only settled for cells that there are. -/
theorem ne_noMemory_of_effect {next : Word} {i : Instr} {e : Effect}
    (h : m.effect next i = .ok e) :
    match e with
    | .store address _ | .push address _ => address ≠ noMemory
    | .call .. => m.sp - 1 ≠ noMemory
    | _ => True := by
  rcases i with ⟨op, r, source⟩ | ⟨op, r, a⟩ | ⟨op, a⟩ | ⟨op, r⟩ | ⟨op⟩
  · cases op <;> simp only [effect, bind_eq_ok, pure_eq_ok] at h
    · obtain ⟨_, -, rfl⟩ := h; trivial
    · obtain ⟨_, -, rfl⟩ := h; trivial
    · obtain ⟨_, -, rfl⟩ := h; trivial
    · cases h; trivial
  · cases op <;> simp only [effect, guarded] at h
    · split at h <;> cases h
      assumption
    · cases h; trivial
  · cases op <;> simp only [effect, guarded] at h
    · cases h; trivial
    · split at h <;> cases h
      assumption
    · split at h <;> cases h
      assumption
    · cases h; trivial
  · cases op
    simp only [effect, bind_eq_ok, pure_eq_ok] at h
    obtain ⟨_, -, rfl⟩ := h; trivial
  · cases op <;> simp only [effect] at h
    · cases h; trivial
    · split at h
      · cases h; trivial
      · simp only [bind_eq_ok, pure_eq_ok] at h
        obtain ⟨_, -, rfl⟩ := h; trivial
    · cases h; trivial

/-- A supervisor is not handed the last cell. -/
theorem read_noMemory_callSupervisor (svc : Supervisor σ) (code : Word) (m : Machine σ) :
    (m.callSupervisor svc code).memory.read noMemory = m.memory.read noMemory :=
  Memory.read_push_back _ _

theorem read_noMemory_perform (svc : Supervisor σ) {next : Word} {i : Instr} {e : Effect}
    (h : m.effect next i = .ok e) :
    (m.perform svc next e).memory.read noMemory = m.memory.read noMemory := by
  have hne := ne_noMemory_of_effect h
  cases e with
  | store address value => exact (Memory.read_write ..).trans (if_neg hne)
  | push address value => exact (Memory.read_write ..).trans (if_neg hne)
  | call target back => exact (Memory.read_write ..).trans (if_neg hne)
  | supervisor code => exact read_noMemory_callSupervisor svc code m
  | _ => rfl

/-! ## The invariant -/

/-- The last cell is as it was loaded, the machine stops where the image ends, and what it has
recorded was executed before that. -/
structure InAddressSpace (image : Image) (m : Machine σ) : Prop where
  last : m.memory.read noMemory = 0
  stop : m.stop.toNat = image.size
  recorded : ∀ e ∈ m.entries, e.address.toNat < image.size

theorem InAddressSpace.load (hsize : image.size ≤ 0xFFFF) (host : σ) :
    InAddressSpace image (Machine.load image host) where
  last := by
    have hlast : image.words[0xFFFF]? = none := Array.getElem?_eq_none hsize
    show (Memory.ofWords image.words).read noMemory = 0
    rw [Memory.read_ofWords, Array.getD_eq_getD_getElem?]
    exact congrArg (Option.getD · 0) hlast
  stop := UInt16.toNat_ofNat_of_lt' (show image.size < 65536 by omega)
  recorded _ he := by simp [entries, Machine.load] at he

theorem InAddressSpace.inside (h : InAddressSpace image m) (hlive : m.Live) :
    m.pc.toNat < image.size :=
  h.stop ▸ UInt16.lt_iff_toNat_lt.1 hlive.inside

theorem InAddressSpace.commit (svc : Supervisor σ) {f : Fetched} {e : Effect}
    (h : InAddressSpace image m) (hlive : m.Live) (hu : m.upcoming = .ok (f, e)) :
    InAddressSpace image (m.commit svc f e) := by
  obtain ⟨hf, he⟩ := upcoming_eq_ok.1 hu
  refine ⟨(read_noMemory_perform svc he).trans h.last, (commit_stop f e m).symm ▸ h.stop,
    fun entry hentry => ?_⟩
  have hrecorded := h.recorded
  cases htrace : m.trace with
  | none => simp [entries, Machine.commit, htrace] at hentry
  | some es =>
    simp only [entries, htrace, Option.getD_some] at hrecorded
    simp only [entries, Machine.commit, perform_trace, htrace, Option.map_some, Option.getD_some,
      Array.mem_push] at hentry
    rcases hentry with hentry | rfl
    · exact hrecorded entry hentry
    · show f.address.toNat < image.size
      rw [(fetch_eq_ok.1 hf).1]
      exact h.inside hlive

/-- **The address space is as it should be** in every reachable machine. -/
theorem inAddressSpace_of_reachable (himage : image.Obtainable) (h : Reachable image svc m) :
    InAddressSpace image m := by
  refine h.invariant (P := InAddressSpace image) (fun host => .load himage.size_le host)
    (fun svc _ _ _ h hlive hu => h.commit svc hlive hu) ?_ ?_ ?_ ?_ ?_
  · exact fun status h => ⟨h.last, h.stop, h.recorded⟩
  · exact fun r value h => ⟨h.last, h.stop, h.recorded⟩
  · exact fun entry h => ⟨h.last, h.stop, h.recorded⟩
  · exact fun h => ⟨h.last, h.stop, fun e he => by simp [entries, withTrace] at he⟩
  · exact fun host h => ⟨h.last, h.stop, h.recorded⟩

/-! ## The program counter -/

/-- The program counter of a machine that executes instructions is not at the last cell. -/
theorem InAddressSpace.pc_ne_noMemory (hsize : image.size ≤ 0xFFFF) (h : InAddressSpace image m)
    (hlive : m.Live) : m.pc ≠ noMemory := fun hpc => by
  have hinside := h.inside hlive
  rw [hpc, show noMemory.toNat = 0xFFFF from rfl] at hinside
  omega

/-- Behind an address word that can be read, the program counter has not wrapped. -/
theorem toNat_pc_of_nextOperand_run (hpc : m.pc ≠ noMemory) {op : Opcode} {operand : Option Word}
    {m' : Machine σ}
    (h : (InPlace.nextOperand op).run { m with pc := m.pc + 1 } = .ok operand m') :
    m'.pc.toNat = m.pc.toNat + 1 + operand.isSome.toNat := by
  have hone := toNat_add_one hpc
  rw [nextOperand_run] at h
  cases ho : m.fetchOperand op with
  | error fault => rw [ho] at h; cases h
  | ok o =>
    rw [ho] at h
    cases h
    cases operand with
    | none => exact hone
    | some w =>
      -- the address word has been read, so it is not at the last cell
      unfold fetchOperand at ho
      split at ho
      · cases hr : m.read (m.pc + 1) with
        | error fault => rw [hr] at ho; cases ho
        | ok w' =>
          have htwo := toNat_add_one (read_eq_ok.1 hr).1
          rw [UInt16.add_assoc, hone] at htwo
          exact htwo
      · cases ho

/-! ## Faults -/

/-- The address of every access out of bounds is the one without memory. -/
theorem eq_noMemory_of_outOfBounds {stopped : Stopped σ} {address : Word}
    (h : m.step svc = .error stopped ∨ ∃ limit, m.run svc limit = .error stopped)
    (hfault : stopped.fault = .outOfBounds address) : address = noMemory := by
  have hstep : ∀ m : Machine σ, m.step svc = .error stopped → address = noMemory := by
    intro m h
    obtain ⟨-, fault, hu, rfl⟩ := step_eq_error.1 h
    obtain rfl : fault = .outOfBounds address := hfault
    exact concerns_of_upcoming hu
  rcases h with h | ⟨limit, h⟩
  · exact hstep m h
  · obtain ⟨k, m', -, -, he⟩ := run_ends svc limit m
    rw [h] at he
    cases he with
    | limited hlive hleft => cases hfault
    | faulted hlive hleft h => exact hstep m' h

/-! ## All of it -/

/-- What the address space of a machine means for its host, for the instruction at hand and for
faults. -/
structure RespectsAddressSpace (image : Image) (svc : Supervisor σ) (m : Machine σ) : Prop where
  cells : m.memory.toArray.size = 65536
  last : m.memory.read 0xFFFF = 0
  /-- No bit of the image's size is lost in the address at which the machine stops. -/
  stop : m.stop.toNat = image.size
  recorded : ∀ e ∈ m.entries, e.address.toNat < image.size
  /-- The instruction that is executed next starts inside the image. -/
  starts : ∀ x, m.moment? = some x → x.fetched.address.toNat < image.size
  /-- The first word of an instruction can be read, and the program counter moves past it. -/
  firstWord : m.Live →
    InPlace.nextWord.run m = .ok (m.memory.read m.pc) { m with pc := m.pc + 1 } ∧
      (m.pc + 1).toNat = m.pc.toNat + 1
  /-- If its address word can be read, the program counter moves past that too. -/
  secondWord : m.Live → ∀ op operand m',
    (InPlace.nextOperand op).run { m with pc := m.pc + 1 } = .ok operand m' →
      m'.pc.toNat = m.pc.toNat + 1 + operand.isSome.toNat
  outOfBounds : ∀ stopped address,
    (m.step svc = .error stopped ∨ ∃ limit, m.run svc limit = .error stopped) →
      stopped.fault = .outOfBounds address → address = 0xFFFF

/-- **The address space holds in every reachable state**, of whatever image, under whatever
supervisors: the last cell stays zero and out of reach, every instruction starts inside the image,
no fetch of a first word faults, the program counter does not wrap over the words of an instruction,
and what is out of bounds is the last cell alone. -/
theorem reachable_respectsAddressSpace (himage : image.Obtainable) (h : Reachable image svc m) :
    RespectsAddressSpace image svc m := by
  have hspace := inAddressSpace_of_reachable himage h
  have hpc : m.Live → m.pc ≠ noMemory := hspace.pc_ne_noMemory himage.size_le
  refine ⟨m.memory.size_toArray, hspace.last, hspace.stop, hspace.recorded, fun x hx => ?_,
    fun hlive => ⟨?_, toNat_add_one (hpc hlive)⟩, fun hlive op operand m' =>
    toNat_pc_of_nextOperand_run (hpc hlive), fun stopped address => eq_noMemory_of_outOfBounds⟩
  · obtain ⟨hlive, -, hu⟩ := moment?_eq_some.1 hx
    rw [(fetch_eq_ok.1 (upcoming_eq_ok.1 hu).1).1]
    exact hspace.inside hlive
  · have hread : m.read m.pc = .ok (m.memory.read m.pc) := read_eq_ok.2 ⟨hpc hlive, rfl⟩
    rw [nextWord_run, hread]

/-- The largest image, entered at its last word: that is the first word of an instruction whose
address word would be in the last cell. -/
theorem reachable_respectsAddressSpace_straddling :
    let image : Image := ⟨Array.replicate 0xFFFF 0x1010, 0xFFFE⟩
    let m : Machine Unit := load image ()
    image.Obtainable ∧ Reachable image .idle m ∧ m.Live ∧
      RespectsAddressSpace image .idle m ∧ m.stop.toNat = 65535 ∧
      m.step .idle = .error ⟨.outOfBounds 0xFFFF, { m with status := .faulted }⟩ := by
  intro image m
  have hsize : image.size = 0xFFFF := Array.size_replicate
  have hfits : Image.ofWords? image.words image.entry = .ok image :=
    if_neg (Nat.not_lt.2 hsize.le)
  have himage : image.Obtainable := .words hfits
  have hlive : m.Live := by
    refine ⟨rfl, ?_⟩
    show (0xFFFE : Word) < UInt16.ofNat image.size
    rw [hsize]
    decide
  have hreach : Reachable image .idle m := .load ()
  have hspace := reachable_respectsAddressSpace himage hreach
  refine ⟨himage, hreach, hlive, hspace, hspace.stop.trans hsize, ?_⟩
  have hword : m.memory.read m.pc = 0x1010 := by
    show (Memory.ofWords image.words).read 0xFFFE = _
    rw [Memory.read_ofWords]
    simp [image]
  refine hlive.step_error ?_
  have hread : m.read m.pc = .ok 0x1010 := read_eq_ok.2 ⟨by decide, hword⟩
  have hoperand : m.fetchOperand (.twoForm .load) = .error (.outOfBounds 0xFFFF) := rfl
  have hop : Opcode.ofCode? (Word.high 0x1010) = some (.twoForm .load) := rfl
  simp [upcoming, fetch, hread, hop, hoperand]

end Machine

end Comet
