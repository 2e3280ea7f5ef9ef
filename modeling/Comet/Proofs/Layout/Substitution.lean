import Comet.Proofs.Layout.Acceptance

/-!
# Resolving labels is substitution

Pass 2 asks a symbol table for nothing but the words of the labels that operands name. Putting these
words in beforehand, as integers, comes to the same, errors included.

* `Layout.substitute`: the layout with the words of labels in the place of their names, which it
  keeps as the texts of the operands.
* `Statement.address?_substitute` and the like: each role that an operand can have.
  `Statement.code?_substitute`: and so the code of a statement.
* `image?_substitute`: pass 2 of the substituted layout, with no table at all.
* `exists_of_names`: if there is an image, every label that is named stands for a word.
* `resolution_is_substitution`: both together, for every layout of pass 1.
-/

namespace Comet

/-! ## Substitution -/

/-- The operand with the word of its label in its place, if the label stands for one. -/
def Operand.substitute (T : SymbolTable) : Operand → Operand
  | .symbol name =>
    match T.get? name with
    | some word => .integer word.toNat
    | none => .symbol name
  | operand => operand

theorem Operand.InRange.substitute {o : Operand} (h : o.InRange) (T : SymbolTable) :
    (o.substitute T).InRange := by
  unfold Operand.substitute
  split
  · split
    · next word _ =>
      have hlt := word.toNat_lt
      exact inRange_integer.2 (by omega)
    · exact inRange_symbol _
  · exact h

/-- The operand, written as before. -/
def Arg.substitute (T : SymbolTable) (arg : Arg) : Arg :=
  { arg with
    operand := arg.operand.substitute T
    inRange := arg.inRange.substitute T }

def Statement.substitute (T : SymbolTable) (s : Statement) : Statement :=
  { s with args := s.args.map (Arg.substitute T) }

def Form.substitute (T : SymbolTable) : Form → Form
  | .twoForm op r second index =>
    .twoForm op (r.substitute T) (second.substitute T) (index.map (Arg.substitute T))
  | .registerAddress op r base index =>
    .registerAddress op (r.substitute T) (base.substitute T) (index.map (Arg.substitute T))
  | .address op base index => .address op (base.substitute T) (index.map (Arg.substitute T))
  | .register op r => .register op (r.substitute T)
  | .bare op => .bare op
  | .start entry => .start (entry.map (Arg.substitute T))
  | .finish => .finish
  | .storage length => .storage length
  | .constants args => .constants (args.map (Arg.substitute T))

def Placed.substitute (T : SymbolTable) (p : Placed) : Placed :=
  { p with statement := p.statement.substitute T }

def Layout.substitute (T : SymbolTable) (l : Layout) : Layout :=
  { l with placed := l.placed.map (Placed.substitute T) }

/-- Some operand of the statement is this label. -/
def Statement.Names (s : Statement) (name : String) : Prop := .symbol name ∈ s.operands

/-- Some operand in the layout is this label. -/
def Layout.Names (l : Layout) (name : String) : Prop := ∃ p ∈ l.placed, p.statement.Names name

variable {T T' : SymbolTable} {s : Statement}

/-! ## Operands -/

theorem Word.ofInt_toNat (w : Word) : UInt16.ofInt w.toNat = w := by
  have hlt : (w.toNat : Int) < 2 ^ 16 := by exact_mod_cast w.toNat_lt
  rw [UInt16.ofInt, Int.emod_eq_of_lt (Int.natCast_nonneg _) hlt, Int.toNat_natCast,
    UInt16.ofNat_toNat]

namespace Operand

variable {o : Operand} {name : String}

theorem substitute_of_bound {w : Word} (h : T.get? name = some w) :
    (symbol name).substitute T = .integer w.toNat := by
  rw [substitute, h]

theorem substitute_of_unbound (h : T.get? name = none) :
    (symbol name).substitute T = .symbol name := by
  rw [substitute, h]

theorem substitute_eq_register {r : Reg} : o.substitute T = .register r ↔ o = .register r := by
  cases o with
  | symbol name => cases h : T.get? name <;> simp [substitute, h]
  | _ => rfl

theorem substitute_eq_chars {text : String} : o.substitute T = .chars text ↔ o = .chars text := by
  cases o with
  | symbol name => cases h : T.get? name <;> simp [substitute, h]
  | _ => rfl

/-- Only a label without a word is left. -/
theorem substitute_eq_symbol :
    o.substitute T = .symbol name ↔ o = .symbol name ∧ T.get? name = none := by
  cases o with
  | symbol label =>
    cases h : T.get? label with
    | some w =>
      rw [substitute_of_bound h]
      refine iff_of_false nofun ?_
      rintro ⟨⟨⟩, hnone⟩
      cases hnone.symm.trans h
    | none =>
      rw [substitute_of_unbound h]
      refine ⟨?_, And.left⟩
      rintro ⟨⟩
      exact ⟨rfl, h⟩
  | _ => simp [substitute]

/-- Tables that agree on the label of an operand put the same in its place. -/
theorem substitute_congr (h : ∀ name, o = .symbol name → T'.get? name = T.get? name) :
    o.substitute T' = o.substitute T := by
  cases o with
  | symbol name => rw [substitute, substitute, h name rfl]
  | _ => rfl

end Operand

namespace Statement

theorem address?_substitute (s : Statement) (T : SymbolTable) (arg : Arg) :
    (s.substitute T).address? .empty (arg.substitute T) = s.address? T arg := by
  obtain ⟨operand, text, span⟩ := arg
  cases operand with
  | symbol name =>
    cases h : T.get? name with
    | some w =>
      simp only [address?, Arg.substitute, Operand.substitute_of_bound h, h, Word.ofInt_toNat]
    | none =>
      simp only [address?, Arg.substitute, Operand.substitute_of_unbound h, h,
        SymbolTable.get?_empty]
      rfl
  | _ => rfl

theorem register?_substitute (s : Statement) (T : SymbolTable) (arg : Arg) :
    (s.substitute T).register? (arg.substitute T) = s.register? arg := by
  obtain ⟨operand, text, span⟩ := arg
  cases operand with
  | symbol name =>
    cases h : T.get? name with
    | some w => simp only [register?, Arg.substitute, Operand.substitute_of_bound h]; rfl
    | none => simp only [register?, Arg.substitute, Operand.substitute_of_unbound h]; rfl
  | _ => rfl

theorem index?_substitute (s : Statement) (T : SymbolTable) (index : Option Arg) :
    (s.substitute T).index? (index.map (Arg.substitute T)) = s.index? index := by
  cases index with
  | none => rfl
  | some arg => rw [Option.map_some, index?, index?, register?_substitute]; rfl

/-- A second operand that is no register is an address. -/
theorem secondOperand?_of_ne_register {second : Arg} (h : ∀ r, second.operand ≠ .register r)
    (s : Statement) (T : SymbolTable) (index : Option Arg) :
    s.secondOperand? T second index = (do
      let base ← s.address? T second
      if base = noMemory then .error (s.unsupported second .reservedAddress)
      else
        let x ← s.index? index
        return .memory ⟨base, x⟩) := by
  obtain ⟨operand, text, span⟩ := second
  cases operand with
  | register r => exact absurd rfl (h r)
  | _ => rfl

theorem secondOperand?_substitute (s : Statement) (T : SymbolTable) (second : Arg)
    (index : Option Arg) :
    (s.substitute T).secondOperand? .empty (second.substitute T) (index.map (Arg.substitute T)) =
      s.secondOperand? T second index := by
  by_cases hr : ∃ r, second.operand = .register r
  · obtain ⟨operand, text, span⟩ := second
    obtain ⟨r, rfl⟩ := hr
    cases index <;> rfl
  · rw [not_exists] at hr
    rw [secondOperand?_of_ne_register hr,
      secondOperand?_of_ne_register fun r => mt Operand.substitute_eq_register.1 (hr r),
      address?_substitute, index?_substitute]
    rfl

theorem constant?_of_ne_chars {arg : Arg} (h : ∀ text, arg.operand ≠ .chars text) (s : Statement)
    (T : SymbolTable) : s.constant? T arg = (do return [← s.address? T arg]) := by
  obtain ⟨operand, text, span⟩ := arg
  cases operand with
  | chars text => exact absurd rfl (h text)
  | _ => rfl

theorem constant?_substitute (s : Statement) (T : SymbolTable) (arg : Arg) :
    (s.substitute T).constant? .empty (arg.substitute T) = s.constant? T arg := by
  by_cases hc : ∃ text, arg.operand = .chars text
  · obtain ⟨operand, text, span⟩ := arg
    obtain ⟨text, rfl⟩ := hc
    rfl
  · rw [not_exists] at hc
    rw [constant?_of_ne_chars hc,
      constant?_of_ne_chars fun text => mt Operand.substitute_eq_chars.1 (hc text),
      address?_substitute]

end Statement

/-! ## Statements -/

theorem Form.Deals.substitute {m : Mnemonic} {args : List Arg} {form : Form}
    (h : Form.Deals m args form) (T : SymbolTable) :
    Form.Deals m (args.map (Arg.substitute T)) (form.substitute T) := by
  have hindex (index : Option Arg) : index.toList.map (Arg.substitute T) =
      (index.map (Arg.substitute T)).toList := by
    cases index <;> rfl
  cases h with
  | twoForm op r second index =>
    rw [List.map_cons, List.map_cons, hindex]
    exact .twoForm op _ _ _
  | registerAddress op r base index =>
    rw [List.map_cons, List.map_cons, hindex]
    exact .registerAddress op _ _ _
  | address op base index =>
    rw [List.map_cons, hindex]
    exact .address op _ _
  | register op r => exact .register op _
  | bare op => exact .bare op
  | start entry =>
    rw [hindex]
    exact .start _
  | finish => exact .finish
  | storage length n hn hpos =>
    -- a length is an integer, so nothing is put in its place
    have hlength : (length.substitute T).operand = .integer n :=
      congrArg (Operand.substitute T) hn
    exact .storage _ n hlength hpos
  | constants arg args => exact .constants _ _

namespace Statement

theorem words?_substitute (s : Statement) (T : SymbolTable) (form : Form) :
    (s.substitute T).words? .empty (form.substitute T) = s.words? T form := by
  cases form with
  | twoForm op r second index =>
    simp only [Form.substitute, words?, register?_substitute, secondOperand?_substitute]
  | registerAddress op r base index =>
    simp only [Form.substitute, words?, register?_substitute, address?_substitute,
      index?_substitute]
  | address op base index =>
    simp only [Form.substitute, words?, address?_substitute, index?_substitute]
  | register op r => simp only [Form.substitute, words?, register?_substitute]
  | constants args =>
    simp only [Form.substitute, words?, List.mapM_map, Function.comp_def, constant?_substitute]
  | _ => rfl

/-- **The code of a statement** is the same with the words of its labels put in. -/
theorem code?_substitute (h : s.Shaped) (T : SymbolTable) :
    (s.substitute T).code? .empty = s.code? T := by
  obtain ⟨form, hform⟩ := s.exists_form?_iff.2 h
  have hsubst : (s.substitute T).form? = .ok (form.substitute T) :=
    form?_eq_ok.2 ((form?_eq_ok.1 hform).substitute T)
  rw [code?, code?, hform, hsubst]
  exact words?_substitute s T form

end Statement

/-- A label among an address and its index is the address. -/
theorem exists_of_mem_address {resolve : String → Option Word} {base : Operand}
    {index : List Operand} {w : Word} {x : Reg} {name : String}
    (hw : base.value? resolve = some w) (hx : IndexField index x)
    (hname : .symbol name ∈ base :: index) : ∃ w, resolve name = some w := by
  rcases List.mem_cons.1 hname with rfl | hname
  · exact ⟨w, hw⟩
  · cases hx <;> simp at hname

/-- What a statement denotes takes a word for every label that it names, unless that label is for
the entry address. -/
theorem Statement.Denotes.exists_of_names {resolve : String → Option Word} {words : List Word}
    (h : s.Denotes resolve words) (hm : s.mnemonic ≠ .directive .start) {name : String}
    (hname : s.Names name) : ∃ w, resolve name = some w := by
  rw [Statement.Denotes] at h
  rw [Statement.Names] at hname
  generalize s.mnemonic = m, s.operands = os at h hm hname
  cases h with
  | memory op r hw hne hx =>
    exact exists_of_mem_address hw hx (List.mem_of_ne_of_mem (by simp) hname)
  | registerAddress op r hw hx =>
    exact exists_of_mem_address hw hx (List.mem_of_ne_of_mem (by simp) hname)
  | address op hw hx => exact exists_of_mem_address hw hx hname
  | start entry => exact absurd rfl hm
  | constants hne hwss =>
    obtain ⟨words, hemits⟩ := exists_forall₂_iff.1 ⟨_, hwss⟩ _ hname
    obtain _ | ⟨hw⟩ := hemits
    exact ⟨_, hw⟩
  | _ => simp at hname

/-! ## Layouts -/

namespace Layout

variable {l : Layout} {rs : List Reading}

theorem codeOnto_substitute {ps : List Placed} (h : ∀ p ∈ ps, p.statement.Shaped) (T : SymbolTable)
    (words : Array Word) :
    codeOnto .empty words (ps.map (Placed.substitute T)) = codeOnto T words ps := by
  induction ps generalizing words with
  | nil => rfl
  | cons p ps ih =>
    rw [List.forall_mem_cons] at h
    have hcode : (p.substitute T).statement.code? .empty = p.statement.code? T :=
      Statement.code?_substitute h.1 T
    rw [List.map_cons, codeOnto, codeOnto, hcode]
    cases p.statement.code? T with
    | error e => rfl
    | ok code => exact ih h.2 _

theorem start?_substitute (l : Layout) (T : SymbolTable) :
    (l.substitute T).start? = l.start?.map (Placed.substitute T) := by
  rw [start?, start?, substitute, Array.find?_map]
  rfl

theorem entry?_substitute (l : Layout) (T : SymbolTable) :
    Layout.entry? (l.substitute T) .empty = l.entry? T := by
  unfold Layout.entry?
  rw [start?_substitute]
  cases l.start? with
  | none => rfl
  | some p =>
    obtain ⟨address, size, label, mnemonic, span, args, line, source⟩ := p
    cases args with
    | nil => rfl
    | cons arg args => exact Statement.address?_substitute _ T arg

/-- **Pass 2** is the same with the words of all labels put in, and needs no table then. -/
theorem image?_substitute (h : ∀ p ∈ l.placed, p.statement.Shaped) (T : SymbolTable) :
    (l.substitute T).image? .empty = l.image? T := by
  have hplaced : (l.substitute T).placed.toList = l.placed.toList.map (Placed.substitute T) :=
    Array.toList_map
  have hcode := codeOnto_substitute (fun p hp => h p (Array.mem_toList_iff.1 hp)) T #[]
  rw [image?, image?, hplaced, hcode, entry?_substitute]

/-! ## Labels without a word -/

theorem shaped_of_readOnto (hl : (readOnto {} rs).1 = .ok l) :
    ∀ p ∈ l.placed, p.statement.Shaped := by
  obtain ⟨-, hadmits, rfl⟩ := readOnto_empty.1 hl
  intro p hp
  refine hadmits.shaped _ ?_
  rw [← map_statement_placedFrom 0 (Reading.program rs)]
  exact List.mem_map_of_mem (Array.mem_toList_iff.2 hp)

theorem starts_of_readOnto (hl : (readOnto {} rs).1 = .ok l) : l.starts ≤ 1 := by
  obtain ⟨-, hadmits, rfl⟩ := readOnto_empty.1 hl
  have hstarts : (Reading.program rs).countP Statement.isStart ≤ 1 := by
    simpa [starts] using hadmits.starts
  rwa [← map_statement_placedFrom 0 (Reading.program rs), List.countP_map] at hstarts

/-- The only START of a layout is the one that says where the program starts. -/
theorem start?_eq_some (hstarts : l.starts ≤ 1) {p : Placed} (hp : p ∈ l.placed)
    (hm : p.statement.mnemonic = .directive .start) : l.start? = some p := by
  have hstart : p.statement.isStart = true := by simp [Statement.isStart, hm]
  rw [start?, ← Array.find?_toList]
  exact find?_of_countP_le_one hstarts (Array.mem_toList_iff.2 hp) hstart

/-- **If there is an image**, every label that is named stands for a word. -/
theorem exists_of_names (hl : (readOnto {} rs).1 = .ok l) {image : Image}
    (himage : l.image? T = .ok image) {name : String} (h : l.Names name) :
    ∃ w, T.get? name = some w := by
  obtain ⟨p, hp, hname⟩ := h
  obtain ⟨hcode, hentry⟩ := image?_eq_ok.1 himage
  by_cases hm : p.statement.mnemonic = .directive .start
  · -- the label is for the entry address
    have hcount : p.statement.args.length ≤ 1 := by
      simpa [hm, Mnemonic.arity, Arity.admits] using (shaped_of_readOnto hl p hp).count
    obtain ⟨arg, harg, hsymbol⟩ := List.mem_map.1 hname
    obtain ⟨_ | arg', hargs⟩ := eq_toList_of_length_le hcount
    · rw [hargs] at harg
      cases harg
    · obtain rfl : arg = arg' := by simpa [hargs] using harg
      unfold Layout.entry? at hentry
      simp only [start?_eq_some (starts_of_readOnto hl) hp hm, hargs, Option.toList_some] at hentry
      have hvalue := Statement.address?_eq_ok.1 hentry
      rw [hsymbol] at hvalue
      exact ⟨_, hvalue⟩
  · obtain ⟨code, hcode⟩ := exists_codeOnto_iff.1 ⟨_, hcode⟩ p (Array.mem_toList_iff.2 hp)
    exact (Statement.code?_eq_ok.1 hcode).exists_of_names hm hname

theorem not_names_substitute (h : ∀ name, l.Names name → ∃ w, T.get? name = some w)
    (name : String) : ¬(l.substitute T).Names name := by
  rintro ⟨q, hq, hname⟩
  obtain ⟨p, hp, rfl⟩ := Array.mem_map.1 hq
  obtain ⟨substituted, hsubstituted, hsymbol⟩ := List.mem_map.1 hname
  obtain ⟨arg, harg, rfl⟩ := List.mem_map.1 hsubstituted
  obtain ⟨hsymbol, hnone⟩ := Operand.substitute_eq_symbol.1 hsymbol
  obtain ⟨w, hw⟩ := h name ⟨p, hp, List.mem_map.2 ⟨arg, harg, hsymbol⟩⟩
  cases hnone.symm.trans hw

/-- Tables that agree on the labels of a layout put the same in their places. -/
theorem substitute_congr (h : ∀ name, l.Names name → T'.get? name = T.get? name) :
    l.substitute T' = l.substitute T := by
  have hplaced : l.placed.map (Placed.substitute T') = l.placed.map (Placed.substitute T) := by
    refine Array.map_congr_left fun p hp => ?_
    have hargs : p.statement.args.map (Arg.substitute T') =
        p.statement.args.map (Arg.substitute T) := by
      refine List.map_congr_left fun arg harg => ?_
      have hoperand : arg.operand.substitute T' = arg.operand.substitute T :=
        Operand.substitute_congr fun name hname =>
          h name ⟨p, hp, List.mem_map.2 ⟨arg, harg, hname⟩⟩
      exact Arg.ext hoperand rfl rfl
    rw [Placed.substitute, Placed.substitute, Statement.substitute, Statement.substitute, hargs]
  rw [substitute, substitute, hplaced]

/-- **Resolving labels is substitution.** Of a layout that pass 1 has made, pass 2 makes the same
image or the same error as of the layout with the words of its labels put in, which names no label
any more and needs no table. A label without a word leaves no image, and tables that agree on the
labels of the layout are as good as each other. -/
theorem resolution_is_substitution {rs unread : List Reading} {l : Layout}
    (hl : readOnto {} rs = (.ok l, unread)) (T : SymbolTable) :
    ((∀ name, l.Names name → ∃ w, T.get? name = some w) →
      (∀ name, ¬(l.substitute T).Names name) ∧
        l.image? T = (l.substitute T).image? .empty) ∧
    ((∃ name, l.Names name ∧ T.get? name = none) → ∃ e, l.image? T = .error e) ∧
    ∀ T', (∀ name, l.Names name → T'.get? name = T.get? name) → l.image? T' = l.image? T := by
  have hl : (readOnto {} rs).1 = .ok l := congrArg Prod.fst hl
  have himage (T : SymbolTable) : (l.substitute T).image? .empty = l.image? T :=
    image?_substitute (shaped_of_readOnto hl) T
  refine ⟨fun h => ⟨not_names_substitute h, (himage T).symm⟩, fun h => ?_, fun T' h => ?_⟩
  · obtain ⟨name, hname, hnone⟩ := h
    cases hresult : l.image? T with
    | error e => exact ⟨e, rfl⟩
    | ok image =>
      obtain ⟨w, hw⟩ := exists_of_names hl hresult hname
      cases hnone.symm.trans hw
  · rw [← himage T', ← himage T, substitute_congr h]

/-- Labels in START, in an address and in a constant, and tables that do not come from pass 1. -/
theorem resolution_is_substitution_foreign_tables :
    let start : Statement :=
      { label := some ⟨"P", ⟨0, 1⟩⟩, mnemonic := .directive .start, mnemonicSpan := ⟨2, 5⟩
        args := [⟨.symbol "GO", "GO", ⟨8, 2⟩, by decide⟩], line := 1, source := "P START GO" }
    let load : Statement :=
      { label := some ⟨"GO", ⟨11, 2⟩⟩, mnemonic := .machine (.twoForm .load)
        mnemonicSpan := ⟨14, 2⟩
        args := [⟨.register 1, "GR1", ⟨17, 3⟩, by decide⟩, ⟨.symbol "A", "A", ⟨21, 1⟩, by decide⟩]
        line := 2
        source := "GO LD GR1,A" }
    let constants : Statement :=
      { label := some ⟨"A", ⟨23, 1⟩⟩, mnemonic := .directive .constant, mnemonicSpan := ⟨25, 2⟩
        args :=
          [⟨.symbol "GO", "GO", ⟨28, 2⟩, by decide⟩, ⟨.integer (-1), "-1", ⟨31, 2⟩, by decide⟩]
        line := 3
        source := "A DC GO,-1" }
    let rs : List Reading := [.ok (some start), .ok (some load), .ok (some constants)]
    let l : Layout :=
      ⟨#[⟨0, 0, start⟩, ⟨0, 2, load⟩, ⟨2, 2, constants⟩], ⟨[("P", 0), ("GO", 0), ("A", 2)]⟩, 4⟩
    let T : SymbolTable := ⟨[("GO", 7), ("A", 9)]⟩
    readOnto {} rs = (.ok l, []) ∧
      (∀ name, l.Names name → ∃ w, T.get? name = some w) ∧
      l.image? T = .ok ⟨#[0x1010, 9, 7, 0xFFFF], 7⟩ ∧
      (l.substitute T).image? .empty = .ok ⟨#[0x1010, 9, 7, 0xFFFF], 7⟩ ∧
      l.image? ⟨[("A", 9), ("B", 1), ("GO", 7)]⟩ = .ok ⟨#[0x1010, 9, 7, 0xFFFF], 7⟩ ∧
      ∃ e, l.image? ⟨[("A", 9)]⟩ = .error e := by
  intro start load constants rs l T
  have hl : readOnto {} rs = (.ok l, []) := rfl
  have hnames : ∀ name, l.Names name → name = "GO" ∨ name = "A" := by
    rintro name ⟨p, hp, hname⟩
    simp only [l, List.mem_toArray, List.mem_cons, List.not_mem_nil, or_false] at hp
    rcases hp with rfl | rfl | rfl <;>
      simp [Statement.Names, Statement.operands, start, load, constants] at hname <;> simp [hname]
  have hbound : ∀ name, l.Names name → ∃ w, T.get? name = some w := fun name h => by
    rcases hnames name h with rfl | rfl
    · exact ⟨7, rfl⟩
    · exact ⟨9, rfl⟩
  have hagree (name : String) (h : l.Names name) :
      SymbolTable.get? ⟨[("A", 9), ("B", 1), ("GO", 7)]⟩ name = T.get? name := by
    rcases hnames name h with rfl | rfl <;> rfl
  have himage : l.image? T = .ok ⟨#[0x1010, 9, 7, 0xFFFF], 7⟩ := rfl
  obtain ⟨hsubst, -, hcongr⟩ := resolution_is_substitution hl T
  have hsubstituted := (hsubst hbound).2.symm.trans himage
  obtain ⟨-, hfails, -⟩ := resolution_is_substitution hl ⟨[("A", 9)]⟩
  have hmissing : l.Names "GO" := ⟨⟨0, 0, start⟩, by simp [l], List.mem_singleton_self _⟩
  exact ⟨hl, hbound, himage, hsubstituted, (hcongr _ hagree).trans himage,
    hfails ⟨_, hmissing, rfl⟩⟩

end Layout

end Comet
