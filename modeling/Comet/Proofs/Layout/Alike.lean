import Comet.Proofs.Layout.Stopping
import Comet.Proofs.Source.Alike

/-!
# Passes over statements that are alike

Neither pass looks at positions: of statements that differ in positions only, both make the same
layout and the same image, or they fail with the same cause at statements that correspond.

* `Rule.alike_broken?`: the rules of pass 1, one by one.
* `agree_readOnto`: the whole of pass 1, whose layouts are alike (`Layout.Alike`).
* `Form.Deals.alike`, `agree_words?`: the operands of a statement, dealt out and resolved.
* `agree_image?`: the whole of pass 2.
* `agree_ofLines?`, `agree_ofSource?`: both passes, over sources that hold the same code.
-/

namespace Comet

variable {R : Nat → Nat → Prop} {P : Span → Span → Prop} {s t : Statement} {ss ts : List Statement}

/-! ## Related lists and options -/

theorem map_eq_map_of_forall₂ {α β γ : Type} {S : α → β → Prop} {f : α → γ} {g : β → γ}
    {as : List α} {bs : List β} (h : List.Forall₂ S as bs) (hfg : ∀ a b, S a b → f a = g b) :
    as.map f = bs.map g := by
  rw [← List.forall₂_eq_eq_eq, List.forall₂_map_left_iff, List.forall₂_map_right_iff]
  exact h.imp hfg

theorem filterMap_eq_filterMap_of_forall₂ {α β γ : Type} {S : α → β → Prop} {f : α → Option γ}
    {g : β → Option γ} {as : List α} {bs : List β} (h : List.Forall₂ S as bs)
    (hfg : ∀ a b, S a b → f a = g b) : as.filterMap f = bs.filterMap g := by
  induction h with
  | nil => rfl
  | cons hab _ ih => rw [List.filterMap_cons, List.filterMap_cons, hfg _ _ hab, ih]

theorem rel_findSome? {ι α β : Type} {S : α → β → Prop} {f : ι → Option α} {g : ι → Option β}
    (h : ∀ i, Option.Rel S (f i) (g i)) (is : List ι) :
    Option.Rel S (is.findSome? f) (is.findSome? g) := by
  induction is with
  | nil => exact .none
  | cons i is ih =>
    have hi := h i
    rw [List.findSome?_cons, List.findSome?_cons]
    generalize f i = a, g i = b at hi
    cases hi with
    | some hab => exact .some hab
    | none => exact ih

theorem rel_find? {α β : Type} {S : α → β → Prop} {p : α → Bool} {q : β → Bool} {as : List α}
    {bs : List β} (h : List.Forall₂ S as bs) (hpq : ∀ a b, S a b → p a = q b) :
    Option.Rel S (as.find? p) (bs.find? q) := by
  induction h with
  | nil => exact .none
  | cons hab _ ih =>
    rw [List.find?_cons, List.find?_cons, hpq _ _ hab]
    split
    · exact .some hab
    · exact ih

theorem agree_mapM {α α' β β' : Type} {S : α → α' → Prop} {S' : β → β' → Prop}
    {f : α → Except AsmError β} {g : α' → Except AsmError β'} {as : List α} {bs : List α'}
    (h : List.Forall₂ S as bs) (hfg : ∀ a b, S a b → Agree R S' (f a) (g b)) :
    Agree R (List.Forall₂ S') (as.mapM f) (bs.mapM g) := by
  induction h with
  | nil => exact .ok .nil
  | cons hab _ ih =>
    rw [List.mapM_cons, List.mapM_cons]
    exact (hfg _ _ hab).bind fun _ _ hc => ih.bind fun _ _ hcs => .ok (.cons hc hcs)

/-! ## Pass 1 -/

namespace Statement

theorem Alike.length_args (h : s.Alike R P t) : s.args.length = t.args.length := h.args.length_eq

theorem Alike.labelText? (h : s.Alike R P t) : s.labelText? = t.labelText? := by
  have hlabel := h.label
  unfold Statement.labelText?
  generalize s.label = label, t.label = label' at hlabel
  cases hlabel with
  | some hlabel => exact congrArg some hlabel.text
  | none => rfl

theorem Alike.footprint (h : s.Alike R P t) : s.footprint = t.footprint := by
  have hargs := h.args
  have hsizes : s.args.map Arg.constantSize = t.args.map Arg.constantSize :=
    map_eq_map_of_forall₂ hargs fun _ _ harg => by rw [Arg.constantSize, harg.operand]; rfl
  unfold Statement.footprint
  rw [h.mnemonic]
  generalize s.args = as, t.args = bs at hargs hsizes
  rcases t.mnemonic with (_ | _ | _ | _) | op
  case directive.storage =>
    rcases hargs with _ | ⟨harg, _ | _⟩
    · rfl
    · simp only [harg.operand]
    · rfl
  case directive.constant => exact congrArg List.sum hsizes
  all_goals rfl

theorem Alike.isStart (h : s.Alike R P t) : s.isStart = t.isStart := by
  rw [Statement.isStart, h.mnemonic, Statement.isStart]

theorem Alike.isFinish (h : s.Alike R P t) : s.isFinish = t.isFinish := by
  rw [Statement.isFinish, h.mnemonic, Statement.isFinish]

theorem Alike.malformed (h : s.Alike R P t) (fault : SyntaxFault) :
    (s.malformed fault).Alike R (t.malformed fault) := ⟨rfl, h.line⟩

theorem Alike.unsupported {arg arg' : Arg} (h : s.Alike R P t) (harg : arg.Alike P arg')
    (reason : OperandFault) : (s.unsupported arg reason).Alike R (t.unsupported arg' reason) := by
  refine ⟨?_, h.line⟩
  rw [Statement.unsupported, Statement.unsupported, harg.text]

end Statement

theorem labelTexts_of_alike (h : List.Forall₂ (Statement.Alike R P) ss ts) :
    labelTexts ss = labelTexts ts :=
  filterMap_eq_filterMap_of_forall₂ h fun _ _ hst => hst.labelText?

theorem footprints_of_alike (h : List.Forall₂ (Statement.Alike R P) ss ts) :
    footprints ss = footprints ts := by
  rw [footprints, footprints, map_eq_map_of_forall₂ h fun _ _ hst => hst.footprint]

theorem Rule.alike_broken? (hss : List.Forall₂ (Statement.Alike R P) ss ts) (h : s.Alike R P t)
    (rule : Rule) : Option.Rel (AsmError.Alike R) (rule.broken? ss s) (rule.broken? ts t) := by
  have hif {c : Prop} [Decidable c] {e e' : AsmError} (he : e.Alike R e') :
      Option.Rel (AsmError.Alike R) (if c then some e else none) (if c then some e' else none) := by
    split
    · exact .some he
    · exact .none
  cases rule with
  | operandCount =>
    simp only [broken?, h.mnemonic, h.length_args]
    split
    · exact .none
    · exact .some (h.malformed _)
  | storageLength =>
    simp only [broken?, h.mnemonic]
    split
    · have hfind := rel_find? (p := (!·.operand.isLength)) (q := (!·.operand.isLength)) h.args
        fun _ _ harg => by simp only [harg.operand]
      generalize List.find? _ s.args = a, List.find? _ t.args = b at hfind
      cases hfind with
      | some harg => exact .some (h.unsupported harg _)
      | none => exact .none
    · exact .none
  | size => simpa only [broken?, h.footprint] using hif (h.malformed _)
  | newLabel =>
    have hlabel := h.label
    rw [broken?, broken?, labelTexts_of_alike hss]
    generalize s.label = label, t.label = label' at hlabel
    cases hlabel with
    | none => exact .none
    | some hlabel =>
      simp only [Option.filter_some, hlabel.text]
      split
      · exact .some ⟨by simp only [hlabel.text], h.line⟩
      · exact .none
  | total =>
    simpa only [broken?, footprints_of_alike (List.rel_append hss (.cons h .nil))] using
      hif (h.malformed _)
  | oneStart =>
    have hmap := map_eq_map_of_forall₂ hss fun _ _ hst => hst.isStart
    have hany : (∃ u ∈ ss, u.isStart) ↔ ∃ u ∈ ts, u.isStart := by
      rw [← List.mem_map, hmap, List.mem_map]
    simpa only [broken?, h.isStart, hany] using hif (h.malformed _)

/-- **The rules do not look at positions.** -/
theorem Statement.Alike.violation? (hss : List.Forall₂ (Statement.Alike R P) ss ts)
    (h : s.Alike R P t) : Option.Rel (AsmError.Alike R) (s.violation? ss) (t.violation? ts) :=
  rel_findSome? (fun rule => rule.alike_broken? hss h) Rule.all

namespace Layout

/-- Layouts of statements that are alike. -/
def Alike (R : Nat → Nat → Prop) (P : Span → Span → Prop) (l l' : Layout) : Prop :=
  ∃ ss ts, List.Forall₂ (Statement.Alike R P) ss ts ∧ l = ofStatements ss ∧ l' = ofStatements ts

theorem rel_stop? {r r' : Reading} (hss : List.Forall₂ (Statement.Alike R P) ss ts)
    (h : Agree R (Option.Rel (Statement.Alike R P)) r r') :
    Option.Rel (Agree R (Alike R P)) (stop? ss r) (stop? ts r') := by
  cases h with
  | error he => exact .some (.error he)
  | ok h =>
    cases h with
    | none => exact .none
    | @some s t h =>
      have hviolation := h.violation? hss
      rw [stop?, stop?, ← h.isFinish]
      generalize s.violation? ss = e?, t.violation? ts = e'? at hviolation
      cases hviolation with
      | some he => exact .some (.error he)
      | none =>
        simp only
        split
        · exact .some (.ok ⟨_, _, List.rel_append hss (.cons h .nil), rfl, rfl⟩)
        · exact .none

theorem forall₂_statements {r r' : Reading} (h : Agree R (Option.Rel (Statement.Alike R P)) r r') :
    List.Forall₂ (Statement.Alike R P) (statements [r]) (statements [r']) := by
  cases h with
  | error he => exact .nil
  | ok h =>
    cases h with
    | none => exact .nil
    | some h => exact .cons h .nil

/-- **Pass 1 does not look at positions.** -/
theorem agree_readOnto {rs rs' : List Reading} (hss : List.Forall₂ (Statement.Alike R P) ss ts)
    (h : List.Forall₂ (Agree R (Option.Rel (Statement.Alike R P))) rs rs') :
    Agree R (Alike R P) ((ofStatements ss).readOnto rs).1 ((ofStatements ts).readOnto rs').1 := by
  induction h generalizing ss ts with
  | nil => exact .ok ⟨ss, ts, hss, rfl, rfl⟩
  | @cons r r' rs rs' hr _ ih =>
    have hstop := rel_stop? hss hr
    rw [readOnto_cons, readOnto_cons]
    generalize stop? ss r = o, stop? ts r' = o' at hstop
    cases hstop with
    | some ho => exact ho
    | none => exact ih (List.rel_append hss (forall₂_statements hr))

end Layout

/-! ## Pass 2 -/

/-- The forms differ in positions only. -/
inductive Form.Alike (P : Span → Span → Prop) : Form → Form → Prop
  | twoForm (op : TwoFormOp) {r r' second second' : Arg} {index index' : Option Arg} :
      r.Alike P r' → second.Alike P second' → Option.Rel (Arg.Alike P) index index' →
      Alike P (.twoForm op r second index) (.twoForm op r' second' index')
  | registerAddress (op : RegisterAddressOp) {r r' address address' : Arg}
      {index index' : Option Arg} :
      r.Alike P r' → address.Alike P address' → Option.Rel (Arg.Alike P) index index' →
      Alike P (.registerAddress op r address index) (.registerAddress op r' address' index')
  | address (op : AddressOp) {address address' : Arg} {index index' : Option Arg} :
      address.Alike P address' → Option.Rel (Arg.Alike P) index index' →
      Alike P (.address op address index) (.address op address' index')
  | register (op : RegisterOp) {r r' : Arg} :
      r.Alike P r' → Alike P (.register op r) (.register op r')
  | bare (op : BareOp) : Alike P (.bare op) (.bare op)
  | start {entry entry' : Option Arg} :
      Option.Rel (Arg.Alike P) entry entry' → Alike P (.start entry) (.start entry')
  | finish : Alike P .finish .finish
  | storage (length : Nat) : Alike P (.storage length) (.storage length)
  | constants {args args' : List Arg} :
      List.Forall₂ (Arg.Alike P) args args' → Alike P (.constants args) (.constants args')

theorem exists_rel_of_forall₂_toList {α β : Type} {S : α → β → Prop} {o : Option α} {bs : List β}
    (h : List.Forall₂ S o.toList bs) : ∃ o', bs = o'.toList ∧ Option.Rel S o o' := by
  cases o with
  | none =>
    cases h
    exact ⟨none, rfl, .none⟩
  | some a =>
    rcases h with _ | ⟨hab, _ | _⟩
    exact ⟨some _, rfl, .some hab⟩

/-- Operands that are alike are dealt out to the same roles. -/
theorem Form.Deals.alike {m : Mnemonic} {args args' : List Arg} {form : Form}
    (h : Deals m args form) (hargs : List.Forall₂ (Arg.Alike P) args args') :
    ∃ form', Deals m args' form' ∧ form.Alike P form' := by
  cases h with
  | twoForm op r second index =>
    rcases hargs with _ | ⟨hr, _ | ⟨hsecond, hrest⟩⟩
    obtain ⟨index', rfl, hindex⟩ := exists_rel_of_forall₂_toList hrest
    exact ⟨_, .twoForm op _ _ index', .twoForm op hr hsecond hindex⟩
  | registerAddress op r address index =>
    rcases hargs with _ | ⟨hr, _ | ⟨haddress, hrest⟩⟩
    obtain ⟨index', rfl, hindex⟩ := exists_rel_of_forall₂_toList hrest
    exact ⟨_, .registerAddress op _ _ index', .registerAddress op hr haddress hindex⟩
  | address op address index =>
    rcases hargs with _ | ⟨haddress, hrest⟩
    obtain ⟨index', rfl, hindex⟩ := exists_rel_of_forall₂_toList hrest
    exact ⟨_, .address op _ index', .address op haddress hindex⟩
  | register op r =>
    rcases hargs with _ | ⟨hr, _ | _⟩
    exact ⟨_, .register op _, .register op hr⟩
  | bare op =>
    cases hargs
    exact ⟨_, .bare op, .bare op⟩
  | start entry =>
    obtain ⟨entry', rfl, hentry⟩ := exists_rel_of_forall₂_toList hargs
    exact ⟨_, .start entry', .start hentry⟩
  | finish =>
    cases hargs
    exact ⟨_, .finish, .finish⟩
  | storage length n hn hpos =>
    rcases hargs with _ | ⟨hlength, _ | _⟩
    exact ⟨_, .storage _ n (hlength.operand ▸ hn) hpos, .storage _⟩
  | constants arg args =>
    rcases hargs with _ | ⟨harg, hargs⟩
    exact ⟨_, .constants _ _, .constants (.cons harg hargs)⟩

namespace Statement

variable {T : SymbolTable} {arg arg' : Arg} {index index' : Option Arg}

theorem agree_form? (h : s.Alike R P t) : Agree R (Form.Alike P) s.form? t.form? := by
  have hcount : s.mnemonic.arity.admits s.args.length ↔ t.mnemonic.arity.admits t.args.length := by
    rw [h.mnemonic, h.length_args]
  have hlength := Rule.alike_broken? .nil h .storageLength
  by_cases hs : s.mnemonic.arity.admits s.args.length = true
  · cases ha : Rule.broken? [] s .storageLength with
    | some e =>
      rw [ha] at hlength
      cases hb : Rule.broken? [] t .storageLength with
      | some e' =>
        rw [hb] at hlength
        rw [form?_of_storageLength hs ha, form?_of_storageLength (hcount.1 hs) hb]
        cases hlength with
        | some he => exact .error he
      | none => rw [hb] at hlength; cases hlength
    | none =>
      obtain ⟨form, hform⟩ := s.exists_form?_iff.2 (shaped_of_storageLength hs ha)
      obtain ⟨form', hdeals, halike⟩ := (form?_eq_ok.1 hform).alike h.args
      rw [h.mnemonic] at hdeals
      rw [hform, form?_eq_ok.2 hdeals]
      exact .ok halike
  · rw [form?_of_count hs, form?_of_count (mt hcount.2 hs), h.mnemonic, h.length_args]
    exact .error (h.malformed _)

theorem agree_address? (h : s.Alike R P t) (harg : arg.Alike P arg') :
    Agree R Eq (s.address? T arg) (t.address? T arg') := by
  unfold address?
  rw [harg.operand]
  cases arg'.operand with
  | integer value => exact .ok rfl
  | symbol name =>
    simp only
    split
    · exact .ok rfl
    · exact .error ⟨rfl, h.line⟩
  | register r => exact .error (h.unsupported harg _)
  | chars text => exact .error (h.unsupported harg _)

theorem agree_register? (h : s.Alike R P t) (harg : arg.Alike P arg') :
    Agree R Eq (s.register? arg) (t.register? arg') := by
  unfold register?
  rw [harg.operand]
  split
  · exact .ok rfl
  · exact .error (h.unsupported harg _)

theorem agree_index? (h : s.Alike R P t) (hindex : Option.Rel (Arg.Alike P) index index') :
    Agree R Eq (s.index? index) (t.index? index') := by
  cases hindex with
  | none => exact .ok rfl
  | some harg =>
    refine (agree_register? h harg).bind_eq fun r => ?_
    split
    · exact .error (h.unsupported harg _)
    · exact .ok rfl

theorem agree_secondOperand? (h : s.Alike R P t) (harg : arg.Alike P arg')
    (hindex : Option.Rel (Arg.Alike P) index index') :
    Agree R Eq (s.secondOperand? T arg index) (t.secondOperand? T arg' index') := by
  have hmemory : Agree R Eq
      (do
        let base ← s.address? T arg
        if base = noMemory then Except.error (s.unsupported arg .reservedAddress)
        else
          let x ← s.index? index
          return SecondOperand.memory ⟨base, x⟩)
      (do
        let base ← t.address? T arg'
        if base = noMemory then Except.error (t.unsupported arg' .reservedAddress)
        else
          let x ← t.index? index'
          return SecondOperand.memory ⟨base, x⟩) := by
    refine (agree_address? h harg).bind_eq fun base => ?_
    split
    · exact .error (h.unsupported harg _)
    · refine (agree_index? h hindex).bind_eq fun x => ?_
      exact .ok rfl
  unfold secondOperand?
  rw [harg.operand]
  cases arg'.operand with
  | register r =>
    cases hindex with
    | none => exact .ok rfl
    | some hextra => exact .error (h.unsupported hextra _)
  | _ => exact hmemory

theorem agree_constant? (h : s.Alike R P t) (harg : arg.Alike P arg') :
    Agree R Eq (s.constant? T arg) (t.constant? T arg') := by
  have hvalue : Agree R Eq (do return [← s.address? T arg] : Except AsmError (List Word))
      (do return [← t.address? T arg']) := by
    refine (agree_address? h harg).bind_eq fun w => ?_
    exact .ok rfl
  unfold constant?
  rw [harg.operand]
  cases arg'.operand with
  | chars text => exact .ok rfl
  | _ => exact hvalue

theorem agree_words? {form form' : Form} (h : s.Alike R P t) (hform : form.Alike P form') :
    Agree R Eq (s.words? T form) (t.words? T form') := by
  cases hform with
  | twoForm op hr hsecond hindex =>
    refine (agree_register? h hr).bind_eq fun r => ?_
    refine (agree_secondOperand? h hsecond hindex).bind_eq fun source => ?_
    exact .ok rfl
  | registerAddress op hr haddress hindex =>
    refine (agree_register? h hr).bind_eq fun r => ?_
    refine (agree_address? h haddress).bind_eq fun base => ?_
    refine (agree_index? h hindex).bind_eq fun x => ?_
    exact .ok rfl
  | address op haddress hindex =>
    refine (agree_address? h haddress).bind_eq fun base => ?_
    refine (agree_index? h hindex).bind_eq fun x => ?_
    exact .ok rfl
  | register op hr =>
    refine (agree_register? h hr).bind_eq fun r => ?_
    exact .ok rfl
  | constants hargs =>
    refine (agree_mapM hargs fun _ _ harg => agree_constant? h harg).bind fun wss wss' hwss => ?_
    rw [List.forall₂_eq_eq_eq] at hwss
    rw [hwss]
    exact .ok rfl
  | _ => exact .ok rfl

theorem agree_code? (h : s.Alike R P t) : Agree R Eq (s.code? T) (t.code? T) :=
  (agree_form? h).bind fun _ _ hform => agree_words? h hform

end Statement

/-- The statements stand at the same place and differ in positions only. -/
structure Placed.Alike (R : Nat → Nat → Prop) (P : Span → Span → Prop) (p q : Placed) : Prop where
  address : p.address = q.address
  size : p.size = q.size
  statement : p.statement.Alike R P q.statement

namespace Layout

theorem placedFrom_alike (h : List.Forall₂ (Statement.Alike R P) ss ts) (a : Nat) :
    List.Forall₂ (Placed.Alike R P) (placedFrom a ss) (placedFrom a ts) := by
  induction h generalizing a with
  | nil => exact .nil
  | cons hst _ ih =>
    rw [placedFrom, placedFrom, hst.footprint]
    exact .cons ⟨rfl, rfl, hst⟩ (ih _)

variable {l l' : Layout}

theorem Alike.placed (h : l.Alike R P l') :
    List.Forall₂ (Placed.Alike R P) l.placed.toList l'.placed.toList := by
  obtain ⟨ss, ts, hss, rfl, rfl⟩ := h
  exact placedFrom_alike hss 0

theorem Alike.symbols (h : l.Alike R P l') : l.symbols = l'.symbols := by
  obtain ⟨ss, ts, hss, rfl, rfl⟩ := h
  refine congrArg SymbolTable.mk (filterMap_eq_filterMap_of_forall₂ (placedFrom_alike hss 0) ?_)
  intro p q hpq
  rw [hpq.statement.labelText?, hpq.address]

theorem agree_codeOnto {T : SymbolTable} {ps qs : List Placed}
    (h : List.Forall₂ (Placed.Alike R P) ps qs) (words : Array Word) :
    Agree R Eq (codeOnto T words ps) (codeOnto T words qs) := by
  induction h generalizing words with
  | nil => exact .ok rfl
  | @cons p q ps qs hpq _ ih =>
    have hcode : Agree R Eq (p.statement.code? T) (q.statement.code? T) :=
      Statement.agree_code? hpq.statement
    rw [codeOnto, codeOnto]
    generalize p.statement.code? T = x, q.statement.code? T = x' at hcode
    cases hcode with
    | error he => exact .error he
    | ok hwords =>
      subst hwords
      exact ih _

theorem agree_startAddress {T : SymbolTable} (h : l.Alike R P l') :
    Agree R Eq (l.entry? T) (l'.entry? T) := by
  have hstart : Option.Rel (Placed.Alike R P) l.start? l'.start? := by
    rw [start?, start?, ← Array.find?_toList, ← Array.find?_toList]
    exact rel_find? h.placed fun _ _ hpq => by rw [hpq.statement.mnemonic]
  unfold entry?
  generalize l.start? = p?, l'.start? = q? at hstart
  cases hstart with
  | none => exact .ok rfl
  | @some p q hpq =>
    have hargs := hpq.statement.args
    simp only
    generalize p.statement.args = args, q.statement.args = args' at hargs
    cases hargs with
    | nil =>
      simp only [hpq.address]
      exact .ok rfl
    | cons harg _ => exact Statement.agree_address? hpq.statement harg

/-- **Pass 2 does not look at positions.** -/
theorem agree_image? {T : SymbolTable} (h : l.Alike R P l') :
    Agree R Eq (l.image? T) (l'.image? T) := by
  refine (agree_codeOnto h.placed #[]).bind_eq fun words => ?_
  refine (agree_startAddress h).bind_eq fun entry => ?_
  exact .ok rfl

end Layout

/-! ## Both passes -/

/-- The lines of these numbers hold the same code: as many lines before them have any. -/
def Line.Correspond (lines lines' : List Line) (m n : Nat) : Prop :=
  ∃ (k : Nat) (line line' : Line), (withCode lines)[k]? = some line ∧
    (withCode lines')[k]? = some line' ∧ line.number = m ∧ line'.number = n

namespace Layout

/-- Lines without code make no difference. -/
theorem readOnto_withCode (l : Layout) (lines : List Line) :
    (l.readOnto ((Line.withCode lines).map Line.statement?)).1 =
      (l.readOnto (lines.map Line.statement?)).1 := by
  induction lines generalizing l with
  | nil => rfl
  | cons line lines ih =>
    by_cases hcore : Line.core line.text = []
    · rw [Line.withCode, List.filter_cons_of_neg (by simpa using hcore), List.map_cons,
        Line.statement?_of_core_nil hcore]
      exact ih l
    · rw [Line.withCode, List.filter_cons_of_pos (by simpa using hcore), List.map_cons,
        List.map_cons]
      rcases line.statement? with e | _ | s
      · rfl
      · exact ih l
      · rw [readOnto, readOnto]
        split
        · rfl
        · split
          · rfl
          · exact ih _

/-- **Pass 1 over lines of the same code**, with any other lines among them. -/
theorem agree_ofLines? {lines lines' : List Line}
    (h : (Line.withCode lines).map (Line.core ·.text) =
      (Line.withCode lines').map (Line.core ·.text)) :
    Agree (Line.Correspond lines lines') (Alike (Line.Correspond lines lines') fun _ _ => True)
      (ofLines? lines) (ofLines? lines') := by
  rw [ofLines?, ofLines?, ← readOnto_withCode, ← readOnto_withCode {} lines']
  refine agree_readOnto .nil ?_
  rw [List.forall₂_map_left_iff, List.forall₂_map_right_iff, List.forall₂_iff_get]
  refine ⟨by simpa using congrArg List.length h, fun k hk hk' => ?_⟩
  have hcore := List.getElem_of_eq h (by simpa using hk)
  rw [List.getElem_map, List.getElem_map] at hcore
  have hline : Line.Correspond lines lines' ((Line.withCode lines).get ⟨k, hk⟩).number
      ((Line.withCode lines').get ⟨k, hk'⟩).number :=
    ⟨k, _, _, List.getElem?_eq_getElem hk, List.getElem?_eq_getElem hk', rfl, rfl⟩
  refine (Line.agree_statement? hcore hline).mono fun s? t? hst => ?_
  cases hst with
  | some hst => exact .some (hst.mono fun _ _ _ => trivial)
  | none => exact .none

end Layout

namespace Assembly

/-- Both have the same image and the same symbol table, and their statements, in order, have the
same addresses, sizes and sources. -/
structure SameProgram (a b : Assembly) : Prop where
  image : a.image = b.image
  symbols : a.symbols = b.symbols
  statements : (a.layout.placed.toList.map fun p => (p.address, p.size, p.statement.source)) =
    b.layout.placed.toList.map fun p => (p.address, p.size, p.statement.source)

theorem sameProgram_of_alike {l l' : Layout} (h : l.Alike R P l') (image : Image) :
    SameProgram ⟨l, image⟩ ⟨l', image⟩ where
  image := rfl
  symbols := h.symbols
  statements := map_eq_map_of_forall₂ h.placed fun _ _ hpq => by
    rw [hpq.address, hpq.size, hpq.statement.source]

/-- **Assembling does not look at positions.** -/
theorem agree_ofSource? {source source' : String}
    (h : Agree R (Layout.Alike R P) (Layout.ofLines? (Line.split source.toList))
      (Layout.ofLines? (Line.split source'.toList))) :
    Agree R SameProgram (Assembly.ofSource? source) (Assembly.ofSource? source') := by
  refine h.bind fun l l' hl => ?_
  rw [← hl.symbols]
  refine (Layout.agree_image? hl).bind_eq fun image => ?_
  exact .ok (sameProgram_of_alike hl image)

end Assembly

end Comet
