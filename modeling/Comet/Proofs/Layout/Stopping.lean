import Comet.Proofs.Layout.Labels
import Comet.Proofs.Source.Lines

/-!
# Where pass 1 stops

Pass 1 takes one item after another and stops at the first that is an error, that breaks a rule
(`Rule.broken?`) or that ends the program. No item behind that one is looked at.

* `place?_ofStatements`: a statement is placed, or it breaks a rule, and then the error is that of
  the first rule it breaks (`violation?`).
* `readOnto_cons`: what one item does to the loop; `readOnto_of_passes` and `readOnto_of_stop` are
  the loop over items at which it does not stop, and up to the one at which it does.
* `stops_at_first`: the same for source texts, which may go on in any way behind that item.
-/

namespace Comet

/-! ## Rules -/

/-- Whether the operand can be a storage length: an integer that is not negative. -/
def Operand.isLength : Operand → Bool
  | .integer n => 0 ≤ n
  | _ => false

/-- The rules of pass 1. -/
inductive Rule
  | operandCount
  /-- A storage length is a length. -/
  | storageLength
  /-- A statement takes no more words than an image has. Only constants can break it. -/
  | size
  | newLabel
  /-- The statements so far fit memory. -/
  | total
  | oneStart
  deriving DecidableEq, Repr

namespace Rule

/-- The rules in the order in which they are tested. -/
def all : List Rule := [operandCount, storageLength, size, newLabel, total, oneStart]

/-- The error of a statement that breaks the rule where `before` stands before it. -/
def broken? (before : List Statement) (s : Statement) : Rule → Option AsmError
  | operandCount =>
    if s.mnemonic.arity.admits s.args.length then none
    else some (s.malformed (.operandCount s.mnemonic s.args.length))
  | storageLength =>
    if s.mnemonic = .directive .storage then
      (s.args.find? (!·.operand.isLength)).map fun arg => s.unsupported arg .storageLength
    else none
  | size => if 0xFFFF < s.footprint then some (s.malformed .tooManyConstants) else none
  | newLabel =>
    (s.label.filter (·.text ∈ labelTexts before)).map fun label =>
      ⟨.duplicateLabel label.text, s.line, label.span⟩
  | total =>
    if 0xFFFF < footprints (before ++ [s]) then some (s.malformed .programTooLarge) else none
  | oneStart =>
    if s.isStart ∧ ∃ t ∈ before, t.isStart then some (s.malformed .startTwice) else none

end Rule

/-- The error of the first rule that a statement breaks where `before` stands before it. -/
def Statement.violation? (before : List Statement) (s : Statement) : Option AsmError :=
  Rule.all.findSome? (Rule.broken? before s)

/-! ## One statement -/

namespace Statement

variable {s : Statement} {before : List Statement}

theorem form?_of_count (h : ¬s.mnemonic.arity.admits s.args.length) :
    s.form? = .error (s.malformed (.operandCount s.mnemonic s.args.length)) := by
  unfold form?
  split
  case h_14 => rfl
  all_goals
    rename_i hm hargs
    rw [hm, hargs] at h
    exact absurd rfl h

theorem form?_of_storageLength {e : AsmError} (hcount : s.mnemonic.arity.admits s.args.length)
    (h : Rule.broken? before s .storageLength = some e) : s.form? = .error e := by
  rw [Rule.broken?] at h
  split at h
  · next hm =>
    rw [hm] at hcount
    obtain ⟨arg, hargs⟩ := List.length_eq_one_iff.1 (beq_iff_eq.1 hcount)
    obtain ⟨found, hfound, rfl⟩ := Option.map_eq_some_iff.1 h
    have hnot : found.operand.isLength = false := by simpa using List.find?_some hfound
    have hmem : found = arg := by simpa [hargs] using List.mem_of_find?_eq_some hfound
    subst hmem
    have herror : s.storageLength? found = .error (s.unsupported found .storageLength) := by
      unfold storageLength?
      split
      · next n hn => rw [if_neg (by simpa [hn, Operand.isLength] using hnot)]
      · rfl
    rw [form?_storage hm hargs, herror]
    rfl
  · cases h

theorem shaped_of_storageLength (hcount : s.mnemonic.arity.admits s.args.length)
    (h : Rule.broken? before s .storageLength = none) : s.Shaped := by
  refine ⟨hcount, fun hm arg harg => ?_⟩
  rw [Rule.broken?, if_pos hm, Option.map_eq_none_iff, List.find?_eq_none] at h
  have hlength : arg.operand.isLength = true := by simpa using h arg harg
  unfold Operand.isLength at hlength
  split at hlength
  · next n hn => exact ⟨n, of_decide_eq_true hlength, hn⟩
  · cases hlength

/-- **The size of a statement** is its footprint, unless it breaks one of the first rules. -/
theorem size?_eq (before : List Statement) (s : Statement) :
    s.size? = ([Rule.operandCount, .storageLength, .size].findSome? (Rule.broken? before s)).elim
      (.ok s.footprint) .error := by
  simp only [List.findSome?_cons, List.findSome?_nil]
  by_cases hcount : s.mnemonic.arity.admits s.args.length = true
  · rw [show Rule.broken? before s .operandCount = none from if_pos hcount]
    cases hlength : Rule.broken? before s .storageLength with
    | some e =>
      rw [size?, form?_of_storageLength hcount hlength]
      rfl
    | none =>
      obtain ⟨form, hform⟩ := s.exists_form?_iff.2 (shaped_of_storageLength hcount hlength)
      simp only [size?_of_form? hform, size_of_form? hform, Rule.broken?]
      by_cases hfits : s.footprint ≤ 0xFFFF
      · rw [if_pos hfits, if_neg (Nat.not_lt.2 hfits)]
        rfl
      · rw [if_neg hfits, if_pos (Nat.lt_of_not_le hfits)]
        rfl
  · rw [size?, form?_of_count hcount, Rule.broken?, if_neg hcount]
    rfl

end Statement

namespace Layout

theorem bound_ofStatements (ss : List Statement) : (ofStatements ss).bound = labelTexts ss :=
  map_fst_labelsOf 0 ss

theorem start?_ofStatements (ss : List Statement) :
    (ofStatements ss).start?.isSome ↔ ∃ s ∈ ss, s.isStart := by
  conv_rhs => rw [← map_statement_placedFrom 0 ss]
  rw [start?_isSome, starts, List.countP_pos_iff]
  simp [ofStatements]

/-- **Binding a label** behind other statements succeeds unless one of them has it. -/
theorem bind?_ofStatements (before : List Statement) (s : Statement) :
    (ofStatements before).bind? s = (Rule.broken? before s .newLabel).elim
      (.ok (ofStatements (before ++ [s])).symbols) .error := by
  have hbound (name : String) :
      ((ofStatements before).symbols.get? name).isSome ↔ name ∈ labelTexts before := by
    rw [get?_isSome, bound_ofStatements]
  rw [Rule.broken?]
  cases hlabel : s.label with
  | none =>
    refine bind?_eq_ok.2 ⟨?_, by rw [ofStatements_concat]⟩
    simp [Statement.labelText?, hlabel]
  | some label =>
    by_cases hmem : label.text ∈ labelTexts before
    · have hold : (some label).filter (·.text ∈ labelTexts before) = some label := by simp [hmem]
      rw [hold]
      simp [bind?, hlabel, SymbolTable.define?, (hbound label.text).2 hmem]
    · have hnew : (some label).filter (·.text ∈ labelTexts before) = none := by simp [hmem]
      rw [hnew]
      refine bind?_eq_ok.2 ⟨?_, by rw [ofStatements_concat]⟩
      simpa [Statement.labelText?, hlabel, bound_ofStatements] using hmem

/-- **Placing a statement** behind others succeeds unless it breaks a rule. -/
theorem place?_ofStatements (before : List Statement) (s : Statement) :
    (ofStatements before).place? s =
      (s.violation? before).elim (.ok (ofStatements (before ++ [s]))) .error := by
  have hviolation : s.violation? before =
      ([Rule.operandCount, .storageLength, .size].findSome? (Rule.broken? before s)).or
        ((Rule.broken? before s .newLabel).or
          ([Rule.total, .oneStart].findSome? (Rule.broken? before s))) := by
    rw [← List.findSome?_singleton (f := Rule.broken? before s), ← List.findSome?_append,
      ← List.findSome?_append]
    rfl
  rw [place?, s.size?_eq before, bind?_ofStatements, hviolation]
  cases [Rule.operandCount, .storageLength, .size].findSome? (Rule.broken? before s) with
  | some e => rfl
  | none =>
  cases Rule.broken? before s .newLabel with
  | some e => rfl
  | none =>
  have hsize : (ofStatements before).size + s.footprint = footprints (before ++ [s]) := by
    simp [ofStatements]
  have hstart : s.mnemonic = .directive .start ∧ (ofStatements before).start?.isSome = true ↔
      s.isStart ∧ ∃ t ∈ before, t.isStart := by
    rw [start?_ofStatements, Statement.isStart, beq_iff_eq]
  simp only [Option.elim, Option.none_or, List.findSome?_cons, List.findSome?_nil, Rule.broken?,
    hsize, limit, hstart]
  by_cases htotal : 0xFFFF < footprints (before ++ [s])
  · rw [if_pos htotal, if_pos htotal]
  · rw [if_neg htotal, if_neg htotal]
    split
    · rfl
    · rw [← hsize, ofStatements_concat]
      rfl

/-! ## The loop -/

/-- What pass 1 ends with at an item where it stops: the error that the item is, that of the first
rule it breaks, or the layout up to END. -/
def stop? (before : List Statement) : Reading → Option (Except AsmError Layout)
  | .error e => some (.error e)
  | .ok none => none
  | .ok (some s) =>
    match s.violation? before with
    | some e => some (.error e)
    | none => if s.isFinish then some (.ok (ofStatements (before ++ [s]))) else none

/-- The statements among items. -/
def statements (items : List Reading) : List Statement := items.filterMap Reading.statement?

/-- **One item** ends the loop, or the loop goes on behind it. -/
theorem readOnto_cons (before : List Statement) (r : Reading) (rest : List Reading) :
    (ofStatements before).readOnto (r :: rest) =
      (stop? before r).elim ((ofStatements (before ++ statements [r])).readOnto rest)
        (·, rest) := by
  match r with
  | .error e => rfl
  | .ok none =>
    rw [readOnto, stop?, statements, List.filterMap_cons_none rfl]
    simp
  | .ok (some s) =>
    rw [readOnto, place?_ofStatements, stop?]
    cases s.violation? before with
    | some e => rfl
    | none =>
      by_cases hend : s.isFinish = true
      · simp [hend, beq_iff_eq.1 hend]
      · have hm : s.mnemonic ≠ .directive .finish := by simpa [Statement.isFinish] using hend
        simp [hend, hm, statements, Reading.statement?]

/-- Pass 1 stops at none of the items. -/
def Passes (items : List Reading) : Prop :=
  ∀ before r after, items = before ++ r :: after → stop? (statements before) r = none

variable {items : List Reading} {r : Reading}

theorem passes_concat :
    Passes (items ++ [r]) ↔ Passes items ∧ stop? (statements items) r = none := by
  constructor
  · intro h
    refine ⟨fun before r' after heq => h before r' (after ++ [r]) (by simp [heq]), ?_⟩
    exact h items r [] rfl
  · rintro ⟨hitems, hr⟩ before r' after heq
    rcases List.eq_nil_or_concat' after with rfl | ⟨after, last, rfl⟩
    · obtain ⟨rfl, hlast⟩ := List.append_inj' heq rfl
      rwa [← List.singleton_inj.1 hlast]
    · rw [← List.cons_append, ← List.append_assoc] at heq
      exact hitems before r' after (List.append_inj' heq rfl).1

/-- **The loop invariant**: behind items where the loop does not stop, it has placed their
statements. -/
theorem readOnto_of_passes (h : Passes items) (rest : List Reading) :
    readOnto {} (items ++ rest) = (ofStatements (statements items)).readOnto rest := by
  -- from the last item, which comes behind the statements of all the others
  induction items using List.reverseRecOn generalizing rest with
  | nil => rfl
  | append_singleton items r ih =>
    obtain ⟨hitems, hr⟩ := passes_concat.1 h
    rw [List.append_assoc, List.singleton_append, ih hitems, readOnto_cons, hr, statements,
      statements, statements, List.filterMap_append]
    rfl

theorem readOnto_of_stop {rest : List Reading} {o : Except AsmError Layout} (h : Passes items)
    (hr : stop? (statements items) r = some o) : readOnto {} (items ++ r :: rest) = (o, rest) := by
  rw [readOnto_of_passes h, readOnto_cons, hr]
  rfl

/-- The loop stops at none of the items, or at the first where it can. -/
theorem passes_or_stops (rs : List Reading) :
    Passes rs ∨ ∃ items r rest o, rs = items ++ r :: rest ∧ Passes items ∧
      stop? (statements items) r = some o := by
  induction rs using List.reverseRecOn with
  | nil => exact .inl fun before r after h => by simp at h
  | append_singleton rs r ih =>
    rcases ih with hrs | ⟨items, r', rest, o, rfl, hitems, hstop⟩
    · cases hr : stop? (statements rs) r with
      | none => exact .inl (passes_concat.2 ⟨hrs, hr⟩)
      | some o => exact .inr ⟨rs, r, [], o, rfl, hrs, hr⟩
    · exact .inr ⟨items, r', rest ++ [r], o, by simp, hitems, hstop⟩

/-- The outcome is an error, or a layout that ends with END. -/
def Final (o : Except AsmError Layout) : Prop :=
  ∀ l, o = .ok l → l.placed.back?.any (·.statement.isFinish)

/-- Items at which the loop does not stop do not end with END. -/
theorem not_final_of_passes (h : Passes items) : ¬Final (readOnto {} items).1 := by
  intro hfinal
  have hread := readOnto_of_passes h []
  rw [List.append_nil, readOnto] at hread
  have hlast := hfinal _ (congrArg Prod.fst hread)
  rcases List.eq_nil_or_concat' (statements items) with hnil | ⟨ss, s, hss⟩
  · rw [hnil] at hlast
    cases hlast
  · rw [hss, ofStatements_concat, place, Array.back?_push, Option.any_some] at hlast
    obtain ⟨r, hr, hs⟩ := List.mem_filterMap.1 (show s ∈ statements items by simp [hss])
    obtain ⟨before, after, heq⟩ := List.append_of_mem hr
    have hpasses := h before r after heq
    obtain rfl : r = .ok (some s) := by
      cases r with
      | error e => cases hs
      | ok s? => exact congrArg Except.ok hs
    rw [stop?] at hpasses
    split at hpasses
    · cases hpasses
    · rw [if_pos hlast] at hpasses
      cases hpasses

/-- **What follows a final outcome is not looked at.** -/
theorem readOnto_append_of_final {rs : List Reading} (h : Final (readOnto {} rs).1)
    (more : List Reading) : (readOnto {} (rs ++ more)).1 = (readOnto {} rs).1 := by
  rcases passes_or_stops rs with hrs | ⟨items, r, rest, o, rfl, hitems, hr⟩
  · exact absurd h (not_final_of_passes hrs)
  · rw [List.append_assoc, List.cons_append, readOnto_of_stop hitems hr, readOnto_of_stop hitems hr]

end Layout

namespace Assembly

open Layout

/-- A text that makes pass 1 fail or ends it makes whatever follows irrelevant. -/
theorem ofSource?_append_of_final {p : String} (hp : p.toList.getLast? = some '\n')
    (h : Final (ofLines? (Line.split p.toList))) (s : String) :
    Assembly.ofSource? (p ++ s) = Assembly.ofSource? p := by
  obtain ⟨q, hq⟩ := List.getLast?_eq_some_iff.1 hp
  obtain ⟨more, hmore⟩ := Line.split_append_newline q s.toList
  have hlines : Line.split (p ++ s).toList = Line.split p.toList ++ more := by
    rw [String.toList_append, hq, List.append_assoc, List.singleton_append, hmore]
  have hread : ofLines? (Line.split (p ++ s).toList) = ofLines? (Line.split p.toList) := by
    rw [hlines, ofLines?, List.map_append]
    exact readOnto_append_of_final h _
  rw [Assembly.ofSource?, hread, Assembly.ofSource?]

/-- **Pass 1 stops at the first item where it can**, with the error that the item is, that of the
first rule it breaks, or the layout up to END, and leaves the items behind it unread. So a text on
which it fails or ends with END can be followed by anything. -/
theorem stops_at_first :
    (∀ items r rest o, Passes items → stop? (statements items) r = some o →
      readOnto {} (items ++ r :: rest) = (o, rest)) ∧
    (∀ items, Passes items → readOnto {} items = (.ok (ofStatements (statements items)), [])) ∧
    (∀ rs, Passes rs ∨ ∃ items r rest o, rs = items ++ r :: rest ∧ Passes items ∧
      stop? (statements items) r = some o) ∧
    ∀ p s : String, p.toList.getLast? = some '\n' → Final (ofLines? (Line.split p.toList)) →
      Assembly.ofSource? (p ++ s) = Assembly.ofSource? p := by
  refine ⟨fun items r rest o => readOnto_of_stop, fun items hitems => ?_, passes_or_stops,
    fun p s hp h => ofSource?_append_of_final hp h s⟩
  rw [← List.append_nil items, readOnto_of_passes (by simpa using hitems), List.append_nil]
  rfl

/-- The text behind END would be an invalid label. -/
theorem stops_at_first_end :
    Assembly.ofSource? ("A DC 1\n END\n" ++ "?? what") = Assembly.ofSource? "A DC 1\n END\n" ∧
      ∃ a, Assembly.ofSource? "A DC 1\n END\n" = .ok a ∧ a.image = ⟨#[1], 0⟩ := by
  have htext : "A DC 1\n END\n".toList =
      ['A', ' ', 'D', 'C', ' ', '1', '\n', ' ', 'E', 'N', 'D', '\n'] := by simp
  let constant : Statement :=
    { label := some ⟨"A", ⟨0, 1⟩⟩, mnemonic := .directive .constant, mnemonicSpan := ⟨2, 2⟩
      args := [⟨.integer 1, "1", ⟨5, 1⟩, by decide⟩], line := 1, source := "A DC 1" }
  let finish : Statement :=
    { label := none, mnemonic := .directive .finish, mnemonicSpan := ⟨8, 3⟩, args := [], line := 2
      source := "END" }
  let l : Layout := ⟨#[⟨0, 1, constant⟩, ⟨1, 0, finish⟩], ⟨[("A", 0)]⟩, 1⟩
  have hl : ofLines? (Line.split "A DC 1\n END\n".toList) = .ok l := by
    rw [htext]
    decide +kernel
  have himage : l.image? l.symbols = .ok ⟨#[1], 0⟩ := rfl
  refine ⟨stops_at_first.2.2.2 _ _ (by rw [htext]; rfl) fun l' hl' => ?_, ⟨l, ⟨#[1], 0⟩⟩, ?_, rfl⟩
  · rw [hl] at hl'
    cases hl'
    rfl
  · rw [Assembly.ofSource?, hl]
    show (l.image? l.symbols >>= fun image => pure (Assembly.mk l image)) = _
    rw [himage]
    rfl

end Assembly

end Comet
