import Comet.Proofs.Cli.Directory

/-!
# File names and their extensions

A path that ends in the name of a file, taken apart into folder, stem and extension (`SplitsAs`).
Its file has that name (`fileName?_append`) and that extension (`SplitsAs.extension?_eq`), and
replacing the extension leaves folder and stem (`SplitsAs.withExtension`). Every real name can be
taken apart, but for two dots before an extension without dots (`exists_splitsAs`), which leave the
name of a directory when the extension goes (`withExtension_dots`). Where a file is or can be
written, the path ends in a real name (`isReal_of_resolve?`).
-/

namespace Comet

namespace Path

/-- The path is a folder, the stem of a name in it and the extension of that name, if it has one. -/
structure SplitsAs (path folder stem : String) (extension : Option String) : Prop where
  path_eq : path = folder ++ stem ++ extension.elim "" ("." ++ ·)
  folder_ends : folder = "" ∨ folder.toList.getLast? = some '/'
  stem_ne : stem ≠ "" ∧ stem ≠ "."
  stem_slash : '/' ∉ stem.toList
  extension_plain : ∀ x ∈ extension, '/' ∉ x.toList ∧ '.' ∉ x.toList
  stem_dot : extension = none → '.' ∉ stem.toList.tail

/-- The name does not merely say a directory relative to another. -/
def IsReal (name : List Char) : Prop := name ≠ [] ∧ name ≠ ['.'] ∧ name ≠ ['.', '.']

variable {folder name stem extension : List Char}

/-! ## Names -/

/-- Splitting from the end passes over characters other than the one looked for. -/
theorem forall_mem_reverse_ne {c : Char} {cs : List Char} (h : c ∉ cs) :
    ∀ d ∈ cs.reverse, decide (d ≠ c) = true := by
  intro d hd
  have hne : d ≠ c := fun heq => h (heq ▸ List.mem_reverse.1 hd)
  simpa using hne

theorem withoutTail_append (hne : name ≠ [] ∧ name ≠ ['.']) (hslash : '/' ∉ name) :
    withoutTail (folder ++ name).reverse = (folder ++ name).reverse := by
  rw [List.reverse_append]
  rw [← List.mem_reverse] at hslash
  cases hname : name.reverse with
  | nil => exact absurd (List.reverse_eq_nil_iff.1 hname) hne.1
  | cons c cs =>
    rw [hname, List.mem_cons, not_or] at hslash
    cases cs with
    | nil =>
      -- The only character of the name is no dot, so what stands before it does not matter.
      have hdot : c ≠ '.' := by
        rintro rfl
        exact hne.2 (List.reverse_eq_iff.1 hname)
      unfold withoutTail
      split
      · next heq => exact absurd (List.cons.inj heq).1.symm hslash.1
      · next heq => exact absurd (List.cons.inj heq).1 hdot
      · rfl
    | cons c' cs =>
      rw [List.mem_cons, not_or] at hslash
      unfold withoutTail
      split
      · next heq => exact absurd (List.cons.inj heq).1.symm hslash.1
      · next heq => exact absurd (List.cons.inj (List.cons.inj heq).2).1.symm hslash.2.1
      · rfl

/-- What stands behind the last slash. -/
theorem takeWhile_append (hfolder : folder = [] ∨ folder.getLast? = some '/')
    (hne : name ≠ [] ∧ name ≠ ['.']) (hslash : '/' ∉ name) :
    (withoutTail (folder ++ name).reverse).takeWhile (· ≠ '/') = name.reverse := by
  have hfirst : folder.reverse.takeWhile (· ≠ '/') = [] := by
    rw [← List.head?_reverse] at hfolder
    cases hrev : folder.reverse with
    | nil => rfl
    | cons c cs =>
      have hc : c = '/' := by
        rcases hfolder with rfl | hfolder
        · cases hrev
        · simpa [hrev] using hfolder
      simp [hc]
  rw [withoutTail_append hne hslash, List.reverse_append,
    List.takeWhile_append_of_pos (forall_mem_reverse_ne hslash), hfirst, List.append_nil]

/-- **The file of a path** that ends in its name. -/
theorem fileName?_append (hfolder : folder = [] ∨ folder.getLast? = some '/') (hreal : IsReal name)
    (hslash : '/' ∉ name) : fileName? (String.ofList (folder ++ name)) = some name := by
  unfold fileName?
  simp only [String.toList_ofList, takeWhile_append hfolder ⟨hreal.1, hreal.2.1⟩ hslash,
    List.reverse_reverse]
  rw [if_neg (by simp [hreal.1, hreal.2.1, hreal.2.2])]

theorem fileName?_dots (hfolder : folder = [] ∨ folder.getLast? = some '/') :
    fileName? (String.ofList (folder ++ ['.', '.'])) = none := by
  have htake : (withoutTail (folder ++ ['.', '.']).reverse).takeWhile (· ≠ '/') =
      ['.', '.'].reverse := takeWhile_append hfolder (by simp) (by simp)
  unfold fileName?
  simp only [String.toList_ofList, htake]
  simp

theorem splitExtension_append (hstem : stem ≠ []) (hdot : '.' ∉ extension) :
    splitExtension (stem ++ '.' :: extension) = (stem, some extension) := by
  have hreversed : (stem ++ '.' :: extension).reverse =
      extension.reverse ++ '.' :: stem.reverse := by simp
  have hall := forall_mem_reverse_ne hdot
  unfold splitExtension
  simp only [hreversed, List.takeWhile_append_of_pos hall, List.dropWhile_append_of_pos hall]
  cases hrev : stem.reverse with
  | nil => exact absurd (List.reverse_eq_nil_iff.1 hrev) hstem
  | cons c cs => simp [List.reverse_eq_iff.1 hrev]

/-- A name without a dot behind its first character has no extension. -/
theorem splitExtension_of_not_mem_tail (h : '.' ∉ name.tail) :
    splitExtension name = (name, none) := by
  cases name with
  | nil => rfl
  | cons c cs =>
    have h : '.' ∉ cs := h
    unfold splitExtension
    simp only [List.reverse_cons, List.dropWhile_append_of_pos (forall_mem_reverse_ne h)]
    by_cases hc : c = '.' <;> simp [hc]

/-! ## Replacing -/

theorem extension?_append (hfolder : folder = [] ∨ folder.getLast? = some '/')
    (hreal : IsReal (stem ++ '.' :: extension)) (hslash : '/' ∉ stem ++ '.' :: extension)
    (hstem : stem ≠ []) (hdot : '.' ∉ extension) :
    extension? (String.ofList (folder ++ (stem ++ '.' :: extension))) =
      some (String.ofList extension) := by
  unfold extension?
  rw [fileName?_append hfolder hreal hslash]
  simp [splitExtension_append hstem hdot]

/-- The dot of an extension stays. -/
theorem dropExtension_append (hfolder : folder = [] ∨ folder.getLast? = some '/')
    (hreal : IsReal (stem ++ '.' :: extension)) (hslash : '/' ∉ stem ++ '.' :: extension)
    (hstem : stem ≠ []) (hdot : '.' ∉ extension) :
    dropExtension (String.ofList (folder ++ (stem ++ '.' :: extension))) =
      String.ofList (folder ++ (stem ++ ['.'])) := by
  unfold dropExtension
  rw [extension?_append hfolder hreal hslash hstem hdot]
  have hsplit :
      folder ++ (stem ++ '.' :: extension) = (folder ++ (stem ++ ['.'])) ++ extension := by
    simp
  have hlength : (folder ++ (stem ++ '.' :: extension)).length - extension.length =
      (folder ++ (stem ++ ['.'])).length := by
    rw [hsplit, List.length_append, Nat.add_sub_cancel]
  simp only [String.length_ofList, String.toList_ofList, hlength]
  rw [hsplit, List.take_left]

/-- Setting an extension keeps the folder and what the name has before its last dot. -/
theorem setExtension_append (hfolder : folder = [] ∨ folder.getLast? = some '/')
    (hreal : IsReal name) (hslash : '/' ∉ name) (new : String) :
    setExtension (String.ofList (folder ++ name)) new =
      String.ofList (folder ++ (splitExtension name).1) ++ "." ++ new := by
  unfold setExtension
  rw [fileName?_append hfolder hreal hslash]
  simp only [String.toList_ofList, withoutTail_append ⟨hreal.1, hreal.2.1⟩ hslash]
  rw [List.reverse_append, List.drop_left' List.length_reverse, List.reverse_reverse]

/-- Two dots before an extension without dots are what is left of the name. -/
theorem withExtension_dots (hfolder : folder = [] ∨ folder.getLast? = some '/')
    (hne : extension ≠ []) (hslash : '/' ∉ extension) (hdot : '.' ∉ extension) (new : String) :
    withExtension (String.ofList (folder ++ (['.'] ++ '.' :: extension))) new =
      String.ofList (folder ++ ['.', '.']) := by
  have hreal : IsReal (['.'] ++ '.' :: extension) := ⟨by simp, by simp, by simpa using hne⟩
  rw [withExtension, dropExtension_append hfolder hreal (by simpa using hslash)
    (List.cons_ne_nil _ _) hdot, List.singleton_append, setExtension, fileName?_dots hfolder]

/-! ## Paths taken apart -/

/-- A list is split at the last place of a character. -/
theorem exists_eq_append_of_mem {c : Char} {cs : List Char} (h : c ∈ cs) :
    ∃ front rest, cs = front ++ c :: rest ∧ c ∉ rest := by
  obtain ⟨rest, front, hsplit, hc⟩ := List.eq_append_cons_of_mem (List.mem_reverse.2 h)
  refine ⟨front.reverse, rest.reverse, ?_, by simpa using hc⟩
  rw [← List.reverse_reverse cs, hsplit]
  simp

/-- A path is a folder and what stands behind its last slash. -/
theorem exists_eq_append (path : String) :
    ∃ folder name, path = String.ofList (folder ++ name) ∧
      (folder = [] ∨ folder.getLast? = some '/') ∧ '/' ∉ name := by
  by_cases hmem : '/' ∈ path.toList
  · obtain ⟨front, name, hsplit, hslash⟩ := exists_eq_append_of_mem hmem
    refine ⟨front ++ ['/'], name, ?_, .inr (by simp), hslash⟩
    rw [List.append_assoc, List.singleton_append, ← hsplit, String.ofList_toList]
  · exact ⟨[], path.toList, by simp, .inl rfl, hmem⟩

/-- **Every real name** is a stem with or without an extension, or two dots before one. -/
theorem exists_splitsAs (hfolder : folder = [] ∨ folder.getLast? = some '/') (hreal : IsReal name)
    (hslash : '/' ∉ name) :
    (∃ stem extension, SplitsAs (String.ofList (folder ++ name)) (String.ofList folder) stem
        extension) ∨
      ∃ extension, name = ['.'] ++ '.' :: extension ∧ extension ≠ [] ∧ '.' ∉ extension := by
  have hfolder' : String.ofList folder = "" ∨ (String.ofList folder).toList.getLast? = some '/' :=
    hfolder.imp (fun hempty => by rw [hempty]) (fun hlast => by rwa [String.toList_ofList])
  have hne {stem : List Char} (hstem : stem ≠ [] ∧ stem ≠ ['.']) :
      String.ofList stem ≠ "" ∧ String.ofList stem ≠ "." := by
    simpa [← String.toList_inj] using hstem
  cases name with
  | nil => exact absurd rfl hreal.1
  | cons c cs =>
  by_cases hmem : '.' ∈ cs
  · obtain ⟨front, extension, rfl, hdot⟩ := exists_eq_append_of_mem hmem
    by_cases hdots : c :: front = ['.']
    · obtain ⟨rfl, rfl⟩ := List.cons.inj hdots
      exact .inr ⟨extension, rfl, by simpa using hreal.2.2, hdot⟩
    · refine .inl ⟨String.ofList (c :: front), some (String.ofList extension), ?_, hfolder',
        hne ⟨List.cons_ne_nil _ _, hdots⟩, ?_, ?_, nofun⟩
      · rw [← String.toList_inj]
        simp
      · rw [String.toList_ofList]
        exact fun hstem => hslash (List.mem_append_left _ hstem)
      · intro x hx
        obtain rfl := Option.mem_some_iff.1 hx
        rw [String.toList_ofList]
        exact ⟨fun hx => hslash (List.mem_append_right (c :: front) (.tail _ hx)), hdot⟩
  · refine .inl ⟨String.ofList (c :: cs), none, ?_, hfolder', hne ⟨hreal.1, hreal.2.1⟩, ?_, nofun,
      fun _ => ?_⟩
    · rw [← String.toList_inj]
      simp
    · rwa [String.toList_ofList]
    · rwa [String.toList_ofList]

namespace SplitsAs

variable {path folder stem : String} {extension : Option String}

theorem folder_eq (h : SplitsAs path folder stem extension) :
    folder.toList = [] ∨ folder.toList.getLast? = some '/' :=
  h.folder_ends.imp_left fun hempty => by rw [hempty]; rfl

theorem stem_ne_nil (h : SplitsAs path folder stem extension) : stem.toList ≠ [] :=
  fun heq => h.stem_ne.1 (String.toList_inj.1 heq)

/-- The stem alone is a name where there is no extension. -/
theorem isReal_stem (h : SplitsAs path folder stem none) : IsReal stem.toList := by
  refine ⟨h.stem_ne_nil, fun heq => h.stem_ne.2 ?_, fun heq => h.stem_dot rfl ?_⟩
  · exact String.toList_inj.1 heq
  · simp [heq]

/-- The stem and a dot, with or without an extension, are a name. -/
theorem isReal_append (h : SplitsAs path folder stem extension) (x : List Char) :
    IsReal (stem.toList ++ '.' :: x) := by
  have hdot : stem.toList ≠ ['.'] := fun heq => h.stem_ne.2 (String.toList_inj.1 heq)
  unfold IsReal
  cases hstem : stem.toList with
  | nil => exact absurd hstem h.stem_ne_nil
  | cons c cs =>
    refine ⟨by simp, by simp, fun heq => hdot ?_⟩
    simp only [List.cons_append, List.cons.injEq] at heq
    obtain ⟨rfl, heq⟩ := heq
    cases cs with
    | nil => exact hstem
    | cons c cs => simp at heq

theorem slash_not_mem {x : List Char} (h : SplitsAs path folder stem extension) (hx : '/' ∉ x) :
    '/' ∉ stem.toList ++ '.' :: x := by
  simp [h.stem_slash, hx]

theorem eq_of_some {old : String} (h : SplitsAs path folder stem (some old)) :
    path = String.ofList (folder.toList ++ (stem.toList ++ '.' :: old.toList)) := by
  rw [h.path_eq, ← String.toList_inj]
  simp

theorem eq_of_none (h : SplitsAs path folder stem none) :
    path = String.ofList (folder.toList ++ stem.toList) := by
  rw [h.path_eq, ← String.toList_inj]
  simp

/-- **The extension** of the file. -/
theorem extension?_eq (h : SplitsAs path folder stem extension) : extension? path = extension := by
  cases extension with
  | none =>
    rw [h.eq_of_none, extension?, fileName?_append h.folder_eq h.isReal_stem h.stem_slash]
    simp [splitExtension_of_not_mem_tail (h.stem_dot rfl)]
  | some old =>
    obtain ⟨hslash, hdot⟩ := h.extension_plain old rfl
    rw [h.eq_of_some, extension?_append h.folder_eq (h.isReal_append _) (h.slash_not_mem hslash)
      h.stem_ne_nil hdot, String.ofList_toList]

/-- The path up to its extension, and what its file is called before that. -/
theorem dropExtension_eq (h : SplitsAs path folder stem extension) :
    ∃ name, dropExtension path = String.ofList (folder.toList ++ name) ∧ IsReal name ∧
      '/' ∉ name ∧ (splitExtension name).1 = stem.toList := by
  cases extension with
  | none =>
    refine ⟨stem.toList, ?_, h.isReal_stem, h.stem_slash, ?_⟩
    · rw [dropExtension, h.extension?_eq]
      exact h.eq_of_none
    · rw [splitExtension_of_not_mem_tail (h.stem_dot rfl)]
  | some old =>
    obtain ⟨hslash, hdot⟩ := h.extension_plain old rfl
    refine ⟨stem.toList ++ ['.'], ?_, h.isReal_append [], h.slash_not_mem List.not_mem_nil, ?_⟩
    · rw [h.eq_of_some]
      exact dropExtension_append h.folder_eq (h.isReal_append _) (h.slash_not_mem hslash)
        h.stem_ne_nil hdot
    · rw [splitExtension_append h.stem_ne_nil List.not_mem_nil]

/-- **Replacing the extension** changes nothing else. -/
theorem withExtension {new : String} (h : SplitsAs path folder stem extension)
    (hnew : '/' ∉ new.toList ∧ '.' ∉ new.toList) :
    SplitsAs (withExtension path new) folder stem (some new) where
  path_eq := by
    obtain ⟨name, hdrop, hreal, hslash, hstem⟩ := h.dropExtension_eq
    rw [Path.withExtension, hdrop, setExtension_append h.folder_eq hreal hslash, hstem,
      ← String.toList_inj]
    simp
  folder_ends := h.folder_ends
  stem_ne := h.stem_ne
  stem_slash := h.stem_slash
  extension_plain := by simpa using hnew
  stem_dot := nofun

end SplitsAs

end Path

/-! ## Names in a directory -/

/-- The last component of a path is what stands behind its last slash. -/
theorem Path.exists_components_append {folder name : List Char}
    (hfolder : folder = [] ∨ folder.getLast? = some '/') (hslash : '/' ∉ name) :
    ∃ front, components (String.ofList (folder ++ name)) = front ++ [String.ofList name] := by
  unfold components
  rw [String.toList_ofList]
  rcases hfolder with rfl | hfolder
  · exact ⟨[], componentsOnto_of_not_mem [] hslash⟩
  · obtain ⟨front, rfl⟩ := List.getLast?_eq_some_iff.1 hfolder
    refine ⟨componentsOnto [] [] front, ?_⟩
    rw [List.append_assoc, List.singleton_append, componentsOnto_append_slash,
      componentsOnto_of_not_mem [] hslash]
    rfl

namespace Directory

variable {here : List String} {d : Directory here} {place : List String}

theorem isDirectory_dropLast (h : d.isDirectory place = true) :
    d.isDirectory place.dropLast = true := by
  unfold isDirectory at h ⊢
  rw [Bool.or_eq_true, List.any_eq_true] at h ⊢
  rcases h with hprefix | ⟨⟨other, bytes⟩, hmem, hinside⟩
  · rw [List.isPrefixOf_iff_prefix] at hprefix ⊢
    exact .inl ((List.dropLast_prefix place).trans hprefix)
  · refine .inr ⟨(other, bytes), hmem, ?_⟩
    simp only [Bool.and_eq_true, decide_eq_true_eq, beq_iff_eq, List.length_dropLast] at hinside ⊢
    obtain ⟨hshort, htake⟩ := hinside
    refine ⟨by omega, ?_⟩
    calc other.take (place.length - 1)
      _ = (other.take place.length).take (place.length - 1) := by
        rw [List.take_take, Nat.min_eq_left (Nat.sub_le _ _)]
      _ = place.dropLast := by rw [htake, List.dropLast_eq_take]

/-- A path that leads to no directory ends in a real name. -/
theorem isReal_of_resolve? {folder name : List Char}
    (hfolder : folder = [] ∨ folder.getLast? = some '/') (hslash : '/' ∉ name)
    (hresolve : d.resolve? (String.ofList (folder ++ name)) = some place)
    (hplace : d.isDirectory place = false) : Path.IsReal name := by
  obtain ⟨front, hcomponents⟩ := Path.exists_components_append hfolder hslash
  unfold resolve? at hresolve
  split at hresolve
  · cases hresolve
  rw [hcomponents, follow?_append] at hresolve
  obtain ⟨start, -, hlast⟩ := Option.bind_eq_some_iff.1 hresolve
  have hne (c : String) : String.ofList name = c ↔ name = c.toList := by
    rw [← String.toList_inj, String.toList_ofList]
  rw [follow?] at hlast
  split at hlast
  · cases hlast
  next hstart =>
  rw [Bool.not_eq_false] at hstart
  split at hlast
  · cases hlast
    exact absurd hstart (by simp [hplace])
  next hreal =>
  split at hlast
  · cases hlast
    exact absurd (isDirectory_dropLast hstart) (by simp [hplace])
  next hup =>
  rw [not_or] at hreal
  simp only [hne] at hreal hup
  exact ⟨hreal.1, hreal.2, hup⟩

end Directory

end Comet
