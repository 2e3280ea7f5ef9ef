import Comet.Cli.Directory
import Mathlib

/-!
# Writing to a directory

A path that names a file leads to a place of that name (`getLast?_of_resolve?`), so files of
different extensions are never at one place (`resolve?_ne_of_extension?_ne`). Writing at a place
leaves every other one as it was: what could be followed still can (`follow?_put`), the bytes
written are there to be read (`read?_of_write?`), and so is every other file
(`read?_of_write?_of_ne`).
-/

namespace Comet

/-! ## The name at the end of a path -/

namespace Path

theorem componentsOnto_eq_append (done : List String) (current cs : List Char) :
    componentsOnto done current cs = done.reverse ++ componentsOnto [] current cs := by
  induction cs generalizing done current with
  | nil => simp [componentsOnto]
  | cons c cs ih =>
    rw [componentsOnto, componentsOnto]
    split
    · rw [ih, ih [_], List.reverse_cons]
      simp
    · exact ih done (c :: current)

/-- A slash parts the components. -/
theorem componentsOnto_append_slash (current cs ds : List Char) :
    componentsOnto [] current (cs ++ '/' :: ds) =
      componentsOnto [] current cs ++ componentsOnto [] [] ds := by
  induction cs generalizing current with
  | nil => exact componentsOnto_eq_append [String.ofList current.reverse] [] ds
  | cons c cs ih =>
    rw [List.cons_append, componentsOnto, componentsOnto]
    split
    · rw [componentsOnto_eq_append, ih, componentsOnto_eq_append [_] [] cs, List.append_assoc]
    · exact ih (c :: current)

theorem componentsOnto_of_not_mem {cs : List Char} (current : List Char) (h : '/' ∉ cs) :
    componentsOnto [] current cs = [String.ofList (current.reverse ++ cs)] := by
  induction cs generalizing current with
  | nil => simp [componentsOnto]
  | cons c cs ih =>
    rw [List.mem_cons, not_or] at h
    rw [componentsOnto, if_neg (Ne.symm h.1), ih (c :: current) h.2, List.reverse_cons,
      List.append_assoc, List.singleton_append]

/-- Behind the name in a path are no components but empty and current-directory ones. -/
theorem exists_componentsOnto_eq (reversed : List Char) :
    ∃ front tail, componentsOnto [] [] reversed.reverse =
        front ++ String.ofList ((withoutTail reversed).takeWhile (· ≠ '/')).reverse :: tail ∧
      ∀ c ∈ tail, c = "" ∨ c = "." := by
  fun_induction withoutTail reversed with
  | case1 cs ih =>
    obtain ⟨front, tail, hcomponents, htail⟩ := ih
    refine ⟨front, tail ++ [""], ?_, ?_⟩
    · rw [List.reverse_cons, componentsOnto_append_slash, hcomponents]
      simp [componentsOnto]
    · simpa [or_imp, forall_and] using htail
  | case2 cs ih =>
    obtain ⟨front, tail, hcomponents, htail⟩ := ih
    refine ⟨front, tail ++ ["."], ?_, ?_⟩
    · have hsplit : ('.' :: '/' :: cs).reverse = cs.reverse ++ '/' :: ['.'] := by simp
      rw [hsplit, componentsOnto_append_slash, hcomponents, componentsOnto_of_not_mem [] (by simp)]
      simp
    · simpa [or_imp, forall_and] using htail
  | case3 cs =>
    have hname : '/' ∉ (cs.takeWhile (· ≠ '/')).reverse := by
      intro hmem
      simpa using List.mem_takeWhile_imp (List.mem_reverse.1 hmem)
    have hcs := List.takeWhile_append_dropWhile (p := (· ≠ '/')) (l := cs)
    cases hdrop : cs.dropWhile (· ≠ '/') with
    | nil =>
      rw [hdrop, List.append_nil] at hcs
      refine ⟨[], [], ?_, by simp⟩
      conv_lhs => rw [← hcs]
      exact componentsOnto_of_not_mem [] hname
    | cons c rest =>
      have hslash := List.head?_dropWhile_not (· ≠ '/') cs
      rw [hdrop] at hslash hcs
      obtain rfl : c = '/' := by simpa using hslash
      refine ⟨componentsOnto [] [] rest.reverse, [], ?_, by simp⟩
      conv_lhs => rw [← hcs]
      rw [List.reverse_append, List.reverse_cons, List.append_assoc, List.singleton_append,
        componentsOnto_append_slash, componentsOnto_of_not_mem [] hname]
      rfl

end Path

namespace Directory

variable {here : List String} {d d' : Directory here} {path other : String}
  {place place' : List String} {bytes : List UInt8}

/-! ## Following a path -/

theorem follow?_append (d : Directory here) (place cs cs' : List String) :
    d.follow? place (cs ++ cs') = (d.follow? place cs).bind fun place => d.follow? place cs' := by
  induction cs generalizing place with
  | nil => rfl
  | cons c cs ih =>
    rw [List.cons_append, follow?, follow?]
    split
    · rfl
    split
    · exact ih place
    split
    · exact ih place.dropLast
    split
    · rfl
    · exact ih (place ++ [c])

/-- Empty and current-directory components lead nowhere else. -/
theorem eq_of_follow?_tail {tail : List String} (htail : ∀ c ∈ tail, c = "" ∨ c = ".")
    (h : d.follow? place tail = some place') : place' = place := by
  induction tail with
  | nil => exact (Option.some.inj h).symm
  | cons c tail ih =>
    rw [List.forall_mem_cons] at htail
    rw [follow?, if_pos htail.1] at h
    split at h
    · cases h
    · exact ih htail.2 h

/-- **A file is where its name says**: a path that names a file leads to a place of that name. -/
theorem getLast?_of_resolve? {name : List Char} (h : d.resolve? path = some place)
    (hname : Path.fileName? path = some name) : place.getLast? = some (String.ofList name) := by
  obtain ⟨front, tail, hcomponents, htail⟩ := Path.exists_componentsOnto_eq path.toList.reverse
  rw [List.reverse_reverse] at hcomponents
  unfold Path.fileName? at hname
  simp only at hname
  split at hname
  · cases hname
  next hreal =>
  rw [Option.some.inj hname] at hcomponents hreal
  unfold resolve? at h
  split at h
  · cases h
  rw [Path.components, hcomponents, follow?_append] at h
  obtain ⟨folder, -, h⟩ := Option.bind_eq_some_iff.1 h
  have hne (c : String) : String.ofList name = c ↔ name = c.toList := by
    rw [← String.toList_inj, String.toList_ofList]
  rw [not_or, not_or] at hreal
  rw [follow?, if_neg (show ¬(String.ofList name = "" ∨ String.ofList name = ".") by
    simp [hne, hreal]), if_neg (show ¬String.ofList name = ".." by simp [hne, hreal])] at h
  split at h
  · cases h
  split at h
  · cases h
  · rw [eq_of_follow?_tail htail h, List.getLast?_concat]

/-- Files of different extensions are at different places. -/
theorem resolve?_ne_of_extension?_ne {x y : String} (h : d.resolve? path = some place)
    (h' : d.resolve? other = some place') (hx : Path.extension? path = some x)
    (hy : Path.extension? other = some y) (hne : x ≠ y) : place ≠ place' := by
  rintro rfl
  obtain ⟨name, hname, hx⟩ := Option.bind_eq_some_iff.1 hx
  obtain ⟨name', hname', hy⟩ := Option.bind_eq_some_iff.1 hy
  have hlast := (getLast?_of_resolve? h hname).symm.trans (getLast?_of_resolve? h' hname')
  rw [String.ofList_injective (Option.some.inj hlast), hy] at hx
  exact hne (Option.some.inj hx).symm

/-! ## Putting a file at a place -/

/-- The directory with these bytes at a place. -/
def put (d : Directory here) (place : List String) (bytes : List UInt8) : Directory here :=
  ⟨(place, bytes) :: d.files.filter fun (other, _) => other != place⟩

theorem write?_eq_some : d.write? path bytes = some d' ↔
    ∃ place, d.resolve? path = some place ∧ d.isDirectory place = false ∧
      d' = d.put place bytes := by
  simp only [write?, Option.bind_eq_bind, Option.bind_eq_some_iff]
  refine exists_congr fun place => and_congr_right fun _ => ?_
  cases d.isDirectory place with
  | true => simp
  | false => exact Option.some_inj.trans (eq_comm.trans (by simp [put]))

theorem file?_put (d : Directory here) (place other : List String) (bytes : List UInt8) :
    (d.put place bytes).file? other = if other = place then some bytes else d.file? other := by
  unfold put file?
  rw [List.lookup_cons]
  split
  · next h => simp [eq_of_beq h]
  next h =>
  have hne : other ≠ place := by simpa using h
  rw [if_neg hne]
  induction d.files with
  | nil => rfl
  | cons entry files ih =>
    obtain ⟨key, value⟩ := entry
    by_cases hkey : key = place
    · rw [List.filter_cons_of_neg (by simp [hkey]), ih, List.lookup_cons, hkey, h]
    · rw [List.filter_cons_of_pos (by simp [hkey]), List.lookup_cons, List.lookup_cons, ih]

theorem isDirectory_put (bytes : List UInt8) (h : d.isDirectory place' = true) :
    (d.put place bytes).isDirectory place' = true := by
  unfold isDirectory at h ⊢
  rw [Bool.or_eq_true, List.any_eq_true] at h ⊢
  refine h.imp_right fun ⟨⟨key, value⟩, hmem, hinside⟩ => ?_
  by_cases hkey : key = place
  · exact ⟨(place, bytes), List.mem_cons_self, hkey ▸ hinside⟩
  · exact ⟨(key, value), List.mem_cons_of_mem _ (List.mem_filter.2 ⟨hmem, by simp [hkey]⟩), hinside⟩

/-- What can be followed still can be after a file is put somewhere. -/
theorem follow?_put (bytes : List UInt8) {start : List String} {cs : List String}
    (h : d.follow? start cs = some place') :
    (d.put place bytes).follow? start cs = some place' := by
  induction cs generalizing start with
  | nil => exact h
  | cons c cs ih =>
    rw [follow?] at h ⊢
    split at h
    · cases h
    next hdir =>
    rw [if_neg (by simp [isDirectory_put bytes (by simpa using hdir)])]
    split at h
    · next hc => rw [if_pos hc]; exact ih h
    next hc =>
    rw [if_neg hc]
    split at h
    · next hup => rw [if_pos hup]; exact ih h
    next hup =>
    rw [if_neg hup]
    split at h
    · cases h
    · next hlong => rw [if_neg hlong]; exact ih h

theorem resolve?_put (place : List String) (bytes : List UInt8)
    (h : d.resolve? path = some place') : (d.put place bytes).resolve? path = some place' := by
  unfold resolve? at h ⊢
  split at h
  · cases h
  · next hpath => rw [if_neg hpath]; exact follow?_put bytes h

/-! ## Writing a file -/

/-- **What has been written is read.** -/
theorem read?_of_write? (h : d.write? path bytes = some d') : d'.read? path = some bytes := by
  obtain ⟨place, hplace, -, rfl⟩ := write?_eq_some.1 h
  rw [read?, resolve?_put place bytes hplace, Option.bind_some, file?_put, if_pos rfl]

/-- **Files of another extension are not written over.** -/
theorem read?_of_write?_of_ne {x y : String} {contents : List UInt8}
    (h : d.write? path bytes = some d') (hread : d.read? other = some contents)
    (hx : Path.extension? path = some x) (hy : Path.extension? other = some y) (hne : x ≠ y) :
    d'.read? other = some contents := by
  obtain ⟨place, hplace, -, rfl⟩ := write?_eq_some.1 h
  obtain ⟨place', hplace', hfile⟩ := Option.bind_eq_some_iff.1 hread
  have hother := resolve?_ne_of_extension?_ne hplace hplace' hx hy hne
  rw [read?, resolve?_put place bytes hplace', Option.bind_some, file?_put, if_neg hother.symm,
    hfile]

end Directory

end Comet
