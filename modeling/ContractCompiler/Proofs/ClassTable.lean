import ContractCompiler.Binding.ClassTable
import Mathlib.Data.List.Basic
import Mathlib.Data.List.Induction
import Mathlib.Data.List.Nodup

/-!
# What the class table holds

The table of a list of declarations has one class for each declared name: the names stand in the order of
their first declarations, and each one leads to its last declaration.
-/

namespace ContractCompiler

/-- The names of some declarations, each once, in the order in which they are first declared. -/
def declaredClassNames (decls : List ClassDecl) : List String :=
  (decls.map fun c => c.name.name).eraseDups

/-- The last of some declarations that has the given name. -/
def lastNamed? (decls : List ClassDecl) (name : String) : Option ClassDecl :=
  decls.reverse.find? fun c => c.name.name = name

/-- The names are those of the declarations. -/
theorem mem_declaredClassNames {decls : List ClassDecl} {name : String} :
    name ∈ declaredClassNames decls ↔ ∃ c ∈ decls, c.name.name = name := by
  simp [declaredClassNames, List.mem_eraseDups]

/-- One more declaration adds its name at the end, unless the name is declared already. -/
theorem declaredClassNames_snoc (decls : List ClassDecl) (d : ClassDecl) :
    declaredClassNames (decls ++ [d]) =
      if d.name.name ∈ declaredClassNames decls then declaredClassNames decls
      else declaredClassNames decls ++ [d.name.name] := by
  have hmem : d.name.name ∈ declaredClassNames decls ↔ d.name.name ∈ decls.map fun c => c.name.name := by
    rw [declaredClassNames, List.mem_eraseDups]
  simp only [hmem]
  unfold declaredClassNames
  rw [List.map_append, List.map_singleton, List.eraseDups_append, List.removeAll]
  by_cases h : d.name.name ∈ decls.map fun c => c.name.name
  · rw [if_pos h, List.filter_cons_of_neg (by simpa using h), List.filter_nil, List.eraseDups_nil, List.append_nil]
  · rw [if_neg h, List.filter_cons_of_pos (by simpa using h), List.filter_nil]
    rfl

/-- Each name is listed once. -/
theorem nodup_declaredClassNames (decls : List ClassDecl) : (declaredClassNames decls).Nodup := by
  induction decls using List.reverseRecOn with
  | nil => exact List.nodup_nil
  | append_singleton decls d ih =>
    rw [declaredClassNames_snoc]
    split
    · exact ih
    · rename_i h
      refine List.nodup_append.mpr ⟨ih, List.nodup_singleton _, fun a ha b hb => ?_⟩
      rw [List.mem_singleton.mp hb]
      exact fun heq => h (heq ▸ ha)

/-- A declaration at the end is the last one of its name. -/
theorem lastNamed?_snoc (decls : List ClassDecl) (d : ClassDecl) (name : String) :
    lastNamed? (decls ++ [d]) name = if d.name.name = name then some d else lastNamed? decls name := by
  unfold lastNamed?
  rw [List.reverse_append, List.reverse_singleton, List.singleton_append, List.find?_cons]
  split
  · rename_i h
    rw [if_pos (of_decide_eq_true h)]
  · rename_i h
    rw [if_neg (of_decide_eq_false h)]

/-- What is found under a name has that name. -/
theorem name_of_lastNamed? {decls : List ClassDecl} {name : String} {c : ClassDecl}
    (h : lastNamed? decls name = some c) : c.name.name = name := by
  simpa using List.find?_some h

/-- What is found is one of the declarations. -/
theorem mem_of_lastNamed? {decls : List ClassDecl} {name : String} {c : ClassDecl}
    (h : lastNamed? decls name = some c) : c ∈ decls :=
  List.mem_reverse.mp (List.mem_of_find?_eq_some h)

/-- A declared name has a last declaration. -/
theorem exists_lastNamed? {decls : List ClassDecl} {name : String} (h : name ∈ declaredClassNames decls) :
    ∃ c, lastNamed? decls name = some c := by
  obtain ⟨c, hc, hn⟩ := mem_declaredClassNames.mp h
  apply Option.isSome_iff_exists.mp
  rw [lastNamed?, List.find?_isSome]
  exact ⟨c, List.mem_reverse.mpr hc, by simp [hn]⟩

/-- The last declarations of declared names have these names. -/
theorem names_of_last (decls : List ClassDecl) {names : List String}
    (h : ∀ n ∈ names, n ∈ declaredClassNames decls) :
    (names.filterMap (lastNamed? decls)).map (fun c => c.name.name) = names := by
  induction names with
  | nil => rfl
  | cons n ns ih =>
    obtain ⟨c, hc⟩ := exists_lastNamed? (h n List.mem_cons_self)
    rw [List.filterMap_cons_some hc, List.map_cons, name_of_lastNamed? hc,
      ih fun m hm => h m (List.mem_cons_of_mem n hm)]

namespace ClassTable

/-- The table of some declarations. -/
theorem foldl_insert_snoc (decls : List ClassDecl) (d : ClassDecl) :
    (decls ++ [d]).foldl insert empty = (decls.foldl insert empty).insert d := by
  rw [List.foldl_append, List.foldl_cons, List.foldl_nil]

/-- The classes of the table are the last declarations of the declared names, in the order in which the
names are first declared. -/
theorem classes_foldl_insert (decls : List ClassDecl) :
    (decls.foldl insert empty).classes = (declaredClassNames decls).filterMap (lastNamed? decls) := by
  induction decls using List.reverseRecOn with
  | nil => rfl
  | append_singleton decls d ih =>
    have hnames : (decls.foldl insert empty).names = declaredClassNames decls := by
      rw [names, ih]
      exact names_of_last decls fun _ h => h
    have hcontains : (decls.foldl insert empty).contains d.name.name = true ↔
        d.name.name ∈ declaredClassNames decls := by
      rw [contains, hnames, List.contains_iff_mem]
    rw [foldl_insert_snoc, declaredClassNames_snoc, insert]
    by_cases hd : d.name.name ∈ declaredClassNames decls
    · rw [if_pos (hcontains.mpr hd), if_pos hd, ih, List.map_filterMap]
      refine List.filterMap_congr fun n hn => ?_
      obtain ⟨c, hc⟩ := exists_lastNamed? hn
      rw [lastNamed?_snoc, hc, Option.map_some, name_of_lastNamed? hc]
      by_cases hdn : n = d.name.name
      · rw [if_pos hdn, if_pos hdn.symm]
      · rw [if_neg hdn, if_neg (Ne.symm hdn)]
    · rw [if_neg (fun h => hd (hcontains.mp h)), if_neg hd, ih, List.filterMap_append]
      have hlast : lastNamed? (decls ++ [d]) d.name.name = some d := by rw [lastNamed?_snoc, if_pos rfl]
      have hold : (declaredClassNames decls).filterMap (lastNamed? (decls ++ [d])) =
          (declaredClassNames decls).filterMap (lastNamed? decls) := by
        refine List.filterMap_congr fun n hn => ?_
        have hne : d.name.name ≠ n := fun h => hd (h ▸ hn)
        rw [lastNamed?_snoc, if_neg hne]
      rw [hold, List.filterMap_cons_some hlast, List.filterMap_nil]

/-- The classes of a file's table, by name: the last declaration of every name, where it is first
declared. -/
theorem classes_ofFile (file : SourceFile) :
    (ofFile file).classes = (declaredClassNames file.classes).filterMap (lastNamed? file.classes) :=
  classes_foldl_insert file.classes

/-- The table has the names of the classes in the order of their first declarations. -/
theorem names_ofFile (file : SourceFile) : (ofFile file).names = declaredClassNames file.classes := by
  rw [names, classes_ofFile]
  exact names_of_last file.classes fun _ h => h

/-- The classes of the table are different classes of the file. -/
theorem classes_nodup (file : SourceFile) : (ofFile file).classes.Nodup :=
  List.Nodup.of_map _ (names_ofFile file ▸ nodup_declaredClassNames file.classes : (ofFile file).names.Nodup)

/-- Every class of the table is declared in the file. -/
theorem mem_of_mem_classes {file : SourceFile} {c : ClassDecl} (h : c ∈ (ofFile file).classes) : c ∈ file.classes := by
  rw [classes_ofFile] at h
  obtain ⟨name, -, hname⟩ := List.mem_filterMap.mp h
  exact mem_of_lastNamed? hname

/-- The table knows exactly the names of the classes of the file. -/
theorem contains_ofFile (file : SourceFile) (name : String) :
    (ofFile file).contains name = true ↔ ∃ c ∈ file.classes, c.name.name = name := by
  rw [contains, names_ofFile, List.contains_iff_mem, mem_declaredClassNames]

end ClassTable

end ContractCompiler
