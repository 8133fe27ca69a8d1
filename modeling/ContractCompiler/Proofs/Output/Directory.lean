import ContractCompiler.Proofs.Contract.Characters
import ContractCompiler.Proofs.Emission

/-!
# Contracts in a directory

The path that a contract is written to is made from its name, and the sink does not look at the name. What keeps the files in the
directory is what the scanner takes for a word: no part of a path that goes anywhere but one step down. The class table keeps them
apart, since it has every name once.
-/

namespace ContractCompiler

variable {source : String}

/-! ## The names of classes -/

/-- Only a word gives a token that may name a class: a private name, a number, a string and a mark do not. -/
theorem Token.isWord_of_lexeme {offset : Nat} {c : Char} {cs : List Char} {name : String}
    (h : (lexeme offset c cs).kind.bindingName? = some name) : isWord name.toList = true := by
  unfold lexeme at h
  split at h
  · rename_i hstart
    have hname := (memberName?_word c cs).symm.trans (memberName?_of_bindingName? h)
    obtain rfl := Option.some.inj hname
    rw [String.toList_ofList]
    exact isWord_takeWhile hstart cs
  split at h
  · cases h
  split at h
  · cases h
  split at h
  · unfold Lexeme.privateName at h
    split at h <;> cases h
  split at h
  · cases h
  split at h
  · cases h
  · unfold Lexeme.mark at h
    split at h <;> cases h

/-- The name of a variable, a parameter or a class is a word. -/
theorem isWord_of_bindingName? {t : Token} (ht : t ∈ tokensOf source) {name : String} (h : t.kind.bindingName? = some name) :
    Token.isWord name.toList = true := by
  obtain ⟨scanned, hscanned, rfl⟩ := List.mem_map.mp ht
  rcases Token.exists_lexeme_of_mem hscanned with hend | ⟨start, c, rest, hkind⟩
  · rw [hend] at h
    cases h
  · rw [hkind] at h
    exact Token.isWord_of_lexeme h

/-- The name of a class of a source text is a word. -/
theorem ClassDecl.isWord_name {c : ClassDecl} (hc : c ∈ (parse source).file.classes) :
    Token.isWord c.name.name.toList = true := by
  obtain ⟨t, ht, -, hname⟩ := (readFrom_parse hc).name
  exact isWord_of_bindingName? ht hname

/-- A word is nothing but letters, digits and the two signs, and does not start with a digit. -/
theorem Token.chars_of_isWord {cs : List Char} (h : isWord cs = true) :
    cs ≠ [] ∧ (∀ c ∈ cs, isWordPart c = true) ∧ ∀ c ∈ cs.head?, c.isDigit = false := by
  cases cs with
  | nil => cases h
  | cons c cs =>
    rw [isWord, Bool.and_eq_true] at h
    obtain ⟨hstart, hparts⟩ := h
    refine ⟨by simp, ?_, ?_⟩
    · intro d hd
      rcases List.mem_cons.mp hd with rfl | hd
      · exact isWordPart_of_isWordStart hstart
      · exact List.all_eq_true.mp hparts d hd
    · intro d hd
      obtain rfl := Option.mem_some.mp hd
      rw [Bool.eq_false_iff]
      intro hdigit
      rw [not_isWordStart_of_isDigit hdigit] at hstart
      cases hstart

/-! ## Paths -/

/-- A path from the root is one whose first character is a slash. -/
theorem startsWith_slash_iff {path : String} : path.startsWith "/" = true ↔ path.toList.head? = some '/' := by
  rw [String.startsWith_string_iff]
  cases path.toList with
  | nil => simp
  | cons c cs => simp [eq_comm]

/-- Going through the parts of a path from where it starts. -/
theorem pathParts_eq_foldl (path : String) :
    pathParts path = ((path.toList.splitOn '/').map String.ofList).foldl movePart
      (if path.toList.head? = some '/' then [rootPart] else []) := by
  simp only [pathParts, pathStart, startsWith_slash_iff]

/-- A name that a path can end with to go one step down from where the rest of it leads. -/
structure IsFileName (name : String) : Prop where
  slash : '/' ∉ name.toList
  moves : ∀ here, movePart here name = here ++ [name]

/-- The place of a path is one step down, by the last part of it, from that of the characters in front of its last slash. -/
theorem pathParts_of_slash {path name : String} {cs : List Char} (h : IsFileName name)
    (hpath : path.toList = cs ++ '/' :: name.toList) :
    pathParts path = ((cs.splitOn '/').map String.ofList).foldl movePart
      (if (cs ++ ['/']).head? = some '/' then [rootPart] else []) ++ [name] := by
  have hname : name.toList.splitOn '/' = [name.toList] := List.splitOn_eq_singleton h.slash
  have hhead : path.toList.head? = (cs ++ ['/']).head? := by
    rw [hpath]
    cases cs <;> rfl
  rw [pathParts_eq_foldl, hhead, hpath, List.splitOn_append_cons_self, hname, List.map_append, List.foldl_append,
    List.map_singleton, String.ofList_toList, List.foldl_cons, List.foldl_nil, h.moves]

/-- A file name under a directory is one step down from it. -/
theorem pathParts_joinPath (dir : String) {name : String} (h : IsFileName name) :
    pathParts (joinPath dir name) = pathParts dir ++ [name] := by
  have hstart : name.toList.head? ≠ some '/' := fun hhead => h.slash (List.mem_of_mem_head? hhead)
  have hroot : ¬ name.startsWith "/" = true := fun hroot => hstart (startsWith_slash_iff.mp hroot)
  by_cases hempty : dir = ""
  · subst hempty
    have hjoin : joinPath "" name = name := by simp [joinPath]
    rw [hjoin, pathParts_eq_foldl, if_neg hstart, List.splitOn_eq_singleton h.slash, List.map_singleton,
      String.ofList_toList, List.foldl_cons, List.foldl_nil, h.moves]
    rfl
  by_cases hslash : dir.endsWith "/" = true
  · -- The slash that a directory ends with adds an empty part, which stays where it is.
    have hsuffix : "/".toList <:+ dir.toList := by
      rw [← String.endsWith_toSlice, String.Slice.endsWith_string_iff, String.copy_toSlice] at hslash
      exact hslash
    obtain ⟨cs, hdir⟩ := hsuffix
    have hjoin : (joinPath dir name).toList = cs ++ '/' :: name.toList := by
      simp [joinPath, hroot, hslash, ← hdir]
    have hplace : pathParts dir = ((cs.splitOn '/').map String.ofList).foldl movePart
        (if (cs ++ ['/']).head? = some '/' then [rootPart] else []) := by
      have hdir : dir.toList = cs ++ '/' :: [] := hdir.symm
      rw [pathParts_eq_foldl, hdir, List.splitOn_append_cons_self, List.map_append, List.foldl_append]
      rfl
    rw [pathParts_of_slash h hjoin, hplace]
  · have hjoin : (joinPath dir name).toList = dir.toList ++ '/' :: name.toList := by
      simp [joinPath, hroot, hempty, hslash]
    have hhead : (dir.toList ++ ['/']).head? = dir.toList.head? :=
      List.head?_append_of_ne_nil _ (by simpa using hempty)
    rw [pathParts_of_slash h hjoin, hhead, ← pathParts_eq_foldl]

/-- A word with an extension is the name of a file. -/
theorem isFileName_of_isWord {name : String} (h : Token.isWord name.toList = true) : IsFileName (name ++ ".sol") := by
  obtain ⟨hne, hparts, -⟩ := Token.chars_of_isWord h
  have hslash : '/' ∉ (name ++ ".sol").toList := by
    rw [String.toList_append, List.mem_append]
    rintro (hname | hsuffix)
    · exact absurd (hparts _ hname) (by decide)
    · exact absurd hsuffix (by decide)
  refine ⟨hslash, ?_⟩
  intro here
  have hlength : ∀ other : String, other.length ≤ 4 → name ++ ".sol" ≠ other := by
    rintro other hother rfl
    have hname : 0 < name.length := by
      rw [← String.length_toList]
      exact List.length_pos_of_ne_nil hne
    have hsum : (name ++ ".sol").length = name.length + 4 := String.length_append name ".sol"
    omega
  simp [movePart, hlength "" (by decide), hlength "." (by decide), hlength ".." (by decide)]

/-! ## Files -/

/-- After a file was written its path leads to its bytes, and other paths lead where they led. -/
theorem Files.lookup_write (fs : Files) (path : String) (bytes : List UInt8) (parts : List String) :
    (fs.write path bytes).lookup parts = if parts = pathParts path then some bytes else fs.lookup parts := by
  unfold lookup write
  by_cases hparts : parts = pathParts path
  · subst hparts
    have hold : (fs.entries.filter fun entry => entry.1 ≠ pathParts path).find? (fun entry => entry.1 = pathParts path) = none := by
      simp [List.find?_eq_none]
    rw [List.find?_append, hold, if_pos rfl]
    simp
  · have hold : (fs.entries.filter fun entry => entry.1 ≠ pathParts path).find? (fun entry => entry.1 = parts) =
        fs.entries.find? fun entry => entry.1 = parts := by
      rw [List.find?_filter]
      congr 1
      funext entry
      by_cases hentry : entry.1 = parts <;> simp [hentry, hparts]
    rw [List.find?_append, hold, if_neg hparts]
    simp [Ne.symm hparts]

/-! ## What the sink writes -/

/-- The path of the file that a contract is written to. -/
def Contract.path (dir : String) (c : Contract) : String := joinPath dir (c.name ++ ".sol")

/-- What is in a directory after contracts have been written to it one after the other. -/
theorem Sink.directory_of_takes {dir : String} {out out' : DirOutput} {contracts : List Contract}
    (h : (directory dir).Takes out contracts out') :
    out'.written = out.written ++ contracts.map (Contract.path dir) ∧
      (∀ parts, (∀ c ∈ contracts, parts ≠ pathParts (c.path dir)) → out'.files.lookup parts = out.files.lookup parts) ∧
      ((contracts.map fun c => pathParts (c.path dir)).Nodup →
        ∀ c ∈ contracts, out'.files.lookup (pathParts (c.path dir)) = some (Text.utf8Bytes (c.text ++ "\n"))) := by
  induction h with
  | nil out => simp
  | @cons out out' c contracts _ _ ih =>
    obtain ⟨hwritten, hothers, hheld⟩ := ih
    have hstep : ∀ parts, ((directory dir).emit out c).state.files.lookup parts =
        if parts = pathParts (c.path dir) then some (Text.utf8Bytes (c.text ++ "\n")) else out.files.lookup parts :=
      Files.lookup_write out.files (c.path dir) _
    refine ⟨?_, ?_, ?_⟩
    · rw [hwritten, List.map_cons]
      exact List.append_assoc ..
    · intro parts hparts
      obtain ⟨hc, hrest⟩ := List.forall_mem_cons.mp hparts
      rw [hothers parts hrest, hstep, if_neg hc]
    · intro hapart
      obtain ⟨hc, hrest⟩ := List.nodup_cons.mp hapart
      refine List.forall_mem_cons.mpr ⟨?_, hheld hrest⟩
      have hlast : ∀ d ∈ contracts, pathParts (c.path dir) ≠ pathParts (d.path dir) := by
        intro d hd heq
        exact hc (List.mem_map.mpr ⟨d, hd, heq.symm⟩)
      rw [hothers _ hlast, hstep, if_pos rfl]

/-- A directory refuses no contract. -/
theorem Outcome.takes_directory {dir indent : String} {b : Bindings} {out out' : DirOutput} {decls : List ClassDecl}
    {result : Except CompileError (List String)} {contracts : List Contract}
    (h : Outcome (Sink.directory dir) indent b out decls result out' contracts) :
    (Sink.directory dir).Takes out contracts out' := by
  cases h with
  | finished _ htakes => exact htakes
  | unwritten _ _ htakes _ => exact htakes
  | refused _ _ _ _ hfailure => cases hfailure

/-- Files of contracts lie in the directory itself, no two contracts of a run in the same file, and each file ends up with the text
of its contract and a line break. Nothing else in the files changes. The names of classes see to that, whatever the source. -/
theorem directory_output_confined (source : String) (options : Options) (dir : String) (out : DirOutput) :
    let file := (parse source).file
    let run := compileFile file options (Sink.directory dir) out
    let contracts := (compileFile file options (Sink.directory dir).recording (out, [])).sink.2
    let paths := contracts.map fun c => joinPath dir (c.name ++ ".sol")
    (∀ c ∈ file.classes, c.name.name ≠ "" ∧
        (∀ ch ∈ c.name.name.toList, ch.isAlphanum = true ∨ ch = '_' ∨ ch = '$') ∧
        ∀ ch ∈ c.name.name.toList.head?, ch.isDigit = false) ∧
      (run.sink.written = out.written ++ paths ∧ paths.Nodup ∧ (paths.map pathParts).Nodup) ∧
      (∀ c ∈ contracts, pathParts (joinPath dir (c.name ++ ".sol")) = pathParts dir ++ [c.name ++ ".sol"] ∧
        run.sink.files.lookup (pathParts dir ++ [c.name ++ ".sol"]) = some (Text.utf8Bytes (c.text ++ "\n"))) ∧
      (∀ parts, (∀ c ∈ contracts, parts ≠ pathParts dir ++ [c.name ++ ".sol"]) →
        run.sink.files.lookup parts = out.files.lookup parts) ∧
      ∀ names, run.result = .ok names → contracts.map Contract.name = names ∧ names = declaredClassNames file.classes := by
  intro file run contracts paths
  obtain ⟨calls, houtcome, -, hsink⟩ := emitClasses_recording (Sink.directory dir) options.indent
    (file.bindings options.receiver) (ClassTable.ofFile file).classes out []
  have hcalls : contracts = calls := congrArg Prod.snd hsink
  rw [← hcalls] at houtcome
  have hnames : contracts.map Contract.name <+: declaredClassNames file.classes :=
    ClassTable.names_ofFile file ▸ houtcome.names
  have hplace : ∀ c ∈ contracts, pathParts (c.path dir) = pathParts dir ++ [c.name ++ ".sol"] := by
    intro c hc
    obtain ⟨d, hd, hname⟩ := mem_declaredClassNames.mp (hnames.subset (List.mem_map_of_mem hc))
    have hword := d.isWord_name hd
    rw [hname] at hword
    exact pathParts_joinPath dir (isFileName_of_isWord hword)
  have hapart : (contracts.map fun c => pathParts (c.path dir)).Nodup := by
    have hkeys : (contracts.map fun c => pathParts (c.path dir)) =
        (contracts.map Contract.name).map fun name => pathParts dir ++ [name ++ ".sol"] := by
      rw [List.map_map]
      exact List.map_congr_left hplace
    rw [hkeys]
    refine (hnames.sublist.nodup (nodup_declaredClassNames file.classes)).map ?_
    intro name name' heq
    have hfile : name ++ ".sol" = name' ++ ".sol" := by simpa using heq
    exact (String.append_left_inj ".sol").mp hfile
  have hplaces : (paths.map pathParts).Nodup := by
    rw [List.map_map]
    exact hapart
  obtain ⟨hwritten, hothers, hheld⟩ := Sink.directory_of_takes houtcome.takes_directory
  refine ⟨?_, ⟨hwritten, hplaces.of_map, hplaces⟩, ?_, ?_, ?_⟩
  · intro c hc
    obtain ⟨hne, hparts, hdigit⟩ := Token.chars_of_isWord (c.isWord_name hc)
    refine ⟨by simpa using hne, ?_, hdigit⟩
    intro ch hch
    simpa [Token.isWordPart, or_assoc] using hparts ch hch
  · intro c hc
    exact ⟨hplace c hc, hplace c hc ▸ hheld hapart c hc⟩
  · intro parts hparts
    exact hothers parts fun c hc => hplace c hc ▸ hparts c hc
  · intro names hresult
    have hresult : (emitClasses (Sink.directory dir) options.indent (file.bindings options.receiver)
      (ClassTable.ofFile file).classes out).result = .ok names := hresult
    rw [hresult] at houtcome
    exact ClassTable.names_ofFile file ▸ houtcome.names_of_ok

end ContractCompiler
