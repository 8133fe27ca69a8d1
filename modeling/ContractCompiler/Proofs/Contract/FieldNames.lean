import ContractCompiler.Proofs.Contract.Layout

/-!
# Names of the variables of a contract

A property is written under its name without the private marker. Two properties of a class that have different names are
therefore written under different names, except where one of them has the other's name behind a marker: these two share a
line's name in the contract.
-/

namespace ContractCompiler

/-! ## Names without their marker -/

/-- The first name is the second one behind a private marker, and the second one has no marker. -/
def Marks (name other : String) : Prop := name = "#" ++ other ∧ ¬ ['#'] <+: other.toList

instance (name other : String) : Decidable (Marks name other) := inferInstanceAs (Decidable (_ ∧ _))

/-- Without its marker a private name is what stands behind it. -/
theorem bareName_of_marker (other : String) : bareName ("#" ++ other) = other := by
  simp [bareName, privateMarker]

/-- A public name has no marker to be taken off. -/
theorem bareName_of_public {name : String} (h : ¬ ['#'] <+: name.toList) : bareName name = name := by
  unfold bareName
  split
  case h_1 c cs hcs =>
    rw [hcs] at h
    refine if_neg fun hc => h ?_
    rw [hc]
    exact List.prefix_append ['#'] cs
  case h_2 => rfl

/-- A name is a marker and the bare name, or has no marker and is the bare name. -/
theorem eq_marker_or_public (name : String) : name = "#" ++ bareName name ∨ ¬ ['#'] <+: name.toList := by
  by_cases h : ['#'] <+: name.toList
  · obtain ⟨cs, hcs⟩ := h
    have hname : name = "#" ++ String.ofList cs := String.toList_inj.mp (by simp [← hcs])
    left
    rw [hname, bareName_of_marker]
  · exact .inr h

/-- Different names are the same without their markers exactly if one is the other behind a marker. -/
theorem bareName_eq_iff {name other : String} (hne : name ≠ other) :
    bareName name = bareName other ↔ Marks name other ∨ Marks other name := by
  constructor
  · intro hbare
    rcases eq_marker_or_public name with hname | hname <;> rcases eq_marker_or_public other with hother | hother
    · exact absurd (by rw [hname, hbare, ← hother]) hne
    · rw [bareName_of_public hother] at hbare
      exact .inl ⟨by rw [← hbare, ← hname], hother⟩
    · rw [bareName_of_public hname] at hbare
      exact .inr ⟨by rw [hbare, ← hother], hname⟩
    · rw [bareName_of_public hname, bareName_of_public hother] at hbare
      exact absurd hbare hne
  · rintro (⟨rfl, hother⟩ | ⟨rfl, hname⟩)
    · rw [bareName_of_marker, bareName_of_public hother]
    · rw [bareName_of_marker, bareName_of_public hname]

/-! ## The line of a property -/

/-- After the lines that are written for the class with the members `before` alone, up to its closing brace, the contract goes
on with a line that declares the property `m` under the name `word`. -/
def DeclaredAs (c : ClassDecl) (unit : String) (b : Bindings) (contract : Contract) (before : List Member) (m : Member)
    (word : String) : Prop :=
  ∃ name type init typeText value lines,
    m.shape = .property name (some type) init ∧ type.solidity = .ok typeText ∧ initializer b init = .ok value ∧
      { c with members := before }.render unit b = .ok ⟨c.name.name, lines ++ ["\x7d"]⟩ ∧
        lines ++ [unit ++ (typeText ++ " " ++ word ++ value ++ ";")] <+: contract.lines

/-- A row of a member stands behind one indentation. -/
theorem Row.line_inner (unit text : String) : Row.line unit ⟨1, text⟩ = unit ++ text := by
  simp [Row.line]

/-- The first line and the last one stand behind none. -/
theorem Row.line_outer (unit text : String) : Row.line unit ⟨0, text⟩ = text := by
  simp [Row.line]

/-- The rows of members are those before a member, its own, and those after it. -/
theorem mapM_rows_split {b : Bindings} {before after : List Member} {m : Member} {groups : List (List Row)}
    (h : (before ++ m :: after).mapM (Member.rows b) = .ok groups) :
    ∃ front own back, before.mapM (Member.rows b) = .ok front ∧ m.rows b = .ok own ∧ groups = front ++ own :: back := by
  rw [List.mapM_append, List.mapM_cons] at h
  cases hfront : before.mapM (Member.rows b) with
  | error err =>
    rw [hfront] at h
    cases h
  | ok front =>
    cases hown : m.rows b with
    | error err =>
      rw [hfront, hown] at h
      cases h
    | ok own =>
      cases hback : after.mapM (Member.rows b) with
      | error err =>
        rw [hfront, hown, hback] at h
        cases h
      | ok back =>
        rw [hfront, hown, hback] at h
        cases h
        exact ⟨front, own, back, rfl, rfl, rfl⟩

/-- A property has one row: its type, its bare name and its value. -/
theorem rows_of_property {b : Bindings} {m : Member} {name : Ident} {type : Option TypeExpr} {init : Option Expr}
    {own : List Row} (hshape : m.shape = .property name type init) (hown : m.rows b = .ok own) :
    ∃ t typeText value, type = some t ∧ t.solidity = .ok typeText ∧ initializer b init = .ok value ∧
      own = [⟨1, typeText ++ " " ++ name.bare ++ value ++ ";"⟩] := by
  unfold Member.rows at hown
  rw [hshape] at hown
  cases type with
  | none => cases hown
  | some t =>
    dsimp only at hown
    cases htype : t.solidity with
    | error err =>
      rw [htype] at hown
      cases hown
    | ok typeText =>
      cases hinit : initializer b init with
      | error err =>
        rw [htype, hinit] at hown
        cases hown
      | ok value =>
        rw [htype, hinit] at hown
        cases hown
        exact ⟨t, typeText, value, rfl, htype, rfl, rfl⟩

section Classes

variable {unit : String} {b : Bindings} {c : ClassDecl} {contract : Contract} {before after : List Member} {m : Member}
  {name : Ident} {type : Option TypeExpr} {init : Option Expr}

/-- A property is declared under its bare name. -/
theorem declaredAs_bare (hdeclares : c.DeclaresVariables) (hrender : c.render unit b = .ok contract)
    (hm : c.members = before ++ m :: after) (hshape : m.shape = .property name type init) :
    DeclaredAs c unit b contract before m name.bare := by
  have hbefore : ClassDecl.DeclaresVariables { c with members := before } := by
    intro x hx
    refine hdeclares x ?_
    rw [hm]
    exact List.mem_append_left _ hx
  rw [c.render_eq_rows hdeclares, ClassDecl.rows, hm] at hrender
  cases hgroups : (before ++ m :: after).mapM (Member.rows b) with
  | error err =>
    rw [hgroups] at hrender
    cases hrender
  | ok groups =>
    rw [hgroups] at hrender
    cases hrender
    obtain ⟨front, own, back, hfront, hown, rfl⟩ := mapM_rows_split hgroups
    obtain ⟨t, typeText, value, rfl, htype, hvalue, rfl⟩ := rows_of_property hshape hown
    let lines := (⟨0, "contract " ++ c.name.name ++ " \x7b"⟩ :: front.flatten).map (Row.line unit)
    refine ⟨name, t, init, typeText, value, lines, hshape, htype, hvalue, ?_, ?_⟩
    · rw [ClassDecl.render_eq_rows hbefore, ClassDecl.rows, hfront]
      refine congrArg (fun lines => Except.ok (Contract.mk c.name.name lines)) ?_
      rw [Row.braced, List.map_append, List.map_singleton, Row.line_outer]
    · dsimp only
      rw [Row.braced, List.flatten_append, List.flatten_cons, ← List.cons_append, List.append_assoc, List.append_assoc,
        List.map_append, ← Row.line_inner]
      exact (List.prefix_append_right_inj _).mpr (List.prefix_append [_] _)

/-- A property is declared under one name. -/
theorem DeclaredAs.unique {word word' : String} (h : DeclaredAs c unit b contract before m word)
    (h' : DeclaredAs c unit b contract before m word') : word = word' := by
  obtain ⟨name, type, init, typeText, value, lines, hshape, htype, hvalue, hlines, hlead⟩ := h
  obtain ⟨name', type', init', typeText', value', lines', hshape', htype', hvalue', hlines', hlead'⟩ := h'
  rw [hshape] at hshape'
  cases hshape'
  rw [htype] at htype'
  cases htype'
  rw [hvalue] at hvalue'
  cases hvalue'
  rw [hlines] at hlines'
  obtain ⟨-, hsame⟩ := Contract.mk.inj (Except.ok.inj hlines')
  obtain rfl := List.append_cancel_right hsame
  have hnext := (List.prefix_of_prefix_length_le hlead hlead' (by simp)).eq_of_length (by simp)
  simpa [String.append_left_inj, String.append_right_inj] using hnext

/-- Two properties of a class with different names are each declared under one name, and under the same one exactly if one
name is the other behind a private marker; then it is the name without the marker. -/
theorem declared_names_eq_iff {source : String} {before' after' : List Member} {m' : Member} {name' : Ident}
    {type' : Option TypeExpr} {init' : Option Expr} (hc : c ∈ (parse source).file.classes)
    (hrender : c.render unit b = .ok contract) (hm : c.members = before ++ m :: after)
    (hm' : c.members = before' ++ m' :: after') (hshape : m.shape = .property name type init)
    (hshape' : m'.shape = .property name' type' init') (hne : name.name ≠ name'.name) :
    ∃ word word', (∀ w, DeclaredAs c unit b contract before m w ↔ w = word) ∧
      (∀ w, DeclaredAs c unit b contract before' m' w ↔ w = word') ∧
        (word = word' ↔ Marks name.name name'.name ∨ Marks name'.name name.name) ∧
          (Marks name.name name'.name → word = name'.name) ∧ (Marks name'.name name.name → word = name.name) := by
  have hdeclares := declaresVariables_readTokens hc
  have hown := declaredAs_bare hdeclares hrender hm hshape
  have hown' := declaredAs_bare hdeclares hrender hm' hshape'
  refine ⟨name.bare, name'.bare, fun w => ⟨fun h => h.unique hown, ?_⟩, fun w => ⟨fun h => h.unique hown', ?_⟩,
    bareName_eq_iff hne, ?_, ?_⟩
  · rintro rfl
    exact hown
  · rintro rfl
    exact hown'
  · rintro ⟨hmarked, -⟩
    rw [Ident.bare, hmarked, bareName_of_marker]
  · rintro ⟨-, hpublic⟩
    exact bareName_of_public hpublic

end Classes

/-- The variable `#x` of a class. -/
def markedVariable : Member :=
  ⟨[], [], .property ⟨"#x", ⟨10, 12⟩⟩ (some (.keyword ⟨14, 20⟩ .number)) none, ⟨10, 21⟩⟩

/-- The variable after `#x`; its name takes `size` bytes. -/
def otherVariable (name : String) (size : Nat) : Member :=
  ⟨[], [], .property ⟨name, ⟨22, 22 + size⟩⟩ (some (.keyword ⟨24 + size, 30 + size⟩ .string)) none, ⟨22, 31 + size⟩⟩

/-- A class with `#x` and another variable. -/
def twoVariables (name : String) (size : Nat) : ClassDecl :=
  ⟨⟨"A", ⟨6, 7⟩⟩, none, [], false, [markedVariable, otherVariable name size], ⟨0, 33 + size⟩⟩

/-- A second marker, as a quoted name can have, is kept, and keeps the names apart. -/
theorem doubleMarker_declared :
    let c := twoVariables "##x" 5
    let contract : Contract := ⟨"A", ["contract A \x7b", "   int256 x;", "   string #x;", "\x7d"]⟩
    c ∈ (parse "class A \x7b #x: number; \"##x\": string; \x7d").file.classes ∧ c.render "   " ⟨[]⟩ = .ok contract ∧
      ∃ word word', (∀ w, DeclaredAs c "   " ⟨[]⟩ contract [] markedVariable w ↔ w = word) ∧
        (∀ w, DeclaredAs c "   " ⟨[]⟩ contract [markedVariable] (otherVariable "##x" 5) w ↔ w = word') ∧ word ≠ word' := by
  have hclasses : (parse "class A \x7b #x: number; \"##x\": string; \x7d").file.classes = [twoVariables "##x" 5] := by
    decide +kernel
  have hc : twoVariables "##x" 5 ∈ (parse "class A \x7b #x: number; \"##x\": string; \x7d").file.classes :=
    hclasses ▸ List.mem_singleton.mpr rfl
  have hrender : (twoVariables "##x" 5).render "   " ⟨[]⟩ =
      .ok ⟨"A", ["contract A \x7b", "   int256 x;", "   string #x;", "\x7d"]⟩ := by rfl
  have hfirst : (twoVariables "##x" 5).members = [] ++ markedVariable :: [otherVariable "##x" 5] := rfl
  have hsecond : (twoVariables "##x" 5).members = [markedVariable] ++ otherVariable "##x" 5 :: [] := rfl
  obtain ⟨word, word', hword, hword', heq, -, -⟩ :=
    declared_names_eq_iff hc hrender hfirst hsecond rfl rfl (by decide)
  refine ⟨hc, hrender, word, word', hword, hword', ?_⟩
  rw [Ne, heq]
  decide

/-- A private and a public variable of one name are declared under the same name. -/
theorem markedAndPublic_declared_alike :
    let c := twoVariables "x" 1
    let contract : Contract := ⟨"A", ["contract A \x7b", "   int256 x;", "   string x;", "\x7d"]⟩
    (parse "class A \x7b #x: number; x: string; \x7d").errors = [] ∧
      c ∈ (parse "class A \x7b #x: number; x: string; \x7d").file.classes ∧ c.render "   " ⟨[]⟩ = .ok contract ∧
        DeclaredAs c "   " ⟨[]⟩ contract [] markedVariable "x" ∧
          DeclaredAs c "   " ⟨[]⟩ contract [markedVariable] (otherVariable "x" 1) "x" := by
  have hclasses : (parse "class A \x7b #x: number; x: string; \x7d").file.classes = [twoVariables "x" 1] := by
    decide +kernel
  refine ⟨by decide +kernel, hclasses ▸ List.mem_singleton.mpr rfl, by rfl, ?_, ?_⟩
  · exact ⟨_, _, _, "int256", "", ["contract A \x7b"], rfl, rfl, rfl, by rfl, by decide⟩
  · exact ⟨_, _, _, "string", "", ["contract A \x7b", "   int256 x;"], rfl, rfl, rfl, by rfl, by decide⟩

end ContractCompiler
