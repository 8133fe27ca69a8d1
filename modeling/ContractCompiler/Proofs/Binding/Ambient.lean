import ContractCompiler.Proofs.Binding.SpanKeys

/-!
# The receiver without an import

A name under which no import brings in the receiver still stands for it if it is the receiver's own name and the receiver is
imported nowhere in the file: the receiver is then ambient. What other imports declare plays no part, not even one that
declares the receiver's name for something else.
-/

namespace ContractCompiler

/-- The local names an import declares, whatever they stand for. -/
def Import.localNames (i : Import) : List String :=
  i.default.toList.map Ident.name ++ i.wholeModule.toList.map Ident.name ++ i.named.map fun s => s.localName.name

namespace SourceFile

/-- An import of the file brings in the receiver under this name. -/
def ImportsAs (file : SourceFile) (receiver name : String) : Prop :=
  ∃ i ∈ file.imports, ∃ s ∈ i.named, s.imported.name = receiver ∧ s.localName.name = name

variable {file : SourceFile} {receiver name : String}

instance : Decidable (file.ImportsAs receiver name) :=
  inferInstanceAs (Decidable (∃ i ∈ file.imports, ∃ s ∈ i.named, s.imported.name = receiver ∧ s.localName.name = name))

/-- A name that the receiver is not imported under names it only as its own name, when it is not imported at all. -/
theorem namesReceiver_iff (h : ¬ file.ImportsAs receiver name) :
    file.NamesReceiver receiver name ↔
      name = receiver ∧ (∀ n, ¬ file.ImportsAs receiver n) ∧ ∀ c ∈ file.classes, c.name.name ≠ name := by
  have hnone : (∀ i ∈ file.imports, ∀ s ∈ i.named, s.imported.name ≠ receiver) ↔ ∀ n, ¬ file.ImportsAs receiver n := by
    constructor
    · rintro hne n ⟨i, hi, s, hs, himported, -⟩
      exact hne i hi s hs himported
    · exact fun hne i hi s hs himported => hne _ ⟨i, hi, s, hs, himported, rfl⟩
  constructor
  · rintro ⟨himported | ⟨hne, hname⟩, hclasses⟩
    · exact absurd himported h
    · exact ⟨hname, hnone.mp hne, hclasses⟩
  · rintro ⟨hname, hne, hclasses⟩
    exact ⟨.inr ⟨hnone.mpr hne, hname⟩, hclasses⟩

/-- A place where an access stands is one in the file. -/
theorem Accesses.mem_subexprs {names : List String} {object member : Ident} {span : Span}
    (h : file.Accesses names object member span) : .member span (.ident object) member ∈ file.subexprs := by
  obtain ⟨e, he, hx⟩ := accesses_iff.mp h
  exact mem_subexprs_of_mem_places he hx

end SourceFile

/-- Under a name that no import gives to the receiver, a member access anywhere in the file is bound exactly if the receiver
is ambient and called so, no class is, and the access stands in a member of the class table where no scope declares the
name. -/
theorem bound_iff_ambient (source receiver : String) {object member : Ident} {span : Span}
    (hx : .member span (.ident object) member ∈ (parse source).file.subexprs)
    (hname : ¬ (parse source).file.ImportsAs receiver object.name) (target : Target) :
    ((parse source).file.bindings receiver).get? span = some target ↔
      (object.name = receiver ∧ (∀ name, ¬ (parse source).file.ImportsAs receiver name) ∧
        ∀ c ∈ (parse source).file.classes, c.name.name ≠ object.name) ∧
      (∃ names, (parse source).file.Accesses names object member span ∧ object.name ∉ names) ∧
      target.Offered member.name := by
  rw [← SourceFile.namesReceiver_iff hname]
  constructor
  · intro hbound
    obtain ⟨a, ha, rfl, rfl⟩ := Bindings.exists_of_get?_ofAccesses hbound
    obtain ⟨names, object', member', haccess, hreceiver, hfree, heq⟩ := SourceFile.mem_accesses_iff.mp ha
    -- the access that was bound at this span is the one in question
    cases eq_of_memberSpan?_eq hx haccess.mem_subexprs rfl rfl
    refine ⟨hreceiver, ⟨names, haccess, hfree⟩, Target.offered_iff.mpr ?_⟩
    rw [heq]
    rfl
  · rintro ⟨hreceiver, ⟨names, haccess, hfree⟩, hoffered⟩
    have ha : ⟨object.name, member.name, span⟩ ∈ (parse source).file.accesses receiver :=
      SourceFile.mem_accesses_iff.mpr ⟨names, object, member, haccess, hreceiver, hfree, rfl⟩
    rw [← Target.offered_iff.mp hoffered]
    have hbound := Bindings.get?_ofAccesses (accessSpans_nodup source receiver) ha
    exact hbound

/-- The receiver `M` imported under another name, next to a module that is called `M` here. -/
def renamedSource : String := "import\x7bM as R\x7dfrom'r';import*as M from'm';class A\x7bf()\x7bM.log\x7d\x7d"

/-- An access to the module is not bound, since the receiver is imported and not under this name. -/
theorem renamedSource_unbound :
    ∃ object member : Ident, .member ⟨54, 59⟩ (.ident object) member ∈ (parse renamedSource).file.subexprs ∧
      ¬ (parse renamedSource).file.ImportsAs "M" object.name ∧
      ∀ target, ((parse renamedSource).file.bindings "M").get? ⟨54, 59⟩ ≠ some target := by
  have hread : ((parse renamedSource).file.ImportsAs "M" "R" ∧ ¬ (parse renamedSource).file.ImportsAs "M" "M") ∧
      ⟨"M", "log", ⟨54, 59⟩⟩ ∈ (parse renamedSource).file.subexprs.filterMap (Scope.access? ⟨["M"], []⟩) := by
    decide +kernel
  obtain ⟨himports, haccess⟩ := hread
  obtain ⟨x, hx, haccess⟩ := List.mem_filterMap.mp haccess
  obtain ⟨object, member, rfl, -, -, heq⟩ := Scope.access?_eq_some_iff.mp haccess
  dsimp only at hx
  have hobject : "M" = object.name := congrArg Access.receiver heq
  have hname : ¬ (parse renamedSource).file.ImportsAs "M" object.name := hobject ▸ himports.2
  refine ⟨object, member, hx, hname, fun target hbound => ?_⟩
  exact ((bound_iff_ambient renamedSource "M" hx hname target).mp hbound).1.2.1 "R" himports.1

/-- The name of the receiver, declared by an import for what another module exports. -/
def bankSource : String := "import ETH from'./bank';class A\x7bf()\x7bETH.log(1);\x7d\x7d"

/-- The spelling decides here: an access to what was imported from elsewhere is bound as one to the receiver. -/
theorem bankSource_bound :
    (∃ i ∈ (parse bankSource).file.imports, "ETH" ∈ i.localNames) ∧
      ¬ (parse bankSource).file.ImportsAs "ETH" "ETH" ∧
      ((parse bankSource).file.bindings "ETH").get? ⟨36, 43⟩ = some (.known .log) := by
  decide +kernel

end ContractCompiler
