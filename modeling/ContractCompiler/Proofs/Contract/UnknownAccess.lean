import ContractCompiler.Proofs.Binding.Receiver
import ContractCompiler.Proofs.Contract.Failure
import ContractCompiler.Proofs.Emission

/-!
# Unknown accesses

An access to something the receiver does not offer keeps its class from being written, if it stands where writing looks:
in the initializer of a property, or in the body of a constructor or a method, also inside a placeholder. The defaults of
parameters are not written, and an accessor is written as a placeholder without looking into it; what is bound there has no
effect on the contract.
-/

namespace ContractCompiler

/-- There is an access in the expression that is bound to something unknown. -/
def Expr.AccessesUnknown (b : Bindings) (e : Expr) : Prop :=
  ∃ span target name offered, .member span target name ∈ e.subexprs ∧ b.get? span = some (.unknown offered)

/-! ## Accesses of a parsed file -/

/-- In the members of the class table of a parsed file, what is bound is an access on a name. -/
theorem onNames_of_mem_places {source receiver : String} {p : List String × Expr} (hp : p ∈ (parse source).file.places) :
    p.2.OnNames ((parse source).file.bindings receiver) := by
  intro span target name hmem hbound
  obtain ⟨bound, hget⟩ := Option.ne_none_iff_exists'.mp hbound
  obtain ⟨a, ha, rfl, -⟩ := Bindings.exists_of_get?_ofAccesses hget
  obtain ⟨names, object, member, haccess, -⟩ := SourceFile.mem_accesses_iff.mp ha
  obtain ⟨e, he, hmem'⟩ := SourceFile.accesses_iff.mp haccess
  obtain ⟨-, hnode⟩ := eq_of_span_eq hp he hmem hmem' rfl rfl
  cases hnode
  exact ⟨object, rfl⟩

/-- What is looked at in a member stands in it. -/
theorem MemberShape.mem_exprs_of_mem_checked {shape : MemberShape} {e : Expr} (h : e ∈ shape.checked) :
    e ∈ shape.exprs := by
  cases shape with
  | property => exact h
  | constructor | method => exact List.mem_append_right _ h
  | accessor | indexSignature => cases h

/-- The expressions that are looked at when a class of a parsed file is written have their bound accesses on names. -/
theorem onNames_of_mem_checked {source : String} (receiver : String) {c : ClassDecl}
    (hc : c ∈ (ClassTable.ofFile (parse source).file).classes) :
    ∀ m ∈ c.members, ∀ e ∈ m.shape.checked, e.OnNames ((parse source).file.bindings receiver) := by
  intro m hm e he
  have hplace : e ∈ m.places.map Prod.snd := by
    rw [Member.places_snd]
    exact MemberShape.mem_exprs_of_mem_checked he
  obtain ⟨p, hp, rfl⟩ := List.mem_map.mp hplace
  exact onNames_of_mem_places (List.mem_flatMap.mpr ⟨c, hc, List.mem_flatMap.mpr ⟨m, hm, hp⟩⟩)

/-! ## What is not looked at -/

/-- The parameter without its default. -/
def Param.withoutDefault (p : Param) : Param := { p with default := none }

/-- The member without what is not looked at when it is written. -/
def MemberShape.outline : MemberShape → MemberShape
  | .constructor params body => .constructor (params.map Param.withoutDefault) body
  | .method name params returns body => .method name (params.map Param.withoutDefault) returns body
  | .accessor kind name _ _ _ => .accessor kind name [] none none
  | shape => shape

/-- The class without what is not looked at when it is written. -/
def ClassDecl.outline (c : ClassDecl) : ClassDecl :=
  { c with members := c.members.map fun m => { m with shape := m.shape.outline } }

/-- The defaults of parameters are not part of a signature. -/
theorem signature_withoutDefault (name : String) (params : List Param) (returns : Option TypeExpr) :
    signature name (params.map Param.withoutDefault) returns = signature name params returns := by
  unfold signature
  rw [List.mapM_map]
  rfl

/-- A callable is written without a look at the defaults of its parameters. -/
theorem Writing.callable_withoutDefault (b : Bindings) (name : String) (params : List Param) (returns : Option TypeExpr)
    (body : Option Block) :
    callable b name (params.map Param.withoutDefault) returns body = callable b name params returns body := by
  unfold callable
  rw [signature_withoutDefault]

/-- A member is written without a look at what its outline leaves out. -/
theorem Writing.member_outline (b : Bindings) (m : Member) :
    member b { m with shape := m.shape.outline } = member b m := by
  unfold member
  cases m.shape with
  | property | indexSignature => rfl
  | constructor | method => simp only [MemberShape.outline, callable_withoutDefault]
  | accessor kind => cases kind <;> rfl

theorem Writing.members_outline (b : Bindings) (ms : List Member) :
    members b (ms.map fun m => { m with shape := m.shape.outline }) = members b ms := by
  induction ms with
  | nil => rfl
  | cons m ms ih => rw [List.map_cons, members, members, member_outline, ih]

/-- A class is written as its outline is. -/
theorem ClassDecl.render_outline (c : ClassDecl) (indent : String) (b : Bindings) :
    c.outline.render indent b = c.render indent b := by
  unfold ClassDecl.render Writing.contract
  simp only [outline, Writing.members_outline]

/-! ## What is handed over -/

/-- The contracts handed to a sink are those of classes. -/
theorem Outcome.exists_render {σ : Type} {sink : Sink σ} {indent : String} {b : Bindings} {held held' : σ}
    {decls : List ClassDecl} {result : Except CompileError (List String)} {calls : List Contract}
    (h : Outcome sink indent b held decls result held' calls) :
    ∀ contract ∈ calls, ∃ d ∈ decls, d.render indent b = .ok contract := by
  have hwritten : ∀ {ds cs}, Written indent b ds cs → ∀ contract ∈ cs, ∃ d ∈ ds, d.render indent b = .ok contract := by
    intro ds cs hw contract hcontract
    have hmem : .ok contract ∈ ds.map fun d => d.render indent b := by
      rw [hw]
      exact List.mem_map_of_mem hcontract
    exact List.mem_map.mp hmem
  cases h with
  | finished hw _ => exact hwritten hw
  | unwritten hsplit hw _ _ =>
    intro contract hcontract
    obtain ⟨d, hd, hrender⟩ := hwritten hw contract hcontract
    exact ⟨d, hsplit ▸ List.mem_append_left _ hd, hrender⟩
  | refused hsplit hw _ hc _ =>
    intro contract hcontract
    rcases List.mem_append.mp hcontract with hcontract | hcontract
    · obtain ⟨d, hd, hrender⟩ := hwritten hw contract hcontract
      exact ⟨d, hsplit ▸ List.mem_append_left _ hd, hrender⟩
    · cases List.mem_singleton.mp hcontract
      exact ⟨_, hsplit ▸ List.mem_append_right _ List.mem_cons_self, hc⟩

/-- The contracts that compiling a file hands to a sink are those of classes of its class table. -/
theorem exists_render_of_mem {σ : Type} {file : SourceFile} {options : Options} {sink : Sink σ} {held : σ}
    {contract : Contract} (h : contract ∈ (compileFile file options sink.recording (held, [])).sink.2) :
    ∃ d ∈ (ClassTable.ofFile file).classes,
      d.render options.indent (file.bindings options.receiver) = .ok contract := by
  obtain ⟨calls, hout, -, hsink⟩ := emitClasses_recording sink options.indent (file.bindings options.receiver)
    (ClassTable.ofFile file).classes held []
  have hcalls : (compileFile file options sink.recording (held, [])).sink.2 = calls := congrArg Prod.snd hsink
  exact hout.exists_render contract (hcalls ▸ h)

/-- No contract of a class that cannot be written is handed to a sink. -/
theorem not_emitted_of_render {σ : Type} {file : SourceFile} (options : Options) {c : ClassDecl} {err : RenderError}
    (hc : c ∈ (ClassTable.ofFile file).classes)
    (herr : c.render options.indent (file.bindings options.receiver) = .error err) (sink : Sink σ) (held : σ) :
    ∀ contract ∈ (compileFile file options sink.recording (held, [])).sink.2, contract.name ≠ c.name.name := by
  intro contract hcontract hname
  obtain ⟨d, hd, hrender⟩ := exists_render_of_mem hcontract
  have hnames : ((ClassTable.ofFile file).classes.map fun c => c.name.name).Nodup := by
    have hnodup := nodup_declaredClassNames file.classes
    rwa [← ClassTable.names_ofFile] at hnodup
  have hsame : d = c := List.inj_on_of_nodup_map hnames hd hc ((ClassDecl.name_of_render hrender).symm.trans hname)
  rw [hsame, herr] at hrender
  cases hrender

/-- An unknown access where writing looks keeps a class of the class table from being written. -/
theorem exists_error_of_accessesUnknown {source receiver : String} (indent : String) {c : ClassDecl}
    (hc : c ∈ (ClassTable.ofFile (parse source).file).classes) {m : Member} (hm : m ∈ c.members) {e : Expr}
    (he : e ∈ m.shape.checked) (h : e.AccessesUnknown ((parse source).file.bindings receiver)) :
    ∃ err, c.render indent ((parse source).file.bindings receiver) = .error err := by
  obtain ⟨span, target, name, offered, hmem, hget⟩ := h
  have herror := c.errorOf_render indent (onNames_of_mem_checked receiver hc)
  cases hrender : c.render indent ((parse source).file.bindings receiver) with
  | error err => exact ⟨err, rfl⟩
  | ok contract =>
    rw [hrender] at herror
    have hnone := List.findSome?_eq_none_iff.mp herror.symm m hm
    have hknown := Member.firstUnknown?_of_failure? hnone e he
    exact absurd hget (Expr.firstUnknown?_eq_none_iff.mp hknown span target name offered hmem)

/-- A class of the class table with an unknown access in the initializer of a property, or in the body of a constructor or
a method, cannot be written, and its contract is handed to no sink. The other places do not count: a class is written as if
its parameters had no defaults and its accessors were empty. -/
theorem unknown_access_refuses_contract (source receiver indent : String) {c : ClassDecl}
    (hc : c ∈ (ClassTable.ofFile (parse source).file).classes) :
    let file := (parse source).file
    let b := file.bindings receiver
    ((∃ m ∈ c.members, ∃ e ∈ m.shape.checked, e.AccessesUnknown b) →
      (∃ err, c.render indent b = .error err) ∧
      ∀ (σ : Type) (sink : Sink σ) (held : σ),
        ∀ contract ∈ (compileFile file ⟨indent, receiver⟩ sink.recording (held, [])).sink.2, contract.name ≠ c.name.name) ∧
    c.outline.render indent b = c.render indent b := by
  refine ⟨?_, c.render_outline indent _⟩
  rintro ⟨m, hm, e, he, hunknown⟩
  obtain ⟨err, hrender⟩ := exists_error_of_accessesUnknown indent hc hm he hunknown
  exact ⟨⟨err, hrender⟩, fun σ sink held => not_emitted_of_render ⟨indent, receiver⟩ hc hrender sink held⟩

/-- A method that throws an unknown access. -/
def throwingSource : String := "class A \x7b f() \x7b throw ETH.bogus; \x7d \x7d"

/-- The class in `throwingSource`. -/
def throwingClass : ClassDecl :=
  let thrown : Expr := .member ⟨22, 31⟩ (.ident ⟨"ETH", ⟨22, 25⟩⟩) ⟨"bogus", ⟨26, 31⟩⟩
  ⟨⟨"A", ⟨6, 7⟩⟩, none, [], false,
    [⟨[], [], .method ⟨"f", ⟨10, 11⟩⟩ [] none (some ⟨[.throw ⟨16, 32⟩ thrown], ⟨14, 34⟩⟩), ⟨10, 34⟩⟩], ⟨0, 36⟩⟩

/-- The class in `throwingSource` is refused because of its unknown access. -/
theorem throwingClass_refused :
    let file := (parse throwingSource).file
    throwingClass ∈ (ClassTable.ofFile file).classes ∧
      (∃ m ∈ throwingClass.members, ∃ e ∈ m.shape.checked, e.AccessesUnknown (file.bindings "ETH")) ∧
      ∃ err, throwingClass.render "" (file.bindings "ETH") = .error err := by
  have hread : (ClassTable.ofFile (parse throwingSource).file).classes = [throwingClass] ∧
      ((parse throwingSource).file.bindings "ETH").get? ⟨22, 31⟩ = some (.unknown "bogus") := by
    decide +kernel
  obtain ⟨hclasses, hbound⟩ := hread
  have hmem := hclasses ▸ List.mem_singleton.mpr rfl
  have hunknown : ∃ m ∈ throwingClass.members, ∃ e ∈ m.shape.checked,
      e.AccessesUnknown ((parse throwingSource).file.bindings "ETH") :=
    ⟨_, List.mem_singleton.mpr rfl, _, List.mem_singleton.mpr rfl, _, _, _, _, Expr.mem_subexprs_self _, hbound⟩
  exact ⟨hmem, hunknown, ((unknown_access_refuses_contract _ "ETH" "" hmem).1 hunknown).1⟩

/-- An accessor and a default with an unknown access each. -/
def overlookedSource : String := "class A \x7b get x() \x7b return ETH.bogus; \x7d f(a: T = ETH.gone) \x7b \x7d \x7d"

/-- The class in `overlookedSource`. -/
def overlookedClass : ClassDecl :=
  let returned : Expr := .member ⟨27, 36⟩ (.ident ⟨"ETH", ⟨27, 30⟩⟩) ⟨"bogus", ⟨31, 36⟩⟩
  let default : Expr := .member ⟨49, 57⟩ (.ident ⟨"ETH", ⟨49, 52⟩⟩) ⟨"gone", ⟨53, 57⟩⟩
  ⟨⟨"A", ⟨6, 7⟩⟩, none, [], false,
    [⟨[], [], .accessor .get ⟨"x", ⟨14, 15⟩⟩ [] none (some ⟨[.return_ ⟨20, 37⟩ (some returned)], ⟨18, 39⟩⟩), ⟨10, 39⟩⟩,
     ⟨[], [], .method ⟨"f", ⟨40, 41⟩⟩
        [⟨⟨"a", ⟨42, 43⟩⟩, some (.named ⟨45, 46⟩ [⟨"T", ⟨45, 46⟩⟩] []), false, some default, [], ⟨42, 57⟩⟩] none
        (some ⟨[], ⟨59, 62⟩⟩), ⟨40, 62⟩⟩], ⟨0, 64⟩⟩

/-- A class with an unknown access in an accessor and in the default of a parameter is written. -/
theorem overlookedClass_written :
    let file := (parse overlookedSource).file
    overlookedClass ∈ (ClassTable.ofFile file).classes ∧
      (∀ m ∈ overlookedClass.members, ∃ e ∈ m.shape.exprs, e.AccessesUnknown (file.bindings "ETH")) ∧
      ∃ contract, overlookedClass.render "" (file.bindings "ETH") = .ok contract := by
  have hread : (ClassTable.ofFile (parse overlookedSource).file).classes = [overlookedClass] ∧
      ((parse overlookedSource).file.bindings "ETH").entries =
        [(⟨27, 36⟩, .unknown "bogus"), (⟨49, 57⟩, .unknown "gone")] := by
    decide +kernel
  obtain ⟨hclasses, hentries⟩ := hread
  have hbindings : (parse overlookedSource).file.bindings "ETH" =
      ⟨[(⟨27, 36⟩, .unknown "bogus"), (⟨49, 57⟩, .unknown "gone")]⟩ := congrArg Bindings.mk hentries
  refine ⟨hclasses ▸ List.mem_singleton.mpr rfl, ?_, ?_⟩ <;> rw [hbindings]
  · refine List.forall_mem_cons.mpr ⟨?_, List.forall_mem_singleton.mpr ?_⟩
    · exact ⟨_, List.mem_singleton.mpr rfl, _, _, _, _, Expr.mem_subexprs_self _, rfl⟩
    · exact ⟨_, List.mem_singleton.mpr rfl, _, _, _, _, Expr.mem_subexprs_self _, rfl⟩
  · exact ⟨_, rfl⟩

end ContractCompiler
