import ContractCompiler.Proofs.Binding.Receiver
import ContractCompiler.Proofs.Formatting.Moved
import ContractCompiler.Proofs.Reading.Spelling

/-!
# Binding in a moved file

A file and the same file moved have the same classes, names and accesses up to places. Bindings are looked up by place; since
no two accesses of a parsed file end at the same place, none are confused by moving, and the look-up of a moved access finds
what the access itself is bound to.
-/

namespace ContractCompiler

variable (f : Nat → Nat)

/-! ## Parts of what is moved -/

section Containers

variable {α β : Type} [Movable α] [Movable β] {f}

/-- What is moved together is moved in each part. -/
theorem move_append (as bs : List α) : move f (as ++ bs) = move f as ++ move f bs := List.map_append

/-- An optional thing as a list is moved as the list is. -/
theorem toList_move (a : Option α) : (move f a).toList = move f a.toList := by
  cases a <;> rfl

/-- What does not depend on places is the same for all of a list that is moved. -/
theorem map_move {γ : Type} {g : α → γ} (h : ∀ a, g (move f a) = g a) (as : List α) : (move f as).map g = as.map g := by
  show (as.map (move f)).map g = as.map g
  rw [List.map_map]
  exact List.map_congr_left fun a _ => h a

/-- Gathering from moved things gathers what is moved, if it does from each of them. -/
theorem flatMap_move {g : α → List β} {as : List α} (h : ∀ a ∈ as, g (move f a) = move f (g a)) :
    (move f as).flatMap g = move f (as.flatMap g) := by
  induction as with
  | nil => rfl
  | cons a as ih =>
    obtain ⟨ha, has⟩ := List.forall_mem_cons.mp h
    show g (move f a) ++ (move f as).flatMap g = move f (g a ++ as.flatMap g)
    rw [move_append, ha, ih has]

theorem filterMap_move {g : α → Option β} (h : ∀ a, g (move f a) = move f (g a)) (as : List α) :
    (move f as).filterMap g = move f (as.filterMap g) := by
  induction as with
  | nil => rfl
  | cons a as ih =>
    show List.filterMap g (move f a :: move f as) = _
    rw [List.filterMap_cons, List.filterMap_cons, h a, ih]
    cases g a <;> rfl

end Containers

namespace Expr

/-- The subexpressions of a moved expression are moved. -/
theorem children_move (e : Expr) : (move f e).children = move f e.children := by
  cases e with
  | call span callee args => rw [move_call]; rfl
  | new span callee args => rw [move_new]; rfl
  | array span elements => rw [move_array]; rfl
  | object span fields =>
    rw [move_object]
    show (fields.map (move f)).map Field.value = (fields.map Field.value).map (move f)
    rw [List.map_map, List.map_map]
    rfl
  | _ => rfl

theorem subexprs_move (e : Expr) : (move f e).subexprs = move f e.subexprs := by
  rw [subexprs_eq, subexprs_eq e, children_move]
  show _ :: (move f e.children).flatMap subexprs = move f e :: move f (e.children.flatMap subexprs)
  rw [flatMap_move fun c hc => subexprs_move c]
termination_by sizeOf e
decreasing_by exact sizeOf_lt_of_mem_children hc

theorem memberSpans_move (e : Expr) : (move f e).memberSpans = move f e.memberSpans := by
  unfold memberSpans
  rw [subexprs_move]
  refine filterMap_move (fun x => ?_) _
  cases x <;> rfl

end Expr

namespace Stmt

/-- The expressions of a moved statement are moved. -/
theorem exprs_move (s : Stmt) : (move f s).exprs = move f s.exprs := by
  cases s with
  | var span kind decls => exact filterMap_move (g := Declarator.init) (fun _ => rfl) decls
  | return_ span value => exact toList_move value
  | for_ span init test update body =>
    show (move f test).toList ++ (move f update).toList = move f (test.toList ++ update.toList)
    rw [toList_move, toList_move, move_append]
  | _ => rfl

/-- The statements in a moved statement are moved. -/
theorem stmts_move (s : Stmt) : (move f s).stmts = move f s.stmts := by
  cases s with
  | if_ span cond thenBranch elseBranch =>
    rw [move_if]
    show _ :: (move f elseBranch).toList = _ :: move f elseBranch.toList
    rw [toList_move]
  | for_ span init test update body =>
    rw [move_for]
    show (move f init).toList ++ [move f body] = move f (init.toList ++ [body])
    rw [toList_move, move_append]
    rfl
  | block span ss => rw [move_block]; rfl
  | _ => rfl

theorem allExprs_move (s : Stmt) : (move f s).allExprs = move f s.allExprs := by
  rw [allExprs_eq, allExprs_eq s, exprs_move, stmts_move, flatMap_move fun c hc => allExprs_move c, move_append]
termination_by sizeOf s
decreasing_by exact sizeOf_lt_of_mem_stmts hc

/-- A moved statement declares the names it declared. -/
theorem declaredNames_move (s : Stmt) : (move f s).declaredNames = s.declaredNames := by
  cases s with
  | var span kind decls => exact map_move (fun _ => rfl) decls
  | _ => rfl

end Stmt

/-- The expressions of a moved member are moved. -/
theorem MemberShape.exprs_move (shape : MemberShape) : (move f shape).exprs = move f shape.exprs := by
  have hblock : ∀ b : Block, (move f b).exprs = move f b.exprs :=
    fun b => flatMap_move fun s _ => s.allExprs_move f
  have hcallable : ∀ (params : List Param) (body : Option Block),
      (move f params).flatMap (fun p => p.default.toList) ++ (move f body).toList.flatMap Block.exprs =
        move f (params.flatMap (fun p => p.default.toList) ++ body.toList.flatMap Block.exprs) := by
    intro params body
    rw [toList_move, flatMap_move fun p _ => toList_move p.default,
      flatMap_move fun b _ => hblock b, move_append]
  cases shape with
  | property name type init => exact toList_move init
  | constructor params body => exact hcallable params body
  | method name params returns body => exact hcallable params body
  | accessor kind name params returns body => exact hcallable params body
  | indexSignature => rfl

/-- The expressions of a moved decorator are moved. -/
theorem Decorator.exprs_move (d : Decorator) : (move f d).exprs = move f d.exprs := by
  show (move f d.args).toList.flatten = move f d.args.toList.flatten
  cases d.args with
  | none => rfl
  | some args =>
    show move f args ++ [] = move f (args ++ [])
    rw [List.append_nil, List.append_nil]

/-- The expressions of a moved class are moved. -/
theorem ClassDecl.exprs_move (c : ClassDecl) : (move f c).exprs = move f c.exprs := by
  have hmember : ∀ m : Member, (move f m).exprs = move f m.exprs := by
    intro m
    show (move f m.decorators).flatMap _ ++ (move f m.shape).exprs = move f (_ ++ _)
    rw [flatMap_move fun d _ => d.exprs_move f, m.shape.exprs_move f, move_append]
  show (move f c.decorators).flatMap _ ++ (move f c.members).flatMap _ = move f (_ ++ _)
  rw [flatMap_move fun d _ => d.exprs_move f, flatMap_move fun m _ => hmember m, move_append]

namespace SourceFile

/-- The expressions of a moved file are moved. -/
theorem exprs_move (file : SourceFile) : (move f file).exprs = move f file.exprs := by
  refine flatMap_move fun i _ => ?_
  show (move f i.shape).exprs = move f i.shape.exprs
  cases i.shape with
  | class_ decl => exact decl.exprs_move f
  | _ => rfl

/-- The classes of a moved file are moved. -/
theorem classes_move (file : SourceFile) : (move f file).classes = move f file.classes := by
  refine filterMap_move (fun i => ?_) file.items
  obtain ⟨exported, shape, span⟩ := i
  cases shape <;> rfl

/-- The imports of a moved file are moved. -/
theorem imports_move (file : SourceFile) : (move f file).imports = move f file.imports := by
  refine filterMap_move (fun i => ?_) file.items
  obtain ⟨exported, shape, span⟩ := i
  cases shape <;> rfl

end SourceFile

/-! ## Classes and names -/

/-- Which classes a table holds does not depend on their places. -/
theorem ClassTable.contains_move (t : ClassTable) (name : String) :
    contains ⟨move f t.classes⟩ name = t.contains name :=
  congrArg (List.contains · name) (map_move (fun _ => rfl) t.classes)

/-- Inserting a moved class moves the class that is inserted. -/
theorem ClassTable.insert_move (t : ClassTable) (decl : ClassDecl) :
    insert ⟨move f t.classes⟩ (move f decl) = ⟨move f (t.insert decl).classes⟩ := by
  unfold insert
  rw [contains_move]
  show (if t.contains decl.name.name = true then _ else _) = _
  split
  · show ClassTable.mk ((t.classes.map (move f)).map _) = ClassTable.mk ((t.classes.map _).map (move f))
    rw [List.map_map, List.map_map]
    refine congrArg ClassTable.mk (List.map_congr_left fun c _ => ?_)
    show (if c.name.name = decl.name.name then move f decl else move f c) =
      move f (if c.name.name = decl.name.name then decl else c)
    split <;> rfl
  · exact congrArg ClassTable.mk (move_append t.classes [decl]).symm

/-- The class table of a moved file has the moved classes. -/
theorem ClassTable.ofFile_move (file : SourceFile) : ofFile (move f file) = ⟨move f (ofFile file).classes⟩ := by
  have hfold : ∀ (decls : List ClassDecl) (t : ClassTable),
      (move f decls).foldl insert ⟨move f t.classes⟩ = ⟨move f (decls.foldl insert t).classes⟩ := by
    intro decls
    induction decls with
    | nil => exact fun _ => rfl
    | cons decl decls ih =>
      intro t
      show (move f decls).foldl insert (insert _ (move f decl)) = _
      rw [insert_move, ih]
      rfl
  unfold ofFile
  rw [SourceFile.classes_move]
  exact hfold file.classes empty

/-- The receivers of a moved file are those of the file. -/
theorem SourceFile.receivers_move (file : SourceFile) (receiver : String) :
    (move f file).receivers receiver = file.receivers receiver := by
  have himported : (move f file).importedAs receiver = file.importedAs receiver := by
    unfold importedAs
    rw [imports_move, flatMap_move (g := Import.named) fun _ _ => rfl]
    exact List.filterMap_map
  unfold receivers candidateReceivers
  rw [himported, ClassTable.ofFile_move]
  simp only [ClassTable.contains_move]

/-! ## Accesses -/

namespace Scope

variable (scope : Scope)

/-- The access that a moved expression is, is the moved access. -/
theorem access?_move (e : Expr) : scope.access? (move f e) = move f (scope.access? e) := by
  cases e with
  | member span target name =>
    cases target with
    | ident receiver =>
      show (if scope.isReceiver receiver.name then some _ else none) =
        move f (if scope.isReceiver receiver.name then some _ else none)
      split <;> rfl
    | _ => rfl
  | _ => rfl

/-- The accesses in a moved expression are moved. -/
theorem exprAccesses_move (e : Expr) : scope.exprAccesses (move f e) = move f (scope.exprAccesses e) := by
  unfold exprAccesses
  rw [Expr.subexprs_move]
  exact filterMap_move (scope.access?_move f) _

theorem optionAccesses_move (e : Option Expr) : scope.optionAccesses (move f e) = move f (scope.optionAccesses e) := by
  unfold optionAccesses
  rw [toList_move, flatMap_move fun e _ => scope.exprAccesses_move f e]

/-- Moved statements declare the names they declared. -/
theorem declaredNames_flatMap_move (ss : List Stmt) :
    (move f ss).flatMap Stmt.declaredNames = ss.flatMap Stmt.declaredNames := by
  show (ss.map (move f)).flatMap _ = _
  rw [List.flatMap_map]
  exact List.flatMap_congr fun s _ => s.declaredNames_move f

mutual

/-- The accesses in a moved statement are moved. -/
theorem stmtAccesses_move (scope : Scope) (s : Stmt) : stmtAccesses scope (move f s) = move f (stmtAccesses scope s) := by
  cases s with
  | var span kind decls =>
    show ((move f decls).filterMap Declarator.init).flatMap _ = move f ((decls.filterMap Declarator.init).flatMap _)
    rw [filterMap_move (g := Declarator.init) fun _ => rfl, flatMap_move fun e _ => scope.exprAccesses_move f e]
  | expr span e => exact scope.exprAccesses_move f e
  | throw span e => exact scope.exprAccesses_move f e
  | return_ span value => exact scope.optionAccesses_move f value
  | if_ span cond thenBranch elseBranch =>
    rw [Stmt.move_if, stmtAccesses, stmtAccesses, exprAccesses_move, Stmt.declaredNames_move,
      stmtAccesses_move _ thenBranch, branchAccesses_move scope elseBranch, move_append, move_append]
  | while_ span cond body | doWhile span body cond =>
    show scope.exprAccesses (move f cond) ++ stmtAccesses (scope.declare (move f body).declaredNames) (move f body) =
      move f (_ ++ _)
    rw [exprAccesses_move, Stmt.declaredNames_move, stmtAccesses_move _ body, move_append]
  | for_ span init test update body =>
    rw [Stmt.move_for, stmtAccesses, stmtAccesses]
    simp only [toList_move, declaredNames_flatMap_move, Stmt.declaredNames_move, optionAccesses_move,
      headerAccesses_move _ init, stmtAccesses_move _ body, move_append]
  | forEach span kind binding traversal iterable body =>
    show scope.exprAccesses (move f iterable) ++
      stmtAccesses ((scope.declare [binding.name]).declare (move f body).declaredNames) (move f body) = move f (_ ++ _)
    rw [exprAccesses_move, Stmt.declaredNames_move, stmtAccesses_move _ body, move_append]
  | block span ss =>
    rw [Stmt.move_block, stmtAccesses, stmtAccesses, declaredNames_flatMap_move, listAccesses_move _ ss]
  | break_ | continue_ | empty => rfl

theorem branchAccesses_move (scope : Scope) (s : Option Stmt) :
    branchAccesses scope (move f s) = move f (branchAccesses scope s) := by
  cases s with
  | none => rfl
  | some s =>
    show stmtAccesses (scope.declare (move f s).declaredNames) (move f s) = move f (stmtAccesses _ s)
    rw [Stmt.declaredNames_move, stmtAccesses_move _ s]

theorem headerAccesses_move (scope : Scope) (s : Option Stmt) :
    headerAccesses scope (move f s) = move f (headerAccesses scope s) := by
  cases s with
  | none => rfl
  | some s => exact stmtAccesses_move scope s

theorem listAccesses_move (scope : Scope) (ss : List Stmt) :
    listAccesses scope (move f ss) = move f (listAccesses scope ss) := by
  cases ss with
  | nil => rfl
  | cons s ss =>
    show stmtAccesses scope (move f s) ++ listAccesses scope (move f ss) = move f (_ ++ _)
    rw [stmtAccesses_move _ s, listAccesses_move _ ss, move_append]

end

/-- The accesses in a moved member are moved. -/
theorem memberAccesses_move (m : Member) : scope.memberAccesses (move f m) = move f (scope.memberAccesses m) := by
  have hblock : ∀ (scope : Scope) (b : Block), scope.blockAccesses (move f b) = move f (scope.blockAccesses b) := by
    intro scope b
    show listAccesses (scope.declare ((move f b.stmts).flatMap _)) (move f b.stmts) = move f (listAccesses _ b.stmts)
    rw [declaredNames_flatMap_move, listAccesses_move]
  have hcallable : ∀ (params : List Param) (body : Option Block),
      scope.callableAccesses (move f params) (move f body) = move f (scope.callableAccesses params body) := by
    intro params body
    unfold callableAccesses
    dsimp only
    rw [map_move fun _ => rfl, filterMap_move (g := Param.default) fun _ => rfl,
      flatMap_move fun e _ => scope.exprAccesses_move f e, toList_move, flatMap_move fun b _ => hblock _ b, move_append]
  obtain ⟨decorators, modifiers, shape, span⟩ := m
  cases shape with
  | property name type init => exact scope.optionAccesses_move f init
  | constructor params body => exact hcallable params body
  | method name params returns body => exact hcallable params body
  | accessor kind name params returns body => exact hcallable params body
  | indexSignature => rfl

end Scope

/-- The accesses of a moved file are those of the file, moved. -/
theorem SourceFile.accesses_move (file : SourceFile) (receiver : String) :
    (move f file).accesses receiver = move f (file.accesses receiver) := by
  unfold accesses
  rw [receivers_move, ClassTable.ofFile_move]
  exact flatMap_move fun c _ => flatMap_move fun m _ => Scope.memberAccesses_move f _ m

/-! ## Bindings -/

section Lookup

variable {f}

/-- A moved access is bound to what the access is bound to, if moving does not confuse it with another one. -/
theorem Bindings.get?_ofAccesses_move {accesses : List Access} {span : Span}
    (h : ∀ a ∈ accesses, move f a.span = move f span → a.span = span) :
    (ofAccesses (move f accesses)).get? (move f span) = (ofAccesses accesses).get? span := by
  induction accesses using List.reverseRecOn with
  | nil => rfl
  | append_singleton accesses a ih =>
    have hrest := ih fun x hx => h x (List.mem_append_left _ hx)
    have hlast := h a (by simp)
    rw [move_append, show move f [a] = [move f a] from rfl, ofAccesses_snoc, ofAccesses_snoc, get?_insert, get?_insert,
      hrest]
    show (if move f a.span = move f span then some a.target else _) = _
    by_cases hspan : a.span = span
    · rw [if_pos hspan, if_pos (congrArg (move f) hspan)]
    · rw [if_neg hspan, if_neg fun hmoved => hspan (hlast hmoved)]

/-- The bindings find the moved accesses in the expression as the others find the accesses. -/
def Expr.BoundAlike (f : Nat → Nat) (b' b : Bindings) (e : Expr) : Prop :=
  ∀ span ∈ e.memberSpans, b'.get? (move f span) = b.get? span

/-- The spans of the accesses of a file are those of member accesses in its expressions. -/
theorem SourceFile.mem_memberSpans_of_mem_accesses {file : SourceFile} {receiver : String} {a : Access}
    (h : a ∈ file.accesses receiver) : a.span ∈ file.exprs.flatMap Expr.memberSpans := by
  obtain ⟨names, object, member, haccess, -, -, -⟩ := SourceFile.mem_accesses_iff.mp h
  obtain ⟨e, he, hx⟩ := SourceFile.accesses_iff.mp haccess
  have hexpr : e ∈ file.exprs := file.places_snd_subperm.subset (List.mem_map_of_mem (f := Prod.snd) he)
  exact List.mem_flatMap.mpr ⟨e, hexpr, List.mem_filterMap.mpr ⟨_, hx, rfl⟩⟩

/-- The bindings of a moved file find what the bindings of the file find, if the file so moved was read from a text. -/
theorem SourceFile.boundAlike {file : SourceFile} {source : String} (h : (parse source).file = move f file)
    (receiver : String) {e : Expr} (he : e ∈ file.exprs) :
    e.BoundAlike f ((move f file).bindings receiver) (file.bindings receiver) := by
  have hnodup : ((file.exprs.flatMap Expr.memberSpans).map fun span => f span.stop).Nodup := by
    have hstops : ((move f file).exprs.flatMap fun e => e.memberSpans.map Span.stop).Nodup := h ▸ memberStops_nodup source
    rw [← List.map_flatMap, exprs_move, flatMap_move fun e _ => Expr.memberSpans_move f e] at hstops
    rw [show (fun span : Span => f span.stop) = Span.stop ∘ move f from rfl, ← List.map_map]
    exact hstops
  intro span hspan
  unfold bindings
  rw [accesses_move]
  refine Bindings.get?_ofAccesses_move fun a ha hmoved => ?_
  exact List.inj_on_of_nodup_map hnodup (mem_memberSpans_of_mem_accesses ha) (List.mem_flatMap_of_mem he hspan)
    (congrArg Span.stop hmoved)

end Lookup

end ContractCompiler
