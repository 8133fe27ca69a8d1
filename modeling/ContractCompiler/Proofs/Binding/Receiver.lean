import ContractCompiler.Proofs.Binding.LexicalScope
import ContractCompiler.Proofs.ClassTable
import ContractCompiler.Proofs.Tree.Equality
import Mathlib.Data.List.Pairwise

/-!
# Binding the receiver is lexical scoping

A member access in a class of the class table is bound exactly if its object is a name of the receiver in the file that
no scope around the access declares. What stands at one span is one access, since the accesses of a file end at
different tokens; so a look-up by span finds the binding of the access itself.
-/

namespace ContractCompiler

/-! ## Bindings by span -/

namespace Bindings

variable {b : Bindings} {span : Span} {target : Target}

/-- Binding a span leaves the other spans as they are bound. -/
theorem get?_insert (b : Bindings) (key : Span) (target : Target) (span : Span) :
    (b.insert key target).get? span = if key = span then some target else b.get? span := by
  unfold get? insert
  rw [List.find?_append]
  by_cases h : key = span
  · have hnone : (b.entries.filter fun entry => entry.1 ≠ key).find? (fun entry => entry.1 = span) = none := by
      rw [List.find?_eq_none]
      intro entry hentry
      have := (List.mem_filter.mp hentry).2
      simpa [h] using this
    rw [hnone]
    simp [h]
  · have hkeep : (fun entry : Span × Target => decide (decide (entry.1 ≠ key) = true ∧ decide (entry.1 = span) = true)) =
        fun entry => decide (entry.1 = span) := by
      funext entry
      by_cases he : entry.1 = span
      · simp [he, Ne.symm h]
      · simp [he]
    rw [List.find?_filter, hkeep, if_neg h]
    cases b.entries.find? fun entry => decide (entry.1 = span) <;> simp [h]

/-- The last access is bound last. -/
theorem ofAccesses_snoc (accesses : List Access) (a : Access) :
    ofAccesses (accesses ++ [a]) = (ofAccesses accesses).insert a.span a.target := by
  simp [ofAccesses]

/-- A binding was made for an access at its span. -/
theorem exists_of_get?_ofAccesses {accesses : List Access} (h : (ofAccesses accesses).get? span = some target) :
    ∃ a ∈ accesses, a.span = span ∧ a.target = target := by
  induction accesses using List.reverseRecOn with
  | nil => cases h
  | append_singleton accesses a ih =>
    rw [ofAccesses_snoc, get?_insert] at h
    split at h
    · rename_i hspan
      cases h
      exact ⟨a, by simp, hspan, rfl⟩
    · obtain ⟨a', ha', h⟩ := ih h
      exact ⟨a', by simp [ha'], h⟩

/-- Where an access was made there is a binding. -/
theorem exists_get?_ofAccesses {accesses : List Access} {a : Access} (ha : a ∈ accesses) :
    ∃ target, (ofAccesses accesses).get? a.span = some target := by
  induction accesses using List.reverseRecOn with
  | nil => cases ha
  | append_singleton accesses a' ih =>
    rw [ofAccesses_snoc]
    simp only [get?_insert]
    by_cases hspan : a'.span = a.span
    · exact ⟨_, if_pos hspan⟩
    · simp only [if_neg hspan]
      rcases List.mem_append.mp ha with ha | ha
      · exact ih ha
      · exact absurd (congrArg Access.span (List.mem_singleton.mp ha)).symm hspan

end Bindings

/-! ## Names and offers of the receiver -/

/-- The name stands for the receiver in the file, unless a scope hides it: the receiver is imported under it, or is not
imported at all and is called so; and no class of the file is called so. -/
def SourceFile.NamesReceiver (file : SourceFile) (receiver name : String) : Prop :=
  ((∃ i ∈ file.imports, ∃ s ∈ i.named, s.imported.name = receiver ∧ s.localName.name = name) ∨
    (∀ i ∈ file.imports, ∀ s ∈ i.named, s.imported.name ≠ receiver) ∧ name = receiver) ∧
  ∀ c ∈ file.classes, c.name.name ≠ name

namespace SourceFile

variable {file : SourceFile} {receiver name : String}

/-- The receiver is imported under a name just if some import says so. -/
theorem mem_importedAs_iff :
    name ∈ file.importedAs receiver ↔
      ∃ i ∈ file.imports, ∃ s ∈ i.named, s.imported.name = receiver ∧ s.localName.name = name := by
  simp only [importedAs, List.mem_filterMap, List.mem_flatMap, Option.ite_none_right_eq_some, Option.some.injEq]
  constructor
  · rintro ⟨s, ⟨i, hi, hs⟩, h⟩
    exact ⟨i, hi, s, hs, h⟩
  · rintro ⟨i, hi, s, hs, h⟩
    exact ⟨s, ⟨i, hi, hs⟩, h⟩

/-- A name may stand for the receiver if the receiver is imported under it, or if it is not imported at all and called so. -/
theorem mem_candidateReceivers_iff :
    name ∈ file.candidateReceivers receiver ↔
      name ∈ file.importedAs receiver ∨ (∀ n, n ∉ file.importedAs receiver) ∧ name = receiver := by
  have hmem : ∀ n, n ∈ (file.importedAs receiver).eraseDups ↔ n ∈ file.importedAs receiver :=
    fun n => List.mem_eraseDups
  unfold candidateReceivers
  split
  · rename_i hnil
    have hnone : ∀ n, n ∉ file.importedAs receiver := fun n hn => by
      rw [← hmem, hnil] at hn
      cases hn
    simp [hnone]
  · rename_i hne
    have hsome : ¬∀ n, n ∉ file.importedAs receiver := fun hnone =>
      hne (List.eq_nil_iff_forall_not_mem.mpr fun n hn => hnone n ((hmem n).mp hn))
    simp only [hmem, hsome, false_and, or_false]

/-- The names of the receiver that a file is compiled with are those that stand for it. -/
theorem mem_receivers_iff : name ∈ file.receivers receiver ↔ file.NamesReceiver receiver name := by
  have hnone : (∀ n, n ∉ file.importedAs receiver) ↔
      ∀ i ∈ file.imports, ∀ s ∈ i.named, s.imported.name ≠ receiver := by
    simp only [mem_importedAs_iff]
    constructor
    · exact fun h i hi s hs heq => h _ ⟨i, hi, s, hs, heq, rfl⟩
    · rintro h n ⟨i, hi, s, hs, heq, -⟩
      exact h i hi s hs heq
  have hclass : (!(ClassTable.ofFile file).contains name) = true ↔ ∀ c ∈ file.classes, c.name.name ≠ name := by
    rw [Bool.not_eq_true', ← Bool.not_eq_true, ClassTable.contains_ofFile]
    simp
  rw [receivers, List.mem_filter, mem_candidateReceivers_iff, mem_importedAs_iff, hnone, hclass]
  rfl

end SourceFile

/-- What the receiver offers under a member name: an intrinsic, or nothing. -/
inductive Target.Offered : Target → String → Prop where
  | known (i : Intrinsic) : Offered (.known i) i.memberName
  | unknown {name : String} : (∀ i : Intrinsic, i.memberName ≠ name) → Offered (.unknown name) name

/-- What the receiver offers under a name is what the name is looked up as. -/
theorem Target.offered_iff {t : Target} {name : String} : t.Offered name ↔ Target.ofMember name = t := by
  unfold ofMember
  constructor
  · intro h
    cases h with
    | known i => rw [Intrinsic.ofMember?_eq_some_iff.mpr rfl]
    | unknown hne =>
      cases hof : Intrinsic.ofMember? name with
      | none => rfl
      | some i => exact absurd (Intrinsic.ofMember?_eq_some_iff.mp hof) (hne i)
  · rintro rfl
    cases hof : Intrinsic.ofMember? name with
    | none =>
      refine .unknown fun i hi => ?_
      rw [Intrinsic.ofMember?_eq_some_iff.mpr hi] at hof
      cases hof
    | some i =>
      rw [← Intrinsic.ofMember?_eq_some_iff.mp hof]
      exact .known i

/-! ## Places in a file -/

/-- An element that shares a value with another one is the other one, if no value is listed twice. -/
theorem eq_of_nodup_flatMap {α β : Type} {l : List α} {f : α → List β} (h : (l.flatMap f).Nodup) {a b : α} {x : β}
    (ha : a ∈ l) (hb : b ∈ l) (hxa : x ∈ f a) (hxb : x ∈ f b) : a = b := by
  by_contra hne
  have : Std.Symm (Function.onFun List.Disjoint f) := ⟨fun _ _ h _ hx hy => h hy hx⟩
  exact (List.nodup_flatMap.mp h).2.forall ha hb hne hxa hxb

namespace SourceFile

/-- The expressions in the members of the class table, decorators apart, each with the names that are declared for it. -/
def places (file : SourceFile) : List (List String × Expr) :=
  (ClassTable.ofFile file).classes.flatMap fun c => c.members.flatMap Member.places

/-- The expressions of a file are those of its classes. -/
theorem exprs_eq (file : SourceFile) : file.exprs = file.classes.flatMap ClassDecl.exprs := by
  unfold exprs classes
  rw [List.filterMap_eq_flatMap_toList, List.flatMap_assoc]
  refine List.flatMap_congr fun i _ => ?_
  cases i.shape <;> simp [ItemShape.exprs]

/-- No expression of a file has two places. -/
theorem places_snd_subperm (file : SourceFile) : (file.places.map Prod.snd).Subperm file.exprs := by
  have hclasses : (ClassTable.ofFile file).classes.Subperm file.classes :=
    (ClassTable.classes_nodup file).subperm fun _ => ClassTable.mem_of_mem_classes
  have hplaces : file.places.map Prod.snd =
      (ClassTable.ofFile file).classes.flatMap fun c => c.members.flatMap fun m => m.shape.exprs := by
    simp only [places, List.map_flatMap, Member.places_snd]
  rw [hplaces, exprs_eq]
  refine (subperm_flatMap hclasses _).trans (List.Sublist.subperm ?_)
  refine List.Sublist.flatMap_right _ fun c _ => ?_
  refine List.Sublist.trans ?_ (List.sublist_append_right _ _)
  exact List.Sublist.flatMap_right _ fun m _ => List.sublist_append_right _ _

end SourceFile

/-- Two member accesses of a parsed file with the same span are one access at one place. -/
theorem eq_of_span_eq {source : String} {p q : List String × Expr} {x y : Expr} {span : Span}
    (hp : p ∈ (parse source).file.places) (hq : q ∈ (parse source).file.places) (hx : x ∈ p.2.subexprs)
    (hy : y ∈ q.2.subexprs) (hxs : x.memberSpan? = some span) (hys : y.memberSpan? = some span) : p = q ∧ x = y := by
  have hstops : ∀ {x e : Expr}, x ∈ e.subexprs → x.memberSpan? = some span →
      span.stop ∈ e.memberStops := by
    intro x e hx hxs
    exact List.mem_map_of_mem (List.mem_filterMap.mpr ⟨x, hx, hxs⟩)
  have hnodup : ((parse source).file.places.flatMap fun p => p.2.memberStops).Nodup := by
    have hsub := subperm_flatMap (SourceFile.places_snd_subperm (parse source).file) Expr.memberStops
    rw [List.flatMap_map] at hsub
    obtain ⟨stops', hperm, hsub⟩ := hsub
    exact hperm.nodup_iff.mp ((memberStops_nodup source).sublist hsub)
  have hpq := eq_of_nodup_flatMap hnodup hp hq (hstops hx hxs) (hstops hy hys)
  subst hpq
  refine ⟨rfl, ?_⟩
  have hinside := (List.nodup_flatMap.mp hnodup).1 p hp
  rw [Expr.memberStops, Expr.memberSpans, List.filterMap_eq_flatMap_toList, List.map_flatMap] at hinside
  exact eq_of_nodup_flatMap hinside hx hy (x := span.stop) (by simp [hxs]) (by simp [hys])

/-! ## The binding of an access -/

/-- The access `object.member` at `span` stands in a member of the class table, decorators apart, at a place for which
the scopes inside the member declare `names`. -/
def SourceFile.Accesses (file : SourceFile) (names : List String) (object member : Ident) (span : Span) : Prop :=
  ∃ c ∈ (ClassTable.ofFile file).classes, ∃ m ∈ c.members, ∃ e, m.At names e ∧
    .member span (.ident object) member ∈ e.subexprs

/-- An access is bound for a member of a name that stands for the receiver and is not declared where it stands. -/
theorem Scope.access?_eq_some_iff {scope : Scope} {x : Expr} {a : Access} :
    scope.access? x = some a ↔ ∃ object member, x = .member a.span (.ident object) member ∧
      object.name ∈ scope.receivers ∧ object.name ∉ scope.declared ∧ a = ⟨object.name, member.name, a.span⟩ := by
  unfold access?
  split
  · rename_i span object member
    have hreceiver : scope.isReceiver object.name = true ↔
        object.name ∈ scope.receivers ∧ object.name ∉ scope.declared := by
      simp [isReceiver]
    by_cases h : scope.isReceiver object.name = true
    · rw [if_pos h]
      constructor
      · intro ha
        cases ha
        exact ⟨object, member, rfl, (hreceiver.mp h).1, (hreceiver.mp h).2, rfl⟩
      · rintro ⟨_, _, heq, -, -, ha⟩
        cases heq
        rw [← ha]
    · rw [if_neg h]
      refine ⟨nofun, ?_⟩
      rintro ⟨_, _, heq, hr, hd, -⟩
      cases heq
      exact absurd (hreceiver.mpr ⟨hr, hd⟩) h
  · rename_i hne
    refine ⟨nofun, ?_⟩
    rintro ⟨object, member, rfl, -⟩
    exact absurd rfl (hne _ _ _)

/-- The accesses that are bound are those on a name of the receiver that no scope around declares. -/
theorem SourceFile.mem_accesses_iff {file : SourceFile} {receiver : String} {a : Access} :
    a ∈ file.accesses receiver ↔ ∃ names object member, file.Accesses names object member a.span ∧
      file.NamesReceiver receiver object.name ∧ object.name ∉ names ∧ a = ⟨object.name, member.name, a.span⟩ := by
  simp only [accesses, List.mem_flatMap, Scope.mem_memberAccesses_iff, Scope.exprAccesses, List.mem_filterMap,
    Scope.access?_eq_some_iff, Scope.declare, List.append_nil, mem_receivers_iff]
  constructor
  · rintro ⟨c, hc, m, hm, names, e, he, _, hx, object, member, rfl, hr, hd, ha⟩
    exact ⟨names, object, member, ⟨c, hc, m, hm, e, he, hx⟩, hr, hd, ha⟩
  · rintro ⟨names, object, member, ⟨c, hc, m, hm, e, he, hx⟩, hr, hd, ha⟩
    exact ⟨c, hc, m, hm, names, e, he, _, hx, object, member, rfl, hr, hd, ha⟩

/-- An access stands in the file just if it stands at one of its places. -/
theorem SourceFile.accesses_iff {file : SourceFile} {names : List String} {object member : Ident} {span : Span} :
    file.Accesses names object member span ↔
      ∃ e, (names, e) ∈ file.places ∧ .member span (.ident object) member ∈ e.subexprs := by
  simp only [places, List.mem_flatMap, Member.mem_places]
  constructor
  · rintro ⟨c, hc, m, hm, e, he, hx⟩
    exact ⟨e, ⟨c, hc, m, hm, he⟩, hx⟩
  · rintro ⟨e, ⟨c, hc, m, hm, he⟩, hx⟩
    exact ⟨c, hc, m, hm, e, he, hx⟩

/-- An access of a parsed file is known by its span. -/
theorem SourceFile.Accesses.eq_of_span {source : String} {names names' : List String}
    {object object' member member' : Ident} {span : Span}
    (h : (parse source).file.Accesses names object member span)
    (h' : (parse source).file.Accesses names' object' member' span) :
    names = names' ∧ object = object' ∧ member = member' := by
  obtain ⟨e, he, hx⟩ := SourceFile.accesses_iff.mp h
  obtain ⟨e', he', hx'⟩ := SourceFile.accesses_iff.mp h'
  obtain ⟨hplace, hnode⟩ := eq_of_span_eq he he' hx hx' rfl rfl
  cases hplace
  cases hnode
  exact ⟨rfl, rfl, rfl⟩

/-- Binding is lexical scoping: a member access in a class of the class table is bound exactly if its object names the
receiver in the file and no scope around the access declares it, and then to what the receiver offers under the name of
the member. -/
theorem bound_iff_not_declared (source receiver : String) {names : List String} {object member : Ident} {span : Span}
    (h : (parse source).file.Accesses names object member span) (target : Target) :
    ((parse source).file.bindings receiver).get? span = some target ↔
      (parse source).file.NamesReceiver receiver object.name ∧ object.name ∉ names ∧ target.Offered member.name := by
  -- every access that was bound at this span is the one in question
  have hbound : ∀ {t : Target}, ((parse source).file.bindings receiver).get? span = some t →
      (parse source).file.NamesReceiver receiver object.name ∧ object.name ∉ names ∧ t.Offered member.name := by
    intro t ht
    obtain ⟨a, ha, rfl, rfl⟩ := Bindings.exists_of_get?_ofAccesses ht
    obtain ⟨names', object', member', h', hr, hd, heq⟩ := SourceFile.mem_accesses_iff.mp ha
    obtain ⟨rfl, rfl, rfl⟩ := h.eq_of_span h'
    refine ⟨hr, hd, Target.offered_iff.mpr ?_⟩
    rw [heq]
    rfl
  refine ⟨hbound, ?_⟩
  rintro ⟨hr, hd, hoffered⟩
  have ha : ⟨object.name, member.name, span⟩ ∈ (parse source).file.accesses receiver :=
    SourceFile.mem_accesses_iff.mpr ⟨names, object, member, h, hr, hd, rfl⟩
  obtain ⟨t, ht⟩ := Bindings.exists_get?_ofAccesses ha
  have hsame : t = target := by
    rw [← Target.offered_iff.mp hoffered, ← Target.offered_iff.mp (hbound ht).2.2]
  rw [← hsame]
  exact ht

/-- A loop over a collection reached through `M`, with a variable called `M`. -/
def loopSource : String := "class A\x7bf()\x7bfor(let M of M.log)M.log\x7d\x7d"

/-- A loop variable called as the receiver hides it in the body of the loop, but not in the collection. -/
theorem bound_in_collection_not_in_body :
    ((parse loopSource).file.bindings "M").get? ⟨25, 30⟩ = some (.known .log) ∧
      ((parse loopSource).file.bindings "M").get? ⟨31, 36⟩ ≠ some (.known .log) := by
  have hread : ((parse loopSource).file.places, (parse loopSource).file.imports,
      (parse loopSource).file.classes.map fun c => c.name.name) =
      ([([], .member ⟨25, 30⟩ (.ident ⟨"M", ⟨25, 26⟩⟩) ⟨"log", ⟨27, 30⟩⟩),
       (["M"], .member ⟨31, 36⟩ (.ident ⟨"M", ⟨31, 32⟩⟩) ⟨"log", ⟨33, 36⟩⟩)], [], ["A"]) := by decide +kernel
  simp only [Prod.mk.injEq] at hread
  obtain ⟨hplaces, himports, hclasses⟩ := hread
  have hcollection : (parse loopSource).file.Accesses [] ⟨"M", ⟨25, 26⟩⟩ ⟨"log", ⟨27, 30⟩⟩ ⟨25, 30⟩ :=
    SourceFile.accesses_iff.mpr ⟨_, by rw [hplaces]; exact List.mem_cons_self, by simp [Expr.subexprs]⟩
  have hbody : (parse loopSource).file.Accesses ["M"] ⟨"M", ⟨31, 32⟩⟩ ⟨"log", ⟨33, 36⟩⟩ ⟨31, 36⟩ :=
    SourceFile.accesses_iff.mpr ⟨_, by rw [hplaces]; exact List.mem_cons_of_mem _ List.mem_cons_self,
      by simp [Expr.subexprs]⟩
  have hreceiver : (parse loopSource).file.NamesReceiver "M" "M" := by
    refine ⟨.inr ⟨by simp [himports], rfl⟩, fun c hc => ?_⟩
    have hname := List.mem_map_of_mem (f := fun c : ClassDecl => c.name.name) hc
    rw [hclasses, List.mem_singleton] at hname
    rw [hname]
    decide
  refine ⟨(bound_iff_not_declared _ _ hcollection _).mpr ⟨hreceiver, List.not_mem_nil, .known .log⟩, fun h => ?_⟩
  exact ((bound_iff_not_declared _ _ hbody _).mp h).2.1 (by simp)

end ContractCompiler
