import ContractCompiler.Proofs.Reading.Phrase
import Mathlib.Data.List.Flatten
import Mathlib.Data.List.Perm.Subperm

/-!
# Spans of phrases

A phrase starts where its first token starts, and what holds together by itself ends where its last token ends. So the
member accesses inside a phrase end at different tokens, the names of the members, and no two have the same span.
-/

namespace ContractCompiler

/-- The tokens stand in the order of the source, each of them ending after it starts. -/
def Ascending (ts : List Token) : Prop :=
  (∀ t ∈ ts, t.span.start ≤ t.span.stop) ∧ ts.Pairwise fun a b => a.span.stop ≤ b.span.start

namespace Ascending

variable {ts us : List Token}

/-- Fewer tokens stay in order. -/
theorem sublist (h : Ascending us) (hts : ts.Sublist us) : Ascending ts :=
  ⟨fun t ht => h.1 t (hts.subset ht), h.2.sublist hts⟩

theorem left (h : Ascending (ts ++ us)) : Ascending ts := h.sublist (List.sublist_append_left _ _)

theorem right (h : Ascending (ts ++ us)) : Ascending us := h.sublist (List.sublist_append_right _ _)

/-- No token ends after the last one, or starts after it ends. -/
theorem le_last (h : Ascending ts) {t last : Token} (ht : t ∈ ts) (hlast : ts.getLast? = some last) :
    t.span.start ≤ last.span.stop ∧ t.span.stop ≤ last.span.stop := by
  obtain ⟨us, rfl⟩ := List.getLast?_eq_some_iff.mp hlast
  have hle := h.1 t ht
  rcases List.mem_append.mp ht with hus | hus
  · have := (List.pairwise_append.mp h.2).2.2 t hus last (by simp)
    have := h.1 last (by simp)
    omega
  · rw [List.mem_singleton.mp hus] at hle ⊢
    omega

end Ascending

/-- The span of a single token is its own. -/
theorem spanTo_single {t : Token} (h : t.span.start ≤ t.span.stop) : spanTo t.span.start [t] = t.span :=
  congrArg (Span.mk t.span.start) (Nat.max_eq_left h)

/-- The span up to the end of the tokens ends with the last one. -/
theorem spanTo_stop {ts : List Token} (h : Ascending ts) {t : Token} (ht : t ∈ ts) :
    ∃ last ∈ ts.getLast?, (spanTo t.span.start ts).stop = last.span.stop := by
  obtain ⟨last, hlast⟩ := Option.isSome_iff_exists.mp (List.getLast?_isSome.mpr (List.ne_nil_of_mem ht))
  refine ⟨last, hlast, ?_⟩
  have := (h.le_last ht hlast).1
  simp only [spanTo, hlast, Option.map_some, Option.getD_some]
  omega

/-- A span that goes on to the name after it ends where the name ends. -/
theorem through_stop {ts : List Token} {d t : Token} (h : Ascending (ts ++ [d, t])) {span : Span}
    (hspan : ∃ last ∈ ts.getLast?, span.stop = last.span.stop) : (span.through t.span).stop = t.span.stop := by
  obtain ⟨last, hlast, hstop⟩ := hspan
  have ht : (ts ++ [d, t]).getLast? = some t := by simp
  have hle := (h.le_last (List.mem_append_left _ (List.mem_of_getLast? hlast)) ht).2
  simp only [Span.through, hstop]
  omega

namespace Phrase

variable {clean : Bool} {r : Rank} {ts : List Token} {e : Expr}

/-- A phrase starts where its first token starts. -/
theorem span_start (h : Phrase clean r ts e) : ∃ t ∈ ts.head?, e.span.start = t.span.start := by
  induction h with
  | looser _ _ ih => exact ih
  | trailing _ _ ih =>
    obtain ⟨t, ht, hstart⟩ := ih
    exact ⟨t, by simpa using ht, by simp at ht; rw [ht]; rfl⟩
  | literal | name | this | super => exact ⟨_, rfl, rfl⟩
  | paren | array | object | new | newWith | unary | leading => exact ⟨_, rfl, rfl⟩
  | member _ hts _ _ ih | index hts _ _ _ ih _ | call hts _ _ _ ih _ | nonNull hts _ ih | optionalMember hts _ _ ih
  | optionalIndex hts _ _ _ _ ih _ | optionalCall hts _ _ _ _ ih _ | power hts _ _ ih _ | operation _ hts _ _ _ ih _
  | asType hts _ ih | satisfiesType hts _ ih | conditional _ hts _ _ _ _ ih _ _ | assign _ _ hts _ _ ih _ =>
    obtain ⟨t, ht, hstart⟩ := ih
    refine ⟨t, ?_, hstart⟩
    simp [List.head?_append, Option.mem_def.mp ht]

/-- An expression starts where one of its tokens does. -/
theorem exists_mem_start (h : Phrase clean r ts e) : ∃ t ∈ ts, e.span.start = t.span.start := by
  obtain ⟨t, ht, hstart⟩ := h.span_start
  exact ⟨t, List.mem_of_mem_head? ht, hstart⟩

/-- What holds together by itself ends where its last token ends. -/
theorem span_stop (h : Phrase clean r ts e) (hr : .suffixed ≤ r) (hts : Ascending ts) :
    ∃ t ∈ ts.getLast?, e.span.stop = t.span.stop := by
  induction h with
  | looser _ hr' ih => exact ih (Nat.le_trans hr hr') hts
  | literal | name | this | super => exact ⟨_, rfl, rfl⟩
  | paren | array | object | new | newWith => exact spanTo_stop hts (by simp)
  | index h _ _ _ _ _ | call h _ _ _ _ _ | nonNull h _ _ | optionalIndex h _ _ _ _ _ _ | optionalCall h _ _ _ _ _ _ =>
    obtain ⟨t, ht, hstart⟩ := h.exists_mem_start
    rw [Expr.span, hstart]
    exact spanTo_stop hts (List.mem_append_left _ ht)
  | member _ _ _ _ ih => exact ⟨_, by simp, through_stop hts (ih hr hts.left)⟩
  | optionalMember _ _ _ ih => exact ⟨_, by simp, through_stop hts (ih hr hts.left)⟩
  | unary | leading | trailing | power | asType | satisfiesType | conditional | assign => exact absurd hr (by decide)
  | @operation t =>
    have := t.rank_le
    simp only [Rank.le_iff, Rank.toNat] at hr
    omega

end Phrase

/-! ## Member accesses -/

namespace Expr

/-- The span of an expression that is a member access. -/
def memberSpan? : Expr → Option Span
  | .member span _ _ => some span
  | _ => none

/-- The spans of the member accesses inside an expression. -/
def memberSpans (e : Expr) : List Span := e.subexprs.filterMap memberSpan?

/-- Where the member accesses inside an expression end. -/
def memberStops (e : Expr) : List Nat := e.memberSpans.map Span.stop

/-- The member accesses in a node are its own and those in its parts. -/
theorem memberStops_eq (e : Expr) :
    e.memberStops = (e.memberSpan?.toList.map Span.stop) ++ e.children.flatMap memberStops := by
  rw [memberStops, memberSpans, subexprs_eq, List.filterMap_cons, List.filterMap_flatMap]
  cases e.memberSpan? <;> simp only [List.map_cons, List.map_flatMap] <;> rfl

end Expr

/-- Where the tokens end. -/
def stops (ts : List Token) : List Nat := ts.map fun t => t.span.stop

/-- Two parts end where each of them does. -/
theorem stops_append (ts us : List Token) : stops (ts ++ us) = stops ts ++ stops us := List.map_append

/-- Fewer elements give fewer values. -/
theorem subperm_flatMap {α β : Type} {as bs : List α} (h : as.Subperm bs) (f : α → List β) :
    (as.flatMap f).Subperm (bs.flatMap f) := by
  obtain ⟨cs, hperm, hsub⟩ := h
  exact (hperm.symm.flatMap_right f).subperm.trans (hsub.flatMap f).subperm

/-- Fewer tokens end at fewer places. -/
theorem stops_subperm_stops {ts us : List Token} (h : ts.Subperm us) : (stops ts).Subperm (stops us) := by
  simpa [stops, ← List.map_eq_flatMap] using subperm_flatMap h fun t => [t.span.stop]

theorem stops_sublist {ts us : List Token} (h : ts.Sublist us) : (stops ts).Subperm (stops us) := (h.map _).subperm

/-- Places among the ends of two parts are places among the ends of the whole. -/
theorem subperm_stops_append {as bs : List Nat} {ts us : List Token} (ha : as.Subperm (stops ts))
    (hb : bs.Subperm (stops us)) : (as ++ bs).Subperm (stops (ts ++ us)) := by
  rw [stops_append]
  exact ha.append hb

/-- If the values of every part are ends of its tokens, those of all parts are ends of all their tokens. -/
theorem stops_subperm {α : Type} {parts : List (List Token × α)} {f : α → List Nat}
    (hf : ∀ p ∈ parts, (f p.2).Subperm (stops p.1)) :
    ((parts.map Prod.snd).flatMap f).Subperm (stops (parts.flatMap Prod.fst)) := by
  induction parts with
  | nil => exact List.nil_subperm
  | cons p parts ih =>
    rw [List.map_cons, List.flatMap_cons, List.flatMap_cons]
    exact subperm_stops_append (hf p (by simp)) (ih fun q hq => hf q (by simp [hq]))

/-- What holds for the items of a list holds for the list. -/
theorem Listed.stops_subperm {α : Type} {clean : Bool} {close : Mark} {parts : List (List Token × α)} {ts : List Token}
    (h : Listed clean close parts ts) {f : α → List Nat} (hf : ∀ p ∈ parts, (f p.2).Subperm (stops p.1)) :
    ((parts.map Prod.snd).flatMap f).Subperm (stops ts) :=
  (ContractCompiler.stops_subperm hf).trans (stops_sublist h.sublist)

/-! What is known of the accesses inside a part of a phrase holds in the whole. -/

section Parts

variable {clean : Bool} {part whole : List Token} {e : Expr}

/-- What holds for a part of a phrase holds in the phrase. -/
theorem memberStops_of_part (h : Ascending part → e.memberStops.Subperm (stops part)) (hsub : part.Sublist whole)
    (hwhole : Ascending whole) : e.memberStops.Subperm (stops whole) :=
  (h (hwhole.sublist hsub)).trans (stops_sublist hsub)

theorem memberStops_of_list {parts : List (List Token × Expr)} {close : Mark}
    (h : ∀ p ∈ parts, Ascending p.1 → p.2.memberStops.Subperm (stops p.1)) (hlist : Listed clean close parts part)
    (hsub : part.Sublist whole) (hwhole : Ascending whole) :
    ((parts.map Prod.snd).flatMap Expr.memberStops).Subperm (stops whole) := by
  refine (hlist.stops_subperm fun p hp => h p hp ?_).trans (stops_sublist hsub)
  exact hwhole.sublist ((hlist.sublist_of_mem hp).trans hsub)

/-- An access itself ends at the name of the member. -/
theorem memberStops_of_name {d t : Token} (hstop : ∃ u ∈ part.getLast?, e.span.stop = u.span.stop)
    (h : Ascending part → e.memberStops.Subperm (stops part)) (hts : Ascending (part ++ [d, t])) :
    ((e.span.through t.span).stop :: e.memberStops).Subperm (stops (part ++ [d, t])) := by
  rw [through_stop hts hstop]
  refine (List.perm_append_singleton _ _).symm.subperm.trans (subperm_stops_append (h hts.left) ?_)
  exact ((List.Sublist.refl [t.span.stop]).cons d.span.stop).subperm

end Parts

/-- The member accesses inside a phrase end at different tokens of it. -/
theorem Phrase.memberStops {clean : Bool} {r : Rank} {ts : List Token} {e : Expr} (h : Phrase clean r ts e)
    (hts : Ascending ts) : e.memberStops.Subperm (stops ts) := by
  induction h with
  | looser _ _ ih => exact ih hts
  | literal | name | this | super => exact List.nil_subperm
  | paren _ _ _ ih =>
    rw [Expr.memberStops_eq]
    simpa [Expr.memberSpan?, Expr.children] using memberStops_of_part ih ((List.sublist_append_left _ _).cons _) hts
  | unary _ _ ih | leading _ _ ih =>
    rw [Expr.memberStops_eq]
    simpa [Expr.memberSpan?, Expr.children] using memberStops_of_part ih (List.sublist_cons_self _ _) hts
  | trailing _ _ ih | nonNull _ _ ih | asType _ _ ih | satisfiesType _ _ ih =>
    rw [Expr.memberStops_eq]
    simpa [Expr.memberSpan?, Expr.children] using memberStops_of_part ih (List.sublist_append_left _ _) hts
  | array _ _ hlist ih =>
    rw [Expr.memberStops_eq]
    exact memberStops_of_list ih hlist (List.sublist_cons_self _ _) hts
  | object _ hentry _ hlist ih =>
    rw [Expr.memberStops_eq]
    have hfields := hlist.stops_subperm (f := fun field => field.value.memberStops) fun p hp => ?_
    · simpa [Expr.memberSpan?, Expr.children, List.flatMap_map] using
        hfields.trans (stops_sublist (List.sublist_cons_self _ _))
    have hp' : Ascending p.1 := hts.sublist ((hlist.sublist_of_mem hp).trans (List.sublist_cons_self _ _))
    obtain ⟨us, field⟩ := p
    cases hentry _ hp with
    | short _ => exact List.nil_subperm
    | long _ _ => exact memberStops_of_part (ih _ _ _ _ hp) ((List.sublist_cons_self _ _).trans (List.sublist_cons_self _ _)) hp'
  | new _ _ _ ih =>
    rw [Expr.memberStops_eq]
    simpa [Expr.memberSpan?, Expr.children] using memberStops_of_part ih ((List.sublist_append_left _ _).cons _) hts
  | newWith _ _ _ _ _ hlist ih ihargs =>
    rw [Expr.memberStops_eq]
    simpa [Expr.memberSpan?, Expr.children] using
      subperm_stops_append (memberStops_of_part ih ((List.sublist_append_left _ _).cons _) hts.left)
        (memberStops_of_list ihargs hlist (List.sublist_cons_self _ _) hts.right)
  | member hr h _ _ ih =>
    rw [Expr.memberStops_eq]
    have hstop := h.span_stop (by rcases hr with rfl | rfl <;> decide) hts.left
    simpa [Expr.memberSpan?, Expr.children] using memberStops_of_name hstop ih hts
  | optionalMember h _ _ ih =>
    rw [Expr.memberStops_eq]
    have hstop := h.span_stop (by decide) hts.left
    simpa [Expr.memberSpan?, Expr.children, Expr.memberStops_eq (.member ..)] using memberStops_of_name hstop ih hts
  | index _ _ _ _ ih ihkey =>
    rw [Expr.memberStops_eq]
    simpa [Expr.memberSpan?, Expr.children] using
      subperm_stops_append (ih hts.left) (memberStops_of_part ihkey ((List.sublist_append_left _ _).cons _) hts.right)
  | optionalIndex _ _ _ _ _ ih ihkey =>
    rw [Expr.memberStops_eq]
    simpa [Expr.memberSpan?, Expr.children, Expr.memberStops_eq (.index ..)] using
      subperm_stops_append (ih hts.left) (memberStops_of_part ihkey (((List.sublist_append_left _ _).cons _).cons _) hts.right)
  | call _ _ _ hlist ih ihargs =>
    rw [Expr.memberStops_eq]
    simpa [Expr.memberSpan?, Expr.children] using
      subperm_stops_append (ih hts.left) (memberStops_of_list ihargs hlist (List.sublist_cons_self _ _) hts.right)
  | optionalCall _ _ _ _ hlist ih ihargs =>
    rw [Expr.memberStops_eq]
    simpa [Expr.memberSpan?, Expr.children, Expr.memberStops_eq (.call ..)] using
      subperm_stops_append (ih hts.left) (memberStops_of_list ihargs hlist ((List.sublist_cons_self _ _).cons _) hts.right)
  | power _ _ _ ihl ihr =>
    rw [Expr.memberStops_eq]
    simpa [Expr.memberSpan?, Expr.children] using
      subperm_stops_append (ihl hts.left) (memberStops_of_part ihr (List.sublist_cons_self _ _) hts.right)
  | operation _ _ _ _ _ ihl ihr | assign _ _ _ _ _ ihl ihr =>
    rw [Expr.memberStops_eq]
    simpa [Expr.memberSpan?, Expr.children] using
      subperm_stops_append (ihl hts.left) (memberStops_of_part ihr (List.sublist_append_right _ _) hts.right)
  | conditional _ _ _ _ _ _ ih ihc iha =>
    rw [Expr.memberStops_eq]
    have hthen := memberStops_of_part ihc (List.sublist_cons_self _ _) hts.left.right
    simpa [Expr.memberSpan?, Expr.children] using
      subperm_stops_append (subperm_stops_append (ih hts.left.left) hthen) (memberStops_of_part iha (List.sublist_cons_self _ _) hts.right)

end ContractCompiler
