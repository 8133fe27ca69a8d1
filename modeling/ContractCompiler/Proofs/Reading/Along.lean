import ContractCompiler.Proofs.Reading.Extent

/-!
# What is read one after the other

`Along R ns s s'` says that between `s` and `s'` the things `ns` were read in this order, each of them between two states as
`R` says. Other tokens may stand around them. `Makes R s₀ pre p Q` says what holds when `p` returns, if it starts after `pre`
were read since `s₀`, and `Grows R p f` that whatever `p` returns was read along, as `f` takes it apart. They have a rule for
each way in which parsers are put together, and none of the rules depends on what `R` is.
-/

namespace ContractCompiler

open ContractCompiler.Parser

section

variable {ν : Type}

/-- Between the two states the things were read one after the other, each between two states as `R` says. -/
inductive Along (R : ν → ParserState → ParserState → Prop) : List ν → ParserState → ParserState → Prop where
  | done {s s' : ParserState} {ts : List Token} : Passed s ts s' → Along R [] s s'
  | part {n : ν} {ns : List ν} {s s₁ s₂ s' : ParserState} {ts : List Token} :
      Passed s ts s₁ → Consumed s₁ s₂ → R n s₁ s₂ → Along R ns s₂ s' → Along R (n :: ns) s s'

namespace Along

variable {R : ν → ParserState → ParserState → Prop} {n : ν} {ns ms : List ν} {s s₁ s' : ParserState} {ts : List Token}

/-- Where nothing is read nothing was. -/
theorem refl (s : ParserState) : Along R [] s s := .done (Passed.refl s)

/-- What was read one after the other takes the tokens from the first state to the last one. -/
theorem passed (h : Along R ns s s') : ∃ ts, Passed s ts s' := by
  induction h with
  | done hpassed => exact ⟨_, hpassed⟩
  | part hbefore hconsumed _ _ ih =>
    obtain ⟨us, hus⟩ := hconsumed.passed
    obtain ⟨vs, hvs⟩ := ih
    exact ⟨_, (hbefore.trans hus).trans hvs⟩

/-- Everything that is read takes a token. -/
theorem consumed (h : Along R ns s s') (hne : ns ≠ []) : Consumed s s' := by
  refine ⟨h.passed, fun hs => ?_⟩
  cases h with
  | done => exact absurd rfl hne
  | part hbefore hconsumed _ hrest =>
    obtain ⟨us, hne, hus⟩ := hconsumed.took (hbefore.sealed hs)
    obtain ⟨vs, hvs⟩ := hrest.passed
    exact ⟨_, by simp [hne], hbefore.trans (hus.trans hvs)⟩

/-- One thing was read, and nothing around it. -/
theorem single (hconsumed : Consumed s s') (h : R n s s') : Along R [n] s s' :=
  .part (Passed.refl s) hconsumed h (refl s')

/-- Tokens before what was read. -/
theorem before (hts : Passed s ts s₁) (h : Along R ns s₁ s') : Along R ns s s' := by
  cases h with
  | done hpassed => exact .done (hts.trans hpassed)
  | part hbefore hconsumed hn hrest => exact .part (hts.trans hbefore) hconsumed hn hrest

/-- What was read after other things. -/
theorem append (h : Along R ns s s₁) (h' : Along R ms s₁ s') : Along R (ns ++ ms) s s' := by
  induction h with
  | done hpassed => exact h'.before hpassed
  | part hbefore hconsumed hn _ ih => exact .part hbefore hconsumed hn (ih h')

/-- Tokens after what was read. -/
theorem later (h : Along R ns s s₁) (hts : Passed s₁ ts s') : Along R ns s s' := by
  have := h.append (.done hts)
  rwa [List.append_nil] at this

/-- What follows from `R` for each of the things that were read. -/
theorem imp {R' : ν → ParserState → ParserState → Prop} (h : Along R ns s s') (hR : ∀ n ∈ ns, ∀ s s', R n s s' → R' n s s') :
    Along R' ns s s' := by
  induction h with
  | done hpassed => exact .done hpassed
  | part hbefore hconsumed hn _ ih =>
    refine .part hbefore hconsumed (hR _ List.mem_cons_self _ _ hn) (ih fun n hn => hR n (List.mem_cons_of_mem _ hn))

/-- Some of what was read was also read in its order. -/
theorem sublist (h : Along R ns s s') (hsub : ms.Sublist ns) : Along R ms s s' := by
  induction h generalizing ms with
  | done hpassed =>
    rw [List.sublist_nil.mp hsub]
    exact .done hpassed
  | part hbefore hconsumed hn _ ih =>
    cases hsub with
    | cons _ hsub =>
      obtain ⟨us, hus⟩ := hconsumed.passed
      exact (ih hsub).before (hbefore.trans hus)
    | cons_cons _ hsub => exact .part hbefore hconsumed hn (ih hsub)

/-- What `R` says of each thing that was read, on the condition `P`, holds of all of them, if the condition holds of the
whole way and so of every part of it. -/
theorem forall_mem {P : ParserState → ParserState → Prop} {I : ν → Prop}
    (hP : ∀ {s s₁ s₂ s' : ParserState} {ts us vs : List Token}, Passed s ts s₁ → Passed s₁ us s₂ → Passed s₂ vs s' →
      P s s' → P s₁ s₂)
    (h : Along (fun n s s' => P s s' → I n) ns s s') (hs : P s s') : ∀ n ∈ ns, I n := by
  induction h with
  | done => exact List.forall_mem_nil _
  | part hbefore hconsumed hn hrest ih =>
    obtain ⟨us, hus⟩ := hconsumed.passed
    obtain ⟨vs, hvs⟩ := hrest.passed
    exact List.forall_mem_cons.mpr ⟨hn (hP hbefore hus hvs hs), ih (hP (hbefore.trans hus) hvs (Passed.refl _) hs)⟩

end Along

/-! ## Rules -/

variable {α β : Type} {R : ν → ParserState → ParserState → Prop} {s₀ : ParserState}

/-- If `pre` were read since `s₀` when `p` starts, then `Q` holds when it returns. -/
def Makes (R : ν → ParserState → ParserState → Prop) (s₀ : ParserState) (pre : List ν) (p : Parser α)
    (Q : α → ParserState → Prop) : Prop :=
  ∀ s s' a, Along R pre s₀ s → p s = .ok a s' → Q a s'

/-- If `pre` were read since `s₀` when `p` starts, then `post a` were when it returns `a`. -/
def Builds (R : ν → ParserState → ParserState → Prop) (s₀ : ParserState) (pre : List ν) (p : Parser α)
    (post : α → List ν) : Prop :=
  Makes R s₀ pre p fun a s' => Along R (post a) s₀ s'

/-- Whatever `p` returns was read along, as `f` takes it apart. -/
def Grows (R : ν → ParserState → ParserState → Prop) (p : Parser α) (f : α → List ν) : Prop :=
  ∀ s s' a, p s = .ok a s' → Along R (f a) s s'

variable {p : Parser α} {q : α → Parser β} {f : α → List ν} {pre : List ν} {m : α → List ν}
  {Q : β → ParserState → Prop} {post : β → List ν}

namespace Makes

/-- A value without more reading. -/
theorem value {b : β} (h : ∀ s, Along R pre s₀ s → Q b s) : Makes R s₀ pre (Pure.pure b) Q := by
  intro s s' b' halong hb
  obtain ⟨rfl, rfl⟩ := pure_eq_ok.mp hb
  exact h s halong

/-- A value with all that was read. -/
theorem pure {b : β} (h : post b = pre) : Makes R s₀ pre (Pure.pure b) fun b s' => Along R (post b) s₀ s' :=
  value fun _ halong => h ▸ halong

/-- A value that has some of what was read only. -/
theorem keep {b : β} (h : (post b).Sublist pre) : Makes R s₀ pre (Pure.pure b) fun b s' => Along R (post b) s₀ s' :=
  value fun _ halong => halong.sublist h

/-- What is read in two steps. -/
theorem bind (hp : Builds R s₀ pre p m) (hq : ∀ a, Makes R s₀ (m a) (q a) Q) : Makes R s₀ pre (p >>= q) Q := by
  intro s s' b halong h
  obtain ⟨a, s₁, ha, hb⟩ := bind_eq_ok.mp h
  exact hq a s₁ s' b (hp s s₁ a halong ha) hb

/-- What a parser reads comes after what was read before. -/
theorem last (hp : Grows R p f) : Makes R s₀ pre p fun a s' => Along R (pre ++ f a) s₀ s' :=
  fun s s' a halong ha => halong.append (hp s s' a ha)

/-- What a parser reads comes after what was read before. -/
theorem read (hp : Grows R p f) (hq : ∀ a, Makes R s₀ (pre ++ f a) (q a) Q) : Makes R s₀ pre (p >>= q) Q :=
  bind (last hp) hq

/-- A parser of whose values something else is known. -/
theorem readSuch {I : α → Prop} (hp : Grows R p f) (hI : ∀ {s s' : ParserState} {a : α}, p s = .ok a s' → I a)
    (hq : ∀ a, I a → Makes R s₀ (pre ++ f a) (q a) Q) : Makes R s₀ pre (p >>= q) Q := by
  intro s s' b halong h
  obtain ⟨a, s₁, ha, hb⟩ := bind_eq_ok.mp h
  exact hq a (hI ha) s₁ s' b (halong.append (hp s s₁ a ha)) hb

/-- A parser whose value is not looked into. -/
theorem skip (hq : ∀ a, Makes R s₀ pre (q a) Q) : Makes R s₀ pre (p >>= q) Q := by
  refine bind (m := fun _ => pre) (fun s s' a halong ha => ?_) hq
  obtain ⟨ts, hts⟩ := passed_of_ok ha
  exact halong.later hts

/-- A parser that runs only where `c` holds and whose value is not looked into. -/
theorem skipIf {c : Prop} [Decidable c] {q : Parser β} (hq : Makes R s₀ pre q Q) :
    Makes R s₀ pre (if c then p >>= fun _ => q else q) Q := by
  split
  · exact skip fun _ => hq
  · exact hq

/-- Something optional that is read only where `c` holds. -/
theorem readIf {c : Prop} [Decidable c] {t : α → ν} (hp : Grows R p fun a => [t a]) {k : Option α → Parser β}
    (hk : ∀ o, Makes R s₀ (pre ++ o.toList.map t) (k o) Q) :
    Makes R s₀ pre (if c then some <$> p >>= k else Pure.pure none >>= k) Q := by
  split
  · rw [map_eq_bind]
    exact bind (m := fun o => pre ++ o.toList.map t) (read hp fun a => pure rfl) hk
  · exact bind (m := fun o => pre ++ o.toList.map t) (pure (by simp)) hk

/-- Something optional that is left out where `c` holds. -/
theorem readUnless {c : Prop} [Decidable c] {t : α → ν} (hp : Grows R p fun a => [t a]) {k : Option α → Parser β}
    (hk : ∀ o, Makes R s₀ (pre ++ o.toList.map t) (k o) Q) :
    Makes R s₀ pre (if c then Pure.pure none >>= k else some <$> p >>= k) Q := by
  rw [← ite_not]
  exact readIf hp hk

/-- Extending step by step, where every step keeps or extends what was read. -/
theorem chain {step : α → Parser (Option α)} (hstep : ∀ a, Builds R s₀ (f a) (step a) fun o => f (o.getD a)) (a : α) :
    Makes R s₀ (f a) (chain step a) fun b s' => Along R (f b) s₀ s' := by
  have rounds : ∀ n a, Builds R s₀ (f a) (chainUpTo step n a) f := by
    intro n
    induction n with
    | zero => exact fun _ _ _ _ _ h => nomatch h
    | succ n ih =>
      refine fun a => bind (hstep a) fun o => ?_
      cases o with
      | some a' => exact ih a'
      | none => exact pure rfl
  exact fun s s' b halong h => rounds _ a s s' b halong h

end Makes

namespace Grows

variable {t : α → ν}

/-- A parser that starts with nothing read. -/
theorem of_builds (h : ∀ s₀, Builds R s₀ [] p f) : Grows R p f := fun s s' a ha => h s s s' a (.refl s) ha

/-- A parser that looks at the token it starts at. -/
theorem of_here {k : Token → Parser α} (h : ∀ s₀, Builds R s₀ [] (k s₀.here) f) : Grows R (here >>= k) f :=
  fun s s' a ha => h s s s' a (.refl s) ha

/-- What is attempted is read, or nothing is. -/
theorem attempt (hp : Grows R p f) : Grows R (attempt p) fun o => o.toList.flatMap f := by
  intro s s' o h
  cases o with
  | some a => simpa using hp s s' a (attempt_eq_ok_some.mp h)
  | none =>
    obtain ⟨ts, hts⟩ := passed_of_ok h
    exact .done hts

/-- What stands behind a mark, if the mark is there. -/
theorem afterAll (mark : Mark) (hp : Grows R p f) : Grows R (after mark p) fun o => o.toList.flatMap f := by
  refine of_builds fun s₀ => .skip fun found => ?_
  split
  · exact .read hp fun a => .pure (by simp)
  · exact .pure rfl

/-- A single thing behind a mark. -/
theorem after (mark : Mark) (hp : Grows R p fun a => [t a]) : Grows R (after mark p) fun o => o.toList.map t := by
  simp only [List.map_eq_flatMap]
  exact hp.afterAll mark

/-- A failure returns nothing. -/
theorem fail {fault : ParseFault} : Grows R (fail fault) f := fun _ _ _ h => nomatch h

/-- What is read within every bound is read. -/
theorem bounded {p : Nat → Parser α} (hp : ∀ n, Grows R (p n) f) : Grows R (bounded p) f :=
  fun s s' a h => hp _ s s' a h

/-- Repeated reading gives what the rounds give, one after the other. -/
theorem collect {step : Parser (List α × Bool)} (hstep : Grows R step fun r => r.1.flatMap f) :
    Grows R (collect step) fun as => as.flatMap f := by
  refine bounded fun n => ?_
  induction n with
  | zero => exact fail
  | succ n ih =>
    refine of_builds fun s₀ => .read hstep fun r => ?_
    obtain ⟨items, more⟩ := r
    dsimp only
    split
    · exact .read ih fun rest => .pure (by simp)
    · exact .pure (by simp)

/-- The elements of a list up to its closing mark. -/
theorem listUpTo (close : Mark) (separator : Missing) (hp : Grows R p f) :
    Grows R (listUpTo close separator p) fun as => as.flatMap f := by
  refine collect (of_builds fun s₀ => .skip fun closed => ?_)
  split
  · exact .pure rfl
  · refine .read hp fun a => .skip fun closed => ?_
    split
    · exact .pure (by simp)
    · exact .skip fun _ => .pure (by simp)

/-- The elements of a list that has at least one. -/
theorem someUpTo (close : Mark) (separator : Missing) (hp : Grows R p f) :
    Grows R (someUpTo close separator p) fun as => as.flatMap f := by
  refine collect (of_builds fun s₀ => .read hp fun a => .skip fun closed => ?_)
  split
  · exact .pure (by simp)
  · exact .skip fun _ => .pure (by simp)

/-- The arguments of a call. One that cannot be read ends them. -/
theorem arguments {inner : ExprForm → Parser Expr} {t : Expr → ν} (hinner : Grows R (inner .assignment) fun e => [t e]) :
    Grows R (arguments inner) fun es => es.map t := by
  simp only [List.map_eq_flatMap]
  refine of_builds fun s₀ => .skip fun closed => ?_
  split
  · exact .pure rfl
  refine .last (collect (of_builds fun s₀ => .read hinner.attempt fun arg => ?_))
  cases arg with
  | none => exact .pure rfl
  | some arg =>
    refine .skip fun closed => ?_
    split
    · exact .pure (by simp)
    refine .skip fun comma => ?_
    split
    · exact .skip fun _ => .pure (by simp)
    · exact .skip fun _ => .pure (by simp)

end Grows

/-- A dotted name after its first part. -/
theorem Makes.dotted {first : Ident} {what : Missing} {t : Ident → ν} (hname : Grows R (declaredIdent what) fun i => [t i])
    {k : List Ident → Parser β} (hk : ∀ more, Makes R s₀ (pre ++ more.map t) (k (first :: more)) Q) :
    Makes R s₀ pre (dottedFrom first what >>= k) Q := by
  have hsegment : Grows R (do
      if ← accept .dot then return ([← declaredIdent what], true) else return ([], false) :
        Parser (List Ident × Bool)) fun r => r.1.flatMap fun i => [t i] := by
    refine .of_builds fun s₀ => .skip fun found => ?_
    split
    · exact .read hname fun i => .pure (by simp)
    · exact .pure rfl
  intro s s' b halong h
  obtain ⟨path, s₂, hpath, h⟩ := bind_eq_ok.mp h
  obtain ⟨more, s₁, hmore, hpath⟩ := bind_eq_ok.mp hpath
  obtain ⟨rfl, rfl⟩ := pure_eq_ok.mp hpath
  refine hk more _ _ _ ?_ h
  rw [List.map_eq_flatMap]
  exact halong.append (Grows.collect hsegment s s₁ more hmore)

end

end ContractCompiler
