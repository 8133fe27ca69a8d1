import ContractCompiler.Proofs.Reading.Accepted

/-!
# Skipped tokens

Some tokens are read without becoming part of the tree: lists in angle brackets after the name of a class, a base class,
the name of a method and the callee of `new`, and what stands between the header of a class and its opening brace. In a
source text without errors these are exactly the tokens described here. A list after a name goes up to the bracket that
closes it; after the callee of `new`, where `<` may have been meant as a comparison, it may also run to the end of the
input. Nothing is asked of the tokens inside a list, and of those before the opening brace only that they are no opening
brace.
-/

namespace ContractCompiler

/-! ## Lists in angle brackets -/

/-- How many of the tokens are `<`. -/
def openAngles (ts : List Token) : Nat := ts.countP fun t => t.kind = .mark .lt

/-- How many of the tokens are `>`. -/
def closeAngles (ts : List Token) : Nat := ts.countP fun t => t.kind = .mark .gt

/-- The first token counts by itself. -/
theorem openAngles_cons (t : Token) (ts : List Token) : openAngles (t :: ts) = openAngles [t] + openAngles ts := by
  rw [← List.singleton_append]
  exact List.countP_append

theorem closeAngles_cons (t : Token) (ts : List Token) : closeAngles (t :: ts) = closeAngles [t] + closeAngles ts := by
  rw [← List.singleton_append]
  exact List.countP_append

/-- After `depth` open brackets, the tokens do not close the first one of them. -/
def StaysOpen (depth : Nat) (ts : List Token) : Prop := ∀ us, us <+: ts → closeAngles us < openAngles us + depth

/-- The tokens start with `<` and end with the `>` that matches it. -/
def AngleList (ts : List Token) : Prop :=
  ∃ o us c, ts = o :: (us ++ [c]) ∧ o.kind = .mark .lt ∧ c.kind = .mark .gt ∧ StaysOpen 1 us ∧
    closeAngles us = openAngles us

/-- The tokens start with `<`, and none of them matches it. -/
def UnclosedAngles (ts : List Token) : Prop := ∃ o us, ts = o :: us ∧ o.kind = .mark .lt ∧ StaysOpen 1 us

/-- The tokens `run` before `rest` are a list in angle brackets, or none where no `<` comes. -/
def SkippedAngles (run rest : List Token) : Prop :=
  (run = [] ∧ ∀ t ∈ rest.head?, t.kind ≠ .mark .lt) ∨ AngleList run

/-- Without tokens every bracket stays open. -/
theorem StaysOpen.nil {depth : Nat} (hdepth : 0 < depth) : StaysOpen depth [] := by
  intro us hus
  rw [List.prefix_nil.mp hus]
  exact Nat.lt_add_left _ hdepth

/-- A token in front changes the depth by what it opens and closes. -/
theorem StaysOpen.cons {depth depth' : Nat} {t : Token} {ts : List Token} (hdepth : 0 < depth)
    (ht : depth' + closeAngles [t] = depth + openAngles [t]) (h : StaysOpen depth' ts) : StaysOpen depth (t :: ts) := by
  intro us hus
  rcases List.prefix_cons_iff.mp hus with rfl | ⟨vs, rfl, hvs⟩
  · exact Nat.lt_add_left _ hdepth
  · have hlt := h vs hvs
    rw [openAngles_cons, closeAngles_cons]
    omega

/-- What one step of skipping a list in angle brackets does. -/
theorem Cursor.angleStep_cases (depth : Nat) (k : TokenKind) :
    (k = .mark .lt ∧ angleStep depth k = .take (depth + 1)) ∨ (k = .mark .gt ∧ depth ≤ 1 ∧ angleStep depth k = .last) ∨
      (k = .mark .gt ∧ 1 < depth ∧ angleStep depth k = .take (depth - 1)) ∨
      (k ≠ .mark .lt ∧ k ≠ .mark .gt ∧ angleStep depth k = .take depth) := by
  unfold angleStep
  split
  · exact .inl ⟨rfl, rfl⟩
  · by_cases hone : depth ≤ 1
    · exact .inr (.inl ⟨rfl, hone, if_pos hone⟩)
    · exact .inr (.inr (.inl ⟨rfl, by omega, if_neg hone⟩))
  · rename_i hlt hgt
    exact .inr (.inr (.inr ⟨hlt, hgt, rfl⟩))

namespace Parser

/-- What skipping takes at `depth` open brackets: up to the `>` that closes the first one, or all that is left. -/
def TookAngles (depth : Nat) (s : ParserState) (ts : List Token) (s' : ParserState) : Prop :=
  Passed s ts s' ∧
    ((∃ us c, ts = us ++ [c] ∧ c.kind = .mark .gt ∧ StaysOpen depth us ∧ closeAngles us + 1 = openAngles us + depth) ∨
      (StaysOpen depth ts ∧ s'.here.kind = .endOfInput))

/-- One more token is taken in front of the others. -/
theorem TookAngles.cons {depth depth' : Nat} {s s' : ParserState} {ts : List Token} (hs : s.Sealed)
    (hk : s.here.kind ≠ .endOfInput) (hdepth : 0 < depth)
    (hd : depth' + closeAngles [s.here] = depth + openAngles [s.here]) (h : TookAngles depth' s.next ts s') :
    TookAngles depth s (s.here :: ts) s' := by
  refine ⟨(passed_here hs hk).trans h.1, ?_⟩
  rcases h.2 with ⟨us, c, rfl, hc, hopen, hcount⟩ | ⟨hopen, hend⟩
  · refine .inl ⟨s.here :: us, c, rfl, hc, hopen.cons hdepth hd, ?_⟩
    rw [openAngles_cons, closeAngles_cons]
    omega
  · exact .inr ⟨hopen.cons hdepth hd, hend⟩

/-- Skipping with `depth` brackets open. -/
theorem tookAngles_of_skips {depth : Nat} {s s' : ParserState} {ts : List Token}
    (h : Skips Cursor.angleStep depth s ts s') (hs : s.Sealed) (hdepth : 0 < depth) : TookAngles depth s ts s' := by
  induction h with
  | ended hk => exact ⟨Passed.refl _, .inr ⟨.nil hdepth, hk⟩⟩
  | @left depth s _ hstep =>
    rcases Cursor.angleStep_cases depth s.here.kind with ⟨-, h⟩ | ⟨-, -, h⟩ | ⟨-, -, h⟩ | ⟨-, -, h⟩ <;>
      exact nomatch hstep.symm.trans h
  | @last depth s hend hstep =>
    rcases Cursor.angleStep_cases depth s.here.kind with ⟨-, h⟩ | ⟨hk, hone, -⟩ | ⟨-, -, h⟩ | ⟨-, -, h⟩
    · exact nomatch hstep.symm.trans h
    · refine ⟨passed_here hs hend, .inl ⟨[], s.here, rfl, hk, .nil hdepth, ?_⟩⟩
      simp only [openAngles, closeAngles, List.countP_nil]
      omega
    · exact nomatch hstep.symm.trans h
    · exact nomatch hstep.symm.trans h
  | @took depth depth' s s' ts hend hstep _ ih =>
    -- The token changes the depth by what it opens and closes, and one bracket stays open.
    have hcount : 0 < depth' ∧ depth' + closeAngles [s.here] = depth + openAngles [s.here] := by
      rcases Cursor.angleStep_cases depth s.here.kind with ⟨hk, h⟩ | ⟨-, -, h⟩ | ⟨hk, hone, h⟩ | ⟨hlt, hgt, h⟩
      · cases hstep.symm.trans h
        simp [openAngles, closeAngles, hk]
      · exact nomatch hstep.symm.trans h
      · cases hstep.symm.trans h
        have hclose : openAngles [s.here] = 0 ∧ closeAngles [s.here] = 1 := by simp [openAngles, closeAngles, hk]
        omega
      · cases hstep.symm.trans h
        simp [openAngles, closeAngles, hlt, hgt, hdepth]
    exact (ih ((passed_here hs hend).sealed hs) hcount.1).cons hs hend hdepth hcount.2

/-- Skipping type arguments takes a list in angle brackets if one starts at the cursor, or all that is left if nothing
closes it. -/
theorem skipAngles_eq_ok {s s' : ParserState} {u : Unit} (hs : s.Sealed) (h : skipAngles s = .ok u s') :
    ∃ run, Passed s run s' ∧
      (SkippedAngles run (s'.here :: s'.ahead) ∨ (UnclosedAngles run ∧ s'.here.kind = .endOfInput)) := by
  rw [skipAngles, run_check] at h
  by_cases hk : s.here.kind = .mark .lt
  · rw [decide_eq_true hk, if_pos rfl] at h
    have hend : s.here.kind ≠ .endOfInput := by simp [hk]
    have hnext := passed_here hs hend
    have hopening : Cursor.angleStep 0 s.here.kind = .take 1 := by rw [hk]; rfl
    obtain ⟨run, hskips⟩ := skips_of_skip hs h
    obtain ⟨ts, hskips⟩ : ∃ ts, Skips Cursor.angleStep 1 s.next ts s' := by
      cases hskips with
      | ended hk' => exact absurd hk' hend
      | left _ hstep | last _ hstep => cases hopening.symm.trans hstep
      | took _ hstep hrest =>
        cases hopening.symm.trans hstep
        exact ⟨_, hrest⟩
    obtain ⟨hpassed, hts⟩ := tookAngles_of_skips hskips (hnext.sealed hs) Nat.one_pos
    refine ⟨s.here :: ts, hnext.trans hpassed, ?_⟩
    rcases hts with ⟨us, c, rfl, hc, hopen, hcount⟩ | ⟨hopen, hend⟩
    · exact .inl (.inr ⟨s.here, us, c, rfl, hk, hc, hopen, by omega⟩)
    · exact .inr ⟨⟨s.here, ts, rfl, hk, hopen⟩, hend⟩
  · rw [decide_eq_false hk, if_neg Bool.false_ne_true] at h
    obtain ⟨-, rfl⟩ := pure_eq_ok.mp h
    exact ⟨[], Passed.refl s, .inl (.inl ⟨rfl, by simpa using hk⟩)⟩

/-- A list in angle brackets that something follows is closed. -/
theorem skippedAngles_of_later {tokens ts : List Token} {s s₁ s' : ParserState} {u : Unit} (hs : s.On tokens)
    (h : skipAngles s = .ok u s₁) (hlater : Passed s₁ ts s') (hk : s'.here.kind ≠ .endOfInput) :
    ∃ run, Passed s run s₁ ∧ SkippedAngles run (s₁.here :: s₁.ahead) := by
  obtain ⟨run, hrun, hskipped | ⟨-, hend⟩⟩ := skipAngles_eq_ok hs.sealed h
  · exact ⟨run, hrun, hskipped⟩
  · exact absurd (hlater.at_end (hrun.on hs) hend) hk

/-- Skipping the rest of a class header takes no opening brace. -/
theorem ne_lbrace_of_skips {state : Unit} {s s' : ParserState} {ts : List Token}
    (h : Skips Cursor.headerStep state s ts s') : ∀ t ∈ ts, t.kind ≠ .mark .lbrace := by
  have hlast : ∀ k, Cursor.headerStep () k ≠ .last := by
    intro k
    unfold Cursor.headerStep
    split <;> simp
  induction h with
  | ended | left => exact List.forall_mem_nil _
  | last _ hstep => exact absurd hstep (hlast _)
  | took _ hstep _ ih =>
    refine List.forall_mem_cons.mpr ⟨fun hk => ?_, ih⟩
    rw [hk] at hstep
    cases hstep

end Parser

/-! ## Where tokens are skipped -/

/-- Names with points in front of them. -/
inductive Segments : List Token → List Ident → Prop where
  | nil : Segments [] []
  | cons {d t : Token} {i : Ident} {ts : List Token} {is : List Ident} :
      d.kind = .mark .dot → t.span = i.span → Segments ts is → Segments (d :: t :: ts) (i :: is)

/-- The base class in a class header: the tokens `clause` of its name after `extends`, and the list in angle brackets
`run` skipped after it, before `rest`. -/
def BaseIn (clause run rest : List Token) : Option (List Ident) → Prop
  | none => clause = [] ∧ run = []
  | some path => (∃ w n ts i is, clause = w :: n :: ts ∧ path = i :: is ∧ w.kind = .keyword .extends_ ∧ n.span = i.span ∧
      Segments ts is) ∧ SkippedAngles run rest

/-- The header of a class among the tokens: the word `class`, the name, a skipped list in angle brackets, the base class
with another one, and skipped tokens up to the first opening brace. -/
def ClassDecl.HeaderIn (tokens : List Token) (c : ClassDecl) : Prop :=
  ∃ w n run clause run' skipped o rest,
    w :: n :: (run ++ (clause ++ (run' ++ (skipped ++ o :: rest)))) <:+ tokens ∧ w.kind = .keyword .class_ ∧
      n.span = c.name.span ∧ SkippedAngles run (clause ++ (run' ++ (skipped ++ o :: rest))) ∧
      BaseIn clause run' (skipped ++ o :: rest) c.base ∧ (∀ t ∈ skipped, t.kind ≠ .mark .lbrace) ∧ o.kind = .mark .lbrace

/-- The name of a method among the tokens: the name, a `?` or `!`, and a skipped list in angle brackets before the
parameters. -/
def MemberShape.NameIn (tokens : List Token) : MemberShape → Prop
  | .method name .. => ∃ n sign run o rest, n :: (sign ++ (run ++ o :: rest)) <:+ tokens ∧ n.span = name.span ∧
      (sign = [] ∨ ∃ t, sign = [t] ∧ (t.kind = .mark .question ∨ t.kind = .mark .bang)) ∧
      SkippedAngles run (o :: rest) ∧ o.kind = .mark .lparen
  | _ => True

/-- The callee after `new` among the tokens: after its last token a list in angle brackets is skipped, or all that is left
up to the end of the input if nothing closes the list. What is skipped counts to the expression. -/
def Expr.CalleeIn (tokens : List Token) : Expr → Prop
  | .new span callee _ => ∃ before run rest, tokens = before ++ (run ++ rest) ∧
      (∃ t ∈ before.getLast?, t.span.stop = callee.span.stop) ∧ (∀ t ∈ run, t.Within span) ∧
      (SkippedAngles run rest ∨ (UnclosedAngles run ∧ rest.map Token.kind = [.endOfInput]))
  | _ => True

namespace Parser

/-! ## Headers of classes and names of methods -/

/-- Reading names with points between them. -/
theorem segments_dottedFrom {s s' : ParserState} {first : Ident} {what : Missing} {path : List Ident} (hs : s.Sealed)
    (h : dottedFrom first what s = .ok path s') : ∃ is ts, path = first :: is ∧ Passed s ts s' ∧ Segments ts is := by
  rw [dottedFrom] at h
  obtain ⟨is, s₁, hmore, h⟩ := bind_eq_ok.mp h
  obtain ⟨rfl, rfl⟩ := pure_eq_ok.mp h
  refine ⟨is, ?_⟩
  have hgot : Got (fun _ ts => Segments ts is) s s₁ := by
    refine Got.collect (L := fun _ => Segments) ?_ hs hmore
    intro s s' items again hs h
    rw [run_accept] at h
    split at h
    · rename_i hdot
      rw [if_pos rfl] at h
      obtain ⟨i, s₁, hi, h⟩ := bind_eq_ok.mp h
      obtain ⟨heq, rfl⟩ := pure_eq_ok.mp h
      cases heq
      have hpoint := Got.mark hs hdot
      refine (hpoint.seq (got_identBy rfl (hpoint.sealed hs) hi)).mono ?_
      rintro _ _ - ⟨_, _, rfl, rfl, t, name, rfl, -, rfl⟩
      exact fun us more hus => .cons hdot rfl hus
    · rw [if_neg Bool.false_ne_true] at h
      obtain ⟨heq, rfl⟩ := pure_eq_ok.mp h
      cases heq
      exact (Got.stay s).mono fun _ _ _ hts => hts ▸ .nil
  obtain ⟨ts, hts, hsegments⟩ := hgot.loose
  exact ⟨ts, rfl, hts, hsegments⟩

/-- The base class, in a header that goes on after it. -/
theorem baseIn_baseClass {tokens ts : List Token} {s s₁ s' : ParserState} {base : Option (List Ident)} (hs : s.On tokens)
    (h : baseClass s = .ok base s₁) (hlater : Passed s₁ ts s') (hk : s'.here.kind ≠ .endOfInput) :
    ∃ clause run, Passed s (clause ++ run) s₁ ∧ BaseIn clause run (s₁.here :: s₁.ahead) base := by
  unfold baseClass acceptWord at h
  rw [run_acceptKind] at h
  split at h
  · rename_i hword
    rw [if_pos rfl] at h
    obtain ⟨first, s₂, hfirst, h⟩ := bind_eq_ok.mp h
    obtain ⟨path, s₃, hpath, h⟩ := bind_eq_ok.mp h
    obtain ⟨_, s₄, hangles, h⟩ := bind_eq_ok.mp h
    obtain ⟨rfl, rfl⟩ := pure_eq_ok.mp h
    have hw := passed_here hs.sealed (hword ▸ nofun)
    obtain ⟨n, hn, hspan⟩ := passed_identBy rfl (hw.sealed hs.sealed) hfirst
    have hwn := hw.trans hn
    obtain ⟨is, ts, rfl, hts, hsegments⟩ := segments_dottedFrom (hwn.sealed hs.sealed) hpath
    have hclause := hwn.trans hts
    obtain ⟨run, hrun, hskipped⟩ := skippedAngles_of_later (hclause.on hs) hangles hlater hk
    exact ⟨_, run, hclause.trans hrun, ⟨s.here, n, ts, first, is, rfl, rfl, hword, hspan, hsegments⟩, hskipped⟩
  · rw [if_neg Bool.false_ne_true] at h
    obtain ⟨rfl, rfl⟩ := pure_eq_ok.mp h
    exact ⟨[], [], Passed.refl s, rfl, rfl⟩

/-- A class that was read has its header among the tokens. -/
theorem headerIn_classDecl {tokens : List Token} {decs : List Decorator} {isAbstract : Bool} {start : Nat}
    {c : ClassDecl} {s s' : ParserState} (hs : s.On tokens) (hword : s.here.kind = .keyword .class_)
    (h : classDecl decs isAbstract start s = .ok c s') : c.HeaderIn tokens := by
  obtain ⟨s₁, s₂, s₃, s₄, s₅, hname, hangles, hbase, hheader, hk, -⟩ := classDecl_eq_ok h
  have hne : s₄.here.kind ≠ .endOfInput := hk ▸ nofun
  have hw := passed_here hs.sealed (hword ▸ nofun)
  obtain ⟨n, hn, hspan⟩ := passed_identBy rfl (hw.sealed hs.sealed) hname
  have hs₁ := hn.on (hw.on hs)
  obtain ⟨ts₂, hts₂⟩ := passed_of_ok hangles
  obtain ⟨ts₃, hts₃⟩ := passed_of_ok hbase
  have hs₃ := hts₃.on (hts₂.on hs₁)
  obtain ⟨skipped, hskip, hnone⟩ : ∃ ts, Passed s₃ ts s₄ ∧ ∀ t ∈ ts, t.kind ≠ .mark .lbrace := by
    obtain ⟨ts, hskips⟩ := skips_of_skip hs₃.sealed hheader
    exact ⟨ts, hskips.passed hs₃.sealed, ne_lbrace_of_skips hskips⟩
  obtain ⟨run, hrun, hrunSkipped⟩ := skippedAngles_of_later hs₁ hangles (hts₃.trans hskip) hne
  obtain ⟨clause, run', hclause, hbaseIn⟩ := baseIn_baseClass (hrun.on hs₁) hbase hskip hne
  have hsuffix := ((((hw.trans hn).trans hrun).trans hclause).trans hskip).suffix hs
  rw [hskip.tokens] at hbaseIn
  rw [hclause.tokens, hskip.tokens] at hrunSkipped
  refine ⟨s.here, n, run, clause, run', skipped, s₄.here, s₄.ahead, ?_, hword, hspan, ?_, hbaseIn, hnone, hk⟩
  · simpa using hsuffix
  · simpa using hrunSkipped

/-- The sign after the name of a member is one token. -/
theorem Signed.sign {s s' : ParserState} (h : Signed s s') (hs : s.Sealed) :
    ∃ sign, Passed s sign s' ∧
      (sign = [] ∨ ∃ t, sign = [t] ∧ (t.kind = .mark .question ∨ t.kind = .mark .bang)) := by
  rcases h with rfl | ⟨hk, rfl⟩
  · exact ⟨[], Passed.refl s', .inl rfl⟩
  · refine ⟨[s.here], passed_here hs ?_, .inr ⟨s.here, rfl, hk⟩⟩
    rcases hk with hk | hk <;> simp [hk]

/-- Before the parameters of a method stands its name, and what is skipped after that. -/
theorem nameIn_memberShape {tokens : List Token} {shape : MemberShape} {s s' : ParserState} (hs : s.On tokens)
    (h : memberShape s = .ok shape s') : shape.NameIn tokens := by
  cases memberShape_eq_ok h with
  | @method name _ _ _ s₁ s₂ s₃ _ _ _ hname hsigned hangles hk =>
    obtain ⟨n, hn, hspan⟩ := passed_identBy rfl hs.sealed hname
    obtain ⟨sign, hsign, hmark⟩ := hsigned.sign (hn.on hs).sealed
    have hs₂ := hsign.on (hn.on hs)
    obtain ⟨run, hrun, hskipped⟩ := skippedAngles_of_later hs₂ hangles (Passed.refl s₃) (hk ▸ nofun)
    have hsuffix := ((hn.trans hsign).trans hrun).suffix hs
    exact ⟨n, sign, run, s₃.here, s₃.ahead, by simpa using hsuffix, hspan, hmark, hskipped, hk⟩
  | accessor | indexSignature | constructor | property => trivial

end Parser

/-! ## Callees -/

/-- After the callee of `new` the tokens are skipped that `skipAngles` skips. -/
theorem calleeIn_of_own {tokens : List Token} {e : Expr} {s s' : ParserState} (hs : Cleanly tokens s s')
    (h : (Part.expr e).Own s s') : e.CalleeIn tokens := by
  cases e with
  | new span callee args =>
    obtain ⟨rfl, s₁, s₂, hcallee, hangles, us, hus⟩ := h
    obtain ⟨ws, hws⟩ := passed_next s
    have hnext := hws.on hs.on
    obtain ⟨ts, hts, hphrase⟩ := hcallee hnext.sealed
    have hs₁ := hts.on hnext
    obtain ⟨run, hrun, hskipped⟩ := Parser.skipAngles_eq_ok hs₁.sealed hangles
    refine ⟨s₁.behind.reverse, run, s₂.here :: s₂.ahead, by rw [hs₁.tokens_eq, hrun.tokens], ?_, ?_, ?_⟩
    · obtain ⟨t, ht, hstop⟩ := hphrase.span_stop (by decide) (hts.tokens ▸ hnext.ascending).left
      refine ⟨t, ?_, hstop.symm⟩
      rw [List.getLast?_reverse, hts.behind, List.head?_append, List.head?_reverse, Option.mem_def.mp ht]
      rfl
    · intro t ht
      exact ((hws.trans hts).trans (hrun.trans hus)).within hs.on t (by simp [ht])
    · refine hskipped.imp_right ?_
      rintro ⟨hunclosed, hend⟩
      refine ⟨hunclosed, ?_⟩
      rw [(hrun.on hs₁).ahead_eq_nil hend, List.map_singleton, hend]
  | _ => trivial

/-! ## Source texts -/

/-- In a source text read without errors, a skipped list in angle brackets after the name of a class, after a base class
or after the name of a method ends with the bracket that matches its first one, and what is skipped before the body of a
class goes up to the first opening brace. After the callee of `new` such a list, or all that is left of the input, is
skipped. -/
theorem skipped_tokens_of_parse (source : String) (hclean : (parse source).errors = []) :
    (∀ c ∈ (parse source).file.classes,
      c.HeaderIn (tokensOf source) ∧ ∀ m ∈ c.members, m.shape.NameIn (tokensOf source)) ∧
    ∀ e ∈ (parse source).file.exprs.flatMap Expr.subexprs, e.CalleeIn (tokensOf source) := by
  have hdecls := SourceFile.forall_classes_of_parse hclean fun hs hword _ h => Parser.headerIn_classDecl hs.on hword h
  have hshapes := SourceFile.forall_shapes_of_parse hclean fun hs h => Parser.nameIn_memberShape hs.on h
  exact ⟨fun c hc => ⟨hdecls c hc, hshapes c hc⟩, SourceFile.forall_subexprs_of_parse hclean calleeIn_of_own⟩

/-- A class with a list in angle brackets at every place where one is skipped. -/
def genericSource : String := "class A<T> extends B.C<T> implements I \x7b m?<U>() \x7b return new D<U>(); \x7d \x7d"

/-- In `genericSource` every list in angle brackets is skipped at its place. -/
theorem genericSource_skipped :
    (parse genericSource).errors = [] ∧ (parse genericSource).file.classes.length = 1 ∧
      (parse genericSource).file.exprs.length = 1 ∧
      (∀ c ∈ (parse genericSource).file.classes,
        c.HeaderIn (tokensOf genericSource) ∧ ∀ m ∈ c.members, m.shape.NameIn (tokensOf genericSource)) ∧
      ∀ e ∈ (parse genericSource).file.exprs.flatMap Expr.subexprs, e.CalleeIn (tokensOf genericSource) := by
  have hread : ((parse genericSource).errors, (parse genericSource).file.classes.length,
      (parse genericSource).file.exprs.length) = ([], 1, 1) := by decide +kernel
  obtain ⟨hclean, hlengths⟩ := Prod.mk.inj hread
  obtain ⟨hclasses, hexprs⟩ := Prod.mk.inj hlengths
  exact ⟨hclean, hclasses, hexprs, skipped_tokens_of_parse _ hclean⟩

/-- A source text with a comparison to what `new` makes, and another class after it. -/
def comparedSource : String := "class A \x7b x: number = new B < c; \x7d class D \x7b \x7d"

/-- Whether the expression is a `new` whose callee ends at `stop`. -/
def Expr.isNewUpTo (stop : Nat) : Expr → Bool
  | .new _ callee _ => callee.span.stop = stop
  | _ => false

/-- It is read without errors, and all from the comparison on is skipped, the second class included. -/
theorem comparedSource_skipped :
    (parse comparedSource).errors = [] ∧ (parse comparedSource).file.classes.length = 1 ∧
      ∃ span callee args, .new span callee args ∈ (parse comparedSource).file.exprs.flatMap Expr.subexprs ∧
        ∃ before run rest, tokensOf comparedSource = before ++ (run ++ rest) ∧
          (∃ t ∈ before.getLast?, t.span.stop = callee.span.stop) ∧ rest.map Token.kind = [.endOfInput] ∧
          ¬ AngleList run ∧
          ∀ k ∈ [.mark .semicolon, .mark .lbrace, .mark .rbrace, .keyword .class_], k ∈ run.map Token.kind := by
  have hread : ((parse comparedSource).errors = [] ∧ (parse comparedSource).file.classes.length = 1 ∧
        ((parse comparedSource).file.exprs.flatMap Expr.subexprs).any (Expr.isNewUpTo 27) = true) ∧
      ((tokensOf comparedSource).take 9).getLast? = some ⟨.ident "B", ⟨26, 27⟩, false⟩ ∧
      ((tokensOf comparedSource).drop 9).map Token.kind = [.mark .lt, .ident "c", .mark .semicolon, .mark .rbrace,
        .keyword .class_, .ident "D", .mark .lbrace, .mark .rbrace, .endOfInput] := by
    decide +kernel
  obtain ⟨⟨hclean, hclasses, hnew⟩, hlast, hkinds⟩ := hread
  obtain ⟨e, he, hcallee⟩ := List.any_eq_true.mp hnew
  have hrun : (((tokensOf comparedSource).drop 9).take 8).map Token.kind = [.mark .lt, .ident "c", .mark .semicolon,
      .mark .rbrace, .keyword .class_, .ident "D", .mark .lbrace, .mark .rbrace] := by
    rw [List.map_take, hkinds]
    rfl
  unfold Expr.isNewUpTo at hcallee
  split at hcallee
  case h_2 => cases hcallee
  refine ⟨hclean, hclasses, _, _, _, he, (tokensOf comparedSource).take 9, ((tokensOf comparedSource).drop 9).take 8,
    ((tokensOf comparedSource).drop 9).drop 8, ?_, ⟨_, hlast, (of_decide_eq_true hcallee).symm⟩, ?_, ?_, ?_⟩
  · rw [List.take_append_drop, List.take_append_drop]
  · rw [List.map_drop, hkinds]
    rfl
  · rintro ⟨o, us, c, heq, -, hc, -⟩
    have hmem : c.kind ∈ (((tokensOf comparedSource).drop 9).take 8).map Token.kind :=
      List.mem_map_of_mem (heq ▸ by simp)
    rw [hrun, hc] at hmem
    exact absurd hmem (by decide)
  · rw [hrun]
    decide

end ContractCompiler
