import ContractCompiler.Proofs.Reading.Runs
import ContractCompiler.Proofs.Reading.Phrase

/-!
# Every expression read is a phrase

Whatever expression a parser of expressions returns, the tokens it moved over are a phrase of the expression, of the
rank the parser stands for. A run that has recorded no error gives a clean phrase.

The parsers call one another through `inner`. `Reads inner` collects what is needed of it, each parser is treated under
that assumption, and `reads_exprWithin` closes the circle by induction on the depth of nesting.
-/

namespace ContractCompiler

/-! ## Tokens and spans of what was passed -/

/-- The first token that was passed is the one at the cursor. -/
theorem Passed.head? {s s' : ParserState} {ts : List Token} (h : Passed s ts s') : ∀ t ∈ ts.head?, t = s.here := by
  cases ts with
  | nil => exact nofun
  | cons u us =>
    have := (List.cons.inj h.tokens).1
    simp [this]

/-- The span up to the last token read is the span up to the last token passed. -/
theorem Passed.spanFrom_eq {s s' : ParserState} {ts : List Token} (h : Passed s ts s') (hts : ts ≠ []) (start : Nat) :
    s'.spanFrom start = spanTo start ts := by
  unfold Cursor.spanFrom Cursor.lastStop spanTo
  rw [h.behind]
  obtain ⟨us, t, rfl⟩ := List.eq_nil_or_concat ts |>.resolve_left hts
  simp

/-- The span up to the end of two parts is that of the second one. -/
theorem spanTo_append (ts : List Token) {us : List Token} (hus : us ≠ []) (start : Nat) :
    spanTo start (ts ++ us) = spanTo start us := by
  unfold spanTo
  rw [List.getLast?_append, List.getLast?_eq_some_getLast hus, Option.some_or]

/-- Moving over as many tokens as a list of kinds has, when these are the kinds at the cursor. -/
theorem Got.advanceBy {ks : List TokenKind} : ∀ {s s' : ParserState} {u : Unit}, s.Sealed →
    ks <+: (s.here :: s.ahead).map Token.kind → .endOfInput ∉ ks → Parser.advanceBy ks.length s = .ok u s' →
      Got (fun _ ts => ts.map Token.kind = ks) s s' := by
  induction ks with
  | nil =>
    intro s s' u _ _ _ h
    obtain ⟨-, rfl⟩ := Parser.pure_eq_ok.mp h
    exact (Got.stay s).mono fun _ _ _ hts => by rw [hts]; rfl
  | cons k ks ih =>
    intro s s' u hs hks hend h
    rw [List.length_cons, Parser.advanceBy, Parser.run_advance] at h
    rw [List.map_cons, List.cons_prefix_cons] at hks
    obtain ⟨hk, hks⟩ := hks
    have hne : s.here.kind ≠ .endOfInput := fun hk' => hend (by simp [hk, hk'])
    have htoken := Got.token hs hne
    have hnext : s.ahead = s.next.here :: s.next.ahead := by
      have := (passed_here hs hne).tokens
      simpa using this
    rw [hnext] at hks
    have hend' : TokenKind.endOfInput ∉ ks := fun h => hend (List.mem_cons_of_mem _ h)
    refine (htoken.seq (ih (htoken.sealed hs) hks hend' h)).mono ?_
    rintro _ _ - ⟨us, vs, rfl, rfl, hvs⟩
    rw [List.map_append, hvs, hk]
    rfl

/-! ## Operators at the cursor -/

/-- An operator of a tier is spelled by the one token it was found at. -/
theorem Tier.operator?_eq_some {tier : Tier} {k : TokenKind} {op : BinaryOp} (h : tier.operator? k = some op) :
    op.kinds = [k] ∧ op.tier? = some tier := by
  unfold Tier.operator? at h
  split at h <;> cases h <;> exact ⟨rfl, rfl⟩

theorem TokenKind.assignOp?_eq_some {k : TokenKind} {op : BinaryOp} (h : k.assignOp? = some op) :
    op.kinds = [k] ∧ op.isAssignment = true := by
  unfold TokenKind.assignOp? at h
  split at h <;> cases h <;> exact ⟨rfl, rfl⟩

/-- No operator is spelled by the end of the input. -/
theorem BinaryOp.end_not_mem_kinds (op : BinaryOp) : .endOfInput ∉ op.kinds := by
  cases op <;> simp [BinaryOp.kinds]

namespace Cursor

variable {c : Cursor} {op : BinaryOp} {len : Nat}

/-- The kinds of the tokens at a cursor. -/
def kinds (c : Cursor) : List TokenKind := (c.here :: c.ahead).map Token.kind

/-- A token that is looked up ahead is there, unless it is the end of the input. -/
theorem kindAt_eq_some {n : Nat} {k : TokenKind} (h : c.kindAt n = k) (hk : k ≠ .endOfInput) :
    c.kinds[n]? = some k := by
  cases n with
  | zero =>
    simp only [kindAt, tokenAt, Option.map_some, Option.getD_some] at h
    simp [kinds, h]
  | succ n =>
    simp only [kindAt, tokenAt] at h
    cases ha : c.ahead[n]? with
    | none =>
      rw [ha] at h
      exact absurd h.symm hk
    | some t =>
      rw [ha] at h
      simp only [Option.map_some, Option.getD_some] at h
      simp [kinds, ha, h]

/-- A right shift is spelled by the tokens at the cursor. -/
theorem rightShift?_eq_some (h : c.rightShift? = some (op, len)) :
    op.kinds <+: c.kinds ∧ len = op.kinds.length ∧ (op.isAssignment = false → op.tier? = some .shift) := by
  unfold rightShift? at h
  split at h
  case isFalse => cases h
  case isTrue hgt =>
    have h₀ : c.kindAt 0 = .mark .gt := hgt.1
    replace h₀ := kindAt_eq_some h₀ nofun
    have spelled : ∀ {ks : List TokenKind}, (∀ i (hi : i < ks.length), c.kinds[i]? = some ks[i]) → ks <+: c.kinds :=
      List.prefix_iff_getElem?.mpr
    split at h
    · rename_i h₁
      replace h₁ := kindAt_eq_some h₁ nofun
      cases h
      refine ⟨spelled fun i hi => ?_, rfl, nofun⟩
      match i, hi with
      | 0, _ => exact h₀
      | 1, _ => exact h₁
    · rename_i h₁
      replace h₁ := kindAt_eq_some h₁ nofun
      have hshr : BinaryOp.shr.kinds <+: c.kinds := spelled fun i hi => by
        match i, hi with
        | 0, _ => exact h₀
        | 1, _ => exact h₁
      split at h
      · split at h
        · rename_i h₂
          replace h₂ := kindAt_eq_some h₂ nofun
          cases h
          refine ⟨spelled fun i hi => ?_, rfl, fun _ => rfl⟩
          match i, hi with
          | 0, _ => exact h₀
          | 1, _ => exact h₁
          | 2, _ => exact h₂
        · rename_i h₂
          replace h₂ := kindAt_eq_some h₂ nofun
          cases h
          refine ⟨spelled fun i hi => ?_, rfl, nofun⟩
          match i, hi with
          | 0, _ => exact h₀
          | 1, _ => exact h₁
          | 2, _ => exact h₂
        · cases h
          exact ⟨hshr, rfl, fun _ => rfl⟩
      · cases h
        exact ⟨hshr, rfl, fun _ => rfl⟩
    · cases h

/-- An operator of a tier is spelled by the tokens at the cursor. -/
theorem binaryOp?_eq_some {tier : Tier} (h : c.binaryOp? tier = some (op, len)) :
    op.kinds <+: c.kinds ∧ len = op.kinds.length ∧ op.tier? = some tier := by
  unfold binaryOp? at h
  split at h
  · rename_i op' len' hshift
    obtain ⟨hkinds, hlen, htier⟩ := rightShift?_eq_some hshift
    split at h
    · rename_i ht
      cases h
      exact ⟨hkinds, hlen, ht.1 ▸ htier (by simpa using ht.2)⟩
    · cases h
  · obtain ⟨op', hop, heq⟩ := Option.map_eq_some_iff.mp h
    cases heq
    obtain ⟨hspell, htier⟩ := Tier.operator?_eq_some hop
    exact ⟨hspell ▸ by simp [kinds], by rw [hspell]; rfl, htier⟩

/-- An assignment is spelled by the tokens at the cursor. -/
theorem assignOp?_eq_some (h : c.assignOp? = some (op, len)) :
    op.kinds <+: c.kinds ∧ len = op.kinds.length ∧ op.isAssignment = true := by
  unfold assignOp? at h
  split at h
  · rename_i op' len' hshift
    obtain ⟨hkinds, hlen, -⟩ := rightShift?_eq_some hshift
    split at h
    · rename_i ht
      cases h
      exact ⟨hkinds, hlen, ht⟩
    · cases h
  · obtain ⟨op', hop, heq⟩ := Option.map_eq_some_iff.mp h
    cases heq
    obtain ⟨hspell, hassign⟩ := TokenKind.assignOp?_eq_some hop
    exact ⟨hspell ▸ by simp [kinds], by rw [hspell]; rfl, hassign⟩

end Cursor

/-! ## The parsers under `inner` -/

/-- The rank of what a form of expression reads. -/
def ExprForm.rank : ExprForm → Rank
  | .assignment => .assignment
  | .exponent => .power
  | .unary => .unary
  | .primary => .primary

/-- What the parsers of expressions need of the parser of what stands inside: it reads phrases, and an assignment is
read to its end. -/
structure Reads (inner : ExprForm → Parser Expr) : Prop where
  phrase : ∀ {form : ExprForm} {s s' : ParserState} {e : Expr}, s.Sealed → inner form s = .ok e s' →
    Got (fun clean ts => Phrase clean form.rank ts e) s s'
  ends : ∀ {s s' : ParserState} {e : Expr}, inner .assignment s = .ok e s' → s'.assignOp? = none

/-- The tokens are those of a list of items, each of which is as `P` says, up to `close`. -/
def Items {α : Type} (P : Bool → List Token → α → Prop) (close : Mark) (clean : Bool) (ts : List Token)
    (items : List α) : Prop :=
  ∃ parts : List (List Token × α), items = parts.map Prod.snd ∧ (∀ p ∈ parts, P clean p.1 p.2) ∧
    Listed clean close parts ts

namespace Items

variable {α : Type} {P : Bool → List Token → α → Prop} {close : Mark} {clean : Bool} {ts us : List Token} {a : α}
  {c : Token}

/-- A list without items. -/
theorem done (hc : c.kind = .mark close) : Items P close clean [c] [] := ⟨[], rfl, nofun, .done hc⟩

/-- A list that ends with an item. -/
theorem last (ha : P clean ts a) (hc : c.kind = .mark close) : Items P close clean (ts ++ [c]) [a] :=
  ⟨[(ts, a)], rfl, by simpa using ha, .last hc⟩

/-- A list that goes on after an item and a comma. -/
theorem more {as : List α} (ha : P clean ts a) (hc : c.kind = .mark .comma) (h : Items P close clean us as) :
    Items P close clean (ts ++ c :: us) (a :: as) := by
  obtain ⟨parts, rfl, hparts, hlist⟩ := h
  exact ⟨(ts, a) :: parts, rfl, by simpa using ⟨ha, fun a b => hparts (a, b)⟩, .more hc hlist⟩

/-- A list that breaks off before an item. -/
theorem skipped (hclean : clean = false) : Items P close clean ts [] := ⟨[], rfl, nofun, .skipped hclean⟩

/-- A list that breaks off after an item. -/
theorem broken (ha : P clean ts a) (hclean : clean = false) : Items P close clean ts [a] :=
  ⟨[(ts, a)], rfl, by simpa using ha, .broken hclean⟩

end Items

namespace Parser

variable {α : Type} {inner : ExprForm → Parser Expr} {s s' : ParserState} {target e : Expr}

/-- A name is read from one token that has it. -/
theorem got_identBy {name? : TokenKind → Option String} (hend : name? .endOfInput = none) {what : Missing} {i : Ident}
    (hs : s.Sealed) (h : identBy name? what s = .ok i s') :
    Got (fun _ ts => ∃ t name, ts = [t] ∧ name? t.kind = some name ∧ i = ⟨name, t.span⟩) s s' := by
  obtain ⟨name, hname, rfl, rfl⟩ := identBy_eq_ok.mp h
  refine (Got.token hs fun hk => ?_).mono fun _ ts _ hts => ⟨s.here, name, hts, hname, rfl⟩
  rw [hk, hend] at hname
  cases hname

/-- A mark is read from one token that is it. -/
theorem got_expect {mark : Mark} {what : Missing} {u : Unit} (hs : s.Sealed) (h : expect mark what s = .ok u s') :
    Got (fun _ ts => ∃ t, ts = [t] ∧ t.kind = .mark mark) s s' := by
  obtain ⟨hk, rfl⟩ := expect_eq_ok.mp h
  exact (Got.mark hs hk).mono fun _ ts _ hts => ⟨s.here, hts, hk⟩

/-- Reading a list reads its items. -/
theorem got_listUpTo {P : Bool → List Token → α → Prop} {close : Mark} {separator : Missing} {item : Parser α}
    (hitem : ∀ {s s' : ParserState} {a : α}, s.Sealed → item s = .ok a s' → Got (fun clean ts => P clean ts a) s s')
    {items : List α} (hs : s.Sealed) (h : listUpTo close separator item s = .ok items s') :
    Got (fun clean ts => Items P close clean ts items) s s' := by
  refine Got.collect ?_ hs h
  intro s s' items again hs h
  rw [run_accept] at h
  split at h
  · rename_i hk
    obtain ⟨heq, rfl⟩ := pure_eq_ok.mp h
    cases heq
    exact (Got.mark hs hk).mono fun _ _ _ hts => hts ▸ Items.done hk
  · obtain ⟨a, s₁, ha, h⟩ := bind_eq_ok.mp h
    have hgot := hitem hs ha
    rw [run_accept] at h
    split at h
    · rename_i hk
      obtain ⟨heq, rfl⟩ := pure_eq_ok.mp h
      cases heq
      refine (hgot.seq (Got.mark (hgot.sealed hs) hk)).mono ?_
      rintro _ _ - ⟨us, _, rfl, hus, rfl⟩
      exact Items.last hus hk
    · obtain ⟨_, s₂, hcomma, h⟩ := bind_eq_ok.mp h
      obtain ⟨heq, rfl⟩ := pure_eq_ok.mp h
      cases heq
      refine (hgot.seq (got_expect (hgot.sealed hs) hcomma)).mono ?_
      rintro _ _ - ⟨us, _, rfl, hus, t, rfl, ht⟩
      intro vs more hmore
      rw [List.append_assoc]
      exact Items.more hus ht hmore

/-- Reading arguments reads a list of expressions. -/
theorem got_arguments
    (hinner : ∀ {s s' : ParserState} {e : Expr}, s.Sealed → inner .assignment s = .ok e s' →
      Got (fun clean ts => Phrase clean .assignment ts e) s s')
    {args : List Expr} (hs : s.Sealed) (h : arguments inner s = .ok args s') :
    Got (fun clean ts => Items (Phrase · .assignment) .rparen clean ts args) s s' := by
  rw [arguments, run_accept] at h
  split at h
  · rename_i hk
    obtain ⟨rfl, rfl⟩ := pure_eq_ok.mp h
    exact (Got.mark hs hk).mono fun _ _ _ hts => hts ▸ Items.done hk
  refine Got.collect ?_ hs h
  intro s s' items again hs h
  obtain ⟨r, s₁, hr, h⟩ := bind_eq_ok.mp h
  cases r with
  | none =>
    obtain ⟨heq, rfl⟩ := pure_eq_ok.mp h
    cases heq
    obtain ⟨err, s₂, herr, heq⟩ := attempt_eq_ok_none.mp hr
    obtain ⟨ts, hts⟩ := passed_of_error herr
    exact (Got.of_recorded hts heq).mono fun _ _ _ hclean => Items.skipped (P := (Phrase · .assignment)) hclean
  | some arg =>
    have hgot := hinner hs (attempt_eq_ok_some.mp hr)
    have hs₁ := hgot.sealed hs
    dsimp only at h
    rw [run_accept] at h
    split at h
    · rename_i hk
      obtain ⟨heq, rfl⟩ := pure_eq_ok.mp h
      cases heq
      refine (hgot.seq (Got.mark hs₁ hk)).mono ?_
      rintro _ _ - ⟨us, _, rfl, hus, rfl⟩
      exact Items.last (P := (Phrase · .assignment)) hus hk
    rw [if_neg Bool.false_ne_true, run_accept] at h
    split at h
    · rename_i hcomma
      have hgot₂ := hgot.seq (Got.mark hs₁ hcomma)
      rw [if_pos rfl, run_accept] at h
      split at h
      · rename_i hk
        obtain ⟨heq, rfl⟩ := pure_eq_ok.mp h
        cases heq
        refine (hgot₂.seq (Got.mark (hgot₂.sealed hs) hk)).mono ?_
        rintro _ _ - ⟨_, _, rfl, ⟨us, _, rfl, hus, rfl⟩, rfl⟩
        rw [List.append_assoc]
        exact Items.more (P := (Phrase · .assignment)) hus hcomma (.done hk)
      · obtain ⟨heq, rfl⟩ := pure_eq_ok.mp h
        cases heq
        refine hgot₂.mono ?_
        rintro _ _ - ⟨us, _, rfl, hus, rfl⟩
        intro vs more hmore
        rw [List.append_assoc]
        exact Items.more (P := (Phrase · .assignment)) hus hcomma hmore
    · rw [if_neg Bool.false_ne_true] at h
      obtain ⟨_, s₂, hrec, h⟩ := bind_eq_ok.mp h
      obtain ⟨heq, rfl⟩ := pure_eq_ok.mp h
      cases heq
      cases hrec
      refine (hgot.seq (Got.recorded s₁ _)).mono ?_
      rintro _ _ - ⟨us, _, rfl, hus, rfl, hclean⟩
      rw [List.append_nil]
      exact Items.broken (P := (Phrase · .assignment)) hus hclean

/-- A member is read from a point and its name. -/
theorem got_memberSuffix (hs : s.Sealed) (hk : s.here.kind ≠ .endOfInput) (h : memberSuffix target s = .ok e s') :
    Got (fun _ ts => ∃ t name, ts = [s.here, t] ∧ t.kind.memberName? = some name ∧
      e = .member (target.span.through t.span) target ⟨name, t.span⟩) s s' := by
  rw [memberSuffix, run_advance] at h
  obtain ⟨i, s₁, hi, h⟩ := bind_eq_ok.mp h
  obtain ⟨rfl, rfl⟩ := pure_eq_ok.mp h
  have hd := Got.token hs hk
  refine (hd.seq (got_identBy rfl (hd.sealed hs) hi)).mono ?_
  rintro _ _ - ⟨_, _, rfl, rfl, t, name, rfl, ht, rfl⟩
  exact ⟨t, name, rfl, ht, rfl⟩

/-- A call is read from the list of its arguments. -/
theorem got_callSuffix (hinner : Reads inner) (hs : s.Sealed) (h : callSuffix inner target s = .ok e s') :
    Got (fun clean ts => ∃ args, Items (Phrase · .assignment) .rparen clean ts args ∧
      e = .call (s'.spanFrom target.span.start) target args) s s' := by
  obtain ⟨args, s₁, hargs, h⟩ := bind_eq_ok.mp h
  rw [run_spanFrom] at h
  obtain ⟨rfl, rfl⟩ := pure_eq_ok.mp h
  exact (got_arguments hinner.phrase hs hargs).mono fun _ _ _ hitems => ⟨args, hitems, rfl⟩

/-- An index is read from its key and the closing bracket. -/
theorem got_indexSuffix (hinner : Reads inner) (hs : s.Sealed) (h : indexSuffix inner target s = .ok e s') :
    Got (fun clean ts => ∃ us, ∃ c : Token, ∃ key, ts = us ++ [c] ∧ Phrase clean .assignment us key ∧ c.kind = .mark .rbracket ∧
      e = .index (s'.spanFrom target.span.start) target key) s s' := by
  obtain ⟨key, s₁, hkey, h⟩ := bind_eq_ok.mp h
  obtain ⟨_, s₂, hclose, h⟩ := bind_eq_ok.mp h
  rw [run_spanFrom] at h
  obtain ⟨rfl, rfl⟩ := pure_eq_ok.mp h
  have hgot := hinner.phrase hs hkey
  refine (hgot.seq (got_expect (hgot.sealed hs) hclose)).mono ?_
  rintro _ _ - ⟨us, _, rfl, hus, c, rfl, hc⟩
  exact ⟨us, c, key, rfl, hus, hc, rfl⟩

/-- One `?.` link extends a suffixed expression. -/
theorem got_optionalLink (hinner : Reads inner) (hs : s.Sealed) (hk : s.here.kind = .mark .questionDot)
    (h : optionalLink inner target s = .ok e s') :
    Got (fun clean ts => ∀ us, Phrase clean .suffixed us target → Phrase clean .suffixed (us ++ ts) e) s s' := by
  have hq := Got.mark hs hk
  have hs₁ := hq.sealed hs
  have hnext : s.kindAt 1 = s.next.here.kind := by
    have := (passed_here hs (by rw [hk]; exact nofun)).tokens
    simp only [List.singleton_append, List.cons.injEq, true_and] at this
    simp [Cursor.kindAt, Cursor.tokenAt, this]
  rw [optionalLink, run_kindAt, hnext] at h
  generalize hk₁ : s.next.here.kind = k at h
  split at h
  · rw [run_advanceTwice] at h
    obtain ⟨link, s₂, hlink, h⟩ := bind_eq_ok.mp h
    obtain ⟨rfl, rfl⟩ := pure_eq_ok.mp h
    have ho := hq.seq (Got.mark hs₁ hk₁)
    refine (ho.seq (got_callSuffix hinner (ho.sealed hs) hlink)).mono ?_
    rintro _ _ hpassed ⟨_, ts, rfl, ⟨_, _, rfl, rfl, rfl⟩, _, ⟨parts, rfl, hparts, hlist⟩, rfl⟩ us hus
    rw [Expr.span, hpassed.spanFrom_eq (by simp), ← spanTo_append us (by simp)]
    exact .optionalCall hus hk hk₁ hparts hlist
  · rw [run_advanceTwice] at h
    obtain ⟨link, s₂, hlink, h⟩ := bind_eq_ok.mp h
    obtain ⟨rfl, rfl⟩ := pure_eq_ok.mp h
    have ho := hq.seq (Got.mark hs₁ hk₁)
    refine (ho.seq (got_indexSuffix hinner (ho.sealed hs) hlink)).mono ?_
    rintro _ _ hpassed ⟨_, _, rfl, ⟨_, _, rfl, rfl, rfl⟩, ts, c, key, rfl, hkey, hc, rfl⟩ us hus
    rw [Expr.span, hpassed.spanFrom_eq (by simp), ← spanTo_append us (by simp)]
    exact .optionalIndex hus hk hk₁ hkey hc
  · obtain ⟨link, s₂, hlink, h⟩ := bind_eq_ok.mp h
    obtain ⟨rfl, rfl⟩ := pure_eq_ok.mp h
    refine (got_memberSuffix hs (by rw [hk]; exact nofun) hlink).mono ?_
    rintro _ _ - ⟨t, name, rfl, ht, rfl⟩ us hus
    exact .optionalMember hus hk ht

/-- What may follow a primary expression extends a suffixed expression. -/
theorem got_suffix? (hinner : Reads inner) {e' : Expr} (hs : s.Sealed) (h : suffix? inner e s = .ok (some e') s') :
    Got (fun clean ts => ∀ us, Phrase clean .suffixed us e → Phrase clean .suffixed (us ++ ts) e') s s' := by
  rw [suffix?, run_here] at h
  generalize hk : s.here.kind = k at h
  split at h
  · obtain ⟨e'', s₁, hlink, h⟩ := bind_eq_ok.mp h
    obtain ⟨heq, rfl⟩ := pure_eq_ok.mp h
    cases heq
    exact got_optionalLink hinner hs hk hlink
  · split at h
    · cases (pure_eq_ok.mp h).1
    rw [run_advance, run_spanFrom] at h
    obtain ⟨heq, rfl⟩ := pure_eq_ok.mp h
    cases heq
    refine (Got.mark hs hk).mono ?_
    rintro _ _ hpassed rfl us hus
    rw [hpassed.spanFrom_eq (by simp), ← spanTo_append us (by simp)]
    exact .nonNull hus hk
  · rw [run_advance] at h
    obtain ⟨e'', s₁, hcall, h⟩ := bind_eq_ok.mp h
    obtain ⟨heq, rfl⟩ := pure_eq_ok.mp h
    cases heq
    have ho := Got.mark hs hk
    refine (ho.seq (got_callSuffix hinner (ho.sealed hs) hcall)).mono ?_
    rintro _ _ hpassed ⟨_, ts, rfl, rfl, _, ⟨parts, rfl, hparts, hlist⟩, rfl⟩ us hus
    rw [hpassed.spanFrom_eq (by simp), ← spanTo_append us (by simp)]
    exact .call hus hk hparts hlist
  · obtain ⟨e'', s₁, hmember, h⟩ := bind_eq_ok.mp h
    obtain ⟨heq, rfl⟩ := pure_eq_ok.mp h
    cases heq
    refine (got_memberSuffix hs (by simp [hk]) hmember).mono ?_
    rintro _ _ - ⟨t, name, rfl, ht, rfl⟩ us hus
    exact .member (.inl rfl) hus hk ht
  · rw [run_advance] at h
    obtain ⟨e'', s₁, hindex, h⟩ := bind_eq_ok.mp h
    obtain ⟨heq, rfl⟩ := pure_eq_ok.mp h
    cases heq
    have ho := Got.mark hs hk
    refine (ho.seq (got_indexSuffix hinner (ho.sealed hs) hindex)).mono ?_
    rintro _ _ hpassed ⟨_, _, rfl, rfl, ts, c, key, rfl, hkey, hc, rfl⟩ us hus
    rw [hpassed.spanFrom_eq (by simp), ← spanTo_append us (by simp)]
    exact .index hus hk hkey hc
  · cases (pure_eq_ok.mp h).1

/-- A parser that extends an expression leaves its state alone where nothing follows. -/
theorem suffix?_none (h : suffix? inner e s = .ok none s') : s' = s := by
  rw [suffix?, run_here] at h
  generalize hk : s.here.kind = k at h
  split at h
  · obtain ⟨e'', s₁, -, h⟩ := bind_eq_ok.mp h
    cases (pure_eq_ok.mp h).1
  · split at h
    · exact (pure_eq_ok.mp h).2.symm
    · rw [run_advance, run_spanFrom] at h
      cases (pure_eq_ok.mp h).1
  · rw [run_advance] at h
    obtain ⟨e'', s₁, -, h⟩ := bind_eq_ok.mp h
    cases (pure_eq_ok.mp h).1
  · obtain ⟨e'', s₁, -, h⟩ := bind_eq_ok.mp h
    cases (pure_eq_ok.mp h).1
  · rw [run_advance] at h
    obtain ⟨e'', s₁, -, h⟩ := bind_eq_ok.mp h
    cases (pure_eq_ok.mp h).1
  · exact (pure_eq_ok.mp h).2.symm

/-- Skipped type arguments start with an angle bracket, if there are any. -/
theorem got_skipAngles {u : Unit} (h : skipAngles s = .ok u s') : Got (fun _ ts => Skipped ts) s s' := by
  have hgot := Got.of_ok h
  rw [skipAngles, run_check] at h
  by_cases hk : s.here.kind = .mark .lt
  · refine hgot.mono fun _ ts hpassed _ t ht => ?_
    rw [hpassed.head? t ht, hk]
  · rw [decide_eq_false hk, if_neg Bool.false_ne_true] at h
    obtain ⟨-, rfl⟩ := pure_eq_ok.mp h
    exact (Got.stay s).mono fun _ _ _ hts => hts ▸ nofun

/-- The callee after `new`: a primary expression and members. -/
theorem got_newCallee (hinner : Reads inner) {callee : Expr} (hs : s.Sealed)
    (h : (inner .primary >>= chain fun target => do
      if ← check (.mark .dot) then return some (← memberSuffix target) else return none) s = .ok callee s') :
    Got (fun clean ts => Phrase clean .callee ts callee) s s' := by
  obtain ⟨primary, s₁, hprimary, h⟩ := bind_eq_ok.mp h
  have hgot := hinner.phrase hs hprimary
  refine (hgot.seq (Got.chain (I := (Phrase · .callee)) ?_ ?_ (hgot.sealed hs) h)).mono ?_
  · intro s s' a a' hs h
    rw [run_check] at h
    by_cases hk : s.here.kind = .mark .dot
    · rw [decide_eq_true hk, if_pos rfl] at h
      obtain ⟨_, _, hmember, h⟩ := bind_eq_ok.mp h
      obtain ⟨heq, rfl⟩ := pure_eq_ok.mp h
      cases heq
      refine (got_memberSuffix hs (by rw [hk]; exact nofun) hmember).mono ?_
      rintro _ _ - ⟨t, name, rfl, ht, rfl⟩ us hus
      exact .member (.inr rfl) hus hk ht
    · rw [decide_eq_false hk, if_neg Bool.false_ne_true] at h
      cases (pure_eq_ok.mp h).1
  · intro s s' a hs h
    rw [run_check] at h
    split at h
    · obtain ⟨_, _, -, h⟩ := bind_eq_ok.mp h
      cases (pure_eq_ok.mp h).1
    · exact (pure_eq_ok.mp h).2.symm
  · rintro _ _ - ⟨us, vs, rfl, hus, hvs⟩
    exact hvs us (hus.looser (by decide))

/-- `new` is read as a phrase. -/
theorem got_newExpr (hinner : Reads inner) (hs : s.Sealed) (hk : s.here.kind = .keyword .new)
    (h : newExpr inner s = .ok e s') : Got (fun clean ts => Phrase clean .primary ts e) s s' := by
  rw [newExpr, run_here, run_advance] at h
  have hn := Got.word hs hk
  have hs₁ := hn.sealed hs
  obtain ⟨primary, s₁, hprimary, h⟩ := bind_eq_ok.mp h
  obtain ⟨callee, s₂, hchain, h⟩ := bind_eq_ok.mp h
  have hcallee := got_newCallee hinner hs₁ (bind_eq_ok.mpr ⟨primary, s₁, hprimary, hchain⟩)
  have hs₂ := hcallee.sealed hs₁
  obtain ⟨_, s₃, hskip, h⟩ := bind_eq_ok.mp h
  have hangles := got_skipAngles hskip
  have hs₃ := hangles.sealed hs₂
  have hupTo := (hn.seq hcallee).seq hangles
  rw [run_accept] at h
  split at h
  · rename_i ho
    rw [if_pos rfl] at h
    obtain ⟨args, s₄, hargs, h⟩ := bind_eq_ok.mp h
    dsimp only at h
    rw [run_spanFrom] at h
    obtain ⟨rfl, rfl⟩ := pure_eq_ok.mp h
    have hopen := Got.mark hs₃ ho
    refine ((hupTo.seq hopen).seq (got_arguments hinner.phrase (hopen.sealed hs₃) hargs)).mono ?_
    rintro _ _ hpassed ⟨_, us, rfl, ⟨_, _, rfl, ⟨_, as, rfl, ⟨_, ts, rfl, rfl, hts⟩, has⟩, rfl⟩, parts, rfl, hparts, hlist⟩
    rw [hpassed.spanFrom_eq (by simp)]
    simp only [List.append_assoc, List.singleton_append]
    rw [← List.append_assoc]
    exact .newWith hk hts has ho hparts hlist
  · rw [if_neg Bool.false_ne_true, bind_of_ok (run_pure _ _)] at h
    dsimp only at h
    rw [run_spanFrom] at h
    obtain ⟨rfl, rfl⟩ := pure_eq_ok.mp h
    refine hupTo.mono ?_
    rintro _ _ hpassed ⟨_, as, rfl, ⟨_, ts, rfl, rfl, hts⟩, has⟩
    rw [hpassed.spanFrom_eq (by simp)]
    exact .new hk hts has

/-- The tokens of one entry of an object literal, with the phrase of its value. -/
def FieldTokens (clean : Bool) (ts : List Token) (f : Field Expr) : Prop :=
  Entry ts f ∧ ∀ k c us, ts = k :: c :: us → Phrase clean .assignment us f.value

/-- An entry is read from its tokens. -/
theorem got_field (hinner : Reads inner) {f : Field Expr} (hs : s.Sealed) (h : field inner s = .ok f s') :
    Got (fun clean ts => FieldTokens clean ts f) s s' := by
  obtain ⟨key, s₁, hkey, h⟩ := bind_eq_ok.mp h
  have hname := got_identBy rfl hs hkey
  have hs₁ := hname.sealed hs
  rw [run_accept] at h
  split at h
  · rename_i hc
    rw [if_pos rfl] at h
    obtain ⟨value, s₂, hvalue, h⟩ := bind_eq_ok.mp h
    obtain ⟨rfl, rfl⟩ := pure_eq_ok.mp h
    have hcolon := Got.mark hs₁ hc
    refine ((hname.seq hcolon).seq (hinner.phrase (hcolon.sealed hs₁) hvalue)).mono ?_
    rintro _ _ - ⟨_, ts, rfl, ⟨_, _, rfl, ⟨t, name, rfl, ht, rfl⟩, rfl⟩, hts⟩
    refine ⟨.long ht hc, fun k c us heq => ?_⟩
    cases heq
    exact hts
  · rw [if_neg Bool.false_ne_true] at h
    obtain ⟨rfl, rfl⟩ := pure_eq_ok.mp h
    refine hname.mono ?_
    rintro _ _ - ⟨t, name, rfl, ht, rfl⟩
    exact ⟨.short ht, fun k c us heq => by simp at heq⟩

/-- A primary expression is read as a phrase. -/
theorem got_primaryExpr (hinner : Reads inner) (hs : s.Sealed) (h : primaryExpr inner s = .ok e s') :
    Got (fun clean ts => Phrase clean .primary ts e) s s' := by
  rw [primaryExpr, run_here] at h
  generalize hlit : s.here.kind.literal? = lit at h
  cases lit with
  | some value =>
    dsimp only at h
    rw [run_advance] at h
    obtain ⟨rfl, rfl⟩ := pure_eq_ok.mp h
    refine (Got.token hs fun hk => ?_).mono fun _ _ _ hts => hts ▸ .literal hlit
    rw [hk] at hlit
    cases hlit
  | none =>
    dsimp only at h
    generalize hk : s.here.kind = k at h
    split at h
    · rw [run_advance] at h
      obtain ⟨rfl, rfl⟩ := pure_eq_ok.mp h
      exact (Got.word hs hk).mono fun _ _ _ hts => hts ▸ .this hk
    · rw [run_advance] at h
      obtain ⟨rfl, rfl⟩ := pure_eq_ok.mp h
      exact (Got.word hs hk).mono fun _ _ _ hts => hts ▸ .super hk
    · exact got_newExpr hinner hs hk h
    · rw [run_advance] at h
      obtain ⟨inside, s₁, hinside, h⟩ := bind_eq_ok.mp h
      obtain ⟨_, s₂, hclose, h⟩ := bind_eq_ok.mp h
      rw [run_spanFrom] at h
      obtain ⟨rfl, rfl⟩ := pure_eq_ok.mp h
      have ho := Got.mark hs hk
      have hgot := ho.seq (hinner.phrase (ho.sealed hs) hinside)
      refine (hgot.seq (got_expect (hgot.sealed hs) hclose)).mono ?_
      rintro _ _ hpassed ⟨_, _, rfl, ⟨_, us, rfl, rfl, hus⟩, c, rfl, hc⟩
      rw [hpassed.spanFrom_eq (by simp)]
      exact .paren hk hus hc
    · rw [run_advance] at h
      obtain ⟨elements, s₁, helements, h⟩ := bind_eq_ok.mp h
      rw [run_spanFrom] at h
      obtain ⟨rfl, rfl⟩ := pure_eq_ok.mp h
      have ho := Got.mark hs hk
      refine (ho.seq (got_listUpTo (P := (Phrase · .assignment)) hinner.phrase (ho.sealed hs) helements)).mono ?_
      rintro _ _ hpassed ⟨_, us, rfl, rfl, parts, rfl, hparts, hlist⟩
      rw [hpassed.spanFrom_eq (by simp)]
      exact .array hk hparts hlist
    · rw [run_advance] at h
      obtain ⟨fields, s₁, hfields, h⟩ := bind_eq_ok.mp h
      rw [run_spanFrom] at h
      obtain ⟨rfl, rfl⟩ := pure_eq_ok.mp h
      have ho := Got.mark hs hk
      refine (ho.seq (got_listUpTo (P := FieldTokens) (got_field hinner) (ho.sealed hs) hfields)).mono ?_
      rintro _ _ hpassed ⟨_, us, rfl, rfl, parts, rfl, hparts, hlist⟩
      rw [hpassed.spanFrom_eq (by simp)]
      exact .object hk (fun p hp => (hparts p hp).1) (fun k c ts f hp => (hparts _ hp).2 k c ts rfl) hlist
    · obtain ⟨i, s₁, hi, h⟩ := bind_eq_ok.mp h
      obtain ⟨rfl, rfl⟩ := pure_eq_ok.mp h
      refine (got_identBy rfl hs hi).mono ?_
      rintro _ _ - ⟨t, name, rfl, ht, rfl⟩
      exact .name ht

theorem got_postfixExpr (hinner : Reads inner) (hs : s.Sealed) (h : postfixExpr inner s = .ok e s') :
    Got (fun clean ts => Phrase clean .suffixed ts e) s s' := by
  obtain ⟨primary, s₁, hprimary, h⟩ := bind_eq_ok.mp h
  have hgot := got_primaryExpr hinner hs hprimary
  have hchain := Got.chain (I := (Phrase · .suffixed)) (got_suffix? hinner) (fun _ => suffix?_none)
    (hgot.sealed hs) h
  refine (hgot.seq hchain).mono ?_
  rintro _ _ - ⟨us, vs, rfl, hus, hvs⟩
  exact hvs us (hus.looser (by decide))

theorem got_unaryExpr (hinner : Reads inner) (hs : s.Sealed) (h : unaryExpr inner s = .ok e s') :
    Got (fun clean ts => Phrase clean .unary ts e) s s' := by
  rw [unaryExpr, run_here] at h
  generalize hunary : s.here.kind.unaryOp? = unary at h
  generalize hupdate : s.here.kind.updateOp? = update at h
  split at h
  · rename_i op _
    rw [run_advance] at h
    obtain ⟨operand, s₁, hoperand, h⟩ := bind_eq_ok.mp h
    rw [run_spanFrom] at h
    obtain ⟨rfl, rfl⟩ := pure_eq_ok.mp h
    have ho := Got.token hs fun hk => by rw [hk] at hunary; cases hunary
    refine (ho.seq (hinner.phrase (ho.sealed hs) hoperand)).mono ?_
    rintro _ _ hpassed ⟨_, us, rfl, rfl, hus⟩
    rw [hpassed.spanFrom_eq (by simp)]
    exact .unary hunary hus
  · rw [run_advance] at h
    obtain ⟨operand, s₁, hoperand, h⟩ := bind_eq_ok.mp h
    rw [run_spanFrom] at h
    obtain ⟨rfl, rfl⟩ := pure_eq_ok.mp h
    have ho := Got.token hs fun hk => by rw [hk] at hupdate; cases hupdate
    refine (ho.seq (hinner.phrase (ho.sealed hs) hoperand)).mono ?_
    rintro _ _ hpassed ⟨_, us, rfl, rfl, hus⟩
    rw [hpassed.spanFrom_eq (by simp)]
    exact .leading hupdate hus
  · obtain ⟨e', s₁, he', h⟩ := bind_eq_ok.mp h
    have hgot := got_postfixExpr hinner hs he'
    rw [run_here] at h
    generalize hafter : s₁.here.kind.updateOp? = after at h
    cases after with
    | none =>
      obtain ⟨rfl, rfl⟩ := pure_eq_ok.mp h
      exact hgot.mono fun _ _ _ hts => hts.looser (by decide)
    | some op =>
      dsimp only at h
      split at h
      · obtain ⟨rfl, rfl⟩ := pure_eq_ok.mp h
        exact hgot.mono fun _ _ _ hts => hts.looser (by decide)
      · rw [run_advance, run_spanFrom] at h
        obtain ⟨rfl, rfl⟩ := pure_eq_ok.mp h
        have ho := Got.token (hgot.sealed hs) fun hk => by rw [hk] at hafter; cases hafter
        refine (hgot.seq ho).mono ?_
        rintro _ _ hpassed ⟨us, _, rfl, hus, rfl⟩
        rw [hpassed.spanFrom_eq (by simp)]
        cases us with
        | nil => exact absurd rfl hus.ne_nil
        | cons t us =>
          have ht : s.here = t := (List.cons.inj hpassed.tokens).1
          rw [ht]
          exact .trailing hus hafter

theorem got_exponentExpr (hinner : Reads inner) (hs : s.Sealed) (h : exponentExpr inner s = .ok e s') :
    Got (fun clean ts => Phrase clean .power ts e) s s' := by
  obtain ⟨base, s₁, hbase, h⟩ := bind_eq_ok.mp h
  have hgot := got_unaryExpr hinner hs hbase
  rw [run_accept] at h
  split at h
  · rename_i hk
    rw [if_pos rfl] at h
    obtain ⟨exponent, s₂, hexponent, h⟩ := bind_eq_ok.mp h
    obtain ⟨rfl, rfl⟩ := pure_eq_ok.mp h
    have ho := Got.mark (hgot.sealed hs) hk
    refine (hgot.seq (ho.seq (hinner.phrase (ho.sealed (hgot.sealed hs)) hexponent))).mono ?_
    rintro _ _ - ⟨us, _, rfl, hus, _, vs, rfl, rfl, hvs⟩
    exact .power hus hk hvs
  · rw [if_neg Bool.false_ne_true] at h
    obtain ⟨rfl, rfl⟩ := pure_eq_ok.mp h
    exact hgot.mono fun _ _ _ hts => hts.looser (by decide)

/-! ## Binary operators -/

/-- The rank of what binary expressions of the given tiers read. -/
def tiersRank : List Tier → Rank
  | [] => .power
  | tier :: _ => .tier tier

/-- An assertion makes a longer phrase of the phrase before it. -/
theorem got_assertion? {left e' : Expr} (hs : s.Sealed) (h : assertion? left s = .ok (some e') s') :
    Got (fun clean ts => ∀ us, Phrase clean (.tier .relational) us left →
      Phrase clean (.tier .relational) (us ++ ts) e') s s' := by
  rw [assertion?, run_here] at h
  split at h
  · cases (pure_eq_ok.mp h).1
  split at h
  · rename_i hk
    rw [run_advance] at h
    obtain ⟨type, s₁, htype, h⟩ := bind_eq_ok.mp h
    obtain ⟨heq, rfl⟩ := pure_eq_ok.mp h
    cases heq
    refine ((Got.word hs hk).seq (Got.of_ok htype)).mono ?_
    rintro _ _ - ⟨_, us, rfl, rfl, -⟩ ts hts
    exact .asType hts hk
  split at h
  · rename_i hk
    rw [run_advance] at h
    obtain ⟨type, s₁, htype, h⟩ := bind_eq_ok.mp h
    obtain ⟨heq, rfl⟩ := pure_eq_ok.mp h
    cases heq
    refine ((Got.word hs hk).seq (Got.of_ok htype)).mono ?_
    rintro _ _ - ⟨_, us, rfl, rfl, -⟩ ts hts
    exact .satisfiesType hts hk
  · cases (pure_eq_ok.mp h).1

/-- Where no assertion follows nothing is read. -/
theorem assertion?_none {left : Expr} (h : assertion? left s = .ok none s') : s' = s := by
  rw [assertion?, run_here] at h
  split at h
  · exact (pure_eq_ok.mp h).2.symm
  split at h
  · rw [run_advance] at h
    obtain ⟨type, s₁, -, h⟩ := bind_eq_ok.mp h
    cases (pure_eq_ok.mp h).1
  split at h
  · rw [run_advance] at h
    obtain ⟨type, s₁, -, h⟩ := bind_eq_ok.mp h
    cases (pure_eq_ok.mp h).1
  · exact (pure_eq_ok.mp h).2.symm

/-- An operator with its right operand makes a longer phrase of the phrase before it. -/
theorem got_operation? {tier : Tier} {r : Rank} (hr : .tier tier < r) {operand : Parser Expr}
    (hoperand : ∀ {s s' : ParserState} {e : Expr}, s.Sealed → operand s = .ok e s' →
      Got (fun clean ts => Phrase clean r ts e) s s')
    {left e' : Expr} (hs : s.Sealed) (h : operation? tier operand left s = .ok (some e') s') :
    Got (fun clean ts => ∀ us, Phrase clean (.tier tier) us left → Phrase clean (.tier tier) (us ++ ts) e') s s' := by
  rw [operation?, run_get] at h
  generalize hop : s.binaryOp? tier = found at h
  cases found with
  | none => cases (pure_eq_ok.mp h).1
  | some found =>
    obtain ⟨op, len⟩ := found
    obtain ⟨hkinds, rfl, htier⟩ := Cursor.binaryOp?_eq_some hop
    obtain ⟨_, s₁, hadvance, h⟩ := bind_eq_ok.mp h
    obtain ⟨right, s₂, hright, h⟩ := bind_eq_ok.mp h
    obtain ⟨heq, rfl⟩ := pure_eq_ok.mp h
    cases heq
    have ho := Got.advanceBy hs hkinds op.end_not_mem_kinds hadvance
    refine (ho.seq (hoperand (ho.sealed hs) hright)).mono ?_
    rintro _ _ - ⟨os, vs, rfl, hos, hvs⟩ us hus
    exact .operation htier hus hos hr hvs

/-- Where no operator of the tier follows nothing is read. -/
theorem operation?_none {tier : Tier} {operand : Parser Expr} {left : Expr}
    (h : operation? tier operand left s = .ok none s') : s' = s := by
  rw [operation?, run_get] at h
  generalize hop : s.binaryOp? tier = found at h
  cases found with
  | none => exact (pure_eq_ok.mp h).2.symm
  | some found =>
    obtain ⟨_, s₁, -, h⟩ := bind_eq_ok.mp h
    obtain ⟨right, s₂, -, h⟩ := bind_eq_ok.mp h
    cases (pure_eq_ok.mp h).1

/-- Whatever follows an operand in its tier makes a longer phrase of the phrase before it. -/
theorem got_tierStep {tier : Tier} {r : Rank} (hr : .tier tier < r) {operand : Parser Expr}
    (hoperand : ∀ {s s' : ParserState} {e : Expr}, s.Sealed → operand s = .ok e s' →
      Got (fun clean ts => Phrase clean r ts e) s s')
    {left e' : Expr} (hs : s.Sealed) (h : tierStep tier operand left s = .ok (some e') s') :
    Got (fun clean ts => ∀ us, Phrase clean (.tier tier) us left → Phrase clean (.tier tier) (us ++ ts) e') s s' := by
  rw [tierStep] at h
  split at h
  · rename_i htier
    obtain ⟨asserted, s₁, hasserted, h⟩ := bind_eq_ok.mp h
    cases asserted with
    | some e =>
      obtain ⟨heq, rfl⟩ := pure_eq_ok.mp h
      cases heq
      rw [htier]
      exact got_assertion? hs hasserted
    | none =>
      rw [assertion?_none hasserted] at h
      exact got_operation? hr hoperand hs h
  · exact got_operation? hr hoperand hs h

/-- Where nothing follows it nothing is read. -/
theorem tierStep_none {tier : Tier} {operand : Parser Expr} {left : Expr}
    (h : tierStep tier operand left s = .ok none s') : s' = s := by
  rw [tierStep] at h
  split at h
  · obtain ⟨asserted, s₁, hasserted, h⟩ := bind_eq_ok.mp h
    cases asserted with
    | some e => cases (pure_eq_ok.mp h).1
    | none =>
      rw [assertion?_none hasserted] at h
      exact operation?_none h
  · exact operation?_none h

/-- Binary expressions of the given tiers, loosest first, are phrases of the first tier. -/
theorem got_binaryExpr (hinner : Reads inner) {tiers : List Tier} (htiers : tiers.Pairwise fun a b => a.rank < b.rank) :
    ∀ {s s' : ParserState} {e : Expr}, s.Sealed → binaryExpr inner tiers s = .ok e s' →
      Got (fun clean ts => Phrase clean (tiersRank tiers) ts e) s s' := by
  induction tiers with
  | nil => exact fun hs h => got_exponentExpr hinner hs h
  | cons tier tighter ih =>
    intro s s' e hs h
    obtain ⟨htier, htighter⟩ := List.pairwise_cons.mp htiers
    have hr : .tier tier < tiersRank tighter := by
      have := tier.rank_le
      cases tighter with
      | nil =>
        rw [Rank.lt_iff, Rank.toNat_tier]
        show tier.rank + 1 < 12
        omega
      | cons t _ => exact Nat.succ_lt_succ (htier t (by simp))
    obtain ⟨first, s₁, hfirst, h⟩ := bind_eq_ok.mp h
    have hgot := ih htighter hs hfirst
    have hchain := Got.chain (I := (Phrase · (.tier tier))) (got_tierStep hr (ih htighter)) (fun _ => tierStep_none)
      (hgot.sealed hs) h
    refine (hgot.seq hchain).mono ?_
    rintro _ _ - ⟨us, vs, rfl, hus, hvs⟩
    exact hvs us (hus.looser (Nat.le_of_lt hr))

/-! ## Conditionals and assignments -/

/-- A conditional is read to the end of an assignment; anything else is tighter than one. -/
theorem got_conditionalExpr (hinner : Reads inner) (hs : s.Sealed) (h : conditionalExpr inner s = .ok e s') :
    Got (fun clean ts => Phrase clean .assignment ts e ∧
      (s'.assignOp? = none ∨ Phrase clean (.tier .coalesce) ts e)) s s' := by
  obtain ⟨test, s₁, htest, h⟩ := bind_eq_ok.mp h
  have hgot := got_binaryExpr hinner (by decide) hs htest
  have hs₁ := hgot.sealed hs
  rw [run_accept] at h
  split at h
  · rename_i hq
    rw [if_pos rfl] at h
    obtain ⟨consequent, s₂, hconsequent, h⟩ := bind_eq_ok.mp h
    obtain ⟨_, s₃, hcolon, h⟩ := bind_eq_ok.mp h
    obtain ⟨alternate, s₄, halternate, h⟩ := bind_eq_ok.mp h
    obtain ⟨rfl, rfl⟩ := pure_eq_ok.mp h
    have hquestion := hgot.seq (Got.mark hs₁ hq)
    have hthen := hquestion.seq (hinner.phrase (hquestion.sealed hs) hconsequent)
    have hcolon := hthen.seq (got_expect (hthen.sealed hs) hcolon)
    refine (hcolon.seq (hinner.phrase (hcolon.sealed hs) halternate)).mono ?_
    rintro _ _ - ⟨_, vs, rfl, ⟨_, _, rfl, ⟨_, us, rfl, ⟨ts, _, rfl, hts, rfl⟩, hus⟩, c, rfl, hc⟩, hvs⟩
    refine ⟨?_, .inl (hinner.ends halternate)⟩
    have := Phrase.conditional (r := tiersRank Tier.all) (by decide) hts hq hus hc hvs
    simpa using this
  · rw [if_neg Bool.false_ne_true] at h
    obtain ⟨rfl, rfl⟩ := pure_eq_ok.mp h
    exact hgot.mono fun _ _ _ hts => ⟨hts.looser (Nat.zero_le _), .inr hts⟩

/-- An assignment or a conditional is read as a phrase. -/
theorem got_assignmentExpr (hinner : Reads inner) (hs : s.Sealed) (h : assignmentExpr inner s = .ok e s') :
    Got (fun clean ts => Phrase clean .assignment ts e) s s' := by
  obtain ⟨left, s₁, hleft, h⟩ := bind_eq_ok.mp h
  have hgot := got_conditionalExpr hinner hs hleft
  rw [run_get] at h
  generalize hop : s₁.assignOp? = found at h hgot
  cases found with
  | none =>
    obtain ⟨rfl, rfl⟩ := pure_eq_ok.mp h
    exact hgot.mono fun _ _ _ hts => hts.1
  | some found =>
    obtain ⟨op, len⟩ := found
    obtain ⟨hkinds, rfl, hassign⟩ := Cursor.assignOp?_eq_some hop
    obtain ⟨_, s₂, hadvance, h⟩ := bind_eq_ok.mp h
    obtain ⟨right, s₃, hright, h⟩ := bind_eq_ok.mp h
    obtain ⟨rfl, rfl⟩ := pure_eq_ok.mp h
    have ho := Got.advanceBy (hgot.sealed hs) hkinds op.end_not_mem_kinds hadvance
    have hs₂ := ho.sealed (hgot.sealed hs)
    refine (hgot.seq (ho.seq (hinner.phrase hs₂ hright))).mono ?_
    rintro _ _ - ⟨us, _, rfl, ⟨-, hus⟩, os, vs, rfl, hos, hvs⟩
    exact .assign hassign (by decide) (hus.resolve_left nofun) hos hvs

/-- No assignment follows what was read as one. -/
theorem assignmentExpr_ends (hinner : Reads inner) (h : assignmentExpr inner s = .ok e s') : s'.assignOp? = none := by
  obtain ⟨left, s₁, hleft, h⟩ := bind_eq_ok.mp h
  rw [run_get] at h
  generalize hop : s₁.assignOp? = found at h
  cases found with
  | none =>
    obtain ⟨rfl, rfl⟩ := pure_eq_ok.mp h
    exact hop
  | some found =>
    obtain ⟨_, s₂, -, h⟩ := bind_eq_ok.mp h
    obtain ⟨right, s₃, hright, h⟩ := bind_eq_ok.mp h
    obtain ⟨rfl, rfl⟩ := pure_eq_ok.mp h
    exact hinner.ends hright

/-- Expressions of every form and every depth of nesting are phrases. -/
theorem reads_exprWithin (n : Nat) : Reads (exprWithin n) := by
  induction n with
  | zero => exact ⟨fun _ h => (nomatch h), fun h => (nomatch h)⟩
  | succ n ih =>
    refine ⟨?_, fun h => assignmentExpr_ends ih h⟩
    intro form s s' e hs h
    cases form with
    | assignment => exact got_assignmentExpr ih hs h
    | exponent => exact got_exponentExpr ih hs h
    | unary => exact got_unaryExpr ih hs h
    | primary => exact got_primaryExpr ih hs h

/-- The bound of an expression is one more than the number of tokens ahead. -/
theorem run_expression (s : ParserState) : expression s = exprWithin (s.ahead.length + 1) .assignment s := by
  rw [expression, exprOf, run_bounded]

/-- Every expression read is a phrase. -/
theorem got_expression (hs : s.Sealed) (h : expression s = .ok e s') :
    Got (fun clean ts => Phrase clean .assignment ts e) s s' := by
  rw [run_expression] at h
  exact (reads_exprWithin _).phrase hs h

end Parser

end ContractCompiler
