import ContractCompiler.Proofs.Leveled
import ContractCompiler.Proofs.Reading.Runs

/-!
# The grammar of expressions

`Phrase clean rank ts e` says that the tokens `ts` make up the expression `e`, as an expression of at least the given
rank, and gives every span. It is the grammar the parser follows, written without the parser: binary operators are
left-recursive, a list is its items with commas between them.

A phrase that is not `clean` may hold tokens that belong to no part of it, where the parser recorded an error and
went on.
-/

namespace ContractCompiler

/-- The span from `start` to the end of the last of the tokens. -/
def spanTo (start : Nat) (ts : List Token) : Span :=
  ⟨start, max ((ts.getLast?.map fun t => t.span.stop).getD start) start⟩

/-- Items, each with its tokens, make up a token list: commas stand between them and `close` at the end, possibly
after one more comma. A list that is not clean may break off, before an item with tokens that belong to none, or after
an item. -/
inductive Listed {α : Type} (clean : Bool) (close : Mark) : List (List Token × α) → List Token → Prop where
  | done {c : Token} : c.kind = .mark close → Listed clean close [] [c]
  | last {ts : List Token} {a : α} {c : Token} :
      c.kind = .mark close → Listed clean close [(ts, a)] (ts ++ [c])
  | more {ts rest : List Token} {a : α} {c : Token} {parts : List (List Token × α)} :
      c.kind = .mark .comma → Listed clean close parts rest → Listed clean close ((ts, a) :: parts) (ts ++ c :: rest)
  | skipped {ts : List Token} : clean = false → Listed clean close [] ts
  | broken {ts : List Token} {a : α} : clean = false → Listed clean close [(ts, a)] ts

namespace Listed

variable {α : Type} {clean : Bool} {close : Mark} {parts : List (List Token × α)} {ts : List Token}

/-- The tokens of the items stand among those of the list, in order. -/
theorem sublist (h : Listed clean close parts ts) : (parts.flatMap Prod.fst).Sublist ts := by
  induction h with
  | done _ => simp
  | last _ => simp
  | more _ _ ih => simpa using ih.cons _
  | skipped _ => simp
  | broken _ => simp

/-- The tokens of an item stand among those of the list. -/
theorem sublist_of_mem (h : Listed clean close parts ts) {p : List Token × α} (hp : p ∈ parts) : p.1.Sublist ts := by
  refine List.Sublist.trans ?_ h.sublist
  rw [List.flatMap_def]
  exact List.sublist_flatten_of_mem (List.mem_map_of_mem hp)

end Listed

/-- The tokens of one entry of an object literal: a key alone, whose value is the variable of that name, or a key, a
colon and the tokens of the value. -/
inductive Entry : List Token → Field Expr → Prop where
  | short {k : Token} {name : String} :
      k.kind.declaredName? = some name → Entry [k] ⟨⟨name, k.span⟩, .ident ⟨name, k.span⟩⟩
  | long {k c : Token} {ts : List Token} {name : String} {value : Expr} :
      k.kind.declaredName? = some name → c.kind = .mark .colon → Entry (k :: c :: ts) ⟨⟨name, k.span⟩, value⟩

/-- The type arguments that are skipped after a name: nothing, or tokens that start with an angle bracket. -/
def Skipped (ts : List Token) : Prop := ∀ t ∈ ts.head?, t.kind = .mark .lt

/-- The tokens make up the expression. -/
inductive Phrase (clean : Bool) : Rank → List Token → Expr → Prop where
  /-- What holds together more tightly may stand where less is asked for. -/
  | looser {r r' : Rank} {ts : List Token} {e : Expr} : Phrase clean r' ts e → r ≤ r' → Phrase clean r ts e
  | literal {t : Token} {value : Literal} :
      t.kind.literal? = some value → Phrase clean .primary [t] (.literal t.span value)
  | name {t : Token} {name : String} :
      t.kind.bindingName? = some name → Phrase clean .primary [t] (.ident ⟨name, t.span⟩)
  | this {t : Token} : t.kind = .keyword .this → Phrase clean .primary [t] (.this t.span)
  | super {t : Token} : t.kind = .keyword .super → Phrase clean .primary [t] (.super t.span)
  | paren {o c : Token} {ts : List Token} {e : Expr} :
      o.kind = .mark .lparen → Phrase clean .assignment ts e → c.kind = .mark .rparen →
        Phrase clean .primary (o :: ts ++ [c]) (.paren (spanTo o.span.start (o :: ts ++ [c])) e)
  | array {o : Token} {parts : List (List Token × Expr)} {ts : List Token} :
      o.kind = .mark .lbracket → (∀ p ∈ parts, Phrase clean .assignment p.1 p.2) → Listed clean .rbracket parts ts →
        Phrase clean .primary (o :: ts) (.array (spanTo o.span.start (o :: ts)) (parts.map Prod.snd))
  | object {o : Token} {parts : List (List Token × Field Expr)} {ts : List Token} :
      o.kind = .mark .lbrace → (∀ p ∈ parts, Entry p.1 p.2) →
        (∀ k c ts f, (k :: c :: ts, f) ∈ parts → Phrase clean .assignment ts f.value) →
          Listed clean .rbrace parts ts →
            Phrase clean .primary (o :: ts) (.object (spanTo o.span.start (o :: ts)) (parts.map Prod.snd))
  | new {n : Token} {ts as : List Token} {callee : Expr} :
      n.kind = .keyword .new → Phrase clean .callee ts callee → Skipped as →
        Phrase clean .primary (n :: ts ++ as) (.new (spanTo n.span.start (n :: ts ++ as)) callee [])
  | newWith {n o : Token} {ts as us : List Token} {callee : Expr} {parts : List (List Token × Expr)} :
      n.kind = .keyword .new → Phrase clean .callee ts callee → Skipped as → o.kind = .mark .lparen →
        (∀ p ∈ parts, Phrase clean .assignment p.1 p.2) → Listed clean .rparen parts us →
          Phrase clean .primary (n :: ts ++ as ++ o :: us)
            (.new (spanTo n.span.start (n :: ts ++ as ++ o :: us)) callee (parts.map Prod.snd))
  | member {r : Rank} {ts : List Token} {target : Expr} {d t : Token} {name : String} :
      r = .suffixed ∨ r = .callee → Phrase clean r ts target → d.kind = .mark .dot →
        t.kind.memberName? = some name →
          Phrase clean r (ts ++ [d, t]) (.member (target.span.through t.span) target ⟨name, t.span⟩)
  | index {ts us : List Token} {target key : Expr} {o c : Token} :
      Phrase clean .suffixed ts target → o.kind = .mark .lbracket → Phrase clean .assignment us key →
        c.kind = .mark .rbracket →
          Phrase clean .suffixed (ts ++ (o :: us ++ [c]))
            (.index (spanTo target.span.start (ts ++ (o :: us ++ [c]))) target key)
  | call {ts us : List Token} {target : Expr} {o : Token} {parts : List (List Token × Expr)} :
      Phrase clean .suffixed ts target → o.kind = .mark .lparen → (∀ p ∈ parts, Phrase clean .assignment p.1 p.2) →
        Listed clean .rparen parts us →
          Phrase clean .suffixed (ts ++ o :: us)
            (.call (spanTo target.span.start (ts ++ o :: us)) target (parts.map Prod.snd))
  | nonNull {ts : List Token} {target : Expr} {b : Token} :
      Phrase clean .suffixed ts target → b.kind = .mark .bang →
        Phrase clean .suffixed (ts ++ [b]) (.nonNull (spanTo target.span.start (ts ++ [b])) target)
  | optionalMember {ts : List Token} {target : Expr} {q t : Token} {name : String} :
      Phrase clean .suffixed ts target → q.kind = .mark .questionDot → t.kind.memberName? = some name →
        Phrase clean .suffixed (ts ++ [q, t])
          (.optionalChain (target.span.through t.span)
            (.member (target.span.through t.span) target ⟨name, t.span⟩))
  | optionalIndex {ts us : List Token} {target key : Expr} {q o c : Token} :
      Phrase clean .suffixed ts target → q.kind = .mark .questionDot → o.kind = .mark .lbracket →
        Phrase clean .assignment us key → c.kind = .mark .rbracket →
          Phrase clean .suffixed (ts ++ (q :: o :: us ++ [c]))
            (.optionalChain (spanTo target.span.start (ts ++ (q :: o :: us ++ [c])))
              (.index (spanTo target.span.start (ts ++ (q :: o :: us ++ [c]))) target key))
  | optionalCall {ts us : List Token} {target : Expr} {q o : Token} {parts : List (List Token × Expr)} :
      Phrase clean .suffixed ts target → q.kind = .mark .questionDot → o.kind = .mark .lparen →
        (∀ p ∈ parts, Phrase clean .assignment p.1 p.2) → Listed clean .rparen parts us →
          Phrase clean .suffixed (ts ++ q :: o :: us)
            (.optionalChain (spanTo target.span.start (ts ++ q :: o :: us))
              (.call (spanTo target.span.start (ts ++ q :: o :: us)) target (parts.map Prod.snd)))
  | unary {o : Token} {ts : List Token} {op : UnaryOp} {e : Expr} :
      o.kind.unaryOp? = some op → Phrase clean .unary ts e →
        Phrase clean .unary (o :: ts) (.unary (spanTo o.span.start (o :: ts)) op e)
  | leading {o : Token} {ts : List Token} {op : UpdateOp} {e : Expr} :
      o.kind.updateOp? = some op → Phrase clean .unary ts e →
        Phrase clean .unary (o :: ts) (.update (spanTo o.span.start (o :: ts)) op true e)
  | trailing {t o : Token} {ts : List Token} {op : UpdateOp} {e : Expr} :
      Phrase clean .suffixed (t :: ts) e → o.kind.updateOp? = some op →
        Phrase clean .unary (t :: ts ++ [o]) (.update (spanTo t.span.start (t :: ts ++ [o])) op false e)
  | power {ts us : List Token} {o : Token} {left right : Expr} :
      Phrase clean .unary ts left → o.kind = .mark .starStar → Phrase clean .power us right →
        Phrase clean .power (ts ++ o :: us) (.binary (left.span.through right.span) .exp left right)
  | operation {t : Tier} {r : Rank} {op : BinaryOp} {ts os us : List Token} {left right : Expr} :
      op.tier? = some t → Phrase clean (.tier t) ts left → os.map Token.kind = op.kinds → .tier t < r →
        Phrase clean r us right →
          Phrase clean (.tier t) (ts ++ (os ++ us)) (.binary (left.span.through right.span) op left right)
  | asType {ts us : List Token} {a : Token} {left : Expr} {type : TypeExpr} :
      Phrase clean (.tier .relational) ts left → a.kind = .keyword .as →
        Phrase clean (.tier .relational) (ts ++ a :: us) (.asType (left.span.through type.span) left type)
  | satisfiesType {ts us : List Token} {a : Token} {left : Expr} {type : TypeExpr} :
      Phrase clean (.tier .relational) ts left → a.kind = .keyword .satisfies →
        Phrase clean (.tier .relational) (ts ++ a :: us) (.satisfiesType (left.span.through type.span) left type)
  | conditional {r : Rank} {ts us vs : List Token} {q c : Token} {test consequent alternate : Expr} :
      .assignment < r → Phrase clean r ts test → q.kind = .mark .question → Phrase clean .assignment us consequent →
        c.kind = .mark .colon → Phrase clean .assignment vs alternate →
          Phrase clean .assignment (ts ++ q :: us ++ c :: vs)
            (.conditional (test.span.through alternate.span) test consequent alternate)
  | assign {r : Rank} {op : BinaryOp} {ts os us : List Token} {left right : Expr} :
      op.isAssignment = true → .assignment < r → Phrase clean r ts left → os.map Token.kind = op.kinds →
        Phrase clean .assignment us right →
          Phrase clean .assignment (ts ++ (os ++ us)) (.binary (left.span.through right.span) op left right)

namespace Phrase

variable {clean : Bool} {r : Rank} {ts : List Token} {e : Expr}

/-- Every phrase has a token. -/
theorem ne_nil (h : Phrase clean r ts e) : ts ≠ [] := by
  induction h with
  | looser _ _ ih => exact ih
  | operation _ _ _ _ _ ih _ => simp [ih]
  | assign _ _ _ _ _ ih _ => simp [ih]
  | _ => simp

/-- An expression is at least as tight as its phrase asks for, and no operand in it is looser than its place allows. -/
theorem leveled (h : Phrase clean r ts e) :
    e.Leveled ∧ min r.toNat 14 ≤ e.rank.toNat ∧ (.callee ≤ r → e.isCallee = true) := by
  induction h with
  | looser _ hr ih =>
    refine ⟨ih.1, ?_, fun hc => ih.2.2 (Nat.le_trans hc hr)⟩
    have := Rank.le_iff.mp hr
    have := ih.2.1
    omega
  | literal _ => exact ⟨.literal _ _, Nat.min_le_right _ _, fun _ => rfl⟩
  | name _ => exact ⟨.ident _, Nat.min_le_right _ _, fun _ => rfl⟩
  | this _ => exact ⟨.this _, Nat.min_le_right _ _, fun _ => rfl⟩
  | super _ => exact ⟨.super _, Nat.min_le_right _ _, fun _ => rfl⟩
  | paren _ _ _ ih => exact ⟨.paren ih.1, Nat.min_le_right _ _, fun _ => rfl⟩
  | array _ _ _ ih =>
    refine ⟨.array ?_, Nat.min_le_right _ _, fun _ => rfl⟩
    simp only [List.mem_map]
    rintro _ ⟨p, hp, rfl⟩
    exact (ih p hp).1
  | object _ hentry _ _ ih =>
    refine ⟨.object ?_, Nat.min_le_right _ _, fun _ => rfl⟩
    simp only [List.mem_map]
    rintro _ ⟨p, hp, rfl⟩
    obtain ⟨us, f⟩ := p
    have hus := hentry _ hp
    cases hus with
    | short _ => exact .ident _
    | long _ _ => exact (ih _ _ _ _ hp).1
  | new _ _ _ ih => exact ⟨.new ih.1 (ih.2.2 (Nat.le_refl _)) nofun, Nat.min_le_right _ _, fun _ => rfl⟩
  | newWith _ _ _ _ _ _ ih ihargs =>
    refine ⟨.new ih.1 (ih.2.2 (Nat.le_refl _)) ?_, Nat.min_le_right _ _, fun _ => rfl⟩
    simp only [List.mem_map]
    rintro _ ⟨p, hp, rfl⟩
    exact (ihargs p hp).1
  | member hr _ _ _ ih =>
    refine ⟨.member ih.1 ?_, Nat.min_le_right _ _, ih.2.2⟩
    rcases hr with rfl | rfl <;> exact ih.2.1
  | index _ _ _ _ ih ihkey =>
    exact ⟨.index ih.1 ih.2.1 ihkey.1, Nat.min_le_right _ _, fun h => absurd h (by decide)⟩
  | call _ _ _ _ ih ihargs =>
    refine ⟨.call ih.1 ih.2.1 ?_, Nat.min_le_right _ _, fun h => absurd h (by decide)⟩
    simp only [List.mem_map]
    rintro _ ⟨p, hp, rfl⟩
    exact (ihargs p hp).1
  | nonNull _ _ ih => exact ⟨.nonNull ih.1 ih.2.1, Nat.min_le_right _ _, fun h => absurd h (by decide)⟩
  | optionalMember _ _ _ ih =>
    exact ⟨.optionalChain (.member ih.1 ih.2.1) rfl, Nat.min_le_right _ _, fun h => absurd h (by decide)⟩
  | optionalIndex _ _ _ _ _ ih ihkey =>
    exact ⟨.optionalChain (.index ih.1 ih.2.1 ihkey.1) rfl, Nat.min_le_right _ _, fun h => absurd h (by decide)⟩
  | optionalCall _ _ _ _ _ ih ihargs =>
    refine ⟨.optionalChain (.call ih.1 ih.2.1 ?_) rfl, Nat.min_le_right _ _, fun h => absurd h (by decide)⟩
    simp only [List.mem_map]
    rintro _ ⟨p, hp, rfl⟩
    exact (ihargs p hp).1
  | unary _ _ ih => exact ⟨.unary ih.1 ih.2.1, Nat.min_le_left _ _, fun h => absurd h (by decide)⟩
  | leading _ _ ih => exact ⟨.leading ih.1 ih.2.1, Nat.min_le_left _ _, fun h => absurd h (by decide)⟩
  | trailing _ _ ih => exact ⟨.trailing ih.1 ih.2.1, Nat.min_le_left _ _, fun h => absurd h (by decide)⟩
  | power _ _ _ ihl ihr =>
    exact ⟨.power ihl.1 ihl.2.1 ihr.1 ihr.2.1, Nat.min_le_left _ _, fun h => absurd h (by decide)⟩
  | @operation t r op _ _ _ _ _ htier _ _ hr _ ihl ihr =>
    have ht := t.rank_le
    have hr' := Rank.lt_iff.mp hr
    rw [Rank.toNat_tier] at hr'
    refine ⟨.operation htier ihl.1 ?_ ihr.1 ?_, ?_, fun h => ?_⟩
    · have := ihl.2.1
      simp only [Rank.le_iff, Rank.toNat_tier] at this ⊢
      omega
    · have := ihr.2.1
      simp only [Rank.lt_iff, Rank.toNat_tier] at this ⊢
      omega
    · rw [Expr.rank_of_tier htier]
      exact Nat.min_le_left _ _
    · simp only [Rank.le_iff, Rank.toNat] at h
      omega
  | asType _ _ ih => exact ⟨.asType ih.1 ih.2.1, Nat.min_le_left _ _, fun h => absurd h (by decide)⟩
  | satisfiesType _ _ ih => exact ⟨.satisfiesType ih.1 ih.2.1, Nat.min_le_left _ _, fun h => absurd h (by decide)⟩
  | conditional hr _ _ _ _ _ ih ihc iha =>
    refine ⟨.conditional ih.1 ?_ ihc.1 iha.1, Nat.min_le_left _ _, fun h => absurd h (by decide)⟩
    exact Nat.lt_of_lt_of_le (Nat.lt_min.mpr ⟨hr, by decide⟩) ih.2.1
  | assign hop hr _ _ _ ihl ihr =>
    refine ⟨.assignment hop ihl.1 ?_ ihr.1, ?_, fun h => absurd h (by decide)⟩
    · exact Nat.lt_of_lt_of_le (Nat.lt_min.mpr ⟨hr, by decide⟩) ihl.2.1
    · exact Nat.zero_le _

end Phrase

end ContractCompiler
