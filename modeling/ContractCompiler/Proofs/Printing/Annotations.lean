import ContractCompiler.Proofs.Contract.ReadBack
import ContractCompiler.Proofs.Printing.Types
import ContractCompiler.Proofs.Reading.Accepted
import ContractCompiler.Proofs.Reading.Declarators

/-!
# The text of an annotation

The text of an annotation writes a union without parentheses, whatever it stands in. It is always a text that is read without
errors and to its end, but what is read is the annotation only if no union stands directly in an array or in another union. A
union elsewhere than at the top or among the arguments of a type is read with other bounds, as part of the union around it.
-/

namespace ContractCompiler

open Token ContractCompiler.Parser

/-! ## What is read can be written -/

/-- A token that may start a type name is the token its name is written as. -/
theorem ofWord_of_typeName? {source : String} {t : Token} (ht : t ∈ tokensOf source) {name : String}
    (h : t.kind.typeName? = some name) : TokenKind.ofWord name = t.kind := by
  obtain ⟨scanned, hscanned, rfl⟩ := List.mem_map.mp ht
  cases hkind : scanned.token.kind with
  | ident text =>
    rw [hkind] at h
    cases h
    rcases exists_lexeme_of_mem hscanned with hend | ⟨offset, c, cs, hlexeme⟩
    · rw [hkind] at hend
      cases hend
    · exact ofWord_of_lexeme (hlexeme.symm.trans hkind)
  | keyword word =>
    have hname : name = word.spelling := by
      rw [hkind] at h
      unfold TokenKind.typeName? at h
      split at h
      · cases ‹TokenKind.keyword word = _›
        exact (Option.some.inj h).symm
      · cases ‹TokenKind.keyword word = _›
        exact (Option.some.inj h).symm
      · simp only [TokenKind.bindingName?] at h
        split at h
        · exact (Option.some.inj h).symm
        · cases h
    rw [hname, ofWord_spelling]
  | _ =>
    rw [hkind] at h
    cases h

/-- An annotation that starts at a token of a source text can be written if those that stand in it can. -/
theorem TypeExpr.StartsAt.printable {source : String} {t : TypeExpr} {s : ParserState} (h : t.StartsAt s)
    (hs : s.here ∈ tokensOf source) (hparts : ∀ u, Part.type u ∈ Part.ofType t → u.Printable) : t.Printable := by
  cases t with
  | keyword span word => exact .keyword span word
  | named span path args =>
    obtain ⟨first, more, rfl, hname, hword⟩ := h
    have hkind := ofWord_of_typeName? hs hname
    have htype : TypeExpr.isTypeName first.name = true := by simp [TypeExpr.isTypeName, hkind, hname, hword]
    exact .named htype fun a ha => hparts a (List.mem_append_right _ (List.mem_map_of_mem ha))
  | array span elem => exact .array (hparts elem List.mem_cons_self)
  | union span types =>
    obtain ⟨first, second, more, rfl⟩ := h
    exact .union fun u hu => hparts u (List.mem_map_of_mem hu)

/-- On the tokens of a source text, annotations that can be written are read from those that stand in them. -/
theorem typeReading_printable (source : String) :
    TypeReading fun p s s' => Ahead (· ∈ tokensOf source) s s' → ∀ t, p = .type t → t.Printable := by
  intro p s s' hp hread halong hs t ht
  subst ht
  have hparts := halong.forall_mem Ahead.middle hs
  exact TypeExpr.StartsAt.printable hread.own (hs _ List.mem_cons_self) fun u hu => hparts (.type u) hu u rfl

/-- Every annotation read from the tokens of a source text can be written. -/
theorem printable_typeExpr {source : String} {s s' : ParserState} {t : TypeExpr} (hs : s.On (tokensOf source))
    (h : typeExpr s = .ok t s') : t.Printable := by
  have hahead : Ahead (· ∈ tokensOf source) s s' := fun x hx => hs.tokens_eq ▸ List.mem_append_right _ hx
  have halong := along_typeExpr (typeReading_printable source) h
  exact halong.forall_mem Ahead.middle hahead (.type t) List.mem_cons_self t rfl

/-! ## Unions inside arrays and unions -/

namespace TypeExpr

/-- No union stands directly in an array or in another union. -/
inductive Flat : TypeExpr → Prop where
  | keyword (span : Span) (word : TypeKeyword) : Flat (.keyword span word)
  | named {span : Span} {path : List Ident} {args : List TypeExpr} : (∀ a ∈ args, a.Flat) → Flat (.named span path args)
  | array {span : Span} {elem : TypeExpr} : elem.isUnion = false → elem.Flat → Flat (.array span elem)
  | union {span : Span} {types : List TypeExpr} : (∀ t ∈ types, t.isUnion = false) → (∀ t ∈ types, t.Flat) →
      Flat (.union span types)

mutual

/-- The parts of all the dotted names in an annotation. -/
def segments : TypeExpr → List Ident
  | .keyword .. => []
  | .named _ path args => path ++ segmentsAll args
  | .array _ elem => elem.segments
  | .union _ types => segmentsAll types

/-- The parts of all the dotted names in several annotations. -/
def segmentsAll : List TypeExpr → List Ident
  | [] => []
  | t :: ts => t.segments ++ segmentsAll ts

end

/-- The names in several annotations are those in each of them. -/
theorem segmentsAll_eq_flatMap (ts : List TypeExpr) : segmentsAll ts = ts.flatMap segments := by
  induction ts with
  | nil => rfl
  | cons t ts ih => rw [segmentsAll, ih, List.flatMap_cons]

/-- The annotation is flat, can be written, and all its names are words. -/
inductive Plain : TypeExpr → Prop where
  | keyword (span : Span) (word : TypeKeyword) : Plain (.keyword span word)
  | named {span : Span} {first : Ident} {more : List Ident} {args : List TypeExpr} : isTypeName first.name = true →
      (∀ i ∈ first :: more, isName i.name = true) → (∀ a ∈ args, a.Plain) → Plain (.named span (first :: more) args)
  | array {span : Span} {elem : TypeExpr} : elem.isUnion = false → elem.Plain → Plain (.array span elem)
  | union {span : Span} {first second : TypeExpr} {more : List TypeExpr} :
      (∀ t ∈ first :: second :: more, t.isUnion = false) → (∀ t ∈ first :: second :: more, t.Plain) →
        Plain (.union span (first :: second :: more))

namespace Plain

variable {t : TypeExpr}

/-- A plain annotation is flat. -/
theorem flat (h : t.Plain) : t.Flat := by
  induction h with
  | keyword span word => exact .keyword span word
  | named _ _ _ ih => exact .named ih
  | array hunion _ ih => exact .array hunion ih
  | union hunion _ ih => exact .union hunion ih

/-- A plain annotation can be written. -/
theorem printable (h : t.Plain) : t.Printable := by
  induction h with
  | keyword span word => exact .keyword span word
  | named htype _ _ ih => exact .named htype ih
  | array _ _ ih => exact .array ih
  | union _ _ ih => exact .union ih

end Plain

/-- An annotation that is flat and can be written is plain if its names are words. -/
theorem Printable.plain {t : TypeExpr} (h : t.Printable) (hflat : t.Flat)
    (hwords : ∀ i ∈ t.segments, isName i.name = true) : t.Plain := by
  induction h with
  | keyword span word => exact .keyword span word
  | named htype _ ih =>
    cases hflat with
    | named hargs =>
      rw [segments, segmentsAll_eq_flatMap, List.forall_mem_append] at hwords
      exact .named htype hwords.1 fun a ha =>
        ih a ha (hargs a ha) fun i hi => hwords.2 i (List.mem_flatMap.mpr ⟨a, ha, hi⟩)
  | array _ ih =>
    cases hflat with
    | array hunion helem => exact .array hunion (ih helem hwords)
  | union _ ih =>
    cases hflat with
    | union hunion htypes =>
      rw [segments, segmentsAll_eq_flatMap] at hwords
      exact .union hunion fun t ht => ih t ht (htypes t ht) fun i hi => hwords i (List.mem_flatMap.mpr ⟨t, ht, hi⟩)

/-! ## The same text without nested unions -/

/-- The texts of these annotations, with bars between them, are the given text. -/
structure Alternatives (text : String) (us : List TypeExpr) : Prop where
  ne_nil : us ≠ []
  single : ∀ u ∈ us, u.isUnion = false
  plain : ∀ u ∈ us, u.Plain
  text_eq : " | ".intercalate (us.map TypeExpr.text) = text

namespace Alternatives

variable {text : String} {us : List TypeExpr}

/-- Alternatives make up one annotation of their text. -/
theorem exists_plain (h : Alternatives text us) : ∃ u : TypeExpr, u.Plain ∧ u.text = text := by
  cases us with
  | nil => exact absurd rfl h.ne_nil
  | cons first more =>
    cases more with
    | nil => exact ⟨first, h.plain first List.mem_cons_self, h.text_eq⟩
    | cons second more =>
      refine ⟨.union ⟨0, 0⟩ (first :: second :: more), .union h.single h.plain, ?_⟩
      rw [TypeExpr.text, texts_eq_map, h.text_eq]

/-- Brackets behind a text belong to the last alternative. -/
theorem array (h : Alternatives text us) : ∃ vs, Alternatives (text ++ "[]") vs := by
  obtain ⟨init, last, rfl⟩ := (List.eq_nil_or_concat us).resolve_left h.ne_nil
  rw [List.concat_eq_append] at h
  have hlast : last ∈ init ++ [last] := List.mem_append_right _ (List.mem_singleton.mpr rfl)
  refine ⟨init ++ [TypeExpr.array ⟨0, 0⟩ last], by simp, ?_, ?_, ?_⟩
  · refine List.forall_mem_append.mpr ⟨fun u hu => h.single u (List.mem_append_left _ hu), ?_⟩
    simp [isUnion]
  · refine List.forall_mem_append.mpr ⟨fun u hu => h.plain u (List.mem_append_left _ hu), ?_⟩
    simpa using Plain.array (h.single last hlast) (h.plain last hlast)
  · rw [← h.text_eq]
    cases init with
    | nil => simp [TypeExpr.text]
    | cons u init =>
      rw [List.map_append, List.map_append, String.intercalate_append_of_ne_nil (by simp) (by simp),
        String.intercalate_append_of_ne_nil (by simp) (by simp)]
      simp [TypeExpr.text, String.append_assoc]

/-- Alternatives of several texts, one after the other. -/
theorem append {text' : String} {vs : List TypeExpr} (h : Alternatives text us) (h' : Alternatives text' vs) :
    Alternatives (text ++ " | " ++ text') (us ++ vs) where
  ne_nil := by simp [h.ne_nil]
  single := List.forall_mem_append.mpr ⟨h.single, h'.single⟩
  plain := List.forall_mem_append.mpr ⟨h.plain, h'.plain⟩
  text_eq := by
    rw [List.map_append, String.intercalate_append_of_ne_nil (by simp [h.ne_nil]) (by simp [h'.ne_nil]), h.text_eq,
      h'.text_eq]

/-- The text of a union is a text with bars, whatever the members are. -/
theorem union {types : List TypeExpr} (hne : types ≠ []) (h : ∀ t ∈ types, ∃ us, Alternatives t.text us) :
    ∃ us, Alternatives (" | ".intercalate (types.map TypeExpr.text)) us := by
  induction types with
  | nil => exact absurd rfl hne
  | cons t ts ih =>
    obtain ⟨⟨us, hus⟩, hts⟩ := List.forall_mem_cons.mp h
    cases ts with
    | nil => exact ⟨us, by simpa using hus⟩
    | cons t' ts =>
      obtain ⟨vs, hvs⟩ := ih (List.cons_ne_nil _ _) hts
      refine ⟨us ++ vs, ?_⟩
      rw [List.map_cons, List.map_cons, String.intercalate_cons_cons, ← List.map_cons]
      exact hus.append hvs

end Alternatives

/-- Arguments with the texts of plain annotations have the text of plain arguments. -/
theorem exists_plain_args {args : List TypeExpr} (h : ∀ a ∈ args, ∃ u : TypeExpr, u.Plain ∧ u.text = a.text) :
    ∃ us : List TypeExpr, (∀ u ∈ us, u.Plain) ∧ us.map text = args.map text := by
  induction args with
  | nil => exact ⟨[], List.forall_mem_nil _, rfl⟩
  | cons a args ih =>
    obtain ⟨⟨u, hu, htext⟩, hargs⟩ := List.forall_mem_cons.mp h
    obtain ⟨us, hus, htexts⟩ := ih hargs
    exact ⟨u :: us, List.forall_mem_cons.mpr ⟨hu, hus⟩, by rw [List.map_cons, htext, htexts, List.map_cons]⟩

/-- The text of an annotation is made up of alternatives without unions in arrays or unions. -/
theorem Printable.exists_alternatives {t : TypeExpr} (h : t.Printable) (hwords : ∀ i ∈ t.segments, isName i.name = true) :
    ∃ us, Alternatives t.text us := by
  induction h with
  | keyword span word =>
    exact ⟨[.keyword span word], by simp, by simp [isUnion], by simpa using .keyword span word, by simp⟩
  | @named span first more args htype _ ih =>
    rw [segments, segmentsAll_eq_flatMap, List.forall_mem_append] at hwords
    have hargs : ∀ a ∈ args, ∃ u : TypeExpr, u.Plain ∧ u.text = a.text := by
      intro a ha
      obtain ⟨us, hus⟩ := ih a ha fun i hi => hwords.2 i (List.mem_flatMap.mpr ⟨a, ha, hi⟩)
      exact hus.exists_plain
    obtain ⟨us, hus, htexts⟩ := exists_plain_args hargs
    refine ⟨[.named span (first :: more) us], by simp, by simp [isUnion], by simpa using .named htype hwords.1 hus, ?_⟩
    have hempty : us.isEmpty = args.isEmpty := by
      have := congrArg List.isEmpty htexts
      simpa using this
    rw [List.map_singleton, String.intercalate_singleton, TypeExpr.text, TypeExpr.text, texts_eq_map, texts_eq_map, htexts,
      hempty]
  | array _ ih =>
    obtain ⟨us, hus⟩ := ih hwords
    exact hus.array
  | union _ ih =>
    rw [segments, segmentsAll_eq_flatMap] at hwords
    rw [TypeExpr.text, texts_eq_map]
    exact Alternatives.union (List.cons_ne_nil _ _) fun t ht =>
      ih t ht fun i hi => hwords i (List.mem_flatMap.mpr ⟨t, ht, hi⟩)

end TypeExpr

/-! ## Scanning the text -/

/-- The tokens that a right shift could be made of stand together, and those at the ends stand at `start` and `stop`. -/
structure Tight (start : Nat) (ts : List Token) (stop : Nat) : Prop where
  ne_nil : ts ≠ []
  head : ∀ t ∈ ts.head?, t.kind = .mark .gt ∨ t.kind = .mark .ge → t.span.start = start
  last : ∀ t ∈ ts.getLast?, t.kind = .mark .gt → t.span.stop = stop
  chain : ts.IsChain Joins

/-- Tokens that stand together next to others that do are together with them. -/
theorem Tight.append {start mid stop : Nat} {ts us : List Token} (h : Tight start ts mid) (h' : Tight mid us stop) :
    Tight start (ts ++ us) stop where
  ne_nil := by simp [h.ne_nil]
  head t ht := h.head t (by rwa [List.head?_append_of_ne_nil _ h.ne_nil] at ht)
  last t ht := h'.last t (by rwa [List.getLast?_append_of_ne_nil _ h'.ne_nil] at ht)
  chain := by
    refine List.isChain_append.mpr ⟨h.chain, h'.chain, fun a ha b hb hgt hnext => ?_⟩
    rw [h.last a ha hgt, h'.head b hb hnext]

/-- In front of `rest`, the text is scanned as tokens of the kinds `ks`, without faults and line breaks, and the tokens that a
right shift could be made of stand together. -/
def Sets (cs : List Char) (ks : List TokenKind) (rest : List Char) : Prop :=
  ∀ offset, ∃ ts : List Scanned, scanFrom offset (cs ++ rest) = ts ++ scanFrom (offset + Text.utf8Length cs) rest ∧
    ts.map (fun t => t.token.kind) = ks ∧ (∀ t ∈ ts, t.errors = [] ∧ t.token.afterBreak = false) ∧
      Tight offset (ts.map Scanned.token) (offset + Text.utf8Length cs)

namespace Sets

variable {cs ds rest : List Char} {ks ls : List TokenKind}

/-- A token that is no part of a right shift may stand anywhere. -/
theorem single {k : TokenKind} (h : Scans cs [k] rest) (hgt : k ≠ .mark .gt) (hge : k ≠ .mark .ge) : Sets cs [k] rest := by
  intro offset
  obtain ⟨ts, hts, hks, hclean⟩ := h offset
  obtain ⟨t, rfl, rfl⟩ := List.map_eq_singleton_iff.mp hks
  refine ⟨[t], hts, hks, hclean, by simp, ?_, ?_, .singleton _⟩
  · rintro u ⟨⟩ hshift
    exact absurd hshift (not_or.mpr ⟨hgt, hge⟩)
  · rintro u ⟨⟩ hlast
    exact absurd hlast hgt

/-- Texts one after the other are scanned as the tokens of both. -/
theorem append (h : Sets cs ks (ds ++ rest)) (h' : Sets ds ls rest) : Sets (cs ++ ds) (ks ++ ls) rest := by
  intro offset
  obtain ⟨ts, hts, hks, hclean, htight⟩ := h offset
  obtain ⟨us, hus, hls, hclean', htight'⟩ := h' (offset + Text.utf8Length cs)
  rw [Text.utf8Length_append, ← Nat.add_assoc]
  refine ⟨ts ++ us, ?_, by rw [List.map_append, hks, hls], List.forall_mem_append.mpr ⟨hclean, hclean'⟩, ?_⟩
  · rw [List.append_assoc, hts, hus, List.append_assoc]
  · rw [List.map_append]
    exact htight.append htight'

end Sets

/-- A space behind a text is passed over. -/
theorem Token.Scans.thenSpace {cs rest : List Char} {ks : List TokenKind} (h : Scans cs ks (' ' :: rest)) :
    Scans (cs ++ [' ']) ks rest := by
  intro offset
  obtain ⟨ts, hts, hks, hclean⟩ := h offset
  refine ⟨ts, ?_, hks, hclean⟩
  rw [List.append_assoc, List.singleton_append, hts, scanFrom_space, Text.utf8Length_append, ← Nat.add_assoc]
  rfl

/-- What can stand behind an annotation in the text of another one. -/
def Closes (rest : List Char) : Prop := ∀ c ∈ rest.head?, c ∈ [',', '>', '[', ' ']

/-- A comma, a closing angle, a bracket and a blank may stand behind an annotation. -/
theorem closes_cons {c : Char} (h : c ∈ [',', '>', '[', ' ']) (rest : List Char) : Closes (c :: rest) := by
  rintro d ⟨⟩
  exact h

/-- What stands behind an annotation ends its last word. -/
theorem Closes.delimited {rest : List Char} (h : Closes rest) : Delimited rest where
  head c hc := by
    have hmem := h c hc
    simp only [List.mem_cons, List.not_mem_nil, or_false] at hmem
    rcases hmem with rfl | rfl | rfl | rfl <;> decide
  point d cs heq := by
    have hmem := h '.' (by rw [heq]; rfl)
    simp at hmem

/-- A closing bracket is one token, at its place. -/
theorem sets_gt {rest : List Char} (h : Closes rest) : Sets ['>'] [.mark .gt] rest := by
  have hlexeme : ∀ offset, lexeme offset '>' ([] ++ rest) = ⟨.mark .gt, ['>'], rest, []⟩ := by
    intro offset
    cases rest with
    | nil => rfl
    | cons c rest =>
      have hmem := h c rfl
      simp only [List.mem_cons, List.not_mem_nil, or_false] at hmem
      rcases hmem with rfl | rfl | rfl | rfl <;> rfl
  intro offset
  refine ⟨[⟨⟨.mark .gt, ⟨offset, offset + Text.utf8Length ['>']⟩, false⟩, []⟩], ?_, rfl, by simp, ?_⟩
  · exact scanFrom_of_lexeme (by decide) (hlexeme offset)
  · exact ⟨by simp, by simp, by simp, .singleton _⟩

/-- An opening bracket in front of a word is one token. -/
theorem sets_lt {c : Char} (hc : isWordStart c = true) (rest : List Char) : Sets ['<'] [.mark .lt] (c :: rest) := by
  refine .single (.token (by decide) fun offset => ?_) (by decide) (by decide)
  have hne : c ≠ '=' ∧ c ≠ '<' := by
    constructor <;> rintro rfl <;> cases hc
  have hmarks : ∀ m ∈ Mark.longestFirst, m.chars.head? = some '<' → m ∈ [.lt, .le, .shl, .shlEq] := by decide
  have hlongest : Mark.longest? ('<' :: c :: rest) = some .lt := by
    refine Mark.longest?_eq_some rfl fun m hm hhead => ?_
    have heq : ('=' == c) = false := by simpa using hne.1.symm
    have hlt : ('<' == c) = false := by simpa using hne.2.symm
    have hmem := hmarks m hm hhead
    simp only [List.mem_cons, List.not_mem_nil, or_false] at hmem
    rcases hmem with rfl | rfl | rfl | rfl
    · exact .inl rfl
    all_goals
      right
      simp [Mark.starts, Mark.chars, List.isPrefixOf, heq, hlt]
  show Lexeme.mark '<' (c :: rest) = _
  rw [Lexeme.mark, hlongest]
  rfl

/-! ## Scanning names -/

/-- A word is no mark. -/
theorem TokenKind.ofWord_ne_mark (name : String) (mark : Mark) : ofWord name ≠ .mark mark := by
  intro heq
  have hname := memberName?_ofWord name
  rw [heq] at hname
  cases hname

/-- A key that is a name is a word. -/
theorem TokenKind.ofKey_of_isName {name : String} (h : isName name = true) : ofKey name = ofWord name := by
  unfold isName at h
  unfold ofKey
  refine if_pos ?_
  cases hchars : (bareName name).toList with
  | nil =>
    rw [hchars] at h
    cases h
  | cons c cs =>
    rw [hchars, isWord, Bool.and_eq_true] at h
    simp [h.1, h.2, isWordPart_of_isWordStart h.1]

/-- A name does not start with a digit. -/
theorem head_of_isName {name : String} (h : isName name = true) : ∃ c cs, name.toList = c :: cs ∧ c.isDigit = false := by
  unfold isName bareName at h
  cases hchars : name.toList with
  | nil =>
    rw [hchars] at h
    dsimp only at h
    rw [hchars] at h
    cases h
  | cons c cs =>
    refine ⟨c, cs, rfl, ?_⟩
    rw [hchars] at h
    dsimp only at h
    split at h
    · rename_i hc
      rw [hc]
      rfl
    · rw [hchars, isWord, Bool.and_eq_true] at h
      rw [Bool.eq_false_iff]
      intro hdigit
      rw [not_isWordStart_of_isDigit hdigit] at h
      cases h.1

/-- The text starts as a word does. -/
def StartsWord (text : String) : Prop := ∃ c cs, text.toList = c :: cs ∧ isWordStart c = true

/-- A word starts as one. -/
theorem StartsWord.of_isWord {text : String} (h : isWord text.toList = true) : StartsWord text := by
  cases hchars : text.toList with
  | nil =>
    rw [hchars] at h
    cases h
  | cons c cs =>
    rw [hchars, isWord, Bool.and_eq_true] at h
    exact ⟨c, cs, hchars, h.1⟩

/-- The first of several texts stands in front. -/
theorem exists_append_intercalate (sep text : String) (texts : List String) :
    ∃ tail, sep.intercalate (text :: texts) = text ++ tail := by
  cases texts with
  | nil => exact ⟨"", by simp⟩
  | cons text' texts =>
    refine ⟨sep ++ sep.intercalate (text' :: texts), ?_⟩
    rw [String.intercalate_cons_cons, String.append_assoc]

/-- A text that starts as a word does so with more text behind it. -/
theorem StartsWord.append {text : String} (h : StartsWord text) (text' : String) : StartsWord (text ++ text') := by
  obtain ⟨c, cs, hcs, hc⟩ := h
  exact ⟨c, cs ++ text'.toList, by rw [String.toList_append, hcs, List.cons_append], hc⟩

theorem StartsWord.intercalate {text : String} (h : StartsWord text) (sep : String) (texts : List String) :
    StartsWord (sep.intercalate (text :: texts)) := by
  obtain ⟨tail, htail⟩ := exists_append_intercalate sep text texts
  rw [htail]
  exact h.append tail

/-- A dotted name is scanned as its parts and the points between them. -/
theorem sets_dotted {more : List Ident} {rest : List Char} (hrest : Delimited rest) : ∀ {first : Ident},
    (∀ i ∈ first :: more, isName i.name = true) →
      Sets (".".intercalate ((first :: more).map Ident.name)).toList (TokenKind.dotted (first :: more)) rest := by
  induction more with
  | nil =>
    intro first h
    rw [List.map_singleton, String.intercalate_singleton]
    have hname := scans_name (h first List.mem_cons_self) hrest
    exact .single hname (TokenKind.ofWord_ne_mark _ _) (TokenKind.ofWord_ne_mark _ _)
  | cons second more ih =>
    intro first h
    obtain ⟨hfirst, hmore⟩ := List.forall_mem_cons.mp h
    obtain ⟨c, cs, hcs, hc⟩ := head_of_isName (hmore second List.mem_cons_self)
    obtain ⟨tail, htail⟩ := exists_append_intercalate "." second.name (more.map Ident.name)
    have hhead : ((".".intercalate ((second :: more).map Ident.name)).toList ++ rest).head? = some c := by
      rw [List.map_cons, htail, String.toList_append, hcs]
      rfl
    have hkinds : TokenKind.dotted (first :: second :: more) =
        [TokenKind.ofWord first.name] ++ ([TokenKind.mark .dot] ++ TokenKind.dotted (second :: more)) := by
      simp [TokenKind.dotted, TokenKind.ofKey_of_isName (hmore second List.mem_cons_self)]
    rw [List.map_cons, List.map_cons, String.intercalate_cons_cons, ← List.map_cons, String.append_assoc, String.toList_append,
      String.toList_append, hkinds]
    refine Sets.append (.single (scans_name hfirst ?_) (TokenKind.ofWord_ne_mark _ _) (TokenKind.ofWord_ne_mark _ _))
      (Sets.append (.single (scans_dot ?_) (by decide) (by decide)) (ih hmore))
    · refine ⟨by rintro d ⟨⟩; decide, fun d ds heq => ?_⟩
      have hnext := congrArg List.head? (List.cons.inj heq).2
      cases hhead.symm.trans hnext
      exact hc
    · rw [hhead]
      rintro d ⟨⟩
      exact hc

/-! ## Scanning annotations -/

/-- The type keywords are words. -/
theorem TypeKeyword.isWord_spelling (word : TypeKeyword) : isWord word.spelling.toList = true := by
  cases word <;> decide

/-- A type keyword is the token of its spelling. -/
theorem TypeKeyword.ofWord_spelling (word : TypeKeyword) : TokenKind.ofWord word.spelling = word.kind := by
  cases word <;> rfl

namespace TypeExpr

/-- A type name that is no private name is a word. -/
theorem isWord_of_isTypeName {name : String} (htype : isTypeName name = true) (h : isName name = true) :
    isWord name.toList = true := by
  have hpublic : ¬ isPrivateName name = true := by
    intro hprivate
    rw [isTypeName, TokenKind.ofWord, if_pos hprivate] at htype
    cases htype
  unfold isName bareName at h
  split at h
  case h_1 c cs hchars =>
    rwa [if_neg fun hc => hpublic (by simp [isPrivateName, hchars, hc])] at h
  case h_2 => exact h

/-- The text of a plain annotation starts as a word does. -/
theorem Plain.startsWord {t : TypeExpr} (h : t.Plain) : StartsWord t.text := by
  induction h with
  | keyword span word => exact .of_isWord word.isWord_spelling
  | @named span first more args htype hnames _ _ =>
    have hfirst := isWord_of_isTypeName htype (hnames first List.mem_cons_self)
    have hpath := (StartsWord.of_isWord hfirst).intercalate "." (more.map Ident.name)
    rw [text]
    split
    · exact hpath
    · exact ((hpath.append _).append _).append _
  | array _ _ ih => exact ih.append _
  | union _ _ ih =>
    rw [text, texts]
    exact (ih _ List.mem_cons_self).intercalate _ _

/-- Annotations with a separator between them are scanned as their tokens with the separator between them. -/
theorem sets_separated {sep : String} {k : TokenKind} (hsep : ∀ rest, Sets sep.toList [k] rest)
    (hcloses : ∀ rest, Closes (sep.toList ++ rest)) {ts : List TypeExpr} {rest : List Char} (hrest : Closes rest) :
    ∀ {t : TypeExpr}, (∀ u ∈ t :: ts, ∀ rest, Closes rest → Sets u.text.toList u.print rest) →
      Sets (sep.intercalate ((t :: ts).map text)).toList (t.print ++ ts.flatMap fun u => k :: u.print) rest := by
  induction ts with
  | nil =>
    intro t h
    simpa using h t List.mem_cons_self rest hrest
  | cons u ts ih =>
    intro t h
    obtain ⟨ht, hts⟩ := List.forall_mem_cons.mp h
    rw [List.map_cons, List.map_cons, String.intercalate_cons_cons, ← List.map_cons, String.append_assoc,
      String.toList_append, String.toList_append, List.flatMap_cons, List.cons_append, ← List.singleton_append (x := k)]
    refine (ht _ ?_).append ((hsep _).append (ih hts))
    rw [List.append_assoc]
    exact hcloses _

/-- After the first of several token lists a comma stands before each. -/
theorem commas_eq (ks : List TokenKind) (kss : List (List TokenKind)) :
    TokenKind.commas (ks :: kss) = ks ++ kss.flatMap fun ls => .mark .comma :: ls := by
  induction kss generalizing ks with
  | nil => simp [TokenKind.commas]
  | cons ls kss ih =>
    have hstep : TokenKind.commas (ks :: ls :: kss) = ks ++ .mark .comma :: TokenKind.commas (ls :: kss) := rfl
    rw [hstep, ih, List.flatMap_cons, List.cons_append]

/-- A comma and a blank are scanned as a comma. -/
theorem sets_comma (rest : List Char) : Sets ", ".toList [.mark .comma] rest :=
  .single (Scans.thenSpace (scans_bracket (m := .comma) (by decide) (' ' :: rest))) (by decide) (by decide)

/-- A bar between blanks is scanned as a bar. -/
theorem sets_bar (rest : List Char) : Sets " | ".toList [.mark .pipe] rest := by
  have hvisible : ∀ c ∈ (Mark.chars .pipe).head?, isVisible c = true := by
    rintro c ⟨⟩
    decide
  exact .single (Scans.thenSpace (scans_mark_space hvisible rest).space) (by decide) (by decide)

/-- Brackets are scanned as brackets. -/
theorem sets_brackets (rest : List Char) : Sets "[]".toList [.mark .lbracket, .mark .rbracket] rest :=
  .append (.single (scans_bracket (m := .lbracket) (by decide) _) (by decide) (by decide))
    (.single (scans_bracket (m := .rbracket) (by decide) rest) (by decide) (by decide))

/-- The text of a plain annotation is scanned as its tokens. -/
theorem Plain.sets {t : TypeExpr} (h : t.Plain) : ∀ rest, Closes rest → Sets t.text.toList t.print rest := by
  induction h with
  | keyword span word =>
    intro rest hrest
    have hscans := scans_word word.isWord_spelling hrest.delimited
    rw [String.ofList_toList, word.ofWord_spelling] at hscans
    exact .single hscans (by cases word <;> decide) (by cases word <;> decide)
  | @named span first more args htype hnames hargs ih =>
    intro rest hrest
    cases args with
    | nil =>
      rw [text, print]
      exact sets_dotted hrest.delimited hnames
    | cons arg args =>
      obtain ⟨c, cs, hcs, hc⟩ := (hargs arg List.mem_cons_self).startsWord.intercalate ", " (args.map text)
      have htext : (TypeExpr.named span (first :: more) (arg :: args)).text.toList =
          (".".intercalate ((first :: more).map Ident.name)).toList ++
            (['<'] ++ ((", ".intercalate ((arg :: args).map text)).toList ++ ['>'])) := by
        simp [text, texts_eq_map, texts]
      have hprint : (TypeExpr.named span (first :: more) (arg :: args)).print = TokenKind.dotted (first :: more) ++
          ([TokenKind.mark .lt] ++ ((arg.print ++ args.flatMap fun u => TokenKind.mark .comma :: u.print) ++ [TokenKind.mark .gt])) := by
        rw [print, printAll_eq_map, commas_eq, List.flatMap_map]
        rfl
      have hlist : ∀ rest, Sets (", ".intercalate ((arg :: args).map text)).toList
          (arg.print ++ args.flatMap fun u => .mark .comma :: u.print) ('>' :: rest) := fun rest =>
        sets_separated sets_comma (fun _ => closes_cons (by decide) _) (closes_cons (by decide) rest) ih
      rw [htext, hprint]
      refine (sets_dotted (delimited_cons (by decide) (by decide) _) hnames).append
        (Sets.append ?_ ((hlist rest).append (sets_gt hrest)))
      rw [List.map_cons, hcs]
      exact sets_lt hc _
  | @array span elem hunion _ ih =>
    intro rest hrest
    rw [text, print, String.toList_append, enclose, if_neg (by simp [hunion])]
    exact (ih _ (closes_cons (by decide) _)).append (sets_brackets rest)
  | @union span first second more hunion _ ih =>
    intro rest hrest
    have hprint : (TypeExpr.union span (first :: second :: more)).print =
        first.print ++ (second :: more).flatMap fun u => .mark .pipe :: u.print := by
      have hoperand : ∀ u ∈ first :: second :: more, u.operand = u.print := fun u hu => by
        simp [operand, enclose, hunion u hu]
      obtain ⟨hfirst, hmore⟩ := List.forall_mem_cons.mp hoperand
      rw [print, printMembers_eq_flatMap, ← operand, hfirst]
      exact congrArg _ (List.flatMap_congr fun u hu => by rw [hmore u hu])
    rw [text, texts_eq_map, hprint]
    exact sets_separated sets_bar (fun rest => closes_cons (by decide) _) hrest ih

/-! ## Annotations without their spans -/

/-- An annotation without its spans is a union if it was one. -/
theorem isUnion_erase (t : TypeExpr) : t.erase.isUnion = t.isUnion := by
  cases t <;> rfl

mutual

/-- Spans are no part of the text. -/
theorem text_erase (t : TypeExpr) : t.erase.text = t.text := by
  cases t with
  | keyword span word => rfl
  | named span path args =>
    have hnames : (path.map Ident.erase).map Ident.name = path.map Ident.name := by simp [Ident.erase]
    have hempty : (eraseAll args).isEmpty = args.isEmpty := by cases args <;> rfl
    rw [erase, text, text, hnames, hempty, texts_eraseAll args]
  | array span elem => rw [erase, text, text, text_erase elem]
  | union span types => rw [erase, text, text, texts_eraseAll types]

/-- So have several annotations. -/
theorem texts_eraseAll (ts : List TypeExpr) : texts (eraseAll ts) = texts ts := by
  cases ts with
  | nil => rfl
  | cons t ts => rw [eraseAll, texts, texts, text_erase t, texts_eraseAll ts]

end

/-- What holds of annotations up to spans holds of those that are the same up to spans. -/
theorem forall_of_erase_eq {P : TypeExpr → Prop} {ts us : List TypeExpr} (heq : eraseAll us = eraseAll ts)
    (h : ∀ t ∈ ts, ∀ u : TypeExpr, u.erase = t.erase → P u) : ∀ u ∈ us, P u := by
  intro u hu
  rw [eraseAll_eq_map, eraseAll_eq_map] at heq
  have hmem : u.erase ∈ ts.map erase := heq ▸ List.mem_map_of_mem hu
  obtain ⟨t, ht, hte⟩ := List.mem_map.mp hmem
  exact h t ht u hte.symm

/-- Whether unions stand in arrays or unions does not depend on spans. -/
theorem Flat.of_erase_eq {t : TypeExpr} (h : t.Flat) : ∀ {u : TypeExpr}, u.erase = t.erase → u.Flat := by
  induction h with
  | keyword span word =>
    intro u heq
    cases u with
    | keyword span' word' => exact .keyword span' word'
    | _ => cases heq
  | named _ ih =>
    intro u heq
    cases u with
    | named span' path' args' =>
      injection heq with _ _ hargs
      exact .named (forall_of_erase_eq hargs fun a ha b hb => ih a ha hb)
    | _ => cases heq
  | @array span elem hunion _ ih =>
    intro u heq
    cases u with
    | array span' elem' =>
      injection heq with _ helem
      exact .array (by rw [← isUnion_erase, helem, isUnion_erase, hunion]) (ih helem)
    | _ => cases heq
  | union hunion _ ih =>
    intro u heq
    cases u with
    | union span' types' =>
      injection heq with _ htypes
      refine .union (forall_of_erase_eq htypes fun t ht u hu => ?_) (forall_of_erase_eq htypes fun t ht u hu => ih t ht hu)
      rw [← isUnion_erase, hu, isUnion_erase, hunion t ht]
    | _ => cases heq

/-! ## Reading the text back -/

/-- The text of a plain annotation is scanned without faults and read back to its end. -/
theorem Plain.reads_back {t : TypeExpr} (h : t.Plain) : (∀ x ∈ scan t.text, x.errors = []) ∧
    ∃ (ts : List Token) (last : Token) (t' : TypeExpr), tokensOf t.text = ts ++ [last] ∧ last.kind = .endOfInput ∧
      typeExpr ⟨Cursor.start (tokensOf t.text), [], []⟩ = .ok t' ⟨⟨ts.reverse, last, []⟩, [], []⟩ ∧ t'.erase = t.erase := by
  have hcloses : Closes [] := by simp [Closes]
  obtain ⟨ts, hts, hkinds, hclean, htight⟩ := h.sets [] hcloses 0
  rw [List.append_nil, scanFrom_nil] at hts
  obtain ⟨last, hlast, hscan⟩ : ∃ last : Token, last.kind = .endOfInput ∧ scan t.text = ts ++ [Scanned.mk last []] :=
    ⟨⟨.endOfInput, _, false⟩, rfl, hts⟩
  have htokens : tokensOf t.text = ts.map Scanned.token ++ [last] := by
    rw [tokensOf, hscan, List.map_append, List.map_singleton]
  have hlaid : LaidOut (ts.map Scanned.token) t.print := by
    refine ⟨by rw [List.map_map]; exact hkinds, fun x hx => ?_, htight.chain⟩
    obtain ⟨scanned, hscanned, rfl⟩ := List.mem_map.mp (List.mem_of_mem_tail hx)
    exact (hclean scanned hscanned).2
  have hmoved : Moved ⟨Cursor.start (tokensOf t.text), [], []⟩ (ts.map Scanned.token)
      ⟨⟨(ts.map Scanned.token).reverse, last, []⟩, [], []⟩ := by
    rw [htokens]
    refine ⟨?_, ?_, rfl, rfl⟩
    · cases ts <;> simp [Cursor.start]
    · cases ts <;> simp [Cursor.start]
  have hstops : last.kind.StopsType := by
    rw [hlast]
    decide
  obtain ⟨t', hrun, herase⟩ := h.printable.retraces hstops _ ⟨_, hmoved, hlaid⟩ (Nat.lt_succ_self _)
  refine ⟨?_, ts.map Scanned.token, last, t', htokens, hlast, hrun, herase⟩
  rw [hscan, List.forall_mem_append]
  exact ⟨fun x hx => (hclean x hx).1, by simp⟩

end TypeExpr

/-- Every annotation read from a source text whose names are words has a text that is scanned without faults and read to its
end without errors, as an annotation of the same text without unions in arrays or unions. What is read is the annotation
itself, up to spans, exactly if it has no such unions. -/
theorem annotation_text_reads_back {source : String} {s s' : ParserState} {t : TypeExpr} (hs : s.On (tokensOf source))
    (h : typeExpr s = .ok t s') (hwords : ∀ i ∈ t.segments, isName i.name = true) :
    (∀ x ∈ scan t.text, x.errors = []) ∧ ∃ ts last t', tokensOf t.text = ts ++ [last] ∧ last.kind = .endOfInput ∧
      typeExpr ⟨Cursor.start (tokensOf t.text), [], []⟩ = .ok t' ⟨⟨ts.reverse, last, []⟩, [], []⟩ ∧
        t'.text = t.text ∧ t'.Flat ∧ (t'.erase = t.erase ↔ t.Flat) := by
  have hprintable : t.Printable := printable_typeExpr hs h
  obtain ⟨us, hus⟩ := hprintable.exists_alternatives hwords
  obtain ⟨u, hu, htext⟩ := hus.exists_plain
  obtain ⟨hclean, ts, last, t', htokens, hlast, hrun, herase⟩ := hu.reads_back
  have hflat : t'.Flat := hu.flat.of_erase_eq herase
  have htext' : t'.text = t.text := by rw [← TypeExpr.text_erase, herase, TypeExpr.text_erase, htext]
  rw [htext] at hclean htokens hrun
  refine ⟨hclean, ts, last, t', htokens, hlast, hrun, htext', hflat, fun heq => hflat.of_erase_eq heq.symm, fun ht => ?_⟩
  -- The text is read in one way, so what is read is also the annotation itself if that is plain.
  obtain ⟨-, ts', last', t'', -, -, hrun', herase'⟩ := (hprintable.plain ht hwords).reads_back
  rw [hrun] at hrun'
  rw [(EStateM.Result.ok.inj hrun').1, herase']

/-- What the parser reads from the start of a text, with the errors recorded by then. -/
def Parser.readStart {α : Type} (p : Parser α) (text : String) : Option (α × List ParseError) :=
  match p ⟨Cursor.start (tokensOf text), [], []⟩ with
  | .ok a s => some (a, s.errors)
  | .error .. => none

/-- What is read from the start of a text is what a run of the parser gives. -/
theorem Parser.exists_of_readStart {α : Type} {p : Parser α} {text : String} {a : α} {errors : List ParseError}
    (h : readStart p text = some (a, errors)) :
    ∃ s, p ⟨Cursor.start (tokensOf text), [], []⟩ = .ok a s ∧ s.errors = errors := by
  unfold readStart at h
  split at h
  · rename_i s hrun
    cases h
    exact ⟨s, hrun, rfl⟩
  · cases h

/-- The annotation `A<B<C>> | any`. -/
def nestedArguments : TypeExpr :=
  .union ⟨0, 13⟩
    [.named ⟨0, 7⟩ [⟨"A", ⟨0, 1⟩⟩] [.named ⟨2, 6⟩ [⟨"B", ⟨2, 3⟩⟩] [.named ⟨4, 5⟩ [⟨"C", ⟨4, 5⟩⟩] []]], .keyword ⟨10, 13⟩ .any]

/-- A union at the top is read back, and the two brackets in a row are not taken for a shift. -/
theorem nestedArguments_read_back :
    (∃ s', typeExpr ⟨Cursor.start (tokensOf "A<B<C>> | any"), [], []⟩ = .ok nestedArguments s') ∧
      (∀ x ∈ scan nestedArguments.text, x.errors = []) ∧ ∃ ts last t', tokensOf nestedArguments.text = ts ++ [last] ∧
        last.kind = .endOfInput ∧ typeExpr ⟨Cursor.start (tokensOf nestedArguments.text), [], []⟩ =
          .ok t' ⟨⟨ts.reverse, last, []⟩, [], []⟩ ∧ t'.erase = nestedArguments.erase := by
  have hrun : readStart typeExpr "A<B<C>> | any" = some (nestedArguments, []) := by decide +kernel
  obtain ⟨s', hs', -⟩ := exists_of_readStart hrun
  have hflat : nestedArguments.Flat := by
    have hinner : TypeExpr.Flat (.named ⟨4, 5⟩ [⟨"C", ⟨4, 5⟩⟩] []) := .named (by simp)
    refine .union (by simp [TypeExpr.isUnion]) (List.forall_mem_cons.mpr ⟨?_, by simpa using .keyword _ _⟩)
    exact .named (by simpa using .named (by simpa using hinner))
  obtain ⟨hclean, ts, last, t', hts, hlast, hread, -, -, hsame⟩ := annotation_text_reads_back on_start hs' (by decide)
  exact ⟨⟨s', hs'⟩, hclean, ts, last, t', hts, hlast, hread, hsame.mpr hflat⟩

/-- The annotation `(number | string)[]`. -/
def groupedUnion : TypeExpr := .array ⟨0, 19⟩ (.union ⟨1, 16⟩ [.keyword ⟨1, 7⟩ .number, .keyword ⟨10, 16⟩ .string])

/-- The annotation `number | string[]`. -/
def barredArray : TypeExpr := .union ⟨0, 17⟩ [.keyword ⟨0, 6⟩ .number, .array ⟨9, 17⟩ (.keyword ⟨9, 15⟩ .string)]

/-- The text of an array of a union is that of a union with an array, and is read as such. -/
theorem groupedUnion_read_as_barredArray :
    (∃ s, typeExpr ⟨Cursor.start (tokensOf "(number | string)[]"), [], []⟩ = .ok groupedUnion s ∧ s.errors = []) ∧
      groupedUnion.segments = [] ∧
        (∃ s, typeExpr ⟨Cursor.start (tokensOf groupedUnion.text), [], []⟩ = .ok barredArray s) ∧
          barredArray.erase ≠ groupedUnion.erase := by
  have hsource : readStart typeExpr "(number | string)[]" = some (groupedUnion, []) := by decide +kernel
  have htext : readStart typeExpr groupedUnion.text = some (barredArray, []) := by decide +kernel
  obtain ⟨s, hs, -⟩ := exists_of_readStart htext
  refine ⟨exists_of_readStart hsource, rfl, ⟨s, hs⟩, fun heq => ?_⟩
  cases heq

end ContractCompiler
