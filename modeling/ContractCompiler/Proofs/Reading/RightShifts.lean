import ContractCompiler.Proofs.Printing.Spelled
import ContractCompiler.Proofs.Reading.Held
import ContractCompiler.Proofs.Token.Rescan
import ContractCompiler.Proofs.Token.Tiling
import Mathlib.Data.List.Infix

/-!
# Right shifts

The scanner takes `>` and `>=` for tokens and leaves the longer operators that start with `>` to be put together from tokens
with nothing between them. What comes out is what a scanner would take that knew these operators: the longest one that the
text starts with.
-/

namespace ContractCompiler

open Text

/-! ## The longest operator -/

namespace BinaryOp

/-- The operators that start with `>`. -/
def greater : List BinaryOp := [.gt, .ge, .shr, .shrAssign, .ushr, .ushrAssign]

/-- Of the operators that start with `>`, this is the longest that the text starts with. -/
structure IsLongest (op : BinaryOp) (text : List Char) : Prop where
  mem : op ∈ greater
  starts : op.spelling.toList <+: text
  longest : ∀ other ∈ greater, other ≠ op → other.spelling.toList <+: text → other.spelling.length < op.spelling.length

/-- The characters with which another one of these operators goes on. -/
def continuations : BinaryOp → List Char
  | .gt | .shr => ['>', '=']
  | .ushr => ['=']
  | _ => []

/-- Of two of these operators, one is shorter, or goes on where the other ends, or does not start as the other does. -/
theorem greater_cases : ∀ op ∈ greater, ∀ other ∈ greater, other ≠ op →
    other.spelling.length < op.spelling.length ∨
    (other.spelling.toList.drop op.spelling.length).head?.any op.continuations.contains = true ∨
    ¬ other.spelling.toList.take op.spelling.length <+: op.spelling.toList := by
  decide

/-- An operator is the longest one if the text behind it goes on with no other. -/
theorem isLongest_append {op : BinaryOp} {rest : List Char} (hop : op ∈ greater)
    (hrest : ∀ ch ∈ op.continuations, rest.head? ≠ some ch) : op.IsLongest (op.spelling.toList ++ rest) := by
  refine ⟨hop, List.prefix_append _ _, fun other hother hne hstarts => ?_⟩
  have hlength : op.spelling.length = op.spelling.toList.length := String.length_toList.symm
  rcases greater_cases op hop other hother hne with hlt | hgoes | hparts
  · exact hlt
  · obtain ⟨ch, hnext, hch⟩ := (Option.any_eq_true _ _).mp hgoes
    have hdrop := hstarts.drop op.spelling.length
    rw [hlength, List.drop_left, ← hlength] at hdrop
    obtain ⟨more, hmore⟩ := hdrop
    refine absurd ?_ (hrest ch (List.contains_iff_mem.mp hch))
    rw [← hmore, List.head?_append, hnext, Option.some_or]
  · have htake := hstarts.take op.spelling.length
    rw [hlength, List.take_left, ← hlength] at htake
    exact absurd htake hparts

end BinaryOp

/-! ## The tokens of a text from a place on -/

namespace Token

/-- A token is the one that starts at its place in the text, and the tokens after it are those of the text behind it. -/
theorem exists_lexeme_of_split (offset : Nat) (cs : List Char) (us : List Token) {vs : List Token} {t : Token}
    (hsplit : (scanFrom offset cs).map Scanned.token = us ++ t :: vs) (hkind : t.kind ≠ .endOfInput) :
    ∃ front c rest, cs = front ++ c :: rest ∧ t.span.start = offset + utf8Length front ∧
      t.kind = (lexeme t.span.start c rest).kind ∧
      t.span.stop = t.span.start + utf8Length (lexeme t.span.start c rest).text ∧
      vs = (scanFrom t.span.stop (lexeme t.span.start c rest).rest).map Scanned.token := by
  fun_induction scanFrom offset cs generalizing us with
  | case1 offset cs gap start h =>
    cases us with
    | nil =>
      cases hsplit
      exact absurd rfl hkind
    | cons u us => simp at hsplit
  | case2 offset cs gap start c rest h l stop ih =>
    have hcs : cs = gap ++ c :: rest := by rw [← h, trivia_append]
    cases us with
    | nil =>
      cases hsplit
      exact ⟨gap, c, rest, hcs, rfl, rfl, rfl, rfl⟩
    | cons u us =>
      obtain ⟨-, htail⟩ := List.cons.inj hsplit
      obtain ⟨front, c', rest', hl, hstart, hlexeme⟩ := ih us htail
      refine ⟨gap ++ l.text ++ front, c', rest', ?_, ?_, hlexeme⟩
      · rw [hcs, ← lexeme_append start c rest, List.append_assoc, List.append_assoc, ← hl]
      · rw [hstart]
        simp only [utf8Length_append, stop, start, Nat.add_assoc]

/-- What the tokens of a text start with: a token `>=` or `>` if the text starts so, and otherwise none of these, at least
not at the very start. -/
inductive Opening (offset : Nat) : List Char → List Token → Prop where
  | ge (rest : List Char) :
      Opening offset ('>' :: '=' :: rest)
        (⟨.mark .ge, ⟨offset, offset + 2⟩, false⟩ :: (scanFrom (offset + 2) rest).map Scanned.token)
  | gt {rest : List Char} : rest.head? ≠ some '=' →
      Opening offset ('>' :: rest)
        (⟨.mark .gt, ⟨offset, offset + 1⟩, false⟩ :: (scanFrom (offset + 1) rest).map Scanned.token)
  | other {cs : List Char} {t : Token} {ts : List Token} : cs.head? ≠ some '>' →
      (t.span.start = offset → t.kind ≠ .mark .gt ∧ t.kind ≠ .mark .ge) → Opening offset cs (t :: ts)

/-- Where `=` follows `>` the token is both. -/
theorem lexeme_ge (offset : Nat) (cs : List Char) : lexeme offset '>' ('=' :: cs) = ⟨.mark .ge, ['>', '='], cs, []⟩ := rfl

theorem lexeme_gt (offset : Nat) {cs : List Char} (h : cs.head? ≠ some '=') :
    lexeme offset '>' cs = ⟨.mark .gt, ['>'], cs, []⟩ := by
  cases cs with
  | nil => rfl
  | cons c cs =>
    have hc : ('=' == c) = false := beq_false_of_ne fun heq => h (congrArg some heq.symm)
    have hge : Mark.ge.starts ('>' :: c :: cs) = false := by simp [Mark.starts, Mark.chars, List.isPrefixOf, hc]
    have hmarks : ∀ m ∈ Mark.longestFirst, m.chars.head? = some '>' → m = .gt ∨ m = .ge := by decide
    have hlongest : Mark.longest? ('>' :: c :: cs) = some .gt := by
      refine Mark.longest?_eq_some rfl fun m hm hhead => ?_
      rcases hmarks m hm hhead with rfl | rfl
      · exact .inl rfl
      · exact .inr hge
    show Lexeme.mark '>' (c :: cs) = _
    rw [Lexeme.mark, hlongest]
    rfl

/-- A token that is a mark is spelled as the mark is. -/
theorem eq_of_lexeme_kind {offset : Nat} {c : Char} {cs : List Char} {m : Mark} (h : (lexeme offset c cs).kind = .mark m) :
    ∃ rest, c :: cs = m.chars ++ rest ∧ (lexeme offset c cs).text = m.chars ∧ (lexeme offset c cs).rest = rest := by
  have hspelled := spelled_lexeme offset c cs
  rw [Lexeme.Spelled, h] at hspelled
  refine ⟨_, ?_, hspelled.1, rfl⟩
  rw [← hspelled.1, lexeme_append]

/-- The tokens of every text start in one of these ways. -/
theorem opening_scanFrom (offset : Nat) (cs : List Char) : Opening offset cs ((scanFrom offset cs).map Scanned.token) := by
  by_cases hgt : cs.head? = some '>'
  · obtain ⟨rest, rfl⟩ := List.head?_eq_some_iff.mp hgt
    rw [scanFrom_eq, trivia_of_isVisible (by decide)]
    by_cases heq : rest.head? = some '='
    · obtain ⟨rest, rfl⟩ := List.head?_eq_some_iff.mp heq
      exact .ge rest
    · dsimp only
      rw [lexeme_gt _ heq]
      exact .gt heq
  · have happend := trivia_append .blank cs
    rw [scanFrom_eq]
    cases hrest : (trivia .blank cs).2 with
    | nil => exact .other hgt fun _ => ⟨by simp, by simp⟩
    | cons c rest =>
      rw [hrest] at happend
      refine .other hgt fun hstart => ?_
      -- a token at the very start has no blanks before it
      have hgap : (trivia .blank cs).1 = [] := by
        by_contra hne
        have hpos := utf8Length_pos hne
        have hstart : offset + utf8Length (trivia .blank cs).1 = offset := hstart
        omega
      have hfirst : ∀ m : Mark, m.chars.head? = some '>' →
          (lexeme (offset + utf8Length (trivia .blank cs).1) c rest).kind ≠ .mark m := by
        intro m hm hkind
        obtain ⟨more, hmore, -⟩ := eq_of_lexeme_kind hkind
        refine hgt ?_
        rw [← happend, hgap, List.nil_append, hmore, List.head?_append, hm, Option.some_or]
      exact ⟨hfirst .gt rfl, hfirst .ge rfl⟩

/-- The tokens stand side by side from one place to another. -/
def Covers : List Token → Nat → Nat → Prop
  | [], start, stop => start = stop
  | t :: ts, start, stop => t.span.start = start ∧ Covers ts t.span.stop stop

end Token

/-! ## Operators at the cursor -/

namespace Cursor

/-- The tokens at the cursor spell the operator, with nothing between them, and are put together to it. -/
structure Holds (c : Cursor) (op : BinaryOp) : Prop where
  shift : c.rightShift? = if op.kinds.length = 1 then none else some (op, op.kinds.length)
  kinds : ((c.here :: c.ahead).take op.kinds.length).map Token.kind = op.kinds
  covers : Token.Covers ((c.here :: c.ahead).take op.kinds.length) c.here.span.start
    (c.here.span.start + op.spelling.utf8ByteSize)

/-- An operator of one token is the token at the cursor. -/
theorem Holds.here {c : Cursor} {op : BinaryOp} (h : c.Holds op) (l : TokenKind) (hl : op.kinds = [l]) : c.here.kind = l := by
  have hkinds := h.kinds
  rw [hl] at hkinds
  exact (List.cons.inj hkinds).1

/-- At a token `>`, the tokens that are put together are those of the longest operator in the text. -/
theorem holds_of_gt {c : Cursor} {rest : List Char} (hkind : c.here.kind = .mark .gt)
    (hstop : c.here.span.stop = c.here.span.start + 1) (hrest : rest.head? ≠ some '=')
    (hahead : c.ahead = (Token.scanFrom c.here.span.stop rest).map Token.Scanned.token) :
    ∃ op, op.IsLongest ('>' :: rest) ∧ c.Holds op := by
  obtain ⟨behind, ⟨kind, ⟨start, stop⟩, afterBreak⟩, ahead⟩ := c
  dsimp only at hkind hstop hahead
  subst hkind hstop
  have hopening := Token.opening_scanFrom (start + 1) rest
  rw [← hahead] at hopening
  clear hahead
  -- the operator is as long as there are tokens `>` and `>=` with nothing between them, up to three
  cases hopening with
  | ge rest =>
    have hlongest : BinaryOp.shrAssign.IsLongest ('>' :: '>' :: '=' :: rest) :=
      BinaryOp.isLongest_append (by decide) (by simp [BinaryOp.continuations])
    refine ⟨.shrAssign, hlongest, ?_, rfl, rfl, rfl, rfl⟩
    simp [rightShift?, joined, tokenAt, kindAt, BinaryOp.kinds]
  | @other cs t ts hgt hnext =>
    have hlongest : BinaryOp.gt.IsLongest ('>' :: rest) :=
      BinaryOp.isLongest_append (by decide) (by simp [BinaryOp.continuations, hgt, hrest])
    refine ⟨.gt, hlongest, ?_, rfl, rfl, rfl⟩
    by_cases hjoined : t.span.start = start + 1
    · obtain ⟨hgt, hge⟩ := hnext hjoined
      simp [rightShift?, joined, tokenAt, kindAt, BinaryOp.kinds]
    · simp [rightShift?, joined, tokenAt, BinaryOp.kinds, Ne.symm hjoined]
  | @gt rest hrest' =>
    have hopening := Token.opening_scanFrom (start + 2) rest
    generalize (Token.scanFrom (start + 2) rest).map Token.Scanned.token = later at hopening
    cases hopening with
    | ge rest =>
      have hlongest : BinaryOp.ushrAssign.IsLongest ('>' :: '>' :: '>' :: '=' :: rest) :=
        BinaryOp.isLongest_append (by decide) (by simp [BinaryOp.continuations])
      refine ⟨.ushrAssign, hlongest, ?_, rfl, rfl, rfl, rfl, rfl⟩
      simp [rightShift?, joined, tokenAt, kindAt, BinaryOp.kinds]
    | @gt rest hlast =>
      have hlongest : BinaryOp.ushr.IsLongest ('>' :: '>' :: '>' :: rest) :=
        BinaryOp.isLongest_append (by decide) (by simp [BinaryOp.continuations, hlast])
      refine ⟨.ushr, hlongest, ?_, rfl, rfl, rfl, rfl, rfl⟩
      simp [rightShift?, joined, tokenAt, kindAt, BinaryOp.kinds]
    | @other cs t ts hgt hnext =>
      have hlongest : BinaryOp.shr.IsLongest ('>' :: '>' :: rest) :=
        BinaryOp.isLongest_append (by decide) (by simp [BinaryOp.continuations, hgt, hrest'])
      refine ⟨.shr, hlongest, ?_, rfl, rfl, rfl, rfl⟩
      by_cases hjoined : t.span.start = start + 2
      · obtain ⟨hgt, hge⟩ := hnext hjoined
        simp [rightShift?, joined, tokenAt, kindAt, BinaryOp.kinds]
      · simp [rightShift?, joined, tokenAt, kindAt, BinaryOp.kinds, Ne.symm hjoined]

/-- A token `>=` is an operator by itself. -/
theorem holds_of_ge {c : Cursor} (hkind : c.here.kind = .mark .ge) (hstop : c.here.span.stop = c.here.span.start + 2) :
    c.Holds .ge := by
  refine ⟨?_, congrArg (fun k => [k]) hkind, rfl, hstop⟩
  rw [rightShift?_of_ne (by simp [hkind])]
  rfl

end Cursor

/-- The operator that is put together at a token `>` or `>=` of a source text is the longest that the text starts with there.
In its own tier it is what the parser reads, or it is the assignment it reads; in every other tier nothing is read, and no
assignment if it is none. The tokens that are counted for it are its own, with nothing between them, and they end where its
text ends. -/
theorem right_shift_longest_match (source : String) {c : Cursor} (hc : c.tokens = tokensOf source)
    (hkind : c.here.kind = .mark .gt ∨ c.here.kind = .mark .ge) :
    ∃ front text op, source.toList = front ++ text ∧ utf8Length front = c.here.span.start ∧ op.IsLongest text ∧
      (∀ tier, c.binaryOp? tier = if op.tier? = some tier then some (op, op.kinds.length) else none) ∧
      c.assignOp? = (if op.isAssignment then some (op, op.kinds.length) else none) ∧
      ((c.here :: c.ahead).take op.kinds.length).map Token.kind = op.kinds ∧
      Token.Covers ((c.here :: c.ahead).take op.kinds.length) c.here.span.start
        (c.here.span.start + op.spelling.utf8ByteSize) := by
  have hne : c.here.kind ≠ .endOfInput := by
    rcases hkind with h | h <;> simp [h]
  obtain ⟨front, ch, rest, hsource, hstart, hlexeme, hstop, hahead⟩ :=
    Token.exists_lexeme_of_split 0 source.toList c.behind.reverse hc.symm hne
  rw [Nat.zero_add] at hstart
  have hholds : ∃ op, op.IsLongest (ch :: rest) ∧ c.Holds op := by
    rcases hkind with hgt | hge
    · obtain ⟨more, hmore, htext, hrest⟩ := Token.eq_of_lexeme_kind (hlexeme.symm.trans hgt)
      rw [htext] at hstop
      rw [hrest] at hahead
      obtain ⟨rfl, rfl⟩ := List.cons.inj hmore
      refine Cursor.holds_of_gt hgt hstop (fun heq => ?_) hahead
      obtain ⟨tail, rfl⟩ := List.head?_eq_some_iff.mp heq
      rw [hgt, Token.lexeme_ge] at hlexeme
      cases hlexeme
    · obtain ⟨more, hmore, htext, -⟩ := Token.eq_of_lexeme_kind (hlexeme.symm.trans hge)
      rw [htext] at hstop
      rw [hmore]
      exact ⟨.ge, BinaryOp.isLongest_append (by decide) (by simp [BinaryOp.continuations]), Cursor.holds_of_ge hge hstop⟩
  obtain ⟨op, hlongest, hop⟩ := hholds
  refine ⟨front, ch :: rest, op, hsource, hstart.symm, hlongest, ?_, ?_, hop.kinds, hop.covers⟩
  · exact Cursor.binaryOp?_of_rightShift? hop.shift hop.here
  · exact Cursor.assignOp?_of_rightShift? hop.shift hop.here

/-- Four times `>` and then `=`, which is an unsigned shift in front of `>=`. -/
def shiftsSource : String := "'é'>>>>=c"

/-- The cursor at the first `>` of `shiftsSource`. -/
def shiftsCursor : Cursor :=
  ⟨[⟨.string "é", ⟨0, 4⟩, false⟩], ⟨.mark .gt, ⟨4, 5⟩, false⟩,
    [⟨.mark .gt, ⟨5, 6⟩, false⟩, ⟨.mark .gt, ⟨6, 7⟩, false⟩, ⟨.mark .ge, ⟨7, 9⟩, false⟩, ⟨.ident "c", ⟨9, 10⟩, false⟩,
      ⟨.endOfInput, ⟨10, 10⟩, false⟩]⟩

/-- At the cursor of `shiftsSource` the longest operator is the unsigned shift, and nothing else is read there. -/
theorem shiftsCursor_longest_match :
    shiftsCursor.tokens = tokensOf shiftsSource ∧
      shiftsCursor.binaryOp? .shift = some (.ushr, 3) ∧ shiftsCursor.binaryOp? .relational = none ∧
      shiftsCursor.assignOp? = none ∧
      ∃ front text, shiftsSource.toList = front ++ text ∧ utf8Length front = 4 ∧ BinaryOp.ushr.IsLongest text := by
  have htokens : shiftsCursor.tokens = tokensOf shiftsSource := by decide +kernel
  have hshift : shiftsCursor.binaryOp? .shift = some (.ushr, 3) := by decide
  obtain ⟨front, text, op, hsource, hfront, hlongest, hbinary, hassign, -⟩ :=
    right_shift_longest_match shiftsSource htokens (.inl rfl)
  have hop : op = .ushr := by
    rw [hbinary .shift] at hshift
    split at hshift
    · cases hshift
      rfl
    · cases hshift
  subst hop
  exact ⟨htokens, hbinary .shift, hbinary .relational, hassign, front, text, hsource, hfront, hlongest⟩

end ContractCompiler
