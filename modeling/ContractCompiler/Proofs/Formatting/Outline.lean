import ContractCompiler.Proofs.Formatting.Moving
import ContractCompiler.Proofs.Token.Order

/-!
# Outlines of token lists

The outline of a list of tokens says all about it but where the tokens stand: their kinds, the line breaks in front of them,
and which `>` touch a `>` or `>=` behind them. `spread` lays an outline out again, with every token one byte wide. The tokens
of a source text are the spread of their outline, moved; so two texts with one outline are two ways to move the same tokens.
-/

namespace ContractCompiler

namespace Token

/-- What a token is apart from its place: its kind, whether a line break precedes it, and whether it is a `>` that touches
the `>` or `>=` behind it. -/
structure Outline where
  kind : TokenKind
  afterBreak : Bool
  touches : Bool
deriving DecidableEq

/-- Whether `t` is a `>` that ends where `u`, a `>` or `>=`, starts. -/
def touches (t u : Token) : Bool :=
  t.kind = .mark .gt && (u.kind = .mark .gt || u.kind = .mark .ge) && t.span.stop = u.span.start

/-- The outline of a token in front of others. -/
def outlineBefore (t : Token) (ts : List Token) : Outline := ⟨t.kind, t.afterBreak, ts.head?.any t.touches⟩

/-- The outlines of the tokens in their order. -/
def outline : List Token → List Outline
  | [] => []
  | t :: ts => t.outlineBefore ts :: outline ts

/-- Where the token behind one of a byte starts: a byte parts them if they do not touch. -/
def Outline.next (o : Outline) (start : Nat) : Nat := if o.touches then start + 1 else start + 2

/-- Tokens of one byte with the given outlines, from a place on. -/
def spread : Nat → List Outline → List Token
  | _, [] => []
  | start, o :: os => ⟨o.kind, ⟨start, start + 1⟩, o.afterBreak⟩ :: spread (o.next start) os

/-- The token behind another one starts after it. -/
theorem Outline.lt_next (o : Outline) (start : Nat) : start < o.next start := by
  unfold next
  split
  · exact Nat.lt_succ_self _
  · exact Nat.lt_succ_of_lt (Nat.lt_succ_self _)

variable {start offset : Nat} {ts : List Token}

/-- Nothing stands before the place from which tokens are spread. -/
theorem le_start_of_mem_spread {os : List Outline} {t : Token} (h : t ∈ spread start os) :
    start ≤ t.span.start ∧ start ≤ t.span.stop := by
  induction os generalizing start with
  | nil => cases h
  | cons o os ih =>
    rcases List.mem_cons.mp h with rfl | h
    · exact ⟨Nat.le_refl _, Nat.le_succ _⟩
    · have hnext := Nat.le_of_lt (o.lt_next start)
      exact ⟨Nat.le_trans hnext (ih h).1, Nat.le_trans hnext (ih h).2⟩

/-- A map on places that sends `start` to `t.span.start`, the places from there up to `next` to `t.span.stop`, and the
places from `next` on as another map does. -/
def placeBefore (t : Token) (start next : Nat) (place : Nat → Nat) (x : Nat) : Nat :=
  if x ≤ start then t.span.start else if x < next then t.span.stop else place x

/-- No place is put before the token. -/
theorem le_placeBefore {t : Token} {next : Nat} {place : Nat → Nat} (ht : t.span.start ≤ t.span.stop)
    (hle : ∀ x, t.span.stop ≤ place x) (x : Nat) : t.span.start ≤ placeBefore t start next place x := by
  have := hle x
  unfold placeBefore
  repeat' split
  all_goals omega

/-- The map keeps the order of places if the other one does. -/
theorem placeBefore_mono {t : Token} {next : Nat} {place : Nat → Nat} (ht : t.span.start ≤ t.span.stop)
    (hle : ∀ x, t.span.stop ≤ place x) (hmono : ∀ {a b}, a ≤ b → place a ≤ place b) {a b : Nat} (hab : a ≤ b) :
    placeBefore t start next place a ≤ placeBefore t start next place b := by
  have := hle b
  have := hmono hab
  unfold placeBefore
  repeat' split
  all_goals omega

/-- From `next` on places go where the other map puts them. -/
theorem move_placeBefore {t : Token} {next : Nat} {place : Nat → Nat} (hnext : start < next) (os : List Outline) :
    move (placeBefore t start next place) (spread next os) = move place (spread next os) := by
  refine List.map_congr_left fun u hu => ?_
  obtain ⟨hstart, hstop⟩ := le_start_of_mem_spread hu
  have hsame : ∀ {x : Nat}, next ≤ x → placeBefore t start next place x = place x := by
    intro x hx
    rw [placeBefore, if_neg (by omega), if_neg (by omega)]
  show Token.mk u.kind ⟨_, _⟩ u.afterBreak = Token.mk u.kind ⟨_, _⟩ u.afterBreak
  rw [hsame hstart, hsame hstop]

/-- A map that puts spread tokens where tokens stand puts the first place where the first one starts. -/
theorem place_of_move_spread {place : Nat → Nat} {u : Token} (h : move place (spread start (outline (u :: ts))) = u :: ts) :
    place start = u.span.start :=
  congrArg (fun t : Token => t.span.start) (List.cons.inj h).1

/-- A token ends where the map sends the end of its byte, if the places behind it go to the tokens behind it. -/
theorem placeBefore_stop {t : Token} {place : Nat → Nat}
    (h : move place (spread ((t.outlineBefore ts).next start) (outline ts)) = ts) :
    placeBefore t start ((t.outlineBefore ts).next start) place (start + 1) = t.span.stop := by
  rw [placeBefore, if_neg (by omega)]
  by_cases htouches : (t.outlineBefore ts).touches = true
  · have hnext : (t.outlineBefore ts).next start = start + 1 := if_pos htouches
    rw [hnext] at h ⊢
    rw [if_neg (Nat.lt_irrefl _)]
    cases ts with
    | nil => cases htouches
    | cons u us =>
      have htu : t.touches u = true := htouches
      simp only [touches, Bool.and_eq_true, decide_eq_true_eq] at htu
      rw [place_of_move_spread h, htu.2]
  · have hnext : (t.outlineBefore ts).next start = start + 2 := if_neg htouches
    rw [hnext, if_pos (Nat.lt_succ_self _)]

/-- With one more token in front, the map for the others is extended by its place. -/
theorem move_spread_cons {t : Token} {place : Nat → Nat}
    (h : move place (spread ((t.outlineBefore ts).next start) (outline ts)) = ts) :
    move (placeBefore t start ((t.outlineBefore ts).next start) place) (spread start (outline (t :: ts))) = t :: ts := by
  have hstart : placeBefore t start ((t.outlineBefore ts).next start) place start = t.span.start :=
    if_pos (Nat.le_refl _)
  show Token.mk t.kind ⟨placeBefore _ _ _ _ start, placeBefore _ _ _ _ (start + 1)⟩ t.afterBreak ::
    move _ (spread (Outline.next _ _) _) = _
  rw [move_placeBefore (Outline.lt_next _ _), h, hstart, placeBefore_stop h]

/-- Tokens in order are the spread of their outline, moved by a map that keeps the order of places. -/
theorem Follow.exists_place (h : Follow offset ts) (start : Nat) :
    ∃ place : Nat → Nat, (∀ {a b}, a ≤ b → place a ≤ place b) ∧ (∀ x, offset ≤ place x) ∧
      move place (Token.spread start (outline ts)) = ts := by
  induction h generalizing start with
  | @last offset t hle hsize _ =>
    refine ⟨placeBefore t start (start + 2) fun _ => t.span.stop, ?_, fun x => ?_, ?_⟩
    · exact placeBefore_mono hsize (fun _ => Nat.le_refl _) fun _ => Nat.le_refl _
    · exact Nat.le_trans hle (le_placeBefore hsize (fun _ => Nat.le_refl _) x)
    · exact move_spread_cons rfl
  | @cons offset t ts hle hsize _ hts ih =>
    obtain ⟨place, hmono, hbound, hplace⟩ := ih ((t.outlineBefore ts).next start)
    refine ⟨placeBefore t start ((t.outlineBefore ts).next start) place, ?_, fun x => ?_, ?_⟩
    · exact placeBefore_mono (Nat.le_of_lt hsize) hbound hmono
    · exact Nat.le_trans hle (le_placeBefore (Nat.le_of_lt hsize) hbound x)
    · exact move_spread_cons hplace

/-- In the spread of an outline two tokens touch if they do after moving it to the tokens it was taken from. -/
theorem touching_of_move_spread {place : Nat → Nat} (h : move place (spread start (outline ts)) = ts)
    {before after : List Token} {a b : Token} (hsplit : spread start (outline ts) = before ++ a :: b :: after)
    (ha : a.kind = .mark .gt) (hb : b.kind = .mark .gt ∨ b.kind = .mark .ge)
    (hplace : place a.span.stop = place b.span.start) : a.span.stop = b.span.start := by
  induction ts generalizing start before with
  | nil => cases before <;> cases hsplit
  | cons t ts ih =>
    obtain ⟨hhead, htail⟩ := List.cons.inj h
    cases before with
    | cons _ before => exact ih htail (List.cons.inj hsplit).2
    | nil =>
      obtain ⟨hahead, hrest⟩ := List.cons.inj hsplit
      cases ts with
      | nil => cases hrest
      | cons u us =>
        have hbhead := (List.cons.inj hrest).1
        have htouches : t.touches u = true := by
          have hu := (List.cons.inj htail).1
          rw [hahead] at hhead
          rw [hbhead] at hu
          rw [← hhead, ← hu]
          show (decide (a.kind = _) && (decide (b.kind = _) || decide (b.kind = _)) &&
            decide (place a.span.stop = place b.span.start)) = true
          simp [ha, hb, hplace]
        have hany : (u :: us).head?.any t.touches = true := htouches
        rw [← hahead, ← hbhead]
        exact (if_pos hany).symm

end Token

/-- The tokens in order as moved from the spread of their outline. -/
theorem exists_reformatting {tokens : List Token} (h : Token.Follow 0 tokens) :
    ∃ R : Reformatting, R.tokens = Token.spread 0 (Token.outline tokens) ∧ move R.place R.tokens = tokens := by
  obtain ⟨place, hmono, -, hplace⟩ := h.exists_place 0
  exact ⟨⟨_, place, hmono, Token.touching_of_move_spread hplace⟩, rfl, hplace⟩

end ContractCompiler
