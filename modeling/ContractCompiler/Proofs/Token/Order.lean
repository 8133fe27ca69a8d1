import ContractCompiler.Proofs.Reading.PhraseSpans
import ContractCompiler.Token.Scan

/-!
# The order of tokens

The tokens of a source text stand in its order: each but the last one takes at least a byte, and the next one starts no
earlier than it ends. The last one is the end of the input, and no other.
-/

namespace ContractCompiler.Token

open Text

/-- A text that is not empty has bytes. -/
theorem utf8Length_pos {cs : List Char} (h : cs ≠ []) : 0 < utf8Length cs := by
  cases cs with
  | nil => exact absurd rfl h
  | cons c cs =>
    have := c.utf8Size_pos
    rw [utf8Length_cons]
    omega

/-- No token that starts with a character is the end of the input. -/
theorem lexeme_kind_ne_end (offset : Nat) (c : Char) (cs : List Char) : (lexeme offset c cs).kind ≠ .endOfInput := by
  unfold lexeme
  repeat' split
  · unfold Lexeme.word
    dsimp only
    split <;> exact nofun
  · exact nofun
  · exact nofun
  · unfold Lexeme.privateName
    split <;> exact nofun
  · exact nofun
  · exact nofun
  · unfold Lexeme.mark
    split <;> exact nofun

/-- The tokens of a text follow one another from where the text starts, and the end of the input comes last. -/
inductive Follow : Nat → List Token → Prop where
  | last {offset : Nat} {t : Token} :
      offset ≤ t.span.start → t.span.start ≤ t.span.stop → t.kind = .endOfInput → Follow offset [t]
  | cons {offset : Nat} {t : Token} {ts : List Token} :
      offset ≤ t.span.start → t.span.start < t.span.stop → t.kind ≠ .endOfInput → Follow t.span.stop ts →
        Follow offset (t :: ts)

/-- The tokens that are scanned follow one another. -/
theorem follow_scanFrom (offset : Nat) (cs : List Char) : Follow offset ((scanFrom offset cs).map Scanned.token) := by
  fun_induction scanFrom offset cs with
  | case1 offset cs gap start h => exact .last (Nat.le_add_right _ _) (Nat.le_refl _) rfl
  | case2 offset cs gap start c rest h l stop ih =>
    have hpos := utf8Length_pos (lexeme_text_ne_nil start c rest)
    refine .cons (Nat.le_add_right _ _) ?_ (lexeme_kind_ne_end _ _ _) ih
    exact Nat.lt_add_of_pos_right hpos

namespace Follow

variable {offset : Nat} {ts : List Token}

/-- The last one is the end of the input. -/
theorem getLast (h : Follow offset ts) : ∀ t, ts.getLast? = some t → t.kind = .endOfInput := by
  induction h with
  | last _ _ hk => simpa using hk
  | @cons _ t ts _ _ _ h ih =>
    intro u hu
    cases ts with
    | nil => cases h
    | cons v vs => exact ih u (by simpa using hu)

/-- No token is before the start of the text. -/
theorem le_start (h : Follow offset ts) : ∀ t ∈ ts, offset ≤ t.span.start := by
  induction h with
  | last hle _ _ => simpa using hle
  | cons hle hlt _ _ ih =>
    intro u hu
    rcases List.mem_cons.mp hu with rfl | hu
    · exact hle
    · have := ih u hu
      omega

/-- Every token before the last one has a text, and is not the end of the input. -/
theorem lt_stop (h : Follow offset ts) : ∀ t ∈ ts.dropLast, t.span.start < t.span.stop ∧ t.kind ≠ .endOfInput := by
  induction h with
  | last _ _ _ => simp
  | @cons _ t ts _ hlt hk h ih =>
    intro u hu
    cases ts with
    | nil => cases h
    | cons v vs =>
      rcases List.mem_cons.mp (by simpa using hu) with rfl | hu
      · exact ⟨hlt, hk⟩
      · exact ih u hu

/-- A token that is not the end of the input has a text. -/
theorem start_lt_stop (h : Follow offset ts) : ∀ t ∈ ts, t.kind ≠ .endOfInput → t.span.start < t.span.stop := by
  induction h with
  | last _ _ hk => simp [hk]
  | cons _ hlt _ _ ih => exact List.forall_mem_cons.mpr ⟨fun _ => hlt, ih⟩

/-- No token ends before it starts. -/
theorem start_le_stop (h : Follow offset ts) : ∀ t ∈ ts, t.span.start ≤ t.span.stop := by
  induction h with
  | last _ hle _ => simpa using hle
  | cons _ hlt _ _ ih => exact List.forall_mem_cons.mpr ⟨Nat.le_of_lt hlt, ih⟩

/-- Nothing comes after the end of the input. -/
theorem eq_nil_of_end {before after : List Token} {t : Token} (h : Follow offset (before ++ t :: after))
    (hk : t.kind = .endOfInput) : after = [] := by
  induction before generalizing offset with
  | nil =>
    cases h with
    | last => rfl
    | cons _ _ hne _ => exact absurd hk hne
  | cons u before ih =>
    rw [List.cons_append] at h
    generalize hrest : before ++ t :: after = rest at h
    cases h with
    | last => simp at hrest
    | cons _ _ _ h => exact ih (hrest ▸ h)

/-- A token ends before the next one starts. -/
theorem pairwise (h : Follow offset ts) : ts.Pairwise fun a b => a.span.stop ≤ b.span.start := by
  induction h with
  | last _ _ _ => exact List.pairwise_singleton _ _
  | cons _ _ _ h ih => exact List.pairwise_cons.mpr ⟨h.le_start, ih⟩

/-- The tokens are in order, the end of the input included. -/
theorem ascending_all (h : Follow offset ts) : Ascending ts := ⟨h.start_le_stop, h.pairwise⟩

/-- The tokens before the end of the input are in order. -/
theorem ascending (h : Follow offset ts) : Ascending ts.dropLast := h.ascending_all.sublist (List.dropLast_sublist ts)

/-- No two tokens before the end of the input end at the same place. -/
theorem stops_nodup (h : Follow offset ts) : (stops ts.dropLast).Nodup := by
  have hpair : ts.dropLast.Pairwise fun a b => a.span.stop ≤ b.span.start := h.ascending.2
  refine List.Pairwise.map _ (fun _ _ h => h) ?_
  refine List.Pairwise.imp_of_mem ?_ hpair
  intro a b _ hb hab
  have := (h.lt_stop b hb).1
  omega

end Follow

end ContractCompiler.Token
