/-!
# Splitting a text in two

A split takes some characters off the front of a text and leaves the rest. Splits that lose nothing
(`Split.Faithful`) stay so when they run one after the other, which is how the longer token shapes are
put together.
-/

namespace ContractCompiler.Text

/-- The number of bytes of the UTF-8 form of `cs`. -/
def utf8Length : List Char → Nat
  | [] => 0
  | c :: cs => c.utf8Size + utf8Length cs

@[simp] theorem utf8Length_nil : utf8Length [] = 0 := rfl

@[simp] theorem utf8Length_cons (c : Char) (cs : List Char) :
    utf8Length (c :: cs) = c.utf8Size + utf8Length cs := rfl

@[simp] theorem utf8Length_append (a b : List Char) :
    utf8Length (a ++ b) = utf8Length a + utf8Length b := by
  induction a with
  | nil => simp
  | cons c cs ih => simp [ih, Nat.add_assoc]

/-- A way of cutting a text: what is taken from its front, and what is left. -/
def Split := List Char → List Char × List Char

namespace Split

/-- Takes nothing. -/
def nothing : Split := fun cs => ([], cs)

/-- Takes the longest front whose characters all satisfy `p`. -/
def takeWhile (p : Char → Bool) : Split := fun cs => (cs.takeWhile p, cs.dropWhile p)

/-- Takes one character if it satisfies `p`. -/
def optional (p : Char → Bool) : Split
  | c :: cs => if p c then ([c], cs) else ([], c :: cs)
  | [] => ([], [])

/-- Takes with `f`, then with `g` from what `f` left. -/
def andThen (f g : Split) : Split := fun cs =>
  ((f cs).1 ++ (g (f cs).2).1, (g (f cs).2).2)

/-- A split that loses nothing: the two parts make up the text. -/
def Faithful (f : Split) : Prop := ∀ cs, (f cs).1 ++ (f cs).2 = cs

theorem faithful_nothing : Faithful nothing := fun _ => rfl

theorem faithful_takeWhile (p : Char → Bool) : Faithful (takeWhile p) := fun _ =>
  List.takeWhile_append_dropWhile

theorem faithful_optional (p : Char → Bool) : Faithful (optional p) := by
  intro cs
  cases cs with
  | nil => rfl
  | cons c cs =>
    rw [optional]
    split <;> rfl

theorem Faithful.andThen {f g : Split} (hf : Faithful f) (hg : Faithful g) :
    Faithful (f.andThen g) := by
  intro cs
  rw [Split.andThen, List.append_assoc, hg, hf]

end Split

end ContractCompiler.Text
