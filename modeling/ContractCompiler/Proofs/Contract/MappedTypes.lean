import ContractCompiler.Proofs.Contract.Failure

/-!
# The leaves of an annotation

Only a `Map` with exactly two arguments is looked into when an annotation is mapped to a Solidity type. What is reached by
going down through such maps alone are the leaves of the annotation, and they decide everything: the annotation has a Solidity
type exactly if each of them has one, and otherwise the first leaf without one, from left to right, is the failure.
-/

namespace ContractCompiler.TypeExpr

/-- The key and the value of a `Map` with exactly two arguments. -/
def keyValue? : TypeExpr → Option (TypeExpr × TypeExpr)
  | .named _ [name] [key, value] => if name.name = "Map" then some (key, value) else none
  | _ => none

/-- Goes down through every `Map` with exactly two arguments. Anything else is a leaf, and `join` puts together what was found
for a key and for its value. -/
def descend {α : Type} (leaf : TypeExpr → α) (join : α → α → α) : TypeExpr → α
  | .named span [name] [key, value] =>
    if name.name = "Map" then join (key.descend leaf join) (value.descend leaf join)
    else leaf (.named span [name] [key, value])
  | t => leaf t

/-- The leaves of an annotation, from left to right. -/
def leaves : TypeExpr → List TypeExpr := descend (fun t => [t]) (· ++ ·)

/-- Whether a leaf has a Solidity type: the keywords `number` and `string` do, and every name of one segment but `Map`. -/
def isMapped : TypeExpr → Bool
  | .keyword _ word => word = .number ∨ word = .string
  | .named _ [name] _ => name.name ≠ "Map"
  | _ => false

/-- The Solidity type of a leaf. The arguments of a name are dropped. -/
def leafSolidity : TypeExpr → String
  | .keyword _ .number => "int256"
  | .keyword _ .string => "string"
  | .named _ [name] args =>
    if name.name = "UNSIGNED_INT" ∧ args.isEmpty then "uint256"
    else if name.name = "ADDRESS" ∧ args.isEmpty then "address"
    else name.name
  | t => t.text

/-- The annotation with each `Map` and each leaf replaced by what stands for it in Solidity. -/
def mapped : TypeExpr → String := descend leafSolidity fun key value => "mapping(" ++ key ++ " => " ++ value ++ ")"

/-! ## Maps and leaves -/

section Descent

variable {α : Type} {leaf : TypeExpr → α} {join : α → α → α} {t key value : TypeExpr}

/-- A leaf is not gone down into. -/
theorem descend_of_leaf (h : t.keyValue? = none) : t.descend leaf join = leaf t := by
  fun_cases descend leaf join t with
  | case1 span name key value hname => simp [keyValue?, hname] at h
  | case2 => rfl
  | case3 => rfl

/-- In a `Map` the key and the value are gone down into. -/
theorem descend_of_entry (h : t.keyValue? = some (key, value)) :
    t.descend leaf join = join (key.descend leaf join) (value.descend leaf join) := by
  unfold keyValue? at h
  split at h
  · split at h <;> cases h
    rename_i hname
    rw [descend, if_pos hname]
  · cases h

end Descent

/-- What holds of every leaf, and of a `Map` if it holds of its key and its value, holds of every annotation. -/
theorem induction_on_maps {P : TypeExpr → Prop} (hleaf : ∀ t, t.keyValue? = none → P t)
    (hmap : ∀ t key value, t.keyValue? = some (key, value) → P key → P value → P t) (t : TypeExpr) : P t := by
  cases h : t.keyValue? with
  | none => exact hleaf t h
  | some entry =>
    obtain ⟨key, value⟩ := entry
    have hsize : sizeOf key < sizeOf t ∧ sizeOf value < sizeOf t := by
      unfold keyValue? at h
      split at h
      · split at h <;> cases h
        simp
        omega
      · cases h
    exact hmap t key value h (induction_on_maps hleaf hmap key) (induction_on_maps hleaf hmap value)
termination_by sizeOf t

/-! ## What leaves decide -/

/-- The first leaf that has no Solidity type. -/
def firstUnmapped? (t : TypeExpr) : Option TypeExpr := t.leaves.find? fun l => !l.isMapped

/-- There is no leaf without a Solidity type just if all leaves have one. -/
theorem firstUnmapped?_eq_none_iff {t : TypeExpr} : t.firstUnmapped? = none ↔ ∀ l ∈ t.leaves, l.isMapped = true := by
  simp [firstUnmapped?]

/-- In a leaf the only one that may have no Solidity type is the leaf. -/
theorem firstUnmapped?_of_leaf {t : TypeExpr} (h : t.keyValue? = none) :
    t.firstUnmapped? = if t.isMapped then none else some t := by
  rw [firstUnmapped?, leaves, descend_of_leaf h]
  cases hmapped : t.isMapped <;> simp [hmapped]

/-- In a `Map` the key is looked at before the value. -/
theorem firstUnmapped?_of_entry {t key value : TypeExpr} (h : t.keyValue? = some (key, value)) :
    t.firstUnmapped? = key.firstUnmapped?.or value.firstUnmapped? := by
  rw [firstUnmapped?, leaves, descend_of_entry h, List.find?_append]
  rfl

/-- A leaf is written as its Solidity type, or is unknown. -/
theorem solidity_of_leaf {t : TypeExpr} (h : t.keyValue? = none) :
    t.solidity = if t.isMapped then .ok t.leafSolidity else .error t.unknown := by
  fun_cases solidity t with
  | case1 | case2 => rfl
  | case3 span name hname | case4 span name hname => simp [isMapped, leafSolidity, hname]
  | case5 span name key value hname => simp [keyValue?, hname] at h
  | case6 span name args hname hargs => simp [isMapped, hname]
  | case7 span name args hmap hunsigned haddress hpair =>
    have hown : (named span [name] args).leafSolidity = name.name := by
      simp only [leafSolidity, List.isEmpty_iff]
      rw [if_neg fun hname => hunsigned hname.1 hname.2, if_neg fun hname => haddress hname.1 hname.2]
    have hmapped : (named span [name] args).isMapped = true := decide_eq_true hmap
    rw [hmapped, if_pos rfl, hown]
  | case8 _ hnumber hstring hname =>
    have hunmapped : t.isMapped = false := by
      fun_cases isMapped t with
      | case1 span word => cases word <;> simp_all
      | case2 span name args => exact absurd rfl (hname span name args)
      | case3 => rfl
    simp [hunmapped]

/-- A `Map` is written as a mapping from its key to its value. -/
theorem solidity_of_entry {t key value : TypeExpr} (h : t.keyValue? = some (key, value)) :
    t.solidity = do
      let k ← key.solidity
      let v ← value.solidity
      return "mapping(" ++ k ++ " => " ++ v ++ ")" := by
  unfold keyValue? at h
  split at h
  · split at h <;> cases h
    rename_i span name hname
    rw [solidity]
    exact hname
  · cases h

/-- An annotation has a Solidity type exactly if all its leaves have one, and it is what the leaves and the maps above them
stand for. Otherwise the failure names the first leaf without one, as it is written, and says where it stands. -/
theorem solidity_decided_by_leaves (t : TypeExpr) :
    ((∃ text, t.solidity = .ok text) ↔ ∀ l ∈ t.leaves, l.isMapped = true) ∧
      t.solidity = t.firstUnmapped?.elim (.ok t.mapped) fun leaf => .error (.unknownType leaf.text leaf.span) := by
  have hsolidity : t.solidity = t.firstUnmapped?.elim (.ok t.mapped) fun leaf => .error leaf.unknown := by
    induction t using induction_on_maps with
    | hleaf t h =>
      rw [solidity_of_leaf h, firstUnmapped?_of_leaf h, mapped, descend_of_leaf h]
      cases t.isMapped <;> rfl
    | hmap t key value h ihkey ihvalue =>
      rw [solidity_of_entry h, firstUnmapped?_of_entry h, ihkey, ihvalue, mapped, descend_of_entry h]
      cases key.firstUnmapped? with
      | some leaf => rfl
      | none => cases value.firstUnmapped? <;> rfl
  refine ⟨?_, hsolidity⟩
  rw [← firstUnmapped?_eq_none_iff, hsolidity]
  cases t.firstUnmapped? <;> simp

/-- The first leaf that fails is meant, however deep it stands: in `Map<A, Map<b.C, any>>` it is `b.C`. -/
example : let name (text : String) : Ident := ⟨text, ⟨0, 0⟩⟩
    let path (parts : List String) (args : List TypeExpr) : TypeExpr := .named ⟨3, 4⟩ (parts.map name) args
    (path ["Map"] [path ["A"] [], path ["Map"] [path ["b", "C"] [], .keyword ⟨5, 6⟩ .any]]).solidity =
      .error (.unknownType "b.C" ⟨3, 4⟩) := by
  rfl

end ContractCompiler.TypeExpr
