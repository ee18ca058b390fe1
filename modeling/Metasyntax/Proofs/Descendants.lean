import Mathlib.Data.List.Forall2
import Metasyntax.Proofs.Outlines

/-!
# Descendants in document order

A stack of nodes still to be visited takes a walk to the same nodes in the same order as
recursion on the tree does. So a walk comes to each place of a tree once, the leaves that it
meets spell the text of the tree, and the nodes of a name come in document order.
-/

set_option autoImplicit false

namespace Metasyntax

def OneLetter (a b : Char) : Prop :=
  a = b ∨ (('A' ≤ a ∧ a ≤ 'Z') ∧ b.toNat = a.toNat + 32) ∨
    (('A' ≤ b ∧ b ≤ 'Z') ∧ a.toNat = b.toNat + 32)

instance : DecidableRel OneLetter := fun a b =>
  inferInstanceAs (Decidable (a = b ∨ (('A' ≤ a ∧ a ≤ 'Z') ∧ b.toNat = a.toNat + 32) ∨
    (('A' ≤ b ∧ b ≤ 'Z') ∧ a.toNat = b.toNat + 32)))

def OneName (name other : String) : Prop := List.Forall₂ OneLetter name.toList other.toList

instance : DecidableRel OneName := fun name other =>
  inferInstanceAs (Decidable (List.Forall₂ OneLetter name.toList other.toList))

theorem toNat_toLower (c : Char) :
    c.toLower.toNat = if 65 ≤ c.toNat ∧ c.toNat ≤ 90 then c.toNat + 32 else c.toNat := by
  by_cases hc : 65 ≤ c.toNat ∧ c.toNat ≤ 90
  · have hlower : c.toLower.val = c.val + 32 := congrArg Char.val (dif_pos hc)
    rw [if_pos hc, Char.toNat, hlower, UInt32.toNat_add]
    refine Nat.mod_eq_of_lt ?_
    change c.toNat + 32 < 2 ^ 32
    omega
  · have hsame : c.toLower = c := dif_neg hc
    rw [if_neg hc, hsame]

theorem toLower_eq_iff {a b : Char} : a.toLower = b.toLower ↔ OneLetter a b := by
  have hupper (c : Char) : ('A' ≤ c ∧ c ≤ 'Z') ↔ 65 ≤ c.toNat ∧ c.toNat ≤ 90 := Iff.rfl
  rw [← Char.toNat_inj, toNat_toLower, toNat_toLower, OneLetter, ← Char.toNat_inj,
    hupper a, hupper b]
  split <;> split <;> omega

theorem sameName_iff {name other : String} :
    sameName name other = true ↔ OneName name other := by
  have hletters : OneLetter = fun a b => a.toLower = b.toLower := by
    ext a b
    exact toLower_eq_iff.symm
  have hlower (name : String) : name.toLower.toList = name.toList.map Char.toLower :=
    String.toList_map
  rw [sameName, beq_iff_eq, OneName, hletters, ← String.toList_inj, hlower, hlower,
    ← List.forall₂_eq_eq_eq, List.forall₂_map_left_iff, List.forall₂_map_right_iff]

namespace Node

theorem preorder_eq_cons (node : Node) :
    node.preorder = node :: preorderOfAll node.children := by
  cases node <;> rfl

theorem preorderOfAll_append (nodes pending : List Node) :
    preorderOfAll (nodes ++ pending) = preorderOfAll nodes ++ preorderOfAll pending := by
  induction nodes with
  | nil => rfl
  | cons node nodes ih =>
    rw [List.cons_append, preorderOfAll, preorderOfAll, ih, List.append_assoc]

theorem visit_eq_preorderOfAll (stack : List Node) : visit stack = preorderOfAll stack := by
  fun_induction visit stack with
  | case1 => rfl
  | case2 node pending ih =>
    rw [ih, preorderOfAll_append, preorderOfAll, preorder_eq_cons]
    rfl

theorem descendants_eq_preorder (root : Node) : root.descendants = root.preorder := by
  rw [descendants, visit_eq_preorderOfAll, preorderOfAll, preorderOfAll, List.append_nil]

def leafText (nodes : List Node) : String :=
  String.join ((nodes.filter fun node => !node.isRule).map value)

theorem leafText_append (nodes others : List Node) :
    leafText (nodes ++ others) = leafText nodes ++ leafText others := by
  rw [leafText, List.filter_append, List.map_append, String.join_append]
  rfl

theorem leafText_rule (name : String) (children nodes : List Node) :
    leafText (.rule name children :: nodes) = leafText nodes := by
  rw [leafText, List.filter_cons_of_neg (by simp [isRule])]
  rfl

mutual
theorem leafText_preorder : ∀ node : Node, leafText node.preorder = node.value
  | .rule name children => by
    rw [preorder, leafText_rule, leafText_preorderOfAll children, value]
  | .literal text offset => by
    simp [leafText, preorder, isRule, value]

theorem leafText_preorderOfAll : ∀ nodes : List Node,
    leafText (preorderOfAll nodes) = valueOfAll nodes
  | [] => by simp [leafText, preorderOfAll, valueOfAll]
  | node :: rest => by
    rw [preorderOfAll, leafText_append, leafText_preorder node, leafText_preorderOfAll rest,
      valueOfAll]
end

theorem findAll_eq_filter (root : Node) (name : String) :
    root.findAll name = root.preorder.filter fun node => OneName node.name name := by
  rw [findAll, descendants_eq_preorder]
  refine List.filter_congr fun node _ => ?_
  rw [Bool.eq_iff_iff, decide_eq_true_iff]
  exact sameName_iff

theorem oneName_leafName (node : Node) :
    OneName node.name leafName ↔ node.isRule = false ∨ OneName node.name leafName := by
  have hleaf : OneName leafName leafName := by decide
  cases node with
  | rule name children => simp [isRule]
  | literal text offset => exact iff_of_true hleaf (Or.inl rfl)

/-- A walk gives what stands at each place of a tree, in document order and once. The leaves
that it gives spell the text of the tree, and the nodes of a name are those of the walk whose
names differ from it in the case of letters at most. -/
theorem descendants_in_order (root : Node) :
    root.descendants = root.preorder ∧
      root.descendants.map some = root.paths.map root.at? ∧
      root.paths.Pairwise (· < ·) ∧ (∀ path, path ∈ root.paths ↔ (root.at? path).isSome) ∧
      leafText root.descendants = root.value ∧
      (∀ name, root.findAll name = root.preorder.filter fun node => OneName node.name name) ∧
      root.findAll "literal" =
        root.preorder.filter fun node => node.isRule = false ∨ OneName node.name "literal" := by
  have hwalk := descendants_eq_preorder root
  refine ⟨hwalk, ?_, pairwise_paths root, fun _ => mem_paths_iff, ?_, findAll_eq_filter root, ?_⟩
  · rw [hwalk, map_at?_paths]
  · rw [hwalk, leafText_preorder]
  · rw [findAll_eq_filter]
    refine List.filter_congr fun node _ => ?_
    rw [decide_eq_decide]
    exact oneName_leafName node

example : (Drawing.keyedPair.findAll "LITERAL").map value = ["a", "=", "1"] := by
  rw [findAll_eq_filter]
  decide

end Node

end Metasyntax
