import Metasyntax.Document
import Metasyntax.Node

/-!
# What a drawing shows of a tree

A line of a drawing belongs to one place of the tree. In front of its label it shows which
of the nodes on the way to that place are the last of their siblings, with one unit for
each of them, so that the drawing has the depths of all nodes in document order. There is
only one way to nest nodes so that these are the depths.
-/

set_option autoImplicit false

namespace Metasyntax

inductive Shape where
  | node (parts : List Shape)

namespace Shape

mutual
def depths (depth : Nat) : Shape → List Nat
  | .node parts => depth :: depthsOfAll (depth + 1) parts

def depthsOfAll (depth : Nat) : List Shape → List Nat
  | [] => []
  | shape :: rest => shape.depths depth ++ depthsOfAll depth rest
end

theorem depths_eq_cons (depth : Nat) (shape : Shape) :
    ∃ rest, shape.depths depth = depth :: rest := by
  obtain ⟨parts⟩ := shape
  exact ⟨_, rfl⟩

theorem head?_depthsOfAll_le {depth : Nat} (shapes : List Shape) {rest : List Nat}
    (hrest : ∀ d ∈ rest.head?, d < depth) :
    ∀ d ∈ (depthsOfAll depth shapes ++ rest).head?, d ≤ depth := by
  cases shapes with
  | nil => exact fun d hd => Nat.le_of_lt (hrest d hd)
  | cons shape shapes =>
    obtain ⟨tail, htail⟩ := depths_eq_cons depth shape
    simp [depthsOfAll, htail]

mutual
theorem depths_append_inj (depth : Nat) : ∀ (shape shape' : Shape) {rest rest' : List Nat},
    (∀ d ∈ rest.head?, d ≤ depth) → (∀ d ∈ rest'.head?, d ≤ depth) →
    shape.depths depth ++ rest = shape'.depths depth ++ rest' → shape = shape' ∧ rest = rest'
  | .node parts, .node parts', rest, rest', hrest, hrest', h => by
    rw [depths, depths, List.cons_append, List.cons_append, List.cons_eq_cons] at h
    obtain ⟨rfl, rfl⟩ := depthsOfAll_append_inj (depth + 1) parts parts'
      (fun d hd => Nat.lt_succ_of_le (hrest d hd)) (fun d hd => Nat.lt_succ_of_le (hrest' d hd)) h.2
    exact ⟨rfl, rfl⟩

theorem depthsOfAll_append_inj (depth : Nat) :
    ∀ (shapes shapes' : List Shape) {rest rest' : List Nat},
    (∀ d ∈ rest.head?, d < depth) → (∀ d ∈ rest'.head?, d < depth) →
    depthsOfAll depth shapes ++ rest = depthsOfAll depth shapes' ++ rest' →
    shapes = shapes' ∧ rest = rest'
  | [], [], rest, rest', hrest, hrest', h => ⟨rfl, h⟩
  | [], shape' :: shapes', rest, rest', hrest, hrest', h => by
    obtain ⟨tail, htail⟩ := depths_eq_cons depth shape'
    rw [depthsOfAll, depthsOfAll, htail, List.nil_append] at h
    exact absurd (hrest depth (by simp [h])) (Nat.lt_irrefl _)
  | shape :: shapes, [], rest, rest', hrest, hrest', h => by
    obtain ⟨tail, htail⟩ := depths_eq_cons depth shape
    rw [depthsOfAll, depthsOfAll, htail, List.nil_append] at h
    exact absurd (hrest' depth (by simp [← h])) (Nat.lt_irrefl _)
  | shape :: shapes, shape' :: shapes', rest, rest', hrest, hrest', h => by
    rw [depthsOfAll, depthsOfAll, List.append_assoc, List.append_assoc] at h
    obtain ⟨rfl, hothers⟩ := depths_append_inj depth shape shape'
      (head?_depthsOfAll_le shapes hrest) (head?_depthsOfAll_le shapes' hrest') h
    obtain ⟨rfl, rfl⟩ := depthsOfAll_append_inj depth shapes shapes' hrest hrest' hothers
    exact ⟨rfl, rfl⟩
end

theorem depths_injective {depth : Nat} {shape shape' : Shape}
    (h : shape.depths depth = shape'.depths depth) : shape = shape' := by
  have hnil : ∀ d ∈ ([] : List Nat).head?, d ≤ depth := by simp
  exact (depths_append_inj depth shape shape' hnil hnil (congrArg (· ++ []) h)).1

end Shape

namespace Node

def at? (root : Node) : List Nat → Option Node
  | [] => some root
  | i :: path => (root.children[i]?).bind fun child => child.at? path

mutual
def paths : Node → List (List Nat)
  | .rule _ children => [] :: pathsFrom 0 children
  | .literal _ _ => [[]]

def pathsFrom (place : Nat) : List Node → List (List Nat)
  | [] => []
  | node :: rest => node.paths.map (place :: ·) ++ pathsFrom (place + 1) rest
end

mutual
def shape : Node → Shape
  | .rule _ children => .node (shapes children)
  | .literal _ _ => .node []

def shapes : List Node → List Shape
  | [] => []
  | node :: rest => node.shape :: shapes rest
end

def final (root : Node) (path : List Nat) : Bool :=
  path.getLast?.all fun i =>
    (root.at? path.dropLast).any fun parent => parent.children.length == i + 1

theorem at?_append (root : Node) (path further : List Nat) :
    root.at? (path ++ further) = (root.at? path).bind (·.at? further) := by
  induction path generalizing root with
  | nil => rfl
  | cons i path ih =>
    rw [List.cons_append, at?, at?]
    cases root.children[i]? with
    | none => rfl
    | some child => exact ih child

theorem at?_child {root node : Node} {path : List Nat} (h : root.at? path = some node) (i : Nat) :
    root.at? (path ++ [i]) = node.children[i]? := by
  rw [at?_append, h]
  exact Option.bind_fun_some _

theorem final_child {root node : Node} {path : List Nat} (h : root.at? path = some node)
    (i : Nat) : root.final (path ++ [i]) = (node.children.length == i + 1) := by
  simp [final, h]

mutual
theorem map_at?_paths : ∀ node : Node, node.paths.map node.at? = node.preorder.map some
  | .rule name children => by
    rw [paths, preorder, List.map_cons, List.map_cons]
    exact congrArg _ (map_at?_pathsFrom [] children rfl)
  | .literal value offset => rfl

theorem map_at?_pathsFrom {parent : Node} : ∀ done rest : List Node,
    parent.children = done ++ rest →
    (pathsFrom done.length rest).map parent.at? = (preorderOfAll rest).map some
  | done, [], h => rfl
  | done, node :: rest, h => by
    have hplace : parent.children[done.length]? = some node := by simp [h]
    have hnode : (parent.at? ∘ (done.length :: ·)) = node.at? := by
      funext path
      simp [at?, hplace]
    have hdone : parent.children = (done ++ [node]) ++ rest := by simp [h]
    have hrest := map_at?_pathsFrom (done ++ [node]) rest hdone
    rw [List.length_append] at hrest
    rw [pathsFrom, preorderOfAll, List.map_append, List.map_append, List.map_map, hnode,
      map_at?_paths node]
    exact congrArg _ hrest
end

theorem mem_preorder_of_at? {root node : Node} {path : List Nat} (hpath : path ∈ root.paths)
    (h : root.at? path = some node) : node ∈ root.preorder := by
  have hmem : some node ∈ root.preorder.map some := by
    rw [← map_at?_paths, ← h]
    exact List.mem_map_of_mem hpath
  simpa using hmem

theorem paths_eq (node : Node) : node.paths = [] :: pathsFrom 0 node.children := by
  cases node <;> rfl

theorem mem_pathsFrom_iff {place : Nat} {rest : List Node} {path : List Nat} :
    path ∈ pathsFrom place rest ↔ ∃ i child further, rest[i]? = some child ∧
      further ∈ child.paths ∧ path = (place + i) :: further := by
  induction rest generalizing place with
  | nil => simp [pathsFrom]
  | cons node rest ih =>
    rw [pathsFrom, List.mem_append, ih, List.mem_map]
    constructor
    · rintro (⟨further, hfurther, rfl⟩ | ⟨i, child, further, hchild, hfurther, rfl⟩)
      · exact ⟨0, node, further, rfl, hfurther, rfl⟩
      · exact ⟨i + 1, child, further, hchild, hfurther, by rw [Nat.add_assoc, Nat.add_comm 1]⟩
    · rintro ⟨i, child, further, hchild, hfurther, rfl⟩
      cases i with
      | zero =>
        obtain rfl : node = child := by simpa using hchild
        exact Or.inl ⟨further, hfurther, rfl⟩
      | succ i =>
        exact Or.inr ⟨i, child, further, by simpa using hchild, hfurther,
          by rw [Nat.add_assoc, Nat.add_comm 1]⟩

theorem mem_paths_iff {node : Node} {path : List Nat} :
    path ∈ node.paths ↔ (node.at? path).isSome := by
  induction path generalizing node with
  | nil => simp [paths_eq, at?]
  | cons i path ih =>
    rw [paths_eq, List.mem_cons, mem_pathsFrom_iff, at?]
    constructor
    · rintro (h | ⟨j, child, further, hchild, hfurther, h⟩)
      · cases h
      · rw [Nat.zero_add, List.cons_eq_cons] at h
        obtain ⟨rfl, rfl⟩ := h
        rw [hchild]
        exact ih.1 hfurther
    · intro h
      cases hchild : node.children[i]? with
      | none => simp [hchild] at h
      | some child =>
        rw [hchild] at h
        exact Or.inr ⟨i, child, path, hchild, ih.2 h, by rw [Nat.zero_add]⟩

mutual
theorem pairwise_paths : ∀ node : Node, node.paths.Pairwise (· < ·)
  | .rule name children => by
    refine List.pairwise_cons.2 ⟨fun path hpath => ?_, pairwise_pathsFrom 0 children⟩
    obtain ⟨i, child, further, -, -, rfl⟩ := mem_pathsFrom_iff.1 hpath
    exact List.nil_lt_cons _ _
  | .literal value offset => List.pairwise_singleton _ _

theorem pairwise_pathsFrom (place : Nat) :
    ∀ rest : List Node, (pathsFrom place rest).Pairwise (· < ·)
  | [] => List.Pairwise.nil
  | node :: rest => by
    refine List.pairwise_append.2 ⟨?_, pairwise_pathsFrom (place + 1) rest, ?_⟩
    · refine List.pairwise_map.2 ((pairwise_paths node).imp fun h => ?_)
      exact List.cons_lt_cons_iff.2 (Or.inr ⟨rfl, h⟩)
    · intro path hpath path' hpath'
      obtain ⟨further, -, rfl⟩ := List.mem_map.1 hpath
      obtain ⟨i, child, further', -, -, rfl⟩ := mem_pathsFrom_iff.1 hpath'
      exact List.cons_lt_cons_iff.2 (Or.inl (by omega))
end

mutual
theorem depths_shape (depth : Nat) : ∀ node : Node,
    node.shape.depths depth = node.paths.map (depth + ·.length)
  | .rule name children => by
    rw [shape, Shape.depths, paths, List.map_cons, depthsOfAll_shapes depth 0 children]
    rfl
  | .literal value offset => rfl

theorem depthsOfAll_shapes (depth place : Nat) : ∀ nodes : List Node,
    Shape.depthsOfAll (depth + 1) (shapes nodes) =
      (pathsFrom place nodes).map (depth + ·.length)
  | [] => rfl
  | node :: rest => by
    have hlength : ((depth + ·.length) ∘ (place :: ·) : List Nat → Nat) =
        (depth + 1 + ·.length) := by
      funext path
      simp only [Function.comp_apply, List.length_cons]
      omega
    rw [shapes, Shape.depthsOfAll, pathsFrom, List.map_append, List.map_map, hlength,
      depths_shape (depth + 1) node, depthsOfAll_shapes depth (place + 1) rest]
end

def Unbroken (root : Node) : Prop := ∀ node ∈ root.preorder, '\n' ∉ node.name.toList

instance (root : Node) : Decidable root.Unbroken :=
  inferInstanceAs (Decidable (∀ node ∈ root.preorder, '\n' ∉ node.name.toList))

end Node

namespace Drawing

mutual
def lines (rails : String) (last : Bool) : Node → List String
  | .rule name children =>
    (rails ++ (if last then "└─" else "├─") ++ " " ++ label name (Node.rule name children).value)
      :: linesOfAll (rails ++ if last then "  " else "│ ") children
  | .literal value _ =>
    [rails ++ (if last then "└─" else "├─") ++ " " ++ label Node.leafName value]

def linesOfAll (rails : String) : List Node → List String
  | [] => []
  | node :: rest => lines rails rest.isEmpty node ++ linesOfAll rails rest
end

def ended (ls : List String) : String := String.join (ls.map (· ++ "\n"))

theorem ended_cons (line : String) (ls : List String) :
    ended (line :: ls) = line ++ "\n" ++ ended ls := String.join_cons

theorem ended_append (ls others : List String) : ended (ls ++ others) = ended ls ++ ended others := by
  rw [ended, List.map_append, String.join_append]
  rfl

theorem Writer.line_out (writer : Writer) (name value : String) :
    (writer.line name value).out = writer.out ++ ended [writer.rails ++
      (if writer.last || writer.rails.isEmpty then "└─" else "├─") ++ " " ++ label name value] := by
  have hnil : ended [] = "" := rfl
  rw [ended_cons, hnil, String.append_empty]
  rfl

theorem isEmpty_append_unit (rails : String) (last : Bool) :
    (rails ++ if last then "  " else "│ ").isEmpty = false := by
  have hne : (rails ++ if last then "  " else "│ ") ≠ "" := by
    cases last <;> simp
  simpa using hne

mutual
/-- The writer comes back to the rails that it had, with the lines of the node behind what it had
drawn. Whether the last line was for a last child does not matter from then on, for each child
says so anew. -/
theorem Writer.visit_eq (writer : Writer) : ∀ node : Node,
    (writer.visit node).rails = writer.rails ∧ (writer.visit node).out = writer.out ++
      ended (lines writer.rails (writer.last || writer.rails.isEmpty) node)
  | .rule name children => by
    have hchildren := Writer.visitAll_eq
      { writer.line name (Node.rule name children).value with rails := writer.rails ++
        if writer.last || writer.rails.isEmpty then "  " else "│ " }
      (isEmpty_append_unit _ _) 0 children
    rw [Nat.zero_add] at hchildren
    constructor
    · rfl
    · rw [lines, ← List.singleton_append, ended_append, ← String.append_assoc, ← Writer.line_out]
      exact hchildren.2
  | .literal value offset => ⟨rfl, Writer.line_out writer Node.leafName value⟩

theorem Writer.visitAll_eq (writer : Writer) (hrails : writer.rails.isEmpty = false)
    (place : Nat) : ∀ rest : List Node,
    (writer.visitAll (place + rest.length) place rest).rails = writer.rails ∧
      (writer.visitAll (place + rest.length) place rest).out =
        writer.out ++ ended (linesOfAll writer.rails rest)
  | [] => ⟨rfl, String.append_empty.symm⟩
  | node :: rest => by
    have hlast : (place == place + (node :: rest).length - 1) = rest.isEmpty := by
      cases rest <;> simp
    have hnode := Writer.visit_eq { writer with last := rest.isEmpty } node
    have hrest := Writer.visitAll_eq ({ writer with last := rest.isEmpty }.visit node)
      (by rw [hnode.1]; exact hrails) (place + 1) rest
    have hcount : place + (node :: rest).length = place + 1 + rest.length := by
      rw [List.length_cons]
      omega
    rw [Writer.visitAll, hlast, hcount, linesOfAll, ended_append]
    constructor
    · rw [hrest.1, hnode.1]
    · rw [hrest.2, hnode.1, hnode.2, hrails, Bool.or_false, String.append_assoc]
end

theorem draw_eq (node : Node) : draw node = ended (lines "" true node) := by
  rw [draw, (Writer.visit_eq ⟨"", "", false⟩ node).2]
  exact String.empty_append

def rails (root : Node) (path : List Nat) : String :=
  String.join ((List.range path.length).map fun depth =>
    if root.final (path.take depth) then "  " else "│ ")

/-- The line of the place that a path leads to, with a corner for the root and for a last child
and a tee for any other. -/
def outline (root : Node) (path : List Nat) : String :=
  rails root path ++ (if root.final path then "└─" else "├─") ++ " " ++
    ((root.at? path).map fun node => label node.name node.value).getD ""

theorem rails_child (root : Node) (path : List Nat) (i : Nat) :
    rails root (path ++ [i]) = rails root path ++ if root.final path then "  " else "│ " := by
  have hunits : ∀ depth ∈ List.range path.length,
      (if root.final ((path ++ [i]).take depth) then "  " else "│ ") =
        if root.final (path.take depth) then "  " else "│ " := by
    intro depth hdepth
    rw [List.take_append_of_le_length (Nat.le_of_lt (List.mem_range.1 hdepth))]
  rw [rails, rails, List.length_append, List.length_singleton, List.range_succ, List.map_append,
    List.map_congr_left hunits]
  simp [String.join_append]

theorem outline_self {root node : Node} {path : List Nat} (h : root.at? path = some node) :
    outline root path = rails root path ++ (if root.final path then "└─" else "├─") ++ " " ++
      label node.name node.value := by
  rw [outline, h]
  rfl

mutual
/-- What stands to the left of a node is what its path says. -/
theorem lines_eq_outlines {root : Node} : ∀ (node : Node) (path : List Nat),
    root.at? path = some node →
    lines (rails root path) (root.final path) node =
      node.paths.map fun further => outline root (path ++ further)
  | .rule name children, path, h => by
    have hchildren := linesOfAll_eq_outlines [] children path h rfl
    rw [lines, Node.paths, List.map_cons, List.append_nil, outline_self h]
    exact congrArg _ hchildren
  | .literal value offset, path, h => by
    rw [lines, Node.paths, List.map_singleton, List.append_nil, outline_self h]
    rfl

theorem linesOfAll_eq_outlines {root parent : Node} : ∀ (done rest : List Node)
    (path : List Nat), root.at? path = some parent → parent.children = done ++ rest →
    linesOfAll (rails root path ++ if root.final path then "  " else "│ ") rest =
      (Node.pathsFrom done.length rest).map fun further => outline root (path ++ further)
  | done, [], path, h, hdone => rfl
  | done, node :: rest, path, h, hdone => by
    have hnode : root.at? (path ++ [done.length]) = some node := by
      rw [Node.at?_child h, hdone]
      simp
    have hfinal : root.final (path ++ [done.length]) = rest.isEmpty := by
      rw [Node.final_child h, hdone]
      cases rest <;> simp
    have hlines := lines_eq_outlines node _ hnode
    rw [rails_child, hfinal] at hlines
    have hrest := linesOfAll_eq_outlines (done ++ [node]) rest path h (by simp [hdone])
    rw [List.length_append] at hrest
    rw [linesOfAll, Node.pathsFrom, List.map_append, List.map_map, hlines]
    simp only [List.append_assoc, List.singleton_append] at hrest ⊢
    exact congrArg _ hrest
end

theorem lines_root (root : Node) : lines "" true root = root.paths.map (outline root) :=
  lines_eq_outlines root [] rfl

def isRail (c : Char) : Bool := c == ' ' || c == '│'

theorem toList_unit (last : Bool) :
    (if last then "  " else "│ ").toList = [if last then ' ' else '│', ' '] := by
  cases last <;> decide

theorem isRail_of_mem_rails {root : Node} {path : List Nat} :
    ∀ c ∈ (rails root path).toList, isRail c = true := by
  intro c hc
  rw [rails, String.toList_join, List.flatMap_map, List.mem_flatMap] at hc
  obtain ⟨depth, -, hc⟩ := hc
  rw [toList_unit] at hc
  rw [List.mem_cons, List.mem_singleton] at hc
  rcases hc with rfl | rfl
  · cases root.final (path.take depth) <;> decide
  · decide

theorem length_rails (root : Node) (path : List Nat) :
    (rails root path).toList.length = 2 * path.length := by
  rw [rails, String.toList_join, List.flatMap_map, List.length_flatMap]
  simp only [toList_unit, List.length_cons, List.length_nil]
  rw [List.map_const', List.sum_replicate_nat, List.length_range, Nat.mul_comm]

theorem toList_connector (last : Bool) :
    (if last then "└─" else "├─").toList = [if last then '└' else '├', '─'] := by
  cases last <;> decide

def indent (line : List Char) : Nat := (line.takeWhile isRail).length

theorem indent_outline (root : Node) (path : List Nat) :
    indent (outline root path).toList = 2 * path.length := by
  have hconnector : isRail (if root.final path then '└' else '├') = false := by
    cases root.final path <;> decide
  rw [outline, String.append_assoc, String.append_assoc, String.toList_append,
    String.toList_append, toList_connector, indent,
    List.takeWhile_append_of_pos isRail_of_mem_rails, List.cons_append,
    List.takeWhile_cons_of_neg (by simp [hconnector]), List.append_nil, length_rails]

theorem not_mem_label {name : String} (h : '\n' ∉ name.toList) (value : String) :
    '\n' ∉ (label name value).toList := by
  have hvisible : ∀ text, '\n' ∉ visible text := by
    intro text hmem
    obtain ⟨c, -, hc⟩ := List.mem_flatMap.1 hmem
    grind
  have hshort : ∀ cs : List Char, '\n' ∉ cs → '\n' ∉ (shorten 30 cs).toList := by
    intro cs hcs
    rw [shorten]
    split
    · have htake : '\n' ∉ cs.take 30 := fun hmem => hcs (List.mem_of_mem_take hmem)
      simpa using htake
    · simpa using hcs
  rw [label, String.toList_append, String.toList_append]
  simp [h, hshort _ (hvisible value)]

theorem not_mem_outline {root : Node} (h : root.Unbroken) {path : List Nat}
    (hpath : path ∈ root.paths) : '\n' ∉ (outline root path).toList := by
  obtain ⟨node, hnode⟩ := Option.isSome_iff_exists.1 (Node.mem_paths_iff.1 hpath)
  have hlabel := not_mem_label (h node (Node.mem_preorder_of_at? hpath hnode)) node.value
  have hrails : '\n' ∉ (rails root path).toList := fun hmem =>
    absurd (isRail_of_mem_rails _ hmem) (by decide)
  have hconnector : '\n' ∉ (if root.final path then "└─" else "├─").toList := by
    rw [toList_connector]
    cases root.final path <;> decide
  rw [outline_self hnode]
  simp [hrails, hconnector, hlabel]

theorem splitOn_lines {ls : List String} (h : ∀ line ∈ ls, '\n' ∉ line.toList) :
    (ended ls).toList.splitOn '\n' = ls.map String.toList ++ [[]] := by
  induction ls with
  | nil => simp [ended]
  | cons line ls ih =>
    have hline : ∀ c ∈ line.toList, (c == '\n') = false := by
      rintro c hc
      exact beq_false_of_ne fun heq => h line (List.mem_cons_self ..) (heq ▸ hc)
    rw [List.map_cons, List.cons_append, ← ih fun l hl => h l (List.mem_cons_of_mem _ hl),
      ended_cons]
    simp only [String.toList_append]
    have hsplit := List.splitOnP_append_cons_of_forall_mem hline '\n' (by decide)
      (ended ls).toList
    simpa [List.splitOn] using hsplit

theorem splitOn_draw {root : Node} (h : root.Unbroken) :
    (draw root).toList.splitOn '\n' =
      root.paths.map (fun path => (outline root path).toList) ++ [[]] := by
  have hlines : ∀ line ∈ root.paths.map (outline root), '\n' ∉ line.toList := by
    intro line hline
    obtain ⟨path, hpath, rfl⟩ := List.mem_map.1 hline
    exact not_mem_outline h hpath
  rw [draw_eq, lines_root, splitOn_lines hlines, List.map_map]
  rfl

/-- The units of the lines are the depths of a tree, twice over. -/
theorem shape_eq_of_draw_eq {root other : Node} (hroot : root.Unbroken) (hother : other.Unbroken)
    (h : draw other = draw root) : other.shape = root.shape := by
  have hsplit := congrArg (fun cs : String => cs.toList.splitOn '\n') h
  simp only [splitOn_draw hroot, splitOn_draw hother, List.append_left_inj] at hsplit
  have hindents := congrArg (List.map indent) hsplit
  simp only [List.map_map, Function.comp_def, indent_outline] at hindents
  have hhalves := congrArg (List.map (· / 2)) hindents
  simp only [List.map_map, Function.comp_def, Nat.mul_div_cancel_left _ Nat.two_pos] at hhalves
  have hdepths : other.shape.depths 0 = root.shape.depths 0 := by
    simpa only [Node.depths_shape, Nat.zero_add] using hhalves
  exact Shape.depths_injective hdepths

/-- A drawing has one line for each node, in document order. It begins with a unit for
each ancestor, from the root down, and a connector. The units are enough to tell how the
nodes are nested. -/
theorem draw_outlines (root : Node) (hroot : root.Unbroken) :
    (draw root).toList.splitOn '\n' =
        root.paths.map (fun path => (outline root path).toList) ++ [[]] ∧
      root.paths.map root.at? = root.preorder.map some ∧
      root.paths.Pairwise (· < ·) ∧ (∀ path, path ∈ root.paths ↔ (root.at? path).isSome) ∧
      ∀ other : Node, other.Unbroken → draw other = draw root → other.shape = root.shape :=
  ⟨splitOn_draw hroot, Node.map_at?_paths root, Node.pairwise_paths root,
    fun _ => Node.mem_paths_iff, fun _ hother h => shape_eq_of_draw_eq hroot hother h⟩

def keyedPair : Node :=
  .rule "pair" [.rule "key" [.literal "a" 0], .literal "=" 1, .rule "value" [.literal "1" 2]]

theorem draw_outlines_keyedPair :
    keyedPair.Unbroken ∧
      (draw keyedPair).toList.splitOn '\n' =
        ["└─ pair: a=1", "  ├─ key: a", "  │ └─ literal: a", "  ├─ literal: =", "  └─ value: 1",
          "    └─ literal: 1", ""].map String.toList ∧
      keyedPair.paths = [[], [0], [0, 0], [1], [2], [2, 0]] ∧
      ∀ other : Node, other.Unbroken → draw other = draw keyedPair →
        other.shape = keyedPair.shape := by
  have hunbroken : keyedPair.Unbroken := by decide
  have houtlines := draw_outlines keyedPair hunbroken
  refine ⟨hunbroken, ?_, by decide, houtlines.2.2.2.2⟩
  rw [houtlines.1]
  decide

end Drawing

end Metasyntax
