/-!
# Parse trees

A rule that matched gives an inner node with the rule's name; a terminal gives a
leaf with the text it matched and the offset of its first byte; the bytes it spans
are those of its text. Inner nodes hold no text of their own. The nodes of a tree are listed in document order, each before
its children: once by recursion on the tree and once by a stack of nodes still to
be visited.
-/

set_option autoImplicit false

namespace Metasyntax

inductive Node where
  | rule (name : String) (children : List Node)
  | literal (value : String) (offset : Nat)
  deriving Inhabited

mutual
def Node.decEq : (a b : Node) → Decidable (a = b)
  | .rule name children, .rule name' children' =>
    if hn : name = name' then
      match Node.decEqAll children children' with
      | isTrue hc => isTrue (by rw [hn, hc])
      | isFalse hc => isFalse fun h => hc (by cases h; rfl)
    else isFalse fun h => hn (by cases h; rfl)
  | .literal value offset, .literal value' offset' =>
    if h : value = value' ∧ offset = offset' then isTrue (by rw [h.1, h.2])
    else isFalse fun e => h (by cases e; exact ⟨rfl, rfl⟩)
  | .rule _ _, .literal _ _ => isFalse nofun
  | .literal _ _, .rule _ _ => isFalse nofun

def Node.decEqAll : (xs ys : List Node) → Decidable (xs = ys)
  | [], [] => isTrue rfl
  | x :: xs, y :: ys =>
    match Node.decEq x y with
    | isTrue hx =>
      match Node.decEqAll xs ys with
      | isTrue hxs => isTrue (by rw [hx, hxs])
      | isFalse hxs => isFalse fun h => hxs (by cases h; rfl)
    | isFalse hx => isFalse fun h => hx (by cases h; rfl)
  | [], _ :: _ => isFalse nofun
  | _ :: _, [] => isFalse nofun
end

instance : DecidableEq Node := Node.decEq

def sameName (a b : String) : Bool := a.toLower == b.toLower

namespace Node

def leafName : String := "literal"

def name : Node → String
  | .rule name _ => name
  | .literal _ _ => leafName

def children : Node → List Node
  | .rule _ children => children
  | .literal _ _ => []

def isRule : Node → Bool
  | .rule _ _ => true
  | .literal _ _ => false

mutual
def value : Node → String
  | .rule _ children => valueOfAll children
  | .literal value _ => value

def valueOfAll : List Node → String
  | [] => ""
  | node :: rest => node.value ++ valueOfAll rest
end

mutual
def depth : Node → Nat
  | .rule _ children => depthOfAll children + 1
  | .literal _ _ => 1

def depthOfAll : List Node → Nat
  | [] => 0
  | node :: rest => max node.depth (depthOfAll rest)
end

mutual
def weight : Node → Nat
  | .rule _ children => weightOfAll children + 1
  | .literal _ _ => 1

def weightOfAll : List Node → Nat
  | [] => 0
  | node :: rest => node.weight + weightOfAll rest
end

def isNamed (node : Node) (name : String) : Bool := sameName node.name name

def child? (node : Node) (name : String) : Option Node := node.children.find? (·.isNamed name)

def childrenNamed (node : Node) (name : String) : List Node :=
  node.children.filter (·.isNamed name)

theorem weight_eq (node : Node) : node.weight = weightOfAll node.children + 1 := by
  cases node <;> simp [weight, children, weightOfAll]

theorem weightOfAll_append (xs ys : List Node) :
    weightOfAll (xs ++ ys) = weightOfAll xs + weightOfAll ys := by
  induction xs with
  | nil => simp [weightOfAll]
  | cons node rest ih => simp [weightOfAll, ih, Nat.add_assoc]

theorem valueOfAll_append (xs ys : List Node) :
    valueOfAll (xs ++ ys) = valueOfAll xs ++ valueOfAll ys := by
  induction xs with
  | nil => simp [valueOfAll]
  | cons node rest ih => simp [valueOfAll, ih, String.append_assoc]

def visibleEnds (text : String) : String :=
  String.join (text.toList.map fun c =>
    if c = '\r' then "\\r" else if c = '\n' then "\\n" else c.toString)

mutual
def render : Node → String
  | .rule name children =>
    "Node(name=" ++ name ++ ", children=[" ++ ", ".intercalate (renderAll children) ++ "])"
  | .literal value offset =>
    "Node(name=" ++ leafName ++ ", offset=" ++ toString offset ++ ", value=\""
      ++ visibleEnds value ++ "\")"

def renderAll : List Node → List String
  | [] => []
  | node :: rest => node.render :: renderAll rest
end

mutual
def preorder : Node → List Node
  | .rule name children => .rule name children :: preorderOfAll children
  | .literal value offset => [.literal value offset]

def preorderOfAll : List Node → List Node
  | [] => []
  | node :: rest => node.preorder ++ preorderOfAll rest
end

def visit : List Node → List Node
  | [] => []
  -- The first child comes on top.
  | node :: pending => node :: visit (node.children ++ pending)
termination_by stack => weightOfAll stack
decreasing_by
  rw [weightOfAll_append, weightOfAll, weight_eq]
  omega

def descendants (node : Node) : List Node := visit [node]

def findAll (node : Node) (name : String) : List Node := node.descendants.filter (·.isNamed name)

end Node

end Metasyntax
