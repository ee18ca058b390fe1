import Metasyntax.Node
import Metasyntax.Text.Quoted

/-!
# Checking trees

Expectations about a tree, which are held against it one after the other until
one of them fails.
-/

set_option autoImplicit false

namespace Metasyntax

inductive Check where
  | name (expected : String)
  | value (expected : String)
  | childCount (expected : Nat)
  | child (index : Nat) (checks : List Check)
  | childNamed (name : String) (checks : List Check)
  | descendantCount (name : String) (expected : Nat)
  deriving Inhabited

inductive Violation where
  | name (expected found : String)
  | value (expected found : String)
  | childCount (expected : Nat) (names : List String)
  | childIndex (index count : Nat)
  | childNamed (name : String) (names : List String)
  | descendantCount (name : String) (expected found : Nat)
  deriving DecidableEq, Repr

structure CheckFailure where
  place : String
  violation : Violation
  deriving DecidableEq, Repr

namespace CheckFailure

def unequal (message found expected : String) : String :=
  "assertion \x60left == right\x60 failed: " ++ message ++ "\n  left: " ++ found ++ "\n right: "
    ++ expected

def message (failure : CheckFailure) : String :=
  let here (text : String) := failure.place ++ ": " ++ text
  match failure.violation with
  | .name expected found =>
    here ("Expected node named '" ++ expected ++ "', found '" ++ found ++ "'")
  | .value expected found =>
    let expected := Quoted.encode expected
    let found := Quoted.encode found
    unequal (here ("Expected value " ++ expected ++ ", found " ++ found)) found expected
  | .childCount expected names =>
    let expected := toString expected
    let found := toString names.length
    unequal
      (here ("Expected " ++ expected ++ " children, found " ++ found ++ ": ["
        ++ ", ".intercalate names ++ "]"))
      found expected
  | .childIndex index count =>
    here ("Child index " ++ toString index ++ " out of bounds (node has " ++ toString count
      ++ " children)")
  | .childNamed name names =>
    here ("No child named '" ++ name ++ "' among [" ++ ", ".intercalate names ++ "]")
  | .descendantCount name expected found =>
    let expected := toString expected
    let found := toString found
    unequal
      (here ("Expected " ++ expected ++ " '" ++ name ++ "' nodes in subtree, found " ++ found))
      found expected

end CheckFailure

namespace Check

mutual
def run (node : Node) (place : String) : Check → Except CheckFailure Unit
  | .name expected =>
    if node.isNamed expected then .ok () else .error ⟨place, .name expected node.name⟩
  | .value expected =>
    if node.value = expected then .ok () else .error ⟨place, .value expected node.value⟩
  | .childCount expected =>
    if node.children.length = expected then .ok ()
    else .error ⟨place, .childCount expected (node.children.map (·.name))⟩
  | .child index checks =>
    match node.children[index]? with
    | some below =>
      runAll below (place ++ ":" ++ below.name ++ "[" ++ toString index ++ "]") checks
    | none => .error ⟨place, .childIndex index node.children.length⟩
  | .childNamed wanted checks =>
    match node.child? wanted with
    | some below => runAll below (place ++ ":" ++ wanted) checks
    | none => .error ⟨place, .childNamed wanted (node.children.map (·.name))⟩
  | .descendantCount wanted expected =>
    let found := (node.findAll wanted).length
    if found = expected then .ok () else .error ⟨place, .descendantCount wanted expected found⟩

def runAll (node : Node) (place : String) : List Check → Except CheckFailure Unit
  | [] => .ok ()
  | check :: rest =>
    match run node place check with
    | .ok () => runAll node place rest
    | .error failure => .error failure
end

end Check

def Node.check (node : Node) (checks : List Check) : Except CheckFailure Unit :=
  Check.runAll node node.name checks

end Metasyntax
