import LivePreview.Path
import LivePreview.Table

/-!
# Nodes

The file tree. Every node stores the path at which it stands, so whatever moves a node has to write
the paths of everything below it anew. Children stand in the order of their names.
-/
namespace LivePreview

inductive Node where
  | file (path : Path) (content : String)
  | directory (path : Path) (children : List (String × Node))
deriving Repr

/-- The two kinds of node. -/
inductive NodeKind where
  | file
  | directory
deriving DecidableEq, Repr

namespace Node

/-- The path that the node stores. -/
def path : Node → Path
  | file path _ => path
  | directory path _ => path

def empty (path : Path) : Node := .directory path []

def kind : Node → NodeKind
  | file _ _ => .file
  | directory _ _ => .directory

def isFile (node : Node) : Bool := node.kind = .file

def isDirectory (node : Node) : Bool := node.kind = .directory

def content? : Node → Option String
  | file _ content => some content
  | directory _ _ => none

def children? : Node → Option (List (String × Node))
  | file _ _ => none
  | directory _ children => some children

/-- The child of that name. -/
def child? (node : Node) (name : String) : Option Node :=
  node.children?.bind (Table.get? name)

/-- The node at the end of the names. -/
def get? (node : Node) : List String → Option Node
  | [] => some node
  | name :: rest => (node.child? name).bind (get? · rest)

/-- A file with another content. A directory has none and stays as it is. -/
def setContent (content : String) : Node → Node
  | file path _ => file path content
  | directory path children => directory path children

/-- A directory without the child of that name. -/
def eraseChild (name : String) : Node → Node
  | file path content => file path content
  | directory path children => directory path (Table.erase name children)

mutual

/-- The node at another path, and everything below it at the path that follows from that. -/
def relocate (path : Path) : Node → Node
  | file _ content => file path content
  | directory _ children => directory path (relocateChildren path children)

def relocateChildren (path : Path) : List (String × Node) → List (String × Node)
  | [] => []
  | (name, node) :: rest => (name, node.relocate (path.child name)) :: relocateChildren path rest

end

/-- Changes the node at the end of the names, if there is one. -/
def modify (change : Node → Node) (node : Node) (names : List String) : Node :=
  match names, node with
  | [], node => change node
  | _ :: _, file path content => file path content
  | name :: rest, directory path children =>
    match Table.get? name children with
    | none => directory path children
    | some child => directory path (Table.insert name (child.modify change rest) children)

/-- Takes away the node at the end of the names, if there is one. The node itself stays. -/
def remove (node : Node) (names : List String) : Node :=
  match names.getLast? with
  | none => node
  | some name => node.modify (eraseChild name) names.dropLast

/-- Puts a node at the end of the names and makes the directories that are missing on the way.
`walked` is where the names begin. A file on the way is left alone. -/
def put (walked : Path) (node : Node) (names : List String) (new : Node) : Node :=
  match names, node with
  | [], _ => new
  | _ :: _, file path content => file path content
  | name :: rest, directory path children =>
    let walked := walked.child name
    let child := (Table.get? name children).getD (empty walked)
    directory path (Table.insert name (child.put walked rest new) children)

/-- How many of the leading names lead to the first file on the way that is not the last stop. -/
def blockedAfter? (node : Node) : List String → Option Nat
  | [] => none
  | [_] => none
  | name :: rest =>
    match node.child? name with
    | none => none
    | some (file _ _) => some 1
    | some (directory path children) =>
      (blockedAfter? (directory path children) rest).map (· + 1)

mutual

/-- The node and everything below it, depth first and children by name. -/
def nodes : Node → List Node
  | file path content => [file path content]
  | directory path children => directory path children :: childNodes children

def childNodes : List (String × Node) → List Node
  | [] => []
  | (_, node) :: rest => node.nodes ++ childNodes rest

end

mutual

/-- The same paths, kinds, names and contents. -/
def same : Node → Node → Bool
  | file path a, file path' b => path == path' && a == b
  | directory path a, directory path' b => path == path' && sameChildren a b
  | _, _ => false

def sameChildren : List (String × Node) → List (String × Node) → Bool
  | [], [] => true
  | (name, node) :: rest, (name', node') :: rest' =>
    name == name' && node.same node' && sameChildren rest rest'
  | _, _ => false

end

end Node

end LivePreview
