import SatSearch.Dimacs.Failure

/-!
# FileTree — files below a directory, by path

Paths are resolved name by name from the root of the tree. Only a directory can be gone through,
so a file with anything behind its name, even a single slash, is no file. Nothing is known
outside the tree.
-/

namespace SatSearch
namespace Command

inductive Node
  | directory
  | file (content : Except ReadError ByteArray)

/-- Files and directories by the names on the way to them. Directories on the way to an entry
exist without being listed. -/
structure FileTree where
  entries : List (List String × Node)

namespace FileTree

/-- What stands at the end of these names. -/
def node? (t : FileTree) (names : List String) : Option Node :=
  match t.entries.find? fun e => e.1 == names with
  | some e => some e.2
  | none =>
    if names.isEmpty || t.entries.any fun e => names.isPrefixOf e.1 then some .directory
    else none

/-- The longest name a directory can hold, in bytes. -/
def maxName : Nat := 255

/-- Where the way up from the root leads: a directory with nothing known in it. -/
def outside : List String := [".."]

/-- Follows names from a node. Tells the node at the end and the names on the way to it. -/
def follow (t : FileTree) (reached : List String) (node : Node) :
    List String → Except ReadError (Node × List String)
  | [] => .ok (node, reached)
  | name :: rest =>
    match node with
    | .file _ => .error .notDirectory
    | .directory =>
      if name = "" ∨ name = "." then follow t reached .directory rest
      else if name = ".." then
        let above := if reached = [] ∨ reached = outside then outside else reached.dropLast
        follow t above .directory rest
      else if maxName < name.utf8ByteSize then .error .nameTooLong
      else
        let names := reached ++ [name]
        match t.node? names with
        | none => .error .notFound
        | some node => follow t names node rest

/-- The node at a path, and the names on the way to it. -/
def resolve (t : FileTree) (path : String) : Except ReadError (Node × List String) :=
  match path.splitOn "/" with
  | "" :: rest => if rest.all (·.isEmpty) then .ok (.directory, []) else .error .notFound
  | names => t.follow [] .directory names

/-- The bytes of the file at a path. -/
def read (t : FileTree) (path : String) : Except ReadError ByteArray :=
  match t.resolve path with
  | .error e => .error e
  | .ok (.directory, _) => .error .isDirectory
  | .ok (.file content, _) => content

/-! ## Formula files -/

/-- Whether a file of this name holds a formula: a non-empty name before the extension `.cnf`. -/
def isFormulaName (name : String) : Bool :=
  name.endsWith ".cnf" && name.length != 4

/-- Whether the first path comes no later than the second one when every directory is listed by
the bytes of its names and gone through in place. -/
def inOrder : List String → List String → Bool
  | [], _ => true
  | _ :: _, [] => false
  | a :: as, b :: bs => if a = b then inOrder as bs else a < b

/-- Whether the last of these names is that of a formula file. -/
def endsInFormula (names : List String) : Bool :=
  (names.getLast?.map isFormulaName).getD false

/-- Of the files with these names the formula files, in order. -/
def formulaNames (files : List (List String)) : List (List String) :=
  (files.filter endsInFormula).mergeSort inOrder

/-- The formula files below the directory with these names, as names from there on, in order. -/
def formulasBelow (t : FileTree) (names : List String) : List (List String) :=
  formulaNames (t.entries.filterMap fun e =>
    match e.2 with
    | .directory => none
    | .file _ => if names.isPrefixOf e.1 then some (e.1.drop names.length) else none)

/-- The path of a file named from a directory on. -/
def joined (directory : String) (names : List String) : String :=
  directory ++ (if directory.endsWith "/" then "" else "/") ++ String.intercalate "/" names

end FileTree
end Command
end SatSearch
