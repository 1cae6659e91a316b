import Stencil.Files.Disk

namespace Stencil

/-! Directory trees. What is in a tree is known by the names that lead to it. -/

inductive Tree where
  | file (content : ByteArray)
  | directory (entries : List (String × Tree))

namespace Tree

def empty : Tree := .directory []

def isFile : Tree → Bool
  | .file _ => true
  | .directory _ => false

def at? (tree : Tree) : List String → Option Tree
  | [] => some tree
  | name :: rest =>
      match tree with
      | .file _ => none
      | .directory entries =>
          match entries.lookup name with
          | none => none
          | some inner => inner.at? rest

def assign (name : String) (tree : Tree) :
    List (String × Tree) → List (String × Tree)
  | [] => [(name, tree)]
  | (other, inner) :: rest =>
      if other = name then (name, tree) :: rest
      else (other, inner) :: assign name tree rest

def put (added : Tree) : List String → Tree → Tree
  | [], _ => added
  | _ :: _, .file content => .file content
  | name :: rest, .directory entries =>
      .directory (assign name
        (put added rest ((entries.lookup name).getD empty)) entries)

def discard : List String → Tree → Tree
  | [], tree => tree
  | _ :: _, .file content => .file content
  | [name], .directory entries =>
      .directory (entries.filter fun entry => entry.1 != name)
  | name :: rest, .directory entries =>
      match entries.lookup name with
      | none => .directory entries
      | some inner => .directory (assign name (discard rest inner) entries)

mutual
def visits (path : String) : Tree → List Visit
  | .file _ => [⟨path, true⟩]
  | .directory entries => ⟨path, false⟩ :: visitsIn path entries

def visitsIn (path : String) : List (String × Tree) → List Visit
  | [] => []
  | (name, inner) :: rest =>
      inner.visits (Path.join path name) ++ visitsIn path rest
end

mutual
def fileNames : Tree → List (List String)
  | .file _ => [[]]
  | .directory entries => fileNamesIn entries

def fileNamesIn : List (String × Tree) → List (List String)
  | [] => []
  | (name, inner) :: rest =>
      inner.fileNames.map (name :: ·) ++ fileNamesIn rest
end

end Tree

end Stencil
