import Stencil.Files.Fault
import Stencil.Text.Search

namespace Stencil.Path

open Text

/-! Paths as they are written, with slashes between their segments. -/

inductive Step where
  | down (name : String)
  | up
  deriving DecidableEq, Repr

def segments (path : String) : List String :=
  (split '/' path.toList).map String.ofList

def isAbsolute (path : String) : Bool :=
  path.toList.head? == some '/'

def step? (segment : String) : Option Step :=
  if segment = "" ∨ segment = "." then none
  else if segment = ".." then some .up
  else some (.down segment)

/-- The steps of a path, from the root or from the working directory. Empty
segments and single dots stay where they are. -/
def steps (path : String) : List Step :=
  (segments path).filterMap step?

inductive Ending where
  | name
  | slash
  | dots
  deriving DecidableEq, Repr

def ending (path : String) : Ending :=
  match (segments path).reverse with
  | [] => .dots
  | last :: before =>
      match (last :: before).find? fun segment => segment != "" with
      | none => .dots
      | some segment =>
          if segment = "." ∨ segment = ".." then .dots
          else if last = "" then .slash
          else .name

def limit : Nat := 4095

def nameLimit : Nat := 255

def fault? (path : String) : Option Fault :=
  if path.toList.contains '\x00' then some .nul
  else if path.isEmpty then some .missing
  else if limit < path.utf8ByteSize then some .nameTooLong
  else none

def join (path name : String) : String :=
  if path.toList.getLast? = some '/' then path ++ name
  else path ++ "/" ++ name

/-- Drops the segments that stay where they are from the end of a path, which
is given backwards. A dot that the path begins with is kept. -/
def dropIdle : List String → List String
  | [] => []
  | segment :: rest =>
      if segment = "" ∨ (segment = "." ∧ rest ≠ []) then dropIdle rest
      else segment :: rest

/-- The path without its last name: the root when only that is left of it, and
a dot when nothing is. -/
def parent (path : String) : String :=
  match dropIdle (segments path).reverse with
  | [] => "."
  | _ :: before =>
      match dropIdle before with
      | [] => if isAbsolute path then "/" else "."
      | kept => "/".intercalate kept.reverse

/-- A part of a path: the slash or the dot that it begins with, a step out of a
directory, or a name. -/
inductive Part where
  | root
  | here
  | up
  | name (text : String)
  deriving DecidableEq, Repr

namespace Part

def text : Part → String
  | .root => "/"
  | .here => "."
  | .up => ".."
  | .name text => text

def rank : Part → Nat
  | .root => 0
  | .here => 1
  | .up => 2
  | .name _ => 3

def isBefore : Part → Part → Bool
  | .name left, .name right => decide (left < right)
  | left, right => decide (left.rank < right.rank)

def precede : List Part → List Part → Bool
  | [], _ => true
  | _ :: _, [] => false
  | left :: lefts, right :: rights =>
      if left = right then precede lefts rights else left.isBefore right

end Part

def Step.part : Step → Part
  | .up => .up
  | .down name => .name name

def lead (path : String) : List Part :=
  if isAbsolute path then [.root]
  else if (segments path).head? = some "." then [.here]
  else []

/-- The parts of a path. Slashes in a row are one, and a dot behind the
beginning is nothing. -/
def parts (path : String) : List Part :=
  lead path ++ (steps path).map Step.part

def precedes (left right : String) : Bool :=
  Part.precede (parts left) (parts right)

def lastName? (path : String) : Option String :=
  match (parts path).getLast? with
  | some (.name text) => some text
  | _ => none

/-- What stands behind the last dot of a name, unless nothing stands before
that dot. -/
def suffix? (name : String) : Option String :=
  match (split '.' name.toList).reverse with
  | [] => none
  | [_] => none
  | last :: before =>
      if before = [[]] then none else some (String.ofList last)

def extension? (path : String) : Option String :=
  (lastName? path).bind suffix?

/-- The path from a place on that it leads through, or else the path. -/
def relative (base path : String) : String :=
  if (parts base).isPrefixOf (parts path) then
    "/".intercalate (((parts path).drop (parts base).length).map Part.text)
  else path

end Stencil.Path
