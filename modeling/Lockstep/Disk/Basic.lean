import Std.Data.ExtTreeMap

/-!
A file system as far as programs can see it: directories and files found by path names.

A path name is walked component by component from the working directory, or from the root if it
starts with a slash. Each component must be looked up in a directory, so `f/..` fails if `f` is a
file. Files never disappear and only grow at their end.
-/

namespace Lockstep

/-- What stands at a place of the file system. -/
inductive Node where
  | directory
  | file (content : ByteArray)

/-- A place of the file system: the components on the way from the root. -/
abbrev Place := List String

/-- A file system with a working directory. -/
structure Disk where
  nodes : Std.ExtTreeMap Place Node compare
  cwd : Place

/-- Why the file system refuses a request. -/
inductive DiskFault where
  | notFound
  | notDirectory
  | isDirectory
  | nameTooLong
  | nulInName
  | notText
deriving DecidableEq, Repr

namespace DiskFault

/-- The wording that the system gives to a refusal. -/
def message : DiskFault → String
  | notFound => "No such file or directory (os error 2)"
  | notDirectory => "Not a directory (os error 20)"
  | isDirectory => "Is a directory (os error 21)"
  | nameTooLong => "File name too long (os error 36)"
  | nulInName => "file name contained an unexpected NUL byte"
  | notText => "stream did not contain valid UTF-8"

end DiskFault

namespace Disk

/-- The characters between the slashes of a name; there is one piece more than there are slashes. -/
def splitSlash : List Char → List (List Char)
  | [] => [[]]
  | c :: cs =>
    if c = '/' then [] :: splitSlash cs
    else match splitSlash cs with
      | [] => [[c]]
      | p :: ps => (c :: p) :: ps

/-- The components of a path name. -/
def components (name : String) : List String :=
  (splitSlash name.toList).map String.ofList

/-- The longest component that a directory can hold, in bytes. -/
def maxComponent : Nat := 255

/-- The longest path name that the system takes, in bytes. -/
def maxName : Nat := 4095

/-- Refuses names that are no path names at all. -/
def checkName (name : String) : Except DiskFault Unit :=
  if name.toList.contains '\x00' then .error .nulInName
  else if maxName < name.utf8ByteSize then .error .nameTooLong
  else if name = "" then .error .notFound
  else .ok ()

/-- Where the walk of a path name starts. -/
def origin (d : Disk) (name : String) : Place :=
  if name.toList.head? = some '/' then [] else d.cwd

/-- Whether a directory stands at a place. -/
def isDirectory (d : Disk) (p : Place) : Bool :=
  match d.nodes[p]? with
  | some .directory => true
  | _ => false

/-- Goes from a place along some components. An empty component stands for the place itself, as after
a slash at the end of a name. -/
def walk (d : Disk) (here : Place) : List String → Except DiskFault Place
  | [] => .ok here
  | c :: rest =>
    if !d.isDirectory here then .error .notDirectory
    else if c = "" ∨ c = "." then d.walk here rest
    else if c = ".." then d.walk here.dropLast rest
    else if maxComponent < c.utf8ByteSize then .error .nameTooLong
    else if here ++ [c] ∈ d.nodes then d.walk (here ++ [c]) rest
    else .error .notFound

/-- The place that a path name denotes. -/
def resolve (d : Disk) (name : String) : Except DiskFault Place := do
  checkName name
  d.walk (d.origin name) (components name)

/-- The bytes of a file from an offset on. -/
def readFrom (d : Disk) (p : Place) (offset : Nat) : Except DiskFault (List UInt8) :=
  match d.nodes[p]? with
  | some (.file content) => .ok (content.data.toList.drop offset)
  | some .directory => .error .isDirectory
  | none => .error .notFound

/-- The place and the content of the file to write when the last component of a name is `c` and the
components before it led to `here`. -/
def fileAt (d : Disk) (here : Place) (c : String) : Except DiskFault (Place × ByteArray) :=
  if !d.isDirectory here then .error .notDirectory
  else if c = "." ∨ c = ".." then .error .isDirectory
  else if maxComponent < c.utf8ByteSize then .error .nameTooLong
  else match d.nodes[here ++ [c]]? with
    | some .directory => .error .isDirectory
    | some (.file content) => .ok (here ++ [c], content)
    | none => .ok (here ++ [c], .empty)

/-- The file to write under a path name. The name must not end in a slash, also if what stands before
it is missing. -/
def target (d : Disk) (name : String) : Except DiskFault (Place × ByteArray) := do
  checkName name
  let parts := (components name).reverse
  match parts.dropWhile (· = "") with
  | [] => .error .isDirectory
  | c :: before =>
    let here ← d.walk (d.origin name) before.reverse
    if parts.head? = some "" ∧ d.isDirectory here then .error .isDirectory
    else d.fileAt here c

/-- Appends to the file with the given name, which is created if it is missing. -/
def append (d : Disk) (name : String) (bytes : ByteArray) : Except DiskFault Disk := do
  let (place, content) ← d.target name
  return { d with nodes := d.nodes.insert place (.file (content ++ bytes)) }

/-- A file system that holds the given working directory and nothing else. -/
def blank (cwd : Place) : Disk where
  nodes := (List.range (cwd.length + 1)).foldl
    (fun nodes n => nodes.insert (cwd.take n) .directory) ∅
  cwd := cwd

/-- The place that a path name spells, whatever stands on the way to it. -/
def placeOf (d : Disk) (name : String) : Place :=
  (components name).foldl (fun here c =>
    if c = "" ∨ c = "." then here else if c = ".." then here.dropLast else here ++ [c])
    (d.origin name)

/-- Puts a node under a path name, with directories on the way to it. -/
def put (d : Disk) (name : String) (node : Node) : Disk :=
  let place := d.placeOf name
  let way := (List.range place.length).foldl
    (fun nodes n => nodes.insertIfNew (place.take n) .directory) d.nodes
  { d with nodes := way.insert place node }

/-- The content of the file with the given name. -/
def content? (d : Disk) (name : String) : Option ByteArray :=
  match d.resolve name with
  | .ok place => match d.nodes[place]? with
    | some (.file content) => some content
    | _ => none
  | .error _ => none

end Disk

end Lockstep
