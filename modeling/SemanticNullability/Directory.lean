import SemanticNullability.Loading
import SemanticNullability.Registry
/-!
# A directory in memory

A working directory with files and directories in it, as a value. Paths are resolved as an operating
system does: a component needs a directory to stand in, `.` stays, `..` goes up, and a slash at the
end asks for a directory. Of what lies outside there are the directories above, the ones that every
file system has at its root, and the null device.
-/
namespace SemanticNullability

/-- What a path leads to. -/
inductive Node where
  | file (bytes : ByteArray)
  | directory
  /-- It takes whatever is written and holds nothing. -/
  | nullDevice

/-- What a place is counted from. -/
inductive Origin where
  | workingDirectory
  | root
  deriving DecidableEq, Inhabited

/-- A place, by the names that lead to it. -/
structure Place where
  origin : Origin
  names : List String
  deriving DecidableEq, Inhabited

namespace Place

def path (p : Place) : String :=
  match p.origin with
  | .workingDirectory => "/".intercalate p.names
  | .root => "/" ++ "/".intercalate p.names

/-- The place one directory up; the root is above itself. -/
def up (p : Place) : Place :=
  match p.origin with
  | .workingDirectory =>
    if p.names.all (· == "..") then { p with names := p.names ++ [".."] }
    else { p with names := p.names.dropLast }
  | .root => { p with names := p.names.dropLast }

def child (p : Place) (name : String) : Place := { p with names := p.names ++ [name] }

/-- The longest name that a place can have, in bytes. -/
def maxNameLength : Nat := 255

/-- Whether the name of a place is too long for it to exist. -/
def isTooLong (p : Place) : Bool :=
  match p.names.getLast? with
  | none => false
  | some name => decide (maxNameLength < name.utf8ByteSize)

end Place

/-- A working directory. What lies in it is registered under its path from here, with slashes, and
what is written elsewhere under its path from the root. -/
structure Directory where
  nodes : Registry Node

namespace Directory

def empty : Directory := ⟨∅⟩

/-- The directories at the root of every file system. -/
def rootDirectories : List String :=
  ["bin", "boot", "dev", "etc", "home", "lib", "media", "mnt", "opt", "proc", "root", "run", "sbin",
    "srv", "sys", "tmp", "usr", "var"]

/-- What there is apart from the content of the working directory. -/
def outside? : Place → Option Node
  | ⟨.workingDirectory, names⟩ => if names.all (· == "..") then some .directory else none
  | ⟨.root, []⟩ => some .directory
  | ⟨.root, [name]⟩ => if rootDirectories.contains name then some .directory else none
  | ⟨.root, names⟩ => if names = ["dev", "null"] then some .nullDevice else none

def node (d : Directory) (place : Place) : Except SystemError Node :=
  if place.isTooLong then .error .nameTooLong
  else
    match outside? place with
    | some node => .ok node
    | none =>
      match d.nodes.find? place.path with
      | some node => .ok node
      | none => .error .notFound

/-- The place that a component of a path leads to. -/
def step (d : Directory) (place : Place) (component : String) : Except SystemError Place := do
  match ← d.node place with
  | .file _ => .error .notDirectory
  | .nullDevice => .error .notDirectory
  | .directory =>
    if component = "." then return place
    else if component = ".." then return place.up
    else return place.child component

/-- The names between the slashes of a path. -/
def components (path : List Char) : List (List Char) :=
  path.foldr
    (fun c names =>
      if c = '/' then [] :: names
      else
        match names with
        | [] => [[c]]
        | name :: rest => (c :: name) :: rest)
    [[]]

/-- Whether a path asks for a directory. -/
def endsInSlash (path : String) : Bool := path.toList.getLast? == some '/'

/-- The longest path that is resolved, in bytes. -/
def maxPathLength : Nat := 4095

/-- The place that a path starts from. -/
def start (path : List Char) : Place :=
  ⟨if path.head? = some '/' then .root else .workingDirectory, []⟩

/-- The place that a path leads to. An empty path leads nowhere. -/
def resolve (d : Directory) (path : String) : Except SystemError Place :=
  if path.isEmpty then .error .notFound
  else if maxPathLength < path.utf8ByteSize then .error .nameTooLong
  else
    let cs := path.toList
    ((components cs).filter (!·.isEmpty)).foldlM (fun p c => d.step p (String.ofList c)) (start cs)

/-- Reads a file. A path with a fault on the way counts as leading to nothing. -/
def read (d : Directory) (path : String) : ReadResult :=
  match d.resolve path >>= d.node with
  | .error _ => .absent
  | .ok .directory => .refused .isDirectory
  | .ok .nullDevice => if endsInSlash path then .absent else .content .empty
  | .ok (.file bytes) => if endsInSlash path then .absent else .content bytes

/-- Puts a file at a place, a new one or instead of an old one. -/
def put (d : Directory) (place : Place) (text : String) : Directory :=
  ⟨d.nodes.insert place.path (.file text.toUTF8)⟩

def write (d : Directory) (path text : String) : Except SystemError Directory := do
  let place ← d.resolve path
  if endsInSlash path then .error .isDirectory
  else
    match d.node place with
    | .ok .directory => .error .isDirectory
    | .ok .nullDevice => return d
    | .ok (.file _) => return d.put place text
    | .error .notFound => return d.put place text
    | .error e => .error e

/-- The files of a directory as a program reaches them. -/
def access : FileAccess (StateM Directory) where
  read path := do return (← get).read path
  write path text := do
    match (← get).write path text with
    | .ok d =>
      set d
      return .ok ()
    | .error e => return .error e

end Directory

end SemanticNullability
