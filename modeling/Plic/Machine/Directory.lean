import Plic.Run
import Plic.Text.Utf8

/-!
# Files and paths

A machine has one directory of its own, in which programs work, and around it the directories,
programs and devices that every machine has. A path is walked from left to right, each step but the
last one into a directory.
-/

namespace Plic.Machine

structure File where
  bytes : List UInt8
  executable : Bool := false
deriving DecidableEq

/-- The files of a directory, in the order in which they came, and the directories in it. A name
goes from the directory on, with slashes between its parts. -/
structure Directory where
  files : List (String × File)
  folders : List String := []
deriving DecidableEq

/-- A file of the system that is no store of bytes. -/
inductive Device where
  /-- Always empty, and swallows what is written. -/
  | null
  | full
  /-- Never comes to an end, and swallows what is written. -/
  | endless
  /-- The streams of the program that opens it. -/
  | input | output | errors
  | terminal
deriving DecidableEq

/-- A directory of the machine, by its parts: one below the machine's own, or another one. -/
inductive Spot where
  | inside (path : List String)
  | outside (path : List String)
deriving DecidableEq

/-- What a path leads to. -/
inductive Target where
  | file (name : String)
  | folder (spot : Spot)
  | device (d : Device)
  | program (name : String)
  | record (text : String)
deriving DecidableEq

def Spot.start : Spot := .inside []

/-- The directory above another one. The root is above itself. -/
def Spot.parent : Spot → Spot
  | .inside [] => .outside ["tmp"]
  | .inside path => .inside path.dropLast
  | .outside path => .outside path.dropLast

def pathName (parts : List String) : String := "/".intercalate parts

/-! ## The system -/

namespace System

/-- The directories that every machine has. -/
def folders : List String :=
  ["boot", "dev", "dev/pts", "dev/shm", "etc", "home", "media", "mnt", "opt", "proc", "proc/self",
    "root", "run", "srv", "sys", "tmp", "usr", "usr/bin", "usr/include", "usr/lib", "usr/lib64",
    "usr/local", "usr/local/bin", "usr/local/lib", "usr/local/sbin", "usr/sbin", "usr/share",
    "usr/src", "var", "var/lib", "var/log", "var/tmp"]

/-- The directories of the root that stand for others below `usr`. -/
def links : List String := ["bin", "lib", "lib64", "sbin"]

def programs : List String :=
  ["[", "basename", "cat", "cp", "cut", "dash", "dirname", "echo", "env", "expr", "false", "grep",
    "head", "ls", "mkdir", "mv", "printenv", "printf", "pwd", "rev", "rm", "rmdir", "sed", "seq",
    "sh", "sleep", "sort", "tac", "tail", "tee", "test", "touch", "tr", "true", "uniq", "wc",
    "yes"]

/-- The beginnings of the texts that every machine has, by their names below the root. -/
def records : List (String × String) :=
  [("etc/passwd", "root:x:0:0:root:/root:/bin/bash\n"), ("etc/group", "root:x:0:\n"),
    ("etc/hosts", "127.0.0.1\tlocalhost\n")]

def devices : List (String × Device) :=
  [("dev/null", .null), ("dev/full", .full), ("dev/zero", .endless), ("dev/random", .endless),
    ("dev/urandom", .endless), ("dev/stdin", .input), ("dev/stdout", .output),
    ("dev/stderr", .errors), ("dev/tty", .terminal), ("dev/fd/0", .input), ("dev/fd/1", .output),
    ("dev/fd/2", .errors), ("proc/self/fd/0", .input), ("proc/self/fd/1", .output),
    ("proc/self/fd/2", .errors)]

def entry (path : List String) (name : String) : Option Target :=
  let full := pathName (path ++ [name])
  if path = [] ∧ name ∈ links then some (.folder (.outside ["usr", name]))
  else if full ∈ folders ∨ full ∈ ["dev/fd", "proc/self/fd"] then
    some (.folder (.outside (path ++ [name])))
  else if path = ["usr", "bin"] ∧ name ∈ programs then some (.program name)
  else ((devices.lookup full).map Target.device).or ((records.lookup full).map .record)

end System

namespace Directory

/-- No files. -/
def empty : Directory := { files := [] }

def above (name : String) : List String :=
  let parts := (name.splitOn "/").dropLast
  (List.range parts.length).map fun k => pathName (parts.take (k + 1))

def ofFiles (files : List (String × File)) : Directory where
  files := files
  folders := (files.flatMap fun f => above f.1).eraseDups

def find? (d : Directory) (name : String) : Option File := d.files.lookup name

def insert (d : Directory) (name : String) (f : File) : Directory :=
  if (d.find? name).isSome then
    { d with files := d.files.map fun e => if e.1 = name then (name, f) else e }
  else { d with files := d.files ++ [(name, f)] }

/-! ## Paths -/

def longestPath : Nat := 4095

/-- The greatest number of bytes in a part of a path. -/
def longestName : Nat := 255

def entry (d : Directory) (spot : Spot) (name : String) : Option Target :=
  match spot with
  | .outside path =>
    let full := pathName ("" :: path ++ [name])
    (System.entry path name).or ((d.find? full).map fun _ => .file full)
  | .inside path =>
    let full := pathName (path ++ [name])
    if full ∈ d.folders then some (.folder (.inside (path ++ [name])))
    else (d.find? full).map fun _ => .file full

/-- Where the last step of a path leads when there is nothing yet. The directories in which the
system shows its own state take no files. -/
def vacancy (spot : Spot) (name : String) : Except SystemError Target :=
  match spot with
  | .inside path => .ok (.file (pathName (path ++ [name])))
  | .outside path =>
    if path.head? ∈ [some "proc", some "sys"] ∨ path = ["dev", "fd"] then .error .notFound
    else .ok (.file (pathName ("" :: path ++ [name])))

def walk (d : Directory) : Spot → List String → Except SystemError Target
  | spot, [] => .ok (.folder spot)
  | spot, name :: rest =>
    if name = "." then walk d spot rest
    else if name = ".." then walk d spot.parent rest
    else if longestName < name.utf8ByteSize then .error .nameTooLong
    else
      match d.entry spot name with
      | some (.folder below) => walk d below rest
      | some target => if rest.isEmpty then .ok target else .error .notADirectory
      | none => if rest.isEmpty then vacancy spot name else .error .notFound

def steps (path : String) : List String := (path.splitOn "/").filter (· ≠ "")

def isAbsolute (path : String) : Bool := path.toList.head? = some '/'

def endsWithSlash (path : String) : Bool := path.toList.getLast? = some '/'

def checkPath (path : String) : Except SystemError Unit := do
  if '\x00' ∈ path.toList then throw .nullInName
  if path = "" then throw .notFound
  if longestPath < path.utf8ByteSize then throw .nameTooLong

def walkPath (d : Directory) (spot : Spot) (path : String) : Except SystemError Target :=
  d.walk (if isAbsolute path then .outside [] else spot) (steps path)

/-- Where a path leads from a directory. A file that is known by its whole path is found by it. -/
def locateFrom (d : Directory) (spot : Spot) (path : String) : Except SystemError Target := do
  checkPath path
  if (d.find? path).isSome then return .file path
  let target ← d.walkPath spot path
  match target with
  | .folder s => return .folder s
  | .file name =>
    if !endsWithSlash path then return target
    else if (d.find? name).isSome then throw .notADirectory
    else throw .notFound
  | _ => if endsWithSlash path then throw .notADirectory else return target

/-- Where a path leads from a directory that a file is to be written at. A path that ends with a
slash asks for a directory. -/
def placeFrom (d : Directory) (spot : Spot) (path : String) : Except SystemError Target :=
  if endsWithSlash path then do
    checkPath path
    let _ ← d.walkPath spot path
    throw .isADirectory
  else d.locateFrom spot path

def changes (earlier d : Directory) : List (String × File) :=
  d.files.filter fun e => (earlier.find? e.1).map (·.bytes) ≠ some e.2.bytes

/-- What a program of the system is read as. -/
def programBytes : List UInt8 := [0x7F, 0x45, 0x4C, 0x46, 0x02, 0x01, 0x01, 0x00, 0xFF]

/-- The directory with the file of the given name written anew. A file that was there keeps its
right to be run. -/
def overwrite (d : Directory) (name : String) (bytes : List UInt8) : Directory :=
  d.insert name ⟨bytes, ((d.find? name).map (·.executable)).getD false⟩

end Directory

end Plic.Machine
