import NodeRules.Text.Basic

namespace NodeRules

inductive FileFault
  | missing
  | isDirectory
  | notDirectory
  | fileInTheWay
  | nameTooLong
  | nulCharacter
  | notText
  | other (text : String)
deriving DecidableEq

def FileFault.message : FileFault → String
  | missing => "No such file or directory (os error 2)"
  | isDirectory => "Is a directory (os error 21)"
  | notDirectory => "Not a directory (os error 20)"
  | fileInTheWay => "File exists (os error 17)"
  | nameTooLong => "File name too long (os error 36)"
  | nulCharacter => "file name contained an unexpected NUL byte"
  | notText => "stream did not contain valid UTF-8"
  | other text => text

def textOf (bytes : ByteArray) : Except FileFault String :=
  match String.fromUTF8? bytes with
  | some text => .ok text
  | none => .error .notText

/-- A place that keeps files, as far as a command needs it. Writing makes the directories that the
path goes through. -/
structure FileAccess (m : Type → Type) where
  read : (path : String) → m (Except FileFault String)
  write : (path content : String) → m (Except FileFault Unit)

namespace Path

def split : List Char → List (List Char)
  | [] => [[]]
  | c :: cs =>
    if c = '/' then [] :: split cs
    else
      match split cs with
      | [] => [[c]]
      | part :: parts => (c :: part) :: parts

def parts (path : String) : List String := (split path.toList).map String.ofList

def maxNameBytes : Nat := 255

def maxBytes : Nat := 4095

def isLongName (part : String) : Bool := maxNameBytes < Text.byteLength part.toList

def fault? (path : String) : Option FileFault :=
  if '\x00' ∈ path.toList then some .nulCharacter
  else if maxBytes < Text.byteLength path.toList then some .nameTooLong
  else none

def isAbsolute (path : String) : Bool := path.toList.head? == some '/'

/-- The path of `path` as seen from `directory`. -/
def join (directory path : String) : String :=
  if isAbsolute path || directory == "" then path
  else if directory.toList.getLast? == some '/' then directory ++ path
  else directory ++ "/" ++ path

def parent (path : String) : String := String.intercalate "/" (parts path).dropLast

end Path

namespace Disk

inductive Item
  | directory
  | file (bytes : Array UInt8)
deriving DecidableEq

abbrev Location := List String

end Disk

structure Disk where
  workDirectory : Disk.Location
  items : List (Disk.Location × Disk.Item)

namespace Disk

def item? (d : Disk) (l : Location) : Option Item :=
  if l.isEmpty then some .directory else d.items.lookup l

def put (d : Disk) (l : Location) (item : Item) : Disk :=
  { d with items := (l, item) :: d.items.filter (·.1 != l) }

/-- Follows the parts of a path. Every location that the path goes on from has to be a directory,
and only then is the name behind it looked at. -/
def follow (d : Disk) (l : Location) : List String → Except FileFault Location
  | [] => .ok l
  | part :: parts =>
    match d.item? l with
    | none => .error .missing
    | some (.file _) => .error .notDirectory
    | some .directory =>
      if part = "" ∨ part = "." then follow d l parts
      else if part = ".." then follow d l.dropLast parts
      else if Path.isLongName part then .error .nameTooLong
      else follow d (l ++ [part]) parts

def start (d : Disk) (path : String) : Location :=
  if Path.isAbsolute path then [] else d.workDirectory

def locate (d : Disk) (path : String) : Except FileFault Location :=
  if path = "" then .error .missing
  else
    match Path.fault? path with
    | some e => .error e
    | none => d.follow (d.start path) (Path.parts path)

def read (d : Disk) (path : String) : Except FileFault String := do
  match d.item? (← d.locate path) with
  | none => throw .missing
  | some .directory => throw .isDirectory
  | some (.file bytes) => textOf ⟨bytes⟩

/-- Makes one directory, in a directory that is already there. The parts are given last first. -/
def makeDirectory (d : Disk) (l : Location) : List String → Except FileFault Disk
  | [] => .error .fileInTheWay
  | part :: above => do
    let l ← d.follow l above.reverse
    match d.item? l with
    | none => throw .missing
    | some (.file _) => throw .notDirectory
    | some .directory =>
      if Path.isLongName part then throw .nameTooLong
      else if part = ".." ∨ (d.item? (l ++ [part])).isSome then throw .fileInTheWay
      else return d.put (l ++ [part]) .directory

def isDirectory (d : Disk) (l : Location) (parts : List String) : Bool :=
  match d.follow l parts with
  | .ok l => d.item? l == some .directory
  | .error _ => false

/-- Makes a directory and, where they are missing, those above it. The parts are given last
first. -/
def makeDirectories (d : Disk) (l : Location) : List String → Except FileFault Unit × Disk
  | [] => (.ok (), d)
  | part :: above =>
    let settle (d : Disk) (e : FileFault) : Except FileFault Unit × Disk :=
      (if d.isDirectory l (part :: above).reverse then .ok () else .error e, d)
    match d.makeDirectory l (part :: above) with
    | .ok d => (.ok (), d)
    | .error .missing =>
      match makeDirectories d l above with
      | (.error e, d) => (.error e, d)
      | (.ok (), d) =>
        match d.makeDirectory l (part :: above) with
        | .ok d => (.ok (), d)
        | .error e => settle d e
    | .error e => settle d e

/-- The named parts of the directory of a path, last first. -/
def directoryParts (path : String) : List String :=
  ((Path.parts path).dropLast.filter fun part => part != "" && part != ".").reverse

def makeParent (d : Disk) (path : String) : Except FileFault Unit × Disk :=
  match Path.fault? (Path.parent path) with
  | some e => (.error e, d)
  | none => d.makeDirectories (d.start path) (directoryParts path)

def writeAt (d : Disk) (l : Location) (content : String) : Except FileFault Unit × Disk :=
  if d.item? l = some .directory then (.error .isDirectory, d)
  else (.ok (), d.put l (.file content.toUTF8.data))

def write (d : Disk) (path content : String) : Except FileFault Unit × Disk :=
  match d.makeParent path with
  | (.error e, d) => (.error e, d)
  | (.ok (), d) =>
    match d.locate path with
    | .error e => (.error e, d)
    | .ok l => d.writeAt l content

def access : FileAccess (StateM Disk) where
  read path := fun d => (d.read path, d)
  write path content := fun d => d.write path content

end Disk

end NodeRules
