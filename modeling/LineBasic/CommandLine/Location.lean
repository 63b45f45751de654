/-
  LineBasic.CommandLine.Location

  Where a path leads.  A path is followed part by part from the working directory,
  or from the root of all directories if it starts with a slash.  Besides these two
  and the directories above them there are the ones inside others that the system
  has; whatever has another name is a file, a device, or nothing at all, and cannot
  be passed through.
-/

namespace LineBasic.CommandLine

/-- Why a file cannot be used. -/
inductive FileFault where
  | missing
  | notDirectory
  | isDirectory
  | nameTooLong
  | noSpace
deriving DecidableEq, Repr

/-- The reason in words. -/
def FileFault.text : FileFault → String
  | missing => "No such file or directory (os error 2)"
  | notDirectory => "Not a directory (os error 20)"
  | isDirectory => "Is a directory (os error 21)"
  | nameTooLong => "File name too long (os error 36)"
  | noSpace => "No space left on device (os error 28)"

/-- A directory: the root, the one that is so many levels above the working directory, or one
    inside another. -/
inductive Folder where
  | root
  | above (levels : Nat)
  | inside (outer : Folder) (name : String)
deriving DecidableEq, Repr

namespace Folder

/-- The working directory. -/
def working : Folder := above 0

/-- The directory that a directory is in; the root is in itself. -/
def parent : Folder → Folder
  | root => root
  | above levels => above (levels + 1)
  | inside outer _ => outer

/-- The directory of the given name in a directory, if it is one of those there are. -/
def enter? (folders : List Folder) (f : Folder) (name : String) : Option Folder :=
  if inside f name ∈ folders then some (inside f name) else none

end Folder

/-- Where a file is. -/
structure Location where
  folder : Folder
  name : String
deriving DecidableEq, Repr

namespace Location

/-- The place of a file in the working directory. -/
def here (name : String) : Location := ⟨.working, name⟩

/-- A name has at most 255 bytes. -/
def fits (l : Location) : Bool := l.name.utf8ByteSize ≤ 255

end Location

/-- Something with a name that is no file: what is written to it is given up, is refused, or
    goes to where the command prints. -/
inductive Device where
  | null
  | full
  | stdout
  | stderr
deriving DecidableEq, Repr

/-- The device at a place, if there is one. -/
def Device.at? (l : Location) : Option Device :=
  if l.folder = .inside .root "dev" then
    match l.name with
    | "null" => some null
    | "full" => some full
    | "stdout" => some stdout
    | "stderr" => some stderr
    | _ => none
  else none

-- ============================================================================
-- Following paths
-- ============================================================================

/-- What a path leads to: a directory, or something with a name.  A slash behind
    the name says that it is meant to be a directory. -/
inductive Target where
  | folder (f : Folder)
  | named (l : Location) (slash : Bool)
deriving DecidableEq, Repr

section Following

variable (folders : List Folder) (holds : Location → Bool)

/-- Follows the parts of a path that come before the last one.  `holds` says where
    files are. -/
def Folder.follow (f : Folder) : List String → Except FileFault Folder
  | [] => .ok f
  | part :: parts =>
    if part = "." then Folder.follow f parts
    else if part = ".." then Folder.follow f.parent parts
    else
      match f.enter? folders part with
      | some g => Folder.follow g parts
      | none =>
        if !(Location.mk f part).fits then .error .nameTooLong
        else .error (if holds ⟨f, part⟩ then .notDirectory else .missing)

/-- Takes the last part of a path. -/
def Folder.last (f : Folder) (part : String) (slash : Bool) : Target :=
  if part = "." then .folder f
  else if part = ".." then .folder f.parent
  else
    match f.enter? folders part with
    | some g => .folder g
    | none => .named ⟨f, part⟩ slash

namespace Target

/-- Follows a path.  A path has at least one byte and at most 4095; slashes in a
    row count as one. -/
def ofPath (path : String) : Except FileFault Target :=
  if path.utf8ByteSize ≥ 4096 then .error .nameTooLong
  else if path = "" then .error .missing
  else
    let start := if path.startsWith "/" then Folder.root else .working
    let parts := ((path.toList.splitOn '/').filter (· ≠ [])).map String.ofList
    match parts.getLast? with
    | none => .ok (.folder start)
    | some part =>
      (start.follow folders holds parts.dropLast).map fun f =>
        f.last folders part (path.endsWith "/")

/-- The place of a file that is to be made or exchanged. -/
def toWrite : Target → Except FileFault Location
  | folder _ => .error .isDirectory
  | named _ true => .error .isDirectory
  | named l false => if l.fits then .ok l else .error .nameTooLong

/-- The place of a file that is there. -/
def toRead : Target → Except FileFault Location
  | folder _ => .error .isDirectory
  | named l slash =>
    if !l.fits then .error .nameTooLong
    else if !holds l then .error .missing
    else if slash then .error .notDirectory
    else .ok l

end Target

end Following

end LineBasic.CommandLine
