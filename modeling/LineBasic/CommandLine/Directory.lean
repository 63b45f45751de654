/-
  LineBasic.CommandLine.Directory

  Files held in memory, on a disk that may run full, as a host for the command.
-/

import LineBasic.CommandLine.Location
import LineBasic.CommandLine.Run

namespace LineBasic.CommandLine

/-- Files by place, the directories inside others that there are, and how many more
    bytes the disk takes, without bound when absent. -/
structure Directory where
  files : List (Location × ByteArray)
  folders : List Folder
  free : Option Nat

namespace Directory

/-- The directories that systems have at their root. -/
def usualFolders : List Folder :=
  ["bin", "boot", "dev", "etc", "lib", "media", "mnt", "opt", "run", "sbin", "srv", "tmp", "usr",
    "var"].map (.inside .root)

/-- A working directory with files of the given names and nothing else, on a usual system with
    room for everything. -/
def ofFiles (files : List (String × ByteArray)) : Directory :=
  ⟨files.map fun (name, content) => (.here name, content), usualFolders, none⟩

/-- The files in the working directory. -/
def listing (d : Directory) : List (String × ByteArray) :=
  d.files.filterMap fun (l, content) =>
    if l.folder = .working then some (l.name, content) else none

/-- The content of a file. -/
def get? (d : Directory) (l : Location) : Option ByteArray := d.files.lookup l

/-- Whether there is a file or a device at a place. -/
def holds (d : Directory) (l : Location) : Bool := (d.get? l).isSome || (Device.at? l).isSome

/-- The directory with one file made or exchanged. -/
def set (d : Directory) (l : Location) (content : ByteArray) : Directory :=
  if (d.get? l).isSome then
    { d with files := d.files.map fun (k, c) => if k = l then (k, content) else (k, c) }
  else { d with files := d.files ++ [(l, content)] }

/-- Gives up the content of a file and writes as much of a new one as there is space for; tells
    whether that was all of it.  The file is made if it is not there. -/
def put (d : Directory) (l : Location) (content : ByteArray) : Directory × Bool :=
  match d.free with
  | none => (d.set l content, true)
  | some free =>
    let room := free + ((d.get? l).getD .empty).size
    ({ d.set l (content.extract 0 room) with free := some (room - content.size) },
      content.size ≤ room)

/-- The place that writing to a path leads to. -/
def locate (d : Directory) (path : String) : Except FileFault Location :=
  (Target.ofPath d.folders d.holds path).bind Target.toWrite

/-- Opens a file and reads it.  A directory can be opened, but not read; the null device is
    empty, and the others give nothing that ends. -/
def read (d : Directory) (path : String) : Except FileFault (Except FileFault ByteArray) :=
  match (Target.ofPath d.folders d.holds path).bind (Target.toRead d.holds) with
  | .error .isDirectory => .ok (.error .isDirectory)
  | .error fault => .error fault
  | .ok l =>
    match Device.at? l, d.get? l with
    | some .null, _ => .ok (.ok .empty)
    | none, some content => .ok (.ok content)
    | _, _ => .error .missing

end Directory

/-- A directory, what can be read from standard input, and what has been printed and
    told to the user. -/
structure Session where
  directory : Directory
  stdin : ByteArray
  printed : String
  told : String

namespace Session

/-- A session before anything has been printed. -/
def start (files : List (String × ByteArray)) (stdin : ByteArray) : Session :=
  ⟨.ofFiles files, stdin, "", ""⟩

/-- The session with a file made or exchanged, as far as there is space. -/
def put (s : Session) (l : Location) (content : ByteArray) : Session :=
  { s with directory := (s.directory.put l content).1 }

/-- Hands bytes to a device. -/
def send (s : Session) (bytes : ByteArray) : Device → Session
  | .null => s
  | .full => s
  | .stdout => { s with printed := s.printed ++ (String.fromUTF8? bytes).getD "" }
  | .stderr => { s with told := s.told ++ (String.fromUTF8? bytes).getD "" }

/-- What takes the lines of a journal that goes to a device.  Lines are gathered before they are
    handed on, so the device that refuses everything is found out only after a while. -/
def deviceSink : Device → Sink
  | .full => .bounded 8192 FileFault.noSpace.text
  | _ => .unbounded

/-- Makes an empty file, or opens a device. -/
def create (s : Session) (path : String) : Except String Sink × Session :=
  match s.directory.locate path with
  | .error fault => (.error fault.text, s)
  | .ok l =>
    match Device.at? l with
    | some device => (.ok (deviceSink device), s)
    | none => (.ok .unbounded, s.put l .empty)

/-- Writes over the first bytes of a file, or to a device. -/
def overwrite (s : Session) (path : String) (bytes : ByteArray) : Session :=
  match s.directory.locate path with
  | .error _ => s
  | .ok l =>
    match Device.at? l with
    | some device => s.send bytes device
    | none =>
      let old := (s.directory.get? l).getD .empty
      s.put l (bytes ++ old.extract bytes.size old.size)

/-- Makes a file of the given bytes, or hands them to a device. -/
def write (s : Session) (path : String) (bytes : ByteArray) : Except String Unit × Session :=
  match s.directory.locate path with
  | .error fault => (.error fault.text, s)
  | .ok l =>
    match Device.at? l with
    | some .full => (.error FileFault.noSpace.text, s)
    | some device => (.ok (), s.send bytes device)
    | none =>
      if (s.directory.put l bytes).2 then (.ok (), s.put l bytes)
      else (.error FileFault.noSpace.text, s.put l bytes)

instance : Host (StateM Session) where
  create path := fun s => s.create path
  read
    | .stdin => fun s => (.ok (.ok s.stdin), s)
    | .file path => fun s =>
      (((s.directory.read path).mapError FileFault.text).map (·.mapError FileFault.text), s)
  overwrite path bytes := fun s => ((), s.overwrite path bytes)
  write path bytes := fun s => s.write path bytes
  print text := fun s => ((), { s with printed := s.printed ++ text })
  tell line := fun s => ((), { s with told := s.told ++ line ++ "\n" })

/-- Runs the command with the given arguments; the result is the exit code. -/
def run (s : Session) (args : List String) : Nat × Session :=
  (CommandLine.run args : StateM Session Nat).run s

end Session

end LineBasic.CommandLine
