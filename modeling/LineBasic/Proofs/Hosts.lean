/-
  LineBasic.Proofs.Hosts

  What the command may rely on.  A host is any state with the six operations; what can be
  seen of its states are the files, where paths lead, standard input and what has been
  printed (`View`).  `Documented` lists what the operations are documented to do, each as
  a law with a name, and no more than that: opening a file for writing empties it or is
  refused, a write that fails may have begun, and nothing is promised about devices.

  `Confined` says what an action changes at most, and has one rule for each way to make an
  action; what a run does before it delivers code is put together from these rules.
-/

import LineBasic.CommandLine.Run

namespace LineBasic.CommandLine

-- ============================================================================
-- What can be seen of a host
-- ============================================================================

/-- What a path leads to: nothing that could be written to, a file that is there or could be
    made, or a device, such as the standard output of the command itself. -/
inductive Lead (File : Type) where
  | nowhere
  | file (f : File)
  | device
deriving DecidableEq, Repr

/-- What can be seen of the states of a host. -/
structure View (σ File : Type) where
  leads : σ → String → Lead File
  /-- The content of a file, if it is there. -/
  content : σ → File → Option ByteArray
  /-- What can be read from standard input. -/
  stdin : σ → ByteArray
  /-- What has been printed. -/
  printed : σ → String

namespace View

variable {σ File : Type} {v : View σ File}

/-- From one state to another nothing is printed, and no file changes but those that may be
    touched. -/
structure Spares (v : View σ File) (touched : File → Prop) (s s' : σ) : Prop where
  leads : v.leads s' = v.leads s
  stdin : v.stdin s' = v.stdin s
  printed : v.printed s' = v.printed s
  files : ∀ f, ¬ touched f → v.content s' f = v.content s f

/-- From one state to another nothing changes that can be seen. -/
def Same (v : View σ File) (s s' : σ) : Prop := v.Spares (fun _ => False) s s'

/-- From one state to another a file gets the given content, and nothing else changes. -/
structure Puts (v : View σ File) (f : File) (bytes : ByteArray) (s s' : σ) : Prop
    extends v.Spares (· = f) s s' where
  content : v.content s' f = some bytes

/-- Changes of some files can follow one another. -/
theorem Spares.trans {touched : File → Prop} {s s' s'' : σ} (h : v.Spares touched s s')
    (h' : v.Spares touched s' s'') : v.Spares touched s s'' :=
  ⟨h'.leads.trans h.leads, h'.stdin.trans h.stdin, h'.printed.trans h.printed,
    fun f hf => (h'.files f hf).trans (h.files f hf)⟩

/-- What changes some files changes no others than any files that include them. -/
theorem Spares.mono {touched touched' : File → Prop} {s s' : σ} (h : v.Spares touched s s')
    (hsub : ∀ f, touched f → touched' f) : v.Spares touched' s s' :=
  ⟨h.leads, h.stdin, h.printed, fun f hf => h.files f fun htouched => hf (hsub f htouched)⟩

theorem Same.refl (s : σ) : v.Same s s := ⟨rfl, rfl, rfl, fun _ _ => rfl⟩

theorem Same.spares {touched : File → Prop} {s s' : σ} (h : v.Same s s') :
    v.Spares touched s s' :=
  Spares.mono h fun _ hf => hf.elim

/-- The operations of a host do what they are documented to do, as far as it can be seen. -/
structure Documented [Host (StateM σ)] (v : View σ File) : Prop where
  /-- What cannot be opened for writing is left as it was. -/
  create_refused : ∀ {path s why s'}, v.leads s path ≠ .device →
    (Host.create path : StateM σ (Except String Sink)).run s = (.error why, s') → v.Same s s'
  /-- What has been opened for writing is a file, and it is empty. -/
  create_done : ∀ {path s sink s'}, v.leads s path ≠ .device →
    (Host.create path : StateM σ (Except String Sink)).run s = (.ok sink, s') →
      ∃ f, v.leads s path = .file f ∧ v.Puts f .empty s s'
  /-- Reading changes nothing. -/
  read_same : ∀ input s,
    v.Same s ((Host.read input : StateM σ (Except String (Except String ByteArray))).run s).2
  /-- What is read from standard input is what is there. -/
  read_stdin : ∀ {s bytes s'},
    (Host.read .stdin : StateM σ (Except String (Except String ByteArray))).run s
      = (.ok (.ok bytes), s') → v.stdin s = bytes
  /-- What is read by a name is the content of a file. -/
  read_file : ∀ {path s bytes s'}, v.leads s path ≠ .device →
    (Host.read (.file path) : StateM σ (Except String (Except String ByteArray))).run s
      = (.ok (.ok bytes), s') → ∃ f, v.leads s path = .file f ∧ v.content s f = some bytes
  /-- Writing over what was opened changes nothing else. -/
  overwrite_spares : ∀ {path} bytes {s}, v.leads s path ≠ .device →
    v.Spares (v.leads s path = .file ·) s ((Host.overwrite path bytes : StateM σ Unit).run s).2
  /-- A write that is done has made the bytes the whole content of a file. -/
  write_done : ∀ {path bytes s s'}, v.leads s path ≠ .device →
    (Host.write path bytes : StateM σ (Except String Unit)).run s = (.ok (), s') →
      ∃ f, v.leads s path = .file f ∧ v.Puts f bytes s s'
  /-- A write that fails could not open the file, or has emptied it and then written some first
      part of the bytes. -/
  write_failed : ∀ {path bytes s why s'}, v.leads s path ≠ .device →
    (Host.write path bytes : StateM σ (Except String Unit)).run s = (.error why, s') →
      v.Same s s' ∨ ∃ f k, v.leads s path = .file f ∧ v.Puts f (bytes.extract 0 k) s s'
  /-- What is printed comes after what was printed before. -/
  print_printed : ∀ text s,
    v.printed ((Host.print text : StateM σ Unit).run s).2 = v.printed s ++ text
  /-- Printing changes no file. -/
  print_files : ∀ text s f,
    v.content ((Host.print text : StateM σ Unit).run s).2 f = v.content s f
  /-- What the user is told is not printed. -/
  tell_same : ∀ line s, v.Same s ((Host.tell line : StateM σ Unit).run s).2

-- ============================================================================
-- Actions that keep to some files
-- ============================================================================

/-- Started where paths lead as given, an action prints nothing and changes only files that may
    be touched. -/
def Confined {α : Type} (v : View σ File) (leads : String → Lead File) (touched : File → Prop)
    (x : StateM σ α) : Prop :=
  ∀ s, v.leads s = leads → v.Spares touched s (x.run s).2

namespace Confined

variable {α β : Type} {leads : String → Lead File} {touched : File → Prop}

theorem pure (a : α) : v.Confined leads touched (Pure.pure a : StateM σ α) :=
  fun s _ => (Same.refl s).spares

theorem bind {x : StateM σ α} {f : α → StateM σ β} (hx : v.Confined leads touched x)
    (hf : ∀ a, v.Confined leads touched (f a)) : v.Confined leads touched (x >>= f) := by
  intro s hs
  have hfirst := hx s hs
  exact hfirst.trans (hf (x.run s).1 (x.run s).2 (hfirst.leads.trans hs))

variable [Host (StateM σ)]

theorem tell (hv : v.Documented) (line : String) :
    v.Confined leads touched (Host.tell line : StateM σ Unit) :=
  fun s _ => (hv.tell_same line s).spares

theorem read (hv : v.Documented) (input : Input) : v.Confined leads touched
    (Host.read input : StateM σ (Except String (Except String ByteArray))) :=
  fun s _ => (hv.read_same input s).spares

theorem overwrite (hv : v.Documented) {path : String} (bytes : ByteArray)
    (hpath : leads path ≠ .device) (htouched : ∀ f, leads path = .file f → touched f) :
    v.Confined leads touched (Host.overwrite path bytes : StateM σ Unit) := by
  rintro s rfl
  exact (hv.overwrite_spares bytes hpath).mono htouched

end Confined

end View

end LineBasic.CommandLine
