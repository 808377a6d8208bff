/-!
Files by name: what a name leads to, or why it leads nowhere.

A name is a chain of parts with strokes between them. It is followed part by part, from the working
folder or, when a stroke comes first, from the top. Only a folder can be followed further, so a
stroke after the name of a file leads nowhere.
-/

namespace Lox

/-- Why a name gives no contents. -/
inductive FileFault
  | missing
  | denied
  | notFolder
  | isFolder
  | nameTooLong
  | other (cause : String)
deriving DecidableEq

namespace FileFault

/-- What was tried. A folder can be opened, and only then turns out to have nothing to read. -/
def attempt : FileFault → String
  | isFolder => "Failed to read file"
  | _ => "Failed to open file"

def message : FileFault → String
  | missing => "No such file or directory (os error 2)"
  | denied => "Permission denied (os error 13)"
  | notFolder => "Not a directory (os error 20)"
  | isFolder => "Is a directory (os error 21)"
  | nameTooLong => "File name too long (os error 36)"
  | other cause => cause

end FileFault

/-- The names that lead from the top to a file or a folder, the last one first. -/
abbrev Trail := List String

inductive Entry
  | folder
  | file (contents : ByteArray)

/-- The files and folders there are, and the folder that names are followed from. -/
structure FileTree where
  entries : List (Trail × Entry)
  working : Trail

namespace FileTree

/-- How many bytes one part of a name can have. -/
def longestPart : Nat := 255

/-- How many bytes a name can have. -/
def longestName : Nat := 4095

/-- What stands at a place. The top is a folder. -/
def entry? (t : FileTree) (p : Trail) : Option Entry :=
  if p.isEmpty then some .folder else t.entries.lookup p

/-- The place that a part leads to from a folder. Above the top is the top. -/
def enter (t : FileTree) (p : Trail) (part : String) : Except FileFault Trail :=
  if part = "" ∨ part = "." then .ok p
  else if part = ".." then .ok p.tail
  else if longestPart < part.utf8ByteSize then .error .nameTooLong
  else if (t.entry? (part :: p)).isSome then .ok (part :: p)
  else .error .missing

/-- The place that the parts lead to, one after the other. -/
def follow (t : FileTree) (p : Trail) : List String → Except FileFault Trail
  | [] => .ok p
  | part :: rest =>
    match t.entry? p with
    | none => .error .missing
    | some (.file _) => .error .notFolder
    | some .folder =>
      match t.enter p part with
      | .error f => .error f
      | .ok p => t.follow p rest

/-- Following parts takes up where following the parts before them left off. -/
theorem follow_append (t : FileTree) (p : Trail) (parts rest : List String) :
    t.follow p (parts ++ rest) = (t.follow p parts).bind fun q => t.follow q rest := by
  induction parts generalizing p with
  | nil => rfl
  | cons part parts ih =>
    simp only [List.cons_append, follow]
    split
    · rfl
    · rfl
    · split
      · rfl
      · exact ih _

/-- The contents of the file of a name. -/
def read (t : FileTree) (name : String) : Except FileFault ByteArray :=
  if name.isEmpty then .error .missing
  else if longestName < name.utf8ByteSize then .error .nameTooLong
  else
    match t.follow (if name.startsWith "/" then [] else t.working) (name.splitOn "/") with
    | .error f => .error f
    | .ok p =>
      match t.entry? p with
      | none => .error .missing
      | some .folder => .error .isFolder
      | some (.file contents) => .ok contents

end FileTree

end Lox
