import LayeredStore.Error

/-!
# Paths

A path is the list of the names that were written to lead somewhere, outermost first.
`Path.ofString` and `Path.text` convert from and to the written form, in which a slash stands
between the names; the empty name comes from a slash at the end or from two in a row. A path
keeps the form in which it was written, and what it leads to is found out by the disk: the empty
name and a point stay where they are, and two points lead out of a folder.

`Path.child` is the path of a member of a folder, and `Path.check` refuses what cannot be a path
at all.
-/

namespace LayeredStore

/-- The names that lead to a file or folder, outermost first. -/
abbrev Path := List String

namespace Path

/-- The path that a text spells. -/
def ofString (text : String) : Path := text.splitOn "/"

/-- A path as it is written. -/
def text (p : Path) : String := "/".intercalate p

/-- The path of a member of a folder. A slash at the end of the folder's path is not doubled. -/
def child (dir : Path) (name : String) : Path :=
  (if dir.getLast? = some "" then dir.dropLast else dir) ++ [name]

/-- Whether a name leads nowhere: it is empty or a point. -/
def staysPut (name : String) : Bool := name == "" || name == "."

/-- The name that leads out of a folder. -/
def outward : String := ".."

/-- A path without the slashes at its end. -/
def withoutSlashes (p : Path) : Path := (p.reverse.dropWhile (· == "")).reverse

/-- The paths of the folders in which a path lies, innermost first. -/
def ancestors (p : Path) : List Path :=
  let names := p.filter (!staysPut ·)
  ((List.range names.length).map names.take).reverse

/-- The longest name of a file or folder, in bytes. -/
def nameLimit : Nat := 255

/-- The longest text of a path, in bytes. -/
def textLimit : Nat := 4095

/-- Refuses a text that the system does not take for a path. -/
def check (p : Path) : Except IoFailure Unit :=
  if p.any (·.toList.contains '\x00') then .error .nulInName
  else if textLimit < p.text.utf8ByteSize then .error (.system .nameTooLong)
  else .ok ()

end Path

end LayeredStore
