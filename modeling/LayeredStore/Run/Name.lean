import LayeredStore.Disk.Path

/-!
# Names of run files

The folder of a store holds run files in three states: finished ones, ones that a flush is still
writing, and ones that a compaction is writing. A name is the number of the run, padded with
zeros to eight digits, and a suffix for the state. `RunName.text` writes a name and
`RunName.parse` reads one; reading also takes a plus sign and any padding.
-/

namespace LayeredStore

/-- What a run file is there for. -/
inductive RunKind where
  /-- A run that belongs to the store's content. -/
  | finished
  /-- A run that a flush has not finished. -/
  | unfinished
  /-- The output of a compaction that has not been put in the place of its inputs. -/
  | merged
deriving DecidableEq, Repr

/-- The name of a run file: its state and the number of its run. -/
structure RunName where
  kind : RunKind
  id : Nat
deriving DecidableEq, Repr

namespace RunKind

/-- The end of the names of one kind. -/
def suffix : RunKind → List Char
  | .finished => ".sst".toList
  | .unfinished => ".sst.tmp".toList
  | .merged => ".compacting".toList

end RunKind

namespace RunName

/-- Run numbers are below this. -/
def idLimit : Nat := UInt64.size

/-- The decimal digits of a number, with zeros in front up to eight digits. -/
def paddedDigits (n : Nat) : List Char :=
  let digits := Nat.toDigits 10 n
  List.replicate (8 - digits.length) '0' ++ digits

/-- The number that some decimal digits spell. -/
def digitsToNat (digits : List Char) : Nat :=
  digits.foldl (fun n c => n * 10 + (c.toNat - '0'.toNat)) 0

/-- The run number that a text spells: decimal digits, perhaps after a plus sign. -/
def parseId (text : List Char) : Option Nat :=
  let digits := match text with
    | '+' :: rest => rest
    | _ => text
  if digits.isEmpty || !digits.all Char.isDigit then none
  else
    let id := digitsToNat digits
    if id < idLimit then some id else none

/-- A text without its end, if it has that end. -/
def withoutSuffix? (suffix text : List Char) : Option (List Char) :=
  if suffix.isSuffixOf text then some (text.take (text.length - suffix.length)) else none

/-- A name as it is written. -/
def text (name : RunName) : String :=
  String.ofList (paddedDigits name.id ++ name.kind.suffix)

/-- The run file that a name denotes, if it denotes one. -/
def parse (text : String) : Option RunName :=
  let text := text.toList
  let attempt (kind : RunKind) : Option (Option RunName) :=
    (withoutSuffix? kind.suffix text).map fun stem => (parseId stem).map (RunName.mk kind)
  (attempt .unfinished <|> attempt .finished <|> attempt .merged).getD none

/-- The path of a run file in a folder. -/
def path (name : RunName) (dir : Path) : Path := dir.child name.text

end RunName

end LayeredStore
