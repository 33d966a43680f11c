import LayeredStore.SystemError

/-!
# Errors

Every operation of the store that can fail does so with a `StoreError`. Its constructors are the
causes; the wording is in `StoreError.message` alone. `StoreError.sources` unfolds the chain of
causes that a wrapped error carries.

One of them is no failure that a caller is told of: an operation that ends in
`StoreError.panicked` does not return.
-/

namespace LayeredStore

/-- Why a file operation, or reading or writing bytes, failed: the system refused, or something
else was wrong with what was asked for. -/
inductive IoFailure where
  | system (error : SystemError)
  | text (message : String)
deriving DecidableEq, Repr

namespace IoFailure

/-- A read went past the end of its file or buffer. -/
def unexpectedEnd : IoFailure := .text "failed to fill whole buffer"

/-- A block is too short for what its own counts announce. -/
def tooShort : IoFailure := .text "data too short"

/-- A path holds a character with which no name can be given to the system. -/
def nulInName : IoFailure := .text "file name contained an unexpected NUL byte"

/-- The text of a failure. -/
def message : IoFailure → String
  | .system error => error.message
  | .text message => message

end IoFailure

/-- Why bytes could not be read from a place in a file. -/
inductive ReadFailure where
  /-- The file does not have the bytes, or the system refused to read them. -/
  | io (cause : IoFailure)
  /-- No buffer can hold that many bytes. -/
  | tooLarge
deriving DecidableEq, Repr

/-- The ways in which an operation of the store fails. -/
inductive StoreError where
  /-- A file operation failed outside of any larger step. -/
  | io (cause : IoFailure)
  /-- A stored structure could not be decoded. -/
  | decode (subject : String) (cause : IoFailure)
  /-- Something could not be read from its file. -/
  | read (subject : String) (cause : IoFailure)
  /-- Something could not be written to its file. -/
  | write (subject : String) (cause : IoFailure)
  /-- A stored structure contradicts itself. -/
  | corrupt (detail : String)
  /-- The checksum of an index does not match its bytes. -/
  | checksumMismatch
  /-- The folder's lock could not be taken or given back. -/
  | lock (cause : IoFailure)
  /-- A guard was left behind by a holder that died. -/
  | poisoned
  /-- A buffer that no longer takes writes was written to. -/
  | frozen
  /-- The store, or its worker, no longer takes requests. -/
  | closed
  /-- The active buffer is full and the one before it is still waiting to be written. -/
  | overload
  /-- A flush failed. -/
  | persistence (cause : StoreError)
  /-- A compaction failed. -/
  | compaction (cause : StoreError)
  /-- A generation of runs was used after its runs had been superseded. -/
  | staleGeneration
  /-- A background task failed earlier; this is its report. -/
  | background (task : String) (message : String)
  /-- An operation was asked for at a moment that does not allow it. -/
  | invalidState (detail : String)
  /-- An operation was asked for with arguments that nothing allows. -/
  | invalidOperation (detail : String)
  /-- The operation took its thread down, which is what happens instead of an answer. -/
  | panicked (message : String)
deriving DecidableEq, Repr

namespace StoreError

/-- The text of an error; a wrapped error's text follows that of its wrapper. -/
def message : StoreError → String
  | .io cause => s!"I/O error: {cause.message}"
  | .decode subject cause => s!"Failed to decode {subject}: {cause.message}"
  | .read subject cause => s!"Failed to read {subject}: {cause.message}"
  | .write subject cause => s!"Failed to write {subject}: {cause.message}"
  | .corrupt detail => s!"Index corruption: {detail}"
  | .checksumMismatch => "Checksum mismatch"
  | .lock cause => s!"Lock error: {cause.message}"
  | .poisoned => "Mutex was poisoned"
  | .frozen => "Memtable is frozen"
  | .closed => "Store is closed"
  | .overload => "Write rejected: flush in progress, memory overloaded"
  | .persistence cause => s!"Flush failed: {cause.message}"
  | .compaction cause => s!"Compaction failed: {cause.message}"
  | .staleGeneration => "Storage generation is no longer live"
  | .background task message => s!"Background task {task} failed: {message}"
  | .invalidState detail => s!"Invalid state: {detail}"
  | .invalidOperation detail => s!"Invalid operation: {detail}"
  | .panicked message => message

/-- Whether an error stems from the files rather than from how the store was used. A failed
background task always counts, whatever its cause was. -/
def isIo : StoreError → Bool
  | .io _ | .decode _ _ | .read _ _ | .write _ _ | .corrupt _ | .checksumMismatch
  | .lock _ | .persistence _ | .compaction _ | .background _ _ => true
  | .poisoned | .frozen | .closed | .overload | .staleGeneration
  | .invalidState _ | .invalidOperation _ | .panicked _ => false

/-- The texts of the causes that an error wraps, outermost first. -/
def sources : StoreError → List String
  | .io cause | .decode _ cause | .read _ cause | .write _ cause | .lock cause =>
    [cause.message]
  | .persistence cause | .compaction cause => cause.message :: cause.sources
  | _ => []

/-- A key is longer than the run format can hold. -/
def keyTooLong (length : Nat) : StoreError :=
  .invalidOperation s!"key of {length} bytes exceeds the run format limit"

/-- A value is longer than the run format can hold. -/
def valueTooLong (length : Nat) : StoreError :=
  .invalidOperation s!"value of {length} bytes exceeds the run format limit"

/-- A run was given a key that does not follow the one before it. -/
def keysOutOfOrder (path : String) : StoreError :=
  .invalidOperation s!"keys out of order while writing {path}"

/-- A buffer was asked for that is larger than any can be. -/
def capacityOverflow : StoreError := .panicked "capacity overflow"

/-- A task will never run, because its worker is gone. -/
def abandoned (task : String) : StoreError :=
  .invalidState s!"Task {task} was dropped before it completed"

end StoreError

/-- What comes of a failure to read something. Only a failure of the file is reported. -/
def ReadFailure.toError (subject : String) : ReadFailure → StoreError
  | .io cause => .read subject cause
  | .tooLarge => .capacityOverflow

end LayeredStore
