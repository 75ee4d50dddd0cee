import DeadCode.Path

/-!
What can go wrong. Some faults end a run before it starts; the others are noted and the run goes on.
-/
namespace DeadCode

inductive ReadError where
  | missing
  | notADirectory
  | isADirectory
  | malformed
deriving DecidableEq, Repr

def ReadError.message : ReadError → String
  | missing => "No such file or directory (os error 2)"
  | notADirectory => "Not a directory (os error 20)"
  | isADirectory => "Is a directory (os error 21)"
  | malformed => "stream did not contain valid UTF-8"

/-- A fault that a run survives. -/
inductive Warning where
  | unreadable (file : Path) (cause : ReadError)
  /-- The work on a chunk of the files failed. -/
  | chunkFailed (index : Nat) (reason : String)
  | noWorkers (reason : String)
deriving DecidableEq, Repr

namespace Warning

def tag : Warning → String
  | unreadable .. => "io"
  | chunkFailed .. => "partition"
  | noWorkers _ => "pool"

def file? : Warning → Option Path
  | unreadable file _ => some file
  | _ => none

def message : Warning → String
  | unreadable file cause => "Failed to read " ++ file.text ++ ": " ++ cause.message
  | chunkFailed index reason => "Partition " ++ toString index ++ " failed: " ++ reason
  | noWorkers reason => "Worker pool unavailable, ran sequentially: " ++ reason

end Warning

/-- A fault that ends a run. -/
inductive RunError where
  | missingRoot (root : Path)
  | rootNotADirectory (root : Path)
  | noSymbols
deriving DecidableEq, Repr

namespace RunError

def code : RunError → String
  | missingRoot _ => "missing_root"
  | rootNotADirectory _ => "not_a_directory"
  | noSymbols => "empty_symbol_table"

def message : RunError → String
  | missingRoot root => "Root directory does not exist: " ++ root.text
  | rootNotADirectory root => "Root path is not a directory: " ++ root.text
  | noSymbols =>
    "Usage analysis needs at least one declared symbol, but the symbol tables are empty"

end RunError
end DeadCode
