/-!
# Failures of a batch

What keeps a batch from being analyzed, or from being analyzed to its end. Problems inside of a file
are no failures; they are diagnostics.
-/

namespace BslLint

/-- Why a batch could not be analyzed. -/
inductive Failure where
  /-- There is no directory of the project. -/
  | noWorkspace (path : String)
  /-- There is no directory of the sources. -/
  | noSource (path : String)
  /-- The directory of the sources is too far outside of that of the project. -/
  | tooManyParents (source : String)
  /-- The configuration cannot be used. -/
  | config (reason : String)
  /-- There is no such form of a report. -/
  | unknownReporter (key : String)
  /-- A file could not be read or written. -/
  | file (path reason : String)
  /-- A file could not be analyzed, and that is to end the batch. -/
  | analysis (path reason : String)
  /-- There are no workers. -/
  | workers (reason : String)
  deriving DecidableEq, Repr

namespace Failure

/-- What is said about a failure. -/
def message : Failure → String
  | noWorkspace path => "Workspace dir \x60" ++ path ++ "\x60 does not exist"
  | noSource path => "Source dir \x60" ++ path ++ "\x60 does not exist"
  | tooManyParents source =>
    "Source dir \x60" ++ source ++ "\x60 contains more than one \x60../\x60 reference"
  | config reason => "Configuration error: " ++ reason
  | unknownReporter key => "Unknown reporter \x60" ++ key ++ "\x60"
  | file path reason => "I/O error on " ++ path ++ ": " ++ reason
  | analysis path reason => "Analysis of " ++ path ++ " failed: " ++ reason
  | workers reason => "Failed to build worker pool: " ++ reason

/-- Whether a failure is about how the program was started, not about what it was started on. -/
def isConfiguration : Failure → Bool
  | noWorkspace _ | noSource _ | tooManyParents _ | config _ | unknownReporter _ => true
  | file _ _ | analysis _ _ | workers _ => false

end Failure

end BslLint
