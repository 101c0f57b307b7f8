import RevisionGraph.Error

/-!
# Failures

A `Failure` is a cause together with what was being done, the outermost task first.
-/

namespace RevisionGraph

/-- Why a file could not be opened, read or written. -/
inductive FileFault where
  | notFound
  | notAFolder
  | isAFolder
  | alreadyThere
  | nameTooLong
  | badName
  | other (text : String)
  deriving DecidableEq, Repr

def FileFault.message : FileFault → String
  | .notFound => "No such file or directory (os error 2)"
  | .notAFolder => "Not a directory (os error 20)"
  | .isAFolder => "Is a directory (os error 21)"
  | .alreadyThere => "File exists (os error 17)"
  | .nameTooLong => "File name too long (os error 36)"
  | .badName => "file name contained an unexpected NUL byte"
  | .other text => text

inductive Cause where
  | error (error : Error)
  /-- A text is no JSON document, or not one of the expected shape. -/
  | json
  /-- A text is no TOML document, or not one of the expected shape. -/
  | toml
  | file (fault : FileFault)
  | store (text : String)
  | plain (message : String)
  deriving DecidableEq, Repr

def Cause.message : Cause → String
  | .error e => e.message
  | .json => "JSON error: not a document of the expected shape"
  | .toml => "TOML error: not a document of the expected shape"
  | .file fault => fault.message
  | .store text => text
  | .plain message => message

structure Failure where
  context : List String
  cause : Cause
  deriving DecidableEq, Repr

namespace Failure

def ofError (error : Error) : Failure := ⟨[], .error error⟩

def plain (message : String) : Failure := ⟨[], .plain message⟩

/-- The failure as part of a larger task. -/
def within (task : String) (f : Failure) : Failure := { f with context := task :: f.context }

def joined (parts : List String) : String := ": ".intercalate parts

def message (f : Failure) : String := joined (f.context ++ [f.cause.message])

end Failure

/-- Names the task that `result` is part of. -/
def during {α : Type} (task : String) (result : Except Failure α) : Except Failure α :=
  result.mapError (Failure.within task)

/-- A result of the model as the result of a task. -/
def checked {α : Type} (result : Except Error α) : Except Failure α :=
  result.mapError Failure.ofError

end RevisionGraph
