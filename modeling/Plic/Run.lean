/-!
# Runs of a program

What is left of a run: how it ended and what it wrote. A run that cannot be started is a fault; one
that starts and fails is not.
-/

namespace Plic

/-- Why the operating system refuses. -/
inductive SystemError where
  | notFound | permissionDenied | notADirectory | isADirectory | formatError
  | nameTooLong | argumentsTooLong | noSpace
  /-- There is no terminal. -/
  | noDevice
  /-- A text was asked for and the bytes are none. -/
  | invalidText
  | nullInName
  /-- The name of a program or one of its arguments has a null character in it. -/
  | nullInArgument
deriving DecidableEq

/-- The words for a refusal. -/
def SystemError.message : SystemError → String
  | notFound => "No such file or directory (os error 2)"
  | permissionDenied => "Permission denied (os error 13)"
  | notADirectory => "Not a directory (os error 20)"
  | isADirectory => "Is a directory (os error 21)"
  | formatError => "Exec format error (os error 8)"
  | nameTooLong => "File name too long (os error 36)"
  | argumentsTooLong => "Argument list too long (os error 7)"
  | noSpace => "No space left on device (os error 28)"
  | noDevice => "No such device or address (os error 6)"
  | invalidText => "stream did not contain valid UTF-8"
  | nullInName => "file name contained an unexpected NUL byte"
  | nullInArgument => "nul byte found in provided data"

structure RunOutput where
  /-- The exit status, unless a signal ended the run. -/
  status : Option Int
  stdout : String
  stderr : String
deriving DecidableEq

def RunOutput.success (o : RunOutput) : Bool := o.status = some 0

/-- Why a run has no result. -/
inductive RunFault where
  | notStarted (interpreter : String) (reason : SystemError)
deriving DecidableEq

def RunFault.message : RunFault → String
  | notStarted interpreter reason => "failed to start " ++ interpreter ++ ": " ++ reason.message

/-- An interpreter by its name, with what it makes of a program. -/
structure Interpreter where
  name : String
  run : String → Except RunFault RunOutput

end Plic
