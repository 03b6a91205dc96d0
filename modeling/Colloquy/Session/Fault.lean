import Colloquy.Code.Script
import Colloquy.Host.Basic
import Colloquy.Text.Blank

/-!
# States and faults of sessions

A session is in one of five states, and every operation is allowed in some of them only.  What goes
wrong is either a fault of the script or its host, which ends the playthrough, or an operation that the
session refuses, which changes nothing.
-/

namespace Colloquy

/-- What a session is doing. -/
inductive Status where
  | idle
  | running
  | awaitingChoice
  | awaitingCall
  | ended
  deriving DecidableEq, Repr

/-- A state in messages. -/
def Status.name : Status → String
  | .idle => "Idle"
  | .running => "Running"
  | .awaitingChoice => "AwaitingChoice"
  | .awaitingCall => "AwaitingAsyncCall"
  | .ended => "Ended"

/-- The operations that depend on the state. -/
inductive Operation where
  | start
  | advance
  | select
  | complete
  deriving DecidableEq, Repr

/-- An operation in messages. -/
def Operation.phrase : Operation → String
  | .start => "start a script"
  | .advance => "advance"
  | .select => "select a choice"
  | .complete => "complete an async call"

/-- What goes wrong in a session. -/
inductive SessionError where
  | unknownVariable (name : String)
  | unknownSection (name : String)
  /-- The value of the expression at an offset has the wrong kind. -/
  | kindMismatch (offset : Nat) (mismatch : KindMismatch)
  /-- The host refused a request made on behalf of a function or variable. -/
  | host (name : String) (error : HostError)
  | code (error : CodeError)
  | invalidState (operation : Operation) (status : Status)
  | invalidChoice (index count : Nat)
  | disabledChoice (index : Nat)
  deriving DecidableEq, Repr

namespace SessionError

/-- An error in a sentence. -/
def message : SessionError → String
  | .unknownVariable name => "Unknown variable " ++ name
  | .unknownSection name => "Unknown section " ++ name
  | .kindMismatch offset mismatch =>
    "Type error at @" ++ Text.padded 4 offset ++ ": " ++ mismatch.message
  | .host name error => "Host call " ++ name ++ " failed: " ++ error.message
  | .code error => "Error reading bytecode: " ++ error.message
  | .invalidState operation status => "Cannot " ++ operation.phrase ++ " while " ++ status.name
  | .invalidChoice index count => s!"Choice {index} is out of range; {count} choices were presented"
  | .disabledChoice index => s!"Choice {index} is disabled"

/-- The fault that a refused request causes.  A variable the host does not know is reported as such,
whatever asked for it. -/
def ofHost (name : String) : HostError → SessionError
  | .unknownVariable missing => .unknownVariable missing
  | error => .host name error

end SessionError

end Colloquy
