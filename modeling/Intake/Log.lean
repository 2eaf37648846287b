import Intake.Ingest

/-!
# The log

Every batch leaves one entry, whether it was taken in or not. Reading the datasets leaves one only
if it fails.
-/

set_option autoImplicit false
set_option relaxedAutoImplicit false

namespace Intake.Log

inductive Level
  | debug
  | warning
  | error
  deriving DecidableEq, Repr

inductive Entry
  | accepted (dataset : String) (codec : Codec) (events : Nat)
  | rejected (dataset : String) (header : Option String) (fault : Ingest.Fault)
  | unreadable (fault : Store.Fault)
  deriving DecidableEq, Repr

/-- What is said about a batch that was taken in. -/
def Entry.ofAccepted (dataset : String) (accepted : Ingest.Accepted) : Entry :=
  .accepted dataset accepted.codec accepted.acks.length

/-- A field of an entry is a text or a number. -/
inductive Field
  | text (value : String)
  | count (value : Nat)
  deriving DecidableEq, Repr

/-- A header as it stands in an entry, where a missing one differs from every value. -/
def headerText : Option String → String
  | none => "None"
  | some value => "Some(" ++ Text.quoted value ++ ")"

namespace Entry

def level : Entry → Level
  | accepted .. => .debug
  | rejected .. => .warning
  | unreadable .. => .error

def message : Entry → String
  | accepted .. => "batch accepted"
  | rejected .. => "batch rejected"
  | unreadable .. => "failed to read datasets"

def fields : Entry → List (String × Field)
  | accepted dataset codec events =>
    [("dataset", .text dataset), ("encoding", .text codec.name), ("events", .count events)]
  | rejected dataset header fault =>
    [("dataset", .text dataset), ("content_encoding", .text (headerText header)),
      ("error", .text fault.message)]
  | unreadable fault => [("error", .text fault.message)]

end Entry

end Intake.Log
