import Intake.Ack
import Intake.Codec
import Intake.Json.Value.Reader

/-!
# Batches

A batch is what one request carries: a list of events. An event is any JSON value, and what it says
is the business of its sender. `Batch.decode` undoes the coding of a body and then reads the JSON
array that it holds, so a body that cannot be decoded is never looked at as JSON.
-/

set_option autoImplicit false
set_option relaxedAutoImplicit false

namespace Intake

/-- An event is a JSON value of any shape. -/
abbrev Event : Type := Json.Value

/-- The events of one request, in the order in which they were sent. -/
structure Batch where
  events : List Event
  deriving DecidableEq

namespace Batch

/-- The acknowledgements of a batch that was taken in, one for each event. -/
def acks (batch : Batch) : List Ack :=
  batch.events.map fun _ ↦ .accepted

def toJson (batch : Batch) : Json.Value :=
  .list batch.events

/-- A list of events, which counts as the first of the lists that are nested. -/
def read : Json.Reader Batch := fun s ↦
  (Json.listFor (Json.value (Json.depthLimit - 1)) s).map (.map Batch.mk)

/-- Why a body was refused. -/
inductive Fault
  | decompress (fault : Codec.Fault)
  | json (error : Json.Error)
  deriving DecidableEq, Repr

def Fault.message : Fault → String
  | decompress fault =>
    "failed to decompress " ++ fault.codec.name ++ " body: " ++ fault.message
  | json error => "body is not a JSON array of events: " ++ error.message

/-- The batch that a decoded body is. -/
def ofJson (raw : Bytes) : Except Json.Error Batch :=
  Json.whole read raw

/-- The batch that a body in this coding is. -/
def decode (codec : Codec) (body : Bytes) : Except Fault Batch :=
  match codec.decode body with
  | .error fault => .error (.decompress fault)
  | .ok raw => (ofJson raw).mapError .json

end Batch

end Intake
