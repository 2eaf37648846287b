import Intake.Codec.Registry
import Intake.Store

/-!
# Taking in a batch

A body is decoded and then appended to a dataset as a whole, so a body that cannot be decoded and a
store that is offline both leave the store as it was. Decoding comes first, and so do its faults.
-/

set_option autoImplicit false
set_option relaxedAutoImplicit false

namespace Intake.Ingest

/-- Why a body was not taken in. -/
inductive Fault
  | batch (fault : Batch.Fault)
  | store (fault : Store.Fault)
  deriving DecidableEq, Repr

def Fault.message : Fault → String
  | batch fault => fault.message
  | store fault => fault.message

/-- A batch that was taken in: the codec that its body was decoded with, the acknowledgements of its
events, and the store with the events in it. -/
structure Accepted where
  codec : Codec
  acks : List Ack
  store : Store
  deriving DecidableEq

/-- Takes in a body for a dataset. The header is the one that names the coding of the body. -/
def ingest (registry : Registry) (store : Store) (dataset : String) (header : Option String)
    (body : Bytes) : Except Fault Accepted :=
  let codec := registry.resolve header
  match Batch.decode codec body with
  | .error fault => .error (.batch fault)
  | .ok batch =>
    match store.append dataset batch.events with
    | .error fault => .error (.store fault)
    | .ok store => .ok ⟨codec, batch.acks, store⟩

end Intake.Ingest
