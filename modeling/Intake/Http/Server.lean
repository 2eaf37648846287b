import Intake.Http.Message
import Intake.Http.Percent
import Intake.Log

/-!
# The server

Two paths lead somewhere. At the root all datasets are read; under `/1/batch/` a segment names the
dataset that a body is posted to. The path is looked at first and the method next, so a wrong method
is told apart from a wrong path, and only a post to a batch path can change the store.

Both routes lead to one store: posts are appended to it, and the root asks it the query `listAll`.
Requests are served one at a time. Left out are the handles by which the routes share the store and
the registry, and the way of a request over the network: `serve` begins with a request that was read
to its end and ends with a response that is still to be sent. A body may be of any length, since the
limit on it is switched off.
-/

set_option autoImplicit false
set_option relaxedAutoImplicit false

namespace Intake.Http

/-- Where a path leads. The segment is taken as it is written. -/
inductive Route
  | root
  | batch (segment : Bytes)
  deriving DecidableEq, Repr

namespace Route

/-- What comes in front of the segment of a batch path. -/
def batchPath : Bytes :=
  Utf8.encode "/1/batch/".toList

/-- The route of a path. A segment is not empty and has no slash in it. -/
def ofPath? (path : Bytes) : Option Route :=
  if path = ['/'.toUInt8] then some .root
  else if batchPath.isPrefixOf path then
    let segment := path.drop batchPath.length
    if segment.isEmpty || segment.contains '/'.toUInt8 then none else some (.batch segment)
  else none

end Route

/-- What a request brings about: the response, the store behind it, and what is logged. -/
structure Effect where
  response : Response
  store : Store
  log : List Log.Entry

/-- Reads all datasets. -/
def inspect (store : Store) : Effect :=
  match store.listAll with
  | .ok datasets => ⟨.json datasets.toJson, store, []⟩
  | .error fault => ⟨.failure, store, [.unreadable fault]⟩

/-- Posts a body to a dataset. -/
def post (registry : Registry) (store : Store) (dataset : String) (request : Request) : Effect :=
  let header := request.contentEncoding
  match Ingest.ingest registry store dataset header request.body with
  | .ok accepted =>
    ⟨.json (Ack.listToJson accepted.acks), accepted.store, [.ofAccepted dataset accepted]⟩
  | .error fault => ⟨.failure, store, [.rejected dataset header fault]⟩

/-- What a request brings about that goes to this route. -/
def dispatch (registry : Registry) (store : Store) (request : Request) : Route → Effect
  | .root =>
    if request.method = "GET" then inspect store
    else if request.method = "HEAD" then
      let effect := inspect store
      { effect with response := effect.response.withoutBody }
    else ⟨.notAllowed "GET,HEAD", store, []⟩
  | .batch segment =>
    if request.method = "POST" then
      match segmentText? segment with
      | some dataset => post registry store dataset request
      | none => ⟨.badSegment, store, []⟩
    else ⟨.notAllowed "POST", store, []⟩

/-- What a request brings about. -/
def serve (registry : Registry) (store : Store) (request : Request) : Effect :=
  match Route.ofPath? request.path with
  | some route => dispatch registry store request route
  | none => ⟨.notFound, store, []⟩

end Intake.Http
