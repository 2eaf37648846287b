import Intake.Batch

/-!
# The store

A dataset is a named sequence of events that only grows. It comes into being when something is first
appended to it, be it nothing at all. A store holds every dataset there is; while it is offline it
can neither be read nor changed, and it loses nothing.

A store is reached through two ports. `append` and `snapshot` are what it offers itself; whoever
only reads asks `listAll`, the one query there is, and a store answers it with its snapshot. The
lock around the datasets is left out, as is waiting for it: an append and a snapshot each take it
once, so they come one after the other. Left out as well is that the error of a query may be of any
kind, since the one that a store gives is the only one that occurs.
-/

set_option autoImplicit false
set_option relaxedAutoImplicit false

namespace Intake

/-- Datasets in ascending order of their names, which is the order of the UTF-8 forms. -/
abbrev Datasets : Type := List (String × List Event)

namespace Datasets

/-- The datasets with these events behind the others of the named one. -/
def append (name : String) (events : List Event) : Datasets → Datasets
  | [] => [(name, events)]
  | (other, stored) :: rest =>
    if name < other then (name, events) :: (other, stored) :: rest
    else if name = other then (other, stored ++ events) :: rest
    else (other, stored) :: append name events rest

/-- The events of the named dataset, if there is one of that name. -/
def events? (name : String) (datasets : Datasets) : Option (List Event) :=
  List.lookup name datasets

def toJson (datasets : Datasets) : Json.Value :=
  .object (datasets.map fun (name, events) ↦ (name, .list events))

end Datasets

structure Store where
  datasets : Datasets
  offline : Bool
  deriving DecidableEq

namespace Store

/-- Why a store could not be used. -/
inductive Fault
  | offline
  deriving DecidableEq, Repr

def Fault.message : Fault → String
  | offline => "backend error: Dataset store offline"

def empty : Store := ⟨[], false⟩

/-- The store taken offline, or back online. -/
def toggle (store : Store) : Store :=
  { store with offline := !store.offline }

def append (store : Store) (name : String) (events : List Event) : Except Fault Store :=
  if store.offline then .error .offline
  else .ok { store with datasets := store.datasets.append name events }

/-- Every dataset that the store holds. -/
def snapshot (store : Store) : Except Fault Datasets :=
  if store.offline then .error .offline else .ok store.datasets

/-- The query for every dataset that was written so far, with all of its events. -/
def listAll (store : Store) : Except Fault Datasets :=
  store.snapshot

end Store

end Intake
