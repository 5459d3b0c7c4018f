import Qrypt.Task.Types

/-!
# Idempotency keys

`pkg/task/idempotency.go`: a task has a primary key, and further keys are bound to it in its detail, each with
the fingerprint of the request that bound it. A map and a list of keys look the same in memory and after they
were read from the journal.
-/

namespace Tasks

open Infra

def boundIdempotencyKeysDetailKey : Bytes := ascii "idempotency_keys"

/-- A value as a string; other values are the empty one. -/
def jsonString : Json → Bytes
  | .str s => s
  | _ => []

/-- `boundIdempotencyBindings`. A plain list of keys takes the fingerprint of the task. -/
def boundIdempotencyBindings (item : Task) : StringMap Bytes :=
  match item.detail.lookup boundIdempotencyKeysDetailKey with
  | some (.obj members) =>
    (∅ : StringMap Bytes).insertAll ((members.filter fun m => m.1 ≠ []).map fun m => (m.1, jsonString m.2))
  | some (.arr keys) =>
    (∅ : StringMap Bytes).insertAll
      (((keys.map jsonString).filter fun k => k ≠ []).map fun k => (k, item.operationFingerprint))
  | _ => ∅

def idempotencyKeyFingerprint (item : Task) (key : Bytes) : Option Bytes :=
  if key = [] then none
  else if item.idempotencyKey = key then some item.operationFingerprint
  else (boundIdempotencyBindings item).lookup key

def hasIdempotencyKey (item : Task) (key : Bytes) : Bool := (idempotencyKeyFingerprint item key).isSome

/-- `BindIdempotencyKeyFingerprint`: a key that is bound keeps its fingerprint. -/
def bindIdempotencyKeyFingerprint (item : Task) (key fingerprint : Bytes) : Task :=
  if key = [] ∨ item.idempotencyKey = key then item
  else
    let bindings := boundIdempotencyBindings item
    if (bindings.lookup key).isSome then item
    else
      let bound := (bindings.insert key fingerprint).entries.map fun e => (e.1, Json.str e.2)
      { item with detail := item.detail.insert boundIdempotencyKeysDetailKey (.obj bound) }

def idempotencyKeysDigest (detail : StringMap Json) : Bytes :=
  [1].intercalate ((boundIdempotencyBindings { detail := detail }).entries.map fun e => e.1 ++ 0 :: e.2)

end Tasks
