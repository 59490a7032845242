/-
Kairon/Process/Entity.lean

The data of `memory/process_entities.py`: the rows that plugins report of the
processes in a memory image, and the canonical entities that are made of them.

Ids are hashes, texts that are never empty.  Here they are any linearly ordered
type, with the hash as a parameter where one is computed.  Times are kept as the
texts that were reported; what they mean is for `_parse_time` to say, which is a
parameter too.
-/
import Mathlib
import Kairon.Search.Syntax

namespace Kairon.Process

open Search (Text)

/-- Ids are compared by their order. -/
scoped instance lawfulBEqOfLinearOrder {Id : Type} [LinearOrder Id] : LawfulBEq Id := inferInstance

/-! ### Observations -/

/-- The `observed` part of an observation.  No text in it is empty. -/
structure Observed where
  pid : ℤ
  ppid : Option ℤ
  name : Option Text
  commandLine : Option Text
  createTime : Option Text
  exitTime : Option Text
  uid : Option ℤ
  user : Option Text
  status : Option Text
  deriving DecidableEq

/-- One row of one plugin. -/
structure Observation (Id : Type) where
  observationId : Id
  pluginName : Text
  sourceRecordId : Text
  observed : Observed
  osFamily : Option Text
  deriving DecidableEq

/-! ### Entities -/

/-- The `process` part of an entity. -/
structure Fields where
  pid : ℤ
  ppid : Option ℤ
  name : Option Text
  executableName : Option Text
  commandLine : Option Text
  createTime : Option Text
  exitTime : Option Text
  uid : Option ℤ
  user : Option Text
  status : Option Text
  deriving DecidableEq

structure Visibility where
  listed : Bool
  scanOnly : Bool
  terminated : Bool
  unknown : Bool
  hiddenCandidate : Bool
  deriving DecidableEq

inductive Confidence
  | high | medium | low
  deriving DecidableEq

inductive Finding
  | scanOnly | hiddenCandidate | terminated | identityProvisional
  | missingParentInPslistOrPstree | nameConflict | commandLineMissing
  deriving DecidableEq

structure Entity (Id : Type) where
  id : Id
  osFamily : Option Text
  process : Fields
  visibility : Visibility
  sources : List Text
  confidence : Confidence
  findings : List Finding
  observations : List (Observation Id)
  deriving DecidableEq

end Kairon.Process
