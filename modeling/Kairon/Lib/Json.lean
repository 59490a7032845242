/-
Kairon/Lib/Json.lean

JSON values, and what is written as one and read back.

Readers are partial: they have nothing for a value of another shape.  Each shape comes with a
rule that takes the round trip from its parts to the whole: values that may be missing
(`readOptional_writeOptional`), rows (`readArray_writeArray`), and dictionaries whose keys are
numbers (`readKeyed_writeKeyed`), which JSON has as texts.
-/
import Kairon.Lib.Dict
import Mathlib

namespace Kairon.Json

/-- A JSON value without signs and fractions. -/
inductive Value
  | null
  | bool (b : Bool)
  | nat (n : ℕ)
  | text (s : String)
  | array (items : List Value)
  | object (fields : List (String × Value))

/-- `data[key]`. -/
def field (key : String) : Value → Option Value
  | .object fields => Dict.get fields key
  | _ => none

def readBool : Value → Option Bool
  | .bool b => some b
  | _ => none

def readNat : Value → Option ℕ
  | .nat n => some n
  | _ => none

def readText : Value → Option String
  | .text s => some s
  | _ => none

variable {α : Type} (write : α → Value) (read : Value → Option α)

def writeOptional : Option α → Value
  | none => .null
  | some a => write a

def readOptional : Value → Option (Option α)
  | .null => some none
  | value => (read value).map some

def writeArray (items : List α) : Value := .array (items.map write)

/-- The items of a row, one by one. -/
def readItems : List Value → Option (List α)
  | [] => some []
  | item :: items => do
      let first ← read item
      let rest ← readItems items
      some (first :: rest)

def readArray : Value → Option (List α)
  | .array items => readItems read items
  | _ => none

/-- A dictionary whose keys are numbers. -/
def writeKeyed (entries : List (ℕ × α)) : Value :=
  .object (entries.map fun entry => (entry.1.repr, write entry.2))

/-- The entries of an object, assigned one by one. -/
def readEntries (entries : List (ℕ × α)) : List (String × Value) → Option (List (ℕ × α))
  | [] => some entries
  | item :: items => do
      let key ← item.1.toNat?
      let value ← read item.2
      readEntries (Dict.set key value entries) items

def readKeyed : Value → Option (List (ℕ × α))
  | .object fields => readEntries read [] fields
  | _ => none

/-! ### Reading back -/

variable {write read}

theorem readOptional_writeOptional {a : Option α}
    (h : ∀ b ∈ a, read (write b) = some b ∧ write b ≠ .null) :
    readOptional read (writeOptional write a) = some a := by
  rcases a with - | b
  · rfl
  · obtain ⟨hread, hnull⟩ := h b rfl
    rw [writeOptional]
    unfold readOptional
    split
    · next heq => exact absurd heq hnull
    · rw [hread]
      rfl

theorem readItems_map {items : List α} (h : ∀ a ∈ items, read (write a) = some a) :
    readItems read (items.map write) = some items := by
  induction items with
  | nil => rfl
  | cons a items ih =>
    rw [List.map_cons, readItems, h a List.mem_cons_self,
      ih fun b hb => h b (.tail _ hb)]
    rfl

theorem readArray_writeArray {items : List α} (h : ∀ a ∈ items, read (write a) = some a) :
    readArray read (writeArray write items) = some items :=
  readItems_map h

/-- Entries with new keys come behind those that are there. -/
theorem readEntries_map {entries more : List (ℕ × α)}
    (hnodup : ((entries ++ more).map Prod.fst).Nodup)
    (h : ∀ entry ∈ more, read (write entry.2) = some entry.2) :
    readEntries read entries (more.map fun entry => (entry.1.repr, write entry.2)) =
      some (entries ++ more) := by
  induction more generalizing entries with
  | nil => rw [List.append_nil]; rfl
  | cons entry more ih =>
    have hnew : entry.1 ∉ entries.map Prod.fst := fun hmem => by
      rw [List.map_append, List.map_cons] at hnodup
      exact (List.nodup_append.mp hnodup).2.2 _ hmem _ (.head _) rfl
    have hstep : Dict.set entry.1 entry.2 entries = entries ++ [entry] :=
      Dict.set_of_notMem entry.2 hnew
    rw [List.map_cons, readEntries, Nat.toNat?_repr, h entry List.mem_cons_self, Option.bind_eq_bind,
      Option.bind_some, Option.bind_eq_bind, Option.bind_some, hstep]
    rw [List.append_cons entries entry more] at hnodup ⊢
    exact ih hnodup fun other hother => h other (.tail _ hother)

/-- **A dictionary is read back with its entries in their order.** -/
theorem readKeyed_writeKeyed {entries : List (ℕ × α)} (hnodup : (entries.map Prod.fst).Nodup)
    (h : ∀ entry ∈ entries, read (write entry.2) = some entry.2) :
    readKeyed read (writeKeyed write entries) = some entries :=
  readEntries_map hnodup h

end Kairon.Json
