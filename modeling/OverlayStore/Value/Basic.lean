import OverlayStore.Number.Basic

/-!
# Values

A value is plain data, a container of values, a handle to a mutable cell, or a foreign payload that
is only held by reference. Handles carry an identity, so a value means something only together with
a heap that says what its cells hold.
-/

namespace OverlayStore

/-- A handle to a mutable cell; equal handles lead to one cell. -/
structure Cell where
  /-- Position of the cell in the heap. -/
  index : Nat
  deriving DecidableEq, Repr

/-- A payload of a foreign type, held by reference and without any copy of its own. -/
structure Foreign where
  /-- Identity of the payload. -/
  serial : Nat
  /-- Name of the type of the payload. -/
  typeName : String
  deriving DecidableEq, Repr

/-- Data without parts that could be shared. -/
inductive Plain where
  /-- A truth value. -/
  | bool (b : Bool)
  /-- 8-bit whole number. -/
  | byte (n : Int8)
  /-- 16-bit whole number. -/
  | short (n : Int16)
  /-- 32-bit whole number. -/
  | int (n : Int32)
  /-- 64-bit whole number. -/
  | long (n : Int64)
  /-- 32-bit float. -/
  | float (x : Single)
  /-- 64-bit float. -/
  | double (x : Double)
  /-- Text. -/
  | text (s : String)
  /-- A sequence of bytes. -/
  | bytes (b : List UInt8)
  deriving DecidableEq, Repr

/-- A value of the store. -/
inductive Value where
  /-- Plain data. -/
  | plain (data : Plain)
  /-- An ordered list. -/
  | list (items : List Value)
  /-- A map from texts, its entries in the order of the keys. -/
  | map (entries : List (String × Value))
  /-- A handle to a mutable cell. -/
  | shared (cell : Cell)
  /-- A foreign payload. -/
  | foreign (payload : Foreign)
  deriving Repr

namespace Foreign

/-- Payloads are the same if they are the identical one. -/
def same (a b : Foreign) : Bool := a.serial == b.serial

/-- Whether the payload is of the named type. -/
def hasType (payload : Foreign) (typeName : String) : Bool := payload.typeName == typeName

end Foreign

namespace Plain

/-- Name of the kind. -/
def kind : Plain → String
  | .bool _ => "bool"
  | .byte _ => "byte"
  | .short _ => "short"
  | .int _ => "int"
  | .long _ => "long"
  | .float _ => "float"
  | .double _ => "double"
  | .text _ => "text"
  | .bytes _ => "bytes"

/-- Byte sequences are the one plain kind that counts as a container. -/
def isAtomic : Plain → Bool
  | .bytes _ => false
  | _ => true

/-- Equality within a kind; floats compare as numbers. -/
def same : Plain → Plain → Bool
  | .bool a, .bool b => a == b
  | .byte a, .byte b => a == b
  | .short a, .short b => a == b
  | .int a, .int b => a == b
  | .long a, .long b => a == b
  | .float a, .float b => a.same b
  | .double a, .double b => a.same b
  | .text a, .text b => a == b
  | .bytes a, .bytes b => a == b
  | _, _ => false

/-- The number that a counter sees; the narrow kinds count as `long`. -/
def number? : Plain → Option Number
  | .byte n => some (.long n.toInt64)
  | .short n => some (.long n.toInt64)
  | .int n => some (.int n)
  | .long n => some (.long n)
  | .float x => some (.float x)
  | .double x => some (.double x)
  | _ => none

/-- A number as plain data of the same kind. -/
def ofNumber : Number → Plain
  | .int n => .int n
  | .long n => .long n
  | .float x => .float x
  | .double x => .double x

/-- Structural text. -/
def structural : Plain → String
  | .bool b => Text.applied "Bool" [cond b "true" "false"]
  | .byte n => Text.applied "Byte" [Int.repr n.toInt]
  | .short n => Text.applied "Short" [Int.repr n.toInt]
  | .int n => Text.applied "Int" [Int.repr n.toInt]
  | .long n => Text.applied "Long" [Int.repr n.toInt]
  | .float x => Text.applied "Float" [x.structural]
  | .double x => Text.applied "Double" [x.structural]
  | .text s => Text.applied "Text" [Text.quoted s]
  | .bytes b => Text.applied "Bytes" [Text.bracketed (b.map fun n => Nat.repr n.toNat)]

/-- A number and its plain form count alike. -/
@[simp] theorem number?_ofNumber (n : Number) : (ofNumber n).number? = some n := by
  cases n <;> rfl

end Plain

namespace Value

/-- Name of the kind. -/
def kind : Value → String
  | .plain data => data.kind
  | .list _ => "list"
  | .map _ => "map"
  | .shared _ => "shared"
  | .foreign _ => "opaque"

/-- Whether nothing inside the value can be changed in place. -/
def isAtomic : Value → Bool
  | .plain data => data.isAtomic
  | _ => false

/-- The truth value, if it is one. -/
def bool? : Value → Option Bool
  | .plain (.bool b) => some b
  | _ => none

/-- The whole number, whatever its width. -/
def integer? : Value → Option Int64
  | .plain (.byte n) => some n.toInt64
  | .plain (.short n) => some n.toInt64
  | .plain (.int n) => some n.toInt64
  | .plain (.long n) => some n
  | _ => none

/-- The text, if it is one. -/
def text? : Value → Option String
  | .plain (.text s) => some s
  | _ => none

/-- The items of a list. -/
def items? : Value → Option (List Value)
  | .list items => some items
  | _ => none

/-- The entries of a map. -/
def entries? : Value → Option (List (String × Value))
  | .map entries => some entries
  | _ => none

/-- The handle, if it is one. -/
def cell? : Value → Option Cell
  | .shared cell => some cell
  | _ => none

/-- The number that a counter sees. -/
def number? : Value → Option Number
  | .plain data => data.number?
  | _ => none

/-- A number as a value. -/
def ofNumber (n : Number) : Value := .plain (.ofNumber n)

@[simp] theorem number?_ofNumber (n : Number) : (ofNumber n).number? = some n :=
  Plain.number?_ofNumber n

/-- Put an entry into entries that are in the order of their keys; an equal key is replaced. -/
def insertEntry (key : String) (value : α) : List (String × α) → List (String × α)
  | [] => [(key, value)]
  | (k, v) :: rest =>
    match compare key k with
    | .lt => (key, value) :: (k, v) :: rest
    | .eq => (key, value) :: rest
    | .gt => (k, v) :: insertEntry key value rest

/-- A map from entries in any order; of equal keys the last one counts. -/
def ofEntries (entries : List (String × Value)) : Value :=
  .map (entries.foldl (fun sorted (key, value) => insertEntry key value sorted) [])

/-- Add to the contents of a container: behind a list, or under a key of a map, together with the
new size; anything else is replaced, and counts as empty. -/
def extended (old : Value) (key : String) (item : Value) : Value × Nat :=
  match old with
  | .list items => (.list (items ++ [item]), items.length + 1)
  | .map entries =>
    let entries := insertEntry key item entries
    (.map entries, entries.length)
  | _ => (item, 0)

end Value

end OverlayStore
