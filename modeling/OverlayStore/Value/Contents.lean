import OverlayStore.Value.Heap

/-!
# Contents of a value

The contents of a value are the finite tree that is left when every handle is replaced by what its
cell holds. They exist unless a cell reaches itself. Two values with the same contents look alike,
although their cells may differ.
-/

namespace OverlayStore

/-- A value with the cells looked through. -/
inductive Contents where
  /-- Plain data. -/
  | plain (data : Plain)
  /-- An ordered list. -/
  | list (items : List Contents)
  /-- A map from texts. -/
  | map (entries : List (String × Contents))
  /-- A cell around what it holds. -/
  | cell (inside : Contents)
  /-- A foreign payload. -/
  | foreign (payload : Foreign)
  deriving Repr

namespace Value

mutual

/-- Contents of a value, given the contents of its cells. -/
def contentsWith (look : Cell → Option Contents) : Value → Option Contents
  | .plain data => some (.plain data)
  | .list items => (itemContents look items).map .list
  | .map entries => (entryContents look entries).map .map
  | .shared cell => (look cell).map .cell
  | .foreign payload => some (.foreign payload)

/-- Contents of the items of a list. -/
def itemContents (look : Cell → Option Contents) : List Value → Option (List Contents)
  | [] => some []
  | item :: rest =>
    match contentsWith look item, itemContents look rest with
    | some item, some rest => some (item :: rest)
    | _, _ => none

/-- Contents of the entries of a map. -/
def entryContents (look : Cell → Option Contents) :
    List (String × Value) → Option (List (String × Contents))
  | [] => some []
  | (key, value) :: rest =>
    match contentsWith look value, entryContents look rest with
    | some value, some rest => some ((key, value) :: rest)
    | _, _ => none

end

/-- Contents through at most `depth` cells on a path. -/
def contentsWithin (h : Heap) : Nat → Value → Option Contents
  | 0 => contentsWith fun _ => none
  | depth + 1 => contentsWith fun cell => (h.read? cell).bind (contentsWithin h depth)

/-- Contents of a value: no path passes more cells than the heap has, unless one reaches itself. -/
def contents? (h : Heap) (value : Value) : Option Contents := contentsWithin h h.size value

end Value

namespace Contents

mutual

/-- Structural text. -/
def structural : Contents → String
  | .plain data => data.structural
  | .list items => Text.applied "List" [Text.bracketed (structuralItems items)]
  | .map entries => Text.applied "Map" [Text.braced (structuralEntries entries)]
  | .cell inside => Text.applied "Shared" [Text.applied "SharedValue" [structural inside]]
  | .foreign payload =>
    Text.applied "Opaque"
      [Text.openRecord "OpaqueValue" [("type_name", Text.quoted payload.typeName)]]

/-- Structural texts of the items of a list. -/
def structuralItems : List Contents → List String
  | [] => []
  | item :: rest => structural item :: structuralItems rest

/-- Quoted keys and structural texts of the entries of a map. -/
def structuralEntries : List (String × Contents) → List (String × String)
  | [] => []
  | (key, value) :: rest => (Text.quoted key, structural value) :: structuralEntries rest

end

end Contents

/-- Structural text of a value; a value that reaches itself has no finite one. -/
def Value.structural? (h : Heap) (value : Value) : Option String :=
  (value.contents? h).map Contents.structural

end OverlayStore
