import SignalAtlas.Json.Basic
import SignalAtlas.Script.Source

/-!
# Syntax trees in JSON

A tree is the list of its nodes in preorder, each with its depth, its kind, a text of letters for
its flags, the field that it fills, the bytes at which it starts and stops, and its row.
-/

namespace SignalAtlas

/-- Read the depth and the tag of a node. -/
def Tag.ofJson? : Json → Option (Nat × Tag)
  | .array [depth, kind, flags, field, start, stop, row] => do
    let depth ← depth.count?
    let kind ← kind.string?
    let flags := (← flags.string?).toList
    let start ← start.count?
    let stop ← stop.count?
    let row ← row.word32?
    return (depth,
      { kind := kind
        named := flags.contains 'n'
        extra := flags.contains 'x'
        error := flags.contains 'e'
        missing := flags.contains 'm'
        field := field.string?
        start := start
        stop := stop
        row := row })
  | _ => none

/-- Read the result of parsing a source. -/
def Parse.ofJson? (j : Json) : Option Parse := do
  let entries ← (← j.member? "nodes").list? Tag.ofJson?
  let root ← Node.ofPreorder? entries
  let hasError ← (← j.member? "hasError").bool?
  return ⟨root, hasError⟩

/-- The grammar that knows the results for some sources; any other source is an empty tree. -/
def Grammar.ofTable (t : SortedMap String Parse) : Grammar := fun source =>
  t.getD source ⟨default, false⟩

end SignalAtlas
