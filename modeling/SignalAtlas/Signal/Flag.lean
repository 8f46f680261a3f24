import SignalAtlas.Script.Source
import SignalAtlas.Signal.Literal

/-!
# Connection flags

A connection can carry flags, a bit mask. `Flag.decode` names the flags of an expression that is
built by `|` and `+` from integer literals and the constants of the engine. What has no name is
kept as it is written.
-/

namespace SignalAtlas

/-- A flag of a connection: the number of its bit, its name in a fact, and the constants that stand
for it in a script. -/
structure Flag where
  bit : Nat
  name : String
  constants : List String

namespace Flag

/-- The flags by increasing bit. -/
def all : List Flag :=
  [⟨0, "deferred", ["CONNECT_DEFERRED"]⟩, ⟨1, "persist", ["CONNECT_PERSIST"]⟩,
    ⟨2, "one_shot", ["CONNECT_ONE_SHOT", "CONNECT_ONESHOT"]⟩,
    ⟨3, "reference_counted", ["CONNECT_REFERENCE_COUNTED"]⟩]

/-- The name of the flag that a constant stands for. -/
def ofConstant? (constant : String) : Option String :=
  (all.find? fun f => f.constants.contains constant).map Flag.name

/-- The names of the flags in a mask. -/
def namesOf (mask : Nat) : List String :=
  (all.filter fun f => mask.testBit f.bit).map Flag.name

/-- The flags of an integer literal. The text is kept if a bit has no name or there is no value. -/
def ofLiteral (text : String) : List String :=
  match Literal.natural? text with
  | some mask => namesOf mask ++ if mask < Nat.pow 2 all.length then [] else [text]
  | none => [text]

/-- The parts of an attribute chain; any other expression is a chain by itself. -/
def chain (n : Node) : List Node :=
  if n.kind == "attribute" then n.namedChildren else [n]

/-- The flag of a constant, written by itself or as the last part of a chain. -/
def ofConstant (s : Script) (n : Node) : List String :=
  let name? := ((chain n).getLast?.filter fun p => p.kind == "identifier").bind fun p =>
    ofConstant? (s.text p)
  [name?.getD (s.text n)]

/-- Whether an operator joins flags. -/
def joins (s : Script) (n : Node) : Bool :=
  match n.field? "op" with
  | some op => s.text op == "|" || s.text op == "+"
  | none => false

/-- The flags of an expression from left to right. -/
def leaves (s : Script) (n : Node) : List String :=
  if n.kind == "binary_operator" then
    match hl : n.field? "left", hr : n.field? "right" with
    | some left, some right =>
      have := Node.size_lt_of_field? hl
      have := Node.size_lt_of_field? hr
      if joins s n then leaves s left ++ leaves s right else [s.text n]
    | _, _ => [s.text n]
  else if n.kind == "integer" then ofLiteral (s.text n)
  else if n.kind == "identifier" || n.kind == "attribute" then ofConstant s n
  else [s.text n]
termination_by n.size

/-- The flags of an expression, each once. -/
def decode (s : Script) (n : Node) : List String := (leaves s n).eraseDups

end Flag

end SignalAtlas
