import SignalAtlas.Signal.Fact
import SignalAtlas.Signal.Handler

/-!
# Extracting facts

`Script.extract` collects the facts of a script. A fact depends on one node and what lies below it
(`Extract.factsAt`): a declaration gives a definition, a call or a call inside an attribute chain
gives an emission or a connection if it has one of these forms.

* `sig.emit(…)` and `emit_signal("sig", …)`, the latter also on a receiver;
* `sig.connect(handler, flags)`, `connect("sig", handler, flags)` and the older
  `connect("sig", object, "method", binds, flags)`, the last two also on a receiver.
-/

namespace SignalAtlas

namespace Extract

/-! ### Declarations -/

/-- The name of a parameter and its type, if it has one. -/
def parameter? (s : Script) (n : Node) : Option (String × Option String) :=
  if n.kind == "identifier" then some (s.text n, none)
  else if n.kind == "variadic_parameter" then
    match h : n.namedChildren.head? with
    | some inner =>
      have := Node.size_lt_of_mem_namedChildren (List.mem_of_mem_head? h)
      parameter? s inner
    | none => none
  else
    match n.namedChildren.find? fun c => c.kind == "identifier" with
    | some name =>
      some (s.text name, ((n.field? "type").filter fun t => t.kind == "type").map s.text)
    | none => none
termination_by n.size

/-- The parameters of a declaration. -/
def parameters (s : Script) (n : Node) : List (String × Option String) :=
  match n.field? "parameters" with
  | some list => list.namedChildren.filterMap (parameter? s)
  | none => []

/-- The types of the parameters that have one; of two of one name the later one counts. -/
def typesOf (params : List (String × Option String)) : Option (SortedMap String String) :=
  let types := SortedMap.ofList (params.filterMap fun p => p.2.map (p.1, ·))
  if types.isEmpty then none else some types

/-- The definition that a declaration gives. -/
def definition? (s : Script) (file : String) (n : Node) : Option Definition :=
  (n.field? "name").map fun name =>
    let params := parameters s n
    { name := s.text name
      params := params.map Prod.fst
      paramTypes := typesOf params
      filePath := file
      line := n.line
      source := Text.trimEnd (s.text n) }

/-! ### Calls -/

/-- A call of a method by name: the node it is reported at, the parts of the receiver, if there is
one, and the arguments. -/
structure Call where
  site : Node
  method : String
  receiver : Option (List Node)
  args : List Node

/-- The name of a signal at the end of a chain and the chain of its owner. -/
def signal? (parts : List Node) : Option (Node × List Node) :=
  match parts.getLast? with
  | some name => if name.kind == "identifier" then some (name, parts.dropLast) else none
  | none => none

/-- Whether a chain is built only from names and node references. -/
def isStatic : List Node → Bool
  | [] => false
  | first :: rest =>
    (first.kind == "identifier" || first.kind == "get_node") &&
      rest.all fun p => p.kind == "identifier"

/-- The text of a receiver that can be named without evaluating anything. -/
def staticTarget? (s : Script) (receiver : List Node) : Option String :=
  if isStatic receiver then some (s.chainText receiver) else none

/-- The text literal in front of the arguments. -/
def leadingLiteral? (s : Script) (args : List Node) : Option String :=
  args.head?.bind s.literal?

/-- The connection of a handler with flags to a signal. -/
def connection (s : Script) (file : String) (c : Call) (signalName : String)
    (target : Option String) (handler : Node) (flags : Option Node) : Fact :=
  let h := Handler.resolve s handler
  .connection
    { signalName
      filePath := file
      line := c.site.line
      target
      handler := h.label
      flags := (flags.map (Flag.decode s)).getD []
      isLambda := h.isLambda }

/-- `sig.emit(…)` -/
def emit? (s : Script) (file : String) (c : Call) (parts : List Node) : Option Fact :=
  (signal? parts).map fun (name, owner) =>
    .emission
      { signalName := s.text name
        filePath := file
        line := c.site.line
        emitter := if owner.isEmpty then "self" else s.chainText owner
        args := c.args.map s.text }

/-- `emit_signal("sig", …)` -/
def emitByName? (s : Script) (file : String) (c : Call) : Option Fact :=
  (leadingLiteral? s c.args).map fun name =>
    .emission
      { signalName := name
        filePath := file
        line := c.site.line
        emitter := (c.receiver.map s.chainText).getD "self"
        args := (c.args.drop 1).map s.text }

/-- `sig.connect(handler, flags)` -/
def connect? (s : Script) (file : String) (c : Call) (parts : List Node) : Option Fact :=
  match signal? parts, c.args with
  | some (name, owner), handler :: rest =>
    let target := if owner.isEmpty then some "self" else staticTarget? s owner
    some (connection s file c (s.text name) target handler rest.head?)
  | _, _ => none

/-- The handler and the flags of a connection by name. In the older form the third argument is a
text, and bound values may stand before the flags. -/
def handlerAndFlags? (s : Script) (args : List Node) : Option (Node × Option Node) :=
  match args[2]?.filter fun a => (s.literal? a).isSome with
  | some method =>
    some (method, if args[3]?.any fun b => b.kind == "array" then args[4]? else args[3]?)
  | none => args[1]?.map (·, args[2]?)

/-- `connect("sig", handler, flags)` -/
def connectByName? (s : Script) (file : String) (c : Call) : Option Fact :=
  match leadingLiteral? s c.args, handlerAndFlags? s c.args with
  | some name, some (handler, flags) =>
    let target :=
      match c.receiver with
      | none => some "self"
      | some r => staticTarget? s r
    some (connection s file c name target handler flags)
  | _, _ => none

/-- The fact that a call gives. -/
def callFact? (s : Script) (file : String) (c : Call) : Option Fact :=
  if c.method == "emit" then c.receiver.bind (emit? s file c)
  else if c.method == "emit_signal" then emitByName? s file c
  else if c.method == "connect" then
    match c.receiver with
    | some parts =>
      if (leadingLiteral? s c.args).isSome then connectByName? s file c
      else connect? s file c parts
    | none => connectByName? s file c
  else none

/-- The call of a call node: of a plain name, or of the name at the end of a chain. -/
def callOf? (s : Script) (n : Node) : Option Call :=
  match n.namedChildren.head? with
  | none => none
  | some f =>
    if f.kind == "identifier" then some ⟨n, s.text f, none, n.arguments⟩
    else if f.kind == "attribute" then
      match signal? f.namedChildren with
      | some (method, receiver) =>
        if receiver.isEmpty then none else some ⟨n, s.text method, some receiver, n.arguments⟩
      | none => none
    else none

/-- The calls inside an attribute chain, `before` being the parts already passed. -/
def chainCalls (s : Script) (site : Node) : (before parts : List Node) → List Call
  | _, [] => []
  | before, part :: parts =>
    let rest := chainCalls s site (before ++ [part]) parts
    if part.kind == "attribute_call" && !before.isEmpty then
      match s.methodName? part with
      | some method => ⟨site, method, some before, part.arguments⟩ :: rest
      | none => rest
    else rest

/-! ### Nodes -/

/-- The facts of a node itself. -/
def factsAt (s : Script) (file : String) (n : Node) : List Fact :=
  if n.kind == "signal_statement" then ((definition? s file n).map Fact.definition).toList
  else if n.kind == "call" then ((callOf? s n).bind (callFact? s file)).toList
  else if n.kind == "attribute" then
    (chainCalls s n [] n.namedChildren).filterMap (callFact? s file)
  else []

end Extract

/-- The facts of a script, stored under a file name. -/
def Script.extract (s : Script) (file : String) : FileSignals :=
  .ofFacts file (s.walk.flatMap (Extract.factsAt s file))

end SignalAtlas
