import SignalAtlas.Signal.Flag

/-!
# Handlers

The handler of a connection is an expression. `Handler.resolve` names it: it looks through
`Callable(…)` and through `.bind(…)` and `.unbind(…)` at whatever they are applied to.
-/

namespace SignalAtlas

/-- What a connection calls: its name, or the text of the expression. -/
structure Handler where
  label : String
  isLambda : Bool
  deriving DecidableEq, Repr

/-! ### Parts of calls -/

/-- The arguments of a call. -/
def Node.arguments (n : Node) : List Node := ((n.field? "arguments").map namedChildren).getD []

theorem Node.size_lt_of_mem_arguments {m n : Node} (h : m ∈ n.arguments) : m.size < n.size := by
  rw [arguments] at h
  cases hf : n.field? "arguments" with
  | none => simp [hf] at h
  | some a =>
    rw [hf] at h
    exact Nat.lt_trans (size_lt_of_mem_namedChildren h) (size_lt_of_field? hf)

namespace Script

/-- The text of a chain of parts. -/
def chainText (s : Script) (parts : List Node) : String :=
  match parts.head?, parts.getLast? with
  | some first, some last => s.spanText first last
  | _, _ => ""

/-- The contents of a text literal. -/
def literal? (s : Script) (n : Node) : Option String :=
  if n.kind == "string" || n.kind == "string_name" || n.kind == "node_path" then
    some (Literal.unquote (s.text n))
  else none

/-- The name of the method that a part of a chain calls. -/
def methodName? (s : Script) (part : Node) : Option String :=
  (part.namedChildren.head?.filter fun n => n.kind == "identifier").map s.text

end Script

namespace Handler

/-- Whether a method gives the callable it is called on, with other arguments. -/
def rebinds (method : String) : Bool := method == "bind" || method == "unbind"

/-- An expression kept as it is written. -/
def verbatim (s : Script) (n : Node) : Handler := ⟨s.text n, false⟩

/-- The label of a lambda: its name, if it has one, and its line. -/
def lambda (s : Script) (n : Node) : Handler :=
  match n.field? "name" with
  | some name => ⟨"<lambda:" ++ s.text name ++ ">@" ++ toString n.line, true⟩
  | none => ⟨"<lambda>@" ++ toString n.line, true⟩

/-- What a call stands for as a handler: it wraps another expression, rebinds a chain of parts, or
is a call like any other. -/
inductive Wrapper where
  | callable (inner : Node)
  | rebound (owner : List Node)
  | other

/-- Take a call apart. -/
def wrapper (s : Script) (call : Node) : Wrapper :=
  match call.namedChildren.head? with
  | none => .other
  | some f =>
    if f.kind == "identifier" && s.text f == "Callable" then
      match call.arguments with
      | [inner] => .callable inner
      | [_, method] => if (s.literal? method).isSome then .callable method else .other
      | _ => .other
    else if f.kind == "attribute" then
      match f.namedChildren.getLast? with
      | some last =>
        let owner := f.namedChildren.dropLast
        if !owner.isEmpty && rebinds (s.text last) then .rebound owner else .other
      | none => .other
    else .other

theorem size_lt_of_wrapper_callable {s : Script} {call inner : Node}
    (h : wrapper s call = .callable inner) : inner.size < call.size := by
  apply Node.size_lt_of_mem_arguments
  simp only [wrapper] at h
  grind

theorem forestSize_dropLast_le (l : List Node) :
    Node.forestSize l.dropLast ≤ Node.forestSize l := by
  induction l with
  | nil => simp
  | cons n l ih =>
    cases l with
    | nil => simp [Node.forestSize]
    | cons m l => simp only [List.dropLast_cons_cons, Node.forestSize] at ih ⊢; omega

theorem forestSize_dropLast_lt {l : List Node} (h : l ≠ []) :
    Node.forestSize l.dropLast < Node.forestSize l := by
  induction l with
  | nil => exact absurd rfl h
  | cons n l ih =>
    cases l with
    | nil => simpa [Node.forestSize] using n.size_pos
    | cons m l =>
      have := ih (by simp)
      simp only [List.dropLast_cons_cons, Node.forestSize] at this ⊢
      omega

theorem forestSize_lt_of_wrapper_rebound {s : Script} {call : Node} {owner : List Node}
    (h : wrapper s call = .rebound owner) : Node.forestSize owner < call.size := by
  simp only [wrapper] at h
  split at h
  · simp at h
  · next f hf =>
    have hsize : f.size < call.size :=
      Node.size_lt_of_mem_namedChildren (List.mem_of_mem_head? (by rw [hf]; rfl))
    have hle := forestSize_dropLast_le f.namedChildren
    have hlt := f.forestSize_namedChildren_lt
    obtain rfl : owner = f.namedChildren.dropLast := by grind
    omega

mutual

/-- The handler that an expression stands for. -/
def resolve (s : Script) (n : Node) : Handler :=
  if n.kind == "identifier" then verbatim s n
  else if n.kind == "string" || n.kind == "string_name" then
    ⟨Literal.unquote (s.text n), false⟩
  else if n.kind == "attribute" then
    have := n.forestSize_namedChildren_lt
    resolveChain s n.namedChildren
  else if n.kind == "lambda" then lambda s n
  else if n.kind == "call" then
    match h : wrapper s n with
    | .callable inner =>
      have := size_lt_of_wrapper_callable h
      resolve s inner
    | .rebound owner =>
      have := forestSize_lt_of_wrapper_rebound h
      resolveChain s owner
    | .other => verbatim s n
  else verbatim s n
termination_by (n.size, 0)

/-- The handler that a chain of parts stands for: the one of a single part, the name at its end,
or what the chain before a rebinding call stands for. -/
def resolveChain (s : Script) : List Node → Handler
  | [] => ⟨"", false⟩
  | [single] =>
    have : single.size = Node.forestSize [single] := by simp [Node.forestSize]
    resolve s single
  | first :: second :: rest =>
    let last := (second :: rest).getLast (by simp)
    if last.kind == "identifier" then verbatim s last
    else if last.kind == "attribute_call" && (s.methodName? last).any rebinds then
      have := forestSize_dropLast_lt (List.cons_ne_nil first (second :: rest))
      resolveChain s (first :: second :: rest).dropLast
    else ⟨s.chainText (first :: second :: rest), false⟩
termination_by parts => (Node.forestSize parts, 1)

end

end Handler

end SignalAtlas
