import Mathlib.Tactic
import SignalAtlas.Signal.Extract
import SignalAtlas.Proofs.Traversals
import SignalAtlas.Proofs.Handlers

/-!
# Trees without extras

Comments and line continuations are extras: they may stand anywhere in a tree. `Node.Thinned` says
that some of them are left out, and `Node.strip` leaves out all that can be. Two trees that differ
in extras only are the same once stripped (`Thinned.strip_eq`).

Every function on the way to the facts of a script takes the significant children of a node or the
first child that plays a part, so it commutes with `strip`. There is one such equation for each of
them, up to the facts of a node (`Extract.factsAt_strip`) and of a script (`Script.extract_strip`).
-/

namespace SignalAtlas

namespace Node

/-! ### Leaving nodes out -/

/-- Whether a node can be left out of its tree: an extra without children that plays no part. -/
def idle (n : Node) : Bool := n.tag.extra && n.children.isEmpty && n.tag.field.isNone

mutual

/-- The tree without the nodes below its root that can be left out, or can be once those below them
are. -/
def strip : Node → Node
  | .node t l => .node t (stripAll l)

/-- The trees of a list that cannot be left out, each stripped. -/
def stripAll : List Node → List Node
  | [] => []
  | n :: l => if n.strip.idle then stripAll l else n.strip :: stripAll l

end

theorem stripAll_eq (l : List Node) : stripAll l = (l.map strip).filter fun n => !n.idle := by
  induction l with
  | nil => rfl
  | cons n l ih =>
    rw [stripAll, ih, List.map_cons, List.filter_cons]
    cases n.strip.idle <;> rfl

@[simp] theorem tag_strip (n : Node) : n.strip.tag = n.tag := by
  cases n; rfl

theorem children_strip (n : Node) :
    n.strip.children = (n.children.map strip).filter fun n => !n.idle := by
  cases n; exact stripAll_eq _

@[simp] theorem kind_strip (n : Node) : n.strip.kind = n.kind := by
  rw [kind, tag_strip, kind]

@[simp] theorem line_strip (n : Node) : n.strip.line = n.line := by
  rw [line, tag_strip, line]

@[simp] theorem significant_strip (n : Node) : n.strip.significant = n.significant := by
  rw [significant, tag_strip, significant]

theorem significant_of_idle {n : Node} (h : n.idle = true) : n.significant = false := by
  simp only [idle, Bool.and_eq_true] at h
  simp [significant, h.1.1]

theorem field_of_idle {n : Node} (h : n.idle = true) : n.tag.field = none := by
  simp only [idle, Bool.and_eq_true] at h
  simpa using h.2

theorem children_of_idle {n : Node} (h : n.idle = true) : n.children = [] := by
  simp only [idle, Bool.and_eq_true] at h
  simpa using h.1.2

@[simp] theorem namedChildren_strip (n : Node) :
    n.strip.namedChildren = n.namedChildren.map strip := by
  rw [namedChildren, children_strip, List.filter_filter, List.filter_map, namedChildren]
  congr 1
  apply List.filter_congr
  intro m _
  simp only [Function.comp_apply, significant_strip]
  cases hidle : m.strip.idle
  · simp
  · have := significant_of_idle hidle
    rw [significant_strip] at this
    simp [this]

@[simp] theorem field?_strip (n : Node) (name : String) :
    n.strip.field? name = (n.field? name).map strip := by
  rw [field?, children_strip, List.find?_filter, List.find?_map, field?]
  congr 2
  funext m
  simp only [Function.comp_apply, tag_strip]
  cases hidle : m.strip.idle
  · by_cases hfield : m.tag.field = some name <;> simp [hfield]
  · have := field_of_idle hidle
    rw [tag_strip] at this
    simp [this]

@[simp] theorem arguments_strip (n : Node) : n.strip.arguments = n.arguments.map strip := by
  rw [arguments, field?_strip, arguments]
  cases n.field? "arguments" <;> simp

mutual

/-- The significant nodes of a stripped tree are those of the tree, stripped. -/
theorem preorder_strip : ∀ n : Node,
    n.strip.preorder.filter significant = (n.preorder.filter significant).map strip
  | .node t l => by
    have hroot : (Node.node t (stripAll l)).significant = (Node.node t l).significant := rfl
    rw [strip, preorder, preorder, List.filter_cons, List.filter_cons, hroot,
      forestPreorder_strip l]
    split
    · rw [List.map_cons, strip]
    · rfl

theorem forestPreorder_strip : ∀ l : List Node,
    (forestPreorder (stripAll l)).filter significant =
      ((forestPreorder l).filter significant).map strip
  | [] => rfl
  | n :: l => by
    have hhead := preorder_strip n
    rw [stripAll, forestPreorder, List.filter_append, List.map_append, ← forestPreorder_strip l,
      ← hhead]
    split
    · next hidle =>
      -- nothing below a node that is left out is significant
      have hnone : n.strip.preorder.filter significant = [] := by
        have hchildren := children_of_idle hidle
        have hsig := significant_of_idle hidle
        cases hn : n.strip with
        | node t k =>
          rw [hn] at hchildren hsig
          obtain rfl : k = [] := hchildren
          simp [preorder, forestPreorder, hsig]
      rw [hnone, List.nil_append]
    · rw [forestPreorder, List.filter_append]

end

/-! ### Any selection of extras -/

mutual

/-- `Thinned n n'`: the tree `n'` is `n` without some extras that have no children and play no
part. -/
inductive Thinned : Node → Node → Prop where
  | node {t : Tag} {l l' : List Node} (children : ThinnedAll l l') :
      Thinned (.node t l) (.node t l')

/-- `ThinnedAll l l'`: the same for lists of trees, whose roots may go as well. -/
inductive ThinnedAll : List Node → List Node → Prop where
  | nil : ThinnedAll [] []
  | keep {n n' : Node} {l l' : List Node} (head : Thinned n n') (tail : ThinnedAll l l') :
      ThinnedAll (n :: l) (n' :: l')
  | drop {n : Node} {l l' : List Node} (extra : n.tag.extra = true) (leaf : n.children = [])
      (field : n.tag.field = none) (tail : ThinnedAll l l') : ThinnedAll (n :: l) l'

end

theorem strip_idle {n : Node} (extra : n.tag.extra = true) (leaf : n.children = [])
    (field : n.tag.field = none) : n.strip.idle = true := by
  simp [idle, extra, field, children_strip, leaf]

mutual

/-- Whatever extras were left out, all trees are the same once stripped. -/
theorem Thinned.strip_eq : ∀ {n n' : Node}, Thinned n n' → n.strip = n'.strip
  | _, _, .node children => by
    rw [strip, strip, children.strip_eq]

theorem ThinnedAll.strip_eq : ∀ {l l' : List Node}, ThinnedAll l l' → stripAll l = stripAll l'
  | _, _, .nil => rfl
  | _, _, .keep head tail => by
    rw [stripAll, stripAll, head.strip_eq, tail.strip_eq]
  | _, _, .drop extra leaf field tail => by
    rw [stripAll, if_pos (strip_idle extra leaf field), tail.strip_eq]

end

end Node

/-! ### Flags, form by form -/

namespace Flag

variable {s : Script} {n : Node}

theorem leaves_of_joins {left right : Node} (hkind : n.kind = "binary_operator")
    (hl : n.field? "left" = some left) (hr : n.field? "right" = some right)
    (hjoins : joins s n = true) : leaves s n = leaves s left ++ leaves s right := by
  rw [leaves, if_pos (by simpa using hkind)]
  split
  · next l r hl' hr' =>
    cases hl.symm.trans hl'
    cases hr.symm.trans hr'
    rw [if_pos hjoins]
  · next hnone => exact absurd hr (hnone left right hl)

theorem leaves_of_not_joins (hkind : n.kind = "binary_operator")
    (h : ∀ left right, n.field? "left" = some left → n.field? "right" = some right →
      joins s n = false) : leaves s n = [s.text n] := by
  rw [leaves, if_pos (by simpa using hkind)]
  split
  · next l r hl hr =>
    rw [if_neg]
    simp [h l r hl hr]
  · rfl

theorem leaves_of_integer (h : n.kind = "integer") : leaves s n = ofLiteral (s.text n) := by
  rw [leaves]
  simp [h]

theorem leaves_of_constant (h : n.kind = "identifier" ∨ n.kind = "attribute") :
    leaves s n = ofConstant s n := by
  rw [leaves]
  rcases h with h | h <;> simp [h]

theorem leaves_of_other (h : n.kind ∉ ["binary_operator", "integer", "identifier", "attribute"]) :
    leaves s n = [s.text n] := by
  rw [leaves]
  simp only [List.mem_cons, List.not_mem_nil, or_false, not_or] at h
  simp [h]

end Flag

/-! ### Texts and handlers

From here on, `s` and `s'` are two scripts over one source. What is read off a stripped node in the
one is what is read off the node in the other, so neither the extras nor the rest of the tree
matters. -/

section Reading

variable {s s' : Script} (hs : s'.source = s.source)

include hs

theorem text_strip (n : Node) : s'.text n.strip = s.text n := by
  rw [Script.text, Script.text, hs, Node.tag_strip]

theorem texts_strip (l : List Node) : (l.map Node.strip).map s'.text = l.map s.text := by
  rw [List.map_map]
  exact List.map_congr_left fun n _ => text_strip hs n

theorem chainText_strip (parts : List Node) :
    s'.chainText (parts.map Node.strip) = s.chainText parts := by
  rw [Script.chainText, Script.chainText, List.head?_map, List.getLast?_map]
  cases parts.head? with
  | none => rfl
  | some first =>
    cases parts.getLast? with
    | none => rfl
    | some last => simp [Script.spanText, hs]

theorem literal?_strip (n : Node) : s'.literal? n.strip = s.literal? n := by
  rw [Script.literal?, Script.literal?, Node.kind_strip, text_strip hs]

/-- The text of a node that may be missing or of another kind. -/
theorem textOfKind_strip (kind : String) (n? : Option Node) :
    ((n?.map Node.strip).filter fun n => n.kind == kind).map s'.text =
      (n?.filter fun n => n.kind == kind).map s.text := by
  cases n? with
  | none => rfl
  | some n =>
    rw [Option.map_some, Option.filter_some, Option.filter_some, Node.kind_strip]
    split
    · exact congrArg some (text_strip hs n)
    · rfl

theorem methodName?_strip (part : Node) : s'.methodName? part.strip = s.methodName? part := by
  rw [Script.methodName?, Script.methodName?, Node.namedChildren_strip, List.head?_map]
  exact textOfKind_strip hs "identifier" _

namespace Flag

omit hs in
theorem chain_strip (n : Node) : chain n.strip = (chain n).map Node.strip := by
  rw [chain, chain, Node.kind_strip, Node.namedChildren_strip]
  split <;> rfl

theorem ofConstant_strip (n : Node) : ofConstant s' n.strip = ofConstant s n := by
  rw [ofConstant, ofConstant, chain_strip, List.getLast?_map, text_strip hs]
  cases (chain n).getLast? with
  | none => rfl
  | some p =>
    by_cases hp : p.kind = "identifier"
    · simp [Option.filter_some, hp, text_strip hs]
    · simp [Option.filter_some, hp]

theorem joins_strip (n : Node) : joins s' n.strip = joins s n := by
  rw [joins, joins, Node.field?_strip]
  cases n.field? "op" with
  | none => rfl
  | some op => simp [text_strip hs]

theorem leaves_strip (n : Node) : leaves s' n.strip = leaves s n := by
  fun_induction leaves s n with
  | case1 n hkind left right hl hr _ _ hjoins ihl ihr =>
    rw [leaves_of_joins (by simpa using hkind) (by rw [Node.field?_strip, hl]; rfl)
      (by rw [Node.field?_strip, hr]; rfl) (by rwa [joins_strip hs]), ihl, ihr]
  | case2 n hkind left right hl hr _ _ hjoins =>
    rw [leaves_of_not_joins (by simpa using hkind), text_strip hs]
    intro l r _ _
    rw [joins_strip hs]
    simpa using hjoins
  | case3 n hkind hnone =>
    rw [leaves_of_not_joins (by simpa using hkind), text_strip hs]
    intro l r hl hr
    rw [Node.field?_strip] at hl hr
    obtain ⟨left, hleft, -⟩ := Option.map_eq_some_iff.1 hl
    obtain ⟨right, hright, -⟩ := Option.map_eq_some_iff.1 hr
    exact absurd hright (hnone left right hleft)
  | case4 n _ hkind => rw [leaves_of_integer (by simpa using hkind), text_strip hs]
  | case5 n _ _ hkind => rw [leaves_of_constant (by simpa using hkind), ofConstant_strip hs]
  | case6 n hbinary hinteger hconstant =>
    rw [leaves_of_other, text_strip hs]
    simp_all

theorem decode_strip (n : Node) : decode s' n.strip = decode s n := by
  rw [decode, decode, leaves_strip hs]

end Flag

namespace Handler

theorem verbatim_strip (n : Node) : verbatim s' n.strip = verbatim s n := by
  rw [verbatim, verbatim, text_strip hs]

theorem lambda_strip (n : Node) : lambda s' n.strip = lambda s n := by
  rw [lambda, lambda, Node.field?_strip]
  cases n.field? "name" with
  | none => simp
  | some name => simp [text_strip hs]

omit hs in
/-- What a call wraps, stripped. -/
def Wrapper.strip : Wrapper → Wrapper
  | .callable inner => .callable inner.strip
  | .rebound owner => .rebound (owner.map Node.strip)
  | .other => .other

theorem wrapper_strip (n : Node) : wrapper s' n.strip = (wrapper s n).strip := by
  rw [wrapper, wrapper, Node.namedChildren_strip, List.head?_map, Node.arguments_strip]
  cases n.namedChildren.head? with
  | none => rfl
  | some f =>
    simp only [Option.map_some, Node.kind_strip, text_strip hs, Node.namedChildren_strip,
      List.getLast?_map]
    split
    · rcases n.arguments with _ | ⟨a, _ | ⟨b, _ | ⟨c, l⟩⟩⟩
      · rfl
      · rfl
      · simp only [List.map_cons, List.map_nil, literal?_strip hs]
        split <;> rfl
      · rfl
    · split
      · cases hlast : f.namedChildren.getLast? with
        | none => rfl
        | some last =>
          simp only [Option.map_some, text_strip hs, ← List.map_dropLast, List.isEmpty_map]
          split <;> rfl
      · rfl

theorem isRebinding_strip (part : Node) : isRebinding s' part.strip = isRebinding s part := by
  rw [isRebinding, isRebinding, Node.kind_strip, methodName?_strip hs]

-- The induction goes down the calls of `resolve` and `resolveChain` to each other; a single part is
-- no smaller than its chain, so a chain weighs one more than what it is made of.
mutual

theorem resolve_strip (n : Node) : resolve s' n.strip = resolve s n := by
  by_cases hkinds : n.kind ∈ kinds
  · simp only [kinds, List.mem_cons, List.not_mem_nil, or_false] at hkinds
    rcases hkinds with hkind | hkind | hkind | hkind | hkind | hkind
    · rw [resolve_of_identifier hkind, resolve_of_identifier (n.kind_strip.trans hkind),
        text_strip hs]
    · rw [resolve_of_literal (.inl hkind), resolve_of_literal (.inl (n.kind_strip.trans hkind)),
        text_strip hs]
    · rw [resolve_of_literal (.inr hkind), resolve_of_literal (.inr (n.kind_strip.trans hkind)),
        text_strip hs]
    · have := n.forestSize_namedChildren_lt
      rw [resolve_of_attribute hkind, resolve_of_attribute (n.kind_strip.trans hkind),
        Node.namedChildren_strip, resolveChain_strip]
    · rw [resolve_of_lambda hkind, resolve_of_lambda (n.kind_strip.trans hkind), lambda_strip hs]
    · rw [resolve_of_call hkind, resolve_of_call (n.kind_strip.trans hkind), wrapper_strip hs]
      cases hw : wrapper s n with
      | callable inner =>
        have := size_lt_of_wrapper_callable hw
        exact resolve_strip inner
      | rebound owner =>
        have := forestSize_lt_of_wrapper_rebound hw
        exact resolveChain_strip owner
      | other => exact verbatim_strip hs n
  · rw [resolve_of_not_mem_kinds hkinds, resolve_of_not_mem_kinds (by rwa [Node.kind_strip]),
      verbatim_strip hs]
termination_by 2 * n.size

theorem resolveChain_strip (parts : List Node) :
    resolveChain s' (parts.map Node.strip) = resolveChain s parts := by
  rcases List.eq_nil_or_concat' parts with rfl | ⟨owner, last, hparts⟩
  · rw [List.map_nil, resolveChain_nil, resolveChain_nil]
  · have hsize : Node.forestSize parts = Node.forestSize owner + last.size := by
      simp [hparts, Node.forestSize_append, Node.forestSize]
    have := last.size_pos
    by_cases hne : owner = []
    · rw [hparts, hne, List.nil_append, List.map_singleton, resolveChain_singleton,
        resolveChain_singleton, resolve_strip]
    · have htext := chainText_strip hs (owner ++ [last])
      rw [List.map_append, List.map_singleton] at htext
      rw [hparts, List.map_append, List.map_singleton, resolveChain_concat (by simpa using hne),
        resolveChain_concat hne, Node.kind_strip, isRebinding_strip hs, verbatim_strip hs,
        resolveChain_strip owner, htext]
termination_by 2 * Node.forestSize parts + 1

end

end Handler

namespace Extract

/-! ### Declarations -/

omit hs in
theorem parameter?_of_variadic {n : Node} (h : n.kind = "variadic_parameter") :
    parameter? s n = n.namedChildren.head?.bind (parameter? s) := by
  rw [parameter?, if_neg (by simp [h]), if_pos (by simp [h])]
  split
  · next inner hinner => simp only [hinner, Option.bind_some]
  · next hnone => rw [hnone, Option.bind_none]

omit hs in
theorem parameter?_of_other {n : Node} (hident : n.kind ≠ "identifier")
    (hvariadic : n.kind ≠ "variadic_parameter") :
    parameter? s n = (n.namedChildren.find? fun c => c.kind == "identifier").map fun name =>
      (s.text name, ((n.field? "type").filter fun t => t.kind == "type").map s.text) := by
  rw [parameter?, if_neg (by simpa using hident), if_neg (by simpa using hvariadic)]
  cases n.namedChildren.find? fun c => c.kind == "identifier" <;> rfl

theorem parameter?_strip (n : Node) : parameter? s' n.strip = parameter? s n := by
  by_cases hident : n.kind = "identifier"
  · rw [parameter?, parameter?, Node.kind_strip, if_pos (by simpa using hident),
      if_pos (by simpa using hident), text_strip hs]
  by_cases hvariadic : n.kind = "variadic_parameter"
  · rw [parameter?_of_variadic hvariadic, parameter?_of_variadic (n.kind_strip.trans hvariadic),
      Node.namedChildren_strip, List.head?_map]
    cases hinner : n.namedChildren.head? with
    | none => rfl
    | some inner =>
      have := Node.size_lt_of_mem_namedChildren (List.mem_of_mem_head? hinner)
      exact parameter?_strip inner
  · have hfind : ((fun c => c.kind == "identifier") ∘ Node.strip) =
        fun c : Node => c.kind == "identifier" :=
      funext fun c => congrArg (· == "identifier") c.kind_strip
    rw [parameter?_of_other hident hvariadic,
      parameter?_of_other (by rwa [Node.kind_strip]) (by rwa [Node.kind_strip]),
      Node.namedChildren_strip, Node.field?_strip, List.find?_map, hfind, textOfKind_strip hs,
      Option.map_map]
    congr 1
    funext name
    exact congrArg (·, _) (text_strip hs name)
termination_by n.size

theorem parameters_strip (n : Node) : parameters s' n.strip = parameters s n := by
  rw [parameters, parameters, Node.field?_strip]
  cases n.field? "parameters" with
  | none => rfl
  | some list =>
    simp only [Option.map_some, Node.namedChildren_strip, List.filterMap_map, Function.comp_def,
      parameter?_strip hs]

theorem definition?_strip (file : String) (n : Node) :
    definition? s' file n.strip = definition? s file n := by
  rw [definition?, definition?, Node.field?_strip, Option.map_map]
  simp only [Function.comp_def, text_strip hs, parameters_strip hs, Node.line_strip]

/-! ### Calls -/

/-- A call with all its parts stripped. -/
def Call.strip (c : Call) : Call :=
  ⟨c.site.strip, c.method, c.receiver.map (List.map Node.strip), c.args.map Node.strip⟩

omit hs in
theorem Call.line_strip (c : Call) : c.strip.site.line = c.site.line := c.site.line_strip

omit hs in
theorem Call.method_strip (c : Call) : c.strip.method = c.method := rfl

omit hs in
theorem Call.receiver_strip (c : Call) :
    c.strip.receiver = c.receiver.map (List.map Node.strip) := rfl

omit hs in
theorem Call.args_strip (c : Call) : c.strip.args = c.args.map Node.strip := rfl

omit hs in
theorem signal?_strip (parts : List Node) :
    signal? (parts.map Node.strip) =
      (signal? parts).map fun p => (p.1.strip, p.2.map Node.strip) := by
  rw [signal?, signal?, List.getLast?_map]
  cases parts.getLast? with
  | none => rfl
  | some name =>
    simp only [Option.map_some, Node.kind_strip, ← List.map_dropLast]
    split <;> rfl

omit hs in
theorem isStatic_strip (parts : List Node) : isStatic (parts.map Node.strip) = isStatic parts := by
  cases parts with
  | nil => rfl
  | cons first rest =>
    simp only [List.map_cons, isStatic, Node.kind_strip, List.all_map, Function.comp_def]

theorem staticTarget?_strip (receiver : List Node) :
    staticTarget? s' (receiver.map Node.strip) = staticTarget? s receiver := by
  rw [staticTarget?, staticTarget?, isStatic_strip, chainText_strip hs]

theorem leadingLiteral?_strip (args : List Node) :
    leadingLiteral? s' (args.map Node.strip) = leadingLiteral? s args := by
  rw [leadingLiteral?, leadingLiteral?, List.head?_map]
  cases args.head? with
  | none => rfl
  | some a => exact literal?_strip hs a

theorem connection_strip (file : String) (c : Call) (signalName : String) (target : Option String)
    (handler : Node) (flags : Option Node) :
    connection s' file c.strip signalName target handler.strip (flags.map Node.strip) =
      connection s file c signalName target handler flags := by
  have hflags : (flags.map Node.strip).map (Flag.decode s') = flags.map (Flag.decode s) := by
    rw [Option.map_map]
    exact congrArg (flags.map ·) (funext fun n => Flag.decode_strip hs n)
  rw [connection, connection, Handler.resolve_strip hs, hflags, Call.line_strip]

theorem emit?_strip (file : String) (c : Call) (parts : List Node) :
    emit? s' file c.strip (parts.map Node.strip) = emit? s file c parts := by
  rw [emit?, emit?, signal?_strip, Option.map_map]
  congr 1
  funext p
  simp only [Function.comp_apply, Call.line_strip, Call.args_strip, text_strip hs, texts_strip hs,
    List.isEmpty_map, chainText_strip hs]

theorem emitByName?_strip (file : String) (c : Call) :
    emitByName? s' file c.strip = emitByName? s file c := by
  have hreceiver : (c.receiver.map (List.map Node.strip)).map s'.chainText =
      c.receiver.map s.chainText := by
    rw [Option.map_map]
    exact congrArg (c.receiver.map ·) (funext fun r => chainText_strip hs r)
  simp only [emitByName?, Call.line_strip, Call.receiver_strip, Call.args_strip,
    leadingLiteral?_strip hs, hreceiver, ← List.map_drop, texts_strip hs]

theorem connect?_strip (file : String) (c : Call) (parts : List Node) :
    connect? s' file c.strip (parts.map Node.strip) = connect? s file c parts := by
  rw [connect?, connect?, signal?_strip, Call.args_strip]
  cases signal? parts with
  | none => rfl
  | some p =>
    obtain ⟨name, owner⟩ := p
    rcases c.args with _ | ⟨handler, rest⟩
    · rfl
    · simp only [Option.map_some, List.map_cons, List.head?_map, connection_strip hs,
        text_strip hs, List.isEmpty_map, staticTarget?_strip hs]

theorem handlerAndFlags?_strip (args : List Node) :
    handlerAndFlags? s' (args.map Node.strip) =
      (handlerAndFlags? s args).map fun p => (p.1.strip, p.2.map Node.strip) := by
  have hbinds : (args[3]?.map Node.strip).any (fun b => b.kind == "array") =
      args[3]?.any fun b => b.kind == "array" := by
    cases args[3]? <;> simp
  simp only [handlerAndFlags?, List.getElem?_map, hbinds]
  cases hthird : args[2]? with
  | none => cases args[1]? <;> rfl
  | some a =>
    by_cases hliteral : (s.literal? a).isSome = true
    · have hliteral' : (s'.literal? a.strip).isSome = true := by rwa [literal?_strip hs]
      simp only [Option.map_some, Option.filter_some, hliteral, hliteral', if_true]
      split <;> rfl
    · have hliteral' : ¬(s'.literal? a.strip).isSome = true := by rwa [literal?_strip hs]
      simp only [Option.map_some, Option.filter_some, hliteral, hliteral']
      cases args[1]? <;> rfl

theorem connectByName?_strip (file : String) (c : Call) :
    connectByName? s' file c.strip = connectByName? s file c := by
  rw [connectByName?, connectByName?, Call.args_strip, leadingLiteral?_strip hs,
    handlerAndFlags?_strip hs, Call.receiver_strip]
  cases leadingLiteral? s c.args with
  | none => rfl
  | some name =>
    cases handlerAndFlags? s c.args with
    | none => rfl
    | some p =>
      cases c.receiver with
      | none => simp only [Option.map_some, Option.map_none, connection_strip hs]
      | some r => simp only [Option.map_some, connection_strip hs, staticTarget?_strip hs]

theorem callFact?_strip (file : String) (c : Call) :
    callFact? s' file c.strip = callFact? s file c := by
  rw [callFact?, callFact?, Call.method_strip, Call.args_strip, Call.receiver_strip,
    emitByName?_strip hs, connectByName?_strip hs, leadingLiteral?_strip hs]
  cases c.receiver with
  | none => rfl
  | some parts => simp only [Option.map_some, Option.bind_some, emit?_strip hs, connect?_strip hs]

theorem callOf?_strip (n : Node) : callOf? s' n.strip = (callOf? s n).map Call.strip := by
  rw [callOf?, callOf?, Node.namedChildren_strip, List.head?_map, Node.arguments_strip]
  cases n.namedChildren.head? with
  | none => rfl
  | some f =>
    simp only [Option.map_some, Node.kind_strip, text_strip hs, Node.namedChildren_strip,
      signal?_strip]
    split
    · rfl
    · split
      · cases signal? f.namedChildren with
        | none => rfl
        | some p =>
          simp only [Option.map_some, List.isEmpty_map, text_strip hs]
          split <;> rfl
      · rfl

theorem chainCalls_strip (site : Node) (before parts : List Node) :
    chainCalls s' site.strip (before.map Node.strip) (parts.map Node.strip) =
      (chainCalls s site before parts).map Call.strip := by
  induction parts generalizing before with
  | nil => rfl
  | cons part parts ih =>
    have ih := ih (before ++ [part])
    rw [List.map_append, List.map_singleton] at ih
    rw [List.map_cons, chainCalls, chainCalls, ih, Node.kind_strip, List.isEmpty_map,
      methodName?_strip hs, Node.arguments_strip]
    split
    · cases s.methodName? part <;> rfl
    · rfl

/-! ### Nodes -/

theorem factsAt_strip (file : String) (n : Node) : factsAt s' file n.strip = factsAt s file n := by
  have hcall : ((callOf? s n).map Call.strip).bind (callFact? s' file) =
      (callOf? s n).bind (callFact? s file) := by
    cases callOf? s n with
    | none => rfl
    | some c => exact callFact?_strip hs file c
  have hchain := chainCalls_strip hs n [] n.namedChildren
  rw [List.map_nil] at hchain
  rw [factsAt, factsAt, Node.kind_strip, definition?_strip hs, callOf?_strip hs, hcall,
    Node.namedChildren_strip, hchain, List.filterMap_map]
  simp only [Function.comp_def, callFact?_strip hs]

end Extract

end Reading

/-! ### Whole scripts -/

/-- The facts of a node depend on the source and on what lies below the node, not on the rest of the
tree. -/
theorem Extract.factsAt_root (source file : String) (root root' n : Node) :
    factsAt ⟨source, root⟩ file n = factsAt ⟨source, root'⟩ file n := by
  have hs : (Script.mk source root').source = (Script.mk source root).source := rfl
  have hs' : (Script.mk source root').source = (Script.mk source root').source := rfl
  exact (factsAt_strip hs file n).symm.trans (factsAt_strip hs' file n)

theorem Script.extract_strip (source file : String) (root : Node) :
    extract ⟨source, root.strip⟩ file = extract ⟨source, root⟩ file := by
  have hs : (Script.mk source root.strip).source = (Script.mk source root).source := rfl
  rw [extract, extract, walk_eq, walk_eq, Node.preorder_strip, List.flatMap_map]
  simp only [Extract.factsAt_strip hs]

namespace Script

/-- Leaving out any selection of extras that have no children and play no part changes nothing of
what is extracted, wherever they stand. -/
theorem extraction_ignores_extras (source file : String) {root root' : Node}
    (h : Node.Thinned root root') :
    extract ⟨source, root'⟩ file = extract ⟨source, root⟩ file := by
  rw [← extract_strip source file root, ← extract_strip source file root', h.strip_eq]

/-- A declaration and an emission with a comment in every place; all comments go but the one in
front of the parameters. -/
theorem extraction_ignores_extras_of_two_statements :
    let part : String → Option String → Nat → Nat → List Node → Node :=
      fun kind field start stop l =>
        .node ⟨kind, true, false, false, false, field, start, stop, 0⟩ l
    let comment : Node := .node ⟨"comment", true, true, false, false, none, 0, 0, 0⟩ []
    let tree : List Node → Node := fun c =>
      part "source" none 0 28 (c ++ [
        part "signal_statement" none 0 16 (c ++ [part "name" (some "name") 7 8 [],
          part "parameters" (some "parameters") 8 16 [comment,
            part "typed_parameter" none 9 15 (c ++ [part "identifier" none 9 10 [],
              part "type" (some "type") 12 15 []])]]),
        part "attribute" none 17 28 (c ++ part "identifier" none 17 18 [] ::
          (c ++ part "identifier" none 19 20 [] :: (c ++ [
            part "attribute_call" none 21 28 (c ++ [part "identifier" none 21 25 [],
              part "arguments" (some "arguments") 25 28
                (c ++ part "identifier" none 26 27 [] :: c)])])))])
    let source := "signal a(x: int)\nn.a.emit(x)"
    Node.Thinned (tree [comment]) (tree []) ∧
      extract ⟨source, tree []⟩ "a.gd" = extract ⟨source, tree [comment]⟩ "a.gd" ∧
      (extract ⟨source, tree []⟩ "a.gd").emissions = [⟨"a", "a.gd", 1, "n", ["x"]⟩] := by
  intro part comment tree source
  have hleaf : ∀ t, Node.Thinned (.node t []) (.node t []) := fun t => .node .nil
  have hthinned : Node.Thinned (tree [comment]) (tree []) := by
    refine .node (.drop rfl rfl rfl (.keep (.node ?_) (.keep (.node ?_) .nil)))
    · refine .drop rfl rfl rfl (.keep (hleaf _) (.keep (.node ?_) .nil))
      refine .keep (hleaf _) (.keep (.node ?_) .nil)
      exact .drop rfl rfl rfl (.keep (hleaf _) (.keep (hleaf _) .nil))
    · refine .drop rfl rfl rfl (.keep (hleaf _) (.drop rfl rfl rfl (.keep (hleaf _)
        (.drop rfl rfl rfl (.keep (.node ?_) .nil)))))
      refine .drop rfl rfl rfl (.keep (hleaf _) (.keep (.node ?_) .nil))
      exact .drop rfl rfl rfl (.keep (hleaf _) (.drop rfl rfl rfl .nil))
  refine ⟨hthinned, extraction_ignores_extras source "a.gd" hthinned, ?_⟩
  rw [extract, walk_eq]
  decide

end Script

end SignalAtlas
