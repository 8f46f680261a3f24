import Mathlib.Tactic
import SignalAtlas.Proofs.Buckets
import SignalAtlas.Proofs.Extras

/-!
# Where facts come from

What `Script.extract` collects is made up of what the nodes of the tree contribute by themselves,
one after the other in document order (`Script.extract_eq`). A contribution depends on the source
and on the node with what lies below it (`Extract.own`), so a subtree gives the same facts in any
surroundings. A declaration gives a fact if it has a name, and a call if it has one of the forms
that are recognized (`Extract.Call.Recognized`).

Surroundings are given level by level, from the parent of a node up to the root (`Node.within`).
-/

namespace SignalAtlas

/-! ### Files in parts -/

namespace FileSignals

/-- The facts of several parts of a file, one part after the other. -/
def concat (filePath : String) (parts : List FileSignals) : FileSignals :=
  ⟨filePath, parts.flatMap definitions, parts.flatMap emissions, parts.flatMap connections⟩

theorem concat_ofFacts (filePath : String) (l : List (List Fact)) :
    concat filePath (l.map (ofFacts filePath)) = ofFacts filePath l.flatten := by
  unfold concat ofFacts
  simp only [List.flatMap_def, List.map_map, Function.comp_def, List.filterMap_flatten]

end FileSignals

/-! ### Nodes in their surroundings -/

namespace Node

theorem forestPreorder_eq (l : List Node) : forestPreorder l = l.flatMap preorder := by
  induction l with
  | nil => rfl
  | cons n l ih => rw [forestPreorder, ih, List.flatMap_cons]

theorem preorder_eq (n : Node) : n.preorder = n :: n.children.flatMap preorder := by
  cases n with
  | node t l => rw [preorder, forestPreorder_eq, children]

/-- One level of the surroundings of a node: its parent, and its siblings before and after it. -/
structure Level where
  tag : Tag
  left : List Node
  right : List Node

/-- The tree that a node is part of, given its surroundings from the parent up. -/
def within : List Level → Node → Node
  | [], n => n
  | level :: above, n => within above (.node level.tag (level.left ++ n :: level.right))

theorem exists_preorder_within (around : List Level) (n : Node) :
    ∃ before after, (within around n).preorder = before ++ n.preorder ++ after := by
  induction around generalizing n with
  | nil => exact ⟨[], [], by simp [within]⟩
  | cons level above ih =>
    obtain ⟨before, after, h⟩ := ih (.node level.tag (level.left ++ n :: level.right))
    refine ⟨before ++ .node level.tag (level.left ++ n :: level.right) ::
      level.left.flatMap preorder, level.right.flatMap preorder ++ after, ?_⟩
    rw [within, h, preorder_eq, children]
    simp

end Node

/-! ### Contributions of nodes -/

namespace Extract

/-- The facts of a node itself, as if it were the whole script. -/
def ownFacts (source file : String) (n : Node) : List Fact :=
  if n.significant then factsAt ⟨source, n⟩ file n else []

/-- What a node contributes by itself. -/
def own (source file : String) (n : Node) : FileSignals := .ofFacts file (ownFacts source file n)

/-- The parts of a chain after its first one that are calls, with their places. -/
def segments (n : Node) : List (Node × Nat) :=
  n.namedChildren.zipIdx.filter fun p => decide (0 < p.2) && p.1.kind == "attribute_call"

/-- The fact of a part of a chain that is a call. The parts before it are the receiver. -/
def segmentFact? (s : Script) (file : String) (n : Node) (p : Node × Nat) : Option Fact :=
  (s.methodName? p.1).bind fun method =>
    callFact? s file ⟨n, method, some (n.namedChildren.take p.2), p.1.arguments⟩

theorem chainCalls_eq (s : Script) (site : Node) (before parts : List Node) :
    chainCalls s site before parts =
      ((parts.zipIdx before.length).filter fun p =>
        decide (0 < p.2) && p.1.kind == "attribute_call").filterMap fun p =>
          (s.methodName? p.1).map fun method =>
            ⟨site, method, some ((before ++ parts).take p.2), p.1.arguments⟩ := by
  induction parts generalizing before with
  | nil => rfl
  | cons part parts ih =>
    have ih := ih (before ++ [part])
    rw [List.length_append, List.length_singleton, List.append_assoc, List.singleton_append] at ih
    have hbefore : (!before.isEmpty) = decide (0 < before.length) := by
      cases before <;> simp
    rw [chainCalls, ih, List.zipIdx_cons, List.filter_cons, hbefore, Bool.and_comm]
    split
    · rw [List.filterMap_cons, List.take_left]
      cases s.methodName? part <;> rfl
    · rfl

theorem factsAt_of_attribute (s : Script) (file : String) {n : Node} (h : n.kind = "attribute") :
    factsAt s file n = (segments n).filterMap (segmentFact? s file n) := by
  rw [factsAt, if_neg (by simp [h]), if_neg (by simp [h]), if_pos (by simp [h]), chainCalls_eq,
    List.filterMap_filterMap]
  congr 1
  funext p
  cases hm : s.methodName? p.1 <;> simp [segmentFact?, hm]

theorem factsAt_of_declaration (s : Script) (file : String) {n : Node}
    (h : n.kind = "signal_statement") :
    factsAt s file n = ((definition? s file n).map Fact.definition).toList := by
  rw [factsAt, if_pos (by simp [h])]

theorem factsAt_of_call (s : Script) (file : String) {n : Node} (h : n.kind = "call") :
    factsAt s file n = ((callOf? s n).bind (callFact? s file)).toList := by
  rw [factsAt, if_neg (by simp [h]), if_pos (by simp [h])]

theorem factsAt_of_other (s : Script) (file : String) {n : Node}
    (h : n.kind ∉ ["signal_statement", "call", "attribute"]) : factsAt s file n = [] := by
  simp only [List.mem_cons, List.not_mem_nil, or_false, not_or] at h
  rw [factsAt]
  simp [h]

/-! ### Calls that give a fact -/

/-- A call that gives a fact: it emits the signal at the end of its receiver, or the one that its
first argument names as a text; or it connects a handler to a signal that is named in the one way or
the other. The handler is the first argument, or comes after the name. -/
inductive Call.Recognized (s : Script) (c : Call) : Prop
  | emit {parts : List Node} : c.method = "emit" → c.receiver = some parts →
      (signal? parts).isSome = true → Recognized s c
  | emitByName : c.method = "emit_signal" → (leadingLiteral? s c.args).isSome = true →
      Recognized s c
  | connect {parts : List Node} : c.method = "connect" → c.receiver = some parts →
      (signal? parts).isSome = true → leadingLiteral? s c.args = none → c.args ≠ [] →
      Recognized s c
  | connectByName : c.method = "connect" → (leadingLiteral? s c.args).isSome = true →
      2 ≤ c.args.length → Recognized s c

section Recognized

variable {s : Script} {file : String} {c : Call} {parts : List Node}

theorem isSome_emit? : (emit? s file c parts).isSome = (signal? parts).isSome :=
  Option.isSome_map

theorem isSome_emitByName? : (emitByName? s file c).isSome = (leadingLiteral? s c.args).isSome :=
  Option.isSome_map

theorem isSome_connect?_iff :
    (connect? s file c parts).isSome = true ↔ (signal? parts).isSome = true ∧ c.args ≠ [] := by
  unfold connect?
  cases signal? parts <;> cases c.args <;> simp

theorem isSome_handlerAndFlags?_iff {args : List Node} :
    (handlerAndFlags? s args).isSome = true ↔ 2 ≤ args.length := by
  unfold handlerAndFlags?
  split
  · next method h =>
    obtain ⟨hm, -⟩ := Option.filter_eq_some_iff.1 h
    obtain ⟨hlt, -⟩ := List.getElem?_eq_some_iff.1 hm
    exact iff_of_true rfl hlt.le
  · rw [Option.isSome_map, Option.isSome_iff_ne_none, ne_eq, List.getElem?_eq_none_iff, not_le]
    exact Iff.rfl

theorem isSome_connectByName?_iff :
    (connectByName? s file c).isSome = true ↔
      (leadingLiteral? s c.args).isSome = true ∧ 2 ≤ c.args.length := by
  rw [← isSome_handlerAndFlags?_iff (s := s)]
  unfold connectByName?
  cases leadingLiteral? s c.args <;> cases handlerAndFlags? s c.args <;> simp

/-- A call gives a fact exactly if it is recognized. -/
theorem isSome_callFact?_iff : (callFact? s file c).isSome = true ↔ c.Recognized s := by
  constructor
  · intro h
    unfold callFact? at h
    split at h
    · next hmethod =>
      obtain ⟨x, hx⟩ := Option.isSome_iff_exists.1 h
      obtain ⟨parts, hparts, he⟩ := Option.bind_eq_some_iff.1 hx
      have hsome : (emit? s file c parts).isSome = true := by rw [he, Option.isSome_some]
      exact .emit (eq_of_beq hmethod) hparts (isSome_emit? ▸ hsome)
    · split at h
      · next hmethod => exact .emitByName (eq_of_beq hmethod) (isSome_emitByName? ▸ h)
      · split at h
        · next hmethod =>
          split at h
          · next parts hparts =>
            split at h
            · obtain ⟨hname, hargs⟩ := isSome_connectByName?_iff.1 h
              exact .connectByName (eq_of_beq hmethod) hname hargs
            · next hname =>
              obtain ⟨hsignal, hargs⟩ := isSome_connect?_iff.1 h
              exact .connect (eq_of_beq hmethod) hparts hsignal
                (Option.not_isSome_iff_eq_none.1 hname) hargs
          · obtain ⟨hname, hargs⟩ := isSome_connectByName?_iff.1 h
            exact .connectByName (eq_of_beq hmethod) hname hargs
        · cases h
  · intro h
    unfold callFact?
    cases h with
    | emit hmethod hparts hsignal =>
      rw [if_pos (by simp [hmethod]), hparts, Option.bind_some, isSome_emit?, hsignal]
    | emitByName hmethod hname =>
      rw [if_neg (by simp [hmethod]), if_pos (by simp [hmethod]), isSome_emitByName?, hname]
    | connect hmethod hparts hsignal hname hargs =>
      rw [if_neg (by simp [hmethod]), if_neg (by simp [hmethod]), if_pos (by simp [hmethod]),
        hparts]
      simp only [hname, Option.isSome_none, Bool.false_eq_true, if_false]
      exact isSome_connect?_iff.2 ⟨hsignal, hargs⟩
    | connectByName hmethod hname hargs =>
      have hfact : (connectByName? s file c).isSome = true :=
        isSome_connectByName?_iff.2 ⟨hname, hargs⟩
      rw [if_neg (by simp [hmethod]), if_neg (by simp [hmethod]), if_pos (by simp [hmethod])]
      split
      · rw [if_pos hname, hfact]
      · exact hfact

end Recognized

/-! ### What a node contributes -/

/-- What a node contributes by itself. A declaration contributes a definition if it has a name, and
nothing else. A call contributes an emission or a connection if it is recognized, and nothing else.
A chain contributes an emission or a connection for each call after its first part that is
recognized, in the order of the chain. No other node contributes. -/
structure Contributes (source file : String) (n : Node) : Prop where
  declaration : n.significant = true → n.kind = "signal_statement" →
    (own source file n).definitions.length ≤ 1 ∧ (own source file n).emissions = [] ∧
      (own source file n).connections = []
  named : n.significant = true → n.kind = "signal_statement" →
    ((own source file n).definitions.length = 1 ↔ (n.field? "name").isSome = true)
  call : n.significant = true → n.kind = "call" →
    (own source file n).definitions = [] ∧
      (own source file n).emissions.length + (own source file n).connections.length ≤ 1
  recognized : n.significant = true → n.kind = "call" →
    ((own source file n).emissions.length + (own source file n).connections.length = 1 ↔
      ∃ c, callOf? ⟨source, n⟩ n = some c ∧ c.Recognized ⟨source, n⟩)
  chain : n.significant = true → n.kind = "attribute" →
    own source file n = .ofFacts file ((segments n).filterMap (segmentFact? ⟨source, n⟩ file n)) ∧
      ∀ p x, segmentFact? ⟨source, n⟩ file n p = some x →
        (∃ e, x = .emission e) ∨ ∃ k, x = .connection k
  segment : ∀ p, (segmentFact? ⟨source, n⟩ file n p).isSome = true ↔
    ∃ method, Script.methodName? ⟨source, n⟩ p.1 = some method ∧
      Call.Recognized ⟨source, n⟩
        ⟨n, method, some (n.namedChildren.take p.2), p.1.arguments⟩
  nothing : n.significant = false ∨ n.kind ∉ ["signal_statement", "call", "attribute"] →
    own source file n = .empty file

theorem own_of_significant {source file : String} {n : Node} (h : n.significant = true) :
    own source file n = .ofFacts file (factsAt ⟨source, n⟩ file n) := by
  rw [own, ownFacts, if_pos h]

/-- The fact of a call is an emission or a connection. -/
theorem ofFacts_callFact? {s : Script} {file : String} {c : Call} {x : Fact}
    (h : callFact? s file c = some x) :
    (FileSignals.ofFacts file [x]).definitions = [] ∧
      (FileSignals.ofFacts file [x]).emissions.length +
        (FileSignals.ofFacts file [x]).connections.length = 1 := by
  rcases callFact?_cases h with ⟨e, rfl, -⟩ | ⟨k, rfl, -⟩
  · exact ⟨rfl, rfl⟩
  · exact ⟨rfl, rfl⟩

theorem contributes (source file : String) (n : Node) : Contributes source file n where
  declaration := by
    intro hsig hkind
    rw [own_of_significant hsig, factsAt_of_declaration _ _ hkind]
    cases definition? ⟨source, n⟩ file n with
    | none => exact ⟨Nat.zero_le 1, rfl, rfl⟩
    | some d => exact ⟨Nat.le_refl 1, rfl, rfl⟩
  named := by
    intro hsig hkind
    have hname : (definition? ⟨source, n⟩ file n).isSome = (n.field? "name").isSome :=
      Option.isSome_map
    rw [own_of_significant hsig, factsAt_of_declaration _ _ hkind, ← hname]
    cases definition? ⟨source, n⟩ file n with
    | none => exact iff_of_false Nat.zero_ne_one Bool.false_ne_true
    | some d => exact iff_of_true rfl rfl
  call := by
    intro hsig hkind
    rw [own_of_significant hsig, factsAt_of_call _ _ hkind]
    cases hfact : (callOf? ⟨source, n⟩ n).bind (callFact? ⟨source, n⟩ file) with
    | none => exact ⟨rfl, Nat.zero_le 1⟩
    | some x =>
      obtain ⟨c, -, hx⟩ := Option.bind_eq_some_iff.1 hfact
      obtain ⟨hdefinitions, hone⟩ := ofFacts_callFact? hx
      exact ⟨hdefinitions, hone.le⟩
  recognized := by
    intro hsig hkind
    have hfact : ((callOf? ⟨source, n⟩ n).bind (callFact? ⟨source, n⟩ file)).isSome = true ↔
        ∃ c, callOf? ⟨source, n⟩ n = some c ∧ c.Recognized ⟨source, n⟩ := by
      rw [Option.isSome_bind, Option.any_eq_true]
      exact exists_congr fun c => and_congr_right fun _ => isSome_callFact?_iff
    rw [own_of_significant hsig, factsAt_of_call _ _ hkind, ← hfact]
    cases hcall : (callOf? ⟨source, n⟩ n).bind (callFact? ⟨source, n⟩ file) with
    | none => exact iff_of_false Nat.zero_ne_one Bool.false_ne_true
    | some x =>
      obtain ⟨c, -, hx⟩ := Option.bind_eq_some_iff.1 hcall
      exact iff_of_true (ofFacts_callFact? hx).2 rfl
  chain := by
    intro hsig hkind
    refine ⟨?_, fun p x hx => ?_⟩
    · rw [own_of_significant hsig, factsAt_of_attribute _ _ hkind]
    · obtain ⟨method, -, hx⟩ := Option.bind_eq_some_iff.1 hx
      rcases callFact?_cases hx with ⟨e, rfl, -⟩ | ⟨k, rfl, -⟩
      · exact .inl ⟨e, rfl⟩
      · exact .inr ⟨k, rfl⟩
  segment := by
    intro p
    rw [segmentFact?, Option.isSome_bind, Option.any_eq_true]
    exact exists_congr fun method => and_congr_right fun _ => isSome_callFact?_iff
  nothing := by
    rintro (hsig | hkind)
    · rw [own, ownFacts, if_neg (by simp [hsig])]
      rfl
    · rw [own, ownFacts, factsAt_of_other _ _ hkind, ite_self]
      rfl

end Extract

/-! ### Whole scripts -/

namespace Script

theorem extract_eq (source file : String) (root : Node) :
    extract ⟨source, root⟩ file =
      .ofFacts file (root.preorder.flatMap (Extract.ownFacts source file)) := by
  rw [extract, walk_eq]
  congr 1
  suffices h : ∀ l : List Node, (l.filter Node.significant).flatMap
      (Extract.factsAt ⟨source, root⟩ file) = l.flatMap (Extract.ownFacts source file) from
    h root.preorder
  intro l
  induction l with
  | nil => rfl
  | cons n l ih =>
    rw [List.filter_cons, List.flatMap_cons, ← ih, Extract.ownFacts,
      Extract.factsAt_root source file n root]
    split <;> rfl

/-- Nodes in document order, some of them making up a subtree, contribute what the subtree gives by
itself between what the others contribute. -/
theorem extract_of_preorder (source file : String) {root n : Node} {before after : List Node}
    (h : root.preorder = before ++ n.preorder ++ after) :
    extract ⟨source, root⟩ file =
      .concat file (before.map (Extract.own source file) ++
        extract ⟨source, n⟩ file :: after.map (Extract.own source file)) := by
  have hparts : before.map (Extract.own source file) ++
      extract ⟨source, n⟩ file :: after.map (Extract.own source file) =
      (before.map (Extract.ownFacts source file) ++
        n.preorder.flatMap (Extract.ownFacts source file) ::
          after.map (Extract.ownFacts source file)).map (.ofFacts file) := by
    rw [extract_eq, List.map_append, List.map_cons, List.map_map, List.map_map]
    rfl
  rw [hparts, FileSignals.concat_ofFacts, extract_eq, h]
  simp [List.flatMap_def]

theorem extract_of_children (source file : String) (n : Node) :
    extract ⟨source, n⟩ file =
      .concat file (Extract.own source file n ::
        n.children.map fun c => extract ⟨source, c⟩ file) := by
  have hparts : Extract.own source file n :: (n.children.map fun c => extract ⟨source, c⟩ file) =
      (Extract.ownFacts source file n :: n.children.map fun c =>
        c.preorder.flatMap (Extract.ownFacts source file)).map (.ofFacts file) := by
    rw [List.map_cons, List.map_map]
    simp only [extract_eq]
    rfl
  rw [hparts, FileSignals.concat_ofFacts, extract_eq, Node.preorder_eq, List.flatMap_cons,
    List.flatten_cons, List.flatMap_assoc, ← List.flatMap_def]

/-- Extraction is local. A tree gives what its root contributes by itself, followed by what the
subtrees of its children give in order; what a node contributes by itself is decided by its kind and
its form. In any surroundings a subtree gives what it gives alone, once, between what the nodes
before and after it contribute. -/
theorem extraction_is_local (source file : String) (n : Node) :
    extract ⟨source, n⟩ file =
        .concat file (Extract.own source file n ::
          n.children.map fun c => extract ⟨source, c⟩ file) ∧
      Extract.Contributes source file n ∧
      ∀ around, ∃ before after,
        (Node.within around n).preorder = before ++ n.preorder ++ after ∧
          extract ⟨source, Node.within around n⟩ file =
            .concat file (before.map (Extract.own source file) ++
              extract ⟨source, n⟩ file :: after.map (Extract.own source file)) := by
  refine ⟨extract_of_children source file n, Extract.contributes source file n, fun around => ?_⟩
  obtain ⟨before, after, h⟩ := Node.exists_preorder_within around n
  exact ⟨before, after, h, extract_of_preorder source file h⟩

/-- An emission in the body of a lambda that is an argument of another emission. -/
theorem extraction_is_local_inside_lambda :
    let tag : String → Nat → Nat → Tag := fun kind start stop =>
      ⟨kind, true, false, false, false, none, start, stop, 0⟩
    let name : Nat → Nat → Node := fun start stop => .node (tag "identifier" start stop) []
    let args : Nat → Nat → Tag := fun start stop =>
      ⟨"arguments", true, false, false, false, some "arguments", start, stop, 0⟩
    let inner : Node :=
      .node (tag "attribute" 15 23) [name 15 16,
        .node (tag "attribute_call" 17 23) [name 17 21, .node (args 21 23) []]]
    let around : List Node.Level :=
      [⟨tag "body" 15 23, [], []⟩, ⟨tag "lambda" 7 23, [], []⟩, ⟨args 6 24, [], []⟩,
        ⟨tag "attribute_call" 2 24, [name 2 6], []⟩, ⟨tag "attribute" 0 24, [name 0 1], []⟩]
    let source := "a.emit(func(): b.emit())"
    (inner.significant = true ∧ inner.kind = "attribute" ∧ (Extract.segments inner).length = 1) ∧
      Extract.own source "x.gd" inner =
        .ofFacts "x.gd" ((Extract.segments inner).filterMap
          (Extract.segmentFact? ⟨source, inner⟩ "x.gd" inner)) ∧
      (∃ before after,
        (Node.within around inner).preorder = before ++ inner.preorder ++ after ∧
          extract ⟨source, Node.within around inner⟩ "x.gd" =
            .concat "x.gd" (before.map (Extract.own source "x.gd") ++
              extract ⟨source, inner⟩ "x.gd" :: after.map (Extract.own source "x.gd"))) ∧
      (extract ⟨source, inner⟩ "x.gd").emissions = [⟨"b", "x.gd", 1, "self", []⟩] ∧
      (extract ⟨source, Node.within around inner⟩ "x.gd").emissions =
        [⟨"a", "x.gd", 1, "self", ["func(): b.emit()"]⟩, ⟨"b", "x.gd", 1, "self", []⟩] := by
  intro tag name args inner around source
  obtain ⟨-, hcontributes, hplaced⟩ := extraction_is_local source "x.gd" inner
  refine ⟨⟨rfl, rfl, rfl⟩, (hcontributes.chain rfl rfl).1, hplaced around, ?_, ?_⟩
  · rw [extract_eq]
    decide
  · rw [extract_eq]
    decide

end Script

end SignalAtlas
