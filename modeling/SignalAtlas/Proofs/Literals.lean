import Mathlib.Tactic
import SignalAtlas.Proofs.Handlers
import SignalAtlas.Proofs.Locality

/-!
# Text literals as names

A text literal is a mark, if any, and its contents between two equal quotes (`Literal.Encloses`).
Unquoting tries the quotes one after the other, and what it finds between the first that fits are
the contents (`Literal.unquote_of_encloses`).

So a signal that a call names by a literal has the contents as its name, whatever the kind of the
literal. For handlers the kinds are told apart a second time, and there a node path is no literal
(`Handler.resolve_of_isLiteral`): as a handler it keeps its mark and its quotes.
-/

namespace SignalAtlas

/-! ### Quotes -/

namespace Literal

/-- The marks in front of a literal. -/
def marks : List (List Char) := [[], ['&'], ['^']]

/-- `Encloses contents cs`: the characters `cs` are a mark, a quote, these contents and the quote
again. The contents do not start with the quote, since the literal would have ended there. -/
inductive Encloses (contents : List Char) : List Char → Prop where
  | quoted {mark quote : List Char} (marked : mark ∈ marks) (known : quote ∈ quotes)
      (opens : ¬quote <+: contents) : Encloses contents (mark ++ (quote ++ contents ++ quote))

theorem stripFront?_eq_some_iff {q cs rest : List Char} :
    stripFront? q cs = some rest ↔ cs = q ++ rest := by
  fun_induction stripFront? q cs with
  | case1 cs => simp
  | case2 q qs => simp
  | case3 q qs cs ih => simp [ih]
  | case4 q qs c cs h => simp [Ne.symm h]

theorem between?_eq_some_iff {q cs inner : List Char} :
    between? q cs = some inner ↔ cs = q ++ inner ++ q := by
  unfold between?
  cases hfront : stripFront? q cs with
  | none =>
    refine iff_of_false (fun h => by cases h) fun h => ?_
    rw [List.append_assoc, ← stripFront?_eq_some_iff, hfront] at h
    cases h
  | some rest =>
    rw [stripFront?_eq_some_iff] at hfront
    subst hfront
    rw [Option.map_eq_some_iff, List.append_assoc, List.append_cancel_left_eq]
    constructor
    · rintro ⟨back, hback, rfl⟩
      rw [stripFront?_eq_some_iff] at hback
      rw [← List.reverse_reverse rest, hback, List.reverse_append, List.reverse_reverse]
    · rintro rfl
      exact ⟨inner.reverse, by rw [stripFront?_eq_some_iff, List.reverse_append],
        List.reverse_reverse inner⟩

theorem between?_eq_none {q cs : List Char} (h : ¬q <+: cs) : between? q cs = none := by
  rw [Option.eq_none_iff_forall_ne_some]
  intro inner hinner
  rw [between?_eq_some_iff, List.append_assoc] at hinner
  exact h ⟨_, hinner.symm⟩

/-- The first quote that fits is the one that the literal is written with. -/
theorem findSome?_between? {quote contents : List Char} (hq : quote ∈ quotes)
    (h : ¬quote <+: contents) :
    (quotes.findSome? fun q => between? q (quote ++ contents ++ quote)) = some contents := by
  have hown : between? quote (quote ++ contents ++ quote) = some contents :=
    between?_eq_some_iff.2 rfl
  -- a quote tried before differs in its first character, or needs a second one of the same
  have hearlier : ∀ q, ¬q <+: quote ++ contents ++ quote →
      between? q (quote ++ contents ++ quote) = none := fun q => between?_eq_none
  simp only [quotes, List.mem_cons, List.not_mem_nil, or_false] at hq
  simp only [quotes, List.findSome?_cons]
  rcases hq with rfl | rfl | rfl | rfl
  · rw [hown]
  · rw [hearlier ['"', '"', '"'] (by simp), hown]
  · rw [hearlier ['"', '"', '"'], hearlier ['\'', '\'', '\''] (by simp), hown]
    cases contents <;> simp_all
  · rw [hearlier ['"', '"', '"'] (by simp), hearlier ['\'', '\'', '\''], hearlier ['"'] (by simp),
      hown]
    cases contents <;> simp_all

theorem withoutMark_append {mark quote : List Char} (hm : mark ∈ marks) (hq : quote ∈ quotes)
    (rest : List Char) : withoutMark (mark ++ (quote ++ rest)) = quote ++ rest := by
  simp only [marks, quotes, List.mem_cons, List.not_mem_nil, or_false] at hm hq
  rcases hm with rfl | rfl | rfl <;> rcases hq with rfl | rfl | rfl | rfl <;> rfl

/-- Unquoting a literal gives its contents. -/
theorem unquoteChars_of_encloses {contents cs : List Char} (h : Encloses contents cs) :
    unquoteChars cs = contents := by
  cases h with
  | @quoted mark quote marked known opens =>
    rw [unquoteChars, List.append_assoc quote, withoutMark_append marked known,
      ← List.append_assoc quote]
    simp only [findSome?_between? known opens, Option.getD_some]

theorem unquote_of_encloses {text contents : String} (h : Encloses contents.toList text.toList) :
    unquote text = contents := by
  rw [unquote, unquoteChars_of_encloses h, String.ofList_toList]

theorem length_lt_of_encloses {contents cs : List Char} (h : Encloses contents cs) :
    contents.length < cs.length := by
  cases h with
  | @quoted mark quote _ known _ =>
    have hquote : 0 < quote.length := by
      simp only [quotes, List.mem_cons, List.not_mem_nil, or_false] at known
      rcases known with rfl | rfl | rfl | rfl <;> decide
    simp only [List.length_append]
    omega

end Literal

/-! ### Literals of a script -/

/-- A text literal of a script with its contents: a text, a name or a node path. -/
structure Script.IsLiteral (s : Script) (n : Node) (contents : String) : Prop where
  kind : n.kind = "string" ∨ n.kind = "string_name" ∨ n.kind = "node_path"
  text : Literal.Encloses contents.toList (s.text n).toList

section IsLiteral

variable {s : Script} {n : Node} {contents : String}

theorem Script.isLiteral_of_text (mark quote : List Char)
    (hkind : n.kind = "string" ∨ n.kind = "string_name" ∨ n.kind = "node_path")
    (hmark : mark ∈ Literal.marks) (hquote : quote ∈ Literal.quotes)
    (hopens : ¬quote <+: contents.toList)
    (htext : (s.text n).toList = mark ++ (quote ++ contents.toList ++ quote)) :
    s.IsLiteral n contents :=
  ⟨hkind, htext ▸ .quoted hmark hquote hopens⟩

theorem Script.literal?_of_isLiteral (h : s.IsLiteral n contents) :
    s.literal? n = some contents := by
  have hkind : (n.kind == "string" || n.kind == "string_name" || n.kind == "node_path") = true := by
    simpa [or_assoc] using h.kind
  rw [literal?, if_pos hkind, Literal.unquote_of_encloses h.text]

namespace Handler

/-- The name that a literal gives a handler: its contents, but of a node path the whole text. -/
def literalLabel (s : Script) (n : Node) (contents : String) : String :=
  if n.kind = "node_path" then s.text n else contents

theorem resolve_of_isLiteral (h : s.IsLiteral n contents) :
    resolve s n = ⟨literalLabel s n contents, false⟩ := by
  rcases or_assoc.2 h.kind with hkind | hkind
  · have hne : n.kind ≠ "node_path" := by rcases hkind with hkind | hkind <;> rw [hkind] <;> decide
    rw [resolve_of_literal hkind, Literal.unquote_of_encloses h.text, literalLabel, if_neg hne]
  · rw [resolve_of_not_mem_kinds (by rw [hkind]; decide), literalLabel, if_pos hkind]
    rfl

/-- The whole text of a literal is never its contents: there are the quotes. -/
theorem literalLabel_eq_iff (h : s.IsLiteral n contents) :
    literalLabel s n contents = contents ↔ n.kind ≠ "node_path" := by
  refine ⟨fun hlabel hkind => ?_, fun hkind => if_neg hkind⟩
  rw [literalLabel, if_pos hkind] at hlabel
  have hlength := Literal.length_lt_of_encloses h.text
  rw [hlabel] at hlength
  exact Nat.lt_irrefl _ hlength

/-- `Callable(object, n)` -/
structure IsCallable (s : Script) (w n : Node) : Prop where
  kind : w.kind = "call"
  function : ∃ f, w.namedChildren.head? = some f ∧ f.kind = "identifier" ∧ s.text f = "Callable"
  args : ∃ object, w.arguments = [object, n]

/-- `Callable(object, literal)` stands for what the literal stands for. -/
theorem resolve_of_isCallable {w : Node} (hw : IsCallable s w n) (h : s.IsLiteral n contents) :
    resolve s w = ⟨literalLabel s n contents, false⟩ := by
  obtain ⟨f, hf, hident, hname⟩ := hw.function
  obtain ⟨object, hargs⟩ := hw.args
  have hliteral : (s.literal? n).isSome = true := by rw [Script.literal?_of_isLiteral h]; rfl
  rw [resolve_of_call hw.kind, wrapper_of_callable_literal hf hident hname hargs hliteral]
  exact resolve_of_isLiteral h

end Handler

end IsLiteral

/-! ### Calls of a script -/

namespace Extract

/-- The calls of a node itself. -/
def callsAt (s : Script) (n : Node) : List Call :=
  if n.kind == "call" then (callOf? s n).toList
  else if n.kind == "attribute" then chainCalls s n [] n.namedChildren
  else []

end Extract

/-- The calls that the walk through a script comes upon. -/
def Script.calls (s : Script) : List Extract.Call := s.walk.flatMap (Extract.callsAt s)

namespace Extract

variable {s : Script} {file : String} {c : Call}

/-- The facts of a node are those of its calls, apart from the one of a declaration. -/
theorem factsAt_eq (s : Script) (file : String) (n : Node) :
    factsAt s file n =
      (if n.kind = "signal_statement" then ((definition? s file n).map Fact.definition).toList
        else []) ++ (callsAt s n).filterMap (callFact? s file) := by
  unfold callsAt
  by_cases hdeclaration : n.kind = "signal_statement"
  · rw [factsAt_of_declaration s file hdeclaration]
    simp [hdeclaration]
  · rw [if_neg hdeclaration, List.nil_append]
    by_cases hcall : n.kind = "call"
    · rw [factsAt_of_call s file hcall, if_pos (by simpa using hcall)]
      cases callOf? s n with
      | none => rfl
      | some c => cases hfact : callFact? s file c <;> simp [hfact]
    · by_cases hattribute : n.kind = "attribute"
      · simp [factsAt, hattribute]
      · rw [factsAt_of_other s file (by simp [hdeclaration, hcall, hattribute])]
        simp [hcall, hattribute]

/-- What a call of the script gives is among its facts. -/
theorem mem_facts_of_mem_calls (hc : c ∈ s.calls) {fact : Fact}
    (hfact : callFact? s file c = some fact) : fact ∈ s.walk.flatMap (factsAt s file) := by
  obtain ⟨n, hn, hcn⟩ := List.mem_flatMap.1 hc
  refine List.mem_flatMap.2 ⟨n, hn, ?_⟩
  rw [factsAt_eq]
  exact List.mem_append_right _ (List.mem_filterMap.2 ⟨c, hcn, hfact⟩)

end Extract

namespace Script

/-- `s.Emits file c e`: the call `c` gives the emission `e`, and the facts of the script have it. -/
structure Emits (s : Script) (file : String) (c : Extract.Call) (e : Emission) : Prop where
  fact : Extract.callFact? s file c = some (.emission e)
  mem : e ∈ (s.extract file).emissions

/-- `s.Connects file c k`: the call `c` gives the connection `k`, and the facts of the script have
it. -/
structure Connects (s : Script) (file : String) (c : Extract.Call) (k : Connection) : Prop where
  fact : Extract.callFact? s file c = some (.connection k)
  mem : k ∈ (s.extract file).connections

variable {s : Script} {file : String} {c : Extract.Call}

/-- A call of a plain name is among the calls of the script. -/
theorem mem_calls_of_call {n f : Node} {method : String} (hn : n ∈ s.root.preorder)
    (hsignificant : n.significant = true) (hkind : n.kind = "call")
    (hf : n.namedChildren.head? = some f) (hident : f.kind = "identifier")
    (hmethod : s.text f = method) : ⟨n, method, none, n.arguments⟩ ∈ s.calls := by
  refine List.mem_flatMap.2 ⟨n, ?_, ?_⟩
  · rw [walk_eq]
    exact List.mem_filter.2 ⟨hn, hsignificant⟩
  · simp [Extract.callsAt, Extract.callOf?, hkind, hf, hident, hmethod]

theorem emits_of_mem_calls (hc : c ∈ s.calls) {e : Emission}
    (he : Extract.callFact? s file c = some (.emission e)) : s.Emits file c e :=
  ⟨he, List.mem_filterMap.2 ⟨_, Extract.mem_facts_of_mem_calls hc he, rfl⟩⟩

theorem connects_of_mem_calls (hc : c ∈ s.calls) {k : Connection}
    (hk : Extract.callFact? s file c = some (.connection k)) : s.Connects file c k :=
  ⟨hk, List.mem_filterMap.2 ⟨_, Extract.mem_facts_of_mem_calls hc hk, rfl⟩⟩

end Script

/-! ### What calls name -/

namespace Extract

variable {s : Script} {file : String} {c : Call} {n : Node} {contents : String}

theorem leadingLiteral?_of_isLiteral (h : s.IsLiteral n contents) {args : List Node}
    (hargs : args.head? = some n) : leadingLiteral? s args = some contents := by
  rw [leadingLiteral?, hargs]
  exact Script.literal?_of_isLiteral h

/-- The name of the signal that a call of `connect` is about: a literal in front of the arguments,
or the name at the end of the receiver. -/
def connectedSignal? (s : Script) (c : Call) : Option String :=
  (leadingLiteral? s c.args).or ((c.receiver.bind signal?).map fun p => s.text p.1)

/-- The expression that a call of `connect` takes for the handler. -/
def handlerNode? (s : Script) (c : Call) : Option Node :=
  if (leadingLiteral? s c.args).isSome then (handlerAndFlags? s c.args).map Prod.fst
  else c.args.head?

/-- A call of `connect` that has a signal and a handler gives the connection of the two. -/
theorem exists_connection (hmethod : c.method = "connect") {name : String}
    (hname : connectedSignal? s c = some name) {w : Node} (hw : handlerNode? s c = some w)
    (file : String) :
    ∃ k : Connection, callFact? s file c = some (.connection k) ∧ k.signalName = name ∧
      k.handler = (Handler.resolve s w).label ∧ k.isLambda = (Handler.resolve s w).isLambda := by
  unfold connectedSignal? at hname
  unfold handlerNode? at hw
  cases hliteral : leadingLiteral? s c.args with
  | some literal =>
    rw [hliteral, Option.some_or, Option.some_inj] at hname
    subst hname
    rw [if_pos (by rw [hliteral]; rfl)] at hw
    obtain ⟨⟨_, flags⟩, hflags, rfl⟩ := Option.map_eq_some_iff.1 hw
    have hfact : callFact? s file c = connectByName? s file c := by
      unfold callFact?
      cases c.receiver <;> simp [hmethod, hliteral]
    rw [hfact, connectByName?, hliteral, hflags]
    exact ⟨_, rfl, rfl, rfl, rfl⟩
  | none =>
    rw [hliteral, Option.none_or] at hname
    obtain ⟨⟨signal, owner⟩, hsignal, rfl⟩ := Option.map_eq_some_iff.1 hname
    obtain ⟨parts, hparts, hsignal⟩ := Option.bind_eq_some_iff.1 hsignal
    rw [if_neg (by rw [hliteral]; decide)] at hw
    obtain ⟨rest, hargs⟩ := List.head?_eq_some_iff.1 hw
    have hfact : callFact? s file c = connect? s file c parts := by
      simp [callFact?, hmethod, hparts, hliteral]
    rw [hfact, connect?, hsignal, hargs]
    exact ⟨_, rfl, rfl, rfl, rfl⟩

theorem exists_emission (hmethod : c.method = "emit_signal") {name : String}
    (hname : leadingLiteral? s c.args = some name) (file : String) :
    ∃ e : Emission, callFact? s file c = some (.emission e) ∧ e.signalName = name := by
  have hfact : callFact? s file c = emitByName? s file c := by simp [callFact?, hmethod]
  rw [hfact, emitByName?, hname]
  exact ⟨_, rfl, rfl⟩

/-- By name, a third argument that is a literal is the handler. -/
theorem handlerNode?_of_isLiteral (h : s.IsLiteral n contents)
    (hnamed : (leadingLiteral? s c.args).isSome = true) (hargs : c.args[2]? = some n) :
    handlerNode? s c = some n := by
  rw [handlerNode?, if_pos hnamed, handlerAndFlags?, hargs, Option.filter_some,
    Script.literal?_of_isLiteral h]
  rfl

theorem exists_handlerNode? (hnamed : (leadingLiteral? s c.args).isSome = true)
    (hargs : 2 ≤ c.args.length) : ∃ w, handlerNode? s c = some w := by
  rw [handlerNode?, if_pos hnamed]
  unfold handlerAndFlags?
  split
  · exact ⟨_, rfl⟩
  · exact ⟨c.args[1], by rw [List.getElem?_eq_getElem hargs]; rfl⟩

/-- The names that literals give. As the first argument of `emit_signal` or `connect` a literal
names the signal by its contents. As the method of the older `connect`, or of a `Callable` that is
connected in either form, it names the handler, by its contents unless it is a node path: that one
is kept as it is written, which is never its contents. -/
theorem literals_name_signals_and_handlers (h : s.IsLiteral n contents) (file : String) :
    (∀ c ∈ s.calls, c.method = "emit_signal" → c.args.head? = some n →
        ∃ e, s.Emits file c e ∧ e.signalName = contents) ∧
      (∀ c ∈ s.calls, c.method = "connect" → c.args.head? = some n → 2 ≤ c.args.length →
        ∃ k, s.Connects file c k ∧ k.signalName = contents) ∧
      (∀ c ∈ s.calls, c.method = "connect" → (leadingLiteral? s c.args).isSome = true →
        c.args[2]? = some n →
        ∃ k, s.Connects file c k ∧ k.handler = Handler.literalLabel s n contents ∧
          k.isLambda = false) ∧
      (∀ c ∈ s.calls, c.method = "connect" → (connectedSignal? s c).isSome = true →
        ∀ w, handlerNode? s c = some w → Handler.IsCallable s w n →
        ∃ k, s.Connects file c k ∧ k.handler = Handler.literalLabel s n contents ∧
          k.isLambda = false) ∧
      (Handler.literalLabel s n contents = contents ↔ n.kind ≠ "node_path") := by
  refine ⟨fun c hc hmethod hargs => ?_, fun c hc hmethod hargs hlength => ?_,
    fun c hc hmethod hnamed hargs => ?_, fun c hc hmethod hsignal w hw hcallable => ?_,
    Handler.literalLabel_eq_iff h⟩
  · obtain ⟨e, he, hname⟩ :=
      exists_emission hmethod (leadingLiteral?_of_isLiteral h hargs) file
    exact ⟨e, Script.emits_of_mem_calls hc he, hname⟩
  · have hliteral := leadingLiteral?_of_isLiteral h hargs
    obtain ⟨w, hw⟩ := exists_handlerNode? (by rw [hliteral]; rfl) hlength
    obtain ⟨k, hk, hname, -, -⟩ := exists_connection hmethod
      (by rw [connectedSignal?, hliteral, Option.some_or]) hw file
    exact ⟨k, Script.connects_of_mem_calls hc hk, hname⟩
  · obtain ⟨name, hname⟩ := Option.isSome_iff_exists.1 hnamed
    obtain ⟨k, hk, -, hhandler, hlambda⟩ := exists_connection hmethod
      (by rw [connectedSignal?, hname, Option.some_or])
      (handlerNode?_of_isLiteral h hnamed hargs) file
    rw [Handler.resolve_of_isLiteral h] at hhandler hlambda
    exact ⟨k, Script.connects_of_mem_calls hc hk, hhandler, hlambda⟩
  · obtain ⟨name, hname⟩ := Option.isSome_iff_exists.1 hsignal
    obtain ⟨k, hk, -, hhandler, hlambda⟩ := exists_connection hmethod hname hw file
    rw [Handler.resolve_of_isCallable hcallable h] at hhandler hlambda
    exact ⟨k, Script.connects_of_mem_calls hc hk, hhandler, hlambda⟩

/-- A marked name in single quotes is emitted, and a method in triple quotes is connected inside a
`Callable`. -/
theorem literals_name_signals_and_handlers_of_two_calls :
    let tag : String → Option String → Nat → Nat → Tag := fun kind field start stop =>
      ⟨kind, true, false, false, false, field, start, stop, 0⟩
    let leaf : String → Nat → Nat → Node := fun kind start stop =>
      .node (tag kind none start stop) []
    let call : Node → List Node → Nat → Nat → Node := fun f args start stop =>
      .node (tag "call" none start stop)
        [f, .node (tag "arguments" (some "arguments") start stop) args]
    let signal := leaf "string_name" 12 16
    let method := leaf "string" 43 50
    let callable := call (leaf "identifier" 31 39) [leaf "identifier" 40 41, method] 31 51
    let emit := call (leaf "identifier" 0 11) [signal] 0 17
    let connect := call (leaf "identifier" 18 25) [leaf "string" 26 29, callable] 18 52
    let s : Script := ⟨"emit_signal(&'s')\nconnect(\"s\", Callable(o, \"\"\"h\"\"\"))",
      .node (tag "source" none 0 52) [emit, connect]⟩
    s.IsLiteral signal "s" ∧ s.IsLiteral method "h" ∧
      (∃ e, s.Emits "a.gd" ⟨emit, "emit_signal", none, [signal]⟩ e ∧ e.signalName = "s") ∧
      ∃ k, s.Connects "a.gd" ⟨connect, "connect", none, [leaf "string" 26 29, callable]⟩ k ∧
        k.handler = "h" := by
  intro tag leaf call signal method callable emit connect s
  have hsignal : s.IsLiteral signal "s" :=
    Script.isLiteral_of_text ['&'] ['\''] (.inr (.inl rfl)) (by decide) (by decide) (by decide)
      (by decide)
  have hmethod : s.IsLiteral method "h" :=
    Script.isLiteral_of_text [] ['"', '"', '"'] (.inl rfl) (by decide) (by decide) (by decide)
      (by decide)
  have hfirst : (⟨emit, "emit_signal", none, [signal]⟩ : Call) ∈ s.calls :=
    Script.mem_calls_of_call
      (by simp [s, Node.preorder, Node.forestPreorder, Node.preorder_eq emit])
      rfl rfl rfl rfl (by decide)
  have hsecond : (⟨connect, "connect", none, [leaf "string" 26 29, callable]⟩ : Call) ∈ s.calls :=
    Script.mem_calls_of_call
      (by simp [s, Node.preorder, Node.forestPreorder, Node.preorder_eq connect])
      rfl rfl rfl rfl (by decide)
  obtain ⟨hemit, -⟩ := literals_name_signals_and_handlers hsignal "a.gd"
  obtain ⟨-, -, -, hcallable, hlabel⟩ := literals_name_signals_and_handlers hmethod "a.gd"
  refine ⟨hsignal, hmethod, hemit _ hfirst rfl rfl, ?_⟩
  obtain ⟨k, hk, hhandler, -⟩ := hcallable _ hsecond rfl (by decide) callable (by rfl)
    ⟨rfl, ⟨leaf "identifier" 31 39, rfl, rfl, by decide⟩, ⟨leaf "identifier" 40 41, rfl⟩⟩
  exact ⟨k, hk, hhandler.trans (hlabel.2 (by decide))⟩

/-- A node path is a literal like the others where it names a signal, but as the handler of the same
call it keeps its mark and its quotes. -/
theorem node_path_handler_keeps_its_quotes :
    let tag : String → Option String → Nat → Nat → Tag := fun kind field start stop =>
      ⟨kind, true, false, false, false, field, start, stop, 0⟩
    let leaf : String → Nat → Nat → Node := fun kind start stop =>
      .node (tag kind none start stop) []
    let args := [leaf "node_path" 8 12, leaf "identifier" 14 15, leaf "node_path" 17 21]
    let connect : Node := .node (tag "call" none 0 22)
      [leaf "identifier" 0 7, .node (tag "arguments" (some "arguments") 7 22) args]
    let s : Script := ⟨"connect(^\"s\", o, ^\"h\")", connect⟩
    s.IsLiteral (leaf "node_path" 8 12) "s" ∧ s.IsLiteral (leaf "node_path" 17 21) "h" ∧
      ∃ k, s.Connects "a.gd" ⟨connect, "connect", none, args⟩ k ∧
        k.signalName = "s" ∧ k.handler = "^\"h\"" := by
  intro tag leaf args connect s
  have hsignal : s.IsLiteral (leaf "node_path" 8 12) "s" :=
    Script.isLiteral_of_text ['^'] ['"'] (.inr (.inr rfl)) (by decide) (by decide) (by decide)
      (by decide)
  have hmethod : s.IsLiteral (leaf "node_path" 17 21) "h" :=
    Script.isLiteral_of_text ['^'] ['"'] (.inr (.inr rfl)) (by decide) (by decide) (by decide)
      (by decide)
  have hcall : (⟨connect, "connect", none, args⟩ : Call) ∈ s.calls :=
    Script.mem_calls_of_call (by simp [s, Node.preorder_eq connect]) rfl rfl rfl rfl (by decide)
  have hliteral : leadingLiteral? s args = some "s" := leadingLiteral?_of_isLiteral hsignal rfl
  obtain ⟨k, hk, hname, hhandler, -⟩ := exists_connection
    (c := ⟨connect, "connect", none, args⟩) rfl (by rw [connectedSignal?, hliteral, Option.some_or])
    (handlerNode?_of_isLiteral hmethod (by rw [hliteral]; rfl) rfl) "a.gd"
  rw [Handler.resolve_of_isLiteral hmethod] at hhandler
  exact ⟨hsignal, hmethod, k, Script.connects_of_mem_calls hcall hk, hname,
    hhandler.trans (by decide)⟩

end Extract

end SignalAtlas
