import Mathlib.Tactic
import Mathlib.Logic.Relation
import SignalAtlas.Signal.Handler

/-!
# Handlers inside wrappers

`Handler.resolve` looks through `Callable(…)`, `.bind(…)` and `.unbind(…)`. The recursion of
`resolve` and `resolveChain` is said once, form by form (`resolve_of_identifier` up to
`resolveChain_concat`); all else follows from these equations.

* `Wraps s x w` says that `w` is `x` inside one wrapper, and `Wrapped s x w` that it is `x` inside
  any number of them;
* a wrapped expression stands for what is inside it (`resolve_of_wrapped`), and it is a lambda
  exactly if there is a lambda inside (`isLambda_resolve_iff`).
-/

namespace SignalAtlas

namespace Handler

variable {s : Script} {n : Node}

/-! ### Expressions, form by form -/

theorem resolve_of_identifier (h : n.kind = "identifier") : resolve s n = ⟨s.text n, false⟩ := by
  rw [resolve, if_pos (by simp [h])]
  rfl

theorem resolve_of_literal (h : n.kind = "string" ∨ n.kind = "string_name") :
    resolve s n = ⟨Literal.unquote (s.text n), false⟩ := by
  rw [resolve, if_neg, if_pos]
  · simpa using h
  · rcases h with h | h <;> simp [h]

theorem resolve_of_attribute (h : n.kind = "attribute") :
    resolve s n = resolveChain s n.namedChildren := by
  rw [resolve]
  simp [h]

theorem resolve_of_lambda (h : n.kind = "lambda") : resolve s n = lambda s n := by
  rw [resolve]
  simp [h]

/-- What a call stands for, once it is taken apart. -/
def unwrapped (s : Script) (call : Node) : Wrapper → Handler
  | .callable inner => resolve s inner
  | .rebound owner => resolveChain s owner
  | .other => verbatim s call

theorem resolve_of_call (h : n.kind = "call") : resolve s n = unwrapped s n (wrapper s n) := by
  rw [resolve]
  simp only [h, String.reduceBEq, Bool.false_eq_true, Bool.or_self, if_false, if_true]
  split
  · next inner hw => rw [hw]; rfl
  · next owner hw => rw [hw]; rfl
  · next hw => rw [hw]; rfl

/-- The kinds of expressions that are looked into or that have a form of their own. -/
def kinds : List String := ["identifier", "string", "string_name", "attribute", "lambda", "call"]

theorem resolve_of_not_mem_kinds (h : n.kind ∉ kinds) : resolve s n = verbatim s n := by
  rw [resolve]
  simp only [kinds, List.mem_cons, List.not_mem_nil, or_false, not_or] at h
  simp [h]

theorem resolveChain_nil : resolveChain s [] = ⟨"", false⟩ := by
  rw [resolveChain]

theorem resolveChain_singleton : resolveChain s [n] = resolve s n := by
  rw [resolveChain]

/-- Whether a part of a chain is a call of `bind` or `unbind`. -/
def isRebinding (s : Script) (part : Node) : Bool :=
  part.kind == "attribute_call" && (s.methodName? part).any rebinds

theorem resolveChain_concat {parts : List Node} (h : parts ≠ []) (last : Node) :
    resolveChain s (parts ++ [last]) =
      if last.kind = "identifier" then verbatim s last
      else if isRebinding s last then resolveChain s parts
      else ⟨s.chainText (parts ++ [last]), false⟩ := by
  obtain ⟨first, rest, rfl⟩ := List.exists_cons_of_ne_nil h
  obtain ⟨second, rest', hrest⟩ := List.exists_cons_of_ne_nil (l := rest ++ [last]) (by simp)
  have hlast : (second :: rest').getLast (by simp) = last := by
    simp [← hrest]
  have hdrop : (first :: second :: rest').dropLast = first :: rest := by
    rw [← hrest, ← List.cons_append, List.dropLast_concat]
  rw [List.cons_append, hrest, resolveChain]
  simp only [hlast, hdrop, beq_iff_eq]
  rfl

/-! ### Wrappers -/

theorem isRebinding_iff {part : Node} :
    isRebinding s part = true ↔
      part.kind = "attribute_call" ∧
        (s.methodName? part = some "bind" ∨ s.methodName? part = some "unbind") := by
  unfold isRebinding rebinds
  cases s.methodName? part <;> simp

theorem resolveChain_chain (s : Script) (x : Node) :
    resolveChain s (Flag.chain x) = resolve s x := by
  unfold Flag.chain
  split
  · next h => rw [resolve_of_attribute (by simpa using h)]
  · exact resolveChain_singleton

/-- `Wraps s x w`: the expression `w` is `x` inside one wrapper: `Callable(x)`; the chain
`x.bind(…)` or `x.unbind(…)`, written as one chain or as a call of the chain `x.bind`; or a chain of
which `x` is the only part. -/
inductive Wraps (s : Script) (x : Node) : Node → Prop where
  | callable {w f : Node} (kind : w.kind = "call") (function : w.namedChildren.head? = some f)
      (plain : f.kind = "identifier") (name : s.text f = "Callable") (args : w.arguments = [x]) :
      Wraps s x w
  | chain {w last : Node} (kind : w.kind = "attribute") (inner : Flag.chain x ≠ [])
      (parts : w.namedChildren = Flag.chain x ++ [last]) (segment : last.kind = "attribute_call")
      (method : s.methodName? last = some "bind" ∨ s.methodName? last = some "unbind") :
      Wraps s x w
  | call {w f last : Node} (kind : w.kind = "call") (function : w.namedChildren.head? = some f)
      (chained : f.kind = "attribute") (inner : Flag.chain x ≠ [])
      (parts : f.namedChildren = Flag.chain x ++ [last])
      (method : s.text last = "bind" ∨ s.text last = "unbind") : Wraps s x w
  | sole {w : Node} (kind : w.kind = "attribute") (parts : w.namedChildren = [x]) : Wraps s x w

/-- `Wrapped s x w`: the expression `w` is `x` inside any number of wrappers of any sort. -/
def Wrapped (s : Script) : Node → Node → Prop := Relation.ReflTransGen (Wraps s)

theorem wrapper_of_callable {w f : Node} (hf : w.namedChildren.head? = some f)
    (hkind : f.kind = "identifier") (hname : s.text f = "Callable") {x : Node}
    (hargs : w.arguments = [x]) : wrapper s w = .callable x := by
  simp [wrapper, hf, hkind, hname, hargs]

theorem wrapper_of_callable_literal {w f : Node} (hf : w.namedChildren.head? = some f)
    (hkind : f.kind = "identifier") (hname : s.text f = "Callable") {object method : Node}
    (hargs : w.arguments = [object, method]) (hliteral : (s.literal? method).isSome = true) :
    wrapper s w = .callable method := by
  simp [wrapper, hf, hkind, hname, hargs, hliteral]

theorem wrapper_of_rebound {w f : Node} (hf : w.namedChildren.head? = some f)
    (hkind : f.kind = "attribute") {parts : List Node} {last : Node}
    (hparts : f.namedChildren = parts ++ [last]) (hne : parts ≠ [])
    (hmethod : s.text last = "bind" ∨ s.text last = "unbind") : wrapper s w = .rebound parts := by
  have hrebinds : rebinds (s.text last) = true := by simpa [rebinds] using hmethod
  simp [wrapper, hf, hkind, hparts, hne, hrebinds]

theorem resolve_of_wraps {x w : Node} (h : Wraps s x w) : resolve s w = resolve s x := by
  cases h with
  | callable kind function plain name args =>
    rw [resolve_of_call kind, wrapper_of_callable function plain name args]
    rfl
  | @chain last kind inner parts segment method =>
    have hident : last.kind ≠ "identifier" := by rw [segment]; decide
    rw [resolve_of_attribute kind, parts, resolveChain_concat inner, if_neg hident,
      if_pos (isRebinding_iff.2 ⟨segment, method⟩), resolveChain_chain]
  | call kind function chained inner parts method =>
    rw [resolve_of_call kind, wrapper_of_rebound function chained parts inner method]
    exact resolveChain_chain s x
  | sole kind parts => rw [resolve_of_attribute kind, parts, resolveChain_singleton]

/-- A wrapped expression stands for what is inside. -/
theorem resolve_of_wrapped {x w : Node} (h : Wrapped s x w) : resolve s w = resolve s x := by
  induction h with
  | refl => rfl
  | tail _ hwraps ih => rw [resolve_of_wraps hwraps, ih]

theorem resolve_of_named_chain {last : Node} (hkind : n.kind = "attribute")
    (hlast : n.namedChildren.getLast? = some last) (hident : last.kind = "identifier") :
    resolve s n = ⟨s.text last, false⟩ := by
  obtain ⟨parts, hparts⟩ := List.getLast?_eq_some_iff.1 hlast
  rw [resolve_of_attribute hkind, hparts]
  by_cases hne : parts = []
  · rw [hne, List.nil_append, resolveChain_singleton, resolve_of_identifier hident]
  · rw [resolveChain_concat hne, if_pos hident]
    rfl

/-! ### Lambdas -/

theorem isLambda_lambda (s : Script) (n : Node) : (lambda s n).isLambda = true := by
  unfold lambda
  split <;> rfl

/-- A chain as an expression of its own. -/
def chainNode (parts : List Node) : Node :=
  .node { kind := "attribute", named := true, extra := false, error := false, missing := false,
          field := none, start := 0, stop := 0, row := 0 } parts

theorem namedChildren_chainNode {parts : List Node} (h : ∀ p ∈ parts, p.significant = true) :
    (chainNode parts).namedChildren = parts :=
  List.filter_eq_self.2 h

theorem chain_chainNode {parts : List Node} (h : ∀ p ∈ parts, p.significant = true) :
    Flag.chain (chainNode parts) = parts :=
  (if_pos rfl).trans (namedChildren_chainNode h)

theorem size_chainNode (parts : List Node) : (chainNode parts).size = Node.forestSize parts + 1 :=
  Node.size_eq _

/-- What a call can be taken apart into. -/
theorem wrapper_cases (s : Script) (w : Node) :
    (∃ f x, w.namedChildren.head? = some f ∧ f.kind = "identifier" ∧ s.text f = "Callable" ∧
        wrapper s w = .callable x ∧ (w.arguments = [x] ∨ (s.literal? x).isSome = true)) ∨
      (∃ f parts last, w.namedChildren.head? = some f ∧ f.kind = "attribute" ∧
        f.namedChildren = parts ++ [last] ∧ parts ≠ [] ∧
        (s.text last = "bind" ∨ s.text last = "unbind") ∧ wrapper s w = .rebound parts) ∨
      wrapper s w = .other := by
  cases hf : w.namedChildren.head? with
  | none => exact .inr (.inr (by simp [wrapper, hf]))
  | some f =>
    by_cases hcallable : f.kind = "identifier" ∧ s.text f = "Callable"
    · obtain ⟨hkind, hname⟩ := hcallable
      rcases hargs : w.arguments with _ | ⟨a, _ | ⟨b, _ | ⟨c, l⟩⟩⟩
      · exact .inr (.inr (by simp [wrapper, hf, hkind, hname, hargs]))
      · exact .inl ⟨f, a, rfl, hkind, hname, wrapper_of_callable hf hkind hname hargs, .inl rfl⟩
      · by_cases hliteral : (s.literal? b).isSome = true
        · exact .inl ⟨f, b, rfl, hkind, hname,
            wrapper_of_callable_literal hf hkind hname hargs hliteral, .inr hliteral⟩
        · exact .inr (.inr (by simp [wrapper, hf, hkind, hname, hargs, hliteral]))
      · exact .inr (.inr (by simp [wrapper, hf, hkind, hname, hargs]))
    · by_cases hkind : f.kind = "attribute"
      · rcases List.eq_nil_or_concat' f.namedChildren with hparts | ⟨parts, last, hparts⟩
        · exact .inr (.inr (by simp [wrapper, hf, hkind, hparts]))
        · by_cases hbind : parts ≠ [] ∧ (s.text last = "bind" ∨ s.text last = "unbind")
          · obtain ⟨hne, hmethod⟩ := hbind
            exact .inr (.inl ⟨f, parts, last, rfl, hkind, hparts, hne, hmethod,
              wrapper_of_rebound hf hkind hparts hne hmethod⟩)
          · exact .inr (.inr (by simp [wrapper, hf, hkind, hparts, rebinds, hbind]))
      · exact .inr (.inr (by simp [wrapper, hf, hkind, hcallable]))

theorem isLambda_of_literal (h : (s.literal? n).isSome = true) :
    (resolve s n).isLambda = false := by
  have hkind : (n.kind = "string" ∨ n.kind = "string_name") ∨ n.kind = "node_path" := by
    by_contra hne
    unfold Script.literal? at h
    simp_all
  rcases hkind with hkind | hkind
  · rw [resolve_of_literal hkind]
  · rw [resolve_of_not_mem_kinds (by rw [hkind]; decide)]
    rfl

theorem significant_of_mem {p : Node} (h : p ∈ n.namedChildren) : p.significant = true :=
  (List.mem_filter.1 h).2

theorem exists_wraps_of_attribute {w : Node} (hkind : w.kind = "attribute")
    (h : (resolve s w).isLambda = true) : ∃ y, Wraps s y w ∧ y.size < w.size := by
  have hsmall := w.forestSize_namedChildren_lt
  rcases List.eq_nil_or_concat' w.namedChildren with hparts | ⟨parts, last, hparts⟩
  · rw [resolve_of_attribute hkind, hparts, resolveChain_nil] at h
    cases h
  · rw [hparts, Node.forestSize_append] at hsmall
    simp only [Node.forestSize] at hsmall
    by_cases hne : parts = []
    · subst hne
      exact ⟨last, .sole hkind hparts, by omega⟩
    · rw [resolve_of_attribute hkind, hparts, resolveChain_concat hne] at h
      split at h
      · cases h
      · split at h
        · next hrebinding =>
          obtain ⟨hsegment, hmethod⟩ := isRebinding_iff.1 hrebinding
          have hchain : Flag.chain (chainNode parts) = parts :=
            chain_chainNode fun p hp => significant_of_mem (hparts ▸ List.mem_append_left _ hp)
          refine ⟨chainNode parts, .chain hkind ?_ ?_ hsegment hmethod, ?_⟩
          · rwa [hchain]
          · rwa [hchain]
          · have := last.size_pos
            rw [size_chainNode]
            omega
        · cases h

theorem exists_wraps_of_call {w : Node} (hkind : w.kind = "call")
    (h : (resolve s w).isLambda = true) : ∃ y, Wraps s y w ∧ y.size < w.size := by
  rw [resolve_of_call hkind] at h
  rcases wrapper_cases s w with ⟨f, x, hf, hplain, hname, hw, hargs | hliteral⟩ |
    ⟨f, parts, last, hf, hchained, hparts, hne, hmethod, -⟩ | hw
  · exact ⟨x, .callable hkind hf hplain hname hargs, size_lt_of_wrapper_callable hw⟩
  · rw [hw] at h
    exact absurd (h.symm.trans (isLambda_of_literal hliteral)) (by decide)
  · have hchain : Flag.chain (chainNode parts) = parts :=
      chain_chainNode fun p hp => significant_of_mem (hparts ▸ List.mem_append_left _ hp)
    refine ⟨chainNode parts, .call hkind hf hchained ?_ ?_ hmethod, ?_⟩
    · rwa [hchain]
    · rwa [hchain]
    · have hinner := f.forestSize_namedChildren_lt
      have houter := Node.size_lt_of_mem_namedChildren (List.mem_of_mem_head? hf)
      rw [hparts, Node.forestSize_append] at hinner
      rw [size_chainNode]
      omega
  · rw [hw] at h
    cases h

/-- What is resolved to a lambda without being one is a wrapper around something smaller. -/
theorem exists_wraps_of_isLambda {w : Node} (hkind : w.kind ≠ "lambda")
    (h : (resolve s w).isLambda = true) : ∃ y, Wraps s y w ∧ y.size < w.size := by
  by_cases hkinds : w.kind ∈ kinds
  · simp only [kinds, List.mem_cons, List.not_mem_nil, or_false] at hkinds
    rcases hkinds with hkinds | hkinds | hkinds | hkinds | hkinds | hkinds
    · rw [resolve_of_identifier hkinds] at h
      cases h
    · rw [resolve_of_literal (.inl hkinds)] at h
      cases h
    · rw [resolve_of_literal (.inr hkinds)] at h
      cases h
    · exact exists_wraps_of_attribute hkinds h
    · exact absurd hkinds hkind
    · exact exists_wraps_of_call hkinds h
  · rw [resolve_of_not_mem_kinds hkinds] at h
    cases h

/-- What is resolved to a lambda has one inside. -/
theorem exists_lambda_of_isLambda {w : Node} (h : (resolve s w).isLambda = true) :
    ∃ x, x.kind = "lambda" ∧ Wrapped s x w := by
  induction hsize : w.size using Nat.strong_induction_on generalizing w with
  | _ k ih =>
    by_cases hkind : w.kind = "lambda"
    · exact ⟨w, hkind, .refl⟩
    · obtain ⟨y, hwraps, hlt⟩ := exists_wraps_of_isLambda hkind h
      rw [resolve_of_wraps hwraps] at h
      obtain ⟨x, hx, hwrapped⟩ := ih y.size (hsize ▸ hlt) h rfl
      exact ⟨x, hx, hwrapped.tail hwraps⟩

theorem isLambda_resolve_iff {w : Node} :
    (resolve s w).isLambda = true ↔ ∃ x, x.kind = "lambda" ∧ Wrapped s x w := by
  constructor
  · exact exists_lambda_of_isLambda
  · rintro ⟨x, hx, hwrapped⟩
    rw [resolve_of_wrapped hwrapped, resolve_of_lambda hx]
    exact isLambda_lambda s x

/-- Resolving a handler gives an answer for every expression, and the same one for an expression
and for the same expression inside any nesting of wrappers. A name stands for itself, a chain that
ends in a name for that name, a text for its contents, also as the method of an object, and a lambda
for its label. Where there is nothing to look into, only a lambda is taken for one. -/
theorem resolution_sees_through_wrappers (s : Script) :
    (∀ x w, Wrapped s x w → resolve s w = resolve s x) ∧
      (∀ n, n.kind = "identifier" → resolve s n = ⟨s.text n, false⟩) ∧
      (∀ n last, n.kind = "attribute" → n.namedChildren.getLast? = some last →
        last.kind = "identifier" → resolve s n = ⟨s.text last, false⟩) ∧
      (∀ n, n.kind = "string" ∨ n.kind = "string_name" →
        resolve s n = ⟨Literal.unquote (s.text n), false⟩) ∧
      (∀ n f object method, n.kind = "call" → n.namedChildren.head? = some f →
        f.kind = "identifier" → s.text f = "Callable" → n.arguments = [object, method] →
        method.kind = "string" ∨ method.kind = "string_name" →
        resolve s n = ⟨Literal.unquote (s.text method), false⟩) ∧
      (∀ n name, n.kind = "lambda" → n.field? "name" = some name →
        resolve s n = ⟨"<lambda:" ++ s.text name ++ ">@" ++ toString n.line, true⟩) ∧
      (∀ n, n.kind = "lambda" → n.field? "name" = none →
        resolve s n = ⟨"<lambda>@" ++ toString n.line, true⟩) ∧
      (∀ w, (resolve s w).isLambda = true ↔ ∃ x, x.kind = "lambda" ∧ Wrapped s x w) ∧
      ∀ n, (∀ x, ¬Wraps s x n) → ((resolve s n).isLambda = true ↔ n.kind = "lambda") := by
  refine ⟨fun x w => resolve_of_wrapped, fun n => resolve_of_identifier, ?_,
    fun n => resolve_of_literal, ?_, ?_, ?_, fun w => isLambda_resolve_iff, ?_⟩
  · intro n last hkind hlast hident
    exact resolve_of_named_chain hkind hlast hident
  · intro n f object method hkind hf hplain hname hargs hmethod
    have hliteral : (s.literal? method).isSome = true := by
      rcases hmethod with h | h <;> simp [Script.literal?, h]
    rw [resolve_of_call hkind, wrapper_of_callable_literal hf hplain hname hargs hliteral]
    exact resolve_of_literal hmethod
  · intro n name hkind hname
    rw [resolve_of_lambda hkind, lambda, hname]
  · intro n hkind hname
    rw [resolve_of_lambda hkind, lambda, hname]
  · intro n hbase
    constructor
    · intro h
      by_contra hkind
      obtain ⟨y, hwraps, -⟩ := exists_wraps_of_isLambda hkind h
      exact hbase y hwraps
    · intro hkind
      rw [resolve_of_lambda hkind]
      exact isLambda_lambda s n

/-- A method rebound twice in one chain inside `Callable`, a method given by object and text, and a
lambda with a name whose `bind` is called. -/
theorem resolution_sees_through_three_wrappers :
    let part : String → Nat → Nat → List Node → Node := fun kind start stop l =>
      .node ⟨kind, true, false, false, false, none, start, stop, 0⟩ l
    let play : String → String → Nat → Nat → List Node → Node := fun field kind start stop l =>
      .node ⟨kind, true, false, false, false, some field, start, stop, 0⟩ l
    let name := part "identifier"
    let f := part "attribute" 9 14 [name 9 12 [], name 13 14 []]
    let bind := part "attribute_call" 15 22 [name 15 19 [], play "arguments" "arguments" 19 22 []]
    let unbind := part "attribute_call" 23 32 [name 23 29 [], play "arguments" "arguments" 29 32 []]
    let rebound := part "attribute" 9 32 [name 9 12 [], name 13 14 [], bind, unbind]
    let wrapped := part "call" 0 33 [name 0 8 [], play "arguments" "arguments" 8 33 [rebound]]
    let byText :=
      part "call" 34 52 [name 34 42 [],
        play "arguments" "arguments" 42 52 [name 43 46 [], part "string" 48 51 []]]
    let lambda := part "lambda" 53 64 [play "name" "name" 58 59 []]
    let called :=
      part "call" 53 71 [part "attribute" 53 69 [lambda, name 65 69 []],
        play "arguments" "arguments" 69 71 []]
    let s : Script :=
      ⟨"Callable(obj.f.bind(1).unbind(1)) Callable(obj, \"g\") func h(): x.bind()", wrapped⟩
    Wrapped s f wrapped ∧ Wrapped s lambda called ∧ (∀ x, ¬Wraps s x lambda) ∧
      resolve s wrapped = ⟨"f", false⟩ ∧ resolve s (name 9 12 []) = ⟨"obj", false⟩ ∧
      resolve s (part "string" 48 51 []) = ⟨"g", false⟩ ∧ resolve s byText = ⟨"g", false⟩ ∧
      resolve s called = ⟨"<lambda:h>@1", true⟩ ∧
      resolve s (part "lambda" 53 64 []) = ⟨"<lambda>@1", true⟩ ∧
      (resolve s lambda).isLambda = true := by
  intro part play name f bind unbind rebound wrapped byText lambda called s
  obtain ⟨hsame, hname, hchain, hstring, htext, hlabel, hanonymous, -, honly⟩ :=
    resolution_sees_through_wrappers s
  have hf : Wrapped s f wrapped := by
    let bound := part "attribute" 9 22 [name 9 12 [], name 13 14 [], bind]
    have hbound : Wraps s f bound := .chain rfl (List.cons_ne_nil _ _) rfl rfl (.inl (by decide))
    have hrebound : Wraps s bound rebound :=
      .chain rfl (List.cons_ne_nil _ _) rfl rfl (.inr (by decide))
    have hwrapped : Wraps s rebound wrapped := .callable rfl rfl rfl (by decide) rfl
    exact ((Relation.ReflTransGen.single hbound).tail hrebound).tail hwrapped
  have hlambda : Wrapped s lambda called :=
    .single (.call rfl rfl rfl (List.cons_ne_nil _ _) rfl (.inl (by decide)))
  have hbase : ∀ x, ¬Wraps s x lambda := by
    intro x h
    rcases h with ⟨kind⟩ | ⟨kind⟩ | ⟨kind⟩ | ⟨kind⟩ <;> exact absurd kind (by decide)
  refine ⟨hf, hlambda, hbase, ?_, (hname _ rfl).trans (by decide),
    (hstring _ (.inl rfl)).trans (by decide),
    (htext byText _ _ _ rfl rfl rfl (by decide) rfl (.inl rfl)).trans (by decide), ?_,
    (hanonymous _ rfl rfl).trans (by decide), (honly lambda hbase).2 rfl⟩
  · exact (hsame f wrapped hf).trans ((hchain f _ rfl rfl rfl).trans (by decide))
  · exact (hsame lambda called hlambda).trans ((hlabel lambda _ rfl rfl).trans (by decide))

end Handler

end SignalAtlas
