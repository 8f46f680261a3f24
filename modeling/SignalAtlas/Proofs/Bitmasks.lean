import Mathlib.Tactic
import Mathlib.Data.Nat.Digits.Defs
import SignalAtlas.Proofs.Extras

/-!
# Flags as a bit mask

The flags of a connection are written as an integer: by its literals, by the constants of the
engine, and by `|` and `+` over them. `Flag.decode` never computes that integer. It lists what the
operands stand for, from left to right and each name once (`Flag.Operands`, `firsts`).

* `Literal.Writes` says which digits an integer literal writes, and `Literal.natural?` gives their
  value if it fits into 64 bits (`Literal.natural?_of_writes`);
* `Flag.Masks` evaluates an expression. Its operands may be joined by `+` only where they share no
  bit, so that no carry arises, and the names that `decode` gives are those of the bits of the value
  (`Flag.mem_leaves_of_masks`).
-/

namespace SignalAtlas

/-! ### First occurrences -/

/-- The members of a list that do not occur before their place. -/
def firsts (l : List String) : List String :=
  (l.zipIdx.filter fun e => e.1 ∉ l.take e.2).map Prod.fst

theorem firsts_concat (l : List String) (a : String) :
    firsts (l ++ [a]) = if a ∈ l then firsts l else firsts l ++ [a] := by
  have hbefore : (l.zipIdx.filter fun e => e.1 ∉ (l ++ [a]).take e.2) =
      l.zipIdx.filter fun e => e.1 ∉ l.take e.2 := by
    refine List.filter_congr fun e he => ?_
    have hlt : e.2 < l.length := by simpa using (List.mem_zipIdx he).2.1
    rw [List.take_append_of_le_length hlt.le]
  rw [firsts, List.zipIdx_append, List.filter_append, hbefore, List.map_append, ← firsts]
  by_cases h : a ∈ l <;> simp [h]

theorem eraseDups_eq_firsts (l : List String) : l.eraseDups = firsts l := by
  induction l using List.reverseRecOn with
  | nil => rfl
  | append_singleton l a ih =>
    rw [List.eraseDups_append, ih, firsts_concat]
    by_cases h : a ∈ l <;> simp [h, List.removeAll, List.eraseDups_cons]

theorem mem_firsts {l : List String} {a : String} : a ∈ firsts l ↔ a ∈ l := by
  rw [← eraseDups_eq_firsts, List.mem_eraseDups]

theorem nodup_firsts (l : List String) : (firsts l).Nodup := by
  induction l using List.reverseRecOn with
  | nil => exact .nil
  | append_singleton l a ih =>
    rw [firsts_concat]
    split
    · exact ih
    · next h =>
      refine List.nodup_append.2 ⟨ih, List.nodup_singleton a, fun b hb c hc hbc => ?_⟩
      cases List.mem_singleton.1 hc
      exact h (hbc ▸ mem_firsts.1 hb)

/-- Nothing is left out of a list without repetitions. -/
theorem firsts_of_nodup {l : List String} (h : l.Nodup) : firsts l = l := by
  induction l using List.reverseRecOn with
  | nil => rfl
  | append_singleton l a ih =>
    obtain ⟨hl, -, hne⟩ := List.nodup_append.1 h
    have ha : a ∉ l := fun ha => hne a ha a (by simp) rfl
    rw [firsts_concat, if_neg ha, ih hl]

/-! ### Integer literals -/

namespace Literal

/-- The systems in which an integer can be written. -/
inductive Radix where
  | binary
  | decimal
  | hexadecimal

/-- The number of digits. -/
def Radix.base : Radix → Nat
  | .binary => 2
  | .decimal => 10
  | .hexadecimal => 16

/-- What may stand in front to tell the system. -/
def Radix.marks : Radix → List (List Char)
  | .binary => [['0', 'b'], ['0', 'B']]
  | .decimal => [[]]
  | .hexadecimal => [['0', 'x'], ['0', 'X']]

/-- A character stands for a digit, in lower or upper case. -/
def IsDigit (c : Char) (d : Nat) : Prop :=
  "0123456789abcdef".toList[d]? = some c ∨ "0123456789ABCDEF".toList[d]? = some c

/-- Characters spell digits in a base, with underscores anywhere among them. -/
inductive Spells (base : Nat) : List Char → List Nat → Prop
  | nil : Spells base [] []
  | underscore {cs : List Char} {ds : List Nat} (rest : Spells base cs ds) :
    Spells base ('_' :: cs) ds
  | digit {c : Char} {d : Nat} {cs : List Char} {ds : List Nat} (lt : d < base)
    (head : IsDigit c d) (rest : Spells base cs ds) : Spells base (c :: cs) (d :: ds)

/-- A text is the literal of some digits, the leading one first: at least one, behind a mark of the
system. -/
structure Writes (text : String) (r : Radix) (ds : List Nat) : Prop where
  ne_nil : ds ≠ []
  spells : ∃ mark ∈ r.marks, ∃ body, text.toList = mark ++ body ∧ Spells r.base body ds

/-- The number that digits write, the leading one first. -/
def value (r : Radix) (ds : List Nat) : Nat := Nat.ofDigits r.base ds.reverse

theorem positional_eq (b : Nat) (ds : List Nat) : positional b ds = Nat.ofDigits b ds.reverse := by
  rw [positional, Nat.ofDigits_eq_foldr, List.foldr_reverse]
  simp only [Nat.cast_id, Nat.add_comm, Nat.mul_comm]

theorem IsDigit.lt {c : Char} {d : Nat} (h : IsDigit c d) : d < 16 := by
  rcases h with h | h <;> exact (List.getElem?_eq_some_iff.1 h).1

/-- Sixteen digits in two cases, each read as its own value. -/
theorem IsDigit.digit?_eq {c : Char} {d b : Nat} (h : IsDigit c d) (hb : d < b) :
    digit? b c = some d := by
  have hraw : digit? 16 c = some d := by
    have hd := h.lt
    rcases h with h | h <;> interval_cases d <;> cases h <;> decide
  rw [digit?, Option.filter_eq_some_iff] at hraw ⊢
  exact ⟨hraw.1, by simpa using hb⟩

theorem digit?_ne {c : Char} {d b : Nat} (h : digit? b c = some d) : c ≠ '_' ∧ c ≠ '+' := by
  have hnone : ∀ x ∈ ['_', '+'], digit? b x = none := by
    intro x hx
    rcases List.mem_pair.1 hx with rfl | rfl <;> rfl
  constructor <;> rintro rfl <;> simp [hnone] at h

theorem Spells.mapM_digit? {b : Nat} {cs : List Char} {ds : List Nat} (h : Spells b cs ds) :
    (cs.filter (· != '_')).mapM (digit? b) = some ds := by
  induction h with
  | nil => rfl
  | underscore _ ih => exact ih
  | digit lt head _ ih =>
    have hd := head.digit?_eq lt
    rw [List.filter_cons_of_pos (by simpa using (digit?_ne hd).1), List.mapM_cons, hd, ih]
    rfl

theorem word?_of_mapM {b : Nat} {cs : List Char} {ds : List Nat} (hne : ds ≠ [])
    (h : cs.mapM (digit? b) = some ds) :
    word? b cs = if positional b ds < 2 ^ 64 then some (positional b ds) else none := by
  cases cs with
  | nil => cases h; exact absurd rfl hne
  | cons c cs =>
    -- a digit is no plus sign, so nothing is taken off the front
    have hplus : c ≠ '+' := by
      rw [List.mapM_cons] at h
      obtain ⟨d, hd, -⟩ := Option.bind_eq_some_iff.1 h
      exact (digit?_ne hd).2
    unfold word?
    split
    · next heq => cases heq; exact absurd rfl hplus
    · rw [if_neg (by simp), h]
      rfl

theorem Spells.isDigit_of_mem {b : Nat} {cs : List Char} {ds : List Nat} (h : Spells b cs ds) :
    ∀ c ∈ cs.filter (· != '_'), ∃ d < b, IsDigit c d := by
  induction h with
  | nil => simp
  | underscore _ ih => exact ih
  | digit lt head _ ih =>
    rw [List.filter_cons_of_pos (by simpa using (digit?_ne (head.digit?_eq lt)).1)]
    exact List.forall_mem_cons.2 ⟨⟨_, lt, head⟩, ih⟩

/-- Without a mark a literal is decimal: no decimal digit looks like the letter of a mark. -/
theorem base_of_decimal {cs : List Char} (h : ∀ c ∈ cs, ∃ d < 10, IsDigit c d) :
    base cs = (10, cs) := by
  have hmarks : ∀ c ∈ cs, c ∉ ['x', 'X', 'b', 'B'] := by
    intro c hc
    obtain ⟨d, hd, hdigit⟩ := h c hc
    rcases hdigit with hdigit | hdigit <;> interval_cases d <;> cases hdigit <;> decide
  unfold base
  split <;> simp_all

/-- The value of a literal, if it fits into 64 bits. -/
theorem natural?_of_writes {text : String} {r : Radix} {ds : List Nat} (h : Writes text r ds) :
    natural? text = if value r ds < 2 ^ 64 then some (value r ds) else none := by
  obtain ⟨hne, mark, hmark, body, htext, hspells⟩ := h
  have hdigits := hspells.mapM_digit?
  have hbase : base (text.toList.filter (· != '_')) =
      (r.base, body.filter (· != '_')) := by
    rw [htext, List.filter_append]
    cases r with
    | binary => rcases List.mem_pair.1 hmark with rfl | rfl <;> rfl
    | decimal =>
      cases List.mem_singleton.1 hmark
      exact base_of_decimal hspells.isDigit_of_mem
    | hexadecimal => rcases List.mem_pair.1 hmark with rfl | rfl <;> rfl
  rw [natural?, hbase, value, ← positional_eq]
  exact word?_of_mapM hne hdigits

end Literal

namespace Flag

variable {s : Script} {n : Node}

/-! ### Operands -/

/-- A node is an operator, written as `op`, with two sides. -/
structure Operation (s : Script) (n : Node) (op : String) (left right : Node) : Prop where
  kind : n.kind = "binary_operator"
  op : ∃ o, n.field? "op" = some o ∧ s.text o = op
  left : n.field? "left" = some left
  right : n.field? "right" = some right

/-- The operands of an expression from left to right: what `|` and `+` join, at any depth. An
expression that is not joined from two is an operand by itself. -/
inductive Operands (s : Script) : Node → List Node → Prop
  | single {n : Node}
    (h : ∀ op left right, Operation s n op left right → op ≠ "|" ∧ op ≠ "+") : Operands s n [n]
  | join {n left right : Node} {op : String} {ls rs : List Node}
    (operation : Operation s n op left right) (joins : op = "|" ∨ op = "+")
    (onLeft : Operands s left ls) (onRight : Operands s right rs) : Operands s n (ls ++ rs)

theorem exists_operands (s : Script) (n : Node) : ∃ ls, Operands s n ls := by
  by_cases h : ∃ op left right, Operation s n op left right ∧ (op = "|" ∨ op = "+")
  · obtain ⟨op, left, right, hop, hjoins⟩ := h
    have := Node.size_lt_of_field? hop.left
    have := Node.size_lt_of_field? hop.right
    obtain ⟨ls, hls⟩ := exists_operands s left
    obtain ⟨rs, hrs⟩ := exists_operands s right
    exact ⟨ls ++ rs, .join hop hjoins hls hrs⟩
  · refine ⟨[n], .single fun op left right hop => ?_⟩
    exact not_or.1 fun hjoins => h ⟨op, left, right, hop, hjoins⟩
termination_by n.size

theorem joins_eq_true_iff :
    joins s n = true ↔ ∃ o, n.field? "op" = some o ∧ (s.text o = "|" ∨ s.text o = "+") := by
  unfold joins
  split
  · next o ho => simp [ho]
  · next ho => simp [ho]

theorem leaves_of_operation {op : String} {left right : Node} (h : Operation s n op left right)
    (hop : op = "|" ∨ op = "+") : leaves s n = leaves s left ++ leaves s right := by
  obtain ⟨o, ho, rfl⟩ := h.op
  exact leaves_of_joins h.kind h.left h.right (joins_eq_true_iff.2 ⟨o, ho, hop⟩)

/-! ### What a literal and a constant stand for -/

/-- The name of a flag is no integer literal. -/
theorem natural?_of_name : ∀ name ∈ all.map Flag.name, Literal.natural? name = none := by
  decide

theorem namesOf_sublist (mask : Nat) : (namesOf mask).Sublist (all.map Flag.name) :=
  List.filter_sublist.map _

theorem text_not_mem_namesOf {text : String} {v : Nat} (h : Literal.natural? text = some v)
    (mask : Nat) : text ∉ namesOf mask := by
  intro hmem
  rw [natural?_of_name text ((namesOf_sublist mask).subset hmem)] at h
  cases h

theorem nodup_ofLiteral (text : String) : (ofLiteral text).Nodup := by
  unfold ofLiteral
  split
  · next mask hmask =>
    have hnames : (namesOf mask).Nodup := (namesOf_sublist mask).nodup (by decide)
    split
    · rwa [List.append_nil]
    · refine List.nodup_append.2 ⟨hnames, List.nodup_singleton text, fun a ha b hb hab => ?_⟩
      cases List.mem_singleton.1 hb
      exact text_not_mem_namesOf hmask mask (hab ▸ ha)
  · exact List.nodup_singleton text

theorem lt_sixteen_iff (v : Nat) : v < 16 ↔ ¬∃ bit, 3 < bit ∧ v.testBit bit = true := by
  constructor
  · rintro h ⟨bit, hbit, htest⟩
    have hle : 2 ^ bit ≤ v := Nat.ge_two_pow_of_testBit htest
    have hpow : 2 ^ 4 ≤ 2 ^ bit := Nat.pow_le_pow_right (by decide) hbit
    omega
  · intro h
    refine Nat.lt_pow_two_of_testBit (n := 4) v fun bit hbit => ?_
    by_contra htest
    exact h ⟨bit, hbit, by simpa using htest⟩

/-- The text of a literal is kept if it has no value, or one with a bit that has no name. -/
theorem text_mem_ofLiteral (text : String) :
    text ∈ ofLiteral text ↔ Literal.natural? text = none ∨
      ∃ v, Literal.natural? text = some v ∧ ∃ bit, 3 < bit ∧ v.testBit bit = true := by
  unfold ofLiteral
  split
  · next mask hmask =>
    have hnames : text ∉ namesOf mask := text_not_mem_namesOf hmask mask
    have hsmall : mask < Nat.pow 2 all.length ↔ mask < 16 := Iff.rfl
    have hbits := lt_sixteen_iff mask
    by_cases hlt : mask < 16
    · rw [if_pos (hsmall.2 hlt), List.append_nil]
      simp only [hnames, hmask, false_iff, reduceCtorEq, Option.some.injEq, exists_eq_left',
        false_or]
      exact hbits.1 hlt
    · rw [if_neg (hsmall.not.2 hlt)]
      simp only [List.mem_append, List.mem_singleton, or_true, hmask, true_iff, reduceCtorEq,
        Option.some.injEq, exists_eq_left', false_or]
      exact not_not.1 (hbits.not.1 hlt)
  · next hnone => simp [hnone]

/-- What stands by itself and is neither a literal nor a name is kept as it is written. -/
theorem leaves_of_single (h : ∀ op left right, Operation s n op left right → op ≠ "|" ∧ op ≠ "+")
    (hkind : n.kind ∉ ["integer", "identifier", "attribute"]) : leaves s n = [s.text n] := by
  by_cases hop : n.kind = "binary_operator"
  · refine leaves_of_not_joins hop fun left right hl hr => ?_
    by_contra hjoins
    obtain ⟨o, ho, htext⟩ := joins_eq_true_iff.1 (Bool.not_eq_false _ ▸ hjoins)
    have hne := h _ left right ⟨hop, ⟨o, ho, rfl⟩, hl, hr⟩
    exact htext.elim hne.1 hne.2
  · exact leaves_of_other (List.not_mem_cons_of_ne_of_not_mem hop hkind)

/-- What stands by itself is decoded without repetitions. -/
theorem nodup_leaves (h : ∀ op left right, Operation s n op left right → op ≠ "|" ∧ op ≠ "+") :
    (leaves s n).Nodup := by
  by_cases hint : n.kind = "integer"
  · rw [leaves_of_integer hint]
    exact nodup_ofLiteral _
  · by_cases hconst : n.kind = "identifier" ∨ n.kind = "attribute"
    · rw [leaves_of_constant hconst]
      exact List.nodup_singleton _
    · rw [leaves_of_single h (by simp_all)]
      exact List.nodup_singleton _

theorem decode_eq_firsts (s : Script) (n : Node) : decode s n = firsts (leaves s n) :=
  eraseDups_eq_firsts _

/-- An expression stands for what its operands stand for, in turn. -/
theorem leaves_of_operands {ls : List Node} (h : Operands s n ls) :
    leaves s n = ls.flatMap (decode s) := by
  induction h with
  | single h =>
    rw [List.flatMap_singleton, decode_eq_firsts, firsts_of_nodup (nodup_leaves h)]
  | join operation joins _ _ ihl ihr =>
    rw [leaves_of_operation operation joins, ihl, ihr, List.flatMap_append]

/-! ### Masks -/

/-- A constant of the engine and the bit that it sets. -/
inductive Sets : String → Nat → Prop
  | deferred : Sets "CONNECT_DEFERRED" 0
  | persist : Sets "CONNECT_PERSIST" 1
  | oneShot : Sets "CONNECT_ONE_SHOT" 2
  | oneshot : Sets "CONNECT_ONESHOT" 2
  | referenceCounted : Sets "CONNECT_REFERENCE_COUNTED" 3

/-- The name of a bit. -/
def bitName? : Nat → Option String
  | 0 => some "deferred"
  | 1 => some "persist"
  | 2 => some "one_shot"
  | 3 => some "reference_counted"
  | _ => none

/-- The value of an expression over constants, which stand by themselves or as the last name of a
chain, and literals below sixteen. A sum counts only where its sides share no bit. -/
inductive Masks (s : Script) : Node → Nat → Prop
  | constant {n : Node} {bit : Nat} (kind : n.kind = "identifier") (sets : Sets (s.text n) bit) :
    Masks s n (2 ^ bit)
  | chain {n last : Node} {bit : Nat} (kind : n.kind = "attribute")
    (ends : n.namedChildren.getLast? = some last) (name : last.kind = "identifier")
    (sets : Sets (s.text last) bit) : Masks s n (2 ^ bit)
  | literal {n : Node} {r : Literal.Radix} {ds : List Nat} (kind : n.kind = "integer")
    (writes : Literal.Writes (s.text n) r ds) (lt : Literal.value r ds < 16) :
    Masks s n (Literal.value r ds)
  | union {n left right : Node} {a b : Nat} (operation : Operation s n "|" left right)
    (onLeft : Masks s left a) (onRight : Masks s right b) : Masks s n (a ||| b)
  | sum {n left right : Node} {a b : Nat} (operation : Operation s n "+" left right)
    (onLeft : Masks s left a) (onRight : Masks s right b) (disjoint : a &&& b = 0) :
    Masks s n (a + b)

/-- No carry arises in a sum without a common bit. -/
theorem add_eq_or_of_disjoint {a b : Nat} (h : a &&& b = 0) : a + b = a ||| b := by
  have hbound : ∀ k, k ≤ a + b → k < 2 ^ (a + b) := fun k hk =>
    (Nat.lt_two_pow_self).trans_le (Nat.pow_le_pow_right (by decide) hk)
  have hand : BitVec.ofNat (a + b) a &&& BitVec.ofNat (a + b) b = 0#(a + b) := by
    rw [← BitVec.ofNat_and, h]
  have hadd := BitVec.toNat_add_of_and_eq_zero hand
  rw [BitVec.add_eq_or_of_and_eq_zero _ _ hand, BitVec.toNat_or, BitVec.toNat_ofNat,
    BitVec.toNat_ofNat, Nat.mod_eq_of_lt (hbound a (by omega)),
    Nat.mod_eq_of_lt (hbound b (by omega))] at hadd
  exact hadd.symm

theorem bitName?_eq_some_iff {bit : Nat} {name : String} :
    bitName? bit = some name ↔ ∃ f ∈ all, f.bit = bit ∧ f.name = name := by
  constructor
  · intro h
    match bit, h with
    | 0, h => cases h; exact ⟨_, .head _, rfl, rfl⟩
    | 1, h => cases h; exact ⟨_, .tail _ (.head _), rfl, rfl⟩
    | 2, h => cases h; exact ⟨_, .tail _ (.tail _ (.head _)), rfl, rfl⟩
    | 3, h => cases h; exact ⟨_, .tail _ (.tail _ (.tail _ (.head _))), rfl, rfl⟩
  · rintro ⟨f, hf, rfl, rfl⟩
    simp only [all, List.mem_cons, List.not_mem_nil, or_false] at hf
    rcases hf with rfl | rfl | rfl | rfl <;> rfl

theorem mem_namesOf {mask : Nat} {name : String} :
    name ∈ namesOf mask ↔ ∃ bit, mask.testBit bit = true ∧ bitName? bit = some name := by
  simp only [namesOf, List.mem_map, List.mem_filter, bitName?_eq_some_iff]
  constructor
  · rintro ⟨f, ⟨hf, hbit⟩, rfl⟩
    exact ⟨f.bit, hbit, f, hf, rfl, rfl⟩
  · rintro ⟨_, hbit, f, hf, rfl, rfl⟩
    exact ⟨f, ⟨hf, hbit⟩, rfl⟩

theorem ofConstant?_of_sets {constant : String} {bit : Nat} (h : Sets constant bit) :
    ∃ name, ofConstant? constant = some name ∧ bitName? bit = some name := by
  cases h <;> exact ⟨_, rfl, rfl⟩

theorem exists_bit_two_pow_iff {bit : Nat} {name other : String} (h : bitName? bit = some name) :
    other = name ↔ ∃ i, (2 ^ bit).testBit i = true ∧ bitName? i = some other := by
  simp only [Nat.testBit_two_pow, decide_eq_true_eq, exists_eq_left', h, Option.some.injEq]
  exact eq_comm

theorem mem_leaves_of_masks {mask : Nat} (h : Masks s n mask) (name : String) :
    name ∈ leaves s n ↔ ∃ bit, mask.testBit bit = true ∧ bitName? bit = some name := by
  induction h with
  | constant kind sets =>
    obtain ⟨known, hconst, hbit⟩ := ofConstant?_of_sets sets
    rw [leaves_of_constant (.inl kind), ← exists_bit_two_pow_iff hbit]
    simp [ofConstant, Flag.chain, kind, hconst, Option.filter_some]
  | chain kind ends hlast sets =>
    obtain ⟨known, hconst, hbit⟩ := ofConstant?_of_sets sets
    rw [leaves_of_constant (.inr kind), ← exists_bit_two_pow_iff hbit]
    simp [ofConstant, Flag.chain, kind, ends, hlast, hconst, Option.filter_some]
  | literal kind writes lt =>
    have hvalue := Literal.natural?_of_writes writes
    rw [if_pos (lt.trans (by norm_num))] at hvalue
    rw [leaves_of_integer kind, ofLiteral, hvalue]
    simp only [if_pos (show _ < Nat.pow 2 all.length from lt), List.append_nil]
    exact mem_namesOf
  | union operation _ _ ihl ihr =>
    rw [leaves_of_operation operation (.inl rfl), List.mem_append, ihl, ihr, ← exists_or]
    simp only [Nat.testBit_or, Bool.or_eq_true, or_and_right]
  | sum operation _ _ disjoint ihl ihr =>
    rw [leaves_of_operation operation (.inr rfl), List.mem_append, ihl, ihr, ← exists_or,
      add_eq_or_of_disjoint disjoint]
    simp only [Nat.testBit_or, Bool.or_eq_true, or_and_right]

/-- An operand is not joined from two. -/
theorem Operands.single_of_mem {operand : Node} {ls : List Node} (h : Operands s n ls)
    (hm : operand ∈ ls) (op : String) (left right : Node)
    (hop : Operation s operand op left right) : op ≠ "|" ∧ op ≠ "+" := by
  induction h with
  | single h =>
    rw [List.mem_singleton] at hm
    exact h op left right (hm ▸ hop)
  | join _ _ _ _ ihl ihr => exact (List.mem_append.1 hm).elim ihl ihr

/-- An operand that is neither a literal nor a name is kept as it is written. -/
theorem decode_of_single (h : ∀ op left right, Operation s n op left right → op ≠ "|" ∧ op ≠ "+")
    (hkind : n.kind ∉ ["integer", "identifier", "attribute"]) : decode s n = [s.text n] := by
  rw [decode_eq_firsts, leaves_of_single h hkind, firsts_of_nodup (List.nodup_singleton _)]

/-- Decoding flags computes a bit mask. What it gives is what the operands give, from left to right
and each once; an operand of any other kind than a literal or a name, such as one in parentheses, is
kept as it is written. For an expression with a mask these are the names of its bits. A literal has
its positional value if that fits into 64 bits, and its text is kept exactly if it has no value or
one with a bit above those that have names. -/
theorem decoding_computes_bitmask (s : Script) (n : Node) :
    (decode s n).Nodup ∧
      (∃ ls, Operands s n ls ∧ decode s n = firsts (ls.flatMap (decode s))) ∧
      (∀ ls, Operands s n ls → ∀ operand ∈ ls,
        operand.kind ∉ ["integer", "identifier", "attribute"] →
        decode s operand = [s.text operand] ∧ s.text operand ∈ decode s n) ∧
      (∀ mask, Masks s n mask → ∀ name,
        name ∈ decode s n ↔ ∃ bit, mask.testBit bit = true ∧ bitName? bit = some name) ∧
      (∀ text r ds, Literal.Writes text r ds →
        Literal.natural? text =
          if Literal.value r ds < 2 ^ 64 then some (Literal.value r ds) else none) ∧
      (n.kind = "integer" →
        (s.text n ∈ decode s n ↔ Literal.natural? (s.text n) = none ∨
          ∃ v, Literal.natural? (s.text n) = some v ∧ ∃ bit, 3 < bit ∧ v.testBit bit = true)) := by
  have hmem : ∀ name, name ∈ decode s n ↔ name ∈ leaves s n := fun name => by
    rw [decode_eq_firsts, mem_firsts]
  obtain ⟨ls, hls⟩ := exists_operands s n
  refine ⟨?_, ⟨ls, hls, ?_⟩, fun ls' hls' operand hoperand hkind => ?_, fun mask hmask name => ?_,
    fun text r ds => Literal.natural?_of_writes, fun hkind => ?_⟩
  · rw [decode_eq_firsts]
    exact nodup_firsts _
  · rw [← leaves_of_operands hls, decode_eq_firsts]
  · have hkept := decode_of_single (hls'.single_of_mem hoperand) hkind
    refine ⟨hkept, ?_⟩
    rw [hmem, leaves_of_operands hls']
    exact List.mem_flatMap.2 ⟨operand, hoperand, by rw [hkept]; exact List.mem_singleton_self _⟩
  · rw [hmem, mem_leaves_of_masks hmask]
  · rw [hmem, leaves_of_integer hkind]
    exact text_mem_ofLiteral _

/-- A constant in a chain, a binary literal with an underscore and a constant by itself, joined by
both operators; and a literal in parentheses, which is not read. -/
theorem decoding_computes_bitmask_of_three_operands :
    let part : String → Option String → Nat → Nat → List Node → Node :=
      fun kind field start stop l =>
        .node ⟨kind, true, false, false, false, field, start, stop, 0⟩ l
    let name := part "identifier" none 7 23 []
    let chain := part "attribute" (some "left") 0 23 [part "identifier" none 0 6 [], name]
    let literal := part "integer" (some "left") 26 32 []
    let constant := part "identifier" (some "right") 35 50 []
    let sum := part "binary_operator" (some "right") 26 50
      [literal, part "+" (some "op") 33 34 [], constant]
    let root := part "binary_operator" none 0 50 [chain, part "|" (some "op") 24 25 [], sum]
    let s : Script := ⟨"Object.CONNECT_DEFERRED | 0b1_00 + CONNECT_PERSIST", root⟩
    Masks s root 7 ∧ (decode s root).Nodup ∧
      (∀ name ∈ ["deferred", "persist", "one_shot"], name ∈ decode s root) ∧
      "reference_counted" ∉ decode s root ∧
      Literal.natural? "0b1_00" = some 4 ∧ "0b1_00" ∉ decode s literal ∧
      decode ⟨"(1)", root⟩ (part "parenthesized_expression" none 0 3 []) = ["(1)"] := by
  intro part name chain literal constant sum root s
  have hname : s.text name = "CONNECT_DEFERRED" := by decide
  have hliteral : s.text literal = "0b1_00" := by decide
  have hconstant : s.text constant = "CONNECT_PERSIST" := by decide
  have hwrites : Literal.Writes "0b1_00" .binary [1, 0, 0] :=
    ⟨by decide, ['0', 'b'], by decide, ['1', '_', '0', '0'], by decide,
      .digit (by decide) (.inl (by decide)) (.underscore (.digit (by decide) (.inl (by decide))
        (.digit (by decide) (.inl (by decide)) .nil)))⟩
  have hchain : Masks s chain (2 ^ 0) := .chain rfl rfl rfl (hname ▸ .deferred)
  have hleft : Masks s literal (Literal.value .binary [1, 0, 0]) :=
    .literal rfl (hliteral ▸ hwrites) (by decide)
  have hright : Masks s constant (2 ^ 1) := .constant rfl (hconstant ▸ .persist)
  have hsum : Masks s sum (Literal.value .binary [1, 0, 0] + 2 ^ 1) :=
    .sum ⟨rfl, ⟨_, rfl, by decide⟩, rfl, rfl⟩ hleft hright (by decide)
  have hroot : Masks s root 7 := .union ⟨rfl, ⟨_, rfl, by decide⟩, rfl, rfl⟩ hchain hsum
  obtain ⟨hnodup, -, -, hmask, hvalue, -⟩ := decoding_computes_bitmask s root
  obtain ⟨-, -, -, -, -, htext⟩ := decoding_computes_bitmask s literal
  have hfour : Literal.natural? "0b1_00" = some 4 :=
    (hvalue "0b1_00" .binary [1, 0, 0] hwrites).trans (by decide)
  have hnames : ∀ name, name ∈ decode s root ↔ name ∈ namesOf 7 := fun name =>
    (hmask 7 hroot name).trans mem_namesOf.symm
  refine ⟨hroot, hnodup, ?_, ?_, hfour, ?_, ?_⟩
  · simp only [hnames]
    decide
  · rw [hnames]
    decide
  · rw [hliteral, hfour] at htext
    rw [htext rfl]
    rintro (h | ⟨v, hv, hbits⟩)
    · cases h
    · cases hv
      exact (lt_sixteen_iff 4).1 (by decide) hbits
  · have htext :
        Script.text ⟨"(1)", root⟩ (part "parenthesized_expression" none 0 3 []) = "(1)" := by
      decide
    rw [decode_of_single (fun _ _ _ h => absurd h.kind (by decide)) (by decide), htext]

end Flag

end SignalAtlas
