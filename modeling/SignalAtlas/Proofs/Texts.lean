import Mathlib.Tactic
import SignalAtlas.Json.Printer
import SignalAtlas.Json.Raw
import SignalAtlas.Proofs.Encodings

/-!
# Reading back what was written

`Json.pretty` and `Raw.parse?` fit together: the text of a value is read as the grammatical form of
that value, `Raw.ofJson` (`parse?_pretty`). That holds for all values without fractional numbers.

* `stringBody_quoted`: a quoted text is read as its pieces, and `pieceText?_pieces` puts them
  together again;
* `numeral?_decimal`: a whole number is read as its digits;
* `value?_prettyAt` puts these together by recursion over the value.
-/

namespace SignalAtlas

namespace Raw

open Text

/-! ### Texts -/

/-- The pieces as which a character is written: a control character without a short form by its
number, anything else by its bytes. -/
def pieces (c : Char) : List Piece :=
  if c.toNat < 32 ∧ c.toNat ∉ [8, 9, 10, 12, 13] then [.unit c.toNat]
  else (String.utf8EncodeChar c).map .byte

/-- A byte that stands for itself between quotes. -/
def IsPlain (b : UInt8) : Prop := b ≠ 0x22 ∧ b ≠ 0x5C ∧ ¬b < 0x20

theorem stringBody_plain {bs : Bytes} (h : ∀ b ∈ bs, IsPlain b) (acc : List Piece) (rest : Bytes) :
    stringBody acc (bs ++ rest) = stringBody ((bs.map Piece.byte).reverse ++ acc) rest := by
  induction bs generalizing acc with
  | nil => rfl
  | cons b bs ih =>
    obtain ⟨h₁, h₂, h₃⟩ := h b (by simp)
    rw [List.cons_append, stringBody.eq_def]
    simp only [h₁, h₂, h₃, if_false]
    rw [ih fun c hc => h c (List.mem_cons_of_mem _ hc)]
    simp

theorem isPlain_of_mem {c : Char} (h₁ : c ≠ '"') (h₂ : c ≠ '\\') (h₃ : 32 ≤ c.toNat) {b : UInt8}
    (hb : b ∈ String.utf8EncodeChar c) : IsPlain b := by
  have hn : ∀ d : Char, c ≠ d → c.toNat ≠ d.toNat := fun d hd he => hd (Char.toNat_inj.1 he)
  have h₁ : c.toNat ≠ 0x22 := hn '"' h₁
  have h₂ : c.toNat ≠ 0x5C := hn '\\' h₂
  have hb' : b.toNat ≠ 0x22 ∧ b.toNat ≠ 0x5C ∧ 32 ≤ b.toNat := by
    by_cases hc : c.toNat < 128
    · rw [utf8EncodeChar_of_lt hc, List.mem_singleton] at hb
      have hbn : b.toNat = c.toNat := by
        rw [hb, UInt8.toNat_ofNat']
        exact Nat.mod_eq_of_lt (by omega)
      omega
    · have := le_of_mem_utf8EncodeChar (Nat.le_of_not_lt hc) hb
      omega
  refine ⟨fun he => hb'.1 (by rw [he]; rfl), fun he => hb'.2.1 (by rw [he]; rfl), fun hlt => ?_⟩
  have hlt' := UInt8.lt_iff_toNat_lt.1 hlt
  have h20 : (0x20 : UInt8).toNat = 32 := rfl
  omega

theorem hexDigit?_hexDigit : ∀ n < 16,
    String.utf8EncodeChar (Json.hexDigit n) = [UInt8.ofNat (Json.hexDigit n).toNat] ∧
      hexDigit? (UInt8.ofNat (Json.hexDigit n).toNat) = some n := by
  decide

/-- A control character is read back from its number. -/
theorem stringBody_unit {n : Nat} (h : n < 256) (acc : List Piece) (rest : Bytes) :
    stringBody acc (encode ['\\', 'u', '0', '0', Json.hexDigit (n / 16), Json.hexDigit (n % 16)] ++
      rest) = stringBody (.unit n :: acc) rest := by
  obtain ⟨he₁, hd₁⟩ := hexDigit?_hexDigit (n / 16) (by omega)
  obtain ⟨he₂, hd₂⟩ := hexDigit?_hexDigit (n % 16) (by omega)
  have hesc : ∀ tail, encode ('\\' :: 'u' :: '0' :: '0' :: tail) =
      0x5C :: 0x75 :: 0x30 :: 0x30 :: encode tail := fun _ => rfl
  have h0 : hexDigit? 0x30 = some 0 := by decide
  have hn : n / 16 * 16 + n % 16 = n := by omega
  rw [hesc, encode_cons, encode_cons, encode_nil, he₁, he₂]
  rw [List.cons_append, stringBody.eq_def]
  simp [h0, hd₁, hd₂, hn]

/-- A character with a short form is read back from it. -/
theorem stringBody_short {e b : UInt8} (he : e ≠ 0x75) (hb : escape? e = some b)
    (acc : List Piece) (rest : Bytes) :
    stringBody acc (0x5C :: e :: rest) = stringBody (.byte b :: acc) rest := by
  rw [stringBody.eq_def]
  simp [he, hb]

/-- A character between quotes is read as its pieces. -/
theorem stringBody_escape (c : Char) (acc : List Piece) (rest : Bytes) :
    stringBody acc (encode (Json.escape c) ++ rest) =
      stringBody ((pieces c).reverse ++ acc) rest := by
  unfold Json.escape
  split
  · exact stringBody_short (e := 0x22) (by decide) rfl acc rest
  · exact stringBody_short (e := 0x5C) (by decide) rfl acc rest
  · exact stringBody_short (e := 0x6E) (by decide) rfl acc rest
  · exact stringBody_short (e := 0x72) (by decide) rfl acc rest
  · exact stringBody_short (e := 0x74) (by decide) rfl acc rest
  · next h₁ h₂ h₃ h₄ h₅ =>
    have hn : ∀ d : Char, c ≠ d → c.toNat ≠ d.toNat := fun d hd he => hd (Char.toNat_inj.1 he)
    have h₃ : c.toNat ≠ 10 := hn '\n' h₃
    have h₄ : c.toNat ≠ 13 := hn '\r' h₄
    have h₅ : c.toNat ≠ 9 := hn '\t' h₅
    split
    · next h8 =>
      rw [show c = '\x08' from Char.toNat_inj.1 h8]
      exact stringBody_short (e := 0x62) (by decide) rfl acc rest
    · split
      · next h12 =>
        rw [show c = '\x0c' from Char.toNat_inj.1 h12]
        exact stringBody_short (e := 0x66) (by decide) rfl acc rest
      · next h8 h12 =>
        split
        · next h32 =>
          rw [stringBody_unit (by omega), pieces, if_pos ⟨h32, by simp_all⟩]
          rfl
        · next h32 =>
          rw [pieces, if_neg fun h => h32 h.1, encode_cons, encode_nil, List.append_nil]
          exact stringBody_plain (fun b hb => isPlain_of_mem h₁ h₂ (by omega) hb) acc rest

/-- A text between quotes is read as its pieces. -/
theorem stringBody_quoted (cs : List Char) (acc : List Piece) (rest : Bytes) :
    stringBody acc (encode (cs.flatMap Json.escape) ++ 0x22 :: rest) =
      some (acc.reverse ++ cs.flatMap pieces, rest) := by
  induction cs generalizing acc with
  | nil => rw [List.flatMap_nil, encode_nil, List.nil_append, stringBody.eq_def]; simp
  | cons c cs ih =>
    rw [List.flatMap_cons, encode_append, List.append_assoc, stringBody_escape, ih]
    simp

theorem pieceBytes?_bytes (bs : Bytes) (rest : List Piece) :
    pieceBytes? (bs.map .byte ++ rest) = (pieceBytes? rest).map (bs ++ ·) := by
  induction bs with
  | nil => simp
  | cons b bs ih =>
    rw [List.map_cons, List.cons_append, pieceBytes?, ih, Option.map_map]
    rfl

theorem pieceBytes?_unit {u : Nat} (h : u < 0xD800) (rest : List Piece) :
    pieceBytes? (.unit u :: rest) =
      (pieceBytes? rest).map (Text.bytes (.singleton (.ofNat u)) ++ ·) := by
  have h₁ : ¬(0xD800 ≤ u ∧ u < 0xDC00) := by omega
  have h₂ : ¬(0xDC00 ≤ u ∧ u < 0xE000) := by omega
  have h₃ : ¬(0xD800 ≤ u ∧ u < 0xE000) := by omega
  cases rest with
  | nil => rw [pieceBytes?.eq_def]; simp [h₃]
  | cons p rest =>
    cases p with
    | byte b => rw [pieceBytes?.eq_def]; simp [h₃]
    | unit v => rw [pieceBytes?.eq_def]; simp only [h₁, h₂, if_false]

theorem pieceBytes?_pieces (c : Char) (rest : List Piece) :
    pieceBytes? (pieces c ++ rest) = (pieceBytes? rest).map (String.utf8EncodeChar c ++ ·) := by
  unfold pieces
  split
  · next h =>
    rw [List.singleton_append, pieceBytes?_unit (by omega), Char.ofNat_toNat, bytes_eq_encode]
    simp
  · exact pieceBytes?_bytes _ rest

/-- The pieces of a text make up the text. -/
theorem pieceText?_pieces (s : String) : pieceText? (s.toList.flatMap pieces) = some s := by
  have h : ∀ cs : List Char, pieceBytes? (cs.flatMap pieces) = some (encode cs) := by
    intro cs
    induction cs with
    | nil => rfl
    | cons c cs ih => rw [List.flatMap_cons, pieceBytes?_pieces, ih]; rfl
  rw [pieceText?, h, Option.bind_some, ← bytes_eq_encode, Bytes.text?_bytes]

/-! ### Numbers -/

/-- The decimal digits of a number. -/
def decimal (n : Nat) : List Nat := (Nat.toDigits 10 n).map fun c => c.toNat - 0x30

/-- What follows a number does not continue it. -/
def Stops (rest : Bytes) : Prop :=
  ∀ b ∈ rest.head?, isDigit b = false ∧ b ≠ 0x2E ∧ b ≠ 0x65 ∧ b ≠ 0x45

theorem ofDigits_decimal (n : Nat) : Numeral.ofDigits 10 (decimal n) = n := by
  have h := Nat.ofDigitChars_ten_toDigits (n := n)
  rw [Nat.ofDigitChars_eq_foldl] at h
  unfold Numeral.ofDigits decimal
  rw [List.foldl_map]
  simp only [Nat.mul_comm _ 10]
  exact h

theorem decimal_ne_nil (n : Nat) : decimal n ≠ [] := by
  simp [decimal]

/-- No zero stands in front of other digits. -/
theorem decimal_ne_zero_cons (n : Nat) (d : Nat) (ds : List Nat) : decimal n ≠ 0 :: d :: ds := by
  have hdigit : ∀ k < 10, k.digitChar.toNat - 0x30 = k := by decide
  induction n using Nat.strong_induction_on generalizing d ds with
  | _ n ih =>
    unfold decimal
    by_cases hn : n < 10
    · rw [Nat.toDigits_of_lt_base hn]
      simp
    · rw [Nat.toDigits_of_base_le (by omega) (by omega), List.map_append]
      intro h
      have hrec := ih (n / 10) (by omega)
      unfold decimal at hrec
      -- the digits in front are those of a smaller number, which is not zero
      cases hd : (Nat.toDigits 10 (n / 10)).map fun c => c.toNat - 0x30 with
      | nil => simp at hd
      | cons a l =>
        rw [hd, List.cons_append, List.cons.injEq] at h
        cases l with
        | nil =>
          by_cases h10 : n / 10 < 10
          · rw [Nat.toDigits_of_lt_base h10, List.map_singleton, hdigit _ h10] at hd
            simp at hd
            omega
          · have hlen := congrArg List.length hd
            rw [Nat.toDigits_of_base_le (by omega) (by omega)] at hlen
            simp at hlen
        | cons b l => exact hrec b l (by rw [hd, h.1])

theorem encode_toDigits (n : Nat) :
    encode (Nat.toDigits 10 n) = (Nat.toDigits 10 n).map fun c => UInt8.ofNat c.toNat := by
  have h : ∀ c ∈ Nat.toDigits 10 n, String.utf8EncodeChar c = [UInt8.ofNat c.toNat] := by
    intro c hc
    have hd := Char.isDigit_iff_toNat.1 (Nat.isDigit_of_mem_toDigits (by omega) (by omega) hc)
    have h9 : '9'.toNat = 57 := rfl
    exact utf8EncodeChar_of_lt (by omega)
  rw [encode, List.flatMap_congr h, List.map_eq_flatMap]

theorem isDigit_of_mem_encode {n : Nat} {b : UInt8} (hb : b ∈ encode (Nat.toDigits 10 n)) :
    isDigit b = true := by
  rw [encode_toDigits] at hb
  obtain ⟨c, hc, rfl⟩ := List.mem_map.1 hb
  obtain ⟨h₁, h₂⟩ := Char.isDigit_iff_toNat.1 (Nat.isDigit_of_mem_toDigits (by omega) (by omega) hc)
  have h0 : '0'.toNat = 48 := rfl
  have h9 : '9'.toNat = 57 := rfl
  have hall : ∀ k ≤ 57, 48 ≤ k → isDigit (UInt8.ofNat k) = true := by decide
  exact hall _ (by omega) (by omega)

theorem digits_decimal (n : Nat) {rest : Bytes} (hs : Stops rest) :
    digits (encode (Nat.toDigits 10 n) ++ rest) = (decimal n, rest) := by
  have hrest : rest.takeWhile isDigit = [] ∧ rest.dropWhile isDigit = rest := by
    cases rest with
    | nil => exact ⟨rfl, rfl⟩
    | cons b rest =>
      have hb := (hs b rfl).1
      simp [hb]
  unfold digits
  rw [List.takeWhile_append_of_pos fun b => isDigit_of_mem_encode,
    List.dropWhile_append_of_pos fun b => isDigit_of_mem_encode, hrest.1, hrest.2, List.append_nil,
    encode_toDigits, List.map_map]
  refine Prod.ext (List.map_congr_left fun c hc => ?_) rfl
  have h := Char.isDigit_iff_toNat.1 (Nat.isDigit_of_mem_toDigits (by omega) (by omega) hc)
  have h9 : '9'.toNat = 57 := rfl
  show (UInt8.ofNat c.toNat).toNat - 0x30 = c.toNat - 0x30
  rw [UInt8.toNat_ofNat', Nat.mod_eq_of_lt (by omega)]

/-- A whole number is read as its digits. -/
theorem numeral?_decimal (negative : Bool) (n : Nat) {rest : Bytes} (hs : Stops rest) :
    numeral? negative (encode (Nat.toDigits 10 n) ++ rest) =
      some (⟨negative, decimal n, none, none⟩, rest) := by
  have hf : fraction? rest = some (none, rest) := by
    unfold fraction?
    split
    · exact absurd rfl (hs 0x2E rfl).2.1
    · rfl
  have he : exponent? rest = some (none, rest) := by
    unfold exponent?
    split
    · rfl
    · next b tail =>
      obtain ⟨-, -, h₁, h₂⟩ := hs b rfl
      simp [h₁, h₂]
  unfold numeral?
  rw [digits_decimal n hs]
  split
  · next h => exact absurd (Prod.mk.inj h).1 (decimal_ne_nil n)
  · next h => exact absurd (Prod.mk.inj h).1 (decimal_ne_zero_cons n _ _)
  · next h =>
    obtain ⟨h₁, h₂⟩ := Prod.mk.inj h
    rw [← h₁, ← h₂, hf]
    simp [he]

/-! ### Blanks and words -/

theorem skipBlanks_newline (level : Nat) (rest : Bytes) :
    skipBlanks (Text.bytes (Json.newline level) ++ rest) = skipBlanks rest := by
  have hspaces : ∀ k, skipBlanks (encode (List.replicate k ' ') ++ rest) = skipBlanks rest := by
    intro k
    induction k with
    | zero => rfl
    | succ k ih => rw [List.replicate_succ]; exact ih
  rw [Json.newline, bytes_ofList]
  exact hspaces (2 * level)

/-- A byte that starts a value. -/
def Starts (b : UInt8) : Prop := b ≠ 0x20 ∧ b ≠ 0x09 ∧ b ≠ 0x0A ∧ b ≠ 0x0D ∧ b ≠ 0x5D

instance (b : UInt8) : Decidable (Starts b) := inferInstanceAs (Decidable (_ ∧ _ ∧ _ ∧ _ ∧ _))

theorem skipBlanks_cons {b : UInt8} (h : Starts b) (rest : Bytes) :
    skipBlanks (b :: rest) = b :: rest := by
  obtain ⟨h₁, h₂, h₃, h₄, -⟩ := h
  unfold skipBlanks
  rw [List.dropWhile_cons_of_neg (by simp [h₁, h₂, h₃, h₄])]

theorem value?_newline (fuel level : Nat) (rest : Bytes) :
    value? fuel (Text.bytes (Json.newline level) ++ rest) = value? fuel rest := by
  cases fuel with
  | zero => rfl
  | succ fuel => rw [value?, value?, skipBlanks_newline]

/-! ### Values -/

mutual

/-- The grammatical form of a value. Numbers with a fraction have none here. -/
def ofJson : Json → Raw
  | .null => .null
  | .bool b => .bool b
  | .int n => .number ⟨decide (n < 0), decimal n.natAbs, none, none⟩
  | .real _ => .null
  | .string s => .string (s.toList.flatMap pieces)
  | .array l => .array (ofItems l)
  | .object l => .object (ofMembers l)

/-- The grammatical forms of items. -/
def ofItems : List Json → List Raw
  | [] => []
  | v :: l => ofJson v :: ofItems l

/-- The grammatical forms of members. -/
def ofMembers : List (String × Json) → List (List Piece × Raw)
  | [] => []
  | (name, v) :: l => (name.toList.flatMap pieces, ofJson v) :: ofMembers l

end

mutual

/-- A value without fractional numbers. -/
def whole : Json → Bool
  | .real _ => false
  | .array l => wholeItems l
  | .object l => wholeMembers l
  | _ => true

/-- Items without fractional numbers. -/
def wholeItems : List Json → Bool
  | [] => true
  | v :: l => whole v && wholeItems l

/-- Members without fractional numbers. -/
def wholeMembers : List (String × Json) → Bool
  | [] => true
  | (_, v) :: l => whole v && wholeMembers l

end

theorem bytes_quote (s : String) (rest : Bytes) :
    Text.bytes (Json.quote s) ++ rest =
      0x22 :: (encode (s.toList.flatMap Json.escape) ++ 0x22 :: rest) := by
  have hq : String.utf8EncodeChar '"' = [0x22] := rfl
  rw [Json.quote, bytes_ofList, encode_cons, encode_append, encode_cons, hq]
  simp

theorem bytes_int (n : Int) : Text.bytes (toString n) =
    if n < 0 then 0x2D :: encode (Nat.toDigits 10 n.natAbs)
    else encode (Nat.toDigits 10 n.natAbs) := by
  have hm : Text.bytes "-" = [0x2D] := rfl
  rw [Int.toString_eq_repr, Int.repr_eq_if]
  split
  · next h =>
    rw [if_neg (by omega), bytes_eq_encode, Nat.toList_repr, show n.toNat = n.natAbs by omega]
  · next h =>
    rw [if_pos (by omega), bytes_append, hm, bytes_eq_encode, Nat.toList_repr,
      show (-n).toNat = n.natAbs by omega]
    rfl

theorem bytes_array (level : Nat) (v : Json) (l : List Json) :
    Text.bytes (Json.prettyAt level (.array (v :: l))) =
      0x5B :: (Text.bytes (Json.newline (level + 1)) ++ (Text.bytes (Json.prettyAt (level + 1) v) ++
        (Text.bytes (Json.prettyItems (level + 1) l) ++
          (Text.bytes (Json.newline level) ++ [0x5D])))) := by
  have hopen : Text.bytes "[" = [0x5B] := rfl
  have hclose : Text.bytes "]" = [0x5D] := rfl
  rw [Json.prettyAt]
  simp only [bytes_append, hopen, hclose, List.append_assoc, List.cons_append, List.nil_append]

theorem bytes_object (level : Nat) (name : String) (v : Json) (l : List (String × Json)) :
    Text.bytes (Json.prettyAt level (.object ((name, v) :: l))) =
      0x7B :: (Text.bytes (Json.newline (level + 1)) ++ (Text.bytes (Json.quote name) ++
        (0x3A :: 0x20 :: (Text.bytes (Json.prettyAt (level + 1) v) ++
          (Text.bytes (Json.prettyMembers (level + 1) l) ++
            (Text.bytes (Json.newline level) ++ [0x7D])))))) := by
  have hopen : Text.bytes "\x7b" = [0x7B] := rfl
  have hclose : Text.bytes "\x7d" = [0x7D] := rfl
  have hcolon : Text.bytes ": " = [0x3A, 0x20] := rfl
  rw [Json.prettyAt]
  simp only [bytes_append, hopen, hclose, hcolon, List.append_assoc, List.cons_append,
    List.nil_append]

theorem bytes_items (level : Nat) (v : Json) (l : List Json) :
    Text.bytes (Json.prettyItems level (v :: l)) =
      0x2C :: (Text.bytes (Json.newline level) ++ (Text.bytes (Json.prettyAt level v) ++
        Text.bytes (Json.prettyItems level l))) := by
  have hcomma : Text.bytes "," = [0x2C] := rfl
  rw [Json.prettyItems]
  simp only [bytes_append, hcomma, List.append_assoc, List.cons_append, List.nil_append]

theorem bytes_members (level : Nat) (name : String) (v : Json) (l : List (String × Json)) :
    Text.bytes (Json.prettyMembers level ((name, v) :: l)) =
      0x2C :: (Text.bytes (Json.newline level) ++ (Text.bytes (Json.quote name) ++
        (0x3A :: 0x20 :: (Text.bytes (Json.prettyAt level v) ++
          Text.bytes (Json.prettyMembers level l))))) := by
  have hcomma : Text.bytes "," = [0x2C] := rfl
  have hcolon : Text.bytes ": " = [0x3A, 0x20] := rfl
  rw [Json.prettyMembers]
  simp only [bytes_append, hcomma, hcolon, List.append_assoc, List.cons_append, List.nil_append]

theorem starts_of_isDigit {b : UInt8} (h : isDigit b = true) : Starts b := by
  refine ⟨?_, ?_, ?_, ?_, ?_⟩ <;> (rintro rfl; cases h)

/-- The text of a value starts with no blank and no closing bracket. -/
theorem starts_prettyAt (level : Nat) {j : Json} (h : whole j = true) :
    ∃ b tail, Text.bytes (Json.prettyAt level j) = b :: tail ∧ Starts b := by
  cases j with
  | null => exact ⟨0x6E, _, rfl, by decide⟩
  | bool b => cases b <;> exact ⟨_, _, rfl, by decide⟩
  | int n =>
    rw [Json.prettyAt, bytes_int]
    split
    · exact ⟨0x2D, _, rfl, by decide⟩
    · cases hd : encode (Nat.toDigits 10 n.natAbs) with
      | nil =>
        rw [encode_toDigits, List.map_eq_nil_iff] at hd
        exact absurd hd Nat.toDigits_ne_nil
      | cons b tail =>
        exact ⟨b, tail, rfl, starts_of_isDigit (isDigit_of_mem_encode (by rw [hd]; simp))⟩
  | real x => cases h
  | string s =>
    have hq := bytes_quote s []
    rw [List.append_nil] at hq
    exact ⟨0x22, _, by rw [Json.prettyAt, hq], by decide⟩
  | array l =>
    cases l with
    | nil => exact ⟨0x5B, _, rfl, by decide⟩
    | cons v l => exact ⟨0x5B, _, bytes_array level v l, by decide⟩
  | object l =>
    cases l with
    | nil => exact ⟨0x7B, _, rfl, by decide⟩
    | cons m l => exact ⟨0x7B, _, bytes_object level m.1 m.2 l, by decide⟩

theorem value?_digit (fuel : Nat) {b : UInt8} (h : isDigit b = true) (rest : Bytes) :
    value? (fuel + 1) (b :: rest) =
      (numeral? false (b :: rest)).map fun e => (.number e.1, e.2) := by
  have hall : ∀ k ≤ 57, 48 ≤ k → (Char.ofNat k).toNat = k := by decide
  have hle : 48 ≤ b.toNat ∧ b.toNat ≤ 57 := by
    simp only [isDigit, Bool.and_eq_true, decide_eq_true_eq] at h
    exact ⟨UInt8.le_iff_toNat_le.1 h.1, UInt8.le_iff_toNat_le.1 h.2⟩
  have hb : ∀ c : Char, asciiChar b = c → 48 ≤ c.toNat ∧ c.toNat ≤ 57 := by
    rintro c rfl
    rw [asciiChar, hall _ hle.2 hle.1]
    exact hle
  rw [value?, skipBlanks_cons (starts_of_isDigit h)]
  simp only
  split <;> first | rfl | (next hc => exact absurd (hb _ hc) (by decide))

theorem value?_blank (fuel : Nat) (rest : Bytes) :
    value? fuel (0x20 :: rest) = value? fuel rest := by
  cases fuel with
  | zero => rfl
  | succ fuel => rw [value?, value?]; rfl

theorem items?_newline (fuel level : Nat) (rest : Bytes) :
    items? fuel (Text.bytes (Json.newline level) ++ rest) = items? fuel rest := by
  cases fuel with
  | zero => rfl
  | succ fuel => rw [items?, items?, value?_newline]

theorem members?_newline (fuel level : Nat) (rest : Bytes) :
    members? fuel (Text.bytes (Json.newline level) ++ rest) = members? fuel rest := by
  cases fuel with
  | zero => rfl
  | succ fuel => rw [members?, members?, skipBlanks_newline]

theorem stops_of_head {b : UInt8} (rest : Bytes)
    (h : isDigit b = false ∧ b ≠ 0x2E ∧ b ≠ 0x65 ∧ b ≠ 0x45) : Stops (b :: rest) := by
  intro c hc
  cases hc
  exact h

theorem stops_newline (level : Nat) (rest : Bytes) :
    Stops (Text.bytes (Json.newline level) ++ rest) := by
  rw [Json.newline, bytes_ofList]
  exact stops_of_head _ (by decide)

theorem stops_items (level up : Nat) (l : List Json) (rest : Bytes) :
    Stops (Text.bytes (Json.prettyItems level l) ++ (Text.bytes (Json.newline up) ++ rest)) := by
  cases l with
  | nil => exact stops_newline up rest
  | cons v l =>
    rw [bytes_items]
    exact stops_of_head _ (by decide)

theorem stops_members (level up : Nat) (l : List (String × Json)) (rest : Bytes) :
    Stops (Text.bytes (Json.prettyMembers level l) ++
      (Text.bytes (Json.newline up) ++ rest)) := by
  cases l with
  | nil => exact stops_newline up rest
  | cons m l =>
    rw [bytes_members]
    exact stops_of_head _ (by decide)

/-! Steps of the reader in a text of several lines. -/

section Steps

variable {fuel level : Nat} {b : UInt8} {x y tail rest : Bytes} {v : Raw}

theorem value?_items (hb : Starts b) :
    value? (fuel + 1) (0x5B :: (Text.bytes (Json.newline level) ++ b :: tail)) =
      (items? fuel (b :: tail)).map fun e => (.array e.1, e.2) := by
  have hopen : asciiChar 0x5B = '[' := by decide
  rw [value?, skipBlanks_cons (by decide)]
  simp only [hopen]
  rw [skipBlanks_newline, skipBlanks_cons hb]
  split
  · next h =>
    cases h
    exact absurd rfl hb.2.2.2.2
  · rfl

theorem value?_members :
    value? (fuel + 1) (0x7B :: (Text.bytes (Json.newline level) ++ 0x22 :: tail)) =
      (members? fuel (0x22 :: tail)).map fun e => (.object e.1, e.2) := by
  have hopen : asciiChar 0x7B = '\x7b' := by decide
  rw [value?, skipBlanks_cons (by decide)]
  simp only [hopen]
  rw [skipBlanks_newline, skipBlanks_cons (by decide)]
  rfl

theorem items?_last
    (h : value? fuel x = some (v, Text.bytes (Json.newline level) ++ 0x5D :: rest)) :
    items? (fuel + 1) x = some ([v], rest) := by
  rw [items?, h]
  simp only
  rw [skipBlanks_newline]
  rfl

theorem items?_more
    (h : value? fuel x = some (v, 0x2C :: (Text.bytes (Json.newline level) ++ y))) :
    items? (fuel + 1) x = (items? fuel y).map fun e => (v :: e.1, e.2) := by
  rw [items?, h]
  simp only
  rw [skipBlanks_cons (by decide)]
  show (items? fuel _).map _ = _
  rw [items?_newline]

theorem members?_quoted (name : String) :
    members? (fuel + 1) (Text.bytes (Json.quote name) ++ (0x3A :: 0x20 :: x)) =
      match value? fuel x with
      | none => none
      | some (v, rest) =>
        match skipBlanks rest with
        | 0x7D :: rest => some ([(name.toList.flatMap pieces, v)], rest)
        | 0x2C :: rest =>
          (members? fuel rest).map fun (l, rest) => ((name.toList.flatMap pieces, v) :: l, rest)
        | _ => none := by
  rw [bytes_quote, members?, skipBlanks_cons (by decide)]
  simp only
  rw [stringBody_quoted]
  simp only
  rw [skipBlanks_cons (by decide)]
  simp only
  rw [value?_blank]
  rfl

theorem members?_last (name : String)
    (h : value? fuel x = some (v, Text.bytes (Json.newline level) ++ 0x7D :: rest)) :
    members? (fuel + 1) (Text.bytes (Json.quote name) ++ (0x3A :: 0x20 :: x)) =
      some ([(name.toList.flatMap pieces, v)], rest) := by
  rw [members?_quoted, h]
  simp only
  rw [skipBlanks_newline]
  rfl

theorem members?_more (name : String)
    (h : value? fuel x = some (v, 0x2C :: (Text.bytes (Json.newline level) ++ y))) :
    members? (fuel + 1) (Text.bytes (Json.quote name) ++ (0x3A :: 0x20 :: x)) =
      (members? fuel y).map fun e => ((name.toList.flatMap pieces, v) :: e.1, e.2) := by
  rw [members?_quoted, h]
  simp only
  rw [skipBlanks_cons (by decide)]
  show (members? fuel _).map _ = _
  rw [members?_newline]

end Steps

/-- The text of items without the brackets. -/
def itemsBytes (level : Nat) : List Json → Bytes
  | [] => []
  | v :: l => Text.bytes (Json.prettyAt level v) ++ Text.bytes (Json.prettyItems level l)

/-- The text of members without the braces. -/
def membersBytes (level : Nat) : List (String × Json) → Bytes
  | [] => []
  | (name, v) :: l =>
    Text.bytes (Json.quote name) ++ (0x3A :: 0x20 :: (Text.bytes (Json.prettyAt level v) ++
      Text.bytes (Json.prettyMembers level l)))

mutual

/-- The text of a value is read as its grammatical form. -/
theorem value?_prettyAt : ∀ (j : Json) (level fuel : Nat) (rest : Bytes), whole j = true →
    Stops rest → (Text.bytes (Json.prettyAt level j)).length ≤ fuel →
      value? fuel (Text.bytes (Json.prettyAt level j) ++ rest) = some (ofJson j, rest)
  | j, level, 0, rest, hw, _, hf => by
    obtain ⟨b, tail, he, -⟩ := starts_prettyAt level hw
    rw [he] at hf
    simp at hf
  | .null, _, _ + 1, _, _, _, _ => rfl
  | .bool true, _, _ + 1, _, _, _, _ => rfl
  | .bool false, _, _ + 1, _, _, _, _ => rfl
  | .int n, _, fuel + 1, rest, _, hs, _ => by
    rw [Json.prettyAt, bytes_int, ofJson]
    split
    · next hn =>
      rw [List.cons_append, value?, skipBlanks_cons (by decide)]
      show (numeral? true _).map _ = _
      rw [numeral?_decimal true _ hs, decide_eq_true hn]
      rfl
    · next hn =>
      have hnum := numeral?_decimal false n.natAbs hs
      cases hd : encode (Nat.toDigits 10 n.natAbs) with
      | nil =>
        rw [encode_toDigits, List.map_eq_nil_iff] at hd
        exact absurd hd Nat.toDigits_ne_nil
      | cons b tail =>
        rw [hd] at hnum
        have hb : isDigit b = true := isDigit_of_mem_encode (n := n.natAbs) (by rw [hd]; simp)
        rw [List.cons_append, value?_digit fuel hb, ← List.cons_append, hnum,
          decide_eq_false hn]
        rfl
  | .string s, _, fuel + 1, rest, _, _, _ => by
    rw [Json.prettyAt, bytes_quote, value?, skipBlanks_cons (by decide), ofJson]
    show (stringBody [] _).map _ = _
    rw [stringBody_quoted]
    rfl
  | .array [], _, _ + 1, _, _, _, _ => rfl
  | .array (v :: l), level, fuel + 1, rest, hw, _, hf => by
    have hv : whole v = true := by
      rw [whole, wholeItems, Bool.and_eq_true] at hw
      exact hw.1
    obtain ⟨b, tail, he, hb⟩ := starts_prettyAt (level + 1) hv
    have hitems := items?_pretty (v :: l) (level + 1) level fuel rest (by simp) hw (by
      rw [bytes_array] at hf
      simp only [itemsBytes, List.length_append, List.length_cons, List.length_nil] at hf ⊢
      omega)
    simp only [itemsBytes, he, List.append_assoc, List.cons_append] at hitems
    rw [bytes_array, he]
    simp only [List.append_assoc, List.cons_append, List.nil_append]
    rw [value?_items hb, hitems]
    rfl
  | .object [], _, _ + 1, _, _, _, _ => rfl
  | .object ((name, v) :: l), level, fuel + 1, rest, hw, _, hf => by
    have hmembers := members?_pretty ((name, v) :: l) (level + 1) level fuel rest (by simp) hw (by
      rw [bytes_object] at hf
      simp only [membersBytes, List.length_append, List.length_cons, List.length_nil] at hf ⊢
      omega)
    have hquote := bytes_quote name
    simp only [membersBytes, List.append_assoc, List.cons_append, hquote] at hmembers
    rw [bytes_object]
    simp only [List.append_assoc, List.cons_append, List.nil_append, hquote]
    rw [value?_members, hmembers]
    rfl

/-- The text of items up to the closing bracket is read as their grammatical forms. -/
theorem items?_pretty : ∀ (l : List Json) (level up fuel : Nat) (rest : Bytes), l ≠ [] →
    wholeItems l = true → (itemsBytes level l).length + 1 ≤ fuel →
      items? fuel (itemsBytes level l ++ (Text.bytes (Json.newline up) ++ 0x5D :: rest)) =
        some (ofItems l, rest)
  | [], _, _, _, _, hne, _, _ => absurd rfl hne
  | v :: l, level, up, fuel + 1, rest, _, hw, hf => by
    rw [wholeItems, Bool.and_eq_true] at hw
    simp only [itemsBytes, List.length_append] at hf
    have hv := value?_prettyAt v level fuel
      (Text.bytes (Json.prettyItems level l) ++ (Text.bytes (Json.newline up) ++ 0x5D :: rest))
      hw.1 (stops_items level up l _) (by omega)
    rw [itemsBytes, List.append_assoc, ofItems]
    cases l with
    | nil => exact items?_last hv
    | cons w l =>
      rw [bytes_items] at hv hf ⊢
      have hrest := items?_pretty (w :: l) level up fuel rest (by simp) hw.2 (by
        simp only [itemsBytes, List.length_append, List.length_cons] at hf ⊢
        omega)
      simp only [List.append_assoc, List.cons_append] at hv ⊢
      rw [items?_more hv, ← List.append_assoc (Text.bytes (Json.prettyAt level w))]
      rw [itemsBytes] at hrest
      rw [hrest]
      rfl

/-- The text of members up to the closing brace is read as their grammatical forms. -/
theorem members?_pretty : ∀ (l : List (String × Json)) (level up fuel : Nat) (rest : Bytes),
    l ≠ [] → wholeMembers l = true → (membersBytes level l).length + 1 ≤ fuel →
      members? fuel (membersBytes level l ++ (Text.bytes (Json.newline up) ++ 0x7D :: rest)) =
        some (ofMembers l, rest)
  | [], _, _, _, _, hne, _, _ => absurd rfl hne
  | (name, v) :: l, level, up, fuel + 1, rest, _, hw, hf => by
    rw [wholeMembers, Bool.and_eq_true] at hw
    simp only [membersBytes, List.length_append, List.length_cons] at hf
    have hv := value?_prettyAt v level fuel
      (Text.bytes (Json.prettyMembers level l) ++ (Text.bytes (Json.newline up) ++ 0x7D :: rest))
      hw.1 (stops_members level up l _) (by omega)
    rw [membersBytes, ofMembers]
    simp only [List.append_assoc, List.cons_append]
    cases l with
    | nil => exact members?_last name hv
    | cons m l =>
      obtain ⟨name', w⟩ := m
      rw [bytes_members] at hv hf ⊢
      have hrest := members?_pretty ((name', w) :: l) level up fuel rest (by simp) hw.2 (by
        simp only [membersBytes, List.length_append, List.length_cons] at hf ⊢
        omega)
      simp only [membersBytes, List.append_assoc, List.cons_append] at hv hrest ⊢
      rw [members?_more name hv, hrest]
      rfl

end

/-- A value without fractional numbers is read back as its grammatical form. -/
theorem parse?_pretty {j : Json} (h : whole j = true) :
    parse? (Text.bytes j.pretty) = some (ofJson j) := by
  have hv := value?_prettyAt j 0 (2 * (Text.bytes j.pretty).length + 2) [] h (by simp [Stops])
    (by unfold Json.pretty; omega)
  rw [List.append_nil] at hv
  unfold parse?
  rw [show Text.bytes j.pretty = Text.bytes (Json.prettyAt 0 j) from rfl] at hv ⊢
  rw [hv]
  rfl

end Raw

end SignalAtlas
