/-!
# Texts as bytes

A file holds bytes, and so does the name of a file; a text is what bytes encode in UTF-8.

* `Bytes.text?` reads bytes as a text, and `Bytes.flaw?` locates what keeps it from being one;
* `Bytes.lossy` reads any bytes, with a replacement character for each sequence that is none;
* `Text.slice` cuts a text at two byte offsets.
-/

namespace SignalAtlas

/-- The contents of a file, or its name. -/
abbrev Bytes := List UInt8

/-- The character that a byte below 128 stands for. -/
def asciiChar (b : UInt8) : Char := Char.ofNat b.toNat

namespace Text

/-- The UTF-8 encoding of a text. -/
def bytes (s : String) : Bytes := s.toUTF8.data.toList

end Text

/-- A text stands for its encoding where bytes are asked for. -/
instance coeText : Coe String Bytes := ⟨Text.bytes⟩

namespace Bytes

/-- The text that the bytes encode, if they do. -/
def text? (b : Bytes) : Option String := String.fromUTF8? ⟨b.toArray⟩

/-- Reading back an encoded text. -/
@[simp] theorem text?_bytes (s : String) : text? (Text.bytes s) = some s := by
  simp [text?, Text.bytes, String.fromUTF8?, String.toUTF8, s.isValidUTF8]
  rfl

/-! ### Flaws -/

/-- Why bytes encode no text: the number of bytes before the first bad sequence, and the number of
bad bytes, which is unknown when the bytes end inside the sequence. -/
structure Flaw where
  index : Nat
  length? : Option Nat
  deriving DecidableEq, Repr

/-- The wording of a flaw. -/
def Flaw.message : Flaw → String
  | ⟨i, some n⟩ => s!"invalid utf-8 sequence of {n} bytes from index {i}"
  | ⟨i, none⟩ => s!"incomplete utf-8 byte sequence from index {i}"

/-- The ranges of the bytes after a leading byte, or `none` if the byte leads no sequence. -/
def continuations (b : UInt8) : Option (List (UInt8 × UInt8)) :=
  let any := (0x80, 0xBF)
  if b < 0x80 then some []
  else if b < 0xC2 then none
  else if b < 0xE0 then some [any]
  else if b = 0xE0 then some [(0xA0, 0xBF), any]
  else if b = 0xED then some [(0x80, 0x9F), any]
  else if b < 0xF0 then some [any, any]
  else if b = 0xF0 then some [(0x90, 0xBF), any, any]
  else if b < 0xF4 then some [any, any, any]
  else if b = 0xF4 then some [(0x80, 0x8F), any, any]
  else none

/-- The number of bytes that fit into ranges, up to the first that does not. -/
def fitting : List (UInt8 × UInt8) → Bytes → Nat
  | (lo, hi) :: ranges, b :: rest => if lo ≤ b ∧ b ≤ hi then fitting ranges rest + 1 else 0
  | _, _ => 0

/-- The first flaw of bytes that start at an index; `skip` bytes belong to a checked sequence. -/
def flawFrom : (index skip : Nat) → Bytes → Option Flaw
  | _, _, [] => none
  | i, s + 1, _ :: rest => flawFrom (i + 1) s rest
  | i, 0, b :: rest =>
    match continuations b with
    | none => some ⟨i, some 1⟩
    | some ranges =>
      let fit := fitting ranges rest
      if fit = ranges.length then flawFrom (i + 1) fit rest
      else some ⟨i, if fit = rest.length then none else some (fit + 1)⟩

/-- The first flaw of bytes. -/
def flaw? (b : Bytes) : Option Flaw := flawFrom 0 0 b

/-! ### Lossy texts -/

/-- What stands in a text for bytes that encode none. -/
def replacement : Char := '\ufffd'

/-- The character that is encoded in front of bytes. -/
def char? (b : Bytes) : Option Char := b.toByteArray.utf8DecodeChar? 0

/-- The characters of bytes. A leading byte that starts no character is replaced together with those
after it that fit; `skip` bytes belong to a character that was read. -/
def charsFrom : (skip : Nat) → Bytes → List Char
  | _, [] => []
  | s + 1, _ :: rest => charsFrom s rest
  | 0, b :: rest =>
    match char? (b :: rest) with
    | some c => c :: charsFrom (c.utf8Size - 1) rest
    | none => replacement :: charsFrom (fitting ((continuations b).getD []) rest) rest

/-- Bytes read as a text, with a replacement for each sequence that encodes none. -/
def lossy (b : Bytes) : String := .ofList (charsFrom 0 b)

end Bytes

namespace Text

/-! ### Slices -/

/-- The characters after a number of bytes, if a character starts there. -/
def dropBytes : Nat → List Char → Option (List Char)
  | 0, cs => some cs
  | _ + 1, [] => none
  | n + 1, c :: cs => if c.utf8Size ≤ n + 1 then dropBytes (n + 1 - c.utf8Size) cs else none

/-- The characters of a number of bytes in front, if a character ends there. -/
def takeBytes : Nat → List Char → Option (List Char)
  | 0, _ => some []
  | _ + 1, [] => none
  | n + 1, c :: cs =>
    if c.utf8Size ≤ n + 1 then (takeBytes (n + 1 - c.utf8Size) cs).map (c :: ·) else none

/-- The part of a text between two byte offsets; empty unless both are character boundaries of
the text in this order. -/
def slice (s : String) (start stop : Nat) : String :=
  if start ≤ stop then
    match (dropBytes start s.toList).bind (takeBytes (stop - start)) with
    | some cs => .ofList cs
    | none => ""
  else ""

end Text

end SignalAtlas
