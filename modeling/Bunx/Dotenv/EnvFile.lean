/-
Module: Bunx.Dotenv.EnvFile
Purpose: Files of blank lines, comments and entries, as they are written and as they are meant.
Trusted boundary: none
Main exports: Key, Unquoted, Quoted, Value, Line, EnvFile, EnvFile.text, EnvFile.entries
-/
import Bunx.Dotenv.EnvLoader
import Bunx.Lib.Utf8

namespace Bunx.Dotenv

open Lib Utf8

/-- No character is one of the bytes. -/
def Avoids (chars : List Char) (bytes : List UInt8) : Prop :=
  ∀ c ∈ chars, ∀ b ∈ bytes, c.toNat ≠ b.toNat

/-- The white space of ASCII and U+00A0. -/
def isSpaceChar (c : Char) : Bool := [0x09, 0x0A, 0x0B, 0x0C, 0x0D, 0x20, 0xA0].contains c.toNat

structure Key where
  bytes : Text
  nonempty : bytes ≠ []
  isKey : ∀ c ∈ bytes, isKeyByte c = true

/-- What is behind the `#` of a comment. -/
structure Comment where
  chars : List Char
  oneLine : Avoids chars [newline, carriageReturn]

structure Unquoted where
  chars : List Char
  plain : Avoids chars
    [doubleQuote, singleQuote, backtick, hash, newline, carriageReturn, dollar]
  noSpaceInFront : ∀ c, chars.head? = some c → isSpaceChar c = false
  noSpaceBehind : ∀ c, chars.getLast? = some c → isSpaceChar c = false

inductive Quote
  | double
  | single
  | backtick
deriving DecidableEq

def Quote.byte : Quote → UInt8
  | .double => doubleQuote
  | .single => singleQuote
  | .backtick => Dotenv.backtick

/-- Text between quotes of a kind. It may have line feeds in it. -/
structure Quoted (quote : Quote) where
  chars : List Char
  plain : Avoids chars [quote.byte, backslash, carriageReturn, dollar]

inductive Value
  | unquoted (text : Unquoted)
  | quoted (quote : Quote) (text : Quoted quote)

/-- Spaces, and not the end of a line. -/
structure Blank where
  bytes : Text
  isBlank : ∀ c ∈ bytes, c ∈ ([0x09, 0x0B, 0x0C, 0x20] : List UInt8)

inductive Line
  | blank (spaces : Blank)
  | comment (text : Comment)
  | entry (exported : Bool) (key : Key) (value : Value) (note : Option Comment)

inductive LineEnd
  | newline
  | carriageReturn
  | both

/-- The last line has no end. -/
structure EnvFile where
  lines : List (Line × LineEnd)
  last : Line

/-! ### As it is written -/

def Comment.text (comment : Comment) : Text := hash :: encode comment.chars

def Value.text : Value → Text
  | .unquoted text => encode text.chars
  | .quoted quote text => quote.byte :: (encode text.chars ++ [quote.byte])

def space : UInt8 := 0x20

/-- The comment of an entry. -/
def noteText : Option Comment → Text
  | none => []
  | some note => space :: note.text

def exportText (exported : Bool) : Text := if exported then exportWord ++ [space] else []

def Line.text : Line → Text
  | .blank spaces => spaces.bytes
  | .comment text => text.text
  | .entry exported key value note =>
      exportText exported ++ (key.bytes ++ equals :: (value.text ++ noteText note))

def LineEnd.text : LineEnd → Text
  | .newline => [Dotenv.newline]
  | .carriageReturn => [Dotenv.carriageReturn]
  | .both => [Dotenv.carriageReturn, Dotenv.newline]

def textOf : List (Line × LineEnd) → Line → Text
  | [], last => last.text
  | (line, lineEnd) :: rest, last => line.text ++ (lineEnd.text ++ textOf rest last)

def EnvFile.text (file : EnvFile) : Text := textOf file.lines file.last

/-! ### As it is meant -/

/-- VALUE. -/
def Value.meaning : Value → Text
  | .unquoted text => encode text.chars
  | .quoted _ text => encode text.chars

def Line.entries : Line → List (Text × Value)
  | .entry _ key value _ => [(key.bytes, value)]
  | _ => []

def EnvFile.entries (file : EnvFile) : List (Text × Value) :=
  file.lines.flatMap (·.1.entries) ++ file.last.entries

/-! ### Bytes of texts -/

/-- The bytes of a text that avoids ASCII bytes avoid them, too. -/
theorem encode_avoids {chars : List Char} {bytes : List UInt8}
    (ascii : bytes.all (fun b => decide (b.toNat < 0x80)) = true) (avoids : Avoids chars bytes) :
    ∀ b ∈ encode chars, b ∉ bytes := by
  intro b member isOne
  obtain ⟨c, isChar, same⟩ :=
    encode_ascii member (of_decide_eq_true (List.all_eq_true.mp ascii b isOne))
  exact avoids c isChar b isOne same

theorem isWhitespace_cases {c : UInt8} (isSpace : isWhitespace c = true) :
    c = 0x09 ∨ c = 0x0B ∨ c = 0x0C ∨ c = 0x20 ∨ c = 0xA0 ∨ c = newline ∨ c = carriageReturn := by
  simpa only [isWhitespace, Bool.or_eq_true, decide_eq_true_eq, or_assoc] using isSpace

/-- White space in ASCII is that of characters. -/
theorem isSpaceChar_of_byte {c : Char} (ascii : c.toNat ≤ 0x7F)
    (isSpace : isWhitespace (UInt8.ofNat c.toNat) = true) : isSpaceChar c = true := by
  have isByte (b : UInt8) (same : UInt8.ofNat c.toNat = b) : c.toNat = b.toNat := by
    rw [← same, byte_toNat (Nat.lt_of_le_of_lt ascii (by decide))]
  unfold isSpaceChar
  rcases isWhitespace_cases isSpace with same | same | same | same | same | same | same
  · rw [isByte _ same]
    rfl
  · rw [isByte _ same]
    rfl
  · rw [isByte _ same]
    rfl
  · rw [isByte _ same]
    rfl
  · rw [isByte _ same]
    rfl
  · rw [isByte _ same]
    rfl
  · rw [isByte _ same]
    rfl

/-- Above ASCII there is only one byte that is taken for white space. -/
theorem spaceByte_of_large {b : UInt8} (isSpace : isWhitespace b = true) (large : 0x80 ≤ b.toNat) :
    b = 0xA0 := by
  rcases isWhitespace_cases isSpace with rfl | rfl | rfl | rfl | rfl | rfl | rfl
  · exact absurd large (by decide)
  · exact absurd large (by decide)
  · exact absurd large (by decide)
  · exact absurd large (by decide)
  · rfl
  · exact absurd large (by decide)
  · exact absurd large (by decide)

/-- A text of characters that does not begin with white space does not begin with a byte of it. -/
theorem encode_head {chars : List Char} {b : UInt8}
    (noSpace : ∀ c, chars.head? = some c → isSpaceChar c = false)
    (isHead : (encode chars).head? = some b) : isWhitespace b = false := by
  cases chars with
  | nil => cases isHead
  | cons c chars =>
      have notSpace := noSpace c rfl
      rw [encode_cons] at isHead
      rcases Nat.lt_or_ge 0x7F c.toNat with notAscii | ascii
      · obtain ⟨first, rest, bytes, large, -⟩ := encodeChar_large notAscii
        rw [bytes] at isHead
        obtain rfl : first = b := Option.some.inj isHead
        by_contra isSpace
        rw [Bool.not_eq_false] at isSpace
        rw [spaceByte_of_large isSpace (Nat.le_trans (by decide) large)] at large
        exact absurd large (by decide)
      · rw [encodeChar_one ascii] at isHead
        obtain rfl : UInt8.ofNat c.toNat = b := Option.some.inj isHead
        by_contra isSpace
        rw [Bool.not_eq_false] at isSpace
        rw [isSpaceChar_of_byte ascii isSpace] at notSpace
        cases notSpace

end Bunx.Dotenv
