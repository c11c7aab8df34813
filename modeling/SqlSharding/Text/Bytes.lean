import SqlSharding.Numeric.Integers

/-!
# Texts and bytes

Places in a text are counted in bytes of its UTF-8 form, and a text can be cut only between two characters. Bytes are written in
hexadecimal notation. Bytes that are not UTF-8 still read as text: the longest start of a well-formed sequence that can be
read stands for one replacement character, and so does every byte that starts none.
-/

namespace SqlSharding.Text

/-! ## Byte offsets -/

/-- The number of bytes of a text. -/
def byteLength : List Char → Nat
  | [] => 0
  | c :: cs => c.utf8Size + byteLength cs

/-- The text before and after a byte offset; nothing if the offset lies inside a character or past the end. -/
def splitAt? : Nat → List Char → Option (List Char × List Char)
  | 0, cs => some ([], cs)
  | _ + 1, [] => none
  | n + 1, c :: cs =>
    if c.utf8Size ≤ n + 1 then (splitAt? (n + 1 - c.utf8Size) cs).map fun (before, after) => (c :: before, after)
    else none

/-- Whether a byte offset lies between two characters or at an end of a text. -/
def isBoundary (offset : Nat) (cs : List Char) : Bool := (splitAt? offset cs).isSome

/-- The text between two byte offsets. -/
def slice? (start finish : Nat) (cs : List Char) : Option (List Char) := do
  let (_, after) ← splitAt? start cs
  let (inside, _) ← splitAt? (finish - start) after
  if start ≤ finish then some inside else none

/-! ## Hexadecimal notation -/

/-- The bytes of which each has two digits. -/
def readHexBytes : List Char → List UInt8
  | a :: b :: rest => UInt8.ofNat (hexNumber [a, b]) :: readHexBytes rest
  | _ => []

/-- The two digits of each byte. -/
def hexOfBytes (bytes : List UInt8) : List Char := bytes.flatMap fun b => hexDigits 2 b.toNat

/-! ## Text from arbitrary bytes -/

/-- The character that stands for bytes that cannot be read. -/
def replacement : Char := '\uFFFD'

/-- What a lead byte announces: how many bytes follow, the bounds of the first of them, and the bits of the code
point that the lead byte carries. -/
structure Lead where
  following : Nat
  low : Nat
  high : Nat
  bits : Nat

/-- The lead bytes of sequences of two, three and four bytes. The bounds leave out overlong forms, surrogates and
what lies above the last code point. -/
def lead? (b : Nat) : Option Lead :=
  if 0xC2 ≤ b && b ≤ 0xDF then some ⟨1, 0x80, 0xBF, b - 0xC0⟩
  else if b = 0xE0 then some ⟨2, 0xA0, 0xBF, 0⟩
  else if b = 0xED then some ⟨2, 0x80, 0x9F, b - 0xE0⟩
  else if 0xE1 ≤ b && b ≤ 0xEF then some ⟨2, 0x80, 0xBF, b - 0xE0⟩
  else if b = 0xF0 then some ⟨3, 0x90, 0xBF, 0⟩
  else if 0xF1 ≤ b && b ≤ 0xF3 then some ⟨3, 0x80, 0xBF, b - 0xF0⟩
  else if b = 0xF4 then some ⟨3, 0x80, 0x8F, b - 0xF0⟩
  else none

/-- Reads the bytes that follow a lead byte, up to the first one that does not fit. -/
def following (bytes : List UInt8) (expected low high bits : Nat) : Option Nat × List UInt8 :=
  match expected, bytes with
  | 0, rest => (some bits, rest)
  | _ + 1, [] => (none, [])
  | n + 1, b :: rest =>
    if low ≤ b.toNat && b.toNat ≤ high then following rest n 0x80 0xBF (bits * 64 + b.toNat % 64)
    else (none, b :: rest)

theorem following_length_le (bytes : List UInt8) (expected low high bits : Nat) :
    (following bytes expected low high bits).2.length ≤ bytes.length := by
  fun_induction following bytes expected low high bits with
  | case1 | case2 | case4 => exact Nat.le_refl _
  | case3 low high bits n b rest inRange shorter => exact Nat.le_succ_of_le shorter

/-- The characters that the bytes stand for. -/
def decodeLossy : List UInt8 → List Char
  | [] => []
  | b :: rest =>
    if b.toNat < 0x80 then Char.ofNat b.toNat :: decodeLossy rest
    else
      match lead? b.toNat with
      | none => replacement :: decodeLossy rest
      | some lead =>
        let read := following rest lead.following lead.low lead.high lead.bits
        (read.1.map Char.ofNat).getD replacement :: decodeLossy read.2
termination_by bytes => bytes.length
decreasing_by
  all_goals simp only [List.length_cons]
  · omega
  · omega
  · have := following_length_le rest lead.following lead.low lead.high lead.bits
    omega

end SqlSharding.Text
