/-!
# Reading UTF-8

Bytes from outside — values of environment variables, contents of files — become text here.

* **`scan`** — cuts bytes into the longest parts that begin a well-formed sequence: each part is a
  character, or is **broken** (`none`) and ends where the next byte could not go on;
* **`decode?`** — the text, if no part is broken;
* **`decodeLossy`** — the text with one replacement character U+FFFD for each broken part.
-/

namespace Interpolate

namespace Text

/-! ## One sequence -/

/-- What a leading byte announces. -/
structure Lead where
  /-- number of bytes that have to follow -/
  more : Nat
  /-- the leading byte's own part of the code point -/
  bits : Nat
  /-- least value of the first byte that follows -/
  low : Nat
  /-- greatest value of the first byte that follows -/
  high : Nat

/-- The announcement of a leading byte, if it can lead. The bounds on the byte after it rule out
overlong forms, surrogates and code points above U+10FFFF. -/
def lead? (byte : Nat) : Option Lead :=
  if byte < 0x80 then some ⟨0, byte, 0x80, 0xBF⟩
  else if byte < 0xC2 then none
  else if byte < 0xE0 then some ⟨1, byte - 0xC0, 0x80, 0xBF⟩
  else if byte = 0xE0 then some ⟨2, 0, 0xA0, 0xBF⟩
  else if byte = 0xED then some ⟨2, 0xD, 0x80, 0x9F⟩
  else if byte < 0xF0 then some ⟨2, byte - 0xE0, 0x80, 0xBF⟩
  else if byte = 0xF0 then some ⟨3, 0, 0x90, 0xBF⟩
  else if byte < 0xF4 then some ⟨3, byte - 0xF0, 0x80, 0xBF⟩
  else if byte = 0xF4 then some ⟨3, 4, 0x80, 0x8F⟩
  else none

/-- Takes `more` further bytes of a sequence, the first between `low` and `high` and the others
between `0x80` and `0xBF`. Answers the code point, or `none` at the first byte that does not fit,
which is left in the rest. -/
def follow : (more bits low high : Nat) → List UInt8 → Option Nat × List UInt8
  | 0, bits, _, _, bytes => (some bits, bytes)
  | _ + 1, _, _, _, [] => (none, [])
  | more + 1, bits, low, high, byte :: bytes =>
    if low ≤ byte.toNat ∧ byte.toNat ≤ high then
      follow more (bits * 64 + (byte.toNat - 0x80)) 0x80 0xBF bytes
    else
      (none, byte :: bytes)

/-- The rest after a sequence is no longer than what was there. -/
theorem length_follow_le (more bits low high : Nat) (bytes : List UInt8) :
    (follow more bits low high bytes).2.length ≤ bytes.length := by
  induction more generalizing bits low high bytes with
  | zero => simp [follow]
  | succ more ih =>
    cases bytes with
    | nil => simp [follow]
    | cons byte bytes =>
      simp only [follow]
      split
      · exact Nat.le_succ_of_le (ih ..)
      · exact Nat.le_refl _

/-! ## All sequences -/

/-- The parts of a byte string: characters, and `none` for each broken part. -/
def scan : List UInt8 → List (Option Char)
  | [] => []
  | byte :: bytes =>
    match lead? byte.toNat with
    | none => none :: scan bytes
    | some lead =>
      let part := follow lead.more lead.bits lead.low lead.high bytes
      part.1.map Char.ofNat :: scan part.2
termination_by bytes => bytes.length
decreasing_by
  · simp
  · exact Nat.lt_succ_of_le (length_follow_le ..)

/-- The text that well-formed bytes spell. -/
def decode? (bytes : List UInt8) : Option String :=
  ((scan bytes).mapM id).map String.ofList

/-- The text of any bytes, with U+FFFD for each broken part. -/
def decodeLossy (bytes : List UInt8) : String :=
  String.ofList ((scan bytes).map fun part => part.getD '\uFFFD')

end Text

end Interpolate
