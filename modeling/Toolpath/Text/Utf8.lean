/-! # Bytes as text

UTF-8 is decoded one character at a time. Where the bytes are not UTF-8, the
longest prefix that some character could still begin with is set aside as one
unreadable piece, and decoding goes on after it; a lead byte that begins no
character at all is a piece of its own. A lossy reading writes U+FFFD for each
unreadable piece, a strict reading refuses the bytes that have one.
-/

namespace Toolpath.Utf8

/-- What a lead byte promises: how many bytes follow, the bits it holds itself, and the range
of the first byte to follow. The narrowed ranges exclude overlong forms, surrogates, and
everything above U+10FFFF. -/
structure Lead where
  count : Nat
  bits : Nat
  low : Nat
  high : Nat

/-- The promise of a lead byte, if it begins a character. -/
def lead? (b : UInt8) : Option Lead :=
  let n := b.toNat
  if n < 0x80 then some ⟨0, n, 0x80, 0xBF⟩
  else if 0xC2 ≤ n ∧ n ≤ 0xDF then some ⟨1, n % 0x20, 0x80, 0xBF⟩
  else if n = 0xE0 then some ⟨2, 0, 0xA0, 0xBF⟩
  else if n = 0xED then some ⟨2, 0xD, 0x80, 0x9F⟩
  else if 0xE1 ≤ n ∧ n ≤ 0xEF then some ⟨2, n % 0x10, 0x80, 0xBF⟩
  else if n = 0xF0 then some ⟨3, 0, 0x90, 0xBF⟩
  else if 0xF1 ≤ n ∧ n ≤ 0xF3 then some ⟨3, n % 0x8, 0x80, 0xBF⟩
  else if n = 0xF4 then some ⟨3, 4, 0x80, 0x8F⟩
  else none

/-- Read `count` more bytes of a character. The first must lie in the given range and the
others are ordinary continuation bytes; a byte out of range is left for the next character. -/
def follow : (count bits low high : Nat) → List UInt8 → Option Nat × List UInt8
  | 0, bits, _, _, bs => (some bits, bs)
  | _ + 1, _, _, _, [] => (none, [])
  | count + 1, bits, low, high, b :: bs =>
      if low ≤ b.toNat ∧ b.toNat ≤ high then
        follow count (bits * 0x40 + b.toNat % 0x40) 0x80 0xBF bs
      else (none, b :: bs)

/-- The first character, or `none` for an unreadable piece, with the bytes behind it. -/
def next (b : UInt8) (bs : List UInt8) : Option Char × List UInt8 :=
  match lead? b with
  | none => (none, bs)
  | some lead =>
      let (code, rest) := follow lead.count lead.bits lead.low lead.high bs
      (code.map Char.ofNat, rest)

theorem follow_length_le (count bits low high : Nat) (bs : List UInt8) :
    (follow count bits low high bs).2.length ≤ bs.length := by
  induction count generalizing bits low high bs with
  | zero => simp [follow]
  | succ count ih =>
      cases bs with
      | nil => simp [follow]
      | cons b bs =>
          simp only [follow]
          split
          · exact Nat.le_succ_of_le (ih ..)
          · simp

/-- Whatever the first byte is, decoding moves forward. -/
theorem next_length_le (b : UInt8) (bs : List UInt8) : (next b bs).2.length ≤ bs.length := by
  unfold next
  split
  · simp
  · exact follow_length_le ..

/-- The characters of the bytes in order, `none` standing for each unreadable piece. -/
def decode : List UInt8 → List (Option Char)
  | [] => []
  | b :: bs =>
      let step := next b bs
      step.1 :: decode step.2
termination_by bs => bs.length
decreasing_by
  have := next_length_le b bs
  simp only [List.length_cons]
  omega

/-- The text with U+FFFD in place of each unreadable piece. -/
def decodeLossy (bs : List UInt8) : List Char :=
  (decode bs).map (·.getD '\uFFFD')

/-- The text, unless some piece of the bytes is unreadable. -/
def decode? (bs : List UInt8) : Option (List Char) :=
  (decode bs).mapM id

/-- Whether every byte belongs to a character. -/
def isValid (bs : List UInt8) : Bool :=
  (decode bs).all Option.isSome

/-- The bytes of a text. -/
def encode (cs : List Char) : List UInt8 :=
  cs.flatMap String.utf8EncodeChar

end Toolpath.Utf8
