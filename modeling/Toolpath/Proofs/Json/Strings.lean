import Toolpath.Json.Printer
import Toolpath.Json.Reader
import Toolpath.Proofs.Text.Hexadecimal

/-! # JSON strings

Whatever text is put between quotes comes back when the string is read, and the
reader stops right behind the closing quote.
-/

namespace Toolpath.Json

open Text

/-- The pieces of a string that goes on behind one of its characters. -/
def follow (c : Char) (tail : Option (List Piece × List Char)) :
    Option (List Piece × List Char) :=
  tail.bind fun (pieces, rest) => some (.whole c :: pieces, rest)

theorem stringPieces_letter {letter c : Char} (h : escaped? letter = some c) (rest : List Char) :
    stringPieces ('\\' :: letter :: rest) = follow c (stringPieces rest) := by
  rw [stringPieces, h]
  · rfl
  · rintro _ _ _ _ _ rfl
    cases h

theorem stringPieces_unit {a b c d : Char} {code : Nat} (h : hexRun? [a, b, c, d] = some code)
    (hcode : code < 0xD800) (rest : List Char) :
    stringPieces ('\\' :: 'u' :: a :: b :: c :: d :: rest) =
      follow (Char.ofNat code) (stringPieces rest) := by
  have hwhole : Piece.ofUnit code = .whole (Char.ofNat code) := if_neg (by omega)
  rw [stringPieces, h, Option.bind_eq_bind, Option.bind_some, hwhole]
  rfl

theorem stringPieces_plain {c : Char} (hquote : c ≠ '"') (hslash : c ≠ '\\')
    (hcontrol : ¬c.toNat < 0x20) (rest : List Char) :
    stringPieces (c :: rest) = follow c (stringPieces rest) := by
  rw [stringPieces, if_neg hcontrol]
  · rfl
  · exact hquote
  · rintro _ _ _ _ _ rfl
    exact absurd rfl hslash
  · rintro _ _ rfl
    exact absurd rfl hslash

/-- What stands for a character is read as the character. -/
theorem stringPieces_escape (c : Char) (rest : List Char) :
    stringPieces (escape c ++ rest) = follow c (stringPieces rest) := by
  unfold escape
  split
  · subst_vars
    exact stringPieces_letter rfl rest
  next hquote =>
  split
  · subst_vars
    exact stringPieces_letter rfl rest
  next hslash =>
  iterate 5
    split
    · subst_vars
      exact stringPieces_letter rfl rest
  split
  next hcontrol =>
    have hcode := hexRun?_hexFour false (show c.toNat < 0x10000 by omega)
    have hback := stringPieces_unit hcode (by omega) rest
    rwa [Char.ofNat_toNat] at hback
  next hcontrol => exact stringPieces_plain hquote hslash hcontrol rest

theorem stringPieces_quoted (cs rest : List Char) :
    stringPieces (cs.flatMap escape ++ '"' :: rest) = some (cs.map .whole, rest) := by
  induction cs with
  | nil => rfl
  | cons c cs ih =>
      rw [List.flatMap_cons, List.append_assoc, stringPieces_escape, ih]
      rfl

theorem joinPieces_whole (cs : List Char) : joinPieces (cs.map .whole) = some cs := by
  induction cs with
  | nil => rfl
  | cons c cs ih => rw [List.map_cons, joinPieces, ih, Option.map_some]

/-- A quoted text is read, behind its opening quote, as the text. -/
theorem stringBody_quoted (s : String) (rest : List Char) :
    stringBody (s.toList.flatMap escape ++ '"' :: rest) = some (some s, rest) := by
  rw [stringBody, stringPieces_quoted]
  simp only [Option.map_some, joinPieces_whole, String.ofList_toList]

end Toolpath.Json
