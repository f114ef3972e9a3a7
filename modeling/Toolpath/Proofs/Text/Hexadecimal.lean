import Toolpath.Text.Basic

/-! # Hexadecimal digits

A number of sixteen bits is written with four digits, and read back from them.
-/

namespace Toolpath.Text

theorem hexValue?_hexDigit (upper : Bool) {n : Nat} (h : n < 16) :
    hexValue? (hexDigit upper n) = some n := by
  have hall : ∀ n < 16, ∀ upper, hexValue? (hexDigit upper n) = some n := by decide
  exact hall n h upper

/-- Four digits are enough for sixteen bits. -/
theorem hexRun?_hexFour (upper : Bool) {n : Nat} (h : n < 0x10000) :
    hexRun? (hexFour upper n) = some n := by
  have hdigit (n : Nat) := hexValue?_hexDigit upper (Nat.mod_lt n (show 0 < 16 by decide))
  simp only [hexRun?, hexFour, List.foldlM_cons, List.foldlM_nil, hdigit, Option.map_some,
    Option.bind_eq_bind, Option.bind_some, Option.pure_def, Option.some.injEq]
  omega

end Toolpath.Text
