import Toolpath.Text.Basic
import Toolpath.Text.Utf8

/-! # Bytes and the texts they encode

Decoding and encoding are inverse to each other, so that bytes are valid exactly
if they encode some text. An ASCII byte is a character of its own wherever it
stands: decoding commutes with everything that only looks at ASCII characters,
such as splitting a text at line feeds.
-/

namespace Toolpath.Utf8

/-! ## One character -/

variable {b : UInt8} {bs rest : List UInt8} {c : Char}

/-- The promises of lead bytes, by the number of bytes that follow. -/
theorem lead?_eq_some {count bits low high : Nat} (h : lead? b = some ⟨count, bits, low, high⟩) :
    (count = 0 ∧ b.toNat < 0x80 ∧ bits = b.toNat ∧ 0x80 ≤ low) ∨
      (count = 1 ∧ 0xC2 ≤ b.toNat ∧ b.toNat < 0xE0 ∧ bits = b.toNat % 0x20 ∧
        0x80 ≤ low ∧ high ≤ 0xBF) ∨
      (count = 2 ∧ 0xE0 ≤ b.toNat ∧ b.toNat < 0xF0 ∧ bits = b.toNat % 0x10 ∧
        0x80 ≤ low ∧ high ≤ 0xBF ∧
        (b.toNat = 0xE0 → 0xA0 ≤ low) ∧ (b.toNat = 0xED → high ≤ 0x9F)) ∨
      (count = 3 ∧ 0xF0 ≤ b.toNat ∧ b.toNat < 0xF5 ∧ bits = b.toNat % 0x8 ∧
        0x80 ≤ low ∧ high ≤ 0xBF ∧
        (b.toNat = 0xF0 → 0x90 ≤ low) ∧ (b.toNat = 0xF4 → high ≤ 0x8F)) := by
  unfold lead? at h
  dsimp only at h
  repeat' split at h
  all_goals cases h
  all_goals omega

/-- What a character still needs stands in front, and each byte of it is in range. -/
theorem follow_succ_eq_some {count bits low high code : Nat}
    (h : follow (count + 1) bits low high bs = (some code, rest)) :
    ∃ first behind, bs = first :: behind ∧ low ≤ first.toNat ∧ first.toNat ≤ high ∧
      follow count (bits * 0x40 + first.toNat % 0x40) 0x80 0xBF behind = (some code, rest) := by
  cases bs with
  | nil => simp [follow] at h
  | cons first behind =>
      simp only [follow] at h
      split at h
      next hrange => exact ⟨first, behind, rfl, hrange.1, hrange.2, h⟩
      next => simp at h

theorem follow_zero_eq_some {bits low high code : Nat}
    (h : follow 0 bits low high bs = (some code, rest)) : bits = code ∧ bs = rest := by
  simpa [follow] using h

/-- The bytes of the character with a given number. -/
theorem utf8EncodeChar_ofNat {n : Nat} (h : n.isValidChar) :
    String.utf8EncodeChar (Char.ofNat n) =
      if n ≤ 0x7F then [UInt8.ofNat n]
      else if n ≤ 0x7FF then [UInt8.ofNat (n / 0x40 % 0x20 + 0xC0), UInt8.ofNat (n % 0x40 + 0x80)]
      else if n ≤ 0xFFFF then
        [UInt8.ofNat (n / 0x1000 % 0x10 + 0xE0), UInt8.ofNat (n / 0x40 % 0x40 + 0x80),
          UInt8.ofNat (n % 0x40 + 0x80)]
      else
        [UInt8.ofNat (n / 0x40000 % 8 + 0xF0), UInt8.ofNat (n / 0x1000 % 0x40 + 0x80),
          UInt8.ofNat (n / 0x40 % 0x40 + 0x80), UInt8.ofNat (n % 0x40 + 0x80)] := by
  have hnumber : (Char.ofNat n).val.toNat = n := by
    rw [Char.ofNat, dif_pos h]
    rfl
  simp only [String.utf8EncodeChar, hnumber]

theorem ofNat_eq_of_eq_toNat {n : Nat} (h : n = b.toNat) : UInt8.ofNat n = b := by
  rw [h, UInt8.ofNat_toNat]

/-- A character that is read stands there in its bytes. -/
theorem next_eq_some (h : next b bs = (some c, rest)) :
    b :: bs = String.utf8EncodeChar c ++ rest := by
  unfold next at h
  split at h
  · cases h
  next lead hlead =>
    obtain ⟨count, bits, low, high⟩ := lead
    simp only [Prod.mk.injEq, Option.map_eq_some_iff] at h
    obtain ⟨⟨code, hcode, rfl⟩, hrest⟩ := h
    have hfollow : follow count bits low high bs = (some code, rest) := Prod.ext hcode hrest
    clear hcode hrest
    rcases lead?_eq_some hlead with ⟨rfl, hhigh, rfl, hrange⟩ | ⟨rfl, hlow, hhigh, rfl, hrange⟩ |
      ⟨rfl, hlow, hhigh, rfl, hrange⟩ | ⟨rfl, hlow, hhigh, rfl, hrange⟩
    · obtain ⟨rfl, rfl⟩ := follow_zero_eq_some hfollow
      rw [utf8EncodeChar_ofNat (.inl (by omega)), if_pos (by omega), UInt8.ofNat_toNat]
      rfl
    · obtain ⟨b₁, _, rfl, hlow₁, hhigh₁, hfollow⟩ := follow_succ_eq_some hfollow
      obtain ⟨hcode, rfl⟩ := follow_zero_eq_some hfollow
      rw [utf8EncodeChar_ofNat (.inl (by omega)), if_neg (by omega), if_pos (by omega),
        ofNat_eq_of_eq_toNat (b := b) (by omega), ofNat_eq_of_eq_toNat (b := b₁) (by omega)]
      rfl
    · obtain ⟨b₁, _, rfl, hlow₁, hhigh₁, hfollow⟩ := follow_succ_eq_some hfollow
      obtain ⟨b₂, _, rfl, hlow₂, hhigh₂, hfollow⟩ := follow_succ_eq_some hfollow
      obtain ⟨hcode, rfl⟩ := follow_zero_eq_some hfollow
      have hvalid : code.isValidChar := by
        unfold Nat.isValidChar
        omega
      rw [utf8EncodeChar_ofNat hvalid, if_neg (by omega), if_neg (by omega), if_pos (by omega),
        ofNat_eq_of_eq_toNat (b := b) (by omega), ofNat_eq_of_eq_toNat (b := b₁) (by omega),
        ofNat_eq_of_eq_toNat (b := b₂) (by omega)]
      rfl
    · obtain ⟨b₁, _, rfl, hlow₁, hhigh₁, hfollow⟩ := follow_succ_eq_some hfollow
      obtain ⟨b₂, _, rfl, hlow₂, hhigh₂, hfollow⟩ := follow_succ_eq_some hfollow
      obtain ⟨b₃, _, rfl, hlow₃, hhigh₃, hfollow⟩ := follow_succ_eq_some hfollow
      obtain ⟨hcode, rfl⟩ := follow_zero_eq_some hfollow
      have hvalid : code.isValidChar := by
        unfold Nat.isValidChar
        omega
      rw [utf8EncodeChar_ofNat hvalid, if_neg (by omega), if_neg (by omega), if_neg (by omega),
        ofNat_eq_of_eq_toNat (b := b) (by omega), ofNat_eq_of_eq_toNat (b := b₁) (by omega),
        ofNat_eq_of_eq_toNat (b := b₂) (by omega), ofNat_eq_of_eq_toNat (b := b₃) (by omega)]
      rfl

theorem toNat_ofNat_byte {n : Nat} (h : n < 0x100) : (UInt8.ofNat n).toNat = n :=
  UInt8.toNat_ofNat_of_lt' h

/-- A byte that begins a character of three bytes, where a byte that may follow it stands behind
it. -/
theorem lead?_of_three {n : Nat} (first : Nat) (h : 0xE0 ≤ n ∧ n < 0xF0)
    (hfirst : 0x80 ≤ first ∧ first ≤ 0xBF) (hoverlong : n = 0xE0 → 0xA0 ≤ first)
    (hsurrogate : n = 0xED → first ≤ 0x9F) :
    ∃ low high, lead? (UInt8.ofNat n) = some ⟨2, n % 0x10, low, high⟩ ∧
      low ≤ first ∧ first ≤ high := by
  rw [lead?, toNat_ofNat_byte (by omega), if_neg (by omega), if_neg (by omega)]
  split
  next hn => exact ⟨_, _, by rw [hn], hoverlong hn, hfirst.2⟩
  split
  next hn => exact ⟨_, _, by rw [hn], hfirst.1, hsurrogate hn⟩
  rw [if_pos (by omega)]
  exact ⟨_, _, rfl, hfirst⟩

/-- A byte that begins a character of four bytes, where a byte that may follow it stands behind
it. -/
theorem lead?_of_four {n : Nat} (first : Nat) (h : 0xF0 ≤ n ∧ n < 0xF5)
    (hfirst : 0x80 ≤ first ∧ first ≤ 0xBF) (hoverlong : n = 0xF0 → 0x90 ≤ first)
    (hlarge : n = 0xF4 → first ≤ 0x8F) :
    ∃ low high, lead? (UInt8.ofNat n) = some ⟨3, n % 0x8, low, high⟩ ∧
      low ≤ first ∧ first ≤ high := by
  rw [lead?, toNat_ofNat_byte (by omega), if_neg (by omega), if_neg (by omega),
    if_neg (by omega), if_neg (by omega), if_neg (by omega)]
  split
  next hn => exact ⟨_, _, by rw [hn], hoverlong hn, hfirst.2⟩
  split
  next hn => exact ⟨_, _, rfl, hfirst⟩
  obtain rfl : n = 0xF4 := by omega
  exact ⟨_, _, rfl, hfirst.1, hlarge rfl⟩

theorem follow_succ_ofNat {count bits low high n : Nat} (hn : n < 0x40)
    (h : low ≤ n + 0x80 ∧ n + 0x80 ≤ high) (bs : List UInt8) :
    follow (count + 1) bits low high (UInt8.ofNat (n + 0x80) :: bs) =
      follow count (bits * 0x40 + n) 0x80 0xBF bs := by
  rw [follow, toNat_ofNat_byte (by omega), if_pos h]
  congr 1
  omega

theorem next_of_follow {count bits low high code : Nat}
    (hlead : lead? b = some ⟨count, bits, low, high⟩)
    (hfollow : follow count bits low high bs = (some code, rest)) :
    next b bs = (some (Char.ofNat code), rest) := by
  simp only [next, hlead, hfollow, Option.map_some]

/-- A character is read from its bytes, whatever stands behind them. -/
theorem next_utf8EncodeChar (c : Char) (rest : List UInt8) :
    ∃ b bs, String.utf8EncodeChar c ++ rest = b :: bs ∧ next b bs = (some c, rest) := by
  have hvalid : c.toNat.isValidChar := c.valid
  rw [← c.ofNat_toNat, utf8EncodeChar_ofNat hvalid]
  unfold Nat.isValidChar at hvalid
  generalize c.toNat = n at hvalid
  by_cases h₁ : n ≤ 0x7F
  · rw [if_pos h₁]
    refine ⟨UInt8.ofNat n, rest, rfl, ?_⟩
    have hlead : lead? (UInt8.ofNat n) = some ⟨0, n, 0x80, 0xBF⟩ := by
      rw [lead?, toNat_ofNat_byte (by omega), if_pos (by omega)]
    exact next_of_follow hlead (by rw [follow])
  by_cases h₂ : n ≤ 0x7FF
  · rw [if_neg h₁, if_pos h₂]
    refine ⟨_, UInt8.ofNat (n % 0x40 + 0x80) :: rest, rfl, ?_⟩
    have hlead : lead? (UInt8.ofNat (n / 0x40 % 0x20 + 0xC0)) =
        some ⟨1, (n / 0x40 % 0x20 + 0xC0) % 0x20, 0x80, 0xBF⟩ := by
      rw [lead?, toNat_ofNat_byte (by omega), if_neg (by omega), if_pos (by omega)]
    refine next_of_follow hlead ?_
    rw [follow_succ_ofNat (by omega) (by omega), follow]
    congr 2
    omega
  by_cases h₃ : n ≤ 0xFFFF
  · rw [if_neg h₁, if_neg h₂, if_pos h₃]
    refine ⟨_, UInt8.ofNat (n / 0x40 % 0x40 + 0x80) :: UInt8.ofNat (n % 0x40 + 0x80) :: rest,
      rfl, ?_⟩
    obtain ⟨low, high, hlead, hrange⟩ := lead?_of_three (n := n / 0x1000 % 0x10 + 0xE0)
      (n / 0x40 % 0x40 + 0x80) (by omega) (by omega) (by omega) (by omega)
    refine next_of_follow hlead ?_
    rw [follow_succ_ofNat (by omega) hrange, follow_succ_ofNat (by omega) (by omega), follow]
    congr 2
    omega
  · rw [if_neg h₁, if_neg h₂, if_neg h₃]
    refine ⟨_, UInt8.ofNat (n / 0x1000 % 0x40 + 0x80) :: UInt8.ofNat (n / 0x40 % 0x40 + 0x80) ::
      UInt8.ofNat (n % 0x40 + 0x80) :: rest, rfl, ?_⟩
    obtain ⟨low, high, hlead, hrange⟩ := lead?_of_four (n := n / 0x40000 % 8 + 0xF0)
      (n / 0x1000 % 0x40 + 0x80) (by omega) (by omega) (by omega) (by omega)
    refine next_of_follow hlead ?_
    rw [follow_succ_ofNat (by omega) hrange, follow_succ_ofNat (by omega) (by omega),
      follow_succ_ofNat (by omega) (by omega), follow]
    congr 2
    omega

/-! ## Texts -/

theorem decode_cons (b : UInt8) (bs : List UInt8) :
    decode (b :: bs) = (next b bs).1 :: decode (next b bs).2 := by
  rw [decode]

/-- What encodes a text is read as that text. -/
theorem decode_encode (cs : List Char) : decode (encode cs) = cs.map some := by
  induction cs with
  | nil => rw [encode, List.flatMap_nil, decode, List.map_nil]
  | cons c cs ih =>
      obtain ⟨b, bs, hbytes, hnext⟩ := next_utf8EncodeChar c (encode cs)
      have hsplit : encode (c :: cs) = b :: bs := hbytes
      rw [hsplit, decode_cons, hnext, ih, List.map_cons]

/-- Bytes without an unreadable piece encode the text read from them. -/
theorem encode_of_decode_eq_map {bs : List UInt8} {cs : List Char} (h : decode bs = cs.map some) :
    encode cs = bs := by
  induction cs generalizing bs with
  | nil =>
      cases bs with
      | nil => rfl
      | cons b bs =>
          rw [decode_cons] at h
          cases h
  | cons c cs ih =>
      cases bs with
      | nil =>
          rw [decode] at h
          cases h
      | cons b bs =>
          rw [decode_cons, List.map_cons, List.cons.injEq] at h
          rcases hnext : next b bs with ⟨piece, rest⟩
          rw [hnext] at h
          obtain ⟨rfl, hrest⟩ : piece = some c ∧ decode rest = cs.map some := h
          rw [next_eq_some hnext, ← ih hrest]
          rfl

/-- Bytes are valid exactly if they encode some text. -/
theorem isValid_iff {bs : List UInt8} : isValid bs = true ↔ ∃ cs, encode cs = bs := by
  constructor
  · intro h
    refine ⟨decodeLossy bs, encode_of_decode_eq_map ?_⟩
    rw [isValid, List.all_eq_true] at h
    have hread : ∀ piece ∈ decode bs, piece = some (piece.getD '\uFFFD') := by
      intro piece hpiece
      obtain ⟨c, rfl⟩ := Option.isSome_iff_exists.mp (h piece hpiece)
      rfl
    rw [decodeLossy, List.map_map]
    calc decode bs = (decode bs).map id := (List.map_id _).symm
      _ = (decode bs).map _ := List.map_congr_left hread
  · rintro ⟨cs, rfl⟩
    simp [isValid, decode_encode]

/-! ## ASCII bytes

A byte below `0x80` is a character of its own wherever it stands: no character
and no unreadable piece goes on across it.
-/

theorem follow_append_ascii {low : Nat} (hlow : 0x80 ≤ low) (count bits high : Nat)
    (as : List UInt8) (hb : b.toNat < 0x80) (bs : List UInt8) :
    follow count bits low high (as ++ b :: bs) =
      ((follow count bits low high as).1, (follow count bits low high as).2 ++ b :: bs) := by
  induction count generalizing bits low high as with
  | zero => rfl
  | succ count ih =>
      cases as with
      | nil =>
          have hout : ¬(low ≤ b.toNat ∧ b.toNat ≤ high) := by omega
          simp only [follow, List.nil_append, if_neg hout]
      | cons a as =>
          simp only [follow, List.cons_append]
          split
          · exact ih (Nat.le_refl _) _ _ _
          · rfl

theorem next_append_ascii (a : UInt8) (as : List UInt8) (hb : b.toNat < 0x80) (bs : List UInt8) :
    next a (as ++ b :: bs) = ((next a as).1, (next a as).2 ++ b :: bs) := by
  unfold next
  split
  · rfl
  next lead hlead =>
    obtain ⟨count, bits, low, high⟩ := lead
    have hlow : 0x80 ≤ low := by
      have := lead?_eq_some hlead
      omega
    simp only [follow_append_ascii hlow count bits high as hb]

theorem next_ascii (hb : b.toNat < 0x80) (bs : List UInt8) :
    next b bs = (some (Char.ofNat b.toNat), bs) := by
  have hlead : lead? b = some ⟨0, b.toNat, 0x80, 0xBF⟩ := if_pos hb
  exact next_of_follow hlead rfl

/-- Decoding can be split at an ASCII byte. -/
theorem decode_append_ascii (as : List UInt8) (hb : b.toNat < 0x80) (bs : List UInt8) :
    decode (as ++ b :: bs) = decode as ++ some (Char.ofNat b.toNat) :: decode bs := by
  induction hn : as.length using Nat.strongRecOn generalizing as with
  | ind n ih =>
      subst hn
      cases as with
      | nil => simp only [List.nil_append, decode_cons, next_ascii hb, decode]
      | cons a as =>
          have hlength := next_length_le a as
          rw [List.cons_append, decode_cons, decode_cons, next_append_ascii _ _ hb]
          dsimp only
          rw [ih _ (Nat.lt_succ_of_le hlength) _ rfl, List.cons_append]

theorem follow_suffix (count bits low high : Nat) (bs : List UInt8) :
    (follow count bits low high bs).2 <:+ bs := by
  induction count generalizing bits low high bs with
  | zero => exact List.suffix_rfl
  | succ count ih =>
      cases bs with
      | nil => exact List.suffix_rfl
      | cons b bs =>
          simp only [follow]
          split
          · exact (ih ..).trans (List.suffix_cons b bs)
          · exact List.suffix_rfl

theorem next_suffix (b : UInt8) (bs : List UInt8) : (next b bs).2 <:+ bs := by
  unfold next
  split
  · exact List.suffix_rfl
  · exact follow_suffix ..

theorem utf8EncodeChar_of_lt {c : Char} (hc : c.toNat < 0x80) :
    String.utf8EncodeChar c = [UInt8.ofNat c.toNat] :=
  if_pos (Nat.le_of_lt_succ hc)

/-- An ASCII character stands for its byte. -/
theorem mem_of_some_mem_decode {c : Char} (hc : c.toNat < 0x80) (h : some c ∈ decode bs) :
    UInt8.ofNat c.toNat ∈ bs := by
  induction hn : bs.length using Nat.strongRecOn generalizing bs with
  | ind n ih =>
      subst hn
      cases bs with
      | nil =>
          rw [decode] at h
          cases h
      | cons b bs =>
          rw [decode_cons] at h
          rcases List.mem_cons.mp h with hfirst | hrest
          · have hread : next b bs = (some c, (next b bs).2) := Prod.ext hfirst.symm rfl
            rw [next_eq_some hread, utf8EncodeChar_of_lt hc]
            exact List.mem_cons_self
          · have hlength := next_length_le b bs
            have hmem := ih _ (Nat.lt_succ_of_le hlength) hrest rfl
            exact List.mem_cons_of_mem _ ((next_suffix b bs).mem hmem)

/-- Where the last character is an ASCII one, its byte is the last byte. -/
theorem getLast?_of_getLast?_decode {c : Char} (hc : c.toNat < 0x80)
    (h : (decode bs).getLast? = some (some c)) : bs.getLast? = some (UInt8.ofNat c.toNat) := by
  induction hn : bs.length using Nat.strongRecOn generalizing bs with
  | ind n ih =>
      subst hn
      cases bs with
      | nil =>
          rw [decode] at h
          cases h
      | cons b bs =>
          have hlength := next_length_le b bs
          have hsuffix := next_suffix b bs
          rcases hnext : next b bs with ⟨piece, rest⟩
          rw [hnext] at hlength hsuffix
          rw [decode_cons, hnext] at h
          cases rest with
          | nil =>
              have hpiece : piece = some c := by
                rw [decode] at h
                exact Option.some.inj h
              rw [next_eq_some (hpiece ▸ hnext), utf8EncodeChar_of_lt hc]
              rfl
          | cons b' rest =>
              rw [List.getLast?_cons_of_ne_nil (by simp [decode_cons])] at h
              have hlast := ih _ (Nat.lt_succ_of_le hlength) h rfl
              obtain ⟨front, rfl⟩ := hsuffix
              rw [← List.cons_append, List.getLast?_append, hlast]
              rfl

section Lossy

variable (hc : c.toNat < 0x80)

include hc

theorem toNat_byte : (UInt8.ofNat c.toNat).toNat = c.toNat :=
  toNat_ofNat_byte (by omega)

theorem decodeLossy_append_ascii (as bs : List UInt8) :
    decodeLossy (as ++ UInt8.ofNat c.toNat :: bs) = decodeLossy as ++ c :: decodeLossy bs := by
  have hbyte := toNat_byte hc
  have hsplit := decode_append_ascii (b := UInt8.ofNat c.toNat) as (by omega) bs
  rw [hbyte, c.ofNat_toNat] at hsplit
  rw [decodeLossy, hsplit, List.map_append, List.map_cons]
  rfl

/-- What stands for an unreadable piece is no ASCII character. -/
theorem eq_some_of_getD_eq {piece : Option Char} (h : piece.getD '\uFFFD' = c) :
    piece = some c := by
  cases piece with
  | none =>
      rw [← h] at hc
      exact absurd hc (by decide)
  | some c' => exact congrArg some h

theorem mem_of_mem_decodeLossy (h : c ∈ decodeLossy bs) : UInt8.ofNat c.toNat ∈ bs := by
  obtain ⟨piece, hpiece, hread⟩ := List.mem_map.mp h
  rw [eq_some_of_getD_eq hc hread] at hpiece
  exact mem_of_some_mem_decode hc hpiece

/-- Splitting a text at an ASCII character is splitting its bytes, unreadable pieces or not. -/
theorem splitOn_decodeLossy (bs : List UInt8) :
    (decodeLossy bs).splitOn c = (bs.splitOn (UInt8.ofNat c.toNat)).map decodeLossy := by
  induction hn : bs.length using Nat.strongRecOn generalizing bs with
  | ind n ih =>
      subst hn
      by_cases hmem : UInt8.ofNat c.toNat ∈ bs
      · obtain ⟨front, behind, rfl, hfront⟩ := List.eq_append_cons_of_mem hmem
        have hlength : behind.length < (front ++ UInt8.ofNat c.toNat :: behind).length := by
          rw [List.length_append, List.length_cons]
          omega
        rw [decodeLossy_append_ascii hc,
          List.splitOn_append_cons_self_of_not_mem (mt (mem_of_mem_decodeLossy hc) hfront),
          List.splitOn_append_cons_self_of_not_mem hfront, ih _ hlength _ rfl, List.map_cons]
      · rw [List.splitOn_eq_singleton (mt (mem_of_mem_decodeLossy hc) hmem),
          List.splitOn_eq_singleton hmem, List.map_singleton]

/-- Dropping an ASCII character from the end of a text is dropping its byte. -/
theorem dropFinal_decodeLossy (bs : List UInt8) :
    Text.dropFinal c (decodeLossy bs) =
      decodeLossy (Text.dropFinal (UInt8.ofNat c.toNat) bs) := by
  by_cases h : bs.getLast? = some (UInt8.ofNat c.toNat)
  · obtain ⟨front, rfl⟩ := List.getLast?_eq_some_iff.mp h
    have hlast := decodeLossy_append_ascii hc front []
    have hnil : decodeLossy [] = [] := by rw [decodeLossy, decode, List.map_nil]
    rw [hnil] at hlast
    simp [Text.dropFinal, hlast]
  · have hlast : (decodeLossy bs).getLast? ≠ some c := by
      intro hread
      rw [decodeLossy, List.getLast?_map, Option.map_eq_some_iff] at hread
      obtain ⟨piece, hpiece, hread⟩ := hread
      rw [eq_some_of_getD_eq hc hread] at hpiece
      exact h (getLast?_of_getLast?_decode hc hpiece)
    rw [Text.dropFinal, Text.dropFinal, if_neg hlast, if_neg h]

end Lossy

end Toolpath.Utf8
