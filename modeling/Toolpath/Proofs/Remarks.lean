import Toolpath.Proofs.Inspection
import Toolpath.Proofs.Text.Pieces

/-! # Remarks say nothing

Behind a semicolon outside of parentheses a line may hold any bytes up to its
line feed, be they text or not. What is made of a program file depends on none
of them: bytes are cut into lines before they are read as text, a semicolon is
one wherever it stands, and what is unreadable behind it does not reach back.
-/

namespace Toolpath

open Text

namespace Line

/-- The semicolon. -/
def semicolon : UInt8 := 59

/-- The region behind a byte of a line. -/
def Region.behindByte (region : Region) (b : UInt8) : Region :=
  region.behind (Char.ofNat b.toNat)

/-- The bytes of a line, which starts in the given region, up to the semicolon that begins its
remark. Without a remark these are all bytes. -/
def cutRemark : Region → List UInt8 → List UInt8
  | _, [] => []
  | .remark, _ => []
  | region, b :: bytes => b :: cutRemark (region.behindByte b) bytes

theorem toNat_charOfByte (b : UInt8) : (Char.ofNat b.toNat).toNat = b.toNat := by
  have hvalid : b.toNat.isValidChar := by
    have := b.toNat_lt
    exact .inl (by omega)
  rw [Char.ofNat, dif_pos hvalid]
  rfl

section Regions

variable (region : Region) (bytes : List UInt8)

theorem Region.behind_of_le {c : Char} (hc : 0x80 ≤ c.toNat) : region.behind c = region := by
  have hne (ascii : Char) (h : ascii.toNat < 0x80) : c ≠ ascii := by
    rintro rfl
    omega
  cases region <;> simp [behind, hne]

theorem Region.behindByte_of_le {b : UInt8} (hb : 0x80 ≤ b.toNat) :
    region.behindByte b = region := by
  refine region.behind_of_le ?_
  rwa [toNat_charOfByte]

/-- Bytes lead to the same region as the text read from them, unreadable pieces or not. -/
theorem foldl_behind_decodeLossy :
    (Utf8.decodeLossy bytes).foldl Region.behind region =
      bytes.foldl Region.behindByte region := by
  -- Only ASCII bytes matter, and at each of them decoding can be split.
  induction hn : bytes.length using Nat.strongRecOn generalizing region bytes with
  | ind n ih =>
      subst hn
      by_cases hascii : ∃ b ∈ bytes, b.toNat < 0x80
      · obtain ⟨b, hmem, hb⟩ := hascii
        obtain ⟨front, behind, rfl⟩ := List.append_of_mem hmem
        have hlength : (front ++ b :: behind).length = front.length + (behind.length + 1) :=
          List.length_append
        have hfront := ih front.length (by omega) region front rfl
        have hbehind := ih behind.length (by omega)
          ((front.foldl Region.behindByte region).behindByte b) behind rfl
        rw [Utf8.decodeLossy, Utf8.decode_append_ascii front hb, List.map_append, List.map_cons,
          List.foldl_append, List.foldl_append, List.foldl_cons, List.foldl_cons, ← hbehind,
          ← hfront]
        rfl
      · simp only [not_exists, not_and, Nat.not_lt] at hascii
        have hchars : ∀ c ∈ Utf8.decodeLossy bytes, 0x80 ≤ c.toNat := by
          intro c hc
          by_contra hsmall
          have hlt := Nat.not_le.mp hsmall
          have hbyte := hascii _ (Utf8.mem_of_mem_decodeLossy hlt hc)
          rw [Utf8.toNat_byte hlt] at hbyte
          exact hsmall hbyte
        rw [List.foldl_ext _ (fun region _ => region) region
            fun region c hc => region.behind_of_le (hchars c hc),
          List.foldl_ext _ (fun region _ => region) region
            fun region b hb => region.behindByte_of_le (hascii b hb),
          List.foldl_fixed, List.foldl_fixed]

end Regions

theorem cutRemark_cons {region : Region} (h : region ≠ .remark) (b : UInt8) (bytes : List UInt8) :
    cutRemark region (b :: bytes) = b :: cutRemark (region.behindByte b) bytes := by
  cases region with
  | code => rfl
  | remark => exact absurd rfl h
  | aside => rfl

/-- Only a semicolon in the code of a line leads into a remark. -/
theorem eq_of_behindByte_eq_remark {region : Region} {b : UInt8} (h : region ≠ .remark)
    (hb : region.behindByte b = .remark) : region = .code ∧ b = semicolon := by
  cases region with
  | code =>
      simp only [Region.behindByte, Region.behind] at hb
      split at hb
      next hchar =>
        have hnumber := toNat_charOfByte b
        rw [hchar] at hnumber
        exact ⟨rfl, UInt8.toNat_inj.mp hnumber.symm⟩
      next => split at hb <;> cases hb
  | remark => exact absurd rfl h
  | aside =>
      simp only [Region.behindByte, Region.behind] at hb
      split at hb <;> cases hb

/-- A line has no remark, or is cut behind the semicolon of it. -/
theorem cutRemark_eq {region : Region} (h : region ≠ .remark) (bytes : List UInt8) :
    cutRemark region bytes = bytes ∨
      ∃ front body, bytes = front ++ semicolon :: body ∧
        cutRemark region bytes = front ++ [semicolon] ∧
        front.foldl Region.behindByte region = .code := by
  induction bytes generalizing region with
  | nil => exact .inl (by cases region <;> rfl)
  | cons b bytes ih =>
      rw [cutRemark_cons h]
      by_cases hremark : region.behindByte b = .remark
      · obtain ⟨hcode, rfl⟩ := eq_of_behindByte_eq_remark h hremark
        refine .inr ⟨[], bytes, rfl, ?_, hcode⟩
        rw [hremark]
        cases bytes <;> rfl
      · rcases ih hremark with hcut | ⟨front, body, rfl, hcut, hcode⟩
        · exact .inl (congrArg _ hcut)
        · exact .inr ⟨b :: front, body, rfl, congrArg _ hcut, hcode⟩

/-- What a line says does not depend on its remark. -/
theorem read_cutRemark {bytes : List UInt8} (h : ProgramFile.lineFeed ∉ bytes) :
    read (Utf8.decodeLossy (cutRemark .code bytes)) = read (Utf8.decodeLossy bytes) := by
  have hstart : Region.code ≠ .remark := by decide
  rcases cutRemark_eq hstart bytes with hcut | ⟨front, body, rfl, hcut, hcode⟩
  · rw [hcut]
  · have hsplit (behind : List UInt8) : Utf8.decodeLossy (front ++ semicolon :: behind) =
        Utf8.decodeLossy front ++ ';' :: Utf8.decodeLossy behind :=
      Utf8.decodeLossy_append_ascii (c := ';') (by decide) front behind
    have hbody : '\n' ∉ Utf8.decodeLossy body := by
      intro hmem
      have hbyte := Utf8.mem_of_mem_decodeLossy (c := '\n') (by decide) hmem
      exact h (List.mem_append_right _ (List.mem_cons_of_mem _ hbyte))
    have hstripped (behind : List Char) (hbehind : '\n' ∉ behind) :
        stripComments (Utf8.decodeLossy front ++ ';' :: behind) =
          stripFrom .code (Utf8.decodeLossy front) ++ [' '] := by
      have hremark := stripFrom_remark_append hbehind []
      rw [List.append_nil, stripFrom] at hremark
      rw [stripComments, stripFrom_append, foldl_behind_decodeLossy, hcode, stripFrom, if_pos rfl,
        hremark]
    rw [hcut, hsplit, hsplit, read, read, hstripped _ hbody, hstripped _ (by decide +kernel)]

end Line

namespace ProgramFile

/-- Whether two contents differ in remarks only: they have as many lines, and each line is the same
in both up to the semicolon that begins its remark. -/
def SameButRemarks (first second : List UInt8) : Prop :=
  (first.splitOn lineFeed).map (Line.cutRemark .code) =
    (second.splitOn lineFeed).map (Line.cutRemark .code)

instance : DecidableRel SameButRemarks := fun _ _ => inferInstanceAs (Decidable (_ = _))

/-- A remark may become another one, or nothing, but not a comment in parentheses. -/
example :
    SameButRemarks (Utf8.encode "G1 X1 ;a(\nX2;)".toList) (Utf8.encode "G1 X1 ;\nX2;G1".toList) ∧
      ¬SameButRemarks (Utf8.encode "G1 (;a)".toList) (Utf8.encode "G1 (;b)".toList) := by
  decide +kernel

/-- What the lines of a text say is what they say without their remarks. -/
theorem map_read_textLines_decodeLossy (bytes : List UInt8) :
    (textLines (Utf8.decodeLossy bytes)).map (fun line => Line.read line.toList) =
      (dropFinal [] ((bytes.splitOn lineFeed).map (Line.cutRemark .code))).map
        fun line => Line.read (Utf8.decodeLossy line) := by
  have hnil (line : List UInt8) : Line.cutRemark .code line = [] ↔ line = [] := by
    cases line <;> simp [Line.cutRemark]
  rw [textLines, Utf8.splitOn_decodeLossy (by decide), dropFinal_nil_map
    (fun _ => decodeLossy_eq_nil_iff), dropFinal_nil_map hnil, List.map_map, List.map_map,
    List.map_map]
  refine List.map_congr_left fun line hline => ?_
  have hfeed : lineFeed ∉ line := not_mem_of_mem_splitOn (mem_of_mem_dropFinal hline)
  simp only [Function.comp_apply, String.toList_ofList, Line.read_dropFinal,
    Line.read_cutRemark hfeed]

end ProgramFile

namespace Pass

variable {σ : Type} (keep : σ → MotionSegment → σ) (pass : Pass σ)

/-- A pass learns of a line no more than what it says. -/
theorem line_congr {first second : String} (h : Line.read first.toList = Line.read second.toList) :
    pass.line keep first = pass.line keep second := by
  have hdecode : pass.decoder.decode first = pass.decoder.decode second :=
    congrArg pass.decoder.accept h
  rw [Pass.line, Pass.line, hdecode]

theorem feed_line_congr {first second : List String}
    (h : first.map (fun line => Line.read line.toList) =
      second.map fun line => Line.read line.toList) :
    ProgramFile.feed (line keep) pass first = ProgramFile.feed (line keep) pass second := by
  have hlines : List.Forall₂ Eq (first.map fun line => Line.read line.toList)
      (second.map fun line => Line.read line.toList) := by
    rw [h]
    exact List.forall₂_refl _
  rw [List.forall₂_map_left_iff, List.forall₂_map_right_iff] at hlines
  have step (pass pass' : Pass σ) (first second : String) (hpass : pass = pass')
      (hline : Line.read first.toList = Line.read second.toList) :
      (line keep pass first).1 = (line keep pass' second).1 ∧
        (line keep pass first).2 = (line keep pass' second).2 := by
    obtain rfl := hpass
    rw [line_congr keep pass hline]
    exact ⟨rfl, rfl⟩
  obtain ⟨hflow, hused, hpass⟩ := ProgramFile.feed_of_related Eq
    (fun first second => Line.read first.toList = Line.read second.toList) step hlines
    (Eq.refl pass)
  exact Prod.ext hflow (Prod.ext hused hpass)

end Pass

/-- Files that differ in remarks only come to the same when they are inspected: the same cloud, the
same counters of the decoder, the same layers, as many lines read, and the same end of the reading.
What is left to differ are the bytes read, the size of the file, and the lossy lines. -/
theorem inspectFile_of_sameButRemarks {fs fs' : FileSystem} {path path' : String}
    {file file' : ProgramFile} (hfind : ProgramFile.find fs path = .ok file)
    (hfind' : ProgramFile.find fs' path' = .ok file')
    (h : ProgramFile.SameButRemarks file.content file'.content) (options : AssemblyOptions) :
    ∃ conversion conversion' layers,
      inspectFile fs path options = .ok (conversion, layers) ∧
      inspectFile fs' path' options = .ok (conversion', layers) ∧
      conversion.cloud = conversion'.cloud ∧ conversion.stats = conversion'.stats ∧
      conversion.read.lines = conversion'.read.lines ∧
      conversion.read.stoppedEarly = conversion'.read.stoppedEarly := by
  have hlines : (ProgramFile.textLines file.text).map (fun line => Line.read line.toList) =
      (ProgramFile.textLines file'.text).map fun line => Line.read line.toList := by
    rw [ProgramFile.text, ProgramFile.text, ProgramFile.map_read_textLines_decodeLossy,
      ProgramFile.map_read_textLines_decodeLossy, h]
  have hfed := Pass.feed_line_congr Conversion.keepDeposit ⟨{}, { options }, #[]⟩ hlines
  rw [inspectFile_eq_map, inspectFile_eq_map, Conversion.run_eq hfind, Conversion.run_eq hfind',
    ProgramFile.readLines_eq, ProgramFile.readLines_eq, hfed]
  exact ⟨_, _, _, rfl, rfl, rfl, rfl, rfl, rfl⟩

/-- A remark with a byte that is no text, an opening parenthesis or another command says as little
as an empty one. -/
theorem inspectFile_of_unreadable_remark :
    let written := Utf8.encode "G1 X1 E1;caf".toList ++ [0xE9, 13] ++
      Utf8.encode "\nG1 X2 E2 ;(G0 X9\n".toList
    let bare := Utf8.encode "G1 X1 E1;\nG1 X2 E2 ;\n".toList
    let fs : FileSystem :=
      { nodes := [(["written.gcode"], .file written), (["bare.gcode"], .file bare)] }
    ProgramFile.SameButRemarks written bare ∧
      ∃ conversion conversion' layers,
        inspectFile fs "written.gcode" {} = .ok (conversion, layers) ∧
        inspectFile fs "bare.gcode" {} = .ok (conversion', layers) ∧
        conversion.cloud = conversion'.cloud ∧ conversion.stats = conversion'.stats := by
  intro written bare fs
  have hsame : ProgramFile.SameButRemarks written bare := by decide +kernel
  have hwritten : ProgramFile.find fs "written.gcode" = .ok ⟨"written.gcode", written⟩ := rfl
  have hbare : ProgramFile.find fs "bare.gcode" = .ok ⟨"bare.gcode", bare⟩ := rfl
  obtain ⟨conversion, conversion', layers, hinspect, hinspect', hcloud, hstats, -⟩ :=
    inspectFile_of_sameButRemarks hwritten hbare hsame {}
  exact ⟨hsame, conversion, conversion', layers, hinspect, hinspect', hcloud, hstats⟩

end Toolpath
