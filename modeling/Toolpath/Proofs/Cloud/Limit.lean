import Toolpath.Proofs.Cloud.Bounds
import Toolpath.Proofs.Cloud.PointByPoint

/-! # Pushing on regardless

An assembler may be pushed into when it has already told its reader to stop.
Nothing happens then: the points stay within the limit, the answer is the same
again, and the segment is not counted. So a reader that never listens ends up
with the assembler of one that stops when it is told to.
-/

namespace Toolpath.Assembler

/-- One push: the assembler it found, the segment, what was answered, and the assembler it left. -/
structure Push where
  before : Assembler
  segment : MotionSegment
  answer : Flow
  after : Assembler

/-- Push segments one after the other, whatever is answered, and record every push. -/
def pushes (assembler : Assembler) : List MotionSegment → List Push
  | [] => []
  | segment :: segments =>
      let (answer, after) := assembler.push segment
      ⟨assembler, segment, answer, after⟩ :: after.pushes segments

/-- Whether an assembler has the options it was made with and no more points than they admit. -/
structure WithinLimit (options : AssemblyOptions) (assembler : Assembler) : Prop where
  options_eq : assembler.options = options
  size : ∀ limit, options.maxPoints = some limit → assembler.cloud.size ≤ limit

variable {options : AssemblyOptions} {assembler : Assembler} {segments : List MotionSegment}

theorem withinLimit_start (options : AssemblyOptions) : WithinLimit options { options } where
  options_eq := rfl
  size := fun limit _ => Nat.zero_le limit

/-- No segment has more points taken from it than there is room for. -/
theorem WithinLimit.insert (h : WithinLimit options assembler) (segment : MotionSegment) :
    WithinLimit options (assembler.insert segment) := by
  refine ⟨(assembler.options_insert segment).trans h.options_eq, fun limit hlimit => ?_⟩
  have hsize := h.size limit hlimit
  have hroom : assembler.room = some (limit - assembler.cloud.size) := by
    rw [room, h.options_eq, hlimit]
    rfl
  have hpoints := congrArg List.length (assembler.points_insert segment)
  rw [hroom, List.length_append, List.length_map, fitting, List.length_take, Array.length_toList,
    Array.length_toList] at hpoints
  change (assembler.insert segment).cloud.size = assembler.cloud.size + _ at hpoints
  omega

theorem WithinLimit.foldl_insert (h : WithinLimit options assembler) :
    WithinLimit options (segments.foldl Assembler.insert assembler) :=
  List.foldlRecOn segments Assembler.insert h fun _ h segment _ => h.insert segment

/-- A cloud never has more points than the limit admits. -/
theorem withinLimit_pushAll (options : AssemblyOptions) (segments : List MotionSegment) :
    WithinLimit options (pushAll { options } segments) := by
  rw [pushAll_eq_foldl]
  exact (withinLimit_start options).foldl_insert

/-- Every push of a run finds an assembler that is within the limit if the first one does. -/
theorem WithinLimit.of_mem_pushes (h : WithinLimit options assembler) :
    ∀ push ∈ assembler.pushes segments, WithinLimit options push.before := by
  induction segments generalizing assembler with
  | nil => exact List.forall_mem_nil _
  | cons segment segments ih => exact List.forall_mem_cons.mpr ⟨h, ih (h.insert segment)⟩

theorem push_of_mem_pushes :
    ∀ push ∈ assembler.pushes segments,
      (push.answer, push.after) = push.before.push push.segment := by
  induction segments generalizing assembler with
  | nil => exact List.forall_mem_nil _
  | cons segment segments ih => exact List.forall_mem_cons.mpr ⟨rfl, ih⟩

/-- The last assembler is the one that all the segments make. -/
theorem after_getLast?_pushes :
    ((assembler.pushes segments).getLast?.map Push.after).getD assembler =
      segments.foldl insert assembler := by
  induction segments generalizing assembler with
  | nil => rfl
  | cons segment segments ih =>
      rw [List.foldl_cons, ← ih, pushes, push, List.getLast?_cons]
      cases (pushes (assembler.insert segment) segments).getLast? <;> rfl

/-- The segments that are counted are those pushed while there was room. -/
theorem segments_foldl_insert :
    (segments.foldl insert assembler).segments =
      assembler.segments +
        (assembler.pushes segments).countP fun push => !push.before.isFull := by
  induction segments generalizing assembler with
  | nil => rfl
  | cons segment segments ih =>
      rw [List.foldl_cons, ih, pushes, push, List.countP_cons]
      by_cases hfull : assembler.isFull = true
      · rw [assembler.insert_of_isFull hfull, if_neg (by simp [hfull]), Nat.add_zero]
      · have hcount := assembler.segments_insert (mt assembler.isFull_iff.mpr hfull) segment
        rw [hcount, if_pos (by simpa using hfull)]
        omega

theorem flow_eq_stop_iff (assembler : Assembler) :
    assembler.flow = .stop ↔ assembler.isFull = true := by
  unfold flow
  split
  next h => exact iff_of_true rfl h
  next h => exact iff_of_false nofun h

/-- However long segments are pushed into a new assembler, its points stay within the limit. Every
push looks at the limit behind each point, answers that no more is wanted exactly if it leaves the
assembler full, and changes nothing if it finds it full. So the assembler is in the end the one of a
reader that stops at the first such answer, and it has counted the pushes that found it not full. -/
theorem pushes_within_limit (options : AssemblyOptions) (segments : List MotionSegment) :
    let start : Assembler := { options }
    let pushes := start.pushes segments
    let last := (pushes.getLast?.map Push.after).getD start
    (∀ limit, options.maxPoints = some limit →
      last.cloud.size ≤ limit ∧ ∀ push ∈ pushes, push.before.cloud.size ≤ limit) ∧
    (∀ push ∈ pushes,
      (push.answer, push.after) = push.before.pushEach push.segment ∧
      (push.answer = .stop ↔ push.after.isFull = true) ∧
      (push.before.isFull = true → push.after = push.before)) ∧
    last = start.pushAll segments ∧
    last.segments = pushes.countP fun push => !push.before.isFull := by
  intro start pushes last
  have hlast : last = segments.foldl insert start := after_getLast?_pushes
  have hstart : WithinLimit options start := withinLimit_start options
  refine ⟨fun limit hlimit => ⟨?_, fun push hmem => ?_⟩, fun push hmem => ?_, ?_, ?_⟩
  · rw [hlast]
    exact hstart.foldl_insert.size limit hlimit
  · exact (hstart.of_mem_pushes push hmem).size limit hlimit
  · have hpush := push_of_mem_pushes push hmem
    obtain ⟨hanswer, hinsert⟩ := Prod.mk.inj hpush
    refine ⟨hpush.trans (push_eq_pushEach _ _), ?_, fun hfull => ?_⟩
    · rw [hanswer, hinsert]
      exact flow_eq_stop_iff _
    · exact hinsert.trans (push.before.insert_of_isFull hfull push.segment)
  · rw [hlast, pushAll_eq_foldl]
  · rw [hlast, segments_foldl_insert]
    exact Nat.zero_add _

/-- The limit falls on the end of the second segment, and the third finds the assembler full. -/
example :
    let start : Assembler := { options := { decode := { mode := .vertex }, maxPoints := some 2 } }
    let segment : MotionSegment := { start := .origin, stop := ⟨1.0, 0.0, 0.0⟩, isDeposit := true }
    (start.pushes [segment, segment, segment]).map Push.answer = [.goOn, .stop, .stop] := by
  decide +kernel

end Toolpath.Assembler
