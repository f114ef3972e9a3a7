import Mathlib.Data.List.Chain
import Mathlib.Data.List.Forall2
import Mathlib.Data.List.TakeWhile
import Toolpath.Proofs.Cloud.Layers
import Toolpath.Proofs.Number.Order

/-! # Layers as runs of deposits

Layers cut the deposits of a program into runs: no deposit is lost or moved,
no layer is empty, all deposits of a layer start at its height, and the height
changes from each layer to the next. There is one way only to cut deposits like
this, so these conditions say what the layers are.
-/

namespace Toolpath.Layer

/-- Whether layers, numbered from a first number on, are the runs of some deposits. -/
structure IsGrouping (number : Nat) (deposits : List MotionSegment) (layers : List Layer) :
    Prop where
  flatMap_segments : layers.flatMap (·.segments) = deposits
  segments_ne_nil : ∀ layer ∈ layers, layer.segments ≠ []
  height : ∀ layer ∈ layers, ∀ segment ∈ layer.segments, (segment.start.z == layer.z) = true
  changes : layers.IsChain fun layer next => (layer.z == next.z) = false
  index : ∀ i layer, layers[i]? = some layer → layer.index = number + i

/-- Whether two layers are the same but for the sign of a height that is zero. -/
structure Agrees (first second : Layer) : Prop where
  index : first.index = second.index
  height : (first.z == second.z) = true
  segments : first.segments = second.segments

variable {number : Nat} {deposits : List MotionSegment} {layer : Layer} {layers : List Layer}

theorem isGrouping_nil_iff : IsGrouping number deposits [] ↔ deposits = [] := by
  constructor
  · intro h
    exact h.flatMap_segments.symm
  · rintro rfl
    exact ⟨rfl, nofun, nofun, .nil, nofun⟩

/-- The first layer is a run, and the others group what is behind it. -/
theorem isGrouping_cons_iff :
    IsGrouping number deposits (layer :: layers) ↔
      ∃ rest, deposits = layer.segments ++ rest ∧ layer.index = number ∧ layer.segments ≠ [] ∧
        (∀ segment ∈ layer.segments, (segment.start.z == layer.z) = true) ∧
        (∀ next ∈ layers.head?, (layer.z == next.z) = false) ∧
        IsGrouping (number + 1) rest layers := by
  constructor
  · rintro ⟨hflat, hne, hheight, hchanges, hindex⟩
    obtain ⟨hfirst, hne⟩ := List.forall_mem_cons.mp hne
    obtain ⟨hrun, hheight⟩ := List.forall_mem_cons.mp hheight
    obtain ⟨hnext, hchanges⟩ := List.isChain_cons.mp hchanges
    refine ⟨_, hflat.symm, hindex 0 layer rfl, hfirst, hrun, hnext, rfl, hne, hheight, hchanges,
      fun i other hother => ?_⟩
    rw [hindex (i + 1) other hother]
    omega
  · rintro ⟨rest, rfl, hnumber, hfirst, hrun, hnext, hflat, hne, hheight, hchanges, hindex⟩
    refine ⟨by rw [List.flatMap_cons, hflat], List.forall_mem_cons.mpr ⟨hfirst, hne⟩,
      List.forall_mem_cons.mpr ⟨hrun, hheight⟩, List.isChain_cons.mpr ⟨hnext, hchanges⟩, ?_⟩
    rintro (_ | i) other hother
    · obtain rfl := Option.some.inj hother
      exact hnumber
    · rw [hindex i other hother]
      omega

/-- Behind a run the height is another one. -/
theorem head_ne_of_isGrouping {z : Float} {rest : List MotionSegment}
    (h : IsGrouping number rest layers) (hnext : ∀ next ∈ layers.head?, (z == next.z) = false) :
    ∀ segment ∈ rest.head?, (z == segment.start.z) = false := by
  cases layers with
  | nil =>
      rw [isGrouping_nil_iff.mp h]
      exact nofun
  | cons next layers =>
      obtain ⟨rest, rfl, -, hne, hrun, -⟩ := isGrouping_cons_iff.mp h
      intro segment hsegment
      rw [List.head?_append_of_ne_nil _ hne] at hsegment
      have hheight := hrun segment (List.mem_of_mem_head? hsegment)
      rw [← Bool.not_eq_true]
      intro heq
      exact Bool.eq_false_iff.mp (hnext next rfl) (Number.beq_trans heq hheight)

/-- The layers that are found are the runs of the deposits. -/
theorem isGrouping_group (number : Nat) (deposits : List MotionSegment)
    (hheight : ∀ segment ∈ deposits, segment.start.z.isNaN = false) :
    IsGrouping number deposits (group number deposits) := by
  induction number, deposits using group.induct with
  | case1 number =>
      rw [group]
      exact isGrouping_nil_iff.mpr rfl
  | case2 number first rest sameHeight ih =>
      obtain ⟨hfirst, hrest⟩ := List.forall_mem_cons.mp hheight
      have hbehind := ih fun segment hsegment =>
        hrest segment ((List.dropWhile_sublist sameHeight).subset hsegment)
      rw [group, isGrouping_cons_iff]
      refine ⟨rest.dropWhile sameHeight, ?_, rfl, List.cons_ne_nil _ _, ?_, ?_, hbehind⟩
      · rw [List.cons_append, List.takeWhile_append_dropWhile]
      · refine List.forall_mem_cons.mpr ⟨Number.beq_self hfirst, fun segment hsegment => ?_⟩
        have hsame : sameHeight segment = true := List.mem_takeWhile_imp hsegment
        exact Number.beq_symm hsame
      · -- The next layer has the height of the deposit that ended the run.
        intro next hnext
        cases hdrop : rest.dropWhile sameHeight with
        | nil =>
            rw [hdrop, group] at hnext
            cases hnext
        | cons segment _ =>
            rw [hdrop, group] at hnext
            obtain rfl := Option.some.inj hnext
            have hstop := List.head?_dropWhile_not sameHeight rest
            rw [hdrop] at hstop
            exact hstop

/-- A run that cannot be made longer is the first layer that is found. -/
theorem group_append_of_run {first : MotionSegment} {run rest : List MotionSegment}
    (hrun : ∀ segment ∈ run, (first.start.z == segment.start.z) = true)
    (hrest : ∀ segment ∈ rest.head?, (first.start.z == segment.start.z) = false) :
    group number (first :: run ++ rest) =
      ⟨number, first.start.z, first :: run⟩ :: group (number + 1) rest := by
  rw [List.cons_append, group, List.takeWhile_append_of_pos hrun, List.dropWhile_append_of_pos hrun]
  cases rest with
  | nil => rw [List.takeWhile_nil, List.dropWhile_nil, List.append_nil]
  | cons segment rest => simp [hrest segment rfl]

/-- Runs are found again. -/
theorem agrees_group_of_isGrouping (h : IsGrouping number deposits layers) :
    List.Forall₂ Agrees (group number deposits) layers := by
  induction layers generalizing number deposits with
  | nil =>
      rw [isGrouping_nil_iff.mp h, group]
      exact .nil
  | cons layer layers ih =>
      obtain ⟨rest, rfl, hnumber, hne, hsegments, hnext, hlayers⟩ := isGrouping_cons_iff.mp h
      obtain ⟨first, run, hlayer⟩ := List.exists_cons_of_ne_nil hne
      rw [hlayer] at hsegments ⊢
      obtain ⟨hfirst, hrun⟩ := List.forall_mem_cons.mp hsegments
      rw [group_append_of_run]
      · exact .cons ⟨hnumber.symm, hfirst, hlayer.symm⟩ (ih hlayers)
      · exact fun segment hsegment =>
          Number.beq_trans hfirst (Number.beq_symm (hrun segment hsegment))
      · intro segment hsegment
        rw [← Bool.not_eq_true]
        intro hsame
        have hheight := Number.beq_trans (Number.beq_symm hfirst) hsame
        exact Bool.eq_false_iff.mp (head_ne_of_isGrouping hlayers hnext segment hsegment) hheight

/-- The layers of some segments are the runs of its deposits, numbered from zero on, provided that
the heights they start at are numbers; and nothing else is. -/
theorem isGrouping_ofSegments {segments : List MotionSegment}
    (hheight : ∀ segment ∈ segments, segment.isDeposit = true → segment.start.z.isNaN = false) :
    IsGrouping 0 (segments.filter (·.isDeposit)) (ofSegments segments) ∧
      ∀ layers, IsGrouping 0 (segments.filter (·.isDeposit)) layers →
        List.Forall₂ Agrees (ofSegments segments) layers := by
  refine ⟨isGrouping_group 0 _ ?_, fun layers => agrees_group_of_isGrouping⟩
  intro segment hsegment
  obtain ⟨hmem, hdeposit⟩ := List.mem_filter.mp hsegment
  exact hheight segment hmem hdeposit

/-- Going back to a height begins another layer, travel does not, and the two zeros are one
height. -/
theorem isGrouping_ofSegments_of_hop :
    let move (isDeposit : Bool) (z : Float) : MotionSegment :=
      { start := ⟨0.0, 0.0, z⟩, stop := ⟨1.0, 0.0, z⟩, isDeposit }
    List.Forall₂ Agrees
      (ofSegments [move true 0.0, move false 9.0, move true (-0.0), move true 1.0, move true 0.0])
      [⟨0, -0.0, [move true 0.0, move true (-0.0)]⟩, ⟨1, 1.0, [move true 1.0]⟩,
        ⟨2, 0.0, [move true 0.0]⟩] := by
  intro move
  refine (isGrouping_ofSegments (by decide +kernel)).2 _ ⟨rfl, by decide, ?_, ?_, ?_⟩
  · decide +kernel
  · decide +kernel
  · rintro (_ | _ | _ | _) layer hlayer <;> cases hlayer <;> rfl

end Toolpath.Layer
