import Toolpath.Cloud.Basic
import Toolpath.Document.Data

/-! # Handing a cloud to a reconstruction

Surfaces are reconstructed elsewhere. What is decided here is whether a cloud
and the parameters are fit to be handed over, and what is wrong with them if
they are not.
-/

namespace Toolpath

/-- Why a surface cannot be reconstructed. -/
inductive ReconstructionError where
  | tooFewPoints (actual required : Nat)
  /-- Nothing was deposited. -/
  | missingBounds
  | invalidParameter (name reason : String)
  /-- The reconstruction was tried and failed. -/
  | backend (text : String)
  deriving DecidableEq, Repr

namespace ReconstructionError

/-- The wording of the error. -/
def message : ReconstructionError → String
  | tooFewPoints actual required =>
      s!"Too few points for reconstruction: {actual} (need at least {required})"
  | missingBounds => "Point cloud has no deposit bounds"
  | invalidParameter name reason => s!"Invalid reconstruction parameter '{name}': {reason}"
  | backend text => s!"Reconstruction backend failed: {text}"

/-- Whether the error was found before the reconstruction was tried. -/
def isPrecondition : ReconstructionError → Bool
  | tooFewPoints .. | missingBounds | invalidParameter .. => true
  | backend _ => false

end ReconstructionError

/-- What a person may tune about the reconstruction. It is handed over as it is. -/
structure ReconstructionParams where
  /-- The depth of the tree that space is divided by. -/
  depth : Nat := 8
  /-- The size of the cube worked in, relative to that of the cloud. -/
  scale : Float := 1.1
  linearFit : Bool := false
  /-- The number of samples of the surface. -/
  numSamples : Nat := 10000
  /-- The radius in which normals are estimated. -/
  normalRadius : Float := 0.1
  /-- The number of points that an estimate of a normal looks at. -/
  maxNeighbours : Nat := 30
  /-- The least number of points worth reconstructing from. -/
  minPoints : Nat := 32
  deriving BEq, DecidableEq, Inhabited

namespace ReconstructionParams

/-- Whether a double is finite and above zero. -/
def isPositive (x : Float) : Bool :=
  x.isFinite && 0.0 < x

/-- Whether every parameter is within its range, and if not, which is the first that is not. -/
def validate (params : ReconstructionParams) : Except ReconstructionError Unit :=
  if params.depth < 1 || 16 < params.depth then
    .error (.invalidParameter "depth" "must be between 1 and 16")
  else if !isPositive params.scale then .error (.invalidParameter "scale" "must be > 0")
  else if params.numSamples = 0 then .error (.invalidParameter "num_samples" "must be > 0")
  else if !isPositive params.normalRadius then
    .error (.invalidParameter "normal_radius" "must be > 0")
  else if params.maxNeighbours = 0 then .error (.invalidParameter "max_neighbours" "must be > 0")
  else .ok ()

/-- The least number of points that a cloud needs, which is never less than one. -/
def requiredPoints (params : ReconstructionParams) : Nat :=
  max params.minPoints 1

/-- Parameters as a record. -/
def toData (params : ReconstructionParams) : Data :=
  .record [("depth", .ofNat params.depth), ("scale", .float params.scale),
    ("linear_fit", .bool params.linearFit), ("num_samples", .ofNat params.numSamples),
    ("normal_radius", .float params.normalRadius),
    ("max_neighbours", .ofNat params.maxNeighbours), ("min_points", .ofNat params.minPoints)]

/-- The parameters that stand in a document. What is left out keeps its default. -/
def ofData? (dialect : Dialect) (d : Data) : Option ReconstructionParams := do
  let default : ReconstructionParams := {}
  let fields ← Fields.read? dialect ["depth", "scale", "linear_fit", "num_samples",
    "normal_radius", "max_neighbours", "min_points"] d
  let depth ← fields.withDefault "depth" default.depth Data.smallCount?
  let scale ← fields.withDefault "scale" default.scale Data.float?
  let linearFit ← fields.withDefault "linear_fit" default.linearFit Data.bool?
  let numSamples ← fields.withDefault "num_samples" default.numSamples Data.count?
  let normalRadius ← fields.withDefault "normal_radius" default.normalRadius Data.float?
  let maxNeighbours ← fields.withDefault "max_neighbours" default.maxNeighbours Data.count?
  let minPoints ← fields.withDefault "min_points" default.minPoints Data.count?
  some { depth, scale, linearFit, numSamples, normalRadius, maxNeighbours, minPoints }

end ReconstructionParams

namespace PointCloud

/-- Whether a cloud and the parameters are fit to be handed over: valid parameters, enough
points, and a box. -/
def checkReconstruction (cloud : PointCloud) (params : ReconstructionParams) :
    Except ReconstructionError Unit := do
  params.validate
  if cloud.size < params.requiredPoints then
    .error (.tooFewPoints cloud.size params.requiredPoints)
  else if !cloud.hasDeposits then .error .missingBounds
  else .ok ()

/-- Hand a cloud to a reconstruction if it is fit for it. The reconstruction may have effects of
any kind; it is run once or not at all. -/
def reconstruct {m : Type → Type} [Monad m] {Mesh : Type}
    (backend : PointCloud → ReconstructionParams → m (Except ReconstructionError Mesh))
    (cloud : PointCloud) (params : ReconstructionParams) :
    m (Except ReconstructionError Mesh) :=
  match cloud.checkReconstruction params with
  | .error failure => pure (.error failure)
  | .ok () => backend cloud params

end PointCloud

end Toolpath
