import Toolpath.Error
import Toolpath.Main
import Toolpath.Proofs.Cloud.PointFile
import Toolpath.Proofs.Motion.Pulls
import Toolpath.Proofs.Motion.Tracks
import Toolpath.Proofs.Remarks
import Toolpath.Proofs.Settings.Completion
import Toolpath.Proofs.Cloud.Grouping
import Toolpath.Proofs.Geometry.Enclosure
import Toolpath.Proofs.Cloud.LayerBoxes
import Toolpath.Proofs.Motion.Spacing
import Toolpath.Proofs.CommandLine.Effects
import Toolpath.Proofs.Cloud.Delimiters
import Toolpath.Proofs.Files.Stopping
import Toolpath.Proofs.Motion.StepCount
import Toolpath.Proofs.Geometry.Center
import Toolpath.Proofs.Cloud.LastPoint
import Toolpath.Proofs.Settings.Saving
import Toolpath.Proofs.Settings.Faults
