import MathEdit.Main
import MathEdit.Proofs.Region.Openers
import MathEdit.Proofs.Region.Truncation
import MathEdit.Proofs.Region.Partition
import MathEdit.Proofs.Region.Located
import MathEdit.Proofs.Region.Windows
import MathEdit.Proofs.Token.Boundaries
import MathEdit.Proofs.Token.Cuts
import MathEdit.Proofs.Token.Nesting
import MathEdit.Proofs.Equation.Breaks
import MathEdit.Proofs.Token.Blanks
import MathEdit.Proofs.Token.Live
import MathEdit.Proofs.Equation.Marks
import MathEdit.Proofs.Equation.Stream
import MathEdit.Proofs.Region.Live
import MathEdit.Proofs.Region.Tokens
import MathEdit.Proofs.Region.Delimited
import MathEdit.Proofs.Region.Neutral
import MathEdit.Proofs.Region.Single
import MathEdit.Proofs.Equation.Inner
import MathEdit.Proofs.References.Environments
import MathEdit.Proofs.References.Integrity
import MathEdit.Proofs.References.Contents
import MathEdit.Proofs.Stops
import MathEdit.Proofs.Region.Comments
import MathEdit.Proofs.Region.Replaced
import MathEdit.Proofs.Equation.Turns
import MathEdit.Proofs.Edit
import MathEdit.Proofs.Position.Columns
import MathEdit.Proofs.Position.Offsets
import MathEdit.Proofs.Typing
import MathEdit.Proofs.Token.Partition
import MathEdit.Proofs.Region.Stops
import MathEdit.Proofs.Region.FirstCloser
import MathEdit.Proofs.References.Owners
import MathEdit.Proofs.Command.Frame
import MathEdit.Proofs.Region.Limits
import MathEdit.Proofs.Region.Balance
import MathEdit.Proofs.Equation.Characters
import MathEdit.Proofs.Equation.Skeleton
import MathEdit.Proofs.Token.Depth
import MathEdit.Proofs.Token.Comments
import MathEdit.Proofs.Script.Detected
import MathEdit.Proofs.Script.Groups
import MathEdit.Proofs.Script.Parts
import MathEdit.Proofs.Escape
import MathEdit.Proofs.Stops.Listed
import MathEdit.Proofs.References.Definitions
import MathEdit.Proofs.References.Comments
import MathEdit.Proofs.Config.Overlay
import MathEdit.Proofs.Region.Bytes.Location
