import ApexLayout.Main
import ApexLayout.Proofs.Condition.Printing
import ApexLayout.Proofs.Expression.Reading
import ApexLayout.Proofs.Tree.Reference
import ApexLayout.Proofs.Twin.Comments
import ApexLayout.Proofs.Printing.Origin
import ApexLayout.Proofs.Settings.Layering
import ApexLayout.Proofs.Text.Conversion
import ApexLayout.Proofs.Occurrence.Depth
import ApexLayout.Proofs.Command.Formatting
import ApexLayout.Proofs.Comment.Spacing
import ApexLayout.Proofs.Comment.Attachment
import ApexLayout.Proofs.Occurrence.Owing
import ApexLayout.Proofs.Printing.KeptBlank
import ApexLayout.Proofs.Extent.Surrounded
import ApexLayout.Proofs.Printing.Bounds
import ApexLayout.Proofs.Trail.Walk
import ApexLayout.Proofs.Comment.Reindent
import ApexLayout.Proofs.Expression.Chain
import ApexLayout.Proofs.Render.Dump
import ApexLayout.Proofs.Render.Room
import ApexLayout.Proofs.Render.Rounds
import ApexLayout.Proofs.Extent.Recursion
import ApexLayout.Proofs.Text.Lines
import ApexLayout.Proofs.Text.Scan
