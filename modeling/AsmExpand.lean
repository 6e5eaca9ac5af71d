import AsmExpand.Main
import AsmExpand.Run.Disk
import AsmExpand.Proofs.Session
import AsmExpand.Proofs.Pushback
import AsmExpand.Proofs.Blocks
import AsmExpand.Proofs.Composition
import AsmExpand.Proofs.Places
import AsmExpand.Proofs.Locality
import AsmExpand.Proofs.Relisting
import AsmExpand.Proofs.Coverage
import AsmExpand.Proofs.Grammar
import AsmExpand.Proofs.Termination
import AsmExpand.Proofs.StringLimit
import AsmExpand.Proofs.RaisedLimits
import AsmExpand.Proofs.RawListing
import AsmExpand.Proofs.CarriageReturns
import AsmExpand.Proofs.NewlineStyles
import AsmExpand.Proofs.Whereabouts
import AsmExpand.Proofs.ArgumentList
import AsmExpand.Proofs.ExpressionFaults
import AsmExpand.Proofs.Disks
import AsmExpand.Proofs.Runs
import AsmExpand.Proofs.ListingFile
import AsmExpand.Proofs.EarlierReports
import AsmExpand.Proofs.Fallbacks
import AsmExpand.Proofs.ConcatLimit
import AsmExpand.Proofs.Comments
import AsmExpand.Proofs.DecimalText
import AsmExpand.Proofs.ListingRows
import AsmExpand.Proofs.WordArithmetic
import AsmExpand.Proofs.Definitions
import AsmExpand.Proofs.FeedSequence
