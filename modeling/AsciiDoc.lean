import AsciiDoc.Config.Decoder
import AsciiDoc.Document.Picture
import AsciiDoc.Journal
import AsciiDoc.Proofs.Conformance
import AsciiDoc.Proofs.Idempotence
import AsciiDoc.Proofs.Losslessness
import AsciiDoc.Proofs.Separation
import AsciiDoc.Proofs.SyntaxErrors
import AsciiDoc.Trial
import AsciiDoc.Proofs.Nesting
import AsciiDoc.Proofs.PrintedLines
import AsciiDoc.Proofs.KeptAttributes
import AsciiDoc.Proofs.Quotation
import AsciiDoc.Proofs.Totality
import AsciiDoc.Proofs.FormalPass
import AsciiDoc.Proofs.ModeStacks
import AsciiDoc.Proofs.PrintedEnds
import AsciiDoc.Proofs.Matching
import AsciiDoc.Proofs.Merging
import AsciiDoc.Proofs.Slices
import AsciiDoc.Proofs.LegacyIds
import AsciiDoc.Proofs.JsonStrings
import AsciiDoc.Proofs.JsonValues
import AsciiDoc.Proofs.SurroundingBlanks
import AsciiDoc.Proofs.Settings
import AsciiDoc.Proofs.OffsetLookup
import AsciiDoc.Proofs.JsonInjectivity
import AsciiDoc.Proofs.TreePicture
