import BlockScript.Main
import BlockScript.Settings
import BlockScript.Proofs.FormatMeaning
import BlockScript.Proofs.MaximalMunch
import BlockScript.Proofs.Outcomes
import BlockScript.Proofs.Recovery
import BlockScript.Proofs.ScopeDiscipline
import BlockScript.Proofs.Survivors
import BlockScript.Proofs.TraceBrackets
import BlockScript.Proofs.ViablePrefix
import BlockScript.Proofs.SessionBatch
import BlockScript.Proofs.Acts
import BlockScript.Proofs.BlockTransparency
import BlockScript.Proofs.TraceCounts
import BlockScript.Proofs.CursorParser
import BlockScript.Proofs.CursorAgreement
import BlockScript.Proofs.EventLines
import BlockScript.Proofs.JsonRoundTrip
import BlockScript.Proofs.TraceFile
import BlockScript.Proofs.CommentDetection
import BlockScript.Proofs.InputCompleteness
import BlockScript.Proofs.Layout
import BlockScript.Proofs.SubtreeLines
import BlockScript.Proofs.RefusedWrite
import BlockScript.Proofs.ScopeHistory
import BlockScript.Proofs.JsonNumbers
import BlockScript.Proofs.ScopeJson
import BlockScript.Proofs.QuotedText
import BlockScript.Proofs.TreeDump
import BlockScript.Proofs.LineNumbers
import BlockScript.Proofs.SubsetOrder
import BlockScript.Proofs.GrammarLayout
