import PugSize.Insert
import PugSize.LineDiff.Render
import PugSize.Main
import PugSize.Proofs.Insert.Frame
import PugSize.Proofs.Edit.Slots
import PugSize.Proofs.Mixin.Located
import PugSize.Run
import PugSize.Session
import PugSize.Settings
import PugSize.Workspace.Images
import PugSize.Proofs.Insert.Repeat
import PugSize.Proofs.Edit.KeySearch
import PugSize.Proofs.Edit.WrittenKey
import PugSize.Proofs.Edit.ValueSearch
import PugSize.Proofs.Edit.RowWrite
import PugSize.Proofs.Edit.Appended
import PugSize.Proofs.Edit.ObjectRows
import PugSize.Proofs.Edit.KeyedCores
import PugSize.Proofs.Edit.PlainObject
import PugSize.Proofs.Edit.ObjectRead
import PugSize.Proofs.Edit.ObjectEdits
import PugSize.Proofs.Edit.SlotTexts
import PugSize.Proofs.Mixin.Agreement
import PugSize.Proofs.Mixin.Segments
import PugSize.Proofs.Script.CutOut
import PugSize.Proofs.Insert.LineEnds
import PugSize.Proofs.Run.Outputs
import PugSize.Proofs.Insert.Reread
import PugSize.Proofs.Insert.ReadBack
import PugSize.Proofs.Insert.InTurn
import PugSize.Proofs.Edit.Protected
import PugSize.Proofs.Edit.RowPlaces
import PugSize.Proofs.Edit.FoundValue
import PugSize.Proofs.Edit.Margins
import PugSize.Proofs.Edit.CoreTurns
import PugSize.Proofs.Edit.Renumbered
import PugSize.Proofs.Edit.Shaped
import PugSize.Proofs.Edit.LastWrite
import PugSize.Proofs.Edit.FoundPlace
import PugSize.Proofs.Edit.KeptComments
import PugSize.Proofs.Insert.Refusals
import PugSize.Proofs.Mixin.Nearest
import PugSize.Proofs.LineDiff.Rendered
import PugSize.Proofs.Script.StringItems
import PugSize.Proofs.Script.Tokens
import PugSize.Proofs.Insert.Preview
import PugSize.Proofs.Workspace.Questions
import PugSize.Proofs.Edit.TokenClasses
import PugSize.Proofs.Image.StatedSize
import PugSize.Proofs.Insert.Pixels
import PugSize.Proofs.Edit.AtOnce
import PugSize.Proofs.Document.Places
import PugSize.Proofs.Script.CallTokens
