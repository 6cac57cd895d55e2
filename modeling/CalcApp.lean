import CalcApp.Program
import CalcApp.Program.Draft
import CalcApp.Outline.Parse
import CalcApp.Screen
import CalcApp.Dictionary
import CalcApp.Document
import CalcApp.Session
import CalcApp.Proofs.Compile
import CalcApp.Proofs.Draft
import CalcApp.Proofs.Preorder
import CalcApp.Proofs.Navigation
import CalcApp.Proofs.RoundTrip
import CalcApp.Proofs.MenuTree
import CalcApp.Proofs.Identity
import CalcApp.Proofs.Reimport
import CalcApp.Proofs.Node.Find
import CalcApp.Proofs.Capacity
import CalcApp.Proofs.Screen
import CalcApp.Proofs.Screen.Label
import CalcApp.Proofs.Listing.Shape
import CalcApp.Proofs.Listing.Order
import CalcApp.Proofs.Json.Scalar
import CalcApp.Proofs.Json.Nested
import CalcApp.Proofs.Document
import CalcApp.Proofs.Note.Screenful
import CalcApp.Proofs.Screen.Section
import CalcApp.Proofs.Screen.Content
import CalcApp.Proofs.Screen.Climb
import CalcApp.Proofs.Screen.Blocks
import CalcApp.Proofs.Node.Gap
import CalcApp.Proofs.Node.Room
import CalcApp.Proofs.Clash
import CalcApp.Proofs.Move
import CalcApp.Proofs.Listing.Expansion
import CalcApp.Proofs.Note.Hint
import CalcApp.Proofs.Note.Layout
import CalcApp.Proofs.Note.Newlines
import CalcApp.Proofs.Node.First
import CalcApp.Proofs.Node.Entries
import CalcApp.Proofs.Instruction.Grammar
import CalcApp.Proofs.Report
import CalcApp.Proofs.Dictionary
import CalcApp.Proofs.Dictionary.Invalid
import CalcApp.Proofs.Dictionary.Local
