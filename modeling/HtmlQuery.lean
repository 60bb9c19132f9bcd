import HtmlQuery.Command.Run
import HtmlQuery.Main
import HtmlQuery.Text.FileTree
import HtmlQuery.Proofs.Tree.Ancestry
import HtmlQuery.Proofs.Tree.Growth
import HtmlQuery.Proofs.Tree.DocumentOrder
import HtmlQuery.Proofs.Selector.AncestorChains
import HtmlQuery.Proofs.Lookup.Indexes
import HtmlQuery.Proofs.Selector.Searches
import HtmlQuery.Proofs.Selector.Strategies
import HtmlQuery.Proofs.Lookup.Lookups
import HtmlQuery.Proofs.Tree.Appending
import HtmlQuery.Proofs.Markup.Changes
import HtmlQuery.Proofs.Markup.OpenElements
import HtmlQuery.Proofs.Markup.Skeleton
import HtmlQuery.Proofs.Markup.TokenMarkup
import HtmlQuery.Proofs.Tree.Grafting
import HtmlQuery.Proofs.Markup.ForestMarkup
import HtmlQuery.Proofs.Selector.Grammar
import HtmlQuery.Proofs.Selector.Reading
import HtmlQuery.Proofs.Selector.WrittenForm
import HtmlQuery.Proofs.Markup.Registers
import HtmlQuery.Proofs.Markup.Boundaries
import HtmlQuery.Proofs.Tree.Links
import HtmlQuery.Proofs.Tree.Traversals
import HtmlQuery.Proofs.Markup.EndTags
import HtmlQuery.Proofs.Markup.RawText
import HtmlQuery.Proofs.Markup.RawTextElements
import HtmlQuery.Proofs.Selector.SingleTerms
import HtmlQuery.Proofs.Selector.Unreadable
import HtmlQuery.Proofs.Json.WrittenValues
import HtmlQuery.Proofs.Command.Answers
import HtmlQuery.Proofs.Tree.Texts
import HtmlQuery.Proofs.Markup.Texts
import HtmlQuery.Proofs.Markup.PlainText
import HtmlQuery.Proofs.Markup.StartTags
import HtmlQuery.Proofs.Markup.RawTextContents
import HtmlQuery.Proofs.Markup.TokenShapes
import HtmlQuery.Proofs.Markup.ImpliedTags
import HtmlQuery.Proofs.Markup.ElementAttributes
import HtmlQuery.Proofs.Markup.Turns
import HtmlQuery.Proofs.Tree.Outlines
import HtmlQuery.Proofs.Markup.ElementShapes
import HtmlQuery.Proofs.Tree.OutlineLines
import HtmlQuery.Proofs.Markup.PrintedTags
import HtmlQuery.Proofs.Command.Marks
import HtmlQuery.Proofs.Markup.RegisterContents
import HtmlQuery.Proofs.Markup.Modes
