import Markup.Attribute.Basic
import Markup.Attribute.Quote
import Markup.Attribute.Recognizer
import Markup.Blueprint.Arena
import Markup.Blueprint.Basic
import Markup.Blueprint.Raise
import Markup.Config
import Markup.Construct.Basic
import Markup.Construct.Branches
import Markup.Construct.Flow
import Markup.Dialect
import Markup.Document.Basic
import Markup.Document.Walk
import Markup.Error
import Markup.Expression
import Markup.Growing
import Markup.Html.Declaration
import Markup.Html.Dialect
import Markup.Html.Lexeme
import Markup.Html.Tag
import Markup.Html.Tree
import Markup.Json.Basic
import Markup.Json.Printer
import Markup.Json.Reader
import Markup.Node.Basic
import Markup.Node.Name
import Markup.Options
import Markup.Proofs.Attribute.Cover
import Markup.Proofs.Attribute.Locate
import Markup.Proofs.Attribute.Lossless
import Markup.Proofs.Attribute.Place
import Markup.Proofs.Attribute.Recognizer
import Markup.Proofs.Attribute.Shift
import Markup.Proofs.Attribute.Spelling
import Markup.Proofs.Blueprint.Block
import Markup.Proofs.Blueprint.Branches
import Markup.Proofs.Blueprint.Buildable
import Markup.Proofs.Blueprint.Closers
import Markup.Proofs.Blueprint.Construct
import Markup.Proofs.Blueprint.Cover
import Markup.Proofs.Blueprint.Depths
import Markup.Proofs.Blueprint.Element
import Markup.Proofs.Blueprint.Groups
import Markup.Proofs.Blueprint.Grove
import Markup.Proofs.Blueprint.Nesting
import Markup.Proofs.Blueprint.Raise
import Markup.Proofs.Blueprint.Refusal
import Markup.Proofs.Blueprint.Relocation
import Markup.Proofs.Blueprint.Row
import Markup.Proofs.Blueprint.Shift
import Markup.Proofs.Construct.Map
import Markup.Proofs.Construct.Roles
import Markup.Proofs.Construct.Sections
import Markup.Proofs.Construct.Tiling
import Markup.Proofs.Construct.Visits
import Markup.Proofs.Dialects
import Markup.Proofs.Document.Closers
import Markup.Proofs.Document.Coherence
import Markup.Proofs.Document.Embedding
import Markup.Proofs.Document.Lossless
import Markup.Proofs.Document.Namespace
import Markup.Proofs.Document.Nesting
import Markup.Proofs.Document.Rendering
import Markup.Proofs.Document.Runs
import Markup.Proofs.Document.Walk
import Markup.Proofs.Expression
import Markup.Proofs.Expression.Nested
import Markup.Proofs.Growing
import Markup.Proofs.Html.Beginning
import Markup.Proofs.Html.Closing
import Markup.Proofs.Html.Dialect
import Markup.Proofs.Html.Doctype
import Markup.Proofs.Html.DocumentStart
import Markup.Proofs.Html.Element
import Markup.Proofs.Html.EndTag
import Markup.Proofs.Html.Extent
import Markup.Proofs.Html.Filling
import Markup.Proofs.Html.FrontMatter
import Markup.Proofs.Html.Growth
import Markup.Proofs.Html.Leading
import Markup.Proofs.Html.Lexeme
import Markup.Proofs.Html.Missing
import Markup.Proofs.Html.Nesting
import Markup.Proofs.Html.Page
import Markup.Proofs.Html.PageTree
import Markup.Proofs.Html.Refusal
import Markup.Proofs.Html.Rereading
import Markup.Proofs.Html.Runs
import Markup.Proofs.Html.Tag
import Markup.Proofs.Html.Tree
import Markup.Proofs.Html.Written
import Markup.Proofs.Source.Location
import Markup.Proofs.Source.Refusal
import Markup.Proofs.Source.Shift
import Markup.Proofs.Source.Token
import Markup.Proofs.StartTag
import Markup.Proofs.StartTag.Cover
import Markup.Proofs.Svelte.Braces
import Markup.Proofs.Svelte.Clause
import Markup.Proofs.Svelte.Dialect
import Markup.Proofs.Svelte.Element
import Markup.Proofs.Svelte.Enclosed
import Markup.Proofs.Svelte.EndTag
import Markup.Proofs.Svelte.Extent
import Markup.Proofs.Svelte.Growth
import Markup.Proofs.Svelte.Inside
import Markup.Proofs.Svelte.Lexeme
import Markup.Proofs.Svelte.Links
import Markup.Proofs.Svelte.Normal
import Markup.Proofs.Svelte.Part
import Markup.Proofs.Svelte.Phases
import Markup.Proofs.Svelte.Recovery
import Markup.Proofs.Svelte.Refusal
import Markup.Proofs.Svelte.Rendering
import Markup.Proofs.Svelte.Rereading
import Markup.Proofs.Svelte.Runs
import Markup.Proofs.Svelte.Shorthand
import Markup.Proofs.Svelte.Shown
import Markup.Proofs.Svelte.StartTag
import Markup.Proofs.Svelte.Tag
import Markup.Proofs.Svelte.Template
import Markup.Proofs.Svelte.Written
import Markup.Proofs.Text.Cursor
import Markup.Proofs.Text.Insert
import Markup.Proofs.Text.Lines
import Markup.Proofs.Text.Search
import Markup.Proofs.Text.Slice
import Markup.Proofs.Text.Words
import Markup.Proofs.Tiling
import Markup.Ruleset
import Markup.Source.Basic
import Markup.Source.Bisection
import Markup.Source.Excerpt
import Markup.Source.Record
import Markup.StartTag
import Markup.Svelte.Attribute
import Markup.Svelte.Clause
import Markup.Svelte.Dialect
import Markup.Svelte.Fault
import Markup.Svelte.Lexeme
import Markup.Svelte.Tag
import Markup.Svelte.Template
import Markup.Svelte.Tree
import Markup.Text.Bytes
import Markup.Text.Classes
import Markup.Text.Cursor
import Markup.Text.Search
