import Medit.TextBuffer.LineMoves
import Medit.Lsp.Completion
import Medit.Search.RegexEnds
import Medit.TextBtree.Capacity
import Medit.QuickOpen.FuzzyPositions
import Medit.TextBuffer.Cursor
import Medit.TextBuffer.Brackets
import Medit.Lsp.PositionUnits
import Medit.Indent.Shift
import Medit.Editor.SessionRoundTrip
import Medit.Editor.Names
import Medit.FileWatch.Runs
import Medit.Filters.Runs
import Medit.Panes.Runs
import Medit.UserTools.ShellCommand
import Medit.Output.Lines
import Medit.QuickOpen.FuzzyMatch
import Medit.LineBuffer.Undo
import Medit.LineBuffer.Queries
import Medit.FileList.Shape
import Medit.Accel.Runs
import Medit.Markup.RoundTrip
import Medit.Ui.Merges
import Medit.UserTools.ToolList
import Medit.QuickOpen.FileIndex
import Medit.QuickOpen.Dialog
import Medit.Config.Sources
import Medit.FileView.FileSystem
import Medit.FileView.Folder
import Medit.Process.CommandRuns
import Medit.Process.Command
import Medit.Process.Channel
import Medit.History.Sync
import Medit.History.Runs
import Medit.History.EntryList
import Medit.History.File
import Medit.History.Links
import Medit.History.Model
import Medit.Ipc.Delivery
import Medit.Ipc.Model
import Medit.Library.Channels
import Medit.Library.Hex
import Medit.Files.Reload
import Medit.Files.Save
import Medit.Files.LineEnds
import Medit.Files.Document
import Medit.Files.LineReader
import Medit.Files.EncodingRoundTrip
import Medit.Library.Unicode
import Medit.Search.Plain
import Medit.Search.BatchApply
import Medit.Search.Batch
import Medit.Lsp.Replies
import Medit.Lsp.ServerSync
import Medit.Library.Replica
import Medit.Lsp.ServerCalls
import Medit.Lsp.Server
import Medit.Lsp.ClientRuns
import Medit.Library.Calls
import Medit.Library.Machine
import Medit.Lsp.Client
import Medit.Lsp.EditsParse
import Medit.Lsp.EditsApply
import Medit.Lsp.Edits
import Medit.Lsp.Json
import Medit.Lsp.Position
import Medit.Library.Paragraphs
import Medit.Library.TextEdits
import Medit.Lsp.Reader
import Medit.Lsp.Message
import Medit.Library.Framing
import Medit.Library.CString
import Medit.LineBuffer.Limits
import Medit.LineBuffer.Runs
import Medit.TextBtree.Runs
import Medit.TextBuffer.UndoRuns
import Medit.Fold.Runs
import Medit.Config.EditConfig
import Medit.FileList.Moves
import Medit.FileList.Runs
import Medit.Filters.Model
import Medit.Library.RecentItems
import Medit.Filters.Manager
import Medit.Files.NormalPath
import Medit.Lsp.Symbols
import Medit.Lsp.Diagnostics
import Medit.Lsp.Signature
import Medit.Config.FilterSettings
import Medit.Config.ParseTexts
import Medit.Config.ModeLines
import Medit.TextBuffer.Uncomments
import Medit.Files.Glob
import Medit.Editor.Bookmarks
import Medit.Accel.Spellings
import Medit.Ui.Paths
import Medit.UserTools.ToolMenus
import Medit.TextBuffer.VisualOffset
import Medit.Spell.Resume
import Medit.QuickOpen.Ranker
import Medit.TextView.WordMoves
import Medit.Ctags.Tree
import Medit.Plugins.Runs
import Medit.Highlight.Refresh
import Medit.IconView.Layout
