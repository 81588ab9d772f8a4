import Raoui.Ring.Refine
import Raoui.Ffi.DoneDelivery
import Raoui.Ffi.HandOver
import Raoui.Ffi.Suppression
import Raoui.Ffi.Delivery
import Raoui.Text.UnicodeString
import Raoui.Lexer.Cache
import Raoui.Lexer.Lossless
import Raoui.Lexer.Incremental
import Raoui.Lexer.Provenance
import Raoui.Text.Clusters
import Raoui.Text.Wrapping
import Raoui.Lib.Pattern
import Raoui.Lib.Outcome
import Raoui.Ai.Session
import Raoui.Ai.McpServer
import Raoui.Ai.Interactions
import Raoui.Sandbox.Landlock
import Raoui.Sandbox.Seatbelt
import Raoui.Text.Reparse
import Raoui.Editor.Update
import Raoui.Editor.Suggestions
import Raoui.Editor.LexCache
import Raoui.Editor.Awaiting
import Raoui.Editor.Streaming
import Raoui.Editor.Recall
import Raoui.Editor.RecallMiss
import Raoui.Editor.Grammar
import Raoui.Editor.Complete
import Raoui.Lexer.Literal
import Raoui.Lexer.Settled
import Raoui.Editor.ShellLiteral
import Raoui.Editor.PathLiteral
import Raoui.Editor.SearchRows
import Raoui.Lib.WordWrap
import Raoui.Md.Layout
import Raoui.Md.WordWrap
import Raoui.Md.Table
import Raoui.Lib.Nesting
import Raoui.Lib.Like
import Raoui.Editor.UnfinishedLiteral
import Raoui.Editor.Cycling
import Raoui.Editor.OpenList
import Raoui.Editor.CompletedToken
import Raoui.Editor.FlatEdit
import Raoui.Editor.OutputPosition
import Raoui.Editor.Coordinates
import Raoui.Editor.VisualRows
import Raoui.Main.Attribution
import Raoui.Main.Query
import Raoui.Main.EventLoop
import Raoui.Editor.CacheTokens
import Raoui.View.View
import Raoui.View.Highlights
import Raoui.View.Rows
import Raoui.View.Shown
import Raoui.View.SameRows
import Raoui.Tty.Paste
import Raoui.Tty.CursorQuery
import Raoui.Editor.Pasting
import Raoui.Lib.Sgr
import Raoui.View.Ansi
import Raoui.Md.Tty
import Raoui.Lib.Tiling
import Raoui.View.SameStyles
import Raoui.Ffi.ImagePayload
import Raoui.Lib.Base64
import Raoui.Lib.GraphicsCommand
import Raoui.View.TerminalImage
import Raoui.Editor.Braces
import Raoui.Editor.Brackets
import Raoui.Ffi.RunR
import Raoui.Ffi.Worker
import Raoui.Ffi.Served
import Raoui.Ffi.Freshness
import Raoui.Md.Blocks
import Raoui.Md.Outline
import Raoui.Md.Widths
import Raoui.Md.Render
import Raoui.Editor.Asking
import Raoui.Main.OutputRenderer
import Raoui.Main.Console
import Raoui.Main.Hearing
import Raoui.Main.Handshake
import Raoui.Main.SharedHistory
import Raoui.View.Painted
import Raoui.View.Emulated
import Raoui.Editor.BoxFitting
