import Yrby.Framework.Causal
import Yrby.Framework.Transition
import Yrby.Framework.Reentrant
import Yrby.Framework.Base64
import Yrby.Client.ReliableSync
import Yrby.Engine.Update
import Yrby.Engine.Protocol
import Yrby.Server.Document
import Yrby.Engine.Reference
import Yrby.Framework.Interleaving
import Yrby.Server.Store
import Yrby.Server.Sync
import Yrby.Server.StorageHooks
import Yrby.Server.Loadable
import Yrby.Server.DocumentChannel
import Yrby.EndToEnd.Handshake
import Yrby.Client.Session
import Yrby.EndToEnd.Delivery
import Yrby.Client.Awareness
import Yrby.Client.Retransmission
import Yrby.Server.Address
import Yrby.Engine.Edit
import Yrby.Framework.Html
import Yrby.Render.HtmlCore
import Yrby.Render.Walk
import Yrby.Render.LexicalHtml
import Yrby.Render.ProseMirrorHtml
import Yrby.Render.LexicalForest
import Yrby.Render.ProseMirrorForest
import Yrby.Render.Balance
import Yrby.Render.Alike
import Yrby.Render.LexicalAlike
import Yrby.Render.Escaping
import Yrby.Render.Text
import Yrby.Client.DocumentSession
import Yrby.Client.SessionLifecycle
import Yrby.Client.SessionStore
import Yrby.Render.ProseMirrorText
import Yrby.Writer.XmlText
import Yrby.Engine.Sparse
import Yrby.Server.Append
import Yrby.Engine.Readiness
import Yrby.Engine.Advance
import Yrby.Server.Binding
import Yrby.Client.DocumentElement
import Yrby.Framework.Splice
import Yrby.Render.RenderRules
import Yrby.Render.Reached
import Yrby.Render.Transparent
import Yrby.Writer.Blocks
import Yrby.Writer.RoundTrip
import Yrby.Client.ActionCableProvider
import Yrby.Client.ProviderIsolation
import Yrby.Client.ProviderPresence
import Yrby.Client.PresenceKept
import Yrby.Engine.Changes
import Yrby.Engine.Presence
import Yrby.Render.Links
import Yrby.Render.MarkRuns
import Yrby.Framework.Lines
import Yrby.Framework.Offsets
import Yrby.Reading.BlockText
import Yrby.Reading.Decoder
import Yrby.Reading.ReadXml
import Yrby.Writer.Indexes
import Yrby.Writer.Ordinals
import Yrby.Writer.MarkdownBlocks
import Yrby.Engine.Merge
import Yrby.Render.Unknown
import Yrby.Render.Visited
import Yrby.Framework.Patterns
import Yrby.Writer.MarkdownAppend
import Yrby.Client.TurboAdapter
import Yrby.Client.TurboSweeps
import Yrby.Client.TurboTimeouts
import Yrby.Framework.Outline
import Yrby.Writer.Edits
import Yrby.Writer.TextNodes
import Yrby.Framework.Expand
import Yrby.Render.Schema
import Yrby.Render.ShippedSchemas
import Yrby.Server.Attribute
import Yrby.Render.CompileRules
import Yrby.Render.RuleMeaning
import Yrby.Writer.SharedMap
import Yrby.Writer.SharedArray
