import Dico.Common.Divisors
import Dico.Common.Memory
import Dico.Common.Run
import Dico.Common.Base64
import Dico.Common.Chain
import Dico.Common.Choice
import Dico.Common.Utf8
import Dico.Common.Source
import Dico.Common.QuotedPrintable
import Dico.Text.Strings
import Dico.Text.Utf8
import Dico.Text.Unicase
import Dico.Text.Compare
import Dico.Text.Collate
import Dico.Text.Select
import Dico.Common.EditDistance
import Dico.Text.Planes
import Dico.Text.Inplace
import Dico.Text.Wide
import Dico.Text.Substr
import Dico.Text.Nprefix
import Dico.Text.Levenshtein
import Dico.Text.Reverse
import Dico.Text.Iterator
import Dico.Text.IteratorBounds
import Dico.Text.CharWidth
import Dico.Text.RevertWord
import Dico.Common.Bsearch
import Dico.DictOrg.Model
import Dico.DictOrg.Define
import Dico.DictOrg.Prefix
import Dico.DictOrg.Suffix
import Dico.DictOrg.Dzip
import Dico.DictOrg.Cache
import Dico.DictOrg.Random
import Dico.DictOrg.Open
import Dico.DictOrg.IndexLine
import Dico.DictOrg.IndexGrammar
import Dico.Common.Lines
import Dico.Common.Fields
import Dico.Gcide.Page
import Dico.Gcide.Iterate
import Dico.Gcide.Search
import Dico.Gcide.Locate
import Dico.Gcide.Copy
import Dico.Gcide.Prefix
import Dico.Gcide.Count
import Dico.Gcide.Writer
import Dico.Gcide.Index
import Dico.Gcide.PageCache
import Dico.Gcide.Bounds
import Dico.Common.LongestMatch
import Dico.Gcide.Greek
import Dico.Gcide.MarkupInput
import Dico.Gcide.Tree
import Dico.Gcide.Output
import Dico.Gcide.Balance
import Dico.Gcide.KeepText
import Dico.Gcide.Entities
import Dico.Gcide.Scanner
import Dico.Gcide.Markup
import Dico.Gcide.MarkupSpace
import Dico.Outline.File
import Dico.Outline.Header
import Dico.Outline.Load
import Dico.Outline.Match
import Dico.Outline.Sections
import Dico.Outline.Database
import Dico.Text.Tokenize
import Dico.Text.Tokens
import Dico.Text.Quoting
import Dico.Text.Quotearg
import Dico.Text.Escapes
import Dico.Text.Literal
import Dico.Text.Cstr
import Dico.Text.Cleared
import Dico.Text.Number
import Dico.Text.Url
import Dico.Text.Argcv
import Dico.Text.ArgcvEscapes
import Dico.Text.ArgcvRoundTrip
import Dico.Text.ArgcvBuffer
import Dico.Text.Soundex
import Dico.Options.Find
import Dico.Common.Rotation
import Dico.Options.Permute
import Dico.Options.Wordnet
import Dico.Stream.Model
import Dico.Stream.Frame
import Dico.Stream.Bounds
import Dico.Stream.Chunks
import Dico.Stream.Delivery
import Dico.Stream.Seek
import Dico.Stream.Faithful
import Dico.Stream.Recursion
import Dico.Stream.Lines
import Dico.Stream.ReadAll
import Dico.Text.Header
import Dico.Reply.Ostream
import Dico.Reply.Client
import Dico.Reply.Banner
import Dico.Reply.BannerRobust
import Dico.Reply.Robust
import Dico.Reply.Parsing
import Dico.Reply.ClientLines
import Dico.Reply.RoundTrip
import Dico.Reply.Answer
import Dico.Reply.Channel
import Dico.Filter.CrlfWriter
import Dico.Filter.CrlfReader
import Dico.Filter.CrlfDelivery
import Dico.Filter.Model
import Dico.Filter.Base64
import Dico.Filter.Encoding
import Dico.Filter.Decode
import Dico.Filter.Decoding
import Dico.Filter.QpRoundTrip
import Dico.Filter.Base64Whole
import Dico.Filter.LineTrim
import Dico.Filter.LineWrap
import Dico.List.Assoc
import Dico.List.Model
import Dico.List.Pure
import Dico.List.Links
import Dico.List.Sorted
import Dico.List.Cursor
import Dico.List.Filter
import Dico.List.Position
import Dico.List.Item
import Dico.List.AssocLinks
import Dico.Server.Children
import Dico.Hash.Model
import Dico.Hash.Content
import Dico.Hash.Sizes
import Dico.Server.AccessLog
import Dico.Server.SocketAddress
import Dico.Session.Acl
import Dico.Session.AclConfig
import Dico.Session.AclHash
import Dico.Session.AclTable
import Dico.Session.Address
import Dico.Session.Dbtext
import Dico.Session.State
import Dico.Session.Lookup
import Dico.Session.Commands
import Dico.Session.Locate
import Dico.Session.Alias
import Dico.Session.AliasTable
import Dico.Session.Effects
import Dico.Session.Hidden
import Dico.Session.Visibility
import Dico.Session.Groups
import Dico.Session.Isolation
import Dico.Session.Password
import Dico.Reply.Define
import Dico.Reply.Matches
import Dico.Reply.Framing
import Dico.Session.Results
import Dico.Session.Articles
import Dico.Session.Protocol
import Dico.Session.Wire
import Dico.Session.Exchange
