import Groonga.Ii.ByteCode
import Groonga.Ii.Pack
import Groonga.Ii.Codec
import Groonga.Ii.Ownership
import Groonga.Ii.Rebuild
import Groonga.Lib.Patricia
import Groonga.Pat.Basic
import Groonga.Pat.Linked
import Groonga.Pat.Invariant
import Groonga.Pat.Surgery
import Groonga.Pat.Fields
import Groonga.Pat.Find
import Groonga.Pat.Add
import Groonga.Pat.Pending
import Groonga.Pat.Remove
import Groonga.Pat.Record
import Groonga.Pat.Delete
import Groonga.Pat.Map
import Groonga.Pat.Keys
import Groonga.Str
import Groonga.Pat.Defrag
import Groonga.Pat.Shared
import Groonga.Pat.Sis
import Groonga.Pat.Cursor
import Groonga.Lib.PatriciaOrder
import Groonga.Pat.KeyCursor
import Groonga.Pat.Prefix
import Groonga.Pat.CommonPrefix
import Groonga.Pat.Wal
import Groonga.Pat.Recover
import Groonga.Pat.Changes
import Groonga.Pat.Redone
import Groonga.Pat.Again
import Groonga.Pat.Twice
import Groonga.Load.Values
import Groonga.Load.Record
import Groonga.Load.Forms
import Groonga.Lib.JsonText
import Groonga.Load.Number
import Groonga.Load.Reader
import Groonga.Load.Simulation
import Groonga.Load.Stream
import Groonga.Load.Escape
import Groonga.Load.Denote
import Groonga.Lib.Grams
import Groonga.Token.Ngram
import Groonga.Token.Tokens
import Groonga.Token.Phrase
import Groonga.Lib.Memory
import Groonga.Lib.Chain
import Groonga.Table.Array
import Groonga.Table.Reuse
import Groonga.Table.Runs
import Groonga.Lib.Probing
import Groonga.Hash.Basic
import Groonga.Hash.Table
import Groonga.Hash.Index
import Groonga.Hash.Ledger
import Groonga.Hash.Moves
import Groonga.Hash.Keys
import Groonga.Hash.Adding
import Groonga.Hash.Deleting
import Groonga.Hash.Rehash
import Groonga.Hash.Runs
import Groonga.Hash.Consecutive
import Groonga.Hash.Map
import Groonga.Lib.SkipChain
import Groonga.Ii.WriteBuffer
import Groonga.Ii.BufferChain
import Groonga.Ii.Cursor
import Groonga.Ii.CursorView
import Groonga.Ii.CursorSteps
import Groonga.Ii.CursorStands
import Groonga.Ii.Ahead
import Groonga.Lib.Heap
import Groonga.Ii.CursorHeap
import Groonga.Ii.TokenInfo
import Groonga.Ii.MergedStream
import Groonga.Ii.Sequential
import Groonga.Ii.Skipping
import Groonga.Lib.SearchTree
import Groonga.Ii.Select
import Groonga.Ii.RecordSearch
import Groonga.Ii.PhraseSearch
import Groonga.Ii.NearLoop
import Groonga.Ii.NearSearch
import Groonga.Ii.FindPhrase
import Groonga.Ii.PhraseWindows
import Groonga.Ii.NearPhrase
import Groonga.Lib.Redo
import Groonga.Hash.Wal
import Groonga.Hash.Replay
import Groonga.Hash.Recover
import Groonga.Hash.Halves
import Groonga.Lib.Ring
import Groonga.Ja.Basic
import Groonga.Ja.Put
import Groonga.Ja.Places
import Groonga.Ja.Ledger
import Groonga.Ja.Steps
import Groonga.Ja.Segments
import Groonga.Ja.Stored
import Groonga.Ja.Sound
import Groonga.Ja.GarbageSteps
import Groonga.Ja.SegmentSteps
import Groonga.Ja.Freeing
import Groonga.Ja.Allocating
import Groonga.Ja.Setting
import Groonga.Ja.Replacing
import Groonga.Ja.Runs
import Groonga.Ja.Compressed
import Groonga.Ja.Reader
import Groonga.Lib.Binary32
import Groonga.Ja.Value
import Groonga.Ja.Weight
import Groonga.Ja.RingBuffer
import Groonga.Vector.Basic
import Groonga.Vector.Codec
import Groonga.Vector.Unpack
import Groonga.Str.Integer
import Groonga.Load.Inside
import Groonga.Dat.Key
import Groonga.Lib.ByteOrder
import Groonga.Lib.FloatOrder
import Groonga.Lib.Interleave
import Groonga.Pat.KeyEncoding
import Groonga.Lib.IdScan
import Groonga.Table.Cursor
import Groonga.Table.Tiny
import Groonga.Hash.Cursor
import Groonga.Lib.QuickSort
import Groonga.Hash.Sort
import Groonga.Lib.EditDistance
import Groonga.Str.Characters
import Groonga.Pat.EditDistance
import Groonga.Proc.EditDistance
import Groonga.Pat.Fuzzy
import Groonga.Pat.FuzzySearch
import Groonga.Pat.FuzzyHeap
import Groonga.Lib.Occurrence
import Groonga.Snip.TunedBm
import Groonga.Snip.Search
import Groonga.Snip.Occurrences
import Groonga.Lib.BitCompare
import Groonga.Pat.RangeStack
import Groonga.Pat.RangeCursor
import Groonga.Lib.SortedWindow
import Groonga.Sort.Paths
import Groonga.Sort.Agreement
import Groonga.Command.Run
import Groonga.Vector.Column
import Groonga.Token.Search
import Groonga.Load.Dump
