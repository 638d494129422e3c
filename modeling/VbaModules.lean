import VbaModules.Bundle
import VbaModules.Casing.Spelling
import VbaModules.Casing.Style
import VbaModules.Command.Basic
import VbaModules.Command.Directory
import VbaModules.Command.Host
import VbaModules.Command.Listing
import VbaModules.Command.Run
import VbaModules.Command.Usage
import VbaModules.Conversion.ClassFile
import VbaModules.Conversion.Export
import VbaModules.Conversion.NameSpace
import VbaModules.Conversion.ShortName
import VbaModules.Dictionary
import VbaModules.Main
import VbaModules.Merge.Assembly
import VbaModules.Merge.Bucket
import VbaModules.Merge.Layout
import VbaModules.Merge.OptionStatement
import VbaModules.Notice
import VbaModules.Origin
import VbaModules.Pattern.Basic
import VbaModules.Pattern.Scan
import VbaModules.Qualify
import VbaModules.Rename.ClassName
import VbaModules.Rename.Rule
import VbaModules.Rename.Table
import VbaModules.Section.Basic
import VbaModules.Section.Candidate
import VbaModules.Section.Partition
import VbaModules.Section.Proxy
import VbaModules.Symbol.ModuleName
import VbaModules.Symbol.Private
import VbaModules.Symbol.Public
import VbaModules.Text.Ascii
import VbaModules.Text.CaseRun
import VbaModules.Text.Cased
import VbaModules.Text.CharRanges
import VbaModules.Text.ControlSequence
import VbaModules.Text.Line
import VbaModules.Text.Lower
import VbaModules.Text.Printable
import VbaModules.Text.Quoted
import VbaModules.Text.Upper
import VbaModules.Text.White
import VbaModules.Token.Basic
import VbaModules.Token.Keyword
import VbaModules.Token.Lexer
import VbaModules.Proofs.Assembling
import VbaModules.Proofs.LosslessLexing
import VbaModules.Proofs.SectionPartition
import VbaModules.Proofs.NameIsolation
import VbaModules.Proofs.Conservation
import VbaModules.Proofs.Composition
import VbaModules.Proofs.Readers
import VbaModules.Proofs.Lexemes
import VbaModules.Proofs.LineLocality
import VbaModules.Proofs.Relexing
import VbaModules.Proofs.WordSections
import VbaModules.Proofs.SpaceChanges
import VbaModules.Proofs.DroppedReturns
import VbaModules.Proofs.LineEndings
import VbaModules.Proofs.ShortNames
import VbaModules.Proofs.Converting
import VbaModules.Proofs.NamingLines
import VbaModules.Proofs.ClassNames
import VbaModules.Proofs.Lookup
import VbaModules.Proofs.LetterCase
import VbaModules.Proofs.Matches
import VbaModules.Proofs.References
import VbaModules.Proofs.OwnNames
import VbaModules.Proofs.FoldedLexing
import VbaModules.Proofs.CaseInsensitivity
import VbaModules.Proofs.Uniting
import VbaModules.Proofs.SlicedMatches
import VbaModules.Proofs.OpeningWords
import VbaModules.Proofs.SlicedCandidates
import VbaModules.Proofs.CutOut
import VbaModules.Proofs.DirectiveLines
import VbaModules.Proofs.IntrinsicKinds
import VbaModules.Proofs.Seams
import VbaModules.Proofs.NameTokens
import VbaModules.Proofs.MergedHeader
import VbaModules.Proofs.AliasClauses
import VbaModules.Proofs.AttachedRuns
import VbaModules.Proofs.IsolatedBlocks
import VbaModules.Proofs.ConsistentRenaming
import VbaModules.Proofs.NamesByLine
import VbaModules.Proofs.PublicNames
import VbaModules.Proofs.Respelling
import VbaModules.Proofs.UniformSpelling
import VbaModules.Proofs.KeptLines
import VbaModules.Proofs.Introductions
import VbaModules.Proofs.ClassFiles
import VbaModules.Proofs.Cues
import VbaModules.Proofs.OpenBlocks
import VbaModules.Proofs.ConditionalNesting
import VbaModules.Proofs.BracketedBlocks
import VbaModules.Proofs.OverlapComponents
import VbaModules.Proofs.SectionLines
import VbaModules.Proofs.VisibleOptions
import VbaModules.Proofs.Fillers
import VbaModules.Proofs.TrimmedBlocks
import VbaModules.Proofs.WrittenBlocks
import VbaModules.Proofs.QualifiedOptions
import VbaModules.Proofs.OrderlyModules
import VbaModules.Proofs.FreeNames
import VbaModules.Proofs.ExternalLines
import VbaModules.Proofs.EntryPoints
import VbaModules.Proofs.PrivateNames
import VbaModules.Proofs.MergedOptions
import VbaModules.Proofs.FirstElements
import VbaModules.Proofs.AssemblyErrors
import VbaModules.Proofs.QualifiedReferences
import VbaModules.Proofs.RenamedModules
import VbaModules.Proofs.ClassMarks
import VbaModules.Proofs.MarkedClasses
import VbaModules.Proofs.DistinctModules
import VbaModules.Proofs.RuleTables
import VbaModules.Proofs.Alignments
import VbaModules.Proofs.HiddenBlocks
import VbaModules.Proofs.LoneReturns
import VbaModules.Proofs.Scanning
import VbaModules.Proofs.TokenForms
import VbaModules.Proofs.Provenance
import VbaModules.Proofs.NestedBlocks
