import Colloc.Lib.Order
import Colloc.Lib.Stdlib
import Colloc.Lib.Tally
import Colloc.Lib.Numbered
import Colloc.Lib.Windows
import Colloc.Lib.Runs
import Colloc.Lib.Total
import Colloc.Lib.Index
import Colloc.Lib.Marginal
import Colloc.Lib.Cut
import Colloc.Lib.ListMerge
import Colloc.Lib.Positions
import Colloc.Lib.PrefixCode
import Colloc.Lib.Delimited
import Colloc.Lib.Tagged
import Colloc.Lib.Merge
import Colloc.Lib.Collocation
import Colloc.Lib.CorpusRename
import Colloc.Lib.CorpusOrder
import Colloc.Lib.Layers
import Colloc.Lib.CorpusParts
import Colloc.Lib.Overlay
import Colloc.Lib.Interleave
import Colloc.Lib.Columns
import Colloc.Spec.Base
import Colloc.Spec.Grams
import Colloc.Spec.Streamer
import Colloc.Spec.Kmerge
import Colloc.Spec.Wire
import Colloc.Spec.WireFormat
import Colloc.Spec.Tools
import Colloc.Spec.Convert
import Colloc.Spec.Capnp
import Colloc.Spec.Lemmer
import Colloc.Spec.GramStat
import Colloc.Spec.GroupLem
import Colloc.Spec.Freq
import Colloc.Spec.ToZmap
import Colloc.Spec.ParList
import Colloc.Spec.Extract
import Colloc.Spec.ToTxt
import Colloc.Spec.DataFile
import Colloc.Spec.Gramcat
import Colloc.Proofs.ListFiles
import Colloc.Proofs.ParList
import Colloc.Proofs.RecordFile
import Colloc.Proofs.Kmerge
import Colloc.Proofs.ReadOrder
import Colloc.Proofs.CutFiles
import Colloc.Proofs.Groupby
import Colloc.Proofs.ExternalSort
import Colloc.Proofs.GramStat
import Colloc.Proofs.GramCounts
import Colloc.Proofs.Lemmer
import Colloc.Proofs.Transformer
import Colloc.Proofs.Convert
import Colloc.Proofs.Corpus
import Colloc.Proofs.Framing
import Colloc.Proofs.Unigrams
import Colloc.Proofs.Combos
import Colloc.Proofs.Freq
import Colloc.Proofs.DocFreq
import Colloc.Proofs.GroupLem
import Colloc.Proofs.LemWeights
import Colloc.Proofs.GroupExact
import Colloc.Proofs.Marginals
import Colloc.Proofs.Lemmatize
import Colloc.Proofs.Pointwise
import Colloc.Proofs.Groups
import Colloc.Proofs.GroupFile
import Colloc.Proofs.Filters
import Colloc.Proofs.DocTables
import Colloc.Proofs.FreqStages
import Colloc.Proofs.Zmap
import Colloc.Proofs.ZmapFinds
import Colloc.Proofs.ZmapKeys
import Colloc.Proofs.CaseOrder
import Colloc.Proofs.Extract
import Colloc.Proofs.Run
import Colloc.Proofs.Thresholds
import Colloc.Proofs.Rename
import Colloc.Proofs.RenameRun
import Colloc.Proofs.Renumber
import Colloc.Proofs.DocOrder
import Colloc.Proofs.IdCorpus
import Colloc.Proofs.TextCorpus
import Colloc.Proofs.Published
import Colloc.Proofs.Outcome
import Colloc.Proofs.Determined
import Colloc.Proofs.MapShape
import Colloc.Proofs.Apriori
import Colloc.Proofs.Session
import Colloc.Proofs.History
import Colloc.Proofs.MergeState
import Colloc.Proofs.ToTxt
import Colloc.Proofs.DataFile
import Colloc.Proofs.Gramcat
import Colloc.Proofs.ReadTotal
