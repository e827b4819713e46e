import Mozkey.Lib.Iterator
import Mozkey.Lib.List
import Mozkey.Base.ByteString
import Mozkey.Storage.BitVectorBasedArray
import Mozkey.Lib.LruMap
import Mozkey.Lib.Run
import Mozkey.Lib.Best
import Mozkey.Lib.SortedMap
import Mozkey.TypingCorrection.BestCorrections
import Mozkey.TypingCorrection.IncrementalCache
import Mozkey.TypingCorrection.ShadowConversion
import Mozkey.Config.CharacterFormManager
import Mozkey.Dictionary.TokenScan
import Mozkey.Prediction.UserHistoryStorage
import Mozkey.Prediction.ClearHistoryEntry
import Mozkey.Prediction.Recency
import Mozkey.Prediction.UndoCommit
import Mozkey.Prediction.NumberReading
import Mozkey.Prediction.RomanFuzzyPrefixMatch
import Mozkey.Rewriter.SegmentHistoryRevert
import Mozkey.Grimodex.SnapshotPublisher
import Mozkey.Grimodex.SnapshotLoader
import Mozkey.DataManager.DataSetReader
import Mozkey.Storage.ExistenceFilter
import Mozkey.Base.Encryptor
import Mozkey.Converter.Connector
import Mozkey.Converter.InnerSegmentBoundary
import Mozkey.Converter.NBestCosts
import Mozkey.Converter.PredictionViterbi
import Mozkey.Session.ZenzFeedbackDecision
import Mozkey.Session.ZenzFeedbackStore
import Mozkey.Session.ZenzRepair
import Mozkey.Session.ZenzSurfaces
import Mozkey.Session.ZenzOutputValidator
import Mozkey.Session.ZenzPromptFraming
import Mozkey.Storage.LruStoragePersistence
import Mozkey.Dictionary.FileCodec
import Mozkey.Converter.SegmenterBitarray
import Mozkey.Dictionary.KeyCodec
import Mozkey.Dictionary.ValueCodec
import Mozkey.Storage.LruCacheRuns
import Mozkey.Base.TrieMap
import Mozkey.Composer.InsertCharacterKeyEvent
import Mozkey.Composer.PendingLength
import Mozkey.Composer.RawConservation
import Mozkey.Composer.RawSubString
import Mozkey.Dictionary.SectionViews
import Mozkey.Base.SerializedStringArray
import Mozkey.Converter.OneByteConnection
import Mozkey.Dictionary.ProjectDictionaryRegistry
import Mozkey.Dictionary.ProjectDictionaryOrder
import Mozkey.Dictionary.UserDictionaryLookup
import Mozkey.Dictionary.ImportRequests
import Mozkey.Dictionary.ExportedText
import Mozkey.Dictionary.ImportedFile
import Mozkey.Dictionary.UserDictionaryReloader
import Mozkey.Base.Csv
import Mozkey.Storage.ExistenceFilterSafety
import Mozkey.Base.NumberUtil
import Mozkey.Base.Utf32
import Mozkey.Base.Utf8Decoding
import Mozkey.Converter.ResizeSegments
import Mozkey.Lib.BinarySearch
import Mozkey.DataManager.SerializedDictionary
import Mozkey.Rewriter.RankingKeepsCandidates
import Mozkey.Rewriter.CalculatorGrammar
import Mozkey.Grimodex.Timestamp
import Mozkey.Storage.LruCacheCapacity
import Mozkey.Base.FlatConcurrentCache
import Mozkey.Converter.KeyCorrectorAlignment
import Mozkey.Engine.CandidateFocus
import Mozkey.Engine.CandidateTraversal
import Mozkey.Engine.CandidateIds
import Mozkey.Engine.RerankingContext
import Mozkey.Storage.BitVectorBasedArrayImage
import Mozkey.Storage.LoudsTrieImage
import Mozkey.Dictionary.BuildAndSearch
